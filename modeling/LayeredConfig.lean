import LayeredConfig.Setup
import LayeredConfig.Proofs.Equations
import LayeredConfig.Proofs.Multipath
import LayeredConfig.Proofs.Independence
import LayeredConfig.Proofs.FullExpansion
import LayeredConfig.Proofs.Progress
import LayeredConfig.Proofs.Cycles
import LayeredConfig.Proofs.Dependence
import LayeredConfig.Proofs.Termination
import LayeredConfig.Proofs.Merge
import LayeredConfig.Proofs.Stages
import LayeredConfig.Proofs.AtMostOnce
import LayeredConfig.Proofs.Extension
import LayeredConfig.Proofs.Grammar
import LayeredConfig.Proofs.Parsing
import LayeredConfig.Proofs.Visits
import LayeredConfig.Proofs.Escaping
import LayeredConfig.Proofs.Frame
import LayeredConfig.Proofs.SameCalls
import LayeredConfig.Proofs.Relaxing
import LayeredConfig.Proofs.LastCalls
import LayeredConfig.Proofs.Laziness
import LayeredConfig.Proofs.Joining
import LayeredConfig.Proofs.PathNames
import LayeredConfig.Proofs.Origins
import LayeredConfig.Proofs.Discovery
import LayeredConfig.Proofs.Overlay
import LayeredConfig.Proofs.Blindness
import LayeredConfig.Proofs.Erasure
import LayeredConfig.Proofs.Shadowing
import LayeredConfig.Proofs.Leafwise
import LayeredConfig.Proofs.Asking
import LayeredConfig.Proofs.Depth
import LayeredConfig.Proofs.Spelling
import LayeredConfig.Proofs.Concatenation
import LayeredConfig.Proofs.Rejection
import LayeredConfig.Proofs.Opacity
import LayeredConfig.Proofs.Gathering
import LayeredConfig.Proofs.ConcretePaths
import LayeredConfig.Proofs.Choices
import LayeredConfig.Proofs.OriginPaths
import LayeredConfig.Proofs.Documents
import LayeredConfig.Proofs.Boundaries
