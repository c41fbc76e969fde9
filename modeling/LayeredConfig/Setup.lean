import LayeredConfig.Configuration
import LayeredConfig.Source.Basic

/-!
# LayeredConfig — setups

A setup is what a configuration is built from. The layers of its sources are
merged in order, so an earlier source wins and a later one fills in what is
missing, and the merged tree is expanded.

* `Setup.merged` — the layers merged.
* `Setup.build`  — the configuration.
-/

namespace LayeredConfig

/-- What a configuration is built from. -/
structure Setup (σ : Type) where
  sources : List Source
  options : Options
  resolvers : List (Resolver σ)
  defaultResolvers : List (Resolver σ)
  /-- Asked for environment variables instead of the environment, if given. -/
  env : Option EnvLookup

namespace Setup

/-- How the merged tree is expanded. -/
def rules (setup : Setup σ) (environment : Environment) : ExpansionRules σ :=
  { resolvers := setup.resolvers
    defaultResolvers := setup.defaultResolvers
    expandVars := setup.options.expandVars
    expandEnv := setup.options.expandEnv
    allowUndefined := setup.options.allowUndefined
    env := setup.env.getD environment.lookup }

/-- The tree of a layer as it is merged. -/
def layerValue (options : Options) (layer : Layer) : Value :=
  if options.smartStrings then layer.annotated else layer.value

/-- Layers merged; without any, an empty table. -/
def merged (options : Options) (layers : List Layer) : Value :=
  (Tree.merge (layers.map (fun layer => some (layerValue options layer)))).getD (.table [])

/-- The layers of all sources, merged and expanded. -/
def build (setup : Setup σ) (world : World) : Eval σ Configuration := do
  let layers ← Eval.ofExcept (Source.allLayers world setup.options setup.sources)
  let value ← Value.expand (merged setup.options layers) (setup.rules world.environment)
  return ⟨value⟩

end Setup

end LayeredConfig
