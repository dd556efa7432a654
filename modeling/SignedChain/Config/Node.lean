import SignedChain.Config.Source

/-!
# Node configuration

What a node is told when it starts: where its parameters come from, and perhaps a log
level. The level is kept as it was written and only read when it is asked for.
-/
namespace SignedChain

structure NodeConfig where
  source : ParamsSource
  logLevel : Option String
deriving DecidableEq, Repr

namespace NodeConfig

def standard : NodeConfig := ⟨.preset .mainnet, none⟩

def fieldNames : List String := ["paramset", "log_level"]

def ofTree? (d : Tree.Dialect) (t : Tree) : Option NodeConfig := do
  let fields ← t.record? fieldNames
  return {
    source := ← ParamsSource.ofName? (← (← fields.lookup "paramset").alternative? d)
    logLevel := ← match fields.lookup "log_level" with
      | some t => t.text?.map some
      | none => some none }

def ofToml (text : String) : Except ConfigError NodeConfig :=
  match (Toml.read? text).bind (ofTree? Toml.dialect) with
  | some c => .ok c
  | none => .error .document

def ofFile (files : Files) (path : String) : Except ConfigError NodeConfig := do
  ofToml (← files.text path)

def ofEnvironment (env : Environment) : Except ConfigError NodeConfig := do
  return {
    source := ← env.read "PARAMSET" ParamsSource.parse
    logLevel := ← env.readOptional "LOG_LEVEL" Setting.text }

def params (c : NodeConfig) (env : Environment) (files : Files) : Except ConfigError Params :=
  c.source.load env files

def level (c : NodeConfig) : Except SettingError (Option LogLevel) :=
  c.logLevel.mapM LogLevel.parse

end NodeConfig
end SignedChain
