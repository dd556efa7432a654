import SignedChain.Config.Environment
import SignedChain.Document.Forms
import SignedChain.Document.Toml

/-!
# Sources of parameters

Parameter sets come from the presets, from eight variables, or from a TOML file, and
only a usable set is loaded. The epochs of a set from variables are those of the
preset of its network.
-/
namespace SignedChain

namespace Params

/-- Reads the eight variables of a parameter set. The signature height may be unset. -/
def ofEnvironment (env : Environment) : Except ConfigError Params := do
  let network ← env.read "NETWORK" Setting.network
  return {
    network := network
    powLimit := ← env.read "POW_LIMIT" Setting.target
    timespan := ← env.read "POW_TARGET_TIMESPAN" Setting.int64
    spacing := ← env.read "POW_TARGET_SPACING" Setting.int64
    allowMinDifficulty := ← env.read "POW_ALLOW_MIN_DIFFICULTY_BLOCKS" Setting.bool
    noRetargeting := ← env.read "POW_NO_RETARGETING" Setting.bool
    epochs := (preset network).epochs
    signerKey := ← env.read "NETWORK_SIGNER_KEY" Setting.signerKey
    signatureHeight := (← env.readOptional "COINBASE_SIGNATURE_HEIGHT" Setting.uint32).getD 0 }

def toVariables (p : Params) : List (String × String) :=
  [("NETWORK", p.network.name), ("POW_LIMIT", p.powLimit.text),
    ("POW_TARGET_TIMESPAN", Decimal.ofInt p.timespan.toInt),
    ("POW_TARGET_SPACING", Decimal.ofInt p.spacing.toInt),
    ("POW_ALLOW_MIN_DIFFICULTY_BLOCKS", Decimal.ofBool p.allowMinDifficulty),
    ("POW_NO_RETARGETING", Decimal.ofBool p.noRetargeting),
    ("NETWORK_SIGNER_KEY", SignerKey.text p.signerKey),
    ("COINBASE_SIGNATURE_HEIGHT", Decimal.ofNat p.signatureHeight.toNat)]

def ofToml (text : String) : Except ConfigError Params :=
  match (Toml.read? text).bind (ofTree? Toml.dialect) with
  | some p => .ok p
  | none => .error .document

def ofFile (files : Files) (path : String) : Except ConfigError Params := do
  ofToml (← files.text path)

end Params

def Files.defaultPath : String := "consensus_params.toml"

namespace ParamsSource

/-- The configured path of the parameter file. A value that is no text counts as none. -/
def path (env : Environment) : String :=
  (env.text "CONSENSUS_CONFIG_PATH").toOption.getD Files.defaultPath

def read (source : ParamsSource) (env : Environment) (files : Files) :
    Except ConfigError Params :=
  match source with
  | preset network => .ok (Params.preset network)
  | environment => Params.ofEnvironment env
  | file => Params.ofFile files (path env)

/-- Reads a parameter set and refuses it unless it is usable. -/
def load (source : ParamsSource) (env : Environment) (files : Files) :
    Except ConfigError Params := do
  let p ← source.read env files
  p.validate.mapError .invalid
  return p

end ParamsSource
end SignedChain
