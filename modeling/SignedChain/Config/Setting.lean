import SignedChain.Params
import SignedChain.Text.Decimal

/-!
# Settings in text

The values that settings can have, read from text. A log level is a name in any case
of its ASCII letters or a number from 0 to 5, and the empty text stands for `error`.
-/
namespace SignedChain

inductive SettingError
  | network (cause : Params.Error)
  | target (cause : Target.Error)
  | integer (cause : Decimal.Error)
  | truth
  | signerKey (cause : PointError)
  | source (text : String)
  | logLevel (text : String)
deriving DecidableEq, Repr

def SettingError.message : SettingError → String
  | network cause => cause.message
  | target cause => cause.message
  | integer cause => cause.message
  | truth => "provided string was not `true` or `false`"
  | signerKey cause => cause.message
  | source text => "ConfigError: Unknown paramset name: " ++ text
  | logLevel text => "ConfigError: Invalid log level " ++ text
    ++ ": error parsing level filter: expected one of \"off\", \"error\", \"warn\", \"info\", "
    ++ "\"debug\", \"trace\", or a number 0-5"

abbrev Setting (α : Type) := String → Except SettingError α

namespace Setting

def network : Setting Network := fun text => (Network.parse text).mapError .network
def target : Setting Target := fun text => (Target.parse text).mapError .target
def int64 : Setting Int64 := fun text => (Decimal.readInt64 text).mapError .integer
def uint32 : Setting UInt32 := fun text => (Decimal.readUInt32 text).mapError .integer
def signerKey : Setting (Point Fq2) := fun text => (SignerKey.parse text).mapError .signerKey
def text : Setting String := .ok

def bool : Setting Bool := fun text =>
  match Decimal.readBool? text with
  | some b => .ok b
  | none => .error .truth

end Setting

inductive ParamsSource
  | preset (network : Network)
  | environment
  | file
deriving DecidableEq, Repr

namespace ParamsSource

def name : ParamsSource → String
  | preset network => network.name
  | environment => "env"
  | file => "file"

def all : List ParamsSource :=
  [preset .mainnet, preset .testnet, preset .regtest, environment, file]

def ofName? (text : String) : Option ParamsSource := all.find? (·.name == text)

def parse : Setting ParamsSource := fun text =>
  match ofName? text with
  | some source => .ok source
  | none => .error (.source text)

end ParamsSource

inductive LogLevel
  | off
  | error
  | warn
  | info
  | debug
  | trace
deriving DecidableEq, Repr

namespace LogLevel

def name : LogLevel → String
  | off => "off"
  | error => "error"
  | warn => "warn"
  | info => "info"
  | debug => "debug"
  | trace => "trace"

/-- The levels in the order of their numbers. -/
def all : List LogLevel := [off, error, warn, info, debug, trace]

def ofNumber? (text : String) : Option LogLevel :=
  match Decimal.readNat (2 ^ 64 - 1) text with
  | .ok n => all[n]?
  | .error _ => none

def ofName? (text : String) : Option LogLevel :=
  if text.isEmpty then some error else all.find? (·.name == text.map Char.toLower)

def parse : Setting LogLevel := fun text =>
  match (ofNumber? text).or (ofName? text) with
  | some level => .ok level
  | none => .error (.logLevel text)

end LogLevel
end SignedChain
