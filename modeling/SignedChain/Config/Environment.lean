import SignedChain.Config.Setting

/-!
# The environment

What a configuration is read from: variables, whose values are arbitrary bytes, and
files. A value or a file counts as text only if it is valid UTF-8.
-/
namespace SignedChain

structure Environment where
  value? : String → Option (List UInt8)

structure Files where
  contents? : (path : String) → Option (List UInt8)

inductive ConfigError
  | notSet (name : String)
  | notUnicode (name : String)
  | malformed (name : String) (cause : SettingError)
  | setting (cause : SettingError)
  /-- A file that is absent or no text, or a document that is malformed. -/
  | document
  | invalid (cause : Params.Error)
deriving DecidableEq, Repr

/-- The text of an error, where it says more than that a document is malformed or a
value no text. -/
def ConfigError.message? : ConfigError → Option String
  | notSet name =>
    some ("Environment variable " ++ name ++ " is not set: environment variable not found")
  | malformed name cause =>
    some ("Can't parse environment variable " ++ name ++ ": " ++ cause.message)
  | setting cause => some cause.message
  | invalid cause => some ("Invalid consensus parameters: " ++ cause.message)
  | notUnicode _ | document => none

namespace Environment

def text (env : Environment) (name : String) : Except ConfigError String :=
  match env.value? name with
  | none => .error (.notSet name)
  | some bytes =>
    match ofUtf8? bytes with
    | some text => .ok text
    | none => .error (.notUnicode name)

variable {α : Type}

def read (env : Environment) (name : String) (setting : Setting α) : Except ConfigError α := do
  (setting (← env.text name)).mapError (.malformed name)

def readOptional (env : Environment) (name : String) (setting : Setting α) :
    Except ConfigError (Option α) :=
  if (env.value? name).isNone then .ok none else some <$> env.read name setting

end Environment

def Files.text (files : Files) (path : String) : Except ConfigError String :=
  match (files.contents? path).bind ofUtf8? with
  | some text => .ok text
  | none => .error .document

end SignedChain
