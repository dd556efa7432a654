import SignedChain.Config.Node
import SignedChain.Proofs.DecimalReading
import SignedChain.Proofs.DocumentForms

/-!
# The variables that a configuration is read from

Each source of parameters consults certain variables, and no other has a part in what it loads
(`ParamsSource.load_congr`); the configuration of a node consults two. A variable is read as a
setting if it holds a text that the setting accepts; one whose bytes are no text is refused,
also where it might be unset. Parameters are read from the environment exactly if each of their
variables is read as its field (`Params.ofEnvironment_eq_ok_iff`).
-/
namespace SignedChain

namespace Environment

/-- The environment has these texts as the values of these variables. -/
def Holds (env : Environment) (values : List (String × String)) : Prop :=
  ∀ v ∈ values, env.value? v.1 = some (utf8 v.2)

/-- The variable is set, to bytes that are no text. -/
def Unreadable (env : Environment) (name : String) : Prop :=
  ∃ bytes, env.value? name = some bytes ∧ ofUtf8? bytes = none

def Agrees (other env : Environment) (names : List String) : Prop :=
  ∀ name ∈ names, other.value? name = env.value? name

def unset (env : Environment) (name : String) : Environment :=
  ⟨fun other => if other = name then none else env.value? other⟩

variable {env other : Environment} {name text : String} {α : Type} {setting : Setting α} {a : α}

theorem read_eq_ok (hvalue : env.value? name = some (utf8 text)) (hread : setting text = .ok a) :
    env.read name setting = .ok a := by
  have htext : env.text name = .ok text := by
    simp only [Environment.text, hvalue, ofUtf8?_utf8]
  rw [read, htext]
  change (setting text).mapError _ = _
  rw [hread]
  rfl

theorem readOptional_eq_ok (hvalue : env.value? name = some (utf8 text))
    (hread : setting text = .ok a) : env.readOptional name setting = .ok (some a) := by
  rw [readOptional, hvalue, Option.isNone_some, if_neg Bool.false_ne_true,
    read_eq_ok hvalue hread]
  rfl

theorem Unreadable.text_eq (h : env.Unreadable name) :
    env.text name = .error (.notUnicode name) := by
  obtain ⟨bytes, hvalue, hbytes⟩ := h
  simp only [Environment.text, hvalue, hbytes]

theorem Unreadable.read_eq (h : env.Unreadable name) (setting : Setting α) :
    env.read name setting = .error (.notUnicode name) := by
  rw [read, h.text_eq]
  rfl

theorem Unreadable.readOptional_eq (h : env.Unreadable name) (setting : Setting α) :
    env.readOptional name setting = .error (.notUnicode name) := by
  have hread := h.read_eq setting
  obtain ⟨bytes, hvalue, -⟩ := h
  rw [readOptional, hvalue, Option.isNone_some, if_neg Bool.false_ne_true, hread]
  rfl

theorem text_congr (h : other.value? name = env.value? name) : other.text name = env.text name := by
  rw [Environment.text, h, Environment.text]

theorem read_congr (h : other.value? name = env.value? name) (setting : Setting α) :
    other.read name setting = env.read name setting := by
  rw [read, text_congr h, read]

theorem readOptional_congr (h : other.value? name = env.value? name) (setting : Setting α) :
    other.readOptional name setting = env.readOptional name setting := by
  rw [readOptional, h, read_congr h, readOptional]

end Environment

namespace Params

variable {env other : Environment} {p : Params}

def variableNames : List String :=
  ["NETWORK", "POW_LIMIT", "POW_TARGET_TIMESPAN", "POW_TARGET_SPACING",
    "POW_ALLOW_MIN_DIFFICULTY_BLOCKS", "POW_NO_RETARGETING", "NETWORK_SIGNER_KEY",
    "COINBASE_SIGNATURE_HEIGHT"]

/-- The variables are read as the parameters `p`, the signature height as zero if it is unset. -/
structure ReadFromVariables (env : Environment) (p : Params) : Prop where
  network : env.read "NETWORK" Setting.network = .ok p.network
  powLimit : env.read "POW_LIMIT" Setting.target = .ok p.powLimit
  timespan : env.read "POW_TARGET_TIMESPAN" Setting.int64 = .ok p.timespan
  spacing : env.read "POW_TARGET_SPACING" Setting.int64 = .ok p.spacing
  allowMinDifficulty :
    env.read "POW_ALLOW_MIN_DIFFICULTY_BLOCKS" Setting.bool = .ok p.allowMinDifficulty
  noRetargeting : env.read "POW_NO_RETARGETING" Setting.bool = .ok p.noRetargeting
  epochs : p.epochs = (preset p.network).epochs
  signerKey : env.read "NETWORK_SIGNER_KEY" Setting.signerKey = .ok p.signerKey
  signatureHeight : ∃ height, env.readOptional "COINBASE_SIGNATURE_HEIGHT" Setting.uint32 =
    .ok height ∧ height.getD 0 = p.signatureHeight

theorem ofEnvironment_eq_ok_iff : ofEnvironment env = .ok p ↔ ReadFromVariables env p := by
  unfold ofEnvironment
  constructor
  · intro h
    obtain ⟨network, hnetwork, h⟩ := bind_eq_ok_iff.mp h
    obtain ⟨powLimit, hlimit, h⟩ := bind_eq_ok_iff.mp h
    obtain ⟨timespan, htimespan, h⟩ := bind_eq_ok_iff.mp h
    obtain ⟨spacing, hspacing, h⟩ := bind_eq_ok_iff.mp h
    obtain ⟨allowMinDifficulty, hallow, h⟩ := bind_eq_ok_iff.mp h
    obtain ⟨noRetargeting, hretargeting, h⟩ := bind_eq_ok_iff.mp h
    obtain ⟨signerKey, hkey, h⟩ := bind_eq_ok_iff.mp h
    obtain ⟨height, hheight, h⟩ := bind_eq_ok_iff.mp h
    cases h
    exact ⟨hnetwork, hlimit, htimespan, hspacing, hallow, hretargeting, rfl, hkey, height,
      hheight, rfl⟩
  · intro h
    obtain ⟨height, hheight, hdefault⟩ := h.signatureHeight
    simp only [h.network, h.powLimit, h.timespan, h.spacing, h.allowMinDifficulty,
      h.noRetargeting, h.signerKey, hheight]
    change Except.ok _ = _
    rw [hdefault, ← h.epochs]

theorem ofEnvironment_congr (h : other.Agrees env variableNames) :
    ofEnvironment other = ofEnvironment env := by
  simp only [Environment.Agrees, variableNames, List.forall_mem_cons] at h
  obtain ⟨hnetwork, hlimit, htimespan, hspacing, hallow, hretargeting, hkey, hheight, -⟩ := h
  unfold ofEnvironment
  simp only [Environment.read_congr hnetwork, Environment.read_congr hlimit,
    Environment.read_congr htimespan, Environment.read_congr hspacing,
    Environment.read_congr hallow, Environment.read_congr hretargeting,
    Environment.read_congr hkey, Environment.readOptional_congr hheight]

end Params

namespace ParamsSource

/-- The variables that loading consults. -/
def variableNames : ParamsSource → List String
  | preset _ => []
  | environment => Params.variableNames
  | file => ["CONSENSUS_CONFIG_PATH"]

variable {env other : Environment} {files : Files} {source : ParamsSource} {p : Params}

/-- Only usable parameters are loaded, and they are loaded as they were read. -/
theorem load_eq_ok_iff :
    source.load env files = .ok p ↔ source.read env files = .ok p ∧ p.validate = .ok () := by
  rw [load, bind_eq_ok_iff]
  constructor
  · rintro ⟨q, hread, h⟩
    cases hvalid : q.validate with
    | error cause =>
      rw [hvalid] at h
      cases h
    | ok =>
      rw [hvalid] at h
      cases h
      exact ⟨hread, hvalid⟩
  · rintro ⟨hread, hvalid⟩
    refine ⟨p, hread, ?_⟩
    rw [hvalid]
    rfl

theorem load_eq_invalid {cause : Params.Error} (hread : source.read env files = .ok p)
    (hvalid : p.validate = .error cause) : source.load env files = .error (.invalid cause) := by
  rw [load, hread]
  change (do p.validate.mapError ConfigError.invalid; return p) = _
  rw [hvalid]
  rfl

theorem load_congr (h : other.Agrees env source.variableNames) (files : Files) :
    source.load other files = source.load env files := by
  have hread : source.read other files = source.read env files := by
    cases source with
    | preset network => rfl
    | environment => exact Params.ofEnvironment_congr h
    | file =>
      have hpath := Environment.text_congr (h "CONSENSUS_CONFIG_PATH" (List.mem_singleton_self _))
      rw [read, read, path, path, hpath]
  rw [load, hread, load]

end ParamsSource

namespace NodeConfig

variable {env : Environment} {c : NodeConfig}

def variableNames : List String := ["PARAMSET", "LOG_LEVEL"]

theorem ofEnvironment_eq_ok_iff : ofEnvironment env = .ok c ↔
    env.read "PARAMSET" ParamsSource.parse = .ok c.source ∧
      env.readOptional "LOG_LEVEL" Setting.text = .ok c.logLevel := by
  unfold ofEnvironment
  constructor
  · intro h
    obtain ⟨source, hsource, h⟩ := bind_eq_ok_iff.mp h
    obtain ⟨level, hlevel, h⟩ := bind_eq_ok_iff.mp h
    cases h
    exact ⟨hsource, hlevel⟩
  · rintro ⟨hsource, hlevel⟩
    rw [hsource, hlevel]
    rfl

end NodeConfig
end SignedChain
