import SignedChain.Proofs.ConsultedVariables

/-!
# Parameters kept in variables

The texts that parameters are written to as variables are read back as these parameters. Each
kind of setting reads the text of its value: names, hexadecimal targets and keys, integers over
their whole range, and flags. The epochs have no variable, so those of the preset must be the
ones that are meant. Only then are the parameters validated.
-/
namespace SignedChain

theorem Network.parse_name (n : Network) : parse n.name = .ok n := by
  cases n
  · rfl
  · rfl
  · rfl

namespace Setting

theorem network_name (n : Network) : network n.name = .ok n := by
  rw [network, Network.parse_name, Except.mapError]

theorem target_text (t : Target) : target t.text = .ok t := by
  rw [target, Target.parse_text, Except.mapError]

theorem int64_ofInt (n : Int64) : int64 (Decimal.ofInt n.toInt) = .ok n := by
  rw [int64, Decimal.readInt64_ofInt, Except.mapError]

theorem uint32_ofNat (n : UInt32) : uint32 (Decimal.ofNat n.toNat) = .ok n := by
  rw [uint32, Decimal.readUInt32_ofNat, Except.mapError]

theorem bool_ofBool (b : Bool) : bool (Decimal.ofBool b) = .ok b := by
  rw [bool, Decimal.readBool?_ofBool]

theorem signerKey_text {b : Bytes 64} {key : Point Fq2} (h : SignerKey.ofBytes b = .ok key) :
    signerKey (SignerKey.text key) = .ok key := by
  rw [signerKey, SignerKey.parse_text h, Except.mapError]

end Setting

namespace Environment

variable {values : List (String × String)} {v : String × String}

/-- The environment with these variables set to these texts, the first where a name repeats. -/
def setAll (env : Environment) (values : List (String × String)) : Environment :=
  ⟨fun name => ((values.lookup name).map utf8).or (env.value? name)⟩

theorem lookup_of_mem (hnames : (values.map (·.1)).Nodup) (hv : v ∈ values) :
    values.lookup v.1 = some v.2 := by
  induction values with
  | nil => cases hv
  | cons w ws ih =>
    rw [List.map_cons, List.nodup_cons] at hnames
    rcases List.mem_cons.mp hv with rfl | hv
    · exact List.lookup_cons_self
    · have hne : v.1 ≠ w.1 := fun h => hnames.1 (h ▸ List.mem_map_of_mem hv)
      rw [List.lookup_cons, beq_eq_false_iff_ne.mpr hne]
      exact ih hnames.2 hv

theorem holds_setAll (env : Environment) (hnames : (values.map (·.1)).Nodup) :
    (env.setAll values).Holds values := by
  intro v hv
  simp only [setAll, lookup_of_mem hnames hv, Option.map_some, Option.some_or]

end Environment

namespace Params

variable {env : Environment} {b : Bytes 64} {p : Params}

theorem readFromVariables_of_holds (hkey : SignerKey.ofBytes b = .ok p.signerKey)
    (hepochs : p.epochs = (preset p.network).epochs) (henv : env.Holds p.toVariables) :
    ReadFromVariables env p := by
  simp only [Environment.Holds, toVariables, List.forall_mem_cons] at henv
  obtain ⟨hnetwork, hlimit, htimespan, hspacing, hallow, hretargeting, hsigner, hheight, -⟩ := henv
  exact {
    network := Environment.read_eq_ok hnetwork (Setting.network_name _)
    powLimit := Environment.read_eq_ok hlimit (Setting.target_text _)
    timespan := Environment.read_eq_ok htimespan (Setting.int64_ofInt _)
    spacing := Environment.read_eq_ok hspacing (Setting.int64_ofInt _)
    allowMinDifficulty := Environment.read_eq_ok hallow (Setting.bool_ofBool _)
    noRetargeting := Environment.read_eq_ok hretargeting (Setting.bool_ofBool _)
    epochs := hepochs
    signerKey := Environment.read_eq_ok hsigner (Setting.signerKey_text hkey)
    signatureHeight := ⟨_, Environment.readOptional_eq_ok hheight (Setting.uint32_ofNat _), rfl⟩ }

/-- Parameters whose key was decoded and whose epochs are those of their network survive being
written to variables, whatever else the environment holds. They are loaded if they are usable,
and otherwise refused for the reason that they are not. -/
theorem ofEnvironment_toVariables (hkey : SignerKey.ofBytes b = .ok p.signerKey)
    (hepochs : p.epochs = (preset p.network).epochs) (henv : env.Holds p.toVariables) :
    ofEnvironment env = .ok p ∧
      (∀ files, (p.validate = .ok () → ParamsSource.environment.load env files = .ok p) ∧
        ∀ cause, p.validate = .error cause →
          ParamsSource.environment.load env files = .error (.invalid cause)) ∧
      ∀ other : Environment, other.Agrees env variableNames → ofEnvironment other = .ok p ∧
        ∀ files, ParamsSource.environment.load other files =
          ParamsSource.environment.load env files := by
  have hread : ofEnvironment env = .ok p :=
    ofEnvironment_eq_ok_iff.mpr (readFromVariables_of_holds hkey hepochs henv)
  refine ⟨hread, fun files => ?_, fun other hother => ⟨?_, fun files => ?_⟩⟩
  · exact ⟨fun hvalid => ParamsSource.load_eq_ok_iff.mpr ⟨hread, hvalid⟩,
      fun _ hvalid => ParamsSource.load_eq_invalid hread hvalid⟩
  · rw [ofEnvironment_congr hother, hread]
  · exact ParamsSource.load_congr hother files

theorem nodup_toVariables (p : Params) : (p.toVariables.map (·.1)).Nodup := by
  have hnames : p.toVariables.map (·.1) = variableNames := rfl
  rw [hnames]
  decide

/-- The longest and the shortest time survive, the limit that no hash can meet and the last
height, while every other variable is set to a byte that is no text. They are no usable
parameters, which is only found once they are read. -/
theorem ofEnvironment_extremes :
    let p := { preset .testnet with
      timespan := Int64.minValue
      spacing := Int64.maxValue
      powLimit := .ofNat 0
      signerKey := G2.generator
      signatureHeight := 4294967295 }
    let env := Environment.setAll ⟨fun _ => some [0xff]⟩ p.toVariables
    SignerKey.ofBytes (SignerKey.toBytes G2.generator) = .ok p.signerKey ∧
      p.epochs = (preset p.network).epochs ∧ env.Holds p.toVariables ∧
      ofEnvironment env = .ok p ∧ ∀ files, ParamsSource.environment.load env files =
        .error (.invalid (.timespanShorterThanSpacing (-2 ^ 63) (2 ^ 63 - 1))) := by
  intro p env
  have hkey : SignerKey.ofBytes (SignerKey.toBytes G2.generator) = .ok p.signerKey :=
    SignerKey.ofBytes_generator
  have henv : env.Holds p.toVariables := Environment.holds_setAll _ p.nodup_toVariables
  obtain ⟨hread, hload, -⟩ := ofEnvironment_toVariables hkey rfl henv
  exact ⟨hkey, rfl, henv, hread, fun files => (hload files).2 _ rfl⟩

end Params
end SignedChain
