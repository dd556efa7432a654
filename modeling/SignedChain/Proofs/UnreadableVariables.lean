import SignedChain.Proofs.ConsultedVariables

/-!
# Variables that are set to no text

Whoever reads a variable whose bytes are no text gets an error, and does not take the variable
for unset, also where it might be unset. There is one exception. The path of the parameter file
falls back to the default path on every error, so a path that is no text has the rules of another
file loaded.
-/
namespace SignedChain

variable {env : Environment} {name : String}

namespace Environment

variable {α : Type} {setting : Setting α}

theorem Unreadable.read_ne_ok (h : env.Unreadable name) (a : α) :
    env.read name setting ≠ .ok a := by
  intro hread
  rw [h.read_eq] at hread
  cases hread

theorem Unreadable.readOptional_ne_ok (h : env.Unreadable name) (a : Option α) :
    env.readOptional name setting ≠ .ok a := by
  intro hread
  rw [h.readOptional_eq] at hread
  cases hread

theorem text_unset (env : Environment) (name : String) :
    (env.unset name).text name = .error (.notSet name) := by
  simp only [text, unset, if_true]

end Environment

theorem Params.ofEnvironment_ne_ok (h : env.Unreadable name) (hname : name ∈ variableNames)
    (p : Params) : ofEnvironment env ≠ .ok p := by
  intro hread
  have hfields := ofEnvironment_eq_ok_iff.mp hread
  simp only [variableNames, List.mem_cons, List.not_mem_nil, or_false] at hname
  rcases hname with rfl | rfl | rfl | rfl | rfl | rfl | rfl | rfl
  · exact h.read_ne_ok _ hfields.network
  · exact h.read_ne_ok _ hfields.powLimit
  · exact h.read_ne_ok _ hfields.timespan
  · exact h.read_ne_ok _ hfields.spacing
  · exact h.read_ne_ok _ hfields.allowMinDifficulty
  · exact h.read_ne_ok _ hfields.noRetargeting
  · exact h.read_ne_ok _ hfields.signerKey
  · obtain ⟨height, hheight, -⟩ := hfields.signatureHeight
    exact h.readOptional_ne_ok _ hheight

theorem NodeConfig.ofEnvironment_ne_ok (h : env.Unreadable name) (hname : name ∈ variableNames)
    (c : NodeConfig) : ofEnvironment env ≠ .ok c := by
  intro hread
  obtain ⟨hsource, hlevel⟩ := ofEnvironment_eq_ok_iff.mp hread
  simp only [variableNames, List.mem_cons, List.not_mem_nil, or_false] at hname
  rcases hname with rfl | rfl
  · exact h.read_ne_ok _ hsource
  · exact h.readOptional_ne_ok _ hlevel

theorem Params.ofFile_eq_ok {files : Files} {path text : String} {p : Params}
    (hcontents : files.contents? path = some (utf8 text)) (hread : ofToml text = .ok p) :
    ofFile files path = .ok p := by
  rw [ofFile, Files.text, hcontents, Option.bind_some, ofUtf8?_utf8]
  exact hread

theorem exists_eq_error {ε α : Type} {x : Except ε α} (h : ∀ a, x ≠ .ok a) :
    ∃ cause, x = .error cause := by
  cases x with
  | error cause => exact ⟨cause, rfl⟩
  | ok a => exact absurd rfl (h a)

namespace ParamsSource

theorem path_of_unreadable (h : env.Unreadable "CONSENSUS_CONFIG_PATH") :
    path env = Files.defaultPath := by
  rw [path, h.text_eq]
  rfl

theorem path_unset (env : Environment) :
    path (env.unset "CONSENSUS_CONFIG_PATH") = Files.defaultPath := by
  rw [path, env.text_unset]
  rfl

theorem load_file_of_path (hpath : path env = Files.defaultPath) (files : Files) (p : Params) :
    file.load env files = .ok p ↔
      Params.ofFile files Files.defaultPath = .ok p ∧ p.validate = .ok () := by
  rw [load_eq_ok_iff, read, hpath]

/-- A variable that is set to no text is refused by every source of parameters that consults it
and by the configuration of the node, except for the path of the parameter file: this is taken
for unset, so whatever the default file holds is loaded if it is usable. -/
theorem unreadable_refused_unless_path (h : env.Unreadable name) (files : Files) :
    (∀ source : ParamsSource, source ≠ .file → name ∈ source.variableNames →
      ∃ cause, source.load env files = .error cause) ∧
      (name ∈ NodeConfig.variableNames → ∃ cause, NodeConfig.ofEnvironment env = .error cause) ∧
      (name ∈ file.variableNames → file.load env files = file.load (env.unset name) files ∧
        ∀ p, file.load env files = .ok p ↔
          Params.ofFile files Files.defaultPath = .ok p ∧ p.validate = .ok ()) := by
  refine ⟨fun source hsource hname => ?_, fun hname => ?_, fun hname => ?_⟩
  · apply exists_eq_error
    intro p hload
    cases source with
    | preset network => cases hname
    | environment => exact Params.ofEnvironment_ne_ok h hname p (load_eq_ok_iff.mp hload).1
    | file => exact hsource rfl
  · exact exists_eq_error (NodeConfig.ofEnvironment_ne_ok h hname)
  · cases List.mem_singleton.mp hname
    refine ⟨?_, load_file_of_path (path_of_unreadable h) files⟩
    rw [load, read, path_of_unreadable h, load, read, path_unset]

/-- A log level of one byte that is no text is refused, although the level may be unset. -/
theorem unreadable_level_refused :
    let env := Environment.mk fun name =>
      if name = "PARAMSET" then some (utf8 "regtest") else some [0xff]
    env.Unreadable "LOG_LEVEL" ∧ (∃ cause, NodeConfig.ofEnvironment env = .error cause) ∧
      NodeConfig.ofEnvironment (env.unset "LOG_LEVEL") = .ok ⟨.preset .regtest, none⟩ := by
  intro env
  have h : env.Unreadable "LOG_LEVEL" := ⟨[0xff], rfl, rfl⟩
  obtain ⟨-, hrefused, -⟩ := unreadable_refused_unless_path h ⟨fun _ => none⟩
  exact ⟨h, hrefused (by decide), rfl⟩

/-- A parameter file; the longer lines are in parts. -/
def fileParts : List String :=
  ["network = \"regtest\"\n", "pow_limit = \"7fffff00000000000000000000000000",
    "00000000000000000000000000000000\"\n", "pow_target_timespan = 40\n",
    "pow_target_spacing = 10\n", "allow_min_difficulty_blocks = true\n", "no_retargeting = true\n",
    "signer_key = \"b15dd1e38bd8c38fc85010fdd19863f8", "9b50988bbefea3f2a08bed8f6441211c",
    "0f6dacfa47cd591c1c50c1014026236c", "eb6aa5f413e18c48cf4aea06aa723709\"\n"]

def fileParams : Params :=
  { Params.preset .regtest with timespan := 40, spacing := 10, signerKey := G2.generator }

set_option maxRecDepth 8000 in
theorem exists_fields_fileParts :
    ∃ fields ∈ (Toml.read? (String.join fileParts)).bind (Tree.record? Params.fieldNames),
      (fields.lookup "network").bind (Network.ofTree? Toml.dialect) = some .regtest ∧
      (fields.lookup "pow_limit").bind Target.ofTree? = some fileParams.powLimit ∧
      (fields.lookup "pow_target_timespan").bind Tree.int64? = some 40 ∧
      (fields.lookup "pow_target_spacing").bind Tree.int64? = some 10 ∧
      (fields.lookup "allow_min_difficulty_blocks").bind Tree.bool? = some true ∧
      (fields.lookup "no_retargeting").bind Tree.bool? = some true ∧
      (fields.lookup "epochs").isNone ∧
      (fields.lookup "signer_key").bind Tree.text? = some (SignerKey.text G2.generator) ∧
      (fields.lookup "coinbase_signature_height").isNone := by
  -- The parts are short since a text is decoded again for every character that is taken from it.
  rw [Toml.read?, String.toList_join]
  decide +kernel

theorem ofToml_fileParts : Params.ofToml (String.join fileParts) = .ok fileParams := by
  obtain ⟨fields, hrecord, hnetwork, hlimit, htimespan, hspacing, hallow, hretargeting, hepochs,
    hkey, hheight⟩ := exists_fields_fileParts
  obtain ⟨t, hread, hrecord⟩ := Option.bind_eq_some_iff.mp hrecord
  have hsigner : (fields.lookup "signer_key").bind SignerKey.ofTree? = some G2.generator := by
    obtain ⟨field, hfield, htext⟩ := Option.bind_eq_some_iff.mp hkey
    rw [hfield, Option.bind_some, SignerKey.ofTree?, htext, Option.bind_eq_bind, Option.bind_some,
      SignerKey.parse_text SignerKey.ofBytes_generator]
    rfl
  have hfields : Params.ReadFrom Toml.dialect fields fileParams := {
    network := hnetwork
    powLimit := hlimit
    timespan := htimespan
    spacing := hspacing
    allowMinDifficulty := hallow
    noRetargeting := hretargeting
    epochs := by rw [Option.isNone_iff_eq_none.mp hepochs]; rfl
    signerKey := hsigner
    signatureHeight := by rw [Option.isNone_iff_eq_none.mp hheight]; rfl }
  rw [Params.ofToml, hread, Option.bind_some, Params.ofTree?_eq_some hrecord hfields]

/-- With a path of one byte that is no text the rules of the default file are loaded. -/
theorem unreadable_path_ignored :
    let env := Environment.mk fun name =>
      if name = "CONSENSUS_CONFIG_PATH" then some [0xff] else none
    let files := Files.mk fun path =>
      if path = "consensus_params.toml" then some (utf8 (String.join fileParts)) else none
    env.Unreadable "CONSENSUS_CONFIG_PATH" ∧ file.load env files = .ok fileParams := by
  intro env files
  have h : env.Unreadable "CONSENSUS_CONFIG_PATH" := ⟨[0xff], rfl, rfl⟩
  have hfile : Params.ofFile files Files.defaultPath = .ok fileParams :=
    Params.ofFile_eq_ok (by simp only [files, Files.defaultPath, if_true]) ofToml_fileParts
  exact ⟨h, (load_file_of_path (path_of_unreadable h) files fileParams).mpr ⟨hfile, rfl⟩⟩

end ParamsSource
end SignedChain
