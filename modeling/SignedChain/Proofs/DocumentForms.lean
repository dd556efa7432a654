import SignedChain.Document.Forms
import SignedChain.Document.Json
import SignedChain.Proofs.SignerKeyEncoding

/-!
# Reading back parameter documents

A parameter set that is written into a document tree and read again is unchanged. Each kind
of value has its own lemma: targets and keys as hexadecimal texts, names, integers, epoch
entries with the fields of their rule beside their own, and the schedule, which is sorted
again when it is read and so keeps its order. A format may give integers back with another
signedness than they were written with; `mapIntegers` is the tree it then holds.

What a record is read as depends only on what its names look up, `ReadFrom`. Leaving a field
out changes one lookup, so the two optional fields get their defaults and all others stay.
-/
namespace SignedChain

namespace Hex

/-- The second digit of a written text is never the letter of the marker. -/
theorem dropMarker_encode (bs : List UInt8) : dropMarker (encode bs) = encode bs := by
  have hdigit : ∀ n < 16, 'x' ≠ digit n := by decide
  unfold dropMarker
  split
  next rest hlist =>
    rw [encode, String.toList_ofList] at hlist
    have hmem : 'x' ∈ bs.flatMap encodeByte := by
      rw [hlist]
      simp
    obtain ⟨n, hn, h⟩ := exists_digit_of_mem hmem
    exact absurd h (hdigit n hn)
  next => rfl

end Hex

namespace Target

theorem ofBigEndian_toBigEndian (t : Target) : ofBigEndian t.toBigEndian = t := by
  apply ext_toNat
  have hlt : t.toNat < 256 ^ 32 := t.toNat_lt
  have hreverse : t.toBigEndian.reverse = t.toLittleEndian := by
    simp [toBigEndian, Bytes.reverse]
  rw [ofBigEndian, hreverse, ofLittleEndian, toLittleEndian, Bytes.toNat_ofNat, toNat_ofNat,
    Nat.mod_eq_of_lt hlt, Nat.mod_eq_of_lt t.toNat_lt]

theorem parse_text (t : Target) : parse t.text = .ok t := by
  have hdecode : Hex.decode (Hex.dropMarker t.text) = .ok t.toBigEndian.toList := by
    rw [text, Hex.dropMarker_encode, Hex.decode_eq_ok_iff, Hex.toLower_encode]
  have hbytes : Bytes.ofList? 32 t.toBigEndian.toList = some t.toBigEndian :=
    Bytes.ofList?_eq_some_iff.mpr rfl
  simp only [parse, hdecode, hbytes, ofBigEndian_toBigEndian]

end Target

namespace Tree

theorem uint32?_eq_some {t : Tree} {n : UInt32} (h : t.integer? = some (n.toNat : Int)) :
    t.uint32? = some n := by
  have hlt := n.toNat_lt
  have hrange : t.integerIn? 0 (2 ^ 32) = some (n.toNat : Int) := by
    rw [integerIn?, h, Option.filter_some, if_pos]
    simp
    omega
  rw [uint32?, hrange, Option.map_some, Int.toNat_natCast, UInt32.ofNat_toNat]

theorem int64?_eq_some {t : Tree} {n : Int64} (h : t.integer? = some n.toInt) :
    t.int64? = some n := by
  have hlow := n.le_toInt
  have hhigh := n.toInt_lt
  have hrange : t.integerIn? (-2 ^ 63) (2 ^ 63) = some n.toInt := by
    rw [integerIn?, h, Option.filter_some, if_pos]
    simp
    omega
  rw [int64?, hrange, Option.map_some, Int64.ofInt_toInt]

mutual

/-- The tree with `hold` applied to its integers. -/
def mapIntegers (hold : Tree → Tree) : Tree → Tree
  | .unsigned n => hold (.unsigned n)
  | .signed n => hold (.signed n)
  | .list items => .list (mapItems hold items)
  | .table entries => .table (mapEntries hold entries)
  | t => t

def mapItems (hold : Tree → Tree) : List Tree → List Tree
  | [] => []
  | t :: ts => mapIntegers hold t :: mapItems hold ts

def mapEntries (hold : Tree → Tree) : List (String × Tree) → List (String × Tree)
  | [] => []
  | (name, t) :: es => (name, mapIntegers hold t) :: mapEntries hold es

end

mutual

theorem mapIntegers_id : ∀ t : Tree, t.mapIntegers id = t
  | .unsigned _ | .signed _ | .null | .bool _ | .fraction | .text _ | .moment | .unusable => rfl
  | .list items => by rw [mapIntegers, mapItems_id items]
  | .table entries => by rw [mapIntegers, mapEntries_id entries]

theorem mapItems_id : ∀ ts : List Tree, mapItems id ts = ts
  | [] => rfl
  | t :: ts => by rw [mapItems, mapIntegers_id t, mapItems_id ts]

theorem mapEntries_id : ∀ es : List (String × Tree), mapEntries id es = es
  | [] => rfl
  | (name, t) :: es => by rw [mapEntries, mapIntegers_id t, mapEntries_id es]

end

theorem mapItems_eq_map (hold : Tree → Tree) (ts : List Tree) :
    mapItems hold ts = ts.map (mapIntegers hold) := by
  induction ts with
  | nil => rfl
  | cons t ts ih => rw [mapItems, ih, List.map_cons]

/-- The tree without the entries of a name. -/
def without (name : String) : Tree → Tree
  | .table entries => .table (entries.filter (·.1 != name))
  | t => t

theorem lookup_cons (key name : String) (t : Tree) (entries : List (String × Tree)) :
    ((name, t) :: entries).lookup key = if key = name then some t else entries.lookup key := by
  rw [List.lookup_cons]
  by_cases hkey : key = name
  · simp [hkey]
  · simp [hkey, beq_eq_false_iff_ne.mpr hkey]

theorem lookup_filter_ne (name key : String) (entries : List (String × Tree)) :
    (entries.filter (·.1 != name)).lookup key =
      if key = name then none else entries.lookup key := by
  induction entries with
  | nil => simp
  | cons e es ih =>
    obtain ⟨other, t⟩ := e
    by_cases hname : other = name
    · subst hname
      rw [List.filter_cons_of_neg (by simp), ih, lookup_cons]
      by_cases hkey : key = other
      · simp [hkey]
      · simp [hkey]
    · rw [List.filter_cons_of_pos (by simp [hname]), lookup_cons, lookup_cons, ih]
      by_cases hkey : key = other
      · simp [hkey, hname]
      · simp [hkey]

theorem select?_eq_some_self {names : List String} {entries : List (String × Tree)}
    (hnames : ∀ e ∈ entries, e.1 ∈ names) (hnodup : (entries.map (·.1)).Nodup) :
    select? names entries = some entries := by
  have hall : entries.filter (fun e => names.contains e.1) = entries := by
    rw [List.filter_eq_self]
    intro e he
    exact List.contains_iff_mem.mpr (hnames e he)
  simp only [select?, hall, if_pos hnodup]

end Tree

theorem Target.ofTree?_text (t : Target) : ofTree? (.text t.text) = some t := by
  simp [ofTree?, Tree.text?, parse_text, Except.toOption]

theorem Network.ofTree?_name (d : Tree.Dialect) (n : Network) :
    ofTree? d (.text n.name) = some n := by
  cases n <;> simp [ofTree?, Tree.alternative?, name, ofName?]

theorem SignerKey.ofTree?_text {b : Bytes 64} {key : Point Fq2} (h : ofBytes b = .ok key) :
    ofTree? (.text (text key)) = some key := by
  simp [ofTree?, Tree.text?, parse_text h, Except.toOption]

/-- Storing a schedule in order keeps it as it is, also where times are equal. -/
theorem EpochSchedule.ofList_entries (s : EpochSchedule) : ofList s.entries = s := by
  obtain ⟨entries, hsorted⟩ := s
  simp only [ofList, List.mergeSort_of_pairwise hsorted]

section Hold
variable {hold : Tree → Tree} (hhold : ∀ t, (hold t).integer? = t.integer?)
include hhold

theorem EpochEntry.ofTree?_toTree (e : EpochEntry) :
    ofTree? (e.toTree.mapIntegers hold) = some e := by
  obtain ⟨activation, rule⟩ := e
  have huint (n : UInt32) : (hold (.unsigned n.toNat)).uint32? = some n :=
    Tree.uint32?_eq_some (hhold _)
  cases rule with
  | legacyAcceptance last =>
    simp [toTree, ofTree?, Tree.mapIntegers, Tree.mapEntries, Tree.table?, Tree.select?,
      Tree.lookup_cons, Kind.ofTree?, ruleOf?, huint]
  | targetReset stop sentinel limit =>
    simp [toTree, Target.toTree, ofTree?, Tree.mapIntegers, Tree.mapEntries, Tree.table?,
      Tree.select?, Tree.lookup_cons, Kind.ofTree?, ruleOf?, huint, Target.ofTree?_text]

theorem EpochSchedule.ofTree?_toTree (s : EpochSchedule) :
    ofTree? (s.toTree.mapIntegers hold) = some s := by
  have hentries : (Tree.mapItems hold (s.entries.map EpochEntry.toTree)).mapM EpochEntry.ofTree? =
      some s.entries := by
    have hread : (EpochEntry.ofTree? ∘ Tree.mapIntegers hold ∘ EpochEntry.toTree) = pure :=
      funext (EpochEntry.ofTree?_toTree hhold)
    rw [Tree.mapItems_eq_map, List.map_map, List.mapM_map, hread, List.mapM_pure]
    simp
  simp [ofTree?, toTree, Tree.mapIntegers, Tree.list?, hentries, ofList_entries]

end Hold

namespace Params

/-- The fields of a record are read as the parameters `p`, those left out by their defaults. -/
structure ReadFrom (d : Tree.Dialect) (fields : List (String × Tree)) (p : Params) : Prop where
  network : (fields.lookup "network").bind (Network.ofTree? d) = some p.network
  powLimit : (fields.lookup "pow_limit").bind Target.ofTree? = some p.powLimit
  timespan : (fields.lookup "pow_target_timespan").bind Tree.int64? = some p.timespan
  spacing : (fields.lookup "pow_target_spacing").bind Tree.int64? = some p.spacing
  allowMinDifficulty :
    (fields.lookup "allow_min_difficulty_blocks").bind Tree.bool? = some p.allowMinDifficulty
  noRetargeting : (fields.lookup "no_retargeting").bind Tree.bool? = some p.noRetargeting
  epochs : (fields.lookup "epochs").elim (some EpochSchedule.standard) EpochSchedule.ofTree? =
    some p.epochs
  signerKey : (fields.lookup "signer_key").bind SignerKey.ofTree? = some p.signerKey
  signatureHeight :
    (fields.lookup "coinbase_signature_height").elim (some 0) Tree.uint32? = some p.signatureHeight

theorem bind_of_field {α β γ : Type} {field : Option α} {read : α → Option β} {a : β}
    {next : β → Option γ} {r : γ} (h : field.bind read = some a) (hnext : next a = some r) :
    (do let t ← field; let x ← read t; next x) = some r := by
  obtain ⟨t, rfl, hread⟩ := Option.bind_eq_some_iff.mp h
  exact Option.bind_eq_some_iff.mpr ⟨t, rfl, Option.bind_eq_some_iff.mpr ⟨a, hread, hnext⟩⟩

theorem ofTree?_eq_some {d : Tree.Dialect} {t : Tree} {fields : List (String × Tree)} {p : Params}
    (hrecord : t.record? fieldNames = some fields) (h : ReadFrom d fields p) :
    ofTree? d t = some p := by
  unfold ofTree?
  refine Option.bind_eq_some_iff.mpr ⟨fields, hrecord, ?_⟩
  refine bind_of_field h.network ?_
  refine bind_of_field h.powLimit ?_
  refine bind_of_field h.timespan ?_
  refine bind_of_field h.spacing ?_
  refine bind_of_field h.allowMinDifficulty ?_
  refine bind_of_field h.noRetargeting ?_
  refine Option.bind_eq_some_iff.mpr ⟨_, h.epochs, ?_⟩
  refine bind_of_field h.signerKey ?_
  exact Option.bind_eq_some_iff.mpr ⟨_, h.signatureHeight, rfl⟩

theorem record?_of_sublist {fields : List (String × Tree)}
    (hnames : (fields.map (·.1)).Sublist fieldNames) :
    (Tree.table fields).record? fieldNames = some fields := by
  have hnodup : fieldNames.Nodup := by decide
  refine Tree.select?_eq_some_self (fun e he => ?_) (hnames.nodup hnodup)
  exact hnames.subset (List.mem_map_of_mem he)

namespace ReadFrom
variable {d : Tree.Dialect} {fields : List (String × Tree)} {p : Params}

theorem without_epochs (h : ReadFrom d fields p) :
    ReadFrom d (fields.filter (·.1 != "epochs")) { p with epochs := .standard } := by
  constructor <;> simp [Tree.lookup_filter_ne, h.network, h.powLimit, h.timespan, h.spacing,
    h.allowMinDifficulty, h.noRetargeting, h.signerKey, h.signatureHeight]

theorem without_height (h : ReadFrom d fields p) :
    ReadFrom d (fields.filter (·.1 != "coinbase_signature_height"))
      { p with signatureHeight := 0 } := by
  constructor <;> simp [Tree.lookup_filter_ne, h.network, h.powLimit, h.timespan, h.spacing,
    h.allowMinDifficulty, h.noRetargeting, h.epochs, h.signerKey]

end ReadFrom

theorem exists_fields_toTree {hold : Tree → Tree} (hhold : ∀ t, (hold t).integer? = t.integer?)
    (d : Tree.Dialect) {b : Bytes 64} {p : Params} (hkey : SignerKey.ofBytes b = .ok p.signerKey) :
    ∃ fields, p.toTree.mapIntegers hold = .table fields ∧ fields.map (·.1) = fieldNames ∧
      ReadFrom d fields p := by
  refine ⟨_, rfl, rfl, ?_⟩
  have huint (n : UInt32) : (hold (.unsigned n.toNat)).uint32? = some n :=
    Tree.uint32?_eq_some (hhold _)
  have hint (n : Int64) : (hold (.signed n.toInt)).int64? = some n :=
    Tree.int64?_eq_some (hhold _)
  have hepochs := EpochSchedule.ofTree?_toTree hhold p.epochs
  constructor <;> simp [Tree.mapEntries, Tree.mapIntegers, Tree.lookup_cons, Target.toTree,
    SignerKey.toTree, Target.ofTree?_text, Network.ofTree?_name, SignerKey.ofTree?_text hkey,
    Tree.bool?, huint, hint, hepochs]

/-- A document is read as the parameters `p`. Without its epochs or its signature height it
is read as `p` with the standard epochs or the height zero in their place. -/
structure Documents (d : Tree.Dialect) (t : Tree) (p : Params) : Prop where
  whole : ofTree? d t = some p
  without_epochs : ofTree? d (t.without "epochs") = some { p with epochs := .standard }
  without_height :
    ofTree? d (t.without "coinbase_signature_height") = some { p with signatureHeight := 0 }
  without_both : ofTree? d ((t.without "epochs").without "coinbase_signature_height") =
    some { p with epochs := .standard, signatureHeight := 0 }

theorem ReadFrom.documents {d : Tree.Dialect} {fields : List (String × Tree)} {p : Params}
    (hnames : fields.map (·.1) = fieldNames) (h : ReadFrom d fields p) :
    Documents d (.table fields) p := by
  have hnames : (fields.map (·.1)).Sublist fieldNames := hnames ▸ .refl _
  have hfilter {es : List (String × Tree)} (hes : (es.map (·.1)).Sublist fieldNames)
      (name : String) : ((es.filter (·.1 != name)).map (·.1)).Sublist fieldNames :=
    (List.filter_sublist.map _).trans hes
  exact {
    whole := ofTree?_eq_some (record?_of_sublist hnames) h
    without_epochs := ofTree?_eq_some (record?_of_sublist (hfilter hnames _)) h.without_epochs
    without_height := ofTree?_eq_some (record?_of_sublist (hfilter hnames _)) h.without_height
    without_both := ofTree?_eq_some (record?_of_sublist (hfilter (hfilter hnames _) _))
      h.without_epochs.without_height }

/-- Parameters whose key was decoded survive being written into a document, whatever their
numbers, flags and epochs are, and whichever signedness the format gives their integers. -/
theorem documents_toTree (d : Tree.Dialect) {b : Bytes 64} {p : Params}
    (hkey : SignerKey.ofBytes b = .ok p.signerKey) :
    Documents d p.toTree p ∧ ∀ hold : Tree → Tree, (∀ t, (hold t).integer? = t.integer?) →
      Documents d (p.toTree.mapIntegers hold) p := by
  have hread (hold : Tree → Tree) (hhold : ∀ t, (hold t).integer? = t.integer?) :
      Documents d (p.toTree.mapIntegers hold) p := by
    obtain ⟨fields, htree, hnames, hfields⟩ := exists_fields_toTree hhold d hkey
    rw [htree]
    exact hfields.documents hnames
  refine ⟨?_, hread⟩
  have hwritten := hread id fun _ => rfl
  rwa [Tree.mapIntegers_id] at hwritten

/-- Two epochs that start together keep their order, and a format with signed integers only
holds the parameters as well. -/
theorem documents_tied_epochs :
    let p := { preset .regtest with
      epochs := .ofList [⟨7, .targetReset 8 ⟨0x1e0fffff⟩ (.ofNat 5)⟩, ⟨7, .legacyAcceptance 9⟩,
        ⟨3, .legacyAcceptance 4⟩]
      signerKey := G2.generator }
    SignerKey.ofBytes (SignerKey.toBytes G2.generator) = .ok p.signerKey ∧
      Documents Json.dialect p.toTree p ∧
      Documents Json.dialect (p.toTree.mapIntegers fun t => t.integer?.elim t .signed) p := by
  intro p
  have hkey : SignerKey.ofBytes (SignerKey.toBytes G2.generator) = .ok p.signerKey :=
    SignerKey.ofBytes_generator
  have hsigned (t : Tree) : (t.integer?.elim t .signed).integer? = t.integer? := by
    cases t <;> rfl
  obtain ⟨hwritten, hread⟩ := documents_toTree Json.dialect hkey
  exact ⟨hkey, hwritten, hread _ hsigned⟩

end Params
end SignedChain
