import SignedChain.Proofs.BranchVerdict

/-!
# Accepted blocks stay valid

A run offers headers with their coinbase scripts one after the other; a refused one
leaves the arena as it was. What was checked of a header when it was accepted holds in
every later arena of the run: the rules read only the branch below the header, and
later blocks leave that branch alone (`Settled.grow`).
-/
namespace SignedChain

/-- A header and the coinbase script it is offered with. -/
structure Submission where
  header : Header
  script : String

namespace Arena

/-- The outcome of an offer and the arena after it. -/
def offer (p : Params) (a : Arena) (s : Submission) : Except Refusal Nat × Arena :=
  match a.accept p s.header s.script with
  | .ok (id, b) => (.ok id, b)
  | .error refusal => (.error refusal, a)

/-- The arena after offers of all the submissions in turn, whatever their outcomes. -/
def offerAll (p : Params) (a : Arena) (submissions : List Submission) : Arena :=
  submissions.foldl (fun a s => (a.offer p s).2) a

theorem offerAll_nil (p : Params) (a : Arena) : a.offerAll p [] = a := rfl

theorem offerAll_cons (p : Params) (a : Arena) (s : Submission) (rest : List Submission) :
    a.offerAll p (s :: rest) = (a.offer p s).2.offerAll p rest := rfl

/-- The checks that a header on top of `q` passes. -/
structure Passes (p : Params) (a : Arena) (q : Block) (s : Submission) : Prop where
  required : Difficulty.required a.history p (some q) s.header.time s.header.bits =
    .ok s.header.bits
  meets : meetsTarget s.header.hash s.header.bits p s.header.time = true
  authorized : p.authorizes (q.height + 1) s.script s.header.parent.text = true

/-- A submission is stored as block `b` on top of block `q`, and passes all checks there. -/
structure Settled (p : Params) (a : Arena) (s : Submission) (q b : Block) : Prop extends
    Passes p a q s where
  parent_found : a.lookup? s.header.parent = some q
  found : a.lookup? s.header.hash = some b
  stored : b = ⟨b.id, some q.id, s.header.hash, q.height + 1, s.header.time, s.header.bits,
    q.work + s.header.bits.work⟩

variable {p : Params} {a b : Arena} {s : Submission} {q : Block}

theorem checkOn_eq_ok_iff (hhash : q.hash = s.header.parent) (hheight : q.height + 1 < 2 ^ 32) :
    a.checkOn p q s.header s.script = .ok () ↔ a.Passes p q s := by
  rw [checkOn, hhash]
  cases hrequired : Difficulty.required a.history p (some q) s.header.time s.header.bits with
  | error cause =>
    constructor
    · intro h
      cases h
    · intro h
      cases hrequired.symm.trans h.required
  | ok expected =>
    simp only [check_eq_ok_iff, ne_eq, Decidable.not_not, Bool.not_eq_true', Bool.not_eq_false,
      and_true]
    constructor
    · intro h
      obtain ⟨rfl, hmeets, _, hauthorized⟩ := h
      exact ⟨hrequired, hmeets, hauthorized⟩
    · intro h
      have hbits := Except.ok.inj (hrequired.symm.trans h.required)
      exact ⟨hbits.symm, h.meets, Nat.not_le_of_lt hheight, h.authorized⟩

theorem validate_eq_ok_iff {header : Header} {script : String} {hash : BlockHash} :
    a.validate p header script = .ok hash ↔ a.lookup? header.hash = none ∧
      ∃ q, a.lookup? header.parent = some q ∧ a.checkOn p q header script = .ok () ∧
        hash = header.hash := by
  rw [validate, check_eq_ok_iff, Option.not_isSome_iff_eq_none]
  cases hq : a.lookup? header.parent with
  | none => simp
  | some q =>
    cases hcheck : a.checkOn p q header script with
    | error refusal => simp [hcheck, Except.map]
    | ok _ => simp [hcheck, Except.map, eq_comm]

theorem accept_eq_ok_iff_insert {header : Header} {script : String} {result : Nat × Arena} :
    a.accept p header script = .ok result ↔
      (∃ hash, a.validate p header script = .ok hash) ∧ a.insert header = .ok result := by
  unfold accept
  cases a.validate p header script with
  | error refusal => simp
  | ok hash =>
    cases a.insert header with
    | error cause => simp
    | ok stored => simp

/-- A header is accepted exactly if it can be stored and passes the checks. -/
theorem accept_eq_ok_iff (ha : a.Consistent) {result : Nat × Arena} :
    a.accept p s.header s.script = .ok result ↔
      ∃ q, a.Admits s.header q ∧ a.Passes p q s ∧
        result = (a.size, a.push (a.child q s.header)) := by
  have hpasses : ∀ q, a.Admits s.header q →
      (a.checkOn p q s.header s.script = .ok () ↔ a.Passes p q s) := by
    intro q hq
    obtain ⟨hblock, hhash⟩ := ha.lookup?_eq_some_iff.mp hq.parent
    exact checkOn_eq_ok_iff hhash (ha.height_add_one_lt hblock hq.room)
  rw [accept_eq_ok_iff_insert]
  constructor
  · intro h
    obtain ⟨⟨hash, hv⟩, hi⟩ := h
    obtain ⟨_, r, hr, hcheck, _⟩ := validate_eq_ok_iff.mp hv
    obtain ⟨q, hq, rfl⟩ := insert_eq_ok_iff.mp hi
    cases hr.symm.trans hq.parent
    exact ⟨r, hq, (hpasses r hq).mp hcheck, rfl⟩
  · intro h
    obtain ⟨q, hq, hpass, rfl⟩ := h
    have hnew : a.lookup? s.header.hash = none := by
      rw [lookup?, hq.fresh, Option.bind_none]
    have hv := validate_eq_ok_iff.mpr ⟨hnew, q, hq.parent, (hpasses q hq).mpr hpass, rfl⟩
    exact ⟨⟨_, hv⟩, insert_eq_ok_iff.mpr ⟨q, hq, rfl⟩⟩

/-- All that an offer can do. -/
theorem offer_cases (ha : a.Consistent) (p : Params) (s : Submission) :
    (∃ refusal, a.offer p s = (.error refusal, a)) ∨
      ∃ q, a.Admits s.header q ∧ a.Passes p q s ∧
        a.offer p s = (.ok a.size, a.push (a.child q s.header)) := by
  unfold offer
  cases h : a.accept p s.header s.script with
  | error refusal => exact .inl ⟨refusal, rfl⟩
  | ok result =>
    obtain ⟨q, hq, hpass, rfl⟩ := (accept_eq_ok_iff ha).mp h
    exact .inr ⟨q, hq, hpass, rfl⟩

theorem offer_of_passes (ha : a.Consistent) (hq : a.Admits s.header q)
    (hpass : a.Passes p q s) :
    a.offer p s = (.ok a.size, a.push (a.child q s.header)) := by
  unfold offer
  rw [(accept_eq_ok_iff ha).mpr ⟨q, hq, hpass, rfl⟩]

theorem grows_offer (ha : a.Consistent) (p : Params) (s : Submission) :
    a.Grows (a.offer p s).2 := by
  rcases offer_cases ha p s with ⟨_, h⟩ | ⟨q, hq, _, h⟩
  · rw [h]
    exact .refl
  · rw [h]
    exact .store .refl hq

theorem grows_offerAll (ha : a.Consistent) (p : Params) (submissions : List Submission) :
    a.Grows (a.offerAll p submissions) := by
  induction submissions generalizing a with
  | nil => exact .refl
  | cons s submissions ih =>
    have hs := grows_offer ha p s
    exact hs.trans (ih (hs.consistent ha))

/-- Blocks that come later do not change what is required after a stored block. -/
theorem Passes.grow (ha : a.Consistent) (hab : a.Grows b) (hq : a.block? q.id = some q)
    (h : a.Passes p q s) : b.Passes p q s := by
  obtain ⟨qs, hqs⟩ := ha.exists_ancestry hq
  have hs : SameBranch a.history q b.history q :=
    (SameBranch.refl hqs).mono (fun _ _ hc => hc) hab.within
  refine ⟨?_, h.meets, h.authorized⟩
  rw [← hs.required_eq ha.descending (hab.consistent ha).descending]
  exact h.required

theorem Settled.grow {c : Block} (ha : a.Consistent) (hab : a.Grows b)
    (h : a.Settled p s q c) : b.Settled p s q c := by
  have hq := (ha.lookup?_eq_some_iff.mp h.parent_found).1
  exact ⟨h.toPasses.grow ha hab hq, hab.lookup? ha h.parent_found, hab.lookup? ha h.found,
    h.stored⟩

theorem settled_push (ha : a.Consistent) (hq : a.Admits s.header q) (hpass : a.Passes p q s) :
    (a.push (a.child q s.header)).Settled p s q (a.child q s.header) := by
  have hab : a.Grows (a.push (a.child q s.header)) := .store .refl hq
  refine ⟨hpass.grow ha hab (ha.lookup?_eq_some_iff.mp hq.parent).1,
    hab.lookup? ha hq.parent, ?_, rfl⟩
  rw [lookup?_push ha]
  exact if_pos rfl

/-- Every block of a run that was not there before has been submitted and is settled. -/
theorem settled_of_offerAll (ha : a.Consistent) {submissions : List Submission} {i : Nat}
    {c : Block} (hc : (a.offerAll p submissions).block? i = some c) :
    a.block? i = some c ∨
      ∃ s ∈ submissions, ∃ q, (a.offerAll p submissions).Settled p s q c := by
  induction submissions generalizing a with
  | nil => exact .inl hc
  | cons s rest ih =>
    rw [offerAll_cons] at hc ⊢
    rcases offer_cases ha p s with ⟨_, h⟩ | ⟨q, hq, hpass, h⟩
    · rw [h] at hc ⊢
      rcases ih ha hc with hold | ⟨t, ht, hsettled⟩
      · exact .inl hold
      · exact .inr ⟨t, List.mem_cons_of_mem s ht, hsettled⟩
    · rw [h] at hc ⊢
      have hb := consistent_push ha hq
      rcases ih hb hc with hpushed | ⟨t, ht, hsettled⟩
      · rcases block?_push_cases hpushed with ⟨rfl, rfl⟩ | ⟨_, hold⟩
        · exact .inr ⟨s, List.mem_cons_self, q,
            (settled_push ha hq hpass).grow hb (grows_offerAll hb p rest)⟩
        · exact .inl hold
      · exact .inr ⟨t, List.mem_cons_of_mem s ht, hsettled⟩

/-- Whatever a run offers later, an accepted header stays a valid block of the arena. -/
theorem accepted_stays_valid (p : Params) (genesis : Header) (earlier later : List Submission)
    (s : Submission) {id : Nat}
    (hok : (((ofGenesis genesis).offerAll p earlier).offer p s).1 = .ok id) :
    let final := (ofGenesis genesis).offerAll p (earlier ++ s :: later)
    ∃ q b, final.lookup? s.header.parent = some q ∧
      Difficulty.required final.history p (some q) s.header.time s.header.bits =
        .ok s.header.bits ∧
      meetsTarget s.header.hash s.header.bits p s.header.time = true ∧
      p.authorizes (q.height + 1) s.script s.header.parent.text = true ∧
      final.block? id = some b ∧ final.lookup? s.header.hash = some b ∧
      b.parent = some q.id ∧ b.hash = s.header.hash ∧ b.time = s.header.time ∧
      b.bits = s.header.bits ∧ b.height = q.height + 1 := by
  intro final
  have hgenesis := consistent_ofGenesis genesis
  have ha := (grows_offerAll hgenesis p earlier).consistent hgenesis
  have hfinal : final =
      (((ofGenesis genesis).offerAll p earlier).offer p s).2.offerAll p later := by
    simp only [final, offerAll, List.foldl_append, List.foldl_cons]
  rcases offer_cases ha p s with ⟨_, h⟩ | ⟨q, hq, hpass, h⟩
  · rw [h] at hok
    cases hok
  · rw [h] at hok hfinal
    cases hok
    have hb := consistent_push ha hq
    have hlater := grows_offerAll hb p later
    rw [← hfinal] at hlater
    have hsettled := (settled_push ha hq hpass).grow hb hlater
    exact ⟨q, _, hsettled.parent_found, hsettled.required, hsettled.meets, hsettled.authorized,
      hlater.within (block?_push_self _ _), hsettled.found, rfl, rfl, rfl, rfl, rfl⟩

namespace Fork

theorem passes_late : (ofGenesis first).Passes rules (firstBlock first) ⟨late, ""⟩ := by
  refine ⟨by rfl, ?_, by rfl⟩
  rw [hash_late]
  decide

theorem offer_late : (ofGenesis first).offer rules ⟨late, ""⟩ = (.ok 1, withLate) := by
  rw [offer_of_passes (consistent_ofGenesis first) admits_late passes_late, withLate_eq]
  rfl

theorem consistent_withLate : withLate.Consistent :=
  (grows_insertAll _ _).consistent (consistent_ofGenesis first)

theorem admits_prompt : withLate.Admits prompt (firstBlock first) := by
  have hne : late.hash ≠ prompt.hash := by
    rw [hash_late, hash_prompt]
    decide
  rw [withLate_eq]
  exact admits_late.push (consistent_ofGenesis first) admits_prompt_on_first hne (by decide)

theorem passes_prompt : withLate.Passes rules (firstBlock first) ⟨prompt, ""⟩ := by
  rw [withLate_eq]
  refine ⟨by rfl, ?_, by rfl⟩
  rw [hash_prompt]
  decide

theorem offer_prompt : withLate.offer rules ⟨prompt, ""⟩ =
    (.ok 2, withLate.push (withLate.child (firstBlock first) prompt)) := by
  rw [offer_of_passes consistent_withLate admits_prompt passes_prompt, withLate_eq]
  rfl

end Fork

open Fork in
/-- The prompt header is accepted after its late sibling, and offers of either that fail
later leave it a valid block. -/
theorem prompt_stays_valid :
    (((ofGenesis first).offerAll rules [⟨late, ""⟩]).offer rules ⟨prompt, ""⟩).1 = .ok 2 ∧
    ∃ q b, ((ofGenesis first).offerAll rules
        [⟨late, ""⟩, ⟨prompt, ""⟩, ⟨late, ""⟩, ⟨prompt, ""⟩]).lookup? prompt.parent = some q ∧
      ((ofGenesis first).offerAll rules
        [⟨late, ""⟩, ⟨prompt, ""⟩, ⟨late, ""⟩, ⟨prompt, ""⟩]).lookup? prompt.hash = some b ∧
      b.parent = some q.id ∧ b.height = q.height + 1 := by
  have hok : (((ofGenesis first).offerAll rules [⟨late, ""⟩]).offer rules ⟨prompt, ""⟩).1 =
      .ok 2 := by
    simp only [offerAll, List.foldl_cons, List.foldl_nil, offer_late, offer_prompt]
  obtain ⟨q, b, hq, _, _, _, _, hb, hparent, _, _, _, hheight⟩ :=
    accepted_stays_valid rules first [⟨late, ""⟩] [⟨late, ""⟩, ⟨prompt, ""⟩] ⟨prompt, ""⟩ hok
  exact ⟨hok, q, b, hq, hb, hparent, hheight⟩

end Arena
end SignedChain
