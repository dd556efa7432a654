import SignedChain.Proofs.AcceptedBlocks

/-!
# Acceptance is all or nothing

The checks look blocks up through the entries, and storing a header looks at the index
alone. In a reachable arena the two agree, so a header that validates can be stored as
long as there is a free number. An offer thus does what the verdict on its header says:
it stores exactly this header, or it leaves the arena as it was for the reason that the
verdict gives. A header that was stored is a duplicate from then on.
-/
namespace SignedChain.Arena

variable {p : Params} {a b : Arena} {header : Header} {script : String} {hash : BlockHash}
  {q : Block} {s : Submission}

theorem checkOn_ne_notStored (cause : Error) :
    a.checkOn p q header script ≠ .error (.notStored cause) := by
  intro h
  unfold checkOn at h
  split at h
  · cases h
  · repeat' split at h
    all_goals cases h

theorem validate_ne_notStored (cause : Error) :
    a.validate p header script ≠ .error (.notStored cause) := by
  intro h
  unfold validate at h
  split at h
  · cases h
  · split at h
    · cases h
    next q _ =>
      cases hcheck : a.checkOn p q header script with
      | ok _ =>
        rw [hcheck] at h
        cases h
      | error refusal =>
        rw [hcheck] at h
        cases h
        exact checkOn_ne_notStored cause hcheck

/-- A header that validates can be stored. -/
theorem Consistent.admits_of_validate (ha : a.Consistent) (hroom : a.size < 2 ^ 32)
    (hv : a.validate p header script = .ok hash) :
    hash = header.hash ∧ ∃ q, a.Admits header q := by
  obtain ⟨hnew, q, hparent, _, hhash⟩ := validate_eq_ok_iff.mp hv
  exact ⟨hhash, q, ha.byHash_eq_none hnew, hparent, hroom⟩

theorem accept_eq_duplicate {c : Block} (hc : a.lookup? header.hash = some c) :
    a.accept p header script = .error (.rejected (.duplicate header.hash)) := by
  have hv : a.validate p header script = .error (.rejected (.duplicate header.hash)) := by
    rw [validate, hc]
    exact if_pos rfl
  rw [accept, hv]

/-- What an offer to `a` does, if it ends with `result` and `b`. -/
structure Offered (p : Params) (a : Arena) (s : Submission) (result : Except Refusal Nat)
    (b : Arena) : Prop where
  accepted_iff : (∃ id, result = .ok id) ↔ ∃ hash, a.validate p s.header s.script = .ok hash
  stored : ∀ id, result = .ok id → id = a.size ∧ a.insert s.header = .ok (id, b) ∧
    ∃ c, b.block? id = some c ∧ a.validate p s.header s.script = .ok c.hash
  unchanged : ∀ refusal, result = .error refusal →
    b = a ∧ a.validate p s.header s.script = .error refusal
  stores_what_validates : ∀ cause, result ≠ .error (.notStored cause)
  duplicate : ∀ id, result = .ok id → ∀ later, b.Grows later → ∀ p' script,
    later.accept p' s.header script = .error (.rejected (.duplicate s.header.hash))

theorem offered_of_refusal {refusal : Refusal}
    (hv : a.validate p s.header s.script = .error refusal) :
    Offered p a s (.error refusal) a := by
  constructor
  · simp [hv]
  · intro id hid
    cases hid
  · intro cause hcause
    cases hcause
    exact ⟨rfl, hv⟩
  · intro cause hcause
    cases hcause
    exact validate_ne_notStored cause hv
  · intro id hid
    cases hid

theorem offered_of_verdict (ha : a.Consistent) (hadmits : a.Admits s.header q)
    (hv : a.validate p s.header s.script = .ok s.header.hash) :
    Offered p a s (.ok a.size) (a.push (a.child q s.header)) := by
  constructor
  · simp [hv]
  · intro id hid
    cases hid
    exact ⟨rfl, insert_eq_ok_iff.mpr ⟨q, hadmits, rfl⟩, _, block?_push_self a _, hv⟩
  · intro cause hcause
    cases hcause
  · intro cause hcause
    cases hcause
  · intro id hid later hlater p' script
    have hfound : (a.push (a.child q s.header)).lookup? s.header.hash =
        some (a.child q s.header) := by
      rw [lookup?_push ha]
      exact if_pos rfl
    exact accept_eq_duplicate (hlater.lookup? (consistent_push ha hadmits) hfound)

/-- Offers agree with the verdict on the header and with its insertion. -/
theorem offered (ha : a.Reachable) (hroom : a.size < 2 ^ 32) (p : Params) (s : Submission) :
    Offered p a s (a.offer p s).1 (a.offer p s).2 := by
  cases hv : a.validate p s.header s.script with
  | error refusal =>
    have h : a.offer p s = (.error refusal, a) := by
      rw [offer, accept, hv]
    rw [h]
    exact offered_of_refusal hv
  | ok hash =>
    obtain ⟨rfl, q, hadmits⟩ := ha.consistent.admits_of_validate hroom hv
    have h : a.offer p s = (.ok a.size, a.push (a.child q s.header)) := by
      rw [offer, accept, hv, insert_eq_ok_iff.mpr ⟨q, hadmits, rfl⟩]
    rw [h]
    exact offered_of_verdict ha.consistent hadmits hv

open Fork in
/-- The late header of the fork is stored, and refused when it is offered again. -/
theorem offered_late_twice :
    (ofGenesis first).Reachable ∧ (ofGenesis first).size < 2 ^ 32 ∧
    ((ofGenesis first).offer rules ⟨late, ""⟩).1 = .ok 1 ∧
    (ofGenesis first).insert late = .ok (1, withLate) ∧
    withLate.accept rules late "again" = .error (.rejected (.duplicate late.hash)) := by
  have hreachable : (ofGenesis first).Reachable := ⟨first, [], rfl⟩
  have hroom : (ofGenesis first).size < 2 ^ 32 := by decide
  have hoffered := offered hreachable hroom rules ⟨late, ""⟩
  rw [offer_late] at hoffered
  refine ⟨hreachable, hroom, by rw [offer_late], (hoffered.stored 1 rfl).2.1, ?_⟩
  exact hoffered.duplicate 1 rfl withLate .refl rules "again"

end SignedChain.Arena
