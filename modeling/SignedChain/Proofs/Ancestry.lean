import SignedChain.Chain.Block

/-!
# Ancestries

`Ancestry h b bs` says that `bs` are the ancestors of `b` in the history `h`, nearest
first, all the way down to a block without a parent. Ancestries are unique, survive
every extension of the history, and decide what the walks of a history return: an
ancestor is an entry of the list, and a walk settles on one. How a block is numbered
does not enter; numbers only bound the length of the list (`Ancestry.length_le`).
-/
namespace SignedChain

inductive Ancestry (h : History) : Block → List Block → Prop
  | first {b : Block} : b.parent = none → Ancestry h b []
  | next {b q : Block} {qs : List Block} :
      h.parent? b = some q → Ancestry h q qs → Ancestry h b (q :: qs)

/-- Every block of the first history is the same block of the second. -/
def History.Within (h k : History) : Prop :=
  ∀ ⦃id b⦄, h.block? id = some b → k.block? id = some b

/-- Numbers decrease toward the first block. -/
def History.Descending (h : History) : Prop :=
  ∀ ⦃id b parent⦄, h.block? id = some b → b.parent = some parent → parent < id

theorem History.Descending.maxAncestors_le {h : History} (hd : h.Descending) {id : Nat}
    {b : Block} (hb : h.block? id = some b) : b.maxAncestors ≤ id := by
  unfold Block.maxAncestors
  split
  next => exact Nat.zero_le _
  next parent hp => exact hd hb hp

theorem History.parent?_eq_some_iff {h : History} {b q : Block} :
    h.parent? b = some q ↔ ∃ id, b.parent = some id ∧ h.block? id = some q :=
  Option.bind_eq_some_iff

theorem History.parent?_eq_none {h : History} {b : Block} (hb : b.parent = none) :
    h.parent? b = none := by
  simp only [parent?, hb, Option.bind_none]

theorem History.parent_ne_none {h : History} {b q : Block} (hq : h.parent? b = some q) :
    b.parent ≠ none := by
  intro hb
  rw [parent?_eq_none hb] at hq
  cases hq

theorem History.Within.parent? {h k : History} (hk : h.Within k) {b q : Block}
    (hq : h.parent? b = some q) : k.parent? b = some q := by
  obtain ⟨id, hid, hblock⟩ := parent?_eq_some_iff.mp hq
  exact parent?_eq_some_iff.mpr ⟨id, hid, hk hblock⟩

theorem History.Within.ancestor? {h k : History} (hk : h.Within k) {steps : Nat} {b c : Block}
    (hc : h.ancestor? steps b = some c) : k.ancestor? steps b = some c := by
  induction steps generalizing b with
  | zero => exact hc
  | succ steps ih =>
    obtain ⟨q, hq, hrest⟩ := Option.bind_eq_some_iff.mp hc
    exact Option.bind_eq_some_iff.mpr ⟨q, hk.parent? hq, ih hrest⟩

/-- An ancestor of a stored block is stored. -/
theorem History.exists_stored_ancestor {h : History} {id steps : Nat} {b x : Block}
    (hb : h.block? id = some b) (hx : h.ancestor? steps b = some x) :
    ∃ j, h.block? j = some x := by
  induction steps generalizing id b with
  | zero =>
    cases hx
    exact ⟨id, hb⟩
  | succ steps ih =>
    obtain ⟨q, hq, hrest⟩ := Option.bind_eq_some_iff.mp hx
    obtain ⟨_, _, hstored⟩ := parent?_eq_some_iff.mp hq
    exact ih hstored hrest

theorem History.hide_within (h : History) (hidden : Nat → Bool) : (h.hide hidden).Within h := by
  intro id b hb
  simp only [hide] at hb
  split at hb
  · cases hb
  · exact hb

namespace Ancestry

variable {h k : History} {b : Block} {bs cs : List Block}

theorem mono (hk : h.Within k) (hb : Ancestry h b bs) : Ancestry k b bs := by
  induction hb with
  | first hp => exact .first hp
  | next hq _ ih => exact .next (hk.parent? hq) ih

theorem unique (hb : Ancestry h b bs) (hc : Ancestry h b cs) : bs = cs := by
  induction hb generalizing cs with
  | first hp =>
    cases hc with
    | first _ => rfl
    | next hq _ =>
      rw [History.parent?_eq_none hp] at hq
      cases hq
  | next hq _ ih =>
    cases hc with
    | first hp =>
      rw [History.parent?_eq_none hp] at hq
      cases hq
    | next hr ht =>
      cases hq.symm.trans hr
      rw [ih ht]

/-- The ancestors of a block are no more than the walks allow for. -/
theorem length_le (hd : h.Descending) (hb : Ancestry h b bs) : bs.length ≤ b.maxAncestors := by
  induction hb with
  | first _ => exact Nat.zero_le _
  | @next b q qs hq _ ih =>
    obtain ⟨id, hid, hblock⟩ := History.parent?_eq_some_iff.mp hq
    have hbound : q.maxAncestors ≤ id := hd.maxAncestors_le hblock
    simp only [Block.maxAncestors, hid, List.length_cons]
    omega

theorem parent_mem (hb : Ancestry h b bs) {q : Block} (hq : h.parent? b = some q) : q ∈ bs := by
  cases hb with
  | first hp =>
    rw [History.parent?_eq_none hp] at hq
    cases hq
  | next hr _ =>
    cases hq.symm.trans hr
    exact List.mem_cons_self

/-- A stored block has stored ancestors only. -/
theorem stored {id : Nat} (hb : Ancestry h b bs) (hid : h.block? id = some b) {x : Block}
    (hx : x ∈ b :: bs) : ∃ j, h.block? j = some x := by
  induction hb generalizing id with
  | first _ =>
    rcases List.mem_cons.mp hx with rfl | hx
    · exact ⟨id, hid⟩
    · cases hx
  | next hq _ ih =>
    rcases List.mem_cons.mp hx with rfl | hx
    · exact ⟨id, hid⟩
    · obtain ⟨_, _, hstored⟩ := History.parent?_eq_some_iff.mp hq
      exact ih hstored hx

theorem ancestor? (hb : Ancestry h b bs) (steps : Nat) :
    h.ancestor? steps b = (b :: bs)[steps]? := by
  induction hb generalizing steps with
  | first hp =>
    cases steps with
    | zero => rfl
    | succ steps => simp [History.ancestor?, History.parent?_eq_none hp]
  | next hq _ ih =>
    cases steps with
    | zero => rfl
    | succ steps => simpa [History.ancestor?, hq] using ih steps

end Ancestry

/-- The first block of a list, begun with `b`, at which `go` fails, or else the last. -/
def settle (go : Block → Bool) : Block → List Block → Block
  | b, [] => b
  | b, q :: qs => if go b then settle go q qs else b

theorem Ancestry.walk {h : History} {b : Block} {bs : List Block} (hb : Ancestry h b bs)
    (go : Block → Bool) {steps : Nat} (hs : bs.length ≤ steps) :
    h.walk go steps b = settle go b bs := by
  induction hb generalizing steps with
  | first hp =>
    cases steps with
    | zero => rfl
    | succ steps => simp only [History.walk, History.parent?_eq_none hp, settle]
  | next hq _ ih =>
    cases steps with
    | zero => simp at hs
    | succ steps =>
      simp only [List.length_cons, Nat.add_le_add_iff_right] at hs
      simp only [History.walk, hq, settle, ih hs]

end SignedChain
