import SignedChain.Chain.Arena
import SignedChain.Proofs.Ancestry

/-!
# Arenas that grow from a first header

`insertAll` runs insertions in turn; a failing one leaves the arena as it was. Every
arena so reached is `Consistent`: the list of entries, the index by hash and the tip
say the same, parents are entries with smaller numbers, heights and work add up along
them. Storing a header only appends (`within_push`), so an arena that `Grows` keeps
every block and finds it again. `insertAll_invariant` collects this for all runs.
-/
namespace SignedChain

/-- A check that refuses under a condition passes the rest on where that fails. -/
theorem check_eq_ok_iff {ε α : Type} {c : Prop} [Decidable c] {cause : ε} {rest : Except ε α}
    {x : α} : (if c then .error cause else rest) = .ok x ↔ ¬c ∧ rest = .ok x := by
  by_cases hc : c
  · simp only [hc, if_true, not_true_eq_false, false_and, iff_false]
    intro h
    cases h
  · simp only [hc, if_false, not_false_eq_true, true_and]

namespace Arena

/-- The outcome of an insertion and the arena after it. -/
def attempt (a : Arena) (header : Header) : Except Error Nat × Arena :=
  match a.insert header with
  | .ok (id, b) => (.ok id, b)
  | .error cause => (.error cause, a)

/-- The arena after an attempt to insert each of the headers in turn. -/
def insertAll (a : Arena) (headers : List Header) : Arena :=
  headers.foldl (fun a header => (a.attempt header).2) a

/-- Some run of insertions on a first header ends with the arena. -/
def Reachable (a : Arena) : Prop :=
  ∃ genesis headers, a = (ofGenesis genesis).insertAll headers

structure Consistent (a : Arena) : Prop where
  size_le : a.size ≤ 2 ^ 32
  numbered : ∀ ⦃i b⦄, a.block? i = some b → b.id = i
  first : ∀ ⦃b⦄, a.block? 0 = some b → b.parent = none ∧ b.height = 0
  linked : ∀ ⦃i b⦄, a.block? i = some b → i ≠ 0 → ∃ q, q.id < i ∧ a.block? q.id = some q ∧
    b.parent = some q.id ∧ b.height = q.height + 1 ∧ b.work = q.work + b.bits.work
  height_le : ∀ ⦃i b⦄, a.block? i = some b → b.height ≤ i
  indexed : ∀ hash i, a.byHash[hash]? = some i ↔ ∃ b, a.block? i = some b ∧ b.hash = hash
  /-- No block has more work than the tip, and those with as much come later. -/
  best : ∀ ⦃i b⦄, a.block? i = some b →
    b.work ≤ a.tip.work ∧ (b.work = a.tip.work → a.tipId ≤ i)

variable {a : Arena} {header : Header} {q : Block}

theorem lt_size_of_block? {i : Nat} {b : Block} (hb : a.block? i = some b) : i < a.size :=
  (Array.getElem?_eq_some_iff.mp hb).choose

theorem block?_tipId (a : Arena) : a.block? a.tipId = some a.tip :=
  Array.getElem?_eq_getElem a.tip_lt

theorem within_push (a : Arena) (b : Block) : a.history.Within (a.push b).history := by
  intro i c hc
  change (a.push b).block? i = some c
  rw [block?_push, if_neg (Nat.ne_of_lt (lt_size_of_block? hc))]
  exact hc

theorem tip_push (a : Arena) (b : Block) :
    (a.push b).tip = if a.tip.work < b.work then b else a.tip := by
  have ht := block?_tipId (a.push b)
  rw [block?_push] at ht
  have hlt := a.tip_lt
  by_cases hw : a.tip.work < b.work
  · simp only [push, hw, if_true, Option.some.injEq] at ht ⊢
    exact ht.symm
  · simp only [push, hw, if_false, size] at ht ⊢
    rw [if_neg (Nat.ne_of_lt hlt)] at ht
    exact (Option.some.inj ((block?_tipId a).symm.trans ht)).symm

namespace Consistent

theorem lookup?_eq_some_iff (ha : a.Consistent) {hash : BlockHash} {b : Block} :
    a.lookup? hash = some b ↔ a.block? b.id = some b ∧ b.hash = hash := by
  rw [lookup?, Option.bind_eq_some_iff]
  constructor
  · intro h
    obtain ⟨i, hi, hb⟩ := h
    obtain ⟨c, hc, hhash⟩ := (ha.indexed hash i).mp hi
    cases hc.symm.trans hb
    rw [ha.numbered hb]
    exact ⟨hb, hhash⟩
  · intro h
    exact ⟨b.id, (ha.indexed hash b.id).mpr ⟨b, h⟩, h.1⟩

theorem lookup?_isSome_iff (ha : a.Consistent) {hash : BlockHash} :
    (a.lookup? hash).isSome ↔ ∃ i, a.byHash[hash]? = some i := by
  rw [Option.isSome_iff_exists]
  constructor
  · intro h
    obtain ⟨b, hb⟩ := h
    exact ⟨b.id, (ha.indexed hash b.id).mpr ⟨b, ha.lookup?_eq_some_iff.mp hb⟩⟩
  · intro h
    obtain ⟨i, hi⟩ := h
    obtain ⟨b, hb, hhash⟩ := (ha.indexed hash i).mp hi
    exact ⟨b, ha.lookup?_eq_some_iff.mpr ⟨(ha.numbered hb).symm ▸ hb, hhash⟩⟩

theorem byHash_eq_none (ha : a.Consistent) {hash : BlockHash} (h : a.lookup? hash = none) :
    a.byHash[hash]? = none := by
  rw [← Option.not_isSome_iff_eq_none, ha.lookup?_isSome_iff] at h
  exact Option.eq_none_iff_forall_ne_some.mpr fun i hi => h ⟨i, hi⟩

theorem hash_injective (ha : a.Consistent) {i j : Nat} {b c : Block}
    (hb : a.block? i = some b) (hc : a.block? j = some c) (hh : b.hash = c.hash) : i = j := by
  have hi := (ha.indexed b.hash i).mpr ⟨b, hb, rfl⟩
  have hj := (ha.indexed b.hash j).mpr ⟨c, hc, hh.symm⟩
  exact Option.some.inj (hi.symm.trans hj)

theorem parent?_eq (ha : a.Consistent) {i : Nat} {b : Block} (hb : a.block? i = some b)
    (hi : i ≠ 0) : ∃ q, a.history.parent? b = some q ∧ a.block? q.id = some q ∧ q.id < i ∧
      b.height = q.height + 1 ∧ b.work = q.work + b.bits.work := by
  obtain ⟨q, hlt, hq, hparent, hheight, hwork⟩ := ha.linked hb hi
  exact ⟨q, History.parent?_eq_some_iff.mpr ⟨q.id, hparent, hq⟩, hq, hlt, hheight, hwork⟩

/-- A block with a parent in the arena is not the first one, and links to a stored block. -/
theorem of_parent? (ha : a.Consistent) {i : Nat} {b q : Block} (hb : a.block? i = some b)
    (hq : a.history.parent? b = some q) : a.block? q.id = some q ∧ q.id < i ∧
      b.height = q.height + 1 ∧ b.work = q.work + b.bits.work := by
  have hi : i ≠ 0 := by
    intro hi
    subst hi
    exact History.parent_ne_none hq (ha.first hb).1
  obtain ⟨r, hr, hlinked⟩ := ha.parent?_eq hb hi
  cases hq.symm.trans hr
  exact hlinked

theorem descending (ha : a.Consistent) : a.history.Descending := by
  intro i b parent hb hparent
  by_cases hi : i = 0
  · subst hi
    rw [(ha.first hb).1] at hparent
    cases hparent
  · obtain ⟨q, hlt, _, hq, _⟩ := ha.linked hb hi
    cases hq.symm.trans hparent
    exact hlt

/-- Every stored block descends from the first one. -/
theorem exists_ancestry (ha : a.Consistent) {i : Nat} {b : Block} (hb : a.block? i = some b) :
    ∃ bs, Ancestry a.history b bs := by
  induction i using Nat.strongRecOn generalizing b with
  | ind i ih =>
    by_cases hi : i = 0
    · subst hi
      exact ⟨[], .first (ha.first hb).1⟩
    · obtain ⟨q, hparent, hq, hlt, _, _⟩ := ha.parent?_eq hb hi
      obtain ⟨qs, hqs⟩ := ih q.id hlt hq
      exact ⟨q :: qs, .next hparent hqs⟩

theorem height_add_one_lt (ha : a.Consistent) {i : Nat} {b : Block} (hb : a.block? i = some b)
    (hs : a.size < 2 ^ 32) : b.height + 1 < 2 ^ 32 := by
  have hle := ha.height_le hb
  have hlt := lt_size_of_block? hb
  omega

end Consistent

theorem byHash_ofGenesis (genesis : Header) (hash : BlockHash) :
    (ofGenesis genesis).byHash[hash]? = if genesis.hash = hash then some 0 else none := by
  simp only [ofGenesis, Std.HashMap.getElem?_insert, beq_iff_eq, Std.HashMap.getElem?_empty]

theorem lookup?_ofGenesis (genesis : Header) (hash : BlockHash) :
    (ofGenesis genesis).lookup? hash =
      if genesis.hash = hash then some (firstBlock genesis) else none := by
  rw [lookup?, byHash_ofGenesis]
  split
  · rfl
  · rfl

theorem block?_ofGenesis {genesis : Header} {i : Nat} {b : Block}
    (hb : (ofGenesis genesis).block? i = some b) : i = 0 ∧ b = firstBlock genesis := by
  have hi : i = 0 := by
    have hlt := lt_size_of_block? hb
    simp only [size, ofGenesis, List.size_toArray, List.length_singleton] at hlt
    omega
  subst hi
  exact ⟨rfl, (Option.some.inj hb).symm⟩

theorem consistent_ofGenesis (genesis : Header) : (ofGenesis genesis).Consistent := by
  constructor
  · simp [size, ofGenesis]
  · intro i b hb
    obtain ⟨rfl, rfl⟩ := block?_ofGenesis hb
    rfl
  · intro b hb
    obtain ⟨-, rfl⟩ := block?_ofGenesis hb
    exact ⟨rfl, rfl⟩
  · intro i b hb hi
    exact absurd (block?_ofGenesis hb).1 hi
  · intro i b hb
    obtain ⟨rfl, rfl⟩ := block?_ofGenesis hb
    exact Nat.le_refl _
  · intro hash i
    rw [byHash_ofGenesis]
    constructor
    · intro hi
      split at hi
      next heq =>
        cases hi
        exact ⟨firstBlock genesis, rfl, heq⟩
      next => cases hi
    · intro h
      obtain ⟨b, hb, rfl⟩ := h
      obtain ⟨rfl, rfl⟩ := block?_ofGenesis hb
      exact if_pos rfl
  · intro i b hb
    obtain ⟨rfl, rfl⟩ := block?_ofGenesis hb
    exact ⟨BitVec.le_refl _, fun _ => Nat.le_refl _⟩

/-- The conditions under which a header is stored on top of `q`. -/
structure Admits (a : Arena) (header : Header) (q : Block) : Prop where
  fresh : a.byHash[header.hash]? = none
  parent : a.lookup? header.parent = some q
  room : a.size < 2 ^ 32

theorem insert_eq_ok_iff {result : Nat × Arena} :
    a.insert header = .ok result ↔
      ∃ q, a.Admits header q ∧ result = (a.size, a.push (a.child q header)) := by
  rw [insert, check_eq_ok_iff, Std.HashMap.contains_eq_isSome_getElem?]
  cases hq : a.lookup? header.parent with
  | none =>
    constructor
    · intro h
      cases h.2
    · intro h
      obtain ⟨q, hadmits, _⟩ := h
      cases hq.symm.trans hadmits.parent
  | some q =>
    simp only [check_eq_ok_iff, Except.ok.injEq]
    constructor
    · intro h
      obtain ⟨hfresh, hroom, rfl⟩ := h
      exact ⟨q, ⟨by simpa using hfresh, hq, Nat.lt_of_not_le hroom⟩, rfl⟩
    · intro h
      obtain ⟨r, hadmits, rfl⟩ := h
      cases hq.symm.trans hadmits.parent
      exact ⟨by simp [hadmits.fresh], Nat.not_le_of_lt hadmits.room, rfl⟩

/-- All that an attempt can do. -/
theorem attempt_cases (a : Arena) (header : Header) :
    (∃ cause, a.attempt header = (.error cause, a)) ∨
      ∃ q, a.Admits header q ∧ a.attempt header = (.ok a.size, a.push (a.child q header)) := by
  unfold attempt
  cases h : a.insert header with
  | error cause => exact .inl ⟨cause, rfl⟩
  | ok result =>
    obtain ⟨q, hq, rfl⟩ := insert_eq_ok_iff.mp h
    exact .inr ⟨q, hq, rfl⟩

theorem block?_push_cases {b c : Block} {i : Nat} (hc : (a.push b).block? i = some c) :
    (i = a.size ∧ c = b) ∨ (i < a.size ∧ a.block? i = some c) := by
  rw [block?_push] at hc
  split at hc
  next hi => exact .inl ⟨hi, (Option.some.inj hc).symm⟩
  next => exact .inr ⟨lt_size_of_block? hc, hc⟩

@[simp] theorem block?_push_self (a : Arena) (b : Block) : (a.push b).block? a.size = some b := by
  rw [block?_push, if_pos rfl]

theorem byHash_push (a : Arena) (b : Block) (hash : BlockHash) :
    (a.push b).byHash[hash]? = if b.hash = hash then some a.size else a.byHash[hash]? := by
  simp only [push, Std.HashMap.getElem?_insert, beq_iff_eq]

theorem best_push (ha : a.Consistent) (b : Block) {i : Nat} {c : Block}
    (hc : (a.push b).block? i = some c) :
    c.work ≤ (a.push b).tip.work ∧ (c.work = (a.push b).tip.work → (a.push b).tipId ≤ i) := by
  have hlt : a.tipId < a.size := a.tip_lt
  rw [tip_push]
  simp only [push, BitVec.le_def, BitVec.lt_def, BitVec.toNat_eq]
  rcases block?_push_cases hc with ⟨rfl, rfl⟩ | ⟨_, hold⟩
  · split <;> constructor <;> intros <;> omega
  · have hb := ha.best hold
    simp only [BitVec.le_def, BitVec.toNat_eq] at hb
    split <;> constructor <;> intros <;> omega

theorem indexed_push (ha : a.Consistent) {b : Block} (hfresh : a.byHash[b.hash]? = none)
    (hash : BlockHash) (i : Nat) :
    (a.push b).byHash[hash]? = some i ↔ ∃ c, (a.push b).block? i = some c ∧ c.hash = hash := by
  rw [byHash_push]
  constructor
  · intro hi
    split at hi
    next heq =>
      cases hi
      exact ⟨b, block?_push_self a b, heq⟩
    next =>
      obtain ⟨c, hc, hhash⟩ := (ha.indexed hash i).mp hi
      exact ⟨c, within_push a b hc, hhash⟩
  · intro h
    obtain ⟨c, hc, rfl⟩ := h
    rcases block?_push_cases hc with ⟨rfl, rfl⟩ | ⟨_, hold⟩
    · rw [if_pos rfl]
    · have hi := (ha.indexed c.hash i).mpr ⟨c, hold, rfl⟩
      -- a stored block with the hash of the new one would have made the header a duplicate
      have hne : b.hash ≠ c.hash := by
        intro heq
        rw [heq] at hfresh
        cases hfresh.symm.trans hi
      rw [if_neg hne, hi]

theorem consistent_push (ha : a.Consistent) (hq : a.Admits header q) :
    (a.push (a.child q header)).Consistent := by
  have hwithin := within_push a (a.child q header)
  obtain ⟨hblock, _⟩ := ha.lookup?_eq_some_iff.mp hq.parent
  have hid : q.id < a.size := lt_size_of_block? hblock
  constructor
  · rw [size_push]
    exact hq.room
  · intro i b hb
    rcases block?_push_cases hb with ⟨rfl, rfl⟩ | ⟨_, hold⟩
    · rfl
    · exact ha.numbered hold
  · intro b hb
    rcases block?_push_cases hb with ⟨hi, _⟩ | ⟨_, hold⟩
    · omega
    · exact ha.first hold
  · intro i b hb hi
    rcases block?_push_cases hb with ⟨rfl, rfl⟩ | ⟨_, hold⟩
    · exact ⟨q, hid, hwithin hblock, rfl, rfl, rfl⟩
    · obtain ⟨r, hlt, hr, hrest⟩ := ha.linked hold hi
      exact ⟨r, hlt, hwithin hr, hrest⟩
  · intro i b hb
    rcases block?_push_cases hb with ⟨rfl, rfl⟩ | ⟨_, hold⟩
    · have hheight := ha.height_le hblock
      change q.height + 1 ≤ a.size
      omega
    · exact ha.height_le hold
  · exact indexed_push ha hq.fresh
  · intro i b hb
    exact best_push ha _ hb

theorem lookup?_push (ha : a.Consistent) (b : Block) (hash : BlockHash) :
    (a.push b).lookup? hash = if b.hash = hash then some b else a.lookup? hash := by
  rw [lookup?, byHash_push]
  split
  · exact block?_push_self a b
  · cases hi : a.byHash[hash]? with
    | none => simp only [lookup?, hi, Option.bind_none]
    | some i =>
      obtain ⟨c, hc, _⟩ := (ha.indexed hash i).mp hi
      simp only [lookup?, hi, Option.bind_some, hc]
      exact within_push a b hc

/-- The second arena comes from the first by storing headers. -/
inductive Grows (a : Arena) : Arena → Prop
  | refl : Grows a a
  | store {b : Arena} {header : Header} {q : Block} :
      Grows a b → b.Admits header q → Grows a (b.push (b.child q header))

namespace Grows

variable {b c : Arena}

theorem trans (hab : a.Grows b) (hbc : b.Grows c) : a.Grows c := by
  induction hbc with
  | refl => exact hab
  | store _ hq ih => exact .store ih hq

theorem consistent (hab : a.Grows b) (ha : a.Consistent) : b.Consistent := by
  induction hab with
  | refl => exact ha
  | store _ hq ih => exact consistent_push ih hq

theorem within (hab : a.Grows b) : a.history.Within b.history := by
  induction hab with
  | refl => exact fun _ _ hc => hc
  | store _ _ ih => exact fun _ _ hc => within_push _ _ (ih hc)

theorem lookup? (hab : a.Grows b) (ha : a.Consistent) {hash : BlockHash} {d : Block}
    (hd : a.lookup? hash = some d) : b.lookup? hash = some d := by
  obtain ⟨hblock, hhash⟩ := ha.lookup?_eq_some_iff.mp hd
  exact (hab.consistent ha).lookup?_eq_some_iff.mpr ⟨hab.within hblock, hhash⟩

end Grows

theorem grows_attempt (a : Arena) (header : Header) : a.Grows (a.attempt header).2 := by
  rcases attempt_cases a header with ⟨_, h⟩ | ⟨q, hq, h⟩
  · rw [h]
    exact .refl
  · rw [h]
    exact .store .refl hq

theorem grows_insertAll (a : Arena) (headers : List Header) : a.Grows (a.insertAll headers) := by
  induction headers generalizing a with
  | nil => exact .refl
  | cons header headers ih => exact (grows_attempt a header).trans (ih _)

/-- What could be stored still can be, once another header is. -/
theorem Admits.push {other : Header} {r : Block} (hq : a.Admits header q) (ha : a.Consistent)
    (hr : a.Admits other r) (hne : header.hash ≠ other.hash) (hroom : a.size + 1 < 2 ^ 32) :
    (a.push (a.child q header)).Admits other r := by
  have hgrows : a.Grows (a.push (a.child q header)) := .store .refl hq
  refine ⟨?_, hgrows.lookup? ha hr.parent, ?_⟩
  · rw [byHash_push]
    exact (if_neg hne).trans hr.fresh
  · rw [size_push]
    exact hroom

/-- A header on the block that was just stored can be stored next. -/
theorem Admits.next {other : Header} (hq : a.Admits header q) (ha : a.Consistent)
    (hparent : other.parent = header.hash) (hfresh : a.lookup? other.hash = none)
    (hne : header.hash ≠ other.hash) (hroom : a.size + 1 < 2 ^ 32) :
    (a.push (a.child q header)).Admits other (a.child q header) := by
  refine ⟨(consistent_push ha hq).byHash_eq_none ?_, ?_, ?_⟩
  · rw [lookup?_push ha]
    exact (if_neg hne).trans hfresh
  · rw [lookup?_push ha, hparent]
    exact if_pos rfl
  · rw [size_push]
    exact hroom

theorem insertAll_cons (hq : a.Admits header q) (headers : List Header) :
    a.insertAll (header :: headers) = (a.push (a.child q header)).insertAll headers := by
  rw [insertAll, List.foldl_cons, attempt, insert_eq_ok_iff.mpr ⟨q, hq, rfl⟩]
  rfl

theorem Reachable.consistent (ha : a.Reachable) : a.Consistent := by
  obtain ⟨genesis, headers, rfl⟩ := ha
  exact (grows_insertAll _ headers).consistent (consistent_ofGenesis genesis)

/-- What an attempt to insert a header into `a` does, if it ends with `result` and `b`. -/
structure Attempted (a : Arena) (header : Header) (result : Except Error Nat) (b : Arena) :
    Prop where
  blocks_kept : ∀ i c, a.block? i = some c → b.block? i = some c
  lookups_kept : ∀ hash, (a.lookup? hash).isSome ∨ hash ≠ header.hash →
    b.lookup? hash = a.lookup? hash
  unchanged : ∀ cause, result = .error cause → b = a
  stored : ∀ id, result = .ok id → id = a.size ∧ b.size = a.size + 1 ∧
    ∃ q c, a.lookup? header.parent = some q ∧ q.hash = header.parent ∧ q.height + 1 < 2 ^ 32 ∧
      b.block? id = some c ∧ c.parent = some q.id ∧ c.hash = header.hash ∧
      c.time = header.time ∧ c.bits = header.bits

theorem attempted (ha : a.Consistent) (header : Header) :
    Attempted a header (a.attempt header).1 (a.attempt header).2 := by
  rcases attempt_cases a header with ⟨cause, h⟩ | ⟨q, hq, h⟩
  · rw [h]
    refine ⟨fun _ _ hc => hc, fun _ _ => rfl, fun _ _ => rfl, ?_⟩
    intro id hid
    cases hid
  · rw [h]
    obtain ⟨hblock, hhash⟩ := ha.lookup?_eq_some_iff.mp hq.parent
    refine ⟨fun _ _ hc => within_push a _ hc, ?_, ?_, ?_⟩
    · intro hash hcase
      have hne : (a.child q header).hash ≠ hash := by
        intro heq
        subst heq
        rcases hcase with hsome | hne
        · obtain ⟨i, hi⟩ := ha.lookup?_isSome_iff.mp hsome
          cases hq.fresh.symm.trans hi
        · exact hne rfl
      rw [lookup?_push ha, if_neg hne]
    · intro cause hcause
      cases hcause
    · intro id hid
      cases hid
      exact ⟨rfl, size_push a _, q, a.child q header, hq.parent, hhash,
        ha.height_add_one_lt hblock hq.room, block?_push_self a _, rfl, rfl, rfl, rfl⟩

/-- The entries, the index and the links between blocks fit together after every run of
insertions, and the next attempt, whatever its header, keeps all that is there. -/
theorem insertAll_invariant (genesis : Header) (headers : List Header) :
    let a := (ofGenesis genesis).insertAll headers
    a.size ≤ 2 ^ 32 ∧ a.block? 0 = some (firstBlock genesis) ∧
    (∀ i b, a.block? i = some b →
      b.id = i ∧ b.height ≤ i ∧ (a.size < 2 ^ 32 → b.height + 1 < 2 ^ 32) ∧
      (b.parent = none ↔ i = 0) ∧
      (i = 0 → b.height = 0) ∧
      (i ≠ 0 → ∃ q, a.block? q.id = some q ∧ b.parent = some q.id ∧ q.id < i ∧
        b.height = q.height + 1 ∧
        b.work.toNat = (q.work.toNat + b.bits.work.toNat) % 2 ^ 256)) ∧
    (∀ i j b c, a.block? i = some b → a.block? j = some c → b.hash = c.hash → i = j) ∧
    (∀ hash i, a.byHash[hash]? = some i ↔ ∃ b, a.block? i = some b ∧ b.hash = hash) ∧
    (∀ hash b, a.lookup? hash = some b ↔ a.block? b.id = some b ∧ b.hash = hash) ∧
    ∀ header, Attempted a header (a.attempt header).1 (a.attempt header).2 := by
  intro a
  have hgrows : (ofGenesis genesis).Grows a := grows_insertAll _ headers
  have ha : a.Consistent := hgrows.consistent (consistent_ofGenesis genesis)
  refine ⟨ha.size_le, hgrows.within rfl, ?_, ?_, ha.indexed, ?_, ?_⟩
  · intro i b hb
    refine ⟨ha.numbered hb, ha.height_le hb, ha.height_add_one_lt hb, ?_, ?_, ?_⟩
    · constructor
      · intro hnone
        by_cases hi : i = 0
        · exact hi
        · obtain ⟨q, _, _, hq, _⟩ := ha.linked hb hi
          cases hnone.symm.trans hq
      · intro hi
        subst hi
        exact (ha.first hb).1
    · intro hi
      subst hi
      exact (ha.first hb).2
    · intro hi
      obtain ⟨q, hlt, hq, hparent, hheight, hwork⟩ := ha.linked hb hi
      exact ⟨q, hq, hparent, hlt, hheight, by rw [hwork, BitVec.toNat_add]⟩
  · exact fun i j b c hb hc => ha.hash_injective hb hc
  · exact fun hash b => ha.lookup?_eq_some_iff
  · exact attempted ha

end Arena
end SignedChain
