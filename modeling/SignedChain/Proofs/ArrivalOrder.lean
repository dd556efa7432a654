import SignedChain.Proofs.AcceptedBlocks

/-!
# Acceptance does not depend on the order of arrival

If a list of submissions is accepted as a whole, it is accepted as a whole in every
order in which no header stands before its own parent, and the arena then has the same
record under every hash. Only the numbers of the blocks differ, and with them which of
several blocks with equal work is the tip.

The proof replays the new order and compares each arena on the way with the last one
of the old order, which it `Mirrors`: the replay knows fewer blocks, but of each the
same work and the same branch, and verdicts read nothing else.
-/
namespace SignedChain

/-- What an arena says of a block, without numbers. -/
structure Record where
  parent : Option BlockHash
  height : Nat
  time : UInt32
  bits : Compact
  work : Work
deriving DecidableEq

namespace Arena

/-- Each submission is accepted, the later ones after the earlier ones are stored. -/
def AllAccepted (p : Params) : Arena → List Submission → Prop
  | _, [] => True
  | a, s :: rest => (∃ id, (a.offer p s).1 = .ok id) ∧ AllAccepted p (a.offer p s).2 rest

/-- No header stands before its own parent. -/
def ParentsFirst (submissions : List Submission) : Prop :=
  submissions.Pairwise fun s later => later.header.hash ≠ s.header.parent

def record (a : Arena) (b : Block) : Record :=
  ⟨(a.history.parent? b).map (·.hash), b.height, b.time, b.bits, b.work⟩

/-- The record of the stored block with a hash. -/
def record? (a : Arena) (hash : BlockHash) : Option Record := (a.lookup? hash).map a.record

variable {p : Params} {a b : Arena} {s : Submission} {q : Block}

section AcceptedRun

/-- Accepting a list is storing its first header and accepting the rest. -/
theorem AllAccepted.cons {rest : List Submission} (ha : a.Consistent)
    (h : AllAccepted p a (s :: rest)) :
    ∃ q, a.Admits s.header q ∧ a.Passes p q s ∧
      (a.offer p s).2 = a.push (a.child q s.header) ∧
      AllAccepted p (a.push (a.child q s.header)) rest := by
  obtain ⟨⟨id, hid⟩, hrest⟩ := h
  rcases offer_cases ha p s with ⟨_, hs⟩ | ⟨q, hq, hpass, hs⟩
  · rw [hs] at hid
    cases hid
  · rw [hs] at hrest
    exact ⟨q, hq, hpass, by rw [hs], hrest⟩

variable {submissions : List Submission}

theorem AllAccepted.settled (ha : a.Consistent) (h : AllAccepted p a submissions)
    (hs : s ∈ submissions) : ∃ q b, (a.offerAll p submissions).Settled p s q b := by
  induction submissions generalizing a with
  | nil => cases hs
  | cons t rest ih =>
    obtain ⟨q, hq, hpass, hstep, hrest⟩ := h.cons ha
    have hb := consistent_push ha hq
    rw [offerAll_cons, hstep]
    rcases List.mem_cons.mp hs with rfl | hs
    · exact ⟨q, _, (settled_push ha hq hpass).grow hb (grows_offerAll hb p rest)⟩
    · exact ih hb hrest hs

theorem AllAccepted.size (ha : a.Consistent) (h : AllAccepted p a submissions) :
    (a.offerAll p submissions).size = a.size + submissions.length := by
  induction submissions generalizing a with
  | nil => rfl
  | cons s rest ih =>
    obtain ⟨q, hq, _, hstep, hrest⟩ := h.cons ha
    have hsize := ih (consistent_push ha hq) hrest
    rw [offerAll_cons, hstep]
    rw [size_push] at hsize
    rw [List.length_cons, ← Nat.add_assoc, Nat.add_right_comm]
    exact hsize

/-- The run stores the hashes of its headers and no others. -/
theorem AllAccepted.lookup?_isSome_iff (ha : a.Consistent) (h : AllAccepted p a submissions)
    (hash : BlockHash) : ((a.offerAll p submissions).lookup? hash).isSome ↔
      (a.lookup? hash).isSome ∨ ∃ s ∈ submissions, s.header.hash = hash := by
  induction submissions generalizing a with
  | nil => simp [offerAll]
  | cons s rest ih =>
    obtain ⟨q, hq, _, hstep, hrest⟩ := h.cons ha
    have hmore := ih (consistent_push ha hq) hrest
    rw [offerAll_cons, hstep]
    rw [lookup?_push ha] at hmore
    refine hmore.trans ?_
    by_cases hs : s.header.hash = hash
    · simp [child, hs]
    · simp [child, hs]

/-- No two headers of the run have one hash, and none has that of an earlier block. -/
theorem AllAccepted.fresh (ha : a.Consistent) (h : AllAccepted p a submissions) :
    (submissions.map (·.header.hash)).Nodup ∧
      ∀ s ∈ submissions, a.lookup? s.header.hash = none := by
  induction submissions generalizing a with
  | nil => simp
  | cons s rest ih =>
    obtain ⟨q, hq, _, _, hrest⟩ := h.cons ha
    obtain ⟨hnodup, hnew⟩ := ih (consistent_push ha hq) hrest
    have hsplit : ∀ t ∈ rest, s.header.hash ≠ t.header.hash ∧ a.lookup? t.header.hash = none := by
      intro t ht
      have hlookup := hnew t ht
      rw [lookup?_push ha] at hlookup
      split at hlookup
      next => cases hlookup
      next hne => exact ⟨hne, hlookup⟩
    constructor
    · rw [List.map_cons, List.nodup_cons]
      refine ⟨?_, hnodup⟩
      intro hmem
      obtain ⟨t, ht, heq⟩ := List.mem_map.mp hmem
      exact (hsplit t ht).1 heq.symm
    · intro t ht
      rcases List.mem_cons.mp ht with rfl | ht
      · rw [lookup?, hq.fresh, Option.bind_none]
      · exact (hsplit t ht).2

end AcceptedRun

/-- The second arena has every block of the first, with the same work and branch. -/
def Mirrors (b a : Arena) : Prop :=
  ∀ ⦃hash x⦄, b.lookup? hash = some x → ∃ y, a.lookup? hash = some y ∧ x.work = y.work ∧
    SameBranch b.history x a.history y

theorem Mirrors.of_grows (ha : a.Consistent) (hab : a.Grows b) : a.Mirrors b := by
  intro hash x hx
  obtain ⟨xs, hxs⟩ := ha.exists_ancestry (ha.lookup?_eq_some_iff.mp hx).1
  exact ⟨x, hab.lookup? ha hx, rfl, (SameBranch.refl hxs).mono (fun _ _ hc => hc) hab.within⟩

theorem Settled.parent? {c : Block} (ha : a.Consistent) (h : a.Settled p s q c) :
    a.history.parent? c = some q := by
  refine History.parent?_eq_some_iff.mpr ⟨q.id, ?_, (ha.lookup?_eq_some_iff.mp h.parent_found).1⟩
  rw [h.stored]

/-- A header on a mirrored parent passes where it passes in the mirroring arena. -/
theorem Mirrors.passes {r c : Block} (hb : b.Consistent) (ha : a.Consistent)
    (hm : b.Mirrors a) (hr : b.lookup? s.header.parent = some r) (h : a.Settled p s q c) :
    b.Passes p r s ∧ r.work = q.work ∧ SameBranch b.history r a.history q := by
  obtain ⟨y, hy, hwork, hs⟩ := hm hr
  obtain rfl : y = q := Option.some.inj (hy.symm.trans h.parent_found)
  have hheight : r.height = y.height := (Block.facts_eq_iff.mp hs.facts_eq).2.1
  refine ⟨⟨?_, h.meets, ?_⟩, hwork, hs⟩
  · rw [hs.required_eq hb.descending ha.descending]
    exact h.required
  · rw [hheight]
    exact h.authorized

theorem Mirrors.push {r c : Block} (hb : b.Consistent) (ha : a.Consistent) (hm : b.Mirrors a)
    (hadmits : b.Admits s.header r) (h : a.Settled p s q c) :
    (b.push (b.child r s.header)).Mirrors a := by
  have hpush := consistent_push hb hadmits
  have hwithin := within_push b (b.child r s.header)
  intro hash x hx
  rw [lookup?_push hb] at hx
  split at hx
  next heq =>
    obtain rfl := Option.some.inj hx
    subst heq
    obtain ⟨_, hwork, hs⟩ := hm.passes hb ha hadmits.parent h
    have hheight : r.height = q.height := (Block.facts_eq_iff.mp hs.facts_eq).2.1
    have hparent : (b.push (b.child r s.header)).history.parent? (b.child r s.header) = some r :=
      History.parent?_eq_some_iff.mpr
        ⟨r.id, rfl, hwithin (hb.lookup?_eq_some_iff.mp hadmits.parent).1⟩
    refine ⟨c, h.found, ?_, (hs.mono hwithin (fun _ _ hc => hc)).next hparent (h.parent? ha) ?_⟩
    · rw [h.stored]
      exact congrArg (· + s.header.bits.work) hwork
    · rw [h.stored]
      simp only [Block.facts, child, hheight]
  next =>
    obtain ⟨y, hy, hwork, hs⟩ := hm hx
    exact ⟨y, hy, hwork, hs.mono hwithin (fun _ _ hc => hc)⟩

/-- No header is its own parent. -/
theorem Settled.parent_ne {c : Block} (h : a.Settled p s q c) :
    s.header.hash ≠ s.header.parent := by
  intro heq
  have hfound := h.found
  rw [heq, h.parent_found] at hfound
  have hheight : c.height = q.height + 1 := by rw [h.stored]
  rw [Option.some.inj hfound] at hheight
  omega

/-- `rest` is left to be offered to `b` of the submissions that are settled in `a`. -/
structure Pending (p : Params) (a b : Arena) (rest : List Submission) : Prop where
  mirrors : b.Mirrors a
  settled : ∀ s ∈ rest, ∃ q c, a.Settled p s q c
  parent : ∀ s ∈ rest, (b.lookup? s.header.parent).isSome ∨
    ∃ t ∈ rest, t.header.hash = s.header.parent
  order : ParentsFirst rest
  nodup : (rest.map (·.header.hash)).Nodup
  fresh : ∀ s ∈ rest, b.lookup? s.header.hash = none
  room : b.size + rest.length ≤ 2 ^ 32

namespace Pending

variable {rest : List Submission}

/-- The next header can be stored: its parent is not itself and does not come later. -/
theorem admits (hb : b.Consistent) (h : Pending p a b (s :: rest)) :
    ∃ r, b.Admits s.header r := by
  have hstored : (b.lookup? s.header.parent).isSome := by
    obtain ⟨q, c, hs⟩ := h.settled s List.mem_cons_self
    rcases h.parent s List.mem_cons_self with hparent | ⟨t, ht, heq⟩
    · exact hparent
    · rcases List.mem_cons.mp ht with rfl | ht
      · exact absurd heq hs.parent_ne
      · exact absurd heq ((List.pairwise_cons.mp h.order).1 t ht)
  obtain ⟨r, hr⟩ := Option.isSome_iff_exists.mp hstored
  have hroom := h.room
  rw [List.length_cons] at hroom
  exact ⟨r, hb.byHash_eq_none (h.fresh s List.mem_cons_self), hr, by omega⟩

theorem tail {r : Block} (ha : a.Consistent) (hb : b.Consistent)
    (h : Pending p a b (s :: rest)) (hr : b.Admits s.header r) :
    Pending p a (b.push (b.child r s.header)) rest := by
  obtain ⟨q, c, hs⟩ := h.settled s List.mem_cons_self
  have hnodup := h.nodup
  rw [List.map_cons, List.nodup_cons] at hnodup
  constructor
  · exact h.mirrors.push hb ha hr hs
  · exact fun t ht => h.settled t (List.mem_cons_of_mem s ht)
  · intro t ht
    rw [lookup?_push hb]
    by_cases heq : s.header.hash = t.header.parent
    · left
      simp [child, heq]
    · rcases h.parent t (List.mem_cons_of_mem s ht) with hstored | ⟨u, hu, hhash⟩
      · left
        simpa [child, heq] using hstored
      · rcases List.mem_cons.mp hu with rfl | hu
        · exact absurd hhash heq
        · exact .inr ⟨u, hu, hhash⟩
  · exact (List.pairwise_cons.mp h.order).2
  · exact hnodup.2
  · intro t ht
    have hne : (b.child r s.header).hash ≠ t.header.hash := by
      intro heq
      exact hnodup.1 (List.mem_map.mpr ⟨t, ht, heq.symm⟩)
    rw [lookup?_push hb, if_neg hne]
    exact h.fresh t (List.mem_cons_of_mem s ht)
  · have hroom := h.room
    rw [List.length_cons] at hroom
    rw [size_push]
    omega

theorem replay (ha : a.Consistent) (hb : b.Consistent) (h : Pending p a b rest) :
    AllAccepted p b rest ∧ (b.offerAll p rest).Mirrors a := by
  induction rest generalizing b with
  | nil => exact ⟨trivial, h.mirrors⟩
  | cons s rest ih =>
    obtain ⟨r, hr⟩ := h.admits hb
    obtain ⟨q, c, hs⟩ := h.settled s List.mem_cons_self
    have hpass := (h.mirrors.passes hb ha hr.parent hs).1
    obtain ⟨haccepted, hmirrors⟩ := ih (consistent_push hb hr) (h.tail ha hb hr)
    rw [AllAccepted, offerAll_cons, offer_of_passes hb hr hpass]
    exact ⟨⟨⟨b.size, rfl⟩, haccepted⟩, hmirrors⟩

end Pending

/-- An accepted list is pending in every order with parents first. -/
theorem AllAccepted.pending {xs ys : List Submission} (ha : a.Consistent)
    (hxs : AllAccepted p a xs) (hperm : xs.Perm ys) (horder : ParentsFirst ys) :
    Pending p (a.offerAll p xs) a ys := by
  have hgrows := grows_offerAll ha p xs
  have hmem : ∀ s ∈ ys, s ∈ xs := fun s => hperm.mem_iff.mpr
  constructor
  · exact .of_grows ha hgrows
  · exact fun s hs => hxs.settled ha (hmem s hs)
  · intro s hs
    obtain ⟨q, c, hsettled⟩ := hxs.settled ha (hmem s hs)
    have hparent := Option.isSome_iff_exists.mpr ⟨q, hsettled.parent_found⟩
    rcases (hxs.lookup?_isSome_iff ha _).mp hparent with hstored | ⟨t, ht, heq⟩
    · exact .inl hstored
    · exact .inr ⟨t, hperm.mem_iff.mp ht, heq⟩
  · exact horder
  · exact (hperm.map _).nodup_iff.mp (hxs.fresh ha).1
  · exact fun s hs => (hxs.fresh ha).2 s (hmem s hs)
  · rw [← hperm.length_eq, ← hxs.size ha]
    exact (hgrows.consistent ha).size_le

theorem Mirrors.record?_eq (hm : b.Mirrors a) {hash : BlockHash}
    (hiff : (b.lookup? hash).isSome ↔ (a.lookup? hash).isSome) :
    b.record? hash = a.record? hash := by
  cases hx : b.lookup? hash with
  | none =>
    rw [hx] at hiff
    cases hy : a.lookup? hash with
    | none => simp only [record?, hx, hy, Option.map_none]
    | some y =>
      rw [hy] at hiff
      exact absurd (hiff.mpr rfl) (by simp)
  | some x =>
    obtain ⟨y, hy, hwork, hs⟩ := hm hx
    obtain ⟨_, hheight, htime, hbits⟩ := Block.facts_eq_iff.mp hs.facts_eq
    have hparent := congrArg (Option.map Block.Facts.hash) (hs.ancestor?_facts 1)
    simp only [History.ancestor?, Option.bind_fun_some, Option.map_map] at hparent
    simp only [record?, record, hx, hy, Option.map_some, hheight, htime, hbits, hwork,
      Option.some.injEq, Record.mk.injEq, and_true]
    exact hparent

theorem tip_work_le (ha : a.Consistent) (hb : b.Consistent)
    (hrecords : ∀ hash, a.record? hash = b.record? hash) : a.tip.work ≤ b.tip.work := by
  have htip : a.lookup? a.tip.hash = some a.tip :=
    ha.lookup?_eq_some_iff.mpr ⟨(ha.numbered (block?_tipId a)).symm ▸ block?_tipId a, rfl⟩
  have hrecord := hrecords a.tip.hash
  rw [record?, htip, Option.map_some] at hrecord
  obtain ⟨y, hy, heq⟩ := Option.map_eq_some_iff.mp hrecord.symm
  have hwork : y.work = a.tip.work := congrArg Record.work heq
  rw [← hwork]
  exact (hb.best (hb.lookup?_eq_some_iff.mp hy).1).1

/-- A list that is accepted as a whole is accepted in every order with parents first, and
leaves the same records and a tip of the same work. -/
theorem offerAll_perm (p : Params) (genesis : Header) {xs ys : List Submission}
    (hxs : AllAccepted p (ofGenesis genesis) xs) (hperm : xs.Perm ys)
    (horder : ParentsFirst ys) :
    AllAccepted p (ofGenesis genesis) ys ∧
    let a := (ofGenesis genesis).offerAll p xs
    let b := (ofGenesis genesis).offerAll p ys
    b.size = a.size ∧ (∀ hash, b.record? hash = a.record? hash) ∧ b.tip.work = a.tip.work := by
  have hgenesis := consistent_ofGenesis genesis
  have ha := (grows_offerAll hgenesis p xs).consistent hgenesis
  obtain ⟨hys, hmirrors⟩ := (hxs.pending hgenesis hperm horder).replay ha hgenesis
  have hb := (grows_offerAll hgenesis p ys).consistent hgenesis
  have hrecords : ∀ hash, ((ofGenesis genesis).offerAll p ys).record? hash =
      ((ofGenesis genesis).offerAll p xs).record? hash := by
    intro hash
    refine hmirrors.record?_eq ?_
    rw [hys.lookup?_isSome_iff hgenesis, hxs.lookup?_isSome_iff hgenesis]
    simp only [hperm.mem_iff]
  refine ⟨hys, ?_, hrecords, ?_⟩
  · rw [hys.size hgenesis, hxs.size hgenesis, hperm.length_eq]
  · exact BitVec.le_antisymm (tip_work_le hb ha hrecords)
      (tip_work_le ha hb fun hash => (hrecords hash).symm)

open Fork in
/-- The two siblings of the fork are accepted in either order. -/
theorem prompt_before_late :
    AllAccepted rules (ofGenesis first) [⟨late, ""⟩, ⟨prompt, ""⟩] ∧
    AllAccepted rules (ofGenesis first) [⟨prompt, ""⟩, ⟨late, ""⟩] ∧
    ((ofGenesis first).offerAll rules [⟨prompt, ""⟩, ⟨late, ""⟩]).tip.work =
      ((ofGenesis first).offerAll rules [⟨late, ""⟩, ⟨prompt, ""⟩]).tip.work := by
  have hxs : AllAccepted rules (ofGenesis first) [⟨late, ""⟩, ⟨prompt, ""⟩] := by
    simp only [AllAccepted, offer_late, offer_prompt]
    exact ⟨⟨1, rfl⟩, ⟨2, rfl⟩, trivial⟩
  have horder : ParentsFirst [⟨prompt, ""⟩, ⟨late, ""⟩] := by
    simp only [ParentsFirst, List.pairwise_cons, List.mem_singleton, forall_eq, hash_late]
    exact ⟨by decide, by simp⟩
  obtain ⟨hys, _, _, htip⟩ := offerAll_perm rules first hxs (.swap _ _ _) horder
  exact ⟨hxs, hys, htip⟩

end Arena
end SignedChain
