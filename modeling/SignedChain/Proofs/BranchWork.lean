import SignedChain.Proofs.AcceptedBlocks
import SignedChain.Proofs.BlockWork
import SignedChain.Proofs.ForkChoice
import SignedChain.Proofs.RequiredBits

/-!
# Work along a branch

The work of a stored block is the sum of the works along its branch, modulo `2 ^ 256`
(`Rooted.work_eq`). The sum is exact as long as it fits a word, and then a block with
work of its own has more than each of its ancestors and hides the tip from none of them.

Accepted blocks have work of their own, and sums of it fit, because the hash met a target
that the bits declare. A reset takes the place of the declared target in this comparison,
though, so a block under a reset can declare any target at all: zero, which is worth no
work, or one so low that two such blocks make the sum wrap.
-/
namespace SignedChain

/-- The work of a list of blocks, as a number without a bound. -/
def totalWork : List Block → Nat
  | [] => 0
  | b :: bs => b.bits.work.toNat + totalWork bs

/-- A target that an accepted block is known to have declared at least: its hash, or the
target itself where a reset took its place in the comparison. -/
def Params.assured (p : Params) (b : Block) : Target :=
  match p.epochs.override? b.time b.bits.value with
  | none => b.hash.toTarget
  | some _ => b.bits.value

namespace Arena

/-- The first block has its own work and no other. -/
structure Rooted (a : Arena) : Prop extends Consistent a where
  root_work : ∀ ⦃f⦄, a.block? 0 = some f → f.work = f.bits.work

variable {p : Params} {a : Arena} {i : Nat} {b x : Block} {bs : List Block}

theorem Grows.rooted {genesis : Header} (h : (ofGenesis genesis).Grows a) : a.Rooted := by
  refine ⟨h.consistent (consistent_ofGenesis genesis), ?_⟩
  intro f hf
  have hfirst : a.block? 0 = some (firstBlock genesis) := h.within rfl
  cases hf.symm.trans hfirst
  rfl

namespace Rooted

/-- A stored block without a parent is the first one. -/
theorem work_of_first (ha : a.Rooted) (hb : a.block? i = some b) (hp : b.parent = none) :
    b.work = b.bits.work := by
  by_cases hi : i = 0
  · subst hi
    exact ha.root_work hb
  · obtain ⟨_, _, _, hparent, _⟩ := ha.linked hb hi
    cases hp.symm.trans hparent

theorem work_eq (ha : a.Rooted) (hb : a.block? i = some b) (hbs : Ancestry a.history b bs) :
    b.work.toNat = totalWork (b :: bs) % 2 ^ 256 := by
  induction hbs generalizing i with
  | first hp =>
    rw [ha.work_of_first hb hp, totalWork, totalWork, Nat.add_zero]
    exact (Nat.mod_eq_of_lt (BitVec.isLt _)).symm
  | next hq _ ih =>
    obtain ⟨hstored, _, _, hwork⟩ := ha.of_parent? hb hq
    rw [hwork, BitVec.toNat_add, ih hstored, Nat.mod_add_mod, Nat.add_comm]
    rfl

/-- An ancestor has no more work than the branch below the block is worth. -/
theorem work_le_of_mem (ha : a.Rooted) (hb : a.block? i = some b)
    (hbs : Ancestry a.history b bs) (hx : x ∈ bs) : x.work.toNat ≤ totalWork bs := by
  induction hbs generalizing i with
  | first _ => cases hx
  | next hq hqs ih =>
    obtain ⟨hstored, _⟩ := ha.of_parent? hb hq
    rcases List.mem_cons.mp hx with rfl | hx
    · rw [ha.work_eq hstored hqs]
      exact Nat.mod_le _ _
    · exact Nat.le_trans (ih hstored hx) (Nat.le_add_left _ _)

/-- As long as the work of the branch fits, a block with work of its own has more work than
every ancestor, so none of these is the tip. -/
theorem tip_not_mem (ha : a.Rooted) (hb : a.block? i = some b)
    (hbs : Ancestry a.history b bs) (hfits : totalWork (b :: bs) < 2 ^ 256)
    (hown : 0 < b.bits.work.toNat) : a.tip ∉ bs := by
  intro htip
  have hle : a.tip.work.toNat ≤ totalWork bs := ha.work_le_of_mem hb hbs htip
  have hwork : b.work.toNat = totalWork (b :: bs) := by
    rw [ha.work_eq hb hbs, Nat.mod_eq_of_lt hfits]
  have hbest : b.work.toNat ≤ a.tip.work.toNat := ha.toConsistent.firstBest_tip.most hb
  rw [hwork, totalWork] at hbest
  omega

end Rooted

/-- The least target a branch can have declared bounds what it is worth. A branch has fewer
than `2 ^ 32` blocks after the first, and no block is worth more than `2 ^ 255`. -/
theorem totalWork_le {h : History} (hbs : Ancestry h b bs)
    (hlow : ∀ x ∈ b :: bs, x.parent ≠ none → 2 ^ 33 ≤ x.bits.value.toNat) :
    totalWork (b :: bs) ≤ 2 ^ 255 + bs.length * 2 ^ 223 := by
  induction hbs with
  | first _ => exact Compact.work_le _
  | @next b q qs hq _ ih =>
    have hrest := ih fun x hx => hlow x (List.mem_cons_of_mem b hx)
    have hown := Compact.work_lt (hlow b List.mem_cons_self (History.parent_ne_none hq))
    simp only [totalWork, List.length_cons] at hrest ⊢
    omega

theorem totalWork_lt (ha : a.Consistent) (hb : a.block? i = some b)
    (hbs : Ancestry a.history b bs)
    (hlow : ∀ x ∈ b :: bs, x.parent ≠ none → 2 ^ 33 ≤ x.bits.value.toNat) :
    totalWork (b :: bs) < 2 ^ 256 := by
  have htotal := totalWork_le hbs hlow
  have hlength := hbs.length_le ha.descending
  have hnumber : b.maxAncestors ≤ i := ha.descending.maxAncestors_le hb
  have hsize := lt_size_of_block? hb
  have hroom := ha.size_le
  omega

/-- The hash of an accepted block met a target. -/
theorem meetsTarget_of_offerAll {genesis : Header} {submissions : List Submission}
    (hb : ((ofGenesis genesis).offerAll p submissions).block? i = some b)
    (hp : b.parent ≠ none) : meetsTarget b.hash b.bits p b.time = true := by
  have hgenesis := consistent_ofGenesis genesis
  rcases settled_of_offerAll hgenesis hb with hold | ⟨s, _, q, hsettled⟩
  · obtain ⟨-, rfl⟩ := block?_ofGenesis hold
    exact absurd rfl hp
  · rw [hsettled.stored]
    exact hsettled.meets

theorem assured_le (hmeets : meetsTarget b.hash b.bits p b.time = true) :
    p.assured b ≤ b.bits.value := by
  unfold Params.assured
  split
  next hordinary => exact (usable_of_meetsTarget hmeets hordinary).2
  next => exact Nat.le_refl _

/-- What an accepted block `b` on `q`, with the ancestors `bs`, adds to its branch. -/
structure Credited (p : Params) (a : Arena) (q b : Block) (bs : List Block) : Prop where
  parent : a.history.parent? b = some q
  branch : Ancestry a.history b bs
  sum : b.work.toNat = (q.work.toNat + b.bits.work.toNat) % 2 ^ 256
  worthless : b.bits.work.toNat = 0 →
    (p.epochs.override? b.time b.bits.value).isSome ∧ b.bits.value.toNat = 0
  unwrapped : totalWork (b :: bs) < 2 ^ 256 →
    b.work.toNat = q.work.toNat + b.bits.work.toNat
  more : totalWork (b :: bs) < 2 ^ 256 → 0 < b.bits.work.toNat →
    q.work.toNat < b.work.toNat ∧ a.tip ∉ bs
  fits : (∀ x ∈ b :: bs, x.parent ≠ none → 2 ^ 33 ≤ (p.assured x).toNat) →
    totalWork (b :: bs) < 2 ^ 256 ∧ 0 < b.bits.work.toNat

/-- Every accepted block adds its own work to that of its parent, without wrapping and more
than nothing as long as no block of the branch is assured to be worth too much. -/
theorem offerAll_credited (p : Params) (genesis : Header) (submissions : List Submission)
    {b : Block} (hid : b.id ≠ 0)
    (hb : ((ofGenesis genesis).offerAll p submissions).block? b.id = some b) :
    ∃ q bs, Credited p ((ofGenesis genesis).offerAll p submissions) q b bs := by
  have ha := (grows_offerAll (consistent_ofGenesis genesis) p submissions).rooted
  obtain ⟨q, hq, _, _, _, hwork⟩ := ha.parent?_eq hb hid
  obtain ⟨bs, hbs⟩ := ha.exists_ancestry hb
  have hmeets := meetsTarget_of_offerAll hb (History.parent_ne_none hq)
  have hsum : b.work.toNat = (q.work.toNat + b.bits.work.toNat) % 2 ^ 256 := by
    rw [hwork, BitVec.toNat_add]
  have hunwrapped : totalWork (b :: bs) < 2 ^ 256 →
      b.work.toNat = q.work.toNat + b.bits.work.toNat := by
    intro hfits
    have hle : q.work.toNat ≤ totalWork bs := ha.work_le_of_mem hb hbs (hbs.parent_mem hq)
    rw [totalWork] at hfits
    rw [hsum, Nat.mod_eq_of_lt (by omega)]
  refine ⟨q, bs, hq, hbs, hsum, worthless_of_meetsTarget hmeets, hunwrapped, ?_, ?_⟩
  · intro hfits hown
    have hadd := hunwrapped hfits
    exact ⟨by omega, ha.tip_not_mem hb hbs hfits hown⟩
  · intro hassured
    have hlow : ∀ x ∈ b :: bs, x.parent ≠ none → 2 ^ 33 ≤ x.bits.value.toNat := by
      intro x hx hp
      obtain ⟨j, hj⟩ := hbs.stored hb hx
      exact Nat.le_trans (hassured x hx hp) (assured_le (meetsTarget_of_offerAll hj hp))
    have hown := hlow b List.mem_cons_self (History.parent_ne_none hq)
    exact ⟨totalWork_lt ha.toConsistent hb hbs hlow, work_pos_of_meetsTarget hmeets (by omega)⟩

open Fork in
/-- The late block is under no reset and its hash is large, so it adds its work. -/
theorem late_adds_work :
    lateBlock.id ≠ 0 ∧
    ((ofGenesis first).offerAll rules [⟨late, ""⟩]).block? lateBlock.id = some lateBlock ∧
    lateBlock.work.toNat = (firstBlock first).work.toNat + lateBlock.bits.work.toNat ∧
    (firstBlock first).work.toNat < lateBlock.work.toNat ∧
    ((ofGenesis first).offerAll rules [⟨late, ""⟩]).tip ≠ firstBlock first := by
  have hrun : (ofGenesis first).offerAll rules [⟨late, ""⟩] = withLate := by
    rw [offerAll, List.foldl_cons, List.foldl_nil, offer_late]
  have hid : lateBlock.id ≠ 0 := by decide
  have hb : ((ofGenesis first).offerAll rules [⟨late, ""⟩]).block? lateBlock.id =
      some lateBlock := by
    rw [hrun]
    exact block?_withLate
  have hparent : withLate.history.parent? lateBlock = some (firstBlock first) := by
    rw [withLate_eq]
    rfl
  obtain ⟨q, bs, h⟩ := offerAll_credited rules first [⟨late, ""⟩] hid hb
  rw [hrun] at h ⊢
  cases hparent.symm.trans h.parent
  have hbs : bs = [firstBlock first] := h.branch.unique (.next hparent (.first rfl))
  obtain ⟨hfits, hown⟩ := h.fits (by
    intro x hx hp
    rw [hbs] at hx
    rcases List.mem_cons.mp hx with rfl | hx
    · change 2 ^ 33 ≤ late.hash.toTarget.toNat
      rw [hash_late]
      decide
    · cases List.mem_singleton.mp hx
      exact absurd rfl hp)
  obtain ⟨hmore, htip⟩ := h.more hfits hown
  refine ⟨hid, block?_withLate, h.unwrapped hfits, hmore, ?_⟩
  intro heq
  rw [hbs] at htip
  exact htip (List.mem_singleton.mpr heq)

namespace Fork

/-- The rules of a preset with standard epochs, without signatures. -/
def resetRules : Params := { Params.preset .regtest with signatureHeight := 1000000 }

/-- A header in the legacy epoch and the reset window that declares the target one. -/
def dear : Header := ⟨1, firstHash, Bytes.zero 32, 1525000000, ⟨0x03000001⟩, 0⟩

def dearHash : BlockHash :=
  ⟨Bytes.ofNat 32 50803040723524447356660878747788075276384224728893355694618768976342390296025⟩

def dearer : Header := ⟨1, dearHash, Bytes.zero 32, 1525000150, ⟨0x03000001⟩, 0⟩

def dearerHash : BlockHash :=
  ⟨Bytes.ofNat 32 108405189256763754781318496257062654991770782613346490536717628624728802923597⟩

/-- One that declares the target zero. -/
def free : Header := ⟨1, firstHash, Bytes.zero 32, 1525000000, ⟨0⟩, 0⟩

def freeHash : BlockHash :=
  ⟨Bytes.ofNat 32 39112760696490174754487147168183607231656504872268464083482152132528078423772⟩

theorem hash_dear : dear.hash = dearHash := by decide +kernel

theorem hash_dearer : dearer.hash = dearerHash := by decide +kernel

theorem hash_free : free.hash = freeHash := by decide +kernel

/-- The limit of the reset. -/
def resetLimit : Target := Target.ofNat ((2 ^ 24 - 1) * 2 ^ 232)

theorem entries_standard : EpochSchedule.standard.entries =
    [⟨0, .legacyAcceptance 1530084602⟩,
      ⟨1523543406, .targetReset 1555134300 ⟨0x1e0fffff⟩ resetLimit⟩] := by
  unfold EpochSchedule.standard EpochSchedule.ofList
  dsimp only
  rw [List.mergeSort_of_pairwise]
  · rfl
  · simp [EpochEntry.startsBefore]

/-- The standard reset applies in its window whatever the declared target. -/
theorem override?_in_window {time : UInt32} (hlow : 1523543406 < time) (hhigh : time < 1555134300)
    (target : Target) : resetRules.epochs.override? time target = some resetLimit := by
  change EpochSchedule.standard.entries.findSome? _ = some resetLimit
  simp [entries_standard, EpochEntry.override?, hlow, hhigh]

/-- Where the legacy epoch and the reset window overlap, any bits without fault pass. -/
theorem passes_in_overlap {a : Arena} {q : Block} {s : Submission} {hash : BlockHash}
    (hlow : 1523543406 < s.header.time) (hhigh : s.header.time ≤ 1530084602)
    (hvalid : s.header.bits.expand.valid = true) (hhash : s.header.hash = hash)
    (hmeets : hash.toTarget ≤ resetLimit) (hheight : q.height + 1 < 1000000) :
    a.Passes resetRules q s := by
  have hwindow : s.header.time < 1555134300 := UInt32.lt_of_le_of_lt hhigh (by decide)
  have hlegacy : resetRules.epochs.acceptsDeclaredBits s.header.time = true := by
    change EpochSchedule.standard.entries.any _ = true
    simp [entries_standard, EpochEntry.acceptsDeclaredBits, hhigh]
  have hreset := override?_in_window hlow hwindow
  constructor
  · exact Difficulty.required_eq_ok_iff.mpr (.declared hlegacy)
  · rw [hhash]
    exact (meetsTarget_iff_of_some (hreset _)).mpr ⟨hvalid, by decide, hmeets⟩
  · have hunsigned : resetRules.requiresSignature (q.height + 1) = false := by
      change decide (1000000 ≤ q.height + 1) = false
      exact decide_eq_false (Nat.not_le_of_lt hheight)
    rw [Params.authorizes, hunsigned]
    rfl

def dearBlock : Block := (ofGenesis first).child (firstBlock first) dear

/-- The arena with the first block and one of the target one. -/
def withDear : Arena := (ofGenesis first).push dearBlock

theorem admits_dear : (ofGenesis first).Admits dear (firstBlock first) :=
  admits_on_first rfl (by rw [hash_dear]; decide)

theorem consistent_withDear : withDear.Consistent :=
  consistent_push (consistent_ofGenesis first) admits_dear

theorem offer_dear : ((ofGenesis first).offer resetRules ⟨dear, ""⟩).2 = withDear := by
  rw [offer_of_passes (consistent_ofGenesis first) admits_dear]
  · rfl
  · exact passes_in_overlap (by decide) (by decide) (by decide) hash_dear
      (by decide) (by decide)

theorem admits_dearer : withDear.Admits dearer dearBlock := by
  have hne : dear.hash ≠ dearer.hash := by
    rw [hash_dear, hash_dearer]
    decide
  have hfresh : (ofGenesis first).lookup? dearer.hash = none := by
    rw [lookup?_ofGenesis, hash_first, hash_dearer]
    decide
  exact admits_dear.next (consistent_ofGenesis first) hash_dear.symm hfresh hne (by decide)

def dearerBlock : Block := withDear.child dearBlock dearer

/-- The run that accepts both. -/
def withDearer : Arena := (ofGenesis first).offerAll resetRules [⟨dear, ""⟩, ⟨dearer, ""⟩]

theorem withDearer_eq : withDearer = withDear.push dearerBlock := by
  rw [withDearer, offerAll_cons, offerAll_cons, offerAll_nil, offer_dear,
    offer_of_passes consistent_withDear admits_dearer]
  · rfl
  · exact passes_in_overlap (by decide) (by decide) (by decide) hash_dearer
      (by decide) (by decide)

def freeBlock : Block := (ofGenesis first).child (firstBlock first) free

/-- The run that accepts the free one. -/
def withFree : Arena := (ofGenesis first).offerAll resetRules [⟨free, ""⟩]

theorem withFree_eq : withFree = (ofGenesis first).push freeBlock := by
  have hadmits : (ofGenesis first).Admits free (firstBlock first) :=
    admits_on_first rfl (by rw [hash_free]; decide)
  rw [withFree, offerAll_cons, offerAll_nil,
    offer_of_passes (consistent_ofGenesis first) hadmits]
  · rfl
  · exact passes_in_overlap (by decide) (by decide) (by decide) hash_free
      (by decide) (by decide)

end Fork

open Fork in
/-- Under a reset a block can be worth nothing, or so much that its work wraps. In both runs
the tip is the parent of another block. -/
theorem reset_adds_no_work :
    resetRules.validate = .ok () ∧
    withFree.block? 1 = some freeBlock ∧
    withFree.history.parent? freeBlock = some (firstBlock first) ∧
    freeBlock.work = (firstBlock first).work ∧ withFree.tip = firstBlock first ∧
    withDearer.block? 2 = some dearerBlock ∧
    withDearer.history.parent? dearerBlock = some dearBlock ∧
    dearerBlock.work.toNat + 2 ^ 256 = dearBlock.work.toNat + dearerBlock.bits.work.toNat ∧
    dearerBlock.work.toNat < dearBlock.work.toNat ∧ withDearer.tip = dearBlock := by
  have htip_free : ((ofGenesis first).push freeBlock).tip = firstBlock first := by
    rw [tip_push]
    exact if_neg (by decide)
  have htip_dear : withDear.tip = dearBlock := by
    rw [withDear, tip_push]
    exact if_pos (by decide)
  have htip_dearer : (withDear.push dearerBlock).tip = dearBlock := by
    rw [tip_push, htip_dear]
    exact if_neg (by decide)
  rw [withFree_eq, withDearer_eq]
  refine ⟨rfl, rfl, rfl, ?_, htip_free, rfl, rfl, ?_, ?_, htip_dearer⟩
  · decide
  · decide
  · decide

end Arena
end SignedChain
