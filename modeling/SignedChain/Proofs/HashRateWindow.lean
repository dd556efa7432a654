import SignedChain.Chain.HashRate
import SignedChain.Proofs.BranchWork
import SignedChain.Proofs.PeriodDifficulty

/-!
# The window of the hash rate

The hash rate is taken over a stretch of the branch: as many blocks as asked for, or those of
the retarget period, but never the first block of the chain. Work adds up along a branch, so
the difference of the work at the two ends is the work of the blocks between them, modulo
`2 ^ 256` (`work_stretch`). The times are those of one block more, the one before.
-/
namespace SignedChain

namespace HashRate

/-- The latest and the earliest time of the blocks are so many seconds apart. -/
def Spread (bs : List Block) (seconds : Nat) : Prop :=
  ∃ newest ∈ bs, ∃ oldest ∈ bs, (∀ b ∈ bs, oldest.time ≤ b.time ∧ b.time ≤ newest.time) ∧
    seconds = newest.time.toNat - oldest.time.toNat

/-- The number of blocks in the window that ends at a block of the given height. -/
def windowLength (p : Params) (lookup : Int) (height : Nat) : Nat :=
  min (if lookup ≤ 0 then height % p.period + 1 else lookup.toNat) height

/-- Folding with a choice between two times ends at the time of a block that is above all. -/
theorem exists_extreme (above : Nat → Nat → Prop) (pick : Nat → Nat → Nat)
    (hrefl : ∀ m, above m m) (htrans : ∀ {l m n}, above l m → above m n → above l n)
    (hpick : ∀ m n, above m n ∧ pick m n = m ∨ above n m ∧ pick m n = n)
    (b : Block) (bs : List Block) : ∃ e ∈ b :: bs,
      bs.foldl (fun t c => pick t c.time.toNat) b.time.toNat = e.time.toNat ∧
        ∀ c ∈ b :: bs, above e.time.toNat c.time.toNat := by
  induction bs generalizing b with
  | nil =>
    refine ⟨b, List.mem_singleton_self b, rfl, fun c hc => ?_⟩
    rw [List.mem_singleton.mp hc]
    exact hrefl _
  | cons c bs ih =>
    rcases hpick b.time.toNat c.time.toNat with ⟨habove, hb⟩ | ⟨habove, hc⟩
    · obtain ⟨e, hmem, hfold, hall⟩ := ih b
      have hfirst := hall b List.mem_cons_self
      refine ⟨e, ?_, by rw [List.foldl_cons, hb, hfold], ?_⟩
      · rcases List.mem_cons.mp hmem with rfl | hmem
        · exact List.mem_cons_self
        · exact List.mem_cons_of_mem _ (List.mem_cons_of_mem _ hmem)
      · exact List.forall_mem_cons.mpr ⟨hfirst, List.forall_mem_cons.mpr
          ⟨htrans hfirst habove, (List.forall_mem_cons.mp hall).2⟩⟩
    · obtain ⟨e, hmem, hfold, hall⟩ := ih c
      refine ⟨e, List.mem_cons_of_mem _ hmem, by rw [List.foldl_cons, hc, hfold], ?_⟩
      exact List.forall_mem_cons.mpr ⟨htrans (hall c List.mem_cons_self) habove, hall⟩

theorem latest_cons (b : Block) (bs : List Block) : latest (b :: bs) b.time.toNat =
    bs.foldl (fun t c => max t c.time.toNat) b.time.toNat := by
  rw [latest, List.foldl_cons, Nat.max_self]

theorem earliest_cons (b : Block) (bs : List Block) : earliest (b :: bs) b.time.toNat =
    bs.foldl (fun t c => min t c.time.toNat) b.time.toNat := by
  rw [earliest, List.foldl_cons, Nat.min_self]

theorem spread_cons (b : Block) (bs : List Block) : Spread (b :: bs)
    (latest (b :: bs) b.time.toNat - earliest (b :: bs) b.time.toNat) := by
  obtain ⟨newest, hnewest, hlatest, hbelow⟩ := exists_extreme (· ≥ ·) max
    (fun _ => Nat.le_refl _) (fun hlm hmn => Nat.le_trans hmn hlm)
    (fun m n => by omega) b bs
  obtain ⟨oldest, holdest, hearliest, habove⟩ := exists_extreme (· ≤ ·) min
    (fun _ => Nat.le_refl _) (fun hlm hmn => Nat.le_trans hlm hmn)
    (fun m n => by omega) b bs
  rw [latest_cons, earliest_cons, hlatest, hearliest]
  refine ⟨newest, hnewest, oldest, holdest, fun c hc => ?_, rfl⟩
  simp only [UInt32.le_iff_toNat_le]
  exact ⟨habove c hc, hbelow c hc⟩

variable {h : History} {p : Params} {tip x : Block} {bs : List Block} {lookup : Int}

/-- The window over a stretch has its blocks, and the times of the block before them as well. -/
theorem spread_window (hbs : h.Stretch tip bs x) :
    Spread (bs ++ [x]) (window h tip bs.length).seconds := by
  have hcons : ∃ rest, bs ++ [x] = tip :: rest := by
    cases hbs with
    | nil => exact ⟨[], rfl⟩
    | cons _ _ => exact ⟨_, rfl⟩
  obtain ⟨rest, hrest⟩ := hcons
  simp only [window, hbs.path_eq, hrest]
  exact spread_cons tip rest

theorem work_window (hbs : h.Stretch tip bs x) :
    (window h tip bs.length).work = tip.work - x.work := by
  simp only [window, hbs.path_eq, List.getLast?_append, List.getLast?_singleton, Option.some_or,
    Option.getD_some]

theorem sinceChange_eq (hp : p.Usable) (tip : Block) :
    sinceChange p tip = .ok (tip.height % p.period + 1 : Nat) := by
  have hpos := hp.period_pos
  have hposition : Fault.remainder tip.height p.period = .ok (tip.height % p.period : Nat) := by
    rw [Fault.remainder, if_neg (by omega), ← Int.ofNat_tmod]
  rw [sinceChange, hp.interval_eq, Fault.ok_bind, hposition]
  rfl

theorem length_eq (hp : p.Usable) (tip : Block) (lookup : Int) :
    length p tip lookup = .ok (windowLength p lookup tip.height) := by
  unfold length windowLength
  split
  next hlookup =>
    rw [sinceChange_eq hp, Fault.ok_bind]
    refine congrArg Except.ok ?_
    omega
  next hlookup =>
    rw [Fault.ok_bind]
    refine congrArg Except.ok ?_
    omega

theorem networkRate_eq (hp : p.Usable) (hheight : 0 < tip.height) (lookup : Int) :
    networkRate h p tip lookup =
      .ok (window h tip (windowLength p lookup tip.height)).rate := by
  rw [networkRate, if_neg (Nat.ne_of_gt hheight), length_eq hp]
  rfl

end HashRate

/-- A block some heights below another is in the same period if it is no further than the first
block of the period. -/
theorem div_eq_iff_le_mod {period m n k : Nat} (hperiod : 0 < period) (h : m + k = n) :
    m / period = n / period ↔ k ≤ n % period := by
  have hm := Nat.div_add_mod m period
  have hn := Nat.div_add_mod n period
  have hlt := Nat.mod_lt m hperiod
  constructor
  · intro heq
    rw [heq] at hm
    omega
  · intro hk
    have hm : m = n % period - k + period * (n / period) := by omega
    have hinside : n % period - k < period := by
      have := Nat.mod_lt n hperiod
      omega
    rw [hm, Nat.add_mul_div_left _ _ hperiod, Nat.div_eq_of_lt hinside, Nat.zero_add]

namespace Arena

variable {a : Arena} {p : Params} {i : Nat} {b c tip x : Block} {bs : List Block}

theorem block?_zero (a : Arena) : a.block? 0 = some a.genesis :=
  Array.getElem?_eq_getElem _

theorem Consistent.eq_genesis_iff (ha : a.Consistent) (hb : a.block? i = some b) :
    b = a.genesis ↔ b.height = 0 := by
  constructor
  · intro hfirst
    rw [hfirst]
    exact (ha.first a.block?_zero).2
  · intro hheight
    by_cases hi : i = 0
    · subst hi
      exact Option.some.inj (hb.symm.trans a.block?_zero)
    · obtain ⟨q, _, _, _, hnext, _⟩ := ha.parent?_eq hb hi
      omega

/-- Work adds up along a stretch. -/
theorem Consistent.work_stretch (ha : a.Consistent) (hb : a.block? i = some b)
    (hbs : a.history.Stretch b bs x) : b.work = BitVec.ofNat 256 (totalWork bs) + x.work := by
  induction hbs generalizing i with
  | nil => rw [totalWork, BitVec.zero_add]
  | cons hq _ ih =>
    obtain ⟨hstored, _, _, hwork⟩ := ha.of_parent? hb hq
    rw [hwork, ih hstored, totalWork, BitVec.ofNat_add, BitVec.ofNat_toNat, BitVec.setWidth_eq,
      BitVec.add_comm, BitVec.add_assoc]

/-- The window since the last change of difficulty has the blocks of the period but the first
block of the chain. -/
theorem Consistent.mem_period_iff (ha : a.Consistent) (hp : p.Usable)
    (hb : a.block? i = some tip) (hbs : a.history.Stretch tip bs x)
    (hlength : bs.length = min (tip.height % p.period + 1) tip.height) :
    c ∈ bs ↔ (∃ m, a.history.ancestor? m tip = some c) ∧ c ≠ a.genesis ∧
      c.height / p.period = tip.height / p.period := by
  rw [hbs.mem_iff, ← exists_and_right]
  refine exists_congr fun m => ?_
  rw [and_comm]
  refine and_congr_right fun hc => ?_
  obtain ⟨hstored, hheight⟩ := ha.height_of_ancestor? hb hc
  rw [Ne, ha.eq_genesis_iff hstored, div_eq_iff_le_mod hp.period_pos hheight]
  omega

end Arena

namespace HashRate

/-- What the hash rate at `tip` is taken from: the blocks `bs`, the last of which is `tip`, and
for their times also the block `x` before them. -/
structure Measured (a : Arena) (p : Params) (tip : Block) (lookup : Int) (bs : List Block)
    (x : Block) (seconds : Nat) : Prop where
  count : bs.length = windowLength p lookup tip.height
  blocks : a.history.Stretch tip bs x
  walked : a.history.path (windowLength p lookup tip.height) tip = bs ++ [x]
  spread : Spread (bs ++ [x]) seconds
  window : window a.history tip (windowLength p lookup tip.height) =
    ⟨BitVec.ofNat 256 (totalWork bs), seconds⟩
  rate : networkRate a.history p tip lookup = .ok (if seconds = 0 then 0
    else Double.ofNat (totalWork bs % 2 ^ 256) / Float.ofNat seconds)
  period : lookup ≤ 0 → ∀ c, c ∈ bs ↔ (∃ m, a.history.ancestor? m tip = some c) ∧
    c ≠ a.genesis ∧ c.height / p.period = tip.height / p.period

/-- The hash rate after the first block is the work of the blocks in the window over the spread
of their times and the time before, whatever number of blocks is asked for. -/
theorem exists_measured {a : Arena} {p : Params} (hp : p.validate = .ok ()) (ha : a.Reachable)
    {i : Nat} {tip : Block} (hb : a.block? i = some tip) (hheight : 0 < tip.height)
    (lookup : Int) : ∃ bs x seconds, Measured a p tip lookup bs x seconds := by
  have husable := Params.validate_eq_ok_iff.mp hp
  have hconsistent := ha.consistent
  have hreach : windowLength p lookup tip.height ≤ tip.height := Nat.min_le_right _ _
  obtain ⟨bs, x, hbs, hlength⟩ := hconsistent.exists_stretch hb hreach
  have hwork : (window a.history tip bs.length).work = BitVec.ofNat 256 (totalWork bs) := by
    rw [work_window hbs, hconsistent.work_stretch hb hbs, BitVec.add_sub_cancel]
  refine ⟨bs, x, (window a.history tip bs.length).seconds, hlength, hbs, ?_, spread_window hbs,
    ?_, ?_, ?_⟩
  · rw [← hlength, hbs.path_eq]
  · rw [← hlength, ← hwork]
  · rw [networkRate_eq husable hheight, ← hlength, Window.rate, hwork, BitVec.toNat_ofNat]
  · intro hlookup c
    rw [windowLength, if_pos hlookup] at hlength
    exact hconsistent.mem_period_iff husable hb hbs hlength

end HashRate

namespace Arena.Fork

theorem insertAll_steady :
    (ofGenesis first).insertAll [late, steady] = withLate.push steadyBlock := by
  have hlate : (ofGenesis first).insertAll [late, steady] = withLate.insertAll [steady] := by
    rw [withLate_eq]
    exact insertAll_cons admits_late [steady]
  exact hlate.trans (insertAll_cons admits_steady [])

theorem path_steady : (withLate.push steadyBlock).history.path 2 steadyBlock =
    [steadyBlock, lateBlock, firstBlock first] := by
  have hwithin := within_push withLate steadyBlock
  have hparent : withLate.history.parent? steadyBlock = some lateBlock :=
    History.parent?_eq_some_iff.mpr ⟨1, rfl, block?_withLate⟩
  have hgrandparent : withLate.history.parent? lateBlock = some (firstBlock first) := by
    rw [withLate_eq]
    rfl
  simp only [History.path, hwithin.parent? hparent, hwithin.parent? hgrandparent]

end Arena.Fork

open Arena Arena.Fork in
/-- The period of the steady block has three blocks so far, and the window two of them. -/
theorem HashRate.steady_measured :
    longRules.validate = .ok () ∧ (withLate.push steadyBlock).Reachable ∧
    (withLate.push steadyBlock).block? steadyBlock.id = some steadyBlock ∧
    0 < steadyBlock.height ∧
    networkRate (withLate.push steadyBlock).history longRules steadyBlock 0 =
      .ok (Double.ofNat 6 / Float.ofNat 400) := by
  have ha : (withLate.push steadyBlock).Reachable := ⟨first, [late, steady], insertAll_steady.symm⟩
  have hb : (withLate.push steadyBlock).block? steadyBlock.id = some steadyBlock :=
    block?_push_self withLate steadyBlock
  have hheight : 0 < steadyBlock.height := by decide
  obtain ⟨bs, x, seconds, h⟩ := exists_measured (p := longRules) rfl ha hb hheight 0
  have hlength : windowLength longRules 0 steadyBlock.height = 2 := by decide
  have hwindow := h.window
  have hwalked := h.walked
  rw [hlength] at hwindow hwalked
  have hseconds : seconds = 400 := by
    have hspread : (window (withLate.push steadyBlock).history steadyBlock 2).seconds = 400 := by
      rw [window, path_steady]
      decide
    rw [← hspread, hwindow]
  have hsplit : [steadyBlock, lateBlock] ++ [firstBlock first] = bs ++ [x] := by
    rw [← hwalked, path_steady]
    rfl
  have hbs : [steadyBlock, lateBlock] = bs := (List.append_inj' hsplit rfl).1
  have hwork : totalWork [steadyBlock, lateBlock] % 2 ^ 256 = 6 := by decide
  have hrate := h.rate
  rw [← hbs, hwork, hseconds, if_neg (by decide)] at hrate
  exact ⟨rfl, ha, hb, hheight, hrate⟩

end SignedChain
