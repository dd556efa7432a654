import SignedChain.Proofs.DocumentForms
import SignedChain.Proofs.TargetDecision

/-!
# The order of a schedule

A schedule holds the entries it is made from, by activation time and otherwise in the given
order, so making a schedule from the entries of one gives it back. Which order they were given
in does not matter where any matching entry will do. Where the first one decides, it matters
only between entries with the same activation time: without such ties the reset that applies
is the earliest of those that match (`EpochSchedule.ofList_canonical`).
-/
namespace SignedChain

namespace EpochEntry

theorem startsBefore_iff {a b : EpochEntry} :
    a.startsBefore b = true ↔ a.activation ≤ b.activation :=
  decide_eq_true_iff

theorem startsBefore_trans (a b c : EpochEntry) (hab : a.startsBefore b = true)
    (hbc : b.startsBefore c = true) : a.startsBefore c = true :=
  startsBefore_iff.mpr (UInt32.le_trans (startsBefore_iff.mp hab) (startsBefore_iff.mp hbc))

theorem startsBefore_total (a b : EpochEntry) : (a.startsBefore b || b.startsBefore a) = true := by
  rw [Bool.or_eq_true, startsBefore_iff, startsBefore_iff]
  exact UInt32.le_total _ _

/-- The entry is a reset that applies to a header stamped `time` with this target. -/
def Matches (e : EpochEntry) (time : UInt32) (target : Target) : Prop :=
  ∃ limit, e.Resets time target.toNat limit

variable {e : EpochEntry} {time : UInt32} {target limit : Target}

theorem override?_eq_some_iff_resets :
    e.override? time target = some limit ↔ e.Resets time target.toNat limit :=
  override?_eq_some_iff (Nat.mod_eq_of_lt target.toNat_lt).symm

theorem matches_iff : e.Matches time target ↔ e.override? time target ≠ none := by
  simp only [Matches, ← override?_eq_some_iff_resets, Option.ne_none_iff_exists']

end EpochEntry

namespace EpochSchedule

/-- The entries of the schedule are those of the list, by activation time, and those with the
same time are in the order of the list. -/
structure Arranges (s : EpochSchedule) (entries : List EpochEntry) : Prop where
  perm : s.entries.Perm entries
  ordered : s.entries.Pairwise (·.activation ≤ ·.activation)
  stable (time : UInt32) :
    s.entries.filter (·.activation = time) = entries.filter (·.activation = time)

/-- Of the resets in the list that match, the one with the least activation time is to
`limit`. -/
def EarliestReset (entries : List EpochEntry) (time : UInt32) (target limit : Target) : Prop :=
  ∃ e ∈ entries, e.Resets time target.toNat limit ∧
    ∀ e' ∈ entries, e'.Matches time target → e.activation ≤ e'.activation

variable {s : EpochSchedule} {entries others : List EpochEntry} {time : UInt32}
variable {target limit : Target}

theorem perm_ofList (entries : List EpochEntry) : (ofList entries).entries.Perm entries :=
  List.mergeSort_perm entries _

theorem pairwise_entries (s : EpochSchedule) :
    s.entries.Pairwise (·.activation ≤ ·.activation) :=
  s.sorted.imp EpochEntry.startsBefore_iff.mp

/-- Entries with one activation time are in order already, and sorting keeps the order of a
sublist that is in order. -/
theorem filter_ofList (entries : List EpochEntry) (time : UInt32) :
    (ofList entries).entries.filter (·.activation = time) =
      entries.filter (·.activation = time) := by
  have htied : (entries.filter (·.activation = time)).Pairwise (·.startsBefore ·) := by
    refine List.pairwise_filter.mpr (List.pairwise_of_forall fun a b ha hb => ?_)
    rw [EpochEntry.startsBefore_iff, of_decide_eq_true ha, of_decide_eq_true hb]
    exact UInt32.le_refl _
  have hsublist : (entries.filter (·.activation = time)).Sublist (ofList entries).entries :=
    List.sublist_mergeSort EpochEntry.startsBefore_trans EpochEntry.startsBefore_total htied
      List.filter_sublist
  have hkept : (entries.filter (·.activation = time)).Sublist
      ((ofList entries).entries.filter (·.activation = time)) := by
    have h := hsublist.filter (·.activation = time)
    simpa only [List.filter_filter, Bool.and_self] using h
  have hlength := ((perm_ofList entries).filter (·.activation = time)).length_eq
  exact (hkept.eq_of_length hlength.symm).symm

theorem arranges_ofList (entries : List EpochEntry) : (ofList entries).Arranges entries :=
  ⟨perm_ofList entries, pairwise_entries _, filter_ofList entries⟩

/-- Any matching entry will do, so the order does not matter. -/
theorem acceptsDeclaredBits_ofList (entries : List EpochEntry) (time : UInt32) :
    (ofList entries).acceptsDeclaredBits time = entries.any (·.acceptsDeclaredBits time) :=
  (perm_ofList entries).any_eq

/-- Entries with different activation times have one order only. -/
theorem ofList_eq_of_perm (hperm : others.Perm entries)
    (hdistinct : (entries.map (·.activation)).Nodup) : ofList others = ofList entries := by
  have hentries : (ofList others).entries = (ofList entries).entries := by
    refine List.Perm.eq_of_pairwise ?_ (pairwise_entries _) (pairwise_entries _)
      ((perm_ofList others).trans (hperm.trans (perm_ofList entries).symm))
    intro a b ha hb hab hba
    have ha := hperm.mem_iff.mp ((perm_ofList others).mem_iff.mp ha)
    have hb := (perm_ofList entries).mem_iff.mp hb
    exact List.inj_on_of_nodup_map hdistinct ha hb (UInt32.le_antisymm hab hba)
  rw [← ofList_entries (ofList others), hentries, ofList_entries]

/-- The first match in a schedule is an earliest one. -/
theorem earliestReset_of_override? (h : s.override? time target = some limit) :
    EarliestReset s.entries time target limit := by
  obtain ⟨before, e, after, hentries, hresets, hbefore⟩ :=
    (override?_eq_some_iff (Nat.mod_eq_of_lt target.toNat_lt).symm).mp h
  have hordered := s.pairwise_entries
  rw [hentries] at hordered ⊢
  refine ⟨e, by simp, hresets, fun e' he' hmatches => ?_⟩
  rcases List.mem_append.mp he' with he' | he'
  · obtain ⟨limit', hlimit'⟩ := hmatches
    exact absurd hlimit' (hbefore e' he' limit')
  · rcases List.mem_cons.mp he' with rfl | he'
    · exact UInt32.le_refl _
    · exact List.rel_of_pairwise_cons (List.pairwise_append.mp hordered).2.1 he'

theorem override?_eq_none_iff :
    s.override? time target = none ↔ ∀ e ∈ s.entries, ¬e.Matches time target := by
  simp only [override?, List.findSome?_eq_none_iff, EpochEntry.matches_iff, not_not]

theorem EarliestReset.of_perm (hperm : others.Perm entries)
    (h : EarliestReset others time target limit) : EarliestReset entries time target limit := by
  obtain ⟨e, he, hresets, hleast⟩ := h
  exact ⟨e, hperm.mem_iff.mp he, hresets, fun e' he' => hleast e' (hperm.mem_iff.mpr he')⟩

theorem EarliestReset.unique (hdistinct : (entries.map (·.activation)).Nodup) {limit' : Target}
    (h : EarliestReset entries time target limit)
    (h' : EarliestReset entries time target limit') : limit = limit' := by
  obtain ⟨e, he, hresets, hleast⟩ := h
  obtain ⟨e', he', hresets', hleast'⟩ := h'
  have hsame : e = e' := List.inj_on_of_nodup_map hdistinct he he'
    (UInt32.le_antisymm (hleast e' he' ⟨_, hresets'⟩) (hleast' e he ⟨_, hresets⟩))
  subst hsame
  rw [← EpochEntry.override?_eq_some_iff_resets] at hresets hresets'
  exact Option.some.inj (hresets.symm.trans hresets')

theorem override?_ofList_eq_some_iff (hdistinct : (entries.map (·.activation)).Nodup) :
    (ofList entries).override? time target = some limit ↔
      EarliestReset entries time target limit := by
  constructor
  · intro h
    exact (earliestReset_of_override? h).of_perm (perm_ofList entries)
  · intro h
    cases hfound : (ofList entries).override? time target with
    | none =>
      obtain ⟨e, he, hresets, -⟩ := h
      exact absurd ⟨limit, hresets⟩
        (override?_eq_none_iff.mp hfound e ((perm_ofList entries).mem_iff.mpr he))
    | some limit' =>
      have h' := (earliestReset_of_override? hfound).of_perm (perm_ofList entries)
      rw [h'.unique hdistinct h]

/-- A schedule is the list of its entries in order. What it answers does not depend on the order
of the list it was made from, but for the resets among entries with one activation time. -/
theorem ofList_canonical (entries : List EpochEntry) :
    (ofList entries).Arranges entries ∧
    ofList (ofList entries).entries = ofList entries ∧
    (∀ s : EpochSchedule, ofList s.entries = s) ∧
    ∀ others : List EpochEntry, others.Perm entries →
      (∀ time, (ofList others).acceptsDeclaredBits time =
        (ofList entries).acceptsDeclaredBits time) ∧
      ((entries.map (·.activation)).Nodup → ofList others = ofList entries ∧
        ∀ time target,
          (ofList others).override? time target = (ofList entries).override? time target ∧
          ∀ limit, (ofList entries).override? time target = some limit ↔
            EarliestReset entries time target limit) := by
  refine ⟨arranges_ofList entries, ofList_entries _, ofList_entries, fun others hperm => ⟨?_, ?_⟩⟩
  · intro time
    rw [acceptsDeclaredBits_ofList, acceptsDeclaredBits_ofList]
    exact hperm.any_eq
  · intro hdistinct
    have hsame := ofList_eq_of_perm hperm hdistinct
    exact ⟨hsame, fun time target =>
      ⟨by rw [hsame], fun limit => override?_ofList_eq_some_iff hdistinct⟩⟩

end EpochSchedule
end SignedChain
