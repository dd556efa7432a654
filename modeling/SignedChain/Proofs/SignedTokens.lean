import SignedChain.Proofs.HexText
import SignedChain.Proofs.ScriptTokens
import SignedChain.Signing.Coinbase

/-!
# What a signed message determines

A message joins two tokens and the parent with colons and marks nothing else, so it determines
the parent, whose text has a fixed length, and the text of both tokens with the colon between
them. Where a token contains a colon itself, that text can be cut there as well, and another
script signs the same message. So a message determines its tokens if and only if neither
contains a colon (`message_determines_iff`); decimal numbers contain none.
-/
namespace SignedChain

theorem utf8_inj {s t : String} : utf8 s = utf8 t ↔ s = t := by
  constructor
  · intro h
    rw [← String.toByteArray_inj, ← toByteArray_utf8, ← toByteArray_utf8, h]
  · rintro rfl
    rfl

/-- Two cuts of a list at an element are one if as many of the element come before. -/
theorem eq_of_append_cons_eq {α : Type} [DecidableEq α] {a : α} {l₁ l₂ r₁ r₂ : List α}
    (h : l₁ ++ a :: r₁ = l₂ ++ a :: r₂) (hcount : l₁.count a = l₂.count a) :
    l₁ = l₂ ∧ r₁ = r₂ := by
  induction l₁ generalizing l₂ with
  | nil =>
    cases l₂ with
    | nil => exact ⟨rfl, (List.cons.inj h).2⟩
    | cons c l₂ =>
      obtain ⟨rfl, -⟩ := List.cons.inj h
      simp at hcount
  | cons b l₁ ih =>
    cases l₂ with
    | nil =>
      obtain ⟨rfl, -⟩ := List.cons.inj h
      simp at hcount
    | cons c l₂ =>
      obtain ⟨rfl, htail⟩ := List.cons.inj h
      obtain ⟨rfl, rfl⟩ := ih htail (by simpa [List.count_cons] using hcount)
      exact ⟨rfl, rfl⟩

/-- A list that contains the element on one side of a cut has another cut. -/
theorem exists_append_cons_eq {α : Type} {a : α} {l r : List α} (h : a ∈ l ∨ a ∈ r) :
    ∃ l' r', l' ++ a :: r' = l ++ a :: r ∧ l' ≠ l := by
  rcases h with h | h
  · obtain ⟨u, v, rfl⟩ := List.append_of_mem h
    exact ⟨u, v ++ a :: r, by simp, by simp⟩
  · obtain ⟨u, v, rfl⟩ := List.append_of_mem h
    exact ⟨l ++ a :: u, v, by simp, by simp⟩

namespace Coinbase

variable {height extraNonce parent height' extraNonce' parent' : String}

theorem toList_joined (s t : String) : (s ++ ":" ++ t).toList = s.toList ++ ':' :: t.toList := by
  rw [String.toList_append, String.toList_append, List.append_assoc]
  rfl

theorem message_eq_iff (hlength : parent'.length = parent.length) :
    message height' extraNonce' parent' = message height extraNonce parent ↔
      parent' = parent ∧ height' ++ ":" ++ extraNonce' = height ++ ":" ++ extraNonce := by
  constructor
  · intro h
    have hlists := congrArg String.toList h
    rw [message, message, toList_joined _ parent', toList_joined _ parent] at hlists
    have htails : (':' :: parent'.toList).length = (':' :: parent.toList).length := by
      rw [List.length_cons, List.length_cons, String.length_toList, String.length_toList, hlength]
    obtain ⟨hjoined, htail⟩ := List.append_inj' hlists htails
    exact ⟨String.toList_inj.mp (List.cons.inj htail).2, String.toList_inj.mp hjoined⟩
  · rintro ⟨rfl, htokens⟩
    rw [message, message, htokens]

theorem tokens_eq_of_count
    (h : height' ++ ":" ++ extraNonce' = height ++ ":" ++ extraNonce)
    (hcount : height'.toList.count ':' = height.toList.count ':') :
    height' = height ∧ extraNonce' = extraNonce := by
  rw [← String.toList_inj, toList_joined, toList_joined] at h
  obtain ⟨hheight, hnonce⟩ := eq_of_append_cons_eq h hcount
  exact ⟨String.toList_inj.mp hheight, String.toList_inj.mp hnonce⟩

/-- One colon in all leaves only one place to cut. -/
theorem tokens_eq_of_not_mem
    (h : height' ++ ":" ++ extraNonce' = height ++ ":" ++ extraNonce)
    (hheight : ':' ∉ height.toList) (hnonce : ':' ∉ extraNonce.toList) :
    height' = height ∧ extraNonce' = extraNonce := by
  refine tokens_eq_of_count h ?_
  have hcount := congrArg (fun s => s.toList.count ':') h
  simp only [toList_joined, List.count_append, List.count_cons_self,
    List.count_eq_zero_of_not_mem hheight, List.count_eq_zero_of_not_mem hnonce] at hcount ⊢
  omega

end Coinbase

namespace Scheme

variable {G₁ G₂ : Type} {S : Scheme G₁ G₂} {script : String} {s s' : Coinbase.Script G₁}
  {parent parent' : String}

/-- Tokens without spaces can take the place of those of an accepted script. -/
theorem exists_parseScript_eq_ok (hs : S.parseScript script = .ok s) {height extraNonce : String}
    (hheight : ' ' ∉ height.toList) (hnonce : ' ' ∉ extraNonce.toList) :
    ∃ script', S.parseScript script' = .ok ⟨height, extraNonce, s.signature⟩ := by
  obtain ⟨signature, rest, hsplit, hread⟩ := parseScript_eq_ok_iff.mp hs
  have hsignature : ' ' ∉ signature.toList := hsplit.no_space signature (by simp)
  refine ⟨_, parseScript_eq_ok_iff.mpr ⟨signature, [], ⟨by simp, ?_, rfl⟩, hread⟩⟩
  simp only [List.mem_cons, List.not_mem_nil, or_false]
  rintro t (rfl | rfl | rfl)
  · exact hheight
  · exact hnonce
  · exact hsignature

theorem space_not_mem_joined (hs : S.parseScript script = .ok s) :
    ' ' ∉ (s.height ++ ":" ++ s.extraNonce).toList := by
  obtain ⟨signature, rest, hsplit, -⟩ := parseScript_eq_ok_iff.mp hs
  have hheight := hsplit.no_space s.height (by simp)
  have hnonce := hsplit.no_space s.extraNonce (by simp)
  simp [hheight, hnonce]

/-- An accepted script `s'` signs, for a parent whose text is as long, the same bytes. -/
structure SignsAlike (S : Scheme G₁ G₂) (s : Coinbase.Script G₁) (parent : String)
    (s' : Coinbase.Script G₁) (parent' : String) : Prop where
  accepted : ∃ script', S.parseScript script' = .ok s'
  length_eq : parent'.length = parent.length
  message_eq : utf8 (s'.message parent') = utf8 (s.message parent)

/-- Only the tokens and the parent of `s` itself lead to its message. -/
def Determined (S : Scheme G₁ G₂) (s : Coinbase.Script G₁) (parent : String) : Prop :=
  ∀ s' parent', S.SignsAlike s parent s' parent' →
    s'.height = s.height ∧ s'.extraNonce = s.extraNonce ∧ parent' = parent

theorem SignsAlike.joined_eq (h : S.SignsAlike s parent s' parent') :
    parent' = parent ∧ s'.height ++ ":" ++ s'.extraNonce = s.height ++ ":" ++ s.extraNonce :=
  (Coinbase.message_eq_iff h.length_eq).mp (utf8_inj.mp h.message_eq)

theorem determined_of_not_mem (hheight : ':' ∉ s.height.toList)
    (hnonce : ':' ∉ s.extraNonce.toList) : S.Determined s parent := by
  intro s' parent' h
  obtain ⟨hparent, hjoined⟩ := h.joined_eq
  obtain ⟨htoken, hextra⟩ := Coinbase.tokens_eq_of_not_mem hjoined hheight hnonce
  exact ⟨htoken, hextra, hparent⟩

/-- Where a token contains a colon, the tokens cut there make the same message. -/
theorem exists_signsAlike (hs : S.parseScript script = .ok s)
    (hcolon : ':' ∈ s.height.toList ∨ ':' ∈ s.extraNonce.toList) (parent : String) :
    ∃ s', S.SignsAlike s parent s' parent ∧ s'.height ≠ s.height := by
  obtain ⟨l, r, hcut, hne⟩ := exists_append_cons_eq hcolon
  have hjoined : String.ofList l ++ ":" ++ String.ofList r = s.height ++ ":" ++ s.extraNonce := by
    rw [← String.toList_inj, Coinbase.toList_joined, Coinbase.toList_joined, String.toList_ofList,
      String.toList_ofList, hcut]
  have hspace := space_not_mem_joined hs
  rw [← hjoined, Coinbase.toList_joined] at hspace
  simp only [List.mem_append, List.mem_cons, not_or] at hspace
  refine ⟨⟨String.ofList l, String.ofList r, s.signature⟩, ?_, ?_⟩
  · refine ⟨exists_parseScript_eq_ok hs hspace.1 hspace.2.2, rfl, congrArg utf8 ?_⟩
    exact (Coinbase.message_eq_iff rfl).mpr ⟨rfl, hjoined⟩
  · intro heq
    rw [← String.toList_inj, String.toList_ofList] at heq
    exact hne heq

/-- Accepted scripts that sign the same bytes have the same parent and, with a colon between
them, the same tokens; the tokens are equal if there are as many colons before that one. A
message determines its tokens exactly if neither contains a colon, as no number does. -/
theorem message_determines_iff (hs : S.parseScript script = .ok s) (parent : String) :
    (∀ s' parent', S.SignsAlike s parent s' parent' → parent' = parent ∧
      s'.height ++ ":" ++ s'.extraNonce = s.height ++ ":" ++ s.extraNonce ∧
      (s'.height.toList.count ':' = s.height.toList.count ':' →
        s'.height = s.height ∧ s'.extraNonce = s.extraNonce)) ∧
    (S.Determined s parent ↔ ':' ∉ s.height.toList ∧ ':' ∉ s.extraNonce.toList) ∧
    ∀ m n, s.height = Decimal.ofNat m → s.extraNonce = Decimal.ofNat n →
      S.Determined s parent := by
  refine ⟨?_, ⟨?_, ?_⟩, ?_⟩
  · intro s' parent' h
    obtain ⟨hparent, hjoined⟩ := h.joined_eq
    exact ⟨hparent, hjoined, Coinbase.tokens_eq_of_count hjoined⟩
  · intro hdetermined
    rw [← not_or]
    intro hcolon
    obtain ⟨s', halike, hne⟩ := exists_signsAlike hs hcolon parent
    exact hne (hdetermined s' parent halike).1
  · rintro ⟨hheight, hnonce⟩
    exact determined_of_not_mem hheight hnonce
  · intro m n hm hn
    refine determined_of_not_mem ?_ ?_
    · rw [hm]
      exact Decimal.not_mem_ofNat rfl m
    · rw [hn]
      exact Decimal.not_mem_ofNat rfl n

end Scheme

namespace Coinbase

/-- The text of a hash, and of a signature, that is zero throughout. -/
def zeroText : String := "0000000000000000000000000000000000000000000000000000000000000000"

theorem readSignature_zeroText : networkScheme.readSignature zeroText = .ok .infinity := by
  have hbytes : PointError.readBytes 32 zeroText = .ok (Bytes.zero 32) :=
    PointError.readBytes_eq_ok_iff.mpr (by decide +kernel)
  rw [Scheme.readSignature, hbytes]
  rfl

/-- A script that signs for the numbers 100 and 5 determines both. -/
theorem plain_tokens_determined :
    networkScheme.parseScript ("100 5 " ++ zeroText) = .ok ⟨"100", "5", .infinity⟩ ∧
    zeroText.length = 64 ∧
    networkScheme.Determined ⟨"100", "5", .infinity⟩ zeroText := by
  have hparse : networkScheme.parseScript ("100 5 " ++ zeroText) = .ok ⟨"100", "5", .infinity⟩ :=
    Scheme.parseScript_eq_ok_iff.mpr
      ⟨zeroText, [], tokens_eq_iff.mp (by decide), readSignature_zeroText⟩
  have hdetermined := (Scheme.message_determines_iff hparse zeroText).2.1
  exact ⟨hparse, by decide, hdetermined.mpr ⟨by decide, by decide⟩⟩

/-- Two accepted scripts with a colon in a token, on one parent, make one message. -/
theorem colon_tokens_sign_alike :
    networkScheme.parseScript ("1:2 3 " ++ zeroText) = .ok ⟨"1:2", "3", .infinity⟩ ∧
    networkScheme.parseScript ("1 2:3 " ++ zeroText) = .ok ⟨"1", "2:3", .infinity⟩ ∧
    zeroText.length = 64 ∧
    (⟨"1:2", "3", .infinity⟩ : Script (Point Fq)).message zeroText =
      (⟨"1", "2:3", .infinity⟩ : Script (Point Fq)).message zeroText ∧
    "1:2" ≠ "1" ∧ "3" ≠ "2:3" := by
  refine ⟨?_, ?_, by decide, by decide, by decide, by decide⟩
  · exact Scheme.parseScript_eq_ok_iff.mpr
      ⟨zeroText, [], tokens_eq_iff.mp (by decide), readSignature_zeroText⟩
  · exact Scheme.parseScript_eq_ok_iff.mpr
      ⟨zeroText, [], tokens_eq_iff.mp (by decide), readSignature_zeroText⟩

end Coinbase
end SignedChain
