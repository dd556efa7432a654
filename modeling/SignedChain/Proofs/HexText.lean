import SignedChain.Signing.Scheme

/-!
# Which texts are read as hexadecimal

A text is read as bytes exactly if it is, but for the case of its letters, the text those
bytes are written as. Reading works on the UTF-8 bytes of the text and writing on characters;
all that is read or written is ASCII, where the two are the same.
-/
namespace SignedChain

theorem utf8EncodeChar_of_lt {c : Char} (hc : c.toNat < 128) :
    String.utf8EncodeChar c = [c.toUInt8] := by
  rw [String.utf8EncodeChar_eq_singleton]
  · rfl
  · rw [Char.utf8Size_eq_one_iff, UInt32.le_iff_toNat_le]
    exact Nat.le_of_lt_succ hc

/-- A character beyond ASCII starts with a byte beyond ASCII. -/
theorem toNat_lt_of_utf8EncodeChar {c : Char} (h : ∀ b ∈ String.utf8EncodeChar c, b < 128) :
    c.toNat < 128 := by
  have hlead (n : Nat) (hn : UInt8.ofNat n < 128) : n % 256 < 128 := by
    rwa [UInt8.lt_iff_toNat_lt, UInt8.toNat_ofNat'] at hn
  unfold String.utf8EncodeChar at h
  simp only at h
  split at h
  next hc => exact Nat.lt_succ_of_le hc
  next =>
    -- of two, three and four bytes, the first is 192, 224 or 240 and more
    split at h
    · have := hlead _ (h _ List.mem_cons_self)
      omega
    · split at h
      · have := hlead _ (h _ List.mem_cons_self)
        omega
      · have := hlead _ (h _ List.mem_cons_self)
        omega

theorem flatMap_utf8EncodeChar_of_lt {cs : List Char} (hcs : ∀ c ∈ cs, c.toNat < 128) :
    cs.flatMap String.utf8EncodeChar = cs.map Char.toUInt8 := by
  induction cs with
  | nil => rfl
  | cons c cs ih =>
    rw [List.forall_mem_cons] at hcs
    rw [List.flatMap_cons, utf8EncodeChar_of_lt hcs.1, ih hcs.2]
    rfl

namespace Hex

theorem digit_injective {m n : Nat} (hm : m < 16) (hn : n < 16) (h : digit m = digit n) :
    m = n := by
  have hall : ∀ m n : Fin 16, digit m = digit n → m = n := by decide
  exact congrArg Fin.val (hall ⟨m, hm⟩ ⟨n, hn⟩ h)

theorem value?_lt {b : UInt8} {v : Nat} (h : value? b = some v) : v < 16 ∧ b < 128 := by
  have hb := b.toNat_lt
  simp only [value?, UInt8.le_iff_toNat_le] at h
  rw [UInt8.lt_iff_toNat_lt]
  simp only [UInt8.toNat_ofNat] at h ⊢
  grind

/-- A byte below 128 is read as the digit its character is in lower case. -/
theorem value?_toUInt8_eq_some_iff {c : Char} (hc : c.toNat < 128) {v : Nat} :
    value? c.toUInt8 = some v ↔ v < 16 ∧ c.toLower = digit v := by
  have hall : ∀ (n : Fin 128) (v : Fin 16), value? (Char.ofNat n).toUInt8 = some v.val ↔
      (Char.ofNat n).toLower = digit v := by decide +kernel
  rw [← Char.ofNat_toNat c]
  constructor
  · intro h
    have hv := (value?_lt h).1
    exact ⟨hv, (hall ⟨c.toNat, hc⟩ ⟨v, hv⟩).mp h⟩
  · rintro ⟨hv, h⟩
    exact (hall ⟨c.toNat, hc⟩ ⟨v, hv⟩).mpr h

theorem encodeByte_eq_iff {b : UInt8} {high low : Nat} (hhigh : high < 16) (hlow : low < 16) :
    encodeByte b = [digit high, digit low] ↔ b = UInt8.ofNat (16 * high + low) := by
  have hb := b.toNat_lt
  have hbyte : b = UInt8.ofNat (16 * high + low) ↔ b.toNat = 16 * high + low := by
    rw [← UInt8.toNat_inj, UInt8.toNat_ofNat', Nat.mod_eq_of_lt (by omega)]
  rw [hbyte, encodeByte]
  simp only [List.cons.injEq, and_true]
  constructor
  · rintro ⟨h₁, h₂⟩
    have h₁ := digit_injective (by omega) hhigh h₁
    have h₂ := digit_injective (by omega) hlow h₂
    omega
  · intro h
    constructor
    · congr 1
      omega
    · congr 1
      omega

theorem decodeFrom_cons_eq_ok_iff {a b : UInt8} {rest bs : List UInt8} {offset : Nat} :
    decodeFrom offset (a :: b :: rest) = .ok bs ↔
      ∃ high low tail, value? a = some high ∧ value? b = some low ∧
        decodeFrom (offset + 2) rest = .ok tail ∧ bs = UInt8.ofNat (16 * high + low) :: tail := by
  rw [decodeFrom, value, value]
  cases value? a with
  | none => simp [bind, Except.bind]
  | some high =>
    cases value? b with
    | none => simp [bind, Except.bind]
    | some low =>
      cases decodeFrom (offset + 2) rest with
      | error => simp [bind, Except.bind]
      | ok tail => simp [bind, Except.bind, pure, Except.pure, eq_comm]

theorem lt_of_decodeFrom {bytes bs : List UInt8} {offset : Nat}
    (h : decodeFrom offset bytes = .ok bs) :
    bytes.length = 2 * bs.length ∧ ∀ b ∈ bytes, b < 128 := by
  fun_induction decodeFrom offset bytes generalizing bs with
  | case1 offset =>
    cases h
    simp
  | case2 offset a => cases h
  | case3 offset a b rest ih =>
    rw [← decodeFrom, decodeFrom_cons_eq_ok_iff] at h
    obtain ⟨high, low, tail, ha, hb, htail, rfl⟩ := h
    obtain ⟨hlength, hlt⟩ := ih htail
    refine ⟨?_, ?_⟩
    · simp only [List.length_cons]
      omega
    · simp only [List.forall_mem_cons]
      exact ⟨(value?_lt ha).2, (value?_lt hb).2, hlt⟩

theorem decodeFrom_map_toUInt8_eq_ok_iff {offset : Nat} {bs : List UInt8} :
    ∀ {cs : List Char}, (∀ c ∈ cs, c.toNat < 128) →
      (decodeFrom offset (cs.map Char.toUInt8) = .ok bs ↔
        cs.map Char.toLower = bs.flatMap encodeByte)
  | [], _ => by cases bs <;> simp [decodeFrom, encodeByte]
  | [c], _ => by
    cases bs with
    | nil => simp [decodeFrom]
    | cons b bs => simp [decodeFrom, encodeByte]
  | c :: d :: cs, hcs => by
    simp only [List.forall_mem_cons] at hcs
    obtain ⟨hc, hd, hcs⟩ := hcs
    simp only [List.map_cons, decodeFrom_cons_eq_ok_iff, value?_toUInt8_eq_some_iff hc,
      value?_toUInt8_eq_some_iff hd, decodeFrom_map_toUInt8_eq_ok_iff hcs]
    constructor
    · rintro ⟨high, low, tail, ⟨hhigh, hc⟩, ⟨hlow, hd⟩, htail, rfl⟩
      have hbyte := (encodeByte_eq_iff hhigh hlow).mpr rfl
      rw [List.flatMap_cons, hbyte, hc, hd, htail]
      rfl
    · intro h
      cases bs with
      | nil => simp at h
      | cons b tail =>
        have hb := b.toNat_lt
        rw [List.flatMap_cons, encodeByte] at h
        simp only [List.cons_append, List.nil_append, List.cons.injEq] at h
        obtain ⟨hc, hd, htail⟩ := h
        have hhigh : b.toNat / 16 < 16 := by omega
        have hlow : b.toNat % 16 < 16 := by omega
        refine ⟨_, _, tail, ⟨hhigh, hc⟩, ⟨hlow, hd⟩, htail, ?_⟩
        rw [← (encodeByte_eq_iff hhigh hlow).mp rfl]

theorem exists_digit_of_mem {bs : List UInt8} {c : Char} (hc : c ∈ bs.flatMap encodeByte) :
    ∃ n < 16, c = digit n := by
  obtain ⟨b, -, hb⟩ := List.mem_flatMap.mp hc
  have hlt := b.toNat_lt
  simp only [encodeByte, List.mem_cons, List.not_mem_nil, or_false] at hb
  rcases hb with hb | hb
  · exact ⟨_, by omega, hb⟩
  · exact ⟨_, by omega, hb⟩

theorem toList_toLower (text : String) : text.toLower.toList = text.toList.map Char.toLower :=
  String.toList_map

theorem toLower_encode (bs : List UInt8) : (encode bs).toLower = encode bs := by
  have hdigit : ∀ n < 16, (digit n).toLower = digit n := by decide
  rw [← String.toList_inj, toList_toLower, encode, String.toList_ofList]
  refine (List.map_congr_left ?_).trans (List.map_id _)
  intro c hc
  obtain ⟨n, hn, rfl⟩ := exists_digit_of_mem hc
  exact hdigit n hn

theorem space_not_mem (bs : List UInt8) : ' ' ∉ (encode bs).toList := by
  have hdigit : ∀ n < 16, ' ' ≠ digit n := by decide
  rw [encode, String.toList_ofList]
  intro hspace
  obtain ⟨n, hn, h⟩ := exists_digit_of_mem hspace
  exact hdigit n hn h

theorem toNat_lt_of_map_toLower {cs : List Char} {bs : List UInt8}
    (h : cs.map Char.toLower = bs.flatMap encodeByte) : ∀ c ∈ cs, c.toNat < 128 := by
  have hdigit : ∀ n < 16, (digit n).toNat < 128 := by decide
  intro c hc
  have hlower : c.toLower ∈ bs.flatMap encodeByte := h ▸ List.mem_map_of_mem hc
  obtain ⟨n, hn, hlower⟩ := exists_digit_of_mem hlower
  have hlt : c.toLower.toNat < 128 := hlower ▸ hdigit n hn
  unfold Char.toLower at hlt
  split at hlt
  next hupper =>
    have hle : c.toNat ≤ 'Z'.toNat := hupper.2
    exact Nat.lt_of_le_of_lt hle (by decide)
  next => exact hlt

/-- A text of odd length is refused early, but would be in any case. -/
theorem decodeBytes_eq_ok_iff {bytes bs : List UInt8} :
    decodeBytes bytes = .ok bs ↔ decodeFrom 0 bytes = .ok bs := by
  unfold decodeBytes
  split
  next hodd =>
    simp only [reduceCtorEq, false_iff]
    intro h
    have := (lt_of_decodeFrom h).1
    omega
  next => rfl

theorem decode_eq_ok_iff {text : String} {bs : List UInt8} :
    decode text = .ok bs ↔ text.toLower = encode bs := by
  have htext : text.toLower = encode bs ↔ text.toList.map Char.toLower = bs.flatMap encodeByte := by
    rw [← String.toList_inj, encode, String.toList_ofList, toList_toLower]
  rw [decode, decodeBytes_eq_ok_iff, utf8, htext]
  constructor
  · intro h
    have hlt : ∀ c ∈ text.toList, c.toNat < 128 := by
      intro c hc
      apply toNat_lt_of_utf8EncodeChar
      intro b hb
      exact (lt_of_decodeFrom h).2 b (List.mem_flatMap.mpr ⟨c, hc, hb⟩)
    rw [flatMap_utf8EncodeChar_of_lt hlt] at h
    exact (decodeFrom_map_toUInt8_eq_ok_iff hlt).mp h
  · intro h
    have hlt := toNat_lt_of_map_toLower h
    rw [flatMap_utf8EncodeChar_of_lt hlt]
    exact (decodeFrom_map_toUInt8_eq_ok_iff hlt).mpr h

end Hex

theorem PointError.readBytes_eq_ok_iff {n : Nat} {text : String} {b : Bytes n} :
    readBytes n text = .ok b ↔ text.toLower = Hex.encode b.toList := by
  rw [← Hex.decode_eq_ok_iff]
  unfold readBytes
  split
  next cause hdecode => simp [hdecode]
  next bytes hdecode =>
    rw [hdecode, Except.ok.injEq, ← Bytes.ofList?_eq_some_iff]
    split
    next b' hb' => rw [hb', Except.ok.injEq, Option.some_inj]
    next hnone => simp [hnone]

end SignedChain
