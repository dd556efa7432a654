import SignedChain.Proofs.DocumentForms

/-!
# Texts of hashes and targets

A hash and a target are both written as 64 hexadecimal digits, most significant first, and
read with or without the marker. `Hex.FixedWidth` says what such a form reads and writes, and
with which fault it refuses all other texts: an odd number of bytes, else the first byte that
is no digit, else the wrong number of bytes. Hashes are kept in the opposite byte order, so
that a hash and its number have one text (`BlockHash.texts_agree`).
-/
namespace SignedChain

namespace Hex

/-- A hexadecimal digit of either case. -/
def IsDigit (c : Char) : Prop := '0' ≤ c ∧ c ≤ '9' ∨ 'a' ≤ c ∧ c ≤ 'f' ∨ 'A' ≤ c ∧ c ≤ 'F'

instance (c : Char) : Decidable (IsDigit c) :=
  inferInstanceAs (Decidable (_ ∨ _))

def IsDigitByte (b : UInt8) : Prop := IsDigit (Char.ofNat b.toNat)

/-- The text is the `count` digits `ds`, with or without the marker in front. -/
structure Spells (text : String) (count : Nat) (ds : List Char) : Prop where
  written : text.toList = ds ∨ text.toList = '0' :: 'x' :: ds
  length_eq : ds.length = count
  digits : ∀ c ∈ ds, IsDigit c

/-- The first byte that is no digit, with its offset. -/
inductive FirstBad : List UInt8 → UInt8 → Nat → Prop
  | here {byte : UInt8} {bytes : List UInt8} : ¬IsDigitByte byte → FirstBad (byte :: bytes) byte 0
  | later {b byte : UInt8} {bytes : List UInt8} {offset : Nat} :
      IsDigitByte b → FirstBad bytes byte offset → FirstBad (b :: bytes) byte (offset + 1)

/-- The fault for which bytes are refused as digits. The length is looked at first. -/
def Refused (bytes : List UInt8) : Error → Prop
  | .oddLength => bytes.length % 2 = 1
  | .invalidByte byte offset => bytes.length % 2 = 0 ∧ FirstBad bytes byte offset

/-- `parse` reads texts of `width` bytes in digits, and `write` writes them. All other texts are
refused with the first of three faults, found in what follows the marker. -/
structure FixedWidth {α ε : Type} (width : Nat) (parse : String → Except ε α)
    (write : α → String) (hex : Error → ε) (length : Nat → ε) : Prop where
  accepts (text : String) : (∃ a, parse text = .ok a) ↔ ∃ ds, Spells text (2 * width) ds
  shows (text : String) (a : α) (ds : List Char) : parse text = .ok a →
    Spells text (2 * width) ds → write a = String.ofList (ds.map Char.toLower)
  refuses (text : String) (cause : Error) :
    parse text = .error (hex cause) ↔ Refused (utf8 (dropMarker text)) cause
  miscounts (text : String) (n : Nat) : parse text = .error (length n) ↔
    (∀ b ∈ utf8 (dropMarker text), IsDigitByte b) ∧ (utf8 (dropMarker text)).length = 2 * n ∧
      n ≠ width
  reads_back (a : α) : parse (write a) = .ok a

theorem isDigitByte_iff {b : UInt8} : IsDigitByte b ↔ ∃ v, value? b = some v := by
  have hall : ∀ n : Fin 256, IsDigit (Char.ofNat n) ↔ (value? (UInt8.ofNat n)).isSome := by
    decide +kernel
  have h := hall ⟨b.toNat, b.toNat_lt⟩
  rwa [UInt8.ofNat_toNat, Option.isSome_iff_exists] at h

theorem FirstBad.unique {bytes : List UInt8} {b c : UInt8} {i j : Nat}
    (hb : FirstBad bytes b i) (hc : FirstBad bytes c j) : b = c ∧ i = j := by
  induction hb generalizing j with
  | here hbad =>
    cases hc with
    | here _ => exact ⟨rfl, rfl⟩
    | later hdigit _ => exact absurd hdigit hbad
  | later hdigit _ ih =>
    cases hc with
    | here hbad => exact absurd hdigit hbad
    | later _ hc =>
      obtain ⟨rfl, rfl⟩ := ih hc
      exact ⟨rfl, rfl⟩

theorem FirstBad.not_digits {bytes : List UInt8} {b : UInt8} {i : Nat}
    (hb : FirstBad bytes b i) : ¬∀ x ∈ bytes, IsDigitByte x := by
  induction hb with
  | here hbad => exact fun h => hbad (h _ List.mem_cons_self)
  | later _ _ ih => exact fun h => ih fun x hx => h x (List.mem_cons_of_mem _ hx)

theorem value_of_isDigitByte {b : UInt8} (hb : IsDigitByte b) (offset : Nat) :
    ∃ v, value b offset = .ok v := by
  obtain ⟨v, hv⟩ := isDigitByte_iff.mp hb
  exact ⟨v, by rw [value, hv]⟩

theorem value_of_not_isDigitByte {b : UInt8} (hb : ¬IsDigitByte b) (offset : Nat) :
    value b offset = .error (.invalidByte b offset) := by
  have hnone : value? b = none := by
    rw [Option.eq_none_iff_forall_ne_some]
    exact fun v hv => hb (isDigitByte_iff.mpr ⟨v, hv⟩)
  rw [value, hnone]

/-- Reading an even number of bytes ends at the first one that is no digit, or reads all. -/
theorem decodeFrom_cases : ∀ {bytes : List UInt8} (offset : Nat), bytes.length % 2 = 0 →
    (∃ bs, decodeFrom offset bytes = .ok bs ∧ ∀ b ∈ bytes, IsDigitByte b) ∨
      ∃ b i, decodeFrom offset bytes = .error (.invalidByte b (offset + i)) ∧
        FirstBad bytes b i
  | [], _, _ => .inl ⟨[], rfl, by simp⟩
  | [_], _, heven => by simp at heven
  | a :: b :: rest, offset, heven => by
    by_cases ha : IsDigitByte a
    · obtain ⟨high, hhigh⟩ := value_of_isDigitByte ha offset
      by_cases hb : IsDigitByte b
      · obtain ⟨low, hlow⟩ := value_of_isDigitByte hb (offset + 1)
        simp only [List.length_cons] at heven
        rcases @decodeFrom_cases rest (offset + 2) (by omega) with
          ⟨bs, hrest, hdigits⟩ | ⟨c, i, hrest, hbad⟩
        · refine .inl ⟨UInt8.ofNat (16 * high + low) :: bs, ?_,
            List.forall_mem_cons.mpr ⟨ha, List.forall_mem_cons.mpr ⟨hb, hdigits⟩⟩⟩
          rw [decodeFrom, hhigh, hlow, hrest]
          rfl
        · refine .inr ⟨c, i + 2, ?_, .later ha (.later hb hbad)⟩
          rw [decodeFrom, hhigh, hlow, hrest, Nat.add_assoc, Nat.add_comm 2 i]
          rfl
      · refine .inr ⟨b, 1, ?_, .later ha (.here hb)⟩
        rw [decodeFrom, hhigh, value_of_not_isDigitByte hb]
        rfl
    · refine .inr ⟨a, 0, ?_, .here ha⟩
      rw [decodeFrom, value_of_not_isDigitByte ha]
      rfl

theorem decodeBytes_eq_error_iff {bytes : List UInt8} {cause : Error} :
    decodeBytes bytes = .error cause ↔ Refused bytes cause := by
  unfold decodeBytes
  split
  next hodd =>
    cases cause with
    | oddLength => simp [Refused, hodd]
    | invalidByte b i => simp [Refused, hodd]
  next heven =>
    have heven : bytes.length % 2 = 0 := by omega
    rcases decodeFrom_cases 0 heven with ⟨bs, hok, hdigits⟩ | ⟨b, i, herror, hbad⟩
    · cases cause with
      | oddLength => simp [Refused, hok, heven]
      | invalidByte c j =>
        simp only [hok, reduceCtorEq, Refused, false_iff, not_and]
        exact fun _ hbad => hbad.not_digits hdigits
    · cases cause with
      | oddLength => simp [Refused, herror, heven]
      | invalidByte c j =>
        simp only [herror, Nat.zero_add, Except.error.injEq, Error.invalidByte.injEq, Refused,
          heven, true_and]
        constructor
        · intro hsame
          obtain ⟨rfl, rfl⟩ := hsame
          exact hbad
        · exact hbad.unique

theorem exists_decodeBytes_iff {bytes : List UInt8} {n : Nat} :
    (∃ bs, decodeBytes bytes = .ok bs ∧ bs.length = n) ↔
      (∀ b ∈ bytes, IsDigitByte b) ∧ bytes.length = 2 * n := by
  constructor
  · intro hread
    obtain ⟨bs, hok, rfl⟩ := hread
    rw [decodeBytes_eq_ok_iff] at hok
    have hlength := (lt_of_decodeFrom hok).1
    refine ⟨?_, hlength⟩
    rcases decodeFrom_cases 0 (by omega : bytes.length % 2 = 0) with
      ⟨_, _, hdigits⟩ | ⟨b, i, herror, _⟩
    · exact hdigits
    · cases hok.symm.trans herror
  · intro hbytes
    obtain ⟨hdigits, hlength⟩ := hbytes
    rcases decodeFrom_cases 0 (by omega : bytes.length % 2 = 0) with
      ⟨bs, hok, _⟩ | ⟨b, i, _, hbad⟩
    · have hwidth := (lt_of_decodeFrom hok).1
      exact ⟨bs, decodeBytes_eq_ok_iff.mpr hok, by omega⟩
    · exact absurd hdigits hbad.not_digits

theorem toNat_lt_of_isDigit {c : Char} (hc : IsDigit c) : c.toNat < 128 := by
  rcases hc with hc | hc | hc
  · exact Nat.lt_of_le_of_lt (show c.toNat ≤ '9'.toNat from hc.2) (by decide)
  · exact Nat.lt_of_le_of_lt (show c.toNat ≤ 'f'.toNat from hc.2) (by decide)
  · exact Nat.lt_of_le_of_lt (show c.toNat ≤ 'F'.toNat from hc.2) (by decide)

theorem isDigitByte_toUInt8 {c : Char} (hc : c.toNat < 128) :
    IsDigitByte c.toUInt8 ↔ IsDigit c := by
  have hbyte : c.toUInt8.toNat = c.toNat := by
    rw [Char.toUInt8, UInt32.toNat_toUInt8]
    exact Nat.mod_eq_of_lt (Nat.lt_trans hc (by decide))
  rw [IsDigitByte, hbyte, Char.ofNat_toNat]

/-- The bytes of a text are digits if its characters are. -/
theorem isDigitByte_utf8_iff {text : String} :
    (∀ b ∈ utf8 text, IsDigitByte b) ↔ ∀ c ∈ text.toList, IsDigit c := by
  constructor
  · intro h c hc
    have hmem {b : UInt8} (hb : b ∈ String.utf8EncodeChar c) : IsDigitByte b :=
      h b (List.mem_flatMap.mpr ⟨c, hc, hb⟩)
    have hlt : c.toNat < 128 := by
      apply toNat_lt_of_utf8EncodeChar
      intro b hb
      obtain ⟨v, hv⟩ := isDigitByte_iff.mp (hmem hb)
      exact (value?_lt hv).2
    rw [← isDigitByte_toUInt8 hlt]
    apply hmem
    rw [utf8EncodeChar_of_lt hlt]
    exact List.mem_singleton_self _
  · intro h b hb
    obtain ⟨c, hc, hb⟩ := List.mem_flatMap.mp hb
    have hlt := toNat_lt_of_isDigit (h c hc)
    rw [utf8EncodeChar_of_lt hlt, List.mem_singleton] at hb
    rw [hb, isDigitByte_toUInt8 hlt]
    exact h c hc

theorem length_utf8_of_digits {text : String} (h : ∀ c ∈ text.toList, IsDigit c) :
    (utf8 text).length = text.toList.length := by
  rw [utf8, flatMap_utf8EncodeChar_of_lt fun c hc => toNat_lt_of_isDigit (h c hc),
    List.length_map]

/-- Digits never start with the marker, whose second character is none. -/
theorem spells_iff {text : String} {count : Nat} {ds : List Char} :
    Spells text count ds ↔ (dropMarker text).toList = ds ∧ ds.length = count ∧
      ∀ c ∈ ds, IsDigit c := by
  have hx : ¬IsDigit 'x' := by decide
  unfold dropMarker
  split
  next rest hmarked =>
    rw [String.toList_ofList]
    constructor
    · intro hspells
      have hdigits := hspells.digits
      cases hspells.written with
      | inl htext =>
        rw [← htext, hmarked] at hdigits
        exact absurd (hdigits 'x' (by simp)) hx
      | inr htext =>
        rw [hmarked] at htext
        exact ⟨(List.cons.inj (List.cons.inj htext).2).2, hspells.length_eq, hdigits⟩
    · intro h
      obtain ⟨rfl, hcount, hdigits⟩ := h
      exact ⟨.inr hmarked, hcount, hdigits⟩
  next hplain =>
    constructor
    · intro hspells
      cases hspells.written with
      | inl htext => exact ⟨htext, hspells.length_eq, hspells.digits⟩
      | inr htext => exact absurd htext (hplain ds)
    · intro h
      obtain ⟨rfl, hcount, hdigits⟩ := h
      exact ⟨.inl rfl, hcount, hdigits⟩

section Read
variable {α ε : Type} {width : Nat} {make : Bytes width → α} {write : α → String}
variable {hex : Error → ε} {length : Nat → ε} {text : String} {a : α}

/-- Reads `width` bytes in digits and makes a value of them. -/
def read (width : Nat) (make : Bytes width → α) (hex : Error → ε) (length : Nat → ε)
    (text : String) : Except ε α :=
  match decode (dropMarker text) with
  | .error cause => .error (hex cause)
  | .ok bytes =>
    match Bytes.ofList? width bytes with
    | some b => .ok (make b)
    | none => .error (length bytes.length)

theorem read_eq_ok_iff : read width make hex length text = .ok a ↔
    ∃ b, decode (dropMarker text) = .ok b.toList ∧ make b = a := by
  unfold read
  split
  next cause hdecode => simp [hdecode]
  next bytes hdecode =>
    simp only [hdecode, Except.ok.injEq, ← Bytes.ofList?_eq_some_iff]
    split
    next b hb => simp [hb]
    next hnone => simp [hnone]

theorem read_eq_hex_iff (hhex : Function.Injective hex) (hne : ∀ cause n, hex cause ≠ length n)
    {cause : Error} : read width make hex length text = .error (hex cause) ↔
      decode (dropMarker text) = .error cause := by
  unfold read
  split
  next cause' hdecode => simp [hdecode, hhex.eq_iff]
  next bytes hdecode =>
    simp only [hdecode, reduceCtorEq, iff_false]
    split
    · simp
    · simp [(hne cause _).symm]

theorem read_eq_length_iff (hlength : Function.Injective length)
    (hne : ∀ cause n, hex cause ≠ length n) {n : Nat} :
    read width make hex length text = .error (length n) ↔
      (∃ bs, decode (dropMarker text) = .ok bs ∧ bs.length = n) ∧ n ≠ width := by
  unfold read
  split
  next cause hdecode => simp [hdecode, hne]
  next bytes hdecode =>
    simp only [hdecode, Except.ok.injEq, exists_eq_left']
    by_cases hwidth : bytes.length = width
    · simp only [Bytes.ofList?, dif_pos hwidth, reduceCtorEq, false_iff]
      omega
    · simp only [Bytes.ofList?, dif_neg hwidth, Except.error.injEq, hlength.eq_iff]
      omega

/-- A reader that makes every value of the bytes that the value is written as. -/
theorem fixedWidth_read (hwrite : ∀ b, write (make b) = encode b.toList)
    (hmake : Function.Surjective make) (hhex : Function.Injective hex)
    (hlength : Function.Injective length) (hne : ∀ cause n, hex cause ≠ length n) :
    FixedWidth width (read width make hex length) write hex length := by
  have hexists {text : String} : (∃ a, read width make hex length text = .ok a) ↔
      ∃ bs, decode (dropMarker text) = .ok bs ∧ bs.length = width := by
    constructor
    · intro hread
      obtain ⟨a, ha⟩ := hread
      obtain ⟨b, hb, -⟩ := read_eq_ok_iff.mp ha
      exact ⟨b.toList, hb, b.length_eq⟩
    · intro hdecode
      obtain ⟨bs, hbs, hlength⟩ := hdecode
      exact ⟨make ⟨bs, hlength⟩, read_eq_ok_iff.mpr ⟨⟨bs, hlength⟩, hbs, rfl⟩⟩
  constructor
  · intro text
    rw [hexists, decode, exists_decodeBytes_iff, isDigitByte_utf8_iff]
    constructor
    · intro h
      obtain ⟨hdigits, hcount⟩ := h
      rw [length_utf8_of_digits hdigits] at hcount
      exact ⟨_, spells_iff.mpr ⟨rfl, hcount, hdigits⟩⟩
    · intro h
      obtain ⟨ds, hspells⟩ := h
      obtain ⟨rfl, hcount, hdigits⟩ := spells_iff.mp hspells
      rw [length_utf8_of_digits hdigits]
      exact ⟨hdigits, hcount⟩
  · intro text a ds ha hspells
    obtain ⟨rfl, -, -⟩ := spells_iff.mp hspells
    obtain ⟨b, hb, rfl⟩ := read_eq_ok_iff.mp ha
    rw [hwrite, ← decode_eq_ok_iff.mp hb, ← toList_toLower, String.ofList_toList]
  · intro text cause
    rw [read_eq_hex_iff hhex hne, decode, decodeBytes_eq_error_iff]
  · intro text n
    rw [read_eq_length_iff hlength hne, decode, exists_decodeBytes_iff, and_assoc]
  · intro a
    obtain ⟨b, rfl⟩ := hmake a
    refine read_eq_ok_iff.mpr ⟨b, ?_, rfl⟩
    rw [hwrite, dropMarker_encode, decode_eq_ok_iff, toLower_encode]

end Read

end Hex

theorem Bytes.reverse_reverse {n : Nat} (b : Bytes n) : b.reverse.reverse = b := by
  simp [Bytes.reverse]

namespace Target

theorem parse_eq_read : parse = Hex.read 32 ofBigEndian .hex .length := by
  funext s
  unfold parse Hex.read
  cases Hex.decode (Hex.dropMarker s) with
  | error cause => rfl
  | ok bytes =>
    dsimp only
    cases Bytes.ofList? 32 bytes with
    | none => rfl
    | some b => rfl

theorem toBigEndian_ofBigEndian (b : Bytes 32) : (ofBigEndian b).toBigEndian = b := by
  have hlt : b.reverse.toNat < 2 ^ 256 := b.reverse.toNat_lt
  rw [ofBigEndian, ofLittleEndian, toBigEndian, toLittleEndian, toNat_ofNat,
    Nat.mod_eq_of_lt hlt, Bytes.ofNat_toNat, Bytes.reverse_reverse]

theorem fixedWidth_parse : Hex.FixedWidth 32 parse text .hex .length := by
  rw [parse_eq_read]
  refine Hex.fixedWidth_read (fun b => ?_) (fun t => ⟨_, ofBigEndian_toBigEndian t⟩) ?_ ?_ ?_
  · rw [text, toBigEndian_ofBigEndian]
  · exact fun _ _ => Error.hex.inj
  · exact fun _ _ => Error.length.inj
  · exact fun _ _ h => by cases h

end Target

namespace BlockHash

/-- The hash that is shown as the bytes. -/
def ofBigEndian (b : Bytes 32) : BlockHash := ⟨b.reverse⟩

theorem parse_eq_read : parse = Hex.read 32 ofBigEndian .hex .length := by
  funext s
  unfold parse Hex.read
  cases Hex.decode (Hex.dropMarker s) with
  | error cause => rfl
  | ok bytes =>
    dsimp only
    cases Bytes.ofList? 32 bytes with
    | none => rfl
    | some b => rfl

theorem fixedWidth_parse : Hex.FixedWidth 32 parse text .hex .length := by
  rw [parse_eq_read]
  refine Hex.fixedWidth_read (fun b => ?_) (fun h => ⟨h.wire.reverse, ?_⟩) ?_ ?_ ?_
  · rw [text, ofBigEndian, Bytes.reverse_reverse]
  · rw [ofBigEndian, Bytes.reverse_reverse]
  · exact fun _ _ => Error.hex.inj
  · exact fun _ _ => Error.length.inj
  · exact fun _ _ h => by cases h

/-- The number with the shown bytes is the number that the hash is compared as. -/
theorem toTarget_ofBigEndian (b : Bytes 32) : (ofBigEndian b).toTarget = Target.ofBigEndian b :=
  rfl

theorem text_toTarget (h : BlockHash) : h.toTarget.text = h.text := by
  have hbytes : h = ofBigEndian h.wire.reverse := by rw [ofBigEndian, Bytes.reverse_reverse]
  rw [Target.text, hbytes, toTarget_ofBigEndian, Target.toBigEndian_ofBigEndian, text,
    ofBigEndian, Bytes.reverse_reverse]

theorem parse_toTarget {s : String} {h : BlockHash} (hparse : parse s = .ok h) :
    Target.parse s = .ok h.toTarget := by
  rw [parse_eq_read] at hparse
  obtain ⟨b, hdecode, rfl⟩ := Hex.read_eq_ok_iff.mp hparse
  rw [Target.parse_eq_read]
  exact Hex.read_eq_ok_iff.mpr ⟨b, hdecode, (toTarget_ofBigEndian b).symm⟩

/-- Hashes and targets are read from the same texts, and refused with the same faults. A hash is
read as the target that it is compared as, and either is written as the digits alone. -/
theorem texts_agree :
    Hex.FixedWidth 32 parse text .hex .length ∧
    Hex.FixedWidth 32 Target.parse Target.text .hex .length ∧
    (∀ s h, parse s = .ok h → Target.parse s = .ok h.toTarget) ∧
    ∀ h : BlockHash, h.text = h.toTarget.text :=
  ⟨fixedWidth_parse, Target.fixedWidth_parse, fun _ _ => parse_toTarget,
    fun h => h.text_toTarget.symm⟩

end BlockHash
end SignedChain
