/-!
# Text as bytes and bytes as text

A text has its UTF-8 bytes, and bytes are a text if they are its UTF-8 form;
`ofUtf8?_utf8` says that no text is lost. Byte strings are written in hexadecimal as
two lower-case digits a byte. Reading these accepts either case and works on the UTF-8
bytes of the text: an odd number of bytes is refused first, then the first byte that is
no digit, with its offset.
-/
namespace SignedChain

/-- The UTF-8 bytes of a text. -/
def utf8 (text : String) : List UInt8 := text.toList.flatMap String.utf8EncodeChar

def ofUtf8? (bytes : List UInt8) : Option String := String.fromUTF8? bytes.toByteArray

theorem toByteArray_utf8 (text : String) : (utf8 text).toByteArray = text.toByteArray := by
  conv => rhs; rw [← String.ofList_toList (s := text)]
  rfl

theorem ofUtf8?_utf8 (text : String) : ofUtf8? (utf8 text) = some text := by
  unfold ofUtf8? String.fromUTF8?
  rw [toByteArray_utf8, dif_pos text.isValidUTF8]
  rfl

namespace Hex

inductive Error
  | oddLength
  | invalidByte (byte : UInt8) (offset : Nat)
deriving DecidableEq, Repr

def digit (n : Nat) : Char := "0123456789abcdef".toList.getD n '0'

/-- The lowest `width` hexadecimal digits of a number, most significant first. -/
def digits : Nat → Nat → List Char
  | 0, _ => []
  | width + 1, n => digits width (n / 16) ++ [digit (n % 16)]

def encodeByte (b : UInt8) : List Char := [digit (b.toNat / 16), digit (b.toNat % 16)]

def encode (bs : List UInt8) : String := String.ofList (bs.flatMap encodeByte)

def value? (byte : UInt8) : Option Nat :=
  if 48 ≤ byte ∧ byte ≤ 57 then some (byte.toNat - 48)
  else if 65 ≤ byte ∧ byte ≤ 70 then some (byte.toNat - 55)
  else if 97 ≤ byte ∧ byte ≤ 102 then some (byte.toNat - 87)
  else none

def charValue? (c : Char) : Option Nat :=
  if '0' ≤ c ∧ c ≤ '9' then some (c.toNat - 48)
  else if 'a' ≤ c ∧ c ≤ 'f' then some (c.toNat - 87)
  else if 'A' ≤ c ∧ c ≤ 'F' then some (c.toNat - 55)
  else none

/-- The number that digits of either case write. -/
def number? (cs : List Char) : Option Nat :=
  cs.foldlM (fun n c => (charValue? c).map (16 * n + ·)) 0

def value (byte : UInt8) (offset : Nat) : Except Error Nat :=
  match value? byte with
  | some v => .ok v
  | none => .error (.invalidByte byte offset)

/-- Reads digit pairs; `offset` is the position of the first one in the text. -/
def decodeFrom (offset : Nat) : List UInt8 → Except Error (List UInt8)
  | [] => .ok []
  | [_] => .error .oddLength
  | a :: b :: rest => do
    let high ← value a offset
    let low ← value b (offset + 1)
    let bytes ← decodeFrom (offset + 2) rest
    return UInt8.ofNat (16 * high + low) :: bytes

def decodeBytes (bs : List UInt8) : Except Error (List UInt8) :=
  if bs.length % 2 = 1 then .error .oddLength else decodeFrom 0 bs

def decode (text : String) : Except Error (List UInt8) := decodeBytes (utf8 text)

def dropMarker (text : String) : String :=
  match text.toList with
  | '0' :: 'x' :: rest => String.ofList rest
  | _ => text

/-- A byte shown as the character with its code: quotes and backslashes are
escaped, and so is everything below U+0100 that cannot be printed. -/
def quoteByte (byte : UInt8) : String :=
  if byte = 0 then "'\\0'"
  else if byte = 9 then "'\\t'"
  else if byte = 13 then "'\\r'"
  else if byte = 10 then "'\\n'"
  else if byte = 39 then "'\\''"
  else if byte = 92 then "'\\\\'"
  else if byte < 32 ∨ (127 ≤ byte ∧ byte ≤ 160) ∨ byte = 173 then
    "'\\u\x7b" ++ String.ofList ((encodeByte byte).dropWhile (· == '0')) ++ "\x7d'"
  else "'" ++ String.singleton (Char.ofNat byte.toNat) ++ "'"

def Error.message : Error → String
  | .oddLength => "Odd number of digits"
  | .invalidByte byte offset =>
    "Invalid character " ++ quoteByte byte ++ " at position " ++ toString offset

end Hex
end SignedChain
