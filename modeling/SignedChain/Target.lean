import SignedChain.Bytes
import SignedChain.Text.Hex

/-!
# Difficulty targets

A target is a 256-bit unsigned integer; a block hash meets it if the hash, read as
a number, is at most the target. Its text is 64 hexadecimal digits, most
significant first, and may be read with a leading `0x`.
-/
namespace SignedChain

structure Target where
  value : BitVec 256
deriving DecidableEq, Repr

namespace Target

inductive Error
  | hex (cause : Hex.Error)
  | length (actual : Nat)
deriving DecidableEq, Repr

def Error.message : Error → String
  | .hex cause => "Invalid target hex: " ++ cause.message
  | .length actual => "Target must be 32 bytes, got " ++ toString actual

def toNat (t : Target) : Nat := t.value.toNat

/-- The target with the given value modulo `2 ^ 256`. -/
def ofNat (n : Nat) : Target := ⟨BitVec.ofNat 256 n⟩

def zero : Target := ofNat 0
def max : Target := ofNat (2 ^ 256 - 1)

instance : LE Target := ⟨fun a b => a.toNat ≤ b.toNat⟩
instance (a b : Target) : Decidable (a ≤ b) := inferInstanceAs (Decidable (a.toNat ≤ b.toNat))

@[simp] theorem toNat_ofNat (n : Nat) : (ofNat n).toNat = n % 2 ^ 256 := by
  simp [toNat, ofNat, BitVec.toNat_ofNat]

theorem toNat_lt (t : Target) : t.toNat < 2 ^ 256 := t.value.isLt

theorem ext_toNat {a b : Target} (h : a.toNat = b.toNat) : a = b := by
  cases a; cases b
  exact congrArg mk (BitVec.eq_of_toNat_eq h)

theorem ofNat_toNat (t : Target) : ofNat t.toNat = t :=
  ext_toNat (by rw [toNat_ofNat, Nat.mod_eq_of_lt t.toNat_lt])

def isZero (t : Target) : Bool := t.toNat == 0

theorem isZero_iff {t : Target} : t.isZero = true ↔ t.toNat = 0 := beq_iff_eq

theorem isZero_eq_false_iff {t : Target} : t.isZero = false ↔ 0 < t.toNat := by
  rw [Bool.eq_false_iff, Ne, isZero_iff, Nat.pos_iff_ne_zero]

/-- The number of significant bits. -/
def width (t : Target) : Nat := if t.toNat = 0 then 0 else t.toNat.log2 + 1

/-- Reads 32 bytes with the least significant byte first. -/
def ofLittleEndian (b : Bytes 32) : Target := ofNat b.toNat

/-- Reads 32 bytes with the most significant byte first. -/
def ofBigEndian (b : Bytes 32) : Target := ofLittleEndian b.reverse

def toLittleEndian (t : Target) : Bytes 32 := Bytes.ofNat 32 t.toNat

def toBigEndian (t : Target) : Bytes 32 := t.toLittleEndian.reverse

def text (t : Target) : String := Hex.encode t.toBigEndian.toList

def parse (text : String) : Except Error Target :=
  match Hex.decode (Hex.dropMarker text) with
  | .error cause => .error (.hex cause)
  | .ok bytes =>
    match Bytes.ofList? 32 bytes with
    | some b => .ok (ofBigEndian b)
    | none => .error (.length bytes.length)

end Target
end SignedChain
