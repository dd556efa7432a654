/-!
# Byte strings of a fixed length

Hashes, targets and encoded points are byte strings whose length is part of
their type. `littleEndian` reads a byte string as a natural number with its
first byte least significant; `digits` writes a number back into a given number
of bytes and drops what does not fit. `digits_littleEndian` and
`littleEndian_digits` say that the two undo each other.

A number of 256 bits is also held as four words of 64 bits, least significant first.
Each word is put together from eight bytes.
-/
namespace SignedChain

-- powers of numbers are the core library's, whatever algebra a later module imports
attribute [instance (high), default_instance (high + 1)] instPowNat

/-- The number whose base-256 digits are the bytes, least significant first. -/
def littleEndian : List UInt8 → Nat
  | [] => 0
  | b :: bs => b.toNat + 256 * littleEndian bs

/-- The lowest `n` base-256 digits of a number, least significant first. -/
def digits : Nat → Nat → List UInt8
  | 0, _ => []
  | n + 1, v => UInt8.ofNat v :: digits n (v / 256)

@[simp] theorem length_digits (n v : Nat) : (digits n v).length = n := by
  induction n generalizing v with
  | zero => rfl
  | succ n ih => simp [digits, ih]

theorem digits_littleEndian (bs : List UInt8) : digits bs.length (littleEndian bs) = bs := by
  induction bs with
  | nil => rfl
  | cons b bs ih =>
    have hb : b.toNat < 256 := b.toNat_lt
    have hq : (b.toNat + 256 * littleEndian bs) / 256 = littleEndian bs := by omega
    have hr : UInt8.ofNat (b.toNat + 256 * littleEndian bs) = b := by
      apply UInt8.toNat_inj.mp
      simp only [UInt8.toNat_ofNat']
      omega
    simp only [List.length_cons, digits, littleEndian, hq, hr, ih]

theorem littleEndian_digits (n v : Nat) : littleEndian (digits n v) = v % 256 ^ n := by
  induction n generalizing v with
  | zero => simp [digits, littleEndian, Nat.mod_one]
  | succ n ih =>
    simp only [digits, littleEndian, ih, UInt8.toNat_ofNat']
    rw [Nat.pow_succ 256, Nat.mul_comm (256 ^ n) 256, Nat.mod_mul]

theorem littleEndian_lt (bs : List UInt8) : littleEndian bs < 256 ^ bs.length := by
  induction bs with
  | nil => simp [littleEndian]
  | cons b bs ih =>
    have hb : b.toNat < 256 := b.toNat_lt
    simp only [littleEndian, List.length_cons, Nat.pow_succ]
    omega

structure Bytes (n : Nat) where
  toList : List UInt8
  length_eq : toList.length = n
deriving DecidableEq, Repr, Hashable

namespace Bytes

variable {m n : Nat}

def ofList? (n : Nat) (bs : List UInt8) : Option (Bytes n) :=
  if h : bs.length = n then some ⟨bs, h⟩ else none

theorem ofList?_eq_some_iff {bs : List UInt8} {b : Bytes n} :
    ofList? n bs = some b ↔ bs = b.toList := by
  unfold ofList?
  split
  next h =>
    rw [Option.some_inj]
    constructor
    · intro hb
      rw [← hb]
    · intro hbs
      subst hbs
      rfl
  next h =>
    simp only [reduceCtorEq, false_iff]
    intro hbs
    exact h (hbs ▸ b.length_eq)

def zero (n : Nat) : Bytes n := ⟨List.replicate n 0, List.length_replicate⟩

def replicate (n : Nat) (b : UInt8) : Bytes n := ⟨List.replicate n b, List.length_replicate⟩

def reverse (b : Bytes n) : Bytes n := ⟨b.toList.reverse, by simp [b.length_eq]⟩

def append (a : Bytes m) (b : Bytes n) : Bytes (m + n) :=
  ⟨a.toList ++ b.toList, by simp [a.length_eq, b.length_eq]⟩

def isZero (b : Bytes n) : Bool := b.toList.all (· == 0)

/-- The value of the bytes, first byte least significant. -/
def toNat (b : Bytes n) : Nat := littleEndian b.toList

def ofNat (n v : Nat) : Bytes n := ⟨digits n v, length_digits n v⟩

theorem toNat_ofNat (n v : Nat) : (ofNat n v).toNat = v % 256 ^ n := littleEndian_digits n v

theorem ofNat_toNat (b : Bytes n) : ofNat n b.toNat = b := by
  obtain ⟨bs, rfl⟩ := b
  simp [ofNat, toNat, digits_littleEndian]

theorem toNat_lt (b : Bytes n) : b.toNat < 256 ^ n := by
  have h := littleEndian_lt b.toList
  rwa [b.length_eq] at h

/-- Applies a change to the last byte only. -/
def changeLast (f : UInt8 → UInt8) : List UInt8 → List UInt8
  | [] => []
  | [b] => [f b]
  | b :: c :: bs => b :: changeLast f (c :: bs)

@[simp] theorem length_changeLast (f : UInt8 → UInt8) (bs : List UInt8) :
    (changeLast f bs).length = bs.length := by
  fun_induction changeLast f bs <;> simp_all

/-- Keeps only the bits of the last byte that are set in the mask. -/
def maskLast (mask : UInt8) (b : Bytes n) : Bytes n :=
  ⟨changeLast (· &&& mask) b.toList, by simp [b.length_eq]⟩

/-- The most significant bit of the last byte. -/
def topBit (b : Bytes n) : Bool := b.toList.getLast?.any (128 ≤ ·)

def withTopBit (b : Bytes n) (flag : Bool) : Bytes n :=
  if flag then ⟨changeLast (· ||| 128) b.toList, by simp [b.length_eq]⟩ else b

end Bytes

namespace Limbs

/-- The word with these bytes, least significant first; of more than eight only the first
eight remain. -/
def word (bs : List UInt8) : UInt64 := bs.reverse.foldl (fun w b => w <<< 8 ||| b.toUInt64) 0

/-- The words of bytes taken eight at a time. A word for which no bytes are left is zero. -/
def ofBytes : (count : Nat) → List UInt8 → List UInt64
  | 0, _ => []
  | count + 1, bs => word (bs.take 8) :: ofBytes count (bs.drop 8)

def toNat : List UInt64 → Nat
  | [] => 0
  | w :: ws => w.toNat + 2 ^ 64 * toNat ws

/-- Reads 32 bytes, least significant first, as the least representative of a residue.
Numbers from the modulus on are refused. -/
def read? (modulus : Nat) (b : Bytes 32) : Option (Fin modulus) :=
  let n := toNat (ofBytes 4 b.toList)
  if h : n < modulus then some ⟨n, h⟩ else none

end Limbs
end SignedChain
