/-!
# Document trees

The values that configuration documents hold, whatever the format they are written
in. Integers keep the signedness with which the format reads them. Fractions are
kept apart without their value, since no setting is a fraction; a well-formed value
that cannot be represented is `unusable`, which matters only if it is asked for.
-/
namespace SignedChain

inductive Tree where
  | null
  | bool (b : Bool)
  | unsigned (n : Nat)
  | signed (n : Int)
  | fraction
  | text (s : String)
  | moment
  | list (items : List Tree)
  | table (entries : List (String × Tree))
  | unusable

namespace Tree

def text? : Tree → Option String
  | text s => some s
  | _ => none

def bool? : Tree → Option Bool
  | bool b => some b
  | _ => none

def list? : Tree → Option (List Tree)
  | list items => some items
  | _ => none

def table? : Tree → Option (List (String × Tree))
  | table entries => some entries
  | _ => none

def integer? : Tree → Option Int
  | unsigned n => some n
  | signed n => some n
  | _ => none

/-- An integer from `low` up to but not including `high`. -/
def integerIn? (low high : Int) (t : Tree) : Option Int :=
  t.integer?.filter fun n => low ≤ n && n < high

def uint8? (t : Tree) : Option UInt8 :=
  (t.integerIn? 0 (2 ^ 8)).map fun n => UInt8.ofNat n.toNat

def uint32? (t : Tree) : Option UInt32 :=
  (t.integerIn? 0 (2 ^ 32)).map fun n => UInt32.ofNat n.toNat

def int32? (t : Tree) : Option Int32 := (t.integerIn? (-2 ^ 31) (2 ^ 31)).map Int32.ofInt

def int64? (t : Tree) : Option Int64 := (t.integerIn? (-2 ^ 63) (2 ^ 63)).map Int64.ofInt

/-- How a format writes the empty payload of a named alternative. -/
structure Dialect where
  isEmptyPayload : Tree → Bool

/-- The name of an alternative: a text, or a table that maps it alone to an empty
payload. -/
def alternative? (d : Dialect) : Tree → Option String
  | text name => some name
  | table [(name, payload)] => if d.isEmptyPayload payload then some name else none
  | _ => none

/-- The entries of the given fields. A field that occurs twice is refused; entries of
other names are left out. -/
def select? (names : List String) (entries : List (String × Tree)) :
    Option (List (String × Tree)) :=
  let chosen := entries.filter fun e => names.contains e.1
  if (chosen.map (·.1)).Nodup then some chosen else none

/-- The fields of a record: a table with some of the names, or the list of the values
of the first names. -/
def record? (names : List String) : Tree → Option (List (String × Tree))
  | table entries => select? names entries
  | list items => if items.length ≤ names.length then some (names.zip items) else none
  | _ => none

end Tree
end SignedChain
