import SignedChain.Text.Hex

/-!
# TOML texts and keys

A text is quoted by one mark or by three, and only double quotes allow escapes.
Between triple quotes a text may span lines, a newline right after the opening is
dropped, one or two marks stand for themselves, and a backslash at the end of a line
joins it with the next word. A key is a dotted list of names.

A scan reads a value from the front of a list of characters and leaves the rest, or
refuses. The alternative to a refused scan begins where that one began.
-/
namespace SignedChain

abbrev Scan (α : Type) := StateT (List Char) Option α

namespace Scan

variable {α : Type}

/-- The next character, which stays where it is. -/
def peek? : Scan (Option Char) := fun cs => some (cs.head?, cs)

def char (c : Char) : Scan Unit
  | d :: rest => if d = c then some ((), rest) else none
  | [] => none

def text (s : String) : Scan Unit := s.toList.forM char

def one (p : Char → Bool) : Scan Char
  | c :: rest => if p c then some (c, rest) else none
  | [] => none

/-- All characters up to the first without the property. -/
def many (p : Char → Bool) : Scan (List Char) := fun cs => some (cs.takeWhile p, cs.dropWhile p)

def run? (s : Scan α) (cs : List Char) : Option α :=
  match s cs with
  | some (a, []) => some a
  | _ => none

end Scan

namespace Toml

def isBlank (c : Char) : Bool := c == ' ' || c == '\t'

/-- The characters that may stand in a comment or between quotes. -/
def isPrintable (c : Char) : Bool := c == '\t' || (32 ≤ c.toNat && c.toNat ≠ 127)

/-- The rest after a newline, with or without a carriage return. -/
def afterNewline? : List Char → Option (List Char)
  | '\n' :: rest => some rest
  | '\r' :: '\n' :: rest => some rest
  | _ => none

def newline : Scan Unit := fun cs => (afterNewline? cs).map ((), ·)

def dropSpace : List Char → List Char
  | '\r' :: '\n' :: rest => dropSpace rest
  | c :: rest => if isBlank c || c == '\n' then dropSpace rest else c :: rest
  | [] => []

structure Quote where
  mark : Char
  spansLines : Bool

def Quote.allowsEscapes (q : Quote) : Bool := q.mark == '"'

/-- The character that hexadecimal digits number, if there is one. -/
def numbered? (digits : List Char) : Option Char := do
  let n ← Hex.number? digits
  if n < 0xd800 ∨ (0xdfff < n ∧ n < 0x110000) then some (Char.ofNat n) else none

def escape? : Char → Option Char
  | '"' => some '"'
  | '\\' => some '\\'
  | 'b' => some '\x08'
  | 'f' => some '\x0c'
  | 'n' => some '\n'
  | 'r' => some '\r'
  | 't' => some '\t'
  | _ => none

def escaped : List Char → Option (Char × List Char)
  | 'u' :: rest => do
    let digits := rest.take 4
    if digits.length < 4 then none else return (← numbered? digits, rest.drop 4)
  | 'U' :: rest => do
    let digits := rest.take 8
    if digits.length < 8 then none else return (← numbered? digits, rest.drop 8)
  | c :: rest => (escape? c).map (·, rest)
  | [] => none

/-- The number of marks of a run of three or more that still belong to the text. -/
def closingMarks (run : Nat) : Nat := min (run - 3) 2

/-- Some characters of a text, or its end. -/
structure Piece where
  content : List Char
  closes : Bool

def piece (q : Quote) (cs : List Char) : Option (Piece × List Char) :=
  match cs with
  | [] => none
  | c :: rest =>
    if c = q.mark then
      let run := (cs.takeWhile (· == q.mark)).length
      let kept := closingMarks run
      if !q.spansLines then some (⟨[], true⟩, rest)
      else if run < 3 then some (⟨List.replicate run c, false⟩, cs.drop run)
      else some (⟨List.replicate kept c, true⟩, cs.drop (kept + 3))
    else if q.allowsEscapes && c == '\\' then
      if q.spansLines && (afterNewline? (rest.dropWhile isBlank)).isSome then
        some (⟨[], false⟩, dropSpace rest)
      else (escaped rest).map fun p => (⟨[p.1], false⟩, p.2)
    else if isPrintable c then some (⟨[c], false⟩, rest)
    else if q.spansLines then (afterNewline? cs).map (⟨['\n'], false⟩, ·)
    else none

def body (q : Quote) : (fuel : Nat) → List Char → Option (List Char × List Char)
  | 0, _ => none
  | fuel + 1, cs => do
    let (p, rest) ← piece q cs
    if p.closes then return (p.content, rest)
    else
      let (more, rest) ← body q fuel rest
      return (p.content ++ more, rest)

/-- What follows the opening quote. Every piece has at least one character. -/
def quoted (q : Quote) : Scan String := fun cs =>
  let cs := if q.spansLines then (afterNewline? cs).getD cs else cs
  (body q cs.length cs).map fun p => (String.ofList p.1, p.2)

def lineText (mark : Char) : Scan String := do
  Scan.char mark
  quoted ⟨mark, false⟩

def text (mark : Char) : Scan String :=
  (do
    [mark, mark, mark].forM Scan.char
    quoted ⟨mark, true⟩) <|> lineText mark

def isBare (c : Char) : Bool := c.isAlphanum || c == '-' || c == '_'

def name : Scan String := do
  match ← Scan.peek? with
  | some '"' => lineText '"'
  | some '\'' => lineText '\''
  | _ =>
    let cs ← Scan.many isBare
    guard (!cs.isEmpty)
    return String.ofList cs

/-- Keys of this many names are refused, and so are values nested as deeply. -/
def maxDepth : Nat := 80

def moreNames : (fuel : Nat) → Scan (List String)
  | 0 => pure []
  | fuel + 1 => do
    match ← Scan.peek? with
    | some '.' =>
      Scan.char '.'
      let _ ← Scan.many isBlank
      let first ← name
      let _ ← Scan.many isBlank
      return first :: (← moreNames fuel)
    | _ => return []

/-- A key: the names that lead to a table, and the name of an entry there. -/
structure Key where
  path : List String
  last : String

/-- A key with the blanks around it. -/
def key : Scan Key := do
  let _ ← Scan.many isBlank
  let first ← name
  let _ ← Scan.many isBlank
  let more ← moreNames maxDepth
  guard (more.length + 1 < maxDepth)
  let names := first :: more
  return ⟨names.dropLast, more.getLast?.getD first⟩

end Toml
end SignedChain
