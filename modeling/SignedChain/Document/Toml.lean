import SignedChain.Document.Toml.Scalar
import SignedChain.Document.Toml.Table

/-!
# TOML documents

The grammar of TOML 1.0 above the level of single values: lists, tables in braces,
and the lines of a document.
-/
namespace SignedChain.Toml

open Scan

/-- Drops blanks, newlines and comments. Where a comment holds a character that it
must not hold, that character is left. -/
def dropGap (inComment : Bool) : List Char → List Char
  | '\n' :: rest => dropGap false rest
  | '\r' :: '\n' :: rest => dropGap false rest
  | c :: rest =>
    if inComment && isPrintable c then dropGap true rest
    else if !inComment && isBlank c then dropGap false rest
    else if !inComment && c == '#' then dropGap true rest
    else c :: rest
  | [] => []

def gap : Scan Unit := fun cs => some ((), dropGap false cs)

/-- The end of a line, or of the document, after blanks and perhaps a comment. -/
def lineEnd : Scan Unit := do
  let _ ← many isBlank
  if (← peek?) == some '#' then
    let _ ← many isPrintable
  if (← peek?).isSome then newline

mutual

/-- A value inside `depth` lists and tables. -/
def value : (fuel depth : Nat) → Scan Tree
  | 0, _ => failure
  | fuel + 1, depth => do
    match ← peek? with
    | some '"' => return .text (← text '"')
    | some '\'' => return .text (← text '\'')
    | some '[' =>
      guard (depth + 1 < maxDepth)
      char '['
      return .list (← items fuel (depth + 1))
    | some '\x7b' =>
      guard (depth + 1 < maxDepth)
      char '\x7b'
      let entries ← (members fuel (depth + 1) <|> do
        let _ ← many isBlank
        char '\x7d'
        return [])
      (braced? entries : Option Tree)
    | _ => scalar

/-- The items of a list up to its end, each after a gap. -/
def items : (fuel depth : Nat) → Scan (List Tree)
  | 0, _ => failure
  | fuel + 1, depth => do
    gap
    if (← peek?) == some ']' then
      char ']'
      return []
    let item ← value fuel depth
    gap
    if (← peek?) == some ',' then
      char ','
      return item :: (← items fuel depth)
    char ']'
    return [item]

def members : (fuel depth : Nat) → Scan (List (Key × Tree))
  | 0, _ => failure
  | fuel + 1, depth => do
    let k ← key
    char '='
    let _ ← many isBlank
    let t ← value fuel depth
    let _ ← many isBlank
    if (← peek?) == some ',' then
      char ','
      return (k, t) :: (← members fuel depth)
    char '\x7d'
    return [(k, t)]

end

def entry (fuel : Nat) : Scan Statement := do
  let k ← key
  char '='
  let _ ← many isBlank
  let t ← value fuel 0
  lineEnd
  return .entry k t

def header : Scan Statement := do
  char '['
  (do
    char '['
    let k ← key
    Scan.text "]]"
    lineEnd
    return .item k) <|> do
    let k ← key
    char ']'
    lineEnd
    return .table k

def statements : (fuel : Nat) → Scan (List Statement)
  | 0 => failure
  | fuel + 1 => do
    let _ ← many isBlank
    match ← peek? with
    | none => return []
    | some '[' =>
      let s ← header
      return s :: (← statements fuel)
    | some '#' | some '\n' | some '\r' =>
      lineEnd
      statements fuel
    | some _ =>
      let s ← entry fuel
      return s :: (← statements fuel)

/-- The tree of a document, which may begin with a byte order mark. -/
def read? (text : String) : Option Tree := do
  let content := match text.toList with
    | '\ufeff' :: rest => rest
    | cs => cs
  document? (← (statements (2 * content.length + 2)).run? content)

/-- TOML writes an empty payload as an empty table or list. -/
def dialect : Tree.Dialect := ⟨fun
  | .table [] | .list [] => true
  | _ => false⟩

end SignedChain.Toml
