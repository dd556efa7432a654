import SignedChain.Document.Tree
import SignedChain.Text.Decimal
import SignedChain.Text.Hex

/-!
# Writing JSON

The JSON text of a tree, without blanks. Quotes, backslashes and control characters
are escaped, and all other characters stand for themselves. What JSON cannot express
is written as `null`.
-/
namespace SignedChain.Json

def quoteChar (c : Char) : List Char :=
  if c = '"' ∨ c = '\\' then ['\\', c]
  else if c.toNat < 32 then '\\' :: 'u' :: Hex.digits 4 c.toNat
  else [c]

def quote (s : String) : String := String.ofList ('"' :: s.toList.flatMap quoteChar ++ ['"'])

mutual

def write : Tree → String
  | .bool b => Decimal.ofBool b
  | .unsigned n => Decimal.ofNat n
  | .signed n => Decimal.ofInt n
  | .text s => quote s
  | .list items => "[" ++ ",".intercalate (writeItems items) ++ "]"
  | .table entries => "\x7b" ++ ",".intercalate (writeEntries entries) ++ "\x7d"
  | .null | .fraction | .moment | .unusable => "null"

def writeItems : List Tree → List String
  | [] => []
  | t :: ts => write t :: writeItems ts

def writeEntries : List (String × Tree) → List String
  | [] => []
  | (name, t) :: es => (quote name ++ ":" ++ write t) :: writeEntries es

end

end SignedChain.Json
