import SignedChain.Document.JsonToken

/-!
# JSON documents

Reading JSON text as a tree. Lists and tables nest to a limited depth; deeper ones
are well formed but unusable, and so is every list or table inside the outermost
one that holds something unusable. The same name may occur more than once in a table.
-/
namespace SignedChain.Json

/-- The number of levels that a usable list or table may be nested inside. -/
def maxDepth : Nat := 127

/-- A container at a depth, given that its parts are usable or not. -/
def container (depth : Nat) (usable : Bool) (t : Tree) : Tree :=
  if maxDepth ≤ depth || (depth ≠ 0 && !usable) then .unusable else t

def isUsable : Tree → Bool
  | .unusable => false
  | _ => true

mutual

/-- A value inside `depth` lists and tables. -/
def value : (fuel : Nat) → (depth : Nat) → List Token → Option (Tree × List Token)
  | 0, _, _ => none
  | fuel + 1, depth, ts =>
    match ts with
    | .scalar t :: rest => some (t, rest)
    | .text (some s) :: rest => some (.text s, rest)
    | .text none :: rest => some (.unusable, rest)
    | .openList :: .closeList :: rest => some (container depth true (.list []), rest)
    | .openList :: rest => do
      let (items, rest) ← items fuel (depth + 1) rest
      return (container depth (items.all isUsable) (.list items), rest)
    | .openTable :: .closeTable :: rest => some (container depth true (.table []), rest)
    | .openTable :: rest => do
      let (entries, rest) ← members fuel (depth + 1) rest
      match entries.mapM fun e => e.1.map (·, e.2) with
      | some named =>
        return (container depth (named.all (isUsable ·.2)) (.table named), rest)
      | none => return (.unusable, rest)
    | _ => none

def items : (fuel : Nat) → (depth : Nat) → List Token → Option (List Tree × List Token)
  | 0, _, _ => none
  | fuel + 1, depth, ts => do
    let (item, rest) ← value fuel depth ts
    match rest with
    | .closeList :: rest => return ([item], rest)
    | .comma :: rest =>
      let (more, rest) ← items fuel depth rest
      return (item :: more, rest)
    | _ => none

def members : (fuel : Nat) → (depth : Nat) → List Token →
    Option (List (Option String × Tree) × List Token)
  | 0, _, _ => none
  | fuel + 1, depth, ts =>
    match ts with
    | .text name :: .colon :: rest => do
      let (t, rest) ← value fuel depth rest
      match rest with
      | .closeTable :: rest => return ([(name, t)], rest)
      | .comma :: rest =>
        let (more, rest) ← members fuel depth rest
        return ((name, t) :: more, rest)
      | _ => none
    | _ => none

end

def read? (text : String) : Option Tree := do
  let ts ← tokens text.toList
  match ← value (2 * ts.length + 1) 0 ts with
  | (t, []) => some t
  | _ => none

/-- JSON writes an empty payload as `null`. -/
def dialect : Tree.Dialect := ⟨fun
  | .null => true
  | _ => false⟩

end SignedChain.Json
