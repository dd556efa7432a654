import SignedChain.Document.Toml.Text
import SignedChain.Document.Tree

/-!
# TOML tables

What the entries and headers of a document define. A table is explicit if it has a
header or braces of its own, implied if the header of a table below it comes first,
and dotted if a dotted key makes it. An explicit table is defined once; an implied
one may still get its own header; a dotted one grows by keys of the same table only.
-/
namespace SignedChain.Toml

inductive Origin
  | explicit
  | implied
  | dotted
deriving DecidableEq

inductive Node where
  | value (t : Tree)
  | table (origin : Origin) (entries : List (String × Node))
  /-- A list of explicit tables, each with a header of its own. -/
  | tables (items : List (List (String × Node)))

structure Table where
  origin : Origin
  entries : List (String × Node)

namespace Table

def node (t : Table) : Node := .table t.origin t.entries

def empty (origin : Origin) : Table := ⟨origin, []⟩

/-- Replaces the entry of a name, or adds it at the end. -/
def put (name : String) (n : Node) : List (String × Node) → List (String × Node)
  | [] => [(name, n)]
  | e :: es => if e.1 = name then (name, n) :: es else e :: put name n es

def set (t : Table) (name : String) (n : Node) : Table := ⟨t.origin, put name n t.entries⟩

def get? (t : Table) (name : String) : Option Node := t.entries.lookup name

/-- Changes the table that a node stands for; of a list of tables, the last one. A
dotted key does not enter explicit tables. -/
def enter (dotted : Bool) (change : Table → Option Table) : Node → Option Node
  | .value _ => none
  | .table origin entries =>
    if dotted && origin == .explicit then none else (change ⟨origin, entries⟩).map node
  | .tables items => do
    let last ← items.getLast?
    return .tables (items.dropLast ++ [(← change ⟨.explicit, last⟩).entries])

/-- Changes the table at the end of a path, making the tables on the way that are absent. -/
def modify (dotted : Bool) (change : Table → Option Table) : List String → Table → Option Table
  | [], t => change t
  | name :: path, t => do
    let absent := empty (if dotted then .dotted else .implied)
    let n ← match t.get? name with
      | some n => enter dotted (modify dotted change path) n
      | none => (modify dotted change path absent).map node
    return t.set name n

def add (name : String) (n : Node) (t : Table) : Option Table :=
  if (t.get? name).isSome then none else some (t.set name n)

/-- Adds an entry with a key relative to the table. A dotted key ends in a dotted
table, and only a dotted key does. -/
def define (k : Key) (value : Tree) (t : Table) : Option Table :=
  modify true (fun t =>
    if (t.origin == .dotted) == k.path.isEmpty then none else add k.last (.value value) t) k.path t

/-- Opens an absent or implied table. -/
def openTable (k : Key) (root : Table) : Option Table :=
  modify false (fun t =>
    match t.get? k.last with
    | none => some (t.set k.last (empty .explicit).node)
    | some (.table .implied entries) => some (t.set k.last (.table .explicit entries))
    | some _ => none) k.path root

def openItem (k : Key) (root : Table) : Option Table :=
  modify false (fun t =>
    match t.get? k.last with
    | none => some (t.set k.last (.tables [[]]))
    | some (.tables items) => some (t.set k.last (.tables (items ++ [[]])))
    | some _ => none) k.path root

end Table

mutual

def Node.toTree : Node → Tree
  | .value t => t
  | .table _ entries => .table (entryTrees entries)
  | .tables items => .list (itemTrees items)

def entryTrees : List (String × Node) → List (String × Tree)
  | [] => []
  | (name, n) :: rest => (name, n.toTree) :: entryTrees rest

def itemTrees : List (List (String × Node)) → List Tree
  | [] => []
  | entries :: rest => .table (entryTrees entries) :: itemTrees rest

end

/-- The tree of a table in braces, given its entries in order. -/
def braced? (entries : List (Key × Tree)) : Option Tree := do
  let t ← entries.foldlM (fun t e => t.define e.1 e.2) (Table.empty .explicit)
  return t.node.toTree

inductive Statement where
  | entry (k : Key) (value : Tree)
  | table (k : Key)
  | item (k : Key)

/-- A document so far, and the path of the table whose header came last. -/
structure Draft where
  root : Table
  current : List String

def Draft.next (d : Draft) : Statement → Option Draft
  | .entry k value => do
    return { d with root := ← d.root.modify false (Table.define k value) d.current }
  | .table k => do return ⟨← d.root.openTable k, k.path ++ [k.last]⟩
  | .item k => do return ⟨← d.root.openItem k, k.path ++ [k.last]⟩

def document? (statements : List Statement) : Option Tree := do
  let d ← statements.foldlM Draft.next ⟨Table.empty .explicit, []⟩
  return d.root.node.toTree

end SignedChain.Toml
