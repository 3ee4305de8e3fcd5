import MathMarkup.TriggerMap.Linear

/-!
# A trigger map as a trie

A trie over the characters of the written keys. Looking an input up is one walk down the trie, a
token at a time, which stops as soon as no key goes on like the input. This is the map that the
index of a lexicon uses.
-/

namespace MathMarkup.TriggerMap

/-- A row of trie nodes with different characters, each with the value of the key that ends there,
the row below it and the rest of its own row. -/
inductive Trie (α : Type) where
  | nil
  | node (char : Char) (value : Option α) (below rest : Trie α)
  deriving Inhabited

namespace Trie

/-- The row that holds one key. -/
def singleton {α : Type} (value : α) : List Char → Trie α
  | [] => .nil
  | [c] => .node c (some value) .nil .nil
  | c :: cs => .node c none (singleton value cs) .nil

/-- Sets the value of a key that is not empty. -/
def insert {α : Type} (value : α) (key : List Char) : Trie α → Trie α
  | .nil => singleton value key
  | .node d old below rest =>
    match key with
    | [] => .node d old below rest
    | c :: cs =>
      if c = d then
        match cs with
        | [] => .node d (some value) below rest
        | cs => .node d old (insert value cs below) rest
      else .node d old below (insert value (c :: cs) rest)

/-- Where a walk over some characters ends: the value there and the row below. -/
def walk? {α : Type} (key : List Char) : Trie α → Option (Option α × Trie α)
  | .nil => none
  | .node d value below rest =>
    match key with
    | [] => none
    | c :: cs =>
      if c = d then
        match cs with
        | [] => some (value, below)
        | cs => walk? cs below
      else walk? (c :: cs) rest

end Trie

/-- A trigger map as a trie, with the value of the empty key apart. -/
structure TrieMap (α : Type) where
  root : Option α := none
  row : Trie α := .nil
  deriving Inhabited

namespace TrieMap

/-- Sets the value of a key. -/
def insert {α : Type} (m : TrieMap α) (tokens : List String) (value : α) : TrieMap α :=
  match tokens with
  | [] => { m with root := some value }
  | ts => { m with row := m.row.insert value (encodeKey ts) }

/-- The value of a key. -/
def get? {α : Type} (m : TrieMap α) (tokens : List String) : Option α :=
  match tokens with
  | [] => m.root
  | ts => (m.row.walk? (encodeKey ts)).bind (·.1)

/-- The map with some entries; of equal keys the last counts. -/
def ofList {α : Type} (entries : List (List String × α)) : TrieMap α :=
  entries.foldl (fun m e => m.insert e.1 e.2) {}

/-- What a walk down from a row finds, shortest first, given how many tokens lie before. -/
def prefixesFrom {α : Type} (length : Nat) (row : Trie α) : List String → List (Nat × α)
  | [] => []
  | t :: ts =>
    match row.walk? (encodeToken t) with
    | none => []
    | some (none, below) => prefixesFrom (length + 1) below ts
    | some (some value, below) => (length + 1, value) :: prefixesFrom (length + 1) below ts

/-- The length and value of every key that begins the tokens, longest first. -/
def prefixes {α : Type} (m : TrieMap α) (tokens : List String) : List (Nat × α) :=
  let found := prefixesFrom 0 m.row tokens
  match m.root with
  | none => found.reverse
  | some value => ((0, value) :: found).reverse

end TrieMap
end MathMarkup.TriggerMap
