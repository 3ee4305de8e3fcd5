import Std.Data.HashMap
import MathMarkup.TriggerMap.Linear

/-!
# A trigger map in buckets

One hash map for each key length. An input is looked up once for every length that some key has,
however many keys there are.
-/

namespace MathMarkup.TriggerMap

/-- A trigger map as one hash map for each key length, from length zero on. -/
structure BucketMap (α : Type) where
  buckets : List (Std.HashMap String α)

namespace BucketMap

/-- Sets a value in the bucket for a length, with empty buckets up to it. -/
def insertAt {α : Type} (key : String) (value : α) :
    Nat → List (Std.HashMap String α) → List (Std.HashMap String α)
  | 0, [] => [(∅ : Std.HashMap String α).insert key value]
  | 0, b :: bs => b.insert key value :: bs
  | n + 1, [] => ∅ :: insertAt key value n []
  | n + 1, b :: bs => b :: insertAt key value n bs

/-- Sets the value of a key. -/
def insert {α : Type} (m : BucketMap α) (tokens : List String) (value : α) : BucketMap α :=
  ⟨insertAt (String.ofList (encodeKey tokens)) value tokens.length m.buckets⟩

/-- The map with some entries; of equal keys the last counts. -/
def ofList {α : Type} (entries : List (List String × α)) : BucketMap α :=
  entries.foldl (fun m e => m.insert e.1 e.2) ⟨[]⟩

/-- What the buckets from some length on hold for the beginnings of an input, shortest first. The
key of the tokens before is given in reverse. -/
def prefixesFrom {α : Type} (length : Nat) (revKey : List Char) :
    List (Std.HashMap String α) → List String → List (Nat × α)
  | [], _ => []
  | b :: bs, tokens =>
    let found := match b[String.ofList revKey.reverse]? with
      | some value => [(length, value)]
      | none => []
    match tokens with
    | [] => found
    | t :: ts => found ++ prefixesFrom (length + 1) ((encodeToken t).reverse ++ revKey) bs ts

/-- The length and value of every key that begins the tokens, longest first. -/
def prefixes {α : Type} (m : BucketMap α) (tokens : List String) : List (Nat × α) :=
  (prefixesFrom 0 [] m.buckets tokens).reverse

end BucketMap
end MathMarkup.TriggerMap
