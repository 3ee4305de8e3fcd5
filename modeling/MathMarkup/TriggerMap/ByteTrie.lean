import MathMarkup.TriggerMap.Linear

/-!
# A trigger map over any trie of bytes

A trigger map asks little of a trie: to be made from keys with values, to give the value of a key,
to give the part whose keys begin in some way, and to say whether anything is left in it. `ByteTrie`
is what a trie over bytes offers, and the walk below uses nothing else. It goes down a token at a
time and stops as soon as no key goes on like the input.
-/

namespace MathMarkup.TriggerMap

/-- The operations of a trie whose keys are bytes. -/
structure ByteTrie (α : Type) where
  Carrier : Type
  /-- The trie with some keys and their values. -/
  collect : List (List UInt8 × α) → Carrier
  /-- The value of a key. -/
  get? : Carrier → List UInt8 → Option α
  /-- The part of the trie whose keys begin with some bytes. The keys stay whole. -/
  subtrie : Carrier → List UInt8 → Carrier
  isEmpty : Carrier → Bool

/-- The bytes of a text. -/
def bytes (text : String) : List UInt8 :=
  text.toByteArray.data.toList

namespace ByteTrie

variable {α : Type}

/-- The map with some entries, under their written keys. -/
def ofList (T : ByteTrie α) (entries : List (List String × α)) : T.Carrier :=
  T.collect (entries.map fun e => (bytes (String.ofList (encodeKey e.1)), e.2))

/-- What a walk finds below a part of the trie, shortest first, given the written key of the tokens
before and how many they are. -/
def walk (T : ByteTrie α) (part : T.Carrier) (key : String) (length : Nat) :
    List String → List (Nat × α)
  | [] => []
  | t :: ts =>
    let key := key ++ String.ofList (encodeToken t)
    let part := T.subtrie part (bytes key)
    if T.isEmpty part then []
    else
      match T.get? part (bytes key) with
      | some value => (length + 1, value) :: T.walk part key (length + 1) ts
      | none => T.walk part key (length + 1) ts

/-- The length and value of every key that begins the tokens, longest first. -/
def prefixes (T : ByteTrie α) (m : T.Carrier) (tokens : List String) : List (Nat × α) :=
  let whole := T.subtrie m []
  let found := T.walk whole "" 0 tokens
  match T.get? whole [] with
  | some value => ((0, value) :: found).reverse
  | none => found.reverse

end ByteTrie
end MathMarkup.TriggerMap
