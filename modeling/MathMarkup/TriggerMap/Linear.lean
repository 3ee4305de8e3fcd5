/-!
# Trigger maps as sorted lists

A trigger map is keyed by token sequences. The plainest of the trigger maps keeps all entries in one
list, longer keys before shorter ones and equal keys once, so the keys that begin an input are found
in the right order by checking every one. It says what the other maps have to answer.

The other maps look a sequence up as one run of characters (`encodeKey`), in which every token
stands behind its length in bytes and a colon, so that two sequences that merely concatenate to the
same text stay apart: one token `ab` is `2:ab`, and two tokens are `1:a1:b`.
-/

namespace MathMarkup.TriggerMap

/-! ## Written keys -/

/-- One token of a key. -/
def encodeToken (token : String) : List Char :=
  (toString token.utf8ByteSize).toList ++ ':' :: token.toList

/-- A whole key. -/
def encodeKey (tokens : List String) : List Char :=
  tokens.flatMap encodeToken

theorem encodeKey_cons (t : String) (ts : List String) :
    encodeKey (t :: ts) = encodeToken t ++ encodeKey ts := by
  simp [encodeKey]

theorem encodeToken_ne_nil (t : String) : encodeToken t ≠ [] := by
  simp [encodeToken]

/-! ## Sorted lists -/

/-- Of neighbours with equal keys, keeps the last. -/
def dropShadowed {κ α : Type} [DecidableEq κ] : List (κ × α) → List (κ × α)
  | a :: b :: rest =>
    if a.1 = b.1 then dropShadowed (b :: rest) else a :: dropShadowed (b :: rest)
  | rest => rest

/-- Longer keys come first, and keys of one length in the order of their tokens. -/
def comesBefore {α : Type} (a b : List String × α) : Bool :=
  if a.1.length = b.1.length then !decide (b.1 < a.1) else b.1.length < a.1.length

/-- A trigger map as a list, each key once. -/
structure LinearMap (α : Type) where
  entries : List (List String × α)

namespace LinearMap

/-- The map with some entries; of equal keys the last counts. The sort is stable, so it stays
last. -/
def ofList {α : Type} (entries : List (List String × α)) : LinearMap α :=
  ⟨dropShadowed (entries.mergeSort comesBefore)⟩

/-- The length of the longest key, which comes first. -/
def longest {α : Type} (m : LinearMap α) : Nat :=
  m.entries.head?.elim 0 (·.1.length)

/-- The length and value of every key that begins the tokens, longest first. No more tokens are
looked at than the longest key has. -/
def prefixes {α : Type} (m : LinearMap α) (tokens : List String) : List (Nat × α) :=
  let tokens := tokens.take m.longest
  (m.entries.filter fun e => e.1.isPrefixOf tokens).map fun e => (e.1.length, e.2)

end LinearMap
end MathMarkup.TriggerMap
