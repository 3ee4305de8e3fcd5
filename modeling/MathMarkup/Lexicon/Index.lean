import MathMarkup.Lexicon.Entry
import MathMarkup.TriggerMap.Trie

/-!
# The index of a lexicon

`Index.ofEntries` checks the entries of a lexicon and arranges those that are usable for look-up
by name and by trigger. An entry that cannot be used is reported and left out; it changes nothing
about the others. An alias is reported if no entry at all has its name, but it is kept.

Among entries with one trigger, and among those with one name, later ones come first. A look-up by
trigger finds every entry whose trigger begins the tokens, those with longer triggers first.
-/

namespace MathMarkup

/-- The role of a usable entry, with what the role needs. -/
inductive Role where
  | identifier
  | function
  | prefixOp (precedence : Precedence)
  | infixOp (precedence : Precedence) (associativity : Associativity)
  | postfixOp (precedence : Precedence)
  | matchfix (close : List String)
  | environment
  deriving DecidableEq, Repr

namespace Role

/-- The kind of entry that has a role. -/
def kind : Role → Kind
  | .identifier => .identifier
  | .function => .function
  | .prefixOp _ => .prefixOp
  | .infixOp _ _ => .infixOp
  | .postfixOp _ => .postfixOp
  | .matchfix _ => .matchfix
  | .environment => .environment

/-- How tightly an operator binds. -/
def precedence? : Role → Option Precedence
  | .prefixOp p => some p
  | .infixOp p _ => some p
  | .postfixOp p => some p
  | _ => none

/-- On which side the role groups; only infix operators may group on the right. -/
def associativity : Role → Associativity
  | .infixOp _ a => a
  | _ => .left

/-- The close delimiter of a pair of delimiters. -/
def close? : Role → Option (List String)
  | .matchfix close => some close
  | _ => none

end Role

/-- A usable entry. -/
structure IndexedEntry where
  name : Option String
  trigger : List String
  role : Role
  /-- The name that the entry parses as. -/
  aliasName : Option String
  parse : Option ParseHandler
  render : Option RenderHandler
  /-- The template to render with, given or made from the trigger. -/
  template : String

namespace IndexedEntry

/-- The head of what the entry parses to: its name, else its alias, else its trigger's markup. -/
def head (e : IndexedEntry) : String :=
  (e.name <|> e.aliasName).getD (join e.trigger)

/-- How tightly an operator binds. -/
def precedence? (e : IndexedEntry) : Option Precedence :=
  e.role.precedence?

end IndexedEntry

namespace Entry

/-- The role of an entry, or what makes it unusable. -/
def role (e : Entry) : Except Warning Role :=
  let withPrecedence (role : Precedence → Role) : Except Warning Role :=
    match e.precedence with
    | some p => .ok (role p)
    | none => .error (.missingPrecedence e.kind e.label)
  let untriggered : Except Warning Role := .error (.missingTrigger e.kind e.label)
  match e.kind with
  | .identifier => if e.trigger.isEmpty && e.name.isNone then untriggered else .ok .identifier
  | .function => if e.trigger.isEmpty && e.name.isNone then untriggered else .ok .function
  | .prefixOp => if e.trigger.isEmpty then untriggered else withPrecedence .prefixOp
  | .infixOp =>
    if e.trigger.isEmpty then untriggered else withPrecedence (.infixOp · e.associativity)
  | .postfixOp => if e.trigger.isEmpty then untriggered else withPrecedence .postfixOp
  | .matchfix =>
    if e.trigger.isEmpty then untriggered
    else if e.closeTrigger.isEmpty then .error (.missingCloseTrigger e.label)
    else .ok (.matchfix e.closeTrigger)
  | .environment => if e.trigger.isEmpty then untriggered else .ok .environment

/-- The template of an entry that gives none: its trigger, with placeholders where the operands of
its kind go. -/
def defaultTemplate (e : Entry) : String :=
  let trigger := join e.trigger
  match e.kind with
  | .prefixOp => trigger ++ "#1"
  | .infixOp => "#1" ++ trigger ++ "#2"
  | .postfixOp => "#1" ++ trigger
  | .matchfix => trigger ++ "#1" ++ join e.closeTrigger
  | _ => trigger

/-- The alias of an entry. -/
def aliasName? (e : Entry) : Option String :=
  match e.parse with
  | some (.aliasOf name) => some name
  | _ => none

/-- The usable form of an entry in a role. -/
def indexed (e : Entry) (role : Role) : IndexedEntry where
  name := e.name
  trigger := e.trigger
  role := role
  aliasName := e.aliasName?
  parse := match e.parse with
    | some (.custom handler) => some handler
    | _ => none
  render := match e.render with
    | some (.custom handler) => some handler
    | _ => none
  template := match e.render with
    | some (.template template) => template
    | _ => e.defaultTemplate

end Entry

/-- Positions of entries by trigger, those with one trigger in the order of the lexicon. -/
abbrev TriggerTable := TriggerMap.TrieMap (List Nat)

namespace TriggerTable

/-- The positions under a trigger. -/
def group (t : TriggerTable) (trigger : List String) : List Nat :=
  (t.get? trigger).getD []

/-- Files a position behind those with the same trigger. An empty trigger is never filed. -/
def add (t : TriggerTable) (trigger : List String) (position : Nat) : TriggerTable :=
  if trigger.isEmpty then t else t.insert trigger (t.group trigger ++ [position])

end TriggerTable

/-- A lexicon arranged for look-up. The usable entries are stored in the order of the lexicon, and
every table files the positions of those that it is for. A name is a key of one token. -/
structure Index where
  stored : Array IndexedEntry := #[]
  /-- The position of the last entry with each name. -/
  names : TriggerMap.TrieMap Nat := {}
  symbols : TriggerTable := {}
  prefixOps : TriggerTable := {}
  infixOps : TriggerTable := {}
  postfixOps : TriggerTable := {}
  matchfixes : TriggerTable := {}
  /-- Matchfix entries by their close delimiters. -/
  closers : TriggerTable := {}
  /-- Environments by their names. -/
  blocks : TriggerTable := {}
  deriving Inhabited

namespace Index

/-- The usable entries in the order of the lexicon. -/
def entries (ix : Index) : List IndexedEntry :=
  ix.stored.toList

/-- The usable entries, the latest first. -/
def latest (ix : Index) : List IndexedEntry :=
  ix.entries.reverse

/-- The number of usable entries. -/
def size (ix : Index) : Nat :=
  ix.stored.size

/-- The entries at some positions, from the last of these to the first. -/
def entriesAt (ix : Index) (positions : List Nat) : List IndexedEntry :=
  positions.reverse.filterMap (ix.stored[·]?)

/-- The last entry with a name. -/
def byName? (ix : Index) (name : String) : Option IndexedEntry :=
  (ix.names.get? [name]).bind (ix.stored[·]?)

/-- The environments with a name, later ones first. -/
def environments (ix : Index) (name : String) : List IndexedEntry :=
  ix.entriesAt (ix.blocks.group [name])

/-- The entries of the groups that a table has for the beginnings of some tokens, each with the
length of its trigger. -/
def expand (ix : Index) (found : List (Nat × List Nat)) : List (Nat × IndexedEntry) :=
  found.flatMap fun group => (ix.entriesAt group.2).map (group.1, ·)

/-- The entries of a kind whose trigger begins the tokens. Symbols and functions share their
triggers, and environments have none. -/
def lookup (ix : Index) (kind : Kind) (tokens : List String) : List (Nat × IndexedEntry) :=
  match kind with
  | .identifier | .function => ix.expand (ix.symbols.prefixes tokens)
  | .prefixOp => ix.expand (ix.prefixOps.prefixes tokens)
  | .infixOp => ix.expand (ix.infixOps.prefixes tokens)
  | .postfixOp => ix.expand (ix.postfixOps.prefixes tokens)
  | .matchfix => ix.expand (ix.matchfixes.prefixes tokens)
  | .environment => []

/-- The length of the longest close delimiter that begins the tokens. -/
def matchClose? (ix : Index) (tokens : List String) : Option Nat :=
  (ix.closers.prefixes tokens).head?.map (·.1)

/-- Stores a usable entry behind the others, and files its position in the tables for its name and
its role. -/
def add (ix : Index) (e : IndexedEntry) : Index :=
  let position := ix.stored.size
  let ix := { ix with
    stored := ix.stored.push e
    names := match e.name with
      | some name => ix.names.insert [name] position
      | none => ix.names }
  match e.role with
  | .identifier | .function => { ix with symbols := ix.symbols.add e.trigger position }
  | .prefixOp _ => { ix with prefixOps := ix.prefixOps.add e.trigger position }
  | .infixOp _ _ => { ix with infixOps := ix.infixOps.add e.trigger position }
  | .postfixOp _ => { ix with postfixOps := ix.postfixOps.add e.trigger position }
  | .matchfix close =>
    { ix with
      matchfixes := ix.matchfixes.add e.trigger position
      closers := ix.closers.add close position }
  | .environment => { ix with blocks := ix.blocks.add [String.join e.trigger] position }

/-- What is reported about one entry of a lexicon. -/
def entryWarnings (lexicon : List Entry) (e : Entry) : List Warning :=
  match e.role with
  | .error w => [w]
  | .ok _ =>
    match e.aliasName? with
    | some name =>
      if lexicon.any (·.name == some name) then [] else [.unknownAlias (join e.trigger) name]
    | none => []

/-- The usable form of an entry, if it has one. -/
def usable? (e : Entry) : Option IndexedEntry :=
  match e.role with
  | .ok role => some (e.indexed role)
  | .error _ => none

/-- The index of a lexicon, and what is reported about it in the order of the entries. -/
def ofEntries (lexicon : List Entry) : Index × List Warning :=
  ((lexicon.filterMap usable?).foldl add {}, lexicon.flatMap (entryWarnings lexicon))

/-- The index of a lexicon for a caller who is handed batches of warnings: one with all of them, or
none if there are none. What the caller makes of a batch changes the state. -/
def register {σ : Type} (handOver : List Warning → σ → σ) (lexicon : List Entry) (s : σ) :
    Index × σ :=
  let (index, warnings) := ofEntries lexicon
  (index, if warnings.isEmpty then s else handOver warnings s)

end Index
end MathMarkup
