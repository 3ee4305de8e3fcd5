import MathMarkup.Proofs.Bare
import MathMarkup.Proofs.WireRoundTrip

/-!
# Where names come from

Each symbol name and each head in a parse is one of the parser's own, or it is one that the lexicon
gives (`Index.NamedBy`), or it is read off the tokens at some place (`Parser.Traced`):
`Parser.Calls` says what the tokens from there on may call a symbol or a function. Nothing in a
parse is a table or annotated (`Expr.Made`).

A reading that follows the rules of a parse goes from one state of the buffer to another where at
most numbers are cut (`Parser.Follows`), so every place that it comes to is a place of the tokens at
the start. With that each reader gets the names in what it gives from the readers inside of it, and
the one place where a name comes from the markup is `Parser.namedSymbol`.
-/

namespace MathMarkup

/-! ## The names in an expression -/

namespace Expr

/-- Every symbol name and every head in the expression has a property. -/
inductive Names (P : String → Prop) : Expr → Prop where
  | number (text : String) : Names P (.number text)
  | string (value : String) : Names P (.string value)
  | symbol {name : String} (h : P name) : Names P (.symbol name)
  | apply {head : String} {operands : List Expr} (hh : P head) (ho : ∀ o ∈ operands, Names P o) :
      Names P (.apply head operands)
  | table {entries : List (String × Expr)} (h : ∀ a ∈ entries, Names P a.2) :
      Names P (.table entries)
  | annotated (markup : String) {e : Expr} (h : Names P e) : Names P (.annotated markup e)

/-- The expression is made of atoms and applications, and every symbol name and every head in it has
a property. -/
inductive Made (P : String → Prop) : Expr → Prop where
  | number (text : String) : Made P (.number text)
  | string (value : String) : Made P (.string value)
  | symbol {name : String} (h : P name) : Made P (.symbol name)
  | apply {head : String} {operands : List Expr} (hh : P head) (ho : ∀ o ∈ operands, Made P o) :
      Made P (.apply head operands)

/-- What was read, if anything, is made with names that have a property. -/
def MadeIfAny (P : String → Prop) (o : Option Expr) : Prop :=
  ∀ e ∈ o, e.Made P

variable {P Q : String → Prop}

/-- In an expression made of atoms and applications, the names are those of the making. -/
theorem Made.names {e : Expr} (h : e.Made P) : e.Names P := by
  induction h with
  | number text => exact .number text
  | string value => exact .string value
  | symbol h => exact .symbol h
  | apply hh _ ih => exact .apply hh ih

/-- A weaker property holds of the names too. -/
theorem Names.mono {e : Expr} (h : e.Names P) (hPQ : ∀ name, P name → Q name) : e.Names Q := by
  induction h with
  | number text => exact .number text
  | string value => exact .string value
  | symbol h => exact .symbol (hPQ _ h)
  | apply hh _ ih => exact .apply (hPQ _ hh) ih
  | table _ ih => exact .table ih
  | annotated markup _ ih => exact .annotated markup ih

/-- Nothing is annotated. -/
theorem Made.strip_eq {e : Expr} (h : e.Made P) : e.strip = e := by
  cases h <;> rfl

/-- The operands of what is made are made. -/
theorem Made.operands {e : Expr} (h : e.Made P) : ∀ o ∈ e.operands, o.Made P := by
  cases h with
  | apply _ ho => exact ho
  | _ => exact fun _ ho => absurd ho List.not_mem_nil

/-- The operands that a read expression is spread into are made. -/
theorem Made.splat {o : Option Expr} (h : MadeIfAny P o) : ∀ e ∈ Expr.splat o, e.Made P := by
  cases o with
  | none => exact fun _ he => absurd he List.not_mem_nil
  | some body =>
    have hbody := h body rfl
    unfold Expr.splat
    dsimp only
    rw [hbody.strip_eq]
    split
    · split
      · exact hbody.operands
      · exact fun _ he => List.mem_singleton.1 he ▸ hbody
    · exact fun _ he => List.mem_singleton.1 he ▸ hbody

theorem madeIfAny_none : MadeIfAny P none :=
  fun _ h => absurd h (by simp)

theorem madeIfAny_some {e : Expr} (h : e.Made P) : MadeIfAny P (some e) :=
  fun _ ha => Option.some.inj ha ▸ h

theorem made_nil : ∀ e ∈ ([] : List Expr), e.Made P :=
  fun _ h => absurd h List.not_mem_nil

/-- One more operand that is made. -/
theorem made_cons {e : Expr} {es : List Expr} (h : e.Made P) (hs : ∀ o ∈ es, o.Made P) :
    ∀ o ∈ e :: es, o.Made P :=
  List.forall_mem_cons.2 ⟨h, hs⟩

theorem made_singleton {e : Expr} (h : e.Made P) : ∀ o ∈ [e], o.Made P :=
  made_cons h made_nil

/-- One more operand that is made, at the end. -/
theorem made_concat {e : Expr} {es : List Expr} (hs : ∀ o ∈ es, o.Made P) (h : e.Made P) :
    ∀ o ∈ es ++ [e], o.Made P := by
  intro o ho
  rcases List.mem_append.1 ho with ho | ho
  · exact hs o ho
  · exact made_singleton h o ho

end Expr

/-! ## The places of a parse -/

/-- The tokens from some place on, where numbers may have been cut. -/
def Token.Place (start here : List Token) : Prop :=
  ∃ ts, Token.Splits start ts ∧ here <:+ ts

namespace Parser

open MathMarkup.Expr MathMarkup.Reading

/-- What the name at the front of some tokens may become: a symbol, or the head of a function if it
is upright and a parenthesis comes after it. -/
inductive Calls (here : List Token) : String → Prop where
  | symbol {name : String} {length : Nat} (h : Name.identifier? here = some (name, length)) :
      Calls here name
  | function {name : String} {length : Nat} (h : Name.identifier? here = some (name, length))
      (hu : here.head?.any (fun t => Name.isUpright t.raw) = true)
      (hp : (Token.raws (here.drop length)).head? = some "(") : Calls here (functionName name)

/-- The heads that the parser applies of its own accord. -/
def ownHeads : List String :=
  ["Sequence", "Multiply", "List", "Error", "ErrorCode", "Latex"]

/-- The name is one of the parser's own or one that is known, or it is read off the tokens at some
place. -/
inductive Traced (known : String → Prop) (start : List Token) (name : String) : Prop where
  | own (h : name ∈ ownHeads)
  | known (h : known name)
  | read {here : List Token} (hp : Token.Place start here) (hc : Calls here name)

end Parser

/-- The expression is made with names that are known or read off the tokens. -/
abbrev Expr.Named (known : String → Prop) (start : List Token) (e : Expr) : Prop :=
  e.Made (Parser.Traced known start)

/-- What was read, if anything, is made with names that are known or read off the tokens. -/
abbrev Expr.NamedIfAny (known : String → Prop) (start : List Token) (o : Option Expr) : Prop :=
  Expr.MadeIfAny (Parser.Traced known start) o

namespace Parser

open MathMarkup.Expr MathMarkup.Reading

variable {α β : Type} {n : Nat} {start : List Token} {P : α → Prop} {Q : β → Prop}

/-- Where the buffer is made of the tokens at the start, the reading follows the rules of a parse
and gives a value of some sort. -/
def Yields (n : Nat) (start : List Token) (P : α → Prop) (r : Reading α) : Prop :=
  ∀ p : Parser, p.AtLevel n → Token.Splits start p.tokens → Follows p (r p).2 ∧ P (r p).1

/-- A reading that conserves yields what it gives wherever it starts. -/
theorem yields_of_conserves {r : Reading α} (hc : Conserves n r) (h : Gives P r) :
    Yields n start P r :=
  fun p hp _ => ⟨hc p hp, h p⟩

/-- A value of the sort is yielded without reading. -/
theorem yields_pure {a : α} (h : P a) : Yields n start P (pure a) :=
  yields_of_conserves (conserves_pure a) (gives_pure h)

/-- Readings in a row yield what the last one does, for every value of the first. -/
theorem yields_bind {r : Reading α} {f : α → Reading β} (hr : Yields n start P r)
    (hf : ∀ a, P a → Yields n start Q (f a)) : Yields n start Q (r >>= f) := by
  intro p hp hs
  obtain ⟨hfollows, ha⟩ := hr p hp hs
  obtain ⟨hthen, hb⟩ := hf _ ha (r p).2 (hfollows.atLevel hp)
    (Relation.ReflTransGen.trans hs hfollows.splits)
  exact ⟨hfollows.trans hthen, hb⟩

/-- After a reading whose value is not used, what comes next yields. -/
theorem yields_after {r : Reading α} {f : α → Reading β} (hr : Conserves n r)
    (hf : ∀ a, Yields n start Q (f a)) : Yields n start Q (r >>= f) :=
  yields_bind (yields_of_conserves (P := fun _ => True) hr fun _ => trivial) fun a _ => hf a

/-- A reading that is taken back when it fails yields nothing then. -/
theorem yields_rewinding {Q : Option β → Prop} {step : Reading (Option β)} (hn : Q none)
    (h : Yields n start Q step) : Yields n start Q (rewinding step) := by
  refine yields_after conserves_index fun i => yields_bind h fun o ho => ?_
  cases o with
  | some b => exact yields_pure ho
  | none => exact yields_after (conserves_seek i) fun _ => yields_pure hn

/-- The first alternative that works out yields what it does. -/
theorem yields_firstOf {Q : Option β → Prop} {alternative : α → Reading (Option β)} {as : List α}
    (hn : Q none) (h : ∀ a ∈ as, Yields n start Q (alternative a)) :
    Yields n start Q (firstOf alternative as) := by
  induction as with
  | nil => exact yields_pure hn
  | cons a as ih =>
    refine yields_bind (h a List.mem_cons_self) fun o ho => ?_
    cases o with
    | some b => exact yields_pure ho
    | none => exact ih fun x hx => h x (List.mem_cons_of_mem _ hx)

/-- A loop gives what each round keeps. -/
theorem yields_loop {round : α → Reading (α × Bool)}
    (h : ∀ a, P a → Yields n start (fun r => P r.1) (round a)) {a : α} (ha : P a) :
    Yields n start P (loop round a) := by
  intro p hp hs
  induction a, p using loop_induction round with
  | last a p b again q heq hloop =>
    have hround := h a ha p hp hs
    rw [heq] at hround
    rw [hloop]
    exact hround
  | again a p b q heq hloop ih =>
    obtain ⟨hf, hb⟩ := h a ha p hp hs
    rw [heq] at hf hb
    rw [hloop]
    obtain ⟨hthen, hend⟩ := ih hb (hf.atLevel hp) (Relation.ReflTransGen.trans hs hf.splits)
    exact ⟨hf.trans hthen, hend⟩

end Parser

/-- The readers inside give expressions with names of some sort. -/
structure Nested.Yields (known : String → Prop) (n : Nat) (start : List Token) (inner : Nested) :
    Prop where
  conserves : inner.Conserves n
  expression : ∀ p, Parser.Yields n start (Expr.NamedIfAny known start) (inner.expression p)
  primary : ∀ p, Parser.Yields n start (Expr.NamedIfAny known start) (inner.primary p)

namespace Parser

open MathMarkup.Expr MathMarkup.Reading

variable {known : String → Prop} {ix : Index} {inner : Nested} {n : Nat} {start : List Token}

/-! ## Errors and groups -/

/-- An application of a known head to named operands. -/
theorem named_apply {head : String} {operands : List Expr} (hk : known head)
    (ho : ∀ o ∈ operands, o.Named known start) : (Expr.apply head operands).Named known start :=
  .apply (.known hk) ho

/-- An application of one of the parser's own heads. -/
theorem named_own {head : String} {operands : List Expr} (hh : head ∈ ownHeads)
    (ho : ∀ o ∈ operands, o.Named known start) : (Expr.apply head operands).Named known start :=
  .apply (.own hh) ho

/-- An error is applied by the parser, and its texts are no names. -/
theorem names_error (code : ErrorCode) (arg : Option String) (markup : String) :
    (Expr.error code arg markup).Named known start := by
  have hcontext : ∀ e ∈ if markup.isEmpty then [] else [Expr.apply "Latex" [.string markup]],
      e.Named known start := by
    split
    · exact made_nil
    · exact made_singleton (named_own (by decide) (made_singleton (.string _)))
  have happly : ∀ {what : Expr}, what.Named known start → (Expr.apply "Error" (what ::
      if markup.isEmpty then [] else [.apply "Latex" [.string markup]])).Named known start :=
    fun hwhat => named_own (by decide) (made_cons hwhat hcontext)
  cases arg with
  | some arg =>
    exact happly (named_own (by decide) (made_cons (.string _) (made_singleton (.string _))))
  | none => exact happly (.string _)

/-- A sequence is applied by the parser, unless it is its one member. -/
theorem names_sequence {es : List Expr} (h : ∀ e ∈ es, e.Named known start) :
    (Expr.sequence es).Named known start :=
  named_own (by decide) h

/-- What was read, or something named in its place. -/
theorem names_getD {o : Option Expr} (h : NamedIfAny known start o) {e : Expr}
    (he : e.Named known start) : (o.getD e).Named known start := by
  cases o with
  | none => exact he
  | some e => exact h e rfl

theorem names_missing : Expr.missing.Named known start :=
  names_error _ _ _

theorem names_orMissing {o : Option Expr} (h : NamedIfAny known start o) :
    (o.getD Expr.missing).Named known start :=
  names_getD h names_missing

theorem names_orEmpty {o : Option Expr} (h : NamedIfAny known start o) :
    (o.getD (Expr.sequence [])).Named known start :=
  names_getD h (names_sequence made_nil)

/-- An error behind what was read goes into a sequence or beside the errors already there. -/
theorem names_appendError {lhs : Option Expr} {error : Expr}
    (hl : NamedIfAny known start lhs) (he : error.Named known start) :
    (appendError lhs error).Named known start := by
  cases lhs with
  | none => exact he
  | some e =>
    have hleft := hl e rfl
    show (if isErroredSequence e then pushOperand e error else .sequence [e, error]).Made _
    split
    · cases hleft with
      | apply hh ho => exact .apply hh (made_concat ho he)
      | _ => exact hl _ rfl
    · exact names_sequence (made_cons hleft (made_singleton he))

/-- An error is named wherever it is raised. -/
theorem yields_error (code : ErrorCode) (arg : Option String) (i : Nat) :
    Yields n start (Named known start) (Reading.error code arg i) :=
  yields_of_conserves (conserves_error _ _ _) fun _ => names_error _ _ _

theorem yields_some {r : Reading Expr} (h : Yields n start (Named known start) r) :
    Yields n start (NamedIfAny known start) (r >>= fun e => pure (some e)) :=
  yields_bind h fun _ he => yields_pure (madeIfAny_some he)

/-- What a group skips becomes an error around its body. -/
theorem yields_skipToCloseGroup (i : Nat) {body : Option Expr}
    (hb : NamedIfAny known start body) :
    Yields n start (Named known start) (skipToCloseGroup i body) := by
  refine yields_after conserves_get fun p => yields_after (conserves_advance _) fun _ => ?_
  split
  · exact yields_pure (names_appendError hb (names_error _ _ _))
  · exact yields_bind (yields_error _ _ _) fun e he => yields_pure (names_appendError hb he)

/-- A group in braces yields the names of its body. -/
theorem yields_braceGroup (hi : inner.Yields known n start) :
    Yields n start (Named known start) (braceGroup inner) := by
  refine yields_after conserves_index fun i => yields_after (conserves_advance 1) fun _ => ?_
  refine yields_after conserves_matchCloseGroup fun closed => ?_
  split
  · exact yields_pure (names_sequence made_nil)
  · refine yields_bind (hi.expression _) fun body hb => ?_
    refine yields_after conserves_matchCloseGroup fun closed => ?_
    split
    · exact yields_pure (names_orEmpty hb)
    · exact yields_skipToCloseGroup i hb

/-- A group yields the names of its body. -/
theorem yields_group (hi : inner.Yields known n start) :
    Yields n start (NamedIfAny known start) (group inner) := by
  refine yields_after conserves_peek fun t => ?_
  split
  · split
    · exact yields_some (yields_braceGroup hi)
    · exact yields_pure madeIfAny_none
  · exact yields_pure madeIfAny_none

/-- An argument is a group, a digit, or an operand. -/
theorem yields_argument (hi : inner.Yields known n start) :
    Yields n start (NamedIfAny known start) (argument inner) := by
  intro p hp hs
  refine ⟨conserves_argument hi.conserves p hp, ?_⟩
  rw [argument, peek_bind_apply]
  cases p.ahead.head? with
  | none => exact madeIfAny_none
  | some t =>
    dsimp only
    split
    · exact (yields_some (yields_braceGroup hi) p hp hs).2
    · -- without braces a number gives its first digit only
      cases splitDigit? t with
      | none => exact (hi.primary _ p hp hs).2
      | some parts => exact madeIfAny_some (.number _)

/-- An argument in square brackets yields the names of its body. -/
theorem yields_optionalArgument (hi : inner.Yields known n start) :
    Yields n start (NamedIfAny known start) (optionalArgument inner) := by
  refine yields_after conserves_index fun i => ?_
  refine yields_after (conserves_matchToken _) fun opened => ?_
  split
  · refine yields_bind (hi.expression _) fun body hb => ?_
    refine yields_after (conserves_matchToken _) fun closed => ?_
    split
    · exact yields_pure hb
    · exact yields_after (conserves_seek _) fun _ => yields_pure madeIfAny_none
  · exact yields_pure madeIfAny_none

/-- The names in some arguments, if any were read. -/
def ArgumentsNamed (known : String → Prop) (start : List Token) (o : Option (List Expr)) : Prop :=
  ∀ es ∈ o, ∀ e ∈ es, e.Named known start

theorem argumentsNamed_none : ArgumentsNamed known start none :=
  fun _ h => absurd h (by simp)

theorem argumentsNamed_some {es : List Expr} (h : ∀ e ∈ es, e.Named known start) :
    ArgumentsNamed known start (some es) :=
  fun _ ha => Option.some.inj ha ▸ h

/-- Arguments in parentheses yield the names of the arguments. -/
theorem yields_argumentList (hi : inner.Yields known n start) :
    Yields n start (ArgumentsNamed known start) (argumentList inner) := by
  refine yields_rewinding argumentsNamed_none ?_
  refine yields_after (conserves_matchToken _) fun opened => ?_
  split
  · refine yields_after (conserves_matchToken _) fun closed => ?_
    split
    · exact yields_pure (argumentsNamed_some made_nil)
    · refine yields_bind (hi.expression _) fun body hb => ?_
      refine yields_after (conserves_matchToken _) fun closed => ?_
      split
      · exact yields_pure (argumentsNamed_some (Made.splat hb))
      · exact yields_pure argumentsNamed_none
  · exact yields_pure argumentsNamed_none

/-! ## Routines -/

/-- What is answered has names of some sort wherever it is an expression. -/
def Answered (known : String → Prop) (start : List Token) : (q : ParseRequest) → q.Response → Prop
  | .group, o => NamedIfAny known start o
  | .argument, o => NamedIfAny known start o
  | .optionalArgument, o => NamedIfAny known start o
  | .expression _, o => NamedIfAny known start o
  | .argumentList, o => ArgumentsNamed known start o
  | .error _ _ _, e => e.Named known start
  | _, _ => True

/-- What is answered to a request has names of the sort, if it is an expression. -/
theorem yields_answer (hi : inner.Yields known n start) (q : ParseRequest) :
    Yields n start (Answered known start q) (answer inner q) := by
  have hplain : (∀ x, Answered known start q x) →
      Yields n start (Answered known start q) (answer inner q) :=
    fun h => yields_of_conserves (conserves_answer hi.conserves q) fun _ => h _
  cases q with
  | group => exact yields_group hi
  | argument => exact yields_argument hi
  | optionalArgument => exact yields_optionalArgument hi
  | argumentList => exact yields_argumentList hi
  | expression min => exact hi.expression min
  | error code arg i => exact yields_error code arg i
  | _ => exact hplain fun _ => trivial

end Parser

/-- Given answers of some sort, the routine ends with a result of some sort. -/
def Routine.EndsGiven {Request : Type} {Response : Request → Type} {α : Type}
    (A : (q : Request) → Response q → Prop) (P : α → Prop) : Routine Request Response α → Prop
  | .done a => P a
  | .ask q next => ∀ x, A q x → (next x).EndsGiven A P

/-- What the routine makes of expressions has no names but theirs and those that are known. -/
def ParseHandler.KeepsNames (known : String → Prop) (handler : ParseHandler) : Prop :=
  ∀ start lhs p, Expr.NamedIfAny known start lhs →
    (handler lhs p).EndsGiven (Parser.Answered known start) (Expr.NamedIfAny known start)

/-- The head of the entry is known, and its routine makes up no other names. -/
structure IndexedEntry.NamedBy (known : String → Prop) (e : IndexedEntry) : Prop where
  head : known e.head
  routine : ∀ handler, e.parse = some handler → handler.KeepsNames known

/-- All names that the lexicon puts into expressions are known. -/
def Index.NamedBy (known : String → Prop) (ix : Index) : Prop :=
  ∀ e ∈ ix.latest, e.NamedBy known

namespace Parser

open MathMarkup.Expr MathMarkup.Reading

variable {known : String → Prop} {ix : Index} {inner : Nested} {n : Nat} {start : List Token}

/-- A routine yields what it ends with for answers of the sort. -/
theorem yields_run {α : Type} {P : α → Prop} (hi : inner.Yields known n start) {r : ParseRoutine α}
    (h : r.EndsGiven (Answered known start) P) : Yields n start P (r.run (answer inner)) := by
  induction r with
  | done a => exact yields_pure h
  | ask q next ih => exact yields_bind (yields_answer hi q) fun x hx => ih x (h x hx)

/-- A routine that keeps names yields them. -/
theorem yields_runHandler (hi : inner.Yields known n start) {handler : ParseHandler}
    (hh : handler.KeepsNames known) {lhs : Option Expr} (hl : NamedIfAny known start lhs)
    (p : Precedence) : Yields n start (NamedIfAny known start) (runHandler inner handler lhs p) :=
  yields_run hi (hh start lhs p hl)

/-! ## Operators -/

/-- A candidate of a look-up is a usable entry, so its head is known. -/
theorem namedBy_of_mem_lookup (ha : ix.Arranged) (hx : ix.NamedBy known) {kind : Kind}
    {tokens : List String} {found : Nat × IndexedEntry} (hf : found ∈ ix.lookup kind tokens) :
    found.2.NamedBy known :=
  hx _ (Index.of_mem_lookup ha hf).1

/-- An operator between operands applies the head of its entry. -/
theorem yields_infixApplication (hi : inner.Yields known n start) {entry : IndexedEntry}
    (he : entry.NamedBy known) {lhs : Expr} (hl : lhs.Named known start) (p : Precedence) :
    Yields n start (Named known start) (infixApplication inner entry lhs p) :=
  yields_bind (hi.expression _) fun _ hr => yields_pure
    (named_apply he.head (made_cons hl (made_singleton (names_orMissing hr))))

/-- An operator behind its operand applies the head of its entry. -/
theorem yields_postfixApplication {entry : IndexedEntry} (he : entry.NamedBy known) {lhs : Expr}
    (hl : lhs.Named known start) :
    Yields n start (Named known start) (postfixApplication entry lhs) := by
  refine yields_of_conserves (conserves_postfixApplication entry lhs) fun p => ?_
  have hnode : (Expr.apply entry.head (Expr.splat (some lhs))).Named known start :=
    named_apply he.head (Made.splat (madeIfAny_some hl))
  unfold postfixApplication
  dsimp only
  split <;> exact hnode

/-- An operator yields an application of its head, or what its routine reads. -/
theorem yields_applyOperator (hi : inner.Yields known n start) {entry : IndexedEntry}
    (he : entry.NamedBy known) {lhs : Expr} (hl : lhs.Named known start) (p : Precedence) :
    Yields n start (NamedIfAny known start) (applyOperator inner entry lhs p) := by
  unfold applyOperator
  split
  · exact yields_runHandler hi (he.routine _ ‹_›) (madeIfAny_some hl) _
  · exact yields_some (yields_postfixApplication he hl)
  · exact yields_runHandler hi (he.routine _ ‹_›) (madeIfAny_some hl) _
  · exact yields_some (yields_infixApplication hi he hl _)
  · exact yields_pure madeIfAny_none

/-- An operator that is tried yields an application or nothing. -/
theorem yields_tryOperator (hi : inner.Yields known n start) {candidate : Nat × IndexedEntry}
    (he : candidate.2.NamedBy known) {lhs : Expr} (hl : lhs.Named known start) (min : Precedence) :
    Yields n start (NamedIfAny known start) (tryOperator inner min lhs candidate) := by
  unfold tryOperator
  split
  · split
    · exact yields_rewinding madeIfAny_none
        (yields_after (conserves_advance _) fun _ => yields_applyOperator hi he hl _)
    · exact yields_pure madeIfAny_none
  · exact yields_pure madeIfAny_none

/-- The factors of a product are named as the product is. -/
theorem names_factors {lhs : Expr} (hl : lhs.Named known start) :
    ∀ e ∈ factors lhs, e.Named known start := by
  unfold factors
  split
  · split
    · exact hl.operands
    · exact made_singleton hl
  · exact made_singleton hl

/-- Juxtaposition multiplies, which is a head of the parser's own. -/
theorem yields_juxtapose (ix : Index) (hi : inner.Yields known n start) (min : Precedence)
    {lhs : Expr} (hl : lhs.Named known start) :
    Yields n start (NamedIfAny known start) (juxtapose ix inner min lhs) := by
  unfold juxtapose
  split
  · exact yields_pure madeIfAny_none
  · refine yields_after conserves_atEnd fun last => ?_
    split
    · exact yields_pure madeIfAny_none
    · refine yields_rewinding madeIfAny_none (yields_bind (hi.expression _) fun o ho => ?_)
      split
      · exact yields_pure (madeIfAny_some (named_own (by decide)
          (made_concat (names_factors hl) (ho _ rfl))))
      · exact yields_pure madeIfAny_none

/-- A suffix yields an application of a known head, or a product. -/
theorem yields_suffix (ha : ix.Arranged) (hx : ix.NamedBy known) (hi : inner.Yields known n start)
    {lhs : Expr} (hl : lhs.Named known start) (min : Precedence) :
    Yields n start (NamedIfAny known start) (suffix ix inner min lhs) := by
  refine yields_after conserves_upcoming fun upcoming => ?_
  split
  next => exact yields_juxtapose ix hi min hl
  next top others hc =>
    split
    · refine yields_firstOf madeIfAny_none fun candidate hm => yields_tryOperator hi ?_ hl min
      rw [← hc] at hm
      exact (mem_operatorCandidates hm).elim (namedBy_of_mem_lookup ha hx)
        (namedBy_of_mem_lookup ha hx)
    · exact yields_pure madeIfAny_none

/-- Rounds of suffixes keep the names of the operand they start with. -/
theorem yields_suffixes (ha : ix.Arranged) (hx : ix.NamedBy known) (hi : inner.Yields known n start)
    {lhs : Expr} (hl : lhs.Named known start) (min : Precedence) :
    Yields n start (Named known start) (suffixes ix inner min lhs) := by
  refine yields_loop (fun e he => ?_) hl
  refine yields_bind (yields_suffix ha hx hi he min) fun o ho => ?_
  split
  · exact yields_pure (ho _ rfl)
  · exact yields_pure he

/-! ## Numerals, texts and delimiters -/

/-- A numeral is an atom without a name. -/
theorem yields_numeral : Yields n start (Named known start) numeral := by
  refine yields_after conserves_get fun p => yields_after (conserves_advance _) fun _ => ?_
  refine yields_after conserves_get fun q => ?_
  split
  · exact yields_after (conserves_advance _) fun _ => yields_pure (.number _)
  · exact yields_pure (.number _)

/-- A text is a string or an error. -/
theorem yields_text : Yields n start (Named known start) text := by
  refine yields_after (conserves_advance 1) fun _ => yields_after conserves_index fun i => ?_
  refine yields_after (conserves_matchToken _) fun opened => ?_
  split
  · refine yields_after conserves_textToken fun text => ?_
    refine yields_after conserves_matchCloseGroup fun closed => ?_
    split
    · exact yields_pure (.string _)
    · exact yields_error _ _ _
  · exact yields_pure (.string _)

/-- An operand between delimiters yields its names. -/
theorem yields_delimited (hi : inner.Yields known n start) (close : List String) :
    Yields n start (fun o => ∀ body ∈ o, NamedIfAny known start body) (delimited inner close) := by
  have hsome : ∀ {o}, NamedIfAny known start o → ∀ body ∈ some o, NamedIfAny known start body :=
    fun ho _ hb => Option.some.inj hb ▸ ho
  refine yields_after (conserves_matchTokens _) fun closed => ?_
  split
  · exact yields_pure (hsome madeIfAny_none)
  · refine yields_bind (hi.expression _) fun body hb => ?_
    refine yields_after (conserves_matchTokens _) fun closed => ?_
    split
    · exact yields_pure (hsome hb)
    · exact yields_pure fun _ h => absurd h (by simp)

/-- A matchfix operator applies the head of its entry to what is inside. -/
theorem yields_tryMatchfix (hi : inner.Yields known n start) {candidate : Nat × IndexedEntry}
    (he : candidate.2.NamedBy known) :
    Yields n start (NamedIfAny known start) (tryMatchfix inner candidate) := by
  refine yields_rewinding madeIfAny_none ?_
  dsimp only
  split
  · exact yields_pure madeIfAny_none
  · refine yields_after (conserves_advance _) fun _ => ?_
    refine yields_bind (yields_delimited hi _) fun o ho => ?_
    split
    · exact yields_pure madeIfAny_none
    · split
      · exact yields_runHandler hi (he.routine _ ‹_›) (ho _ rfl) _
      · exact yields_pure
          (madeIfAny_some (named_apply he.head (Made.splat (ho _ rfl))))

/-! ## Environments -/

/-- The names in the cells. -/
structure Tabular.Named (known : String → Prop) (start : List Token) (t : Tabular) : Prop where
  rows : ∀ row ∈ t.rows, ∀ cell ∈ row, NamedIfAny known start cell
  row : ∀ cell ∈ t.row, NamedIfAny known start cell
  cell : NamedIfAny known start t.cell

/-- The row that ends is named as the cells before are. -/
theorem Tabular.Named.closedRow {t : Tabular} (h : t.Named known start) :
    ∀ cell ∈ t.row ++ [t.cell], NamedIfAny known start cell := by
  intro cell hc
  rcases List.mem_append.1 hc with hc | hc
  · exact h.row cell hc
  · rw [List.mem_singleton.1 hc]
    exact h.cell

/-- The rows with the one that ends are named. -/
theorem Tabular.Named.closedRows {t : Tabular} (h : t.Named known start) :
    ∀ row ∈ t.rows ++ [t.row ++ [t.cell]], ∀ cell ∈ row, NamedIfAny known start cell := by
  intro row hr
  rcases List.mem_append.1 hr with hr | hr
  · exact h.rows row hr
  · rw [List.mem_singleton.1 hr]
    exact h.closedRow

/-- A table of cells is applied by the parser, rows within it. -/
theorem Tabular.Named.toExpr {t : Tabular} (h : t.Named known start) :
    t.toExpr.Named known start := by
  have hrows : ∀ row ∈ t.allRows, ∀ cell ∈ row, NamedIfAny known start cell := by
    unfold Tabular.allRows
    split
    · exact h.rows
    · exact h.closedRows
  refine named_own (by decide) fun e he => ?_
  obtain ⟨row, hr, rfl⟩ := List.mem_map.1 he
  refine named_own (by decide) fun e he => ?_
  obtain ⟨cell, hc, rfl⟩ := List.mem_map.1 he
  exact names_orEmpty (hrows row hr cell hc)

/-- What cannot stand in a cell becomes an error in it. -/
theorem yields_unexpectedInCell {t : Tabular} (ht : t.Named known start) :
    Yields n start (Tabular.Named known start) (unexpectedInCell t) := by
  refine yields_after conserves_index fun i => yields_after (conserves_advance 1) fun _ => ?_
  have herror : Yields n start (Named known start) (Reading.error .unexpectedToken none i) :=
    yields_error _ _ _
  refine yields_bind herror fun e he => yields_pure ⟨ht.rows, ht.row, ?_⟩
  exact madeIfAny_some (names_appendError ht.cell he)

/-- A round over the cells keeps the names of the cells. -/
theorem yields_tabularStep (hi : inner.Yields known n start) {t : Tabular}
    (ht : t.Named known start) :
    Yields n start (fun r => r.1.Named known start) (tabularStep inner t) := by
  have hunexpected : Yields n start (fun r : Tabular × Bool => r.1.Named known start)
      (unexpectedInCell t >>= fun u => pure (u, true)) :=
    yields_bind (yields_unexpectedInCell ht) fun _ hu => yields_pure hu
  obtain ⟨next, heq, hround⟩ := exists_tabularRound inner t
  rw [heq]
  refine yields_after conserves_peek fun o => ?_
  have h := hround o
  generalize next o = r at h ⊢
  -- a round only moves cells and rows that are there, or reads a cell
  cases h with
  | ended => exact yields_pure ht
  | cell =>
    exact yields_after (conserves_advance 1) fun _ =>
      yields_pure ⟨ht.rows, ht.closedRow, madeIfAny_none⟩
  | row =>
    exact yields_after (conserves_advance 1) fun _ =>
      yields_pure ⟨ht.closedRows, fun _ h => absurd h List.not_mem_nil, madeIfAny_none⟩
  | closed =>
    exact yields_after (conserves_advance 1) fun _ =>
      yields_after conserves_takeEnvironmentName fun _ => yields_pure ht
  | filled => exact hunexpected
  | empty =>
    refine yields_bind (hi.expression _) fun o ho => ?_
    cases o with
    | some e => exact yields_pure ⟨ht.rows, ht.row, ho⟩
    | none => exact hunexpected

/-- Rounds over the cells begin with none and keep the names of the cells. -/
theorem yields_tabular (hi : inner.Yields known n start) :
    Yields n start (Tabular.Named known start) (tabular inner) := by
  refine yields_loop (fun t ht => yields_tabularStep hi ht) ⟨?_, ?_, madeIfAny_none⟩
  · exact fun _ h => absurd h List.not_mem_nil
  · exact fun _ h => absurd h List.not_mem_nil

/-- An environment applies the head of its entry, or is an error with its name as text. -/
theorem yields_environment (hx : ix.NamedBy known) (hi : inner.Yields known n start) :
    Yields n start (NamedIfAny known start) (environment ix inner) := by
  refine yields_rewinding madeIfAny_none (yields_after (conserves_advance 1) fun _ => ?_)
  refine yields_after conserves_takeEnvironmentName fun name => ?_
  split
  · exact yields_pure madeIfAny_none
  · split
    · exact yields_pure madeIfAny_none
    · refine yields_bind (yields_tabular hi) fun t ht => ?_
      refine yields_firstOf madeIfAny_none fun entry hm => ?_
      have hentry := hx entry (Index.environments_subset ix _ hm)
      unfold tryEnvironment
      split
      · exact yields_rewinding madeIfAny_none (yields_runHandler hi (hentry.routine _ ‹_›)
          (madeIfAny_some ht.toExpr) _)
      · exact yields_pure (madeIfAny_some
          (named_apply hentry.head (made_singleton ht.toExpr)))

/-! ## Prefix operators and symbols -/

/-- A prefix operator applies the head of its entry. -/
theorem yields_tryPrefixOp (hi : inner.Yields known n start) {candidate : Nat × IndexedEntry}
    (he : candidate.2.NamedBy known) (min : Precedence) :
    Yields n start (NamedIfAny known start) (tryPrefixOp inner min candidate) := by
  unfold tryPrefixOp
  dsimp only
  split
  · exact yields_pure madeIfAny_none
  · refine yields_rewinding madeIfAny_none (yields_after (conserves_advance _) fun _ => ?_)
    split
    · exact yields_runHandler hi (he.routine _ ‹_›) madeIfAny_none _
    · exact yields_bind (hi.expression _) fun o ho => yields_pure (madeIfAny_some
        (named_apply he.head (made_singleton (names_orMissing ho))))

/-- A function applies the name before its arguments. -/
theorem yields_functionArguments (hi : inner.Yields known n start) {head : String}
    (hb : known head) :
    Yields n start (Named known start) (functionArguments inner head) := by
  refine yields_bind (yields_argumentList hi) fun arguments ha => ?_
  split
  · exact yields_pure (named_apply hb (ha _ rfl))
  · refine yields_bind (hi.expression _) fun argument ho => ?_
    split
    · exact yields_pure (named_apply hb (made_singleton (ho _ rfl)))
    · exact yields_pure (.symbol (.known hb))

/-- An entry for a symbol yields the symbol or the function of its head. -/
theorem yields_trySymbol (hi : inner.Yields known n start) {candidate : Nat × IndexedEntry}
    (he : candidate.2.NamedBy known) :
    Yields n start (NamedIfAny known start) (trySymbol inner candidate) := by
  refine yields_rewinding madeIfAny_none (yields_after (conserves_advance _) fun _ => ?_)
  split
  · exact yields_runHandler hi (he.routine _ ‹_›) madeIfAny_none _
  · split
    · exact yields_some (yields_functionArguments hi he.head)
    · exact yields_pure (madeIfAny_some (.symbol (.known he.head)))

/-- Arguments begin with a parenthesis. -/
theorem paren_of_argumentList {p : Parser} {es : List Expr}
    (h : (argumentList inner p).1 = some es) : (Token.raws p.ahead).head? = some "(" := by
  by_cases hparen : (Token.raws p.ahead).head? = some "("
  · exact hparen
  · have hno : matchToken "(" p = (false, p) := by
      unfold matchToken
      rw [peek_bind_apply]
      cases ha : p.ahead with
      | nil => rfl
      | cons t ts =>
        rw [ha] at hparen
        show (if t.raw = "(" then _ else _ : Reading Bool) p = _
        rw [if_neg fun ht => hparen (congrArg some ht)]
        rfl
    unfold argumentList at h
    rw [rewinding_of_none (q := p)] at h
    · cases h
    · rw [bind_apply, hno]
      rfl

/-- The one place where names come from the markup. -/
theorem yields_namedSymbol (hi : inner.Yields known n start) :
    Yields n start (NamedIfAny known start) (namedSymbol inner) := by
  intro p hp hs
  refine ⟨conserves_namedSymbol hi.conserves p hp, ?_⟩
  have hplace : Token.Place start p.ahead := ⟨p.tokens, hs, List.suffix_append _ _⟩
  rw [namedSymbol, get_bind_apply]
  rcases hn : Name.identifier? p.ahead with _ | ⟨name, length⟩
  · exact madeIfAny_none
  · have hsymbol : (Expr.symbol name).Named known start :=
      .symbol (.read hplace (.symbol hn))
    dsimp only
    rw [bind_apply]
    split
    next hu =>
      -- the arguments are read where the name ends, so the parenthesis comes right after it
      have hadvance := follows_advance length p
      obtain ⟨-, ha⟩ := yields_argumentList hi (p.advance length) (hadvance.atLevel hp)
        (Relation.ReflTransGen.trans hs hadvance.splits)
      have hrun : (Reading.advance length p).2 = p.advance length := rfl
      rw [bind_apply, hrun]
      cases hargs : (argumentList inner (p.advance length)).1 with
      | none => exact madeIfAny_some hsymbol
      | some arguments =>
        have hparen := paren_of_argumentList hargs
        exact madeIfAny_some (.apply (.read hplace (.function hn hu hparen)) (ha _ hargs))
    next => exact madeIfAny_some hsymbol

/-- A symbol is one of the lexicon, or it is read off the tokens at its place. -/
theorem yields_symbol (ha : ix.Arranged) (hx : ix.NamedBy known) (hi : inner.Yields known n start) :
    Yields n start (NamedIfAny known start) (symbol ix inner) := by
  refine yields_after conserves_upcoming fun upcoming => ?_
  refine yields_bind (yields_firstOf madeIfAny_none fun candidate hm =>
    yields_trySymbol hi (namedBy_of_mem_lookup ha hx hm)) fun o ho => ?_
  split
  · exact yields_pure ho
  · exact yields_namedSymbol hi

/-- An operand has names that are known, the parser's own, or read at some place. -/
theorem yields_primaryFrom (ha : ix.Arranged) (hx : ix.NamedBy known)
    (hi : inner.Yields known n start) (min : Precedence) (t : Token) :
    Yields n start (NamedIfAny known start) (primaryFrom ix inner min t) := by
  apply primaryFrom_cases
  case group => exact fun _ => yields_some (yields_braceGroup hi)
  case closing => exact fun _ => yields_pure madeIfAny_none
  case text => exact fun _ => yields_some yields_text
  case others =>
    refine yields_firstOf madeIfAny_none fun r hr => ?_
    apply alternative_cases hr
    case fence =>
      exact yields_after conserves_upcoming fun _ => yields_firstOf madeIfAny_none
        fun candidate hm => yields_tryMatchfix hi (namedBy_of_mem_lookup ha hx hm)
    case environment => exact fun _ => yields_environment hx hi
    case skipped => exact yields_pure madeIfAny_none
    case prefixOp =>
      exact yields_after conserves_upcoming fun _ => yields_firstOf madeIfAny_none
        fun candidate hm => yields_tryPrefixOp hi (namedBy_of_mem_lookup ha hx hm) min
    case symbol => exact yields_symbol ha hx hi

theorem yields_primary (ha : ix.Arranged) (hx : ix.NamedBy known) (hi : inner.Yields known n start)
    (min : Precedence) :
    Yields n start (NamedIfAny known start) (Parser.primary ix inner min) := by
  refine yields_after conserves_peek fun t => ?_
  split
  · exact yields_pure madeIfAny_none
  · split
    · exact yields_some yields_numeral
    · exact yields_primaryFrom ha hx hi min _

/-! ## Every level -/

/-- An operand with its suffixes has names of the sort. -/
theorem yields_operation (ha : ix.Arranged) (hx : ix.NamedBy known)
    (hi : inner.Yields known n start) (min : Precedence) :
    Yields n start (NamedIfAny known start) (Nested.operation ix inner min) := by
  refine yields_bind (hi.primary min) fun o ho => ?_
  split
  · exact yields_some (yields_suffixes ha hx hi (ho _ rfl) min)
  · exact yields_pure madeIfAny_none

/-- One level deeper, the names are the same or nothing is read. -/
theorem yields_deeper {step : Reading (Option Expr)} (hc : Conserves n step)
    (h : Yields n start (NamedIfAny known start) step) :
    Yields (n + 1) start (NamedIfAny known start) (Nested.deeper step) := by
  intro p hp hs
  refine ⟨Nested.conserves_deeper hc p hp, ?_⟩
  rw [Nested.deeper_apply]
  split
  · exact madeIfAny_none
  · split
    · exact madeIfAny_none
    · exact (h p.enter hp.enter hs).2

/-- By induction on the levels, readers at every level yield names of the sort. -/
theorem yields_atDepth (ha : ix.Arranged) (hx : ix.NamedBy known) (n : Nat) :
    (Nested.atDepth ix n).Yields known n start := by
  have hc := Nested.conserves_atDepth ix n
  induction n with
  | zero =>
    have hnone : Gives (NamedIfAny known start) Nested.giveUp := fun _ => madeIfAny_none
    exact ⟨hc, fun p => yields_of_conserves (hc.expression p) hnone,
      fun p => yields_of_conserves (hc.primary p) hnone⟩
  | succ n ih =>
    have hn := Nested.conserves_atDepth ix n
    exact ⟨hc,
      fun min => yields_deeper (Nested.conserves_operation ix hn min)
        (yields_operation ha hx (ih hn) min),
      fun min => yields_deeper (conserves_primary ix hn min) (yields_primary ha hx (ih hn) min)⟩

/-! ## The end of a parse -/

/-- An operator without a right operand applies its head to what is missing. -/
theorem yields_applyDangling (hi : inner.Yields known n start) {entry : IndexedEntry}
    (he : entry.NamedBy known) {left : Expr} (hl : left.Named known start) (p : Precedence) :
    Yields n start (Named known start) (applyDangling inner entry left p) := by
  refine yields_after conserves_index fun i => ?_
  refine yields_bind (yields_applyOperator hi he hl p) fun o ho => ?_
  split
  · exact yields_pure (ho _ rfl)
  · exact yields_after (conserves_seek _) fun _ => yields_infixApplication hi he hl _

/-- What an operator takes from what was read, and what it leaves, are both named. -/
theorem names_danglingOperand {lhs : Option Expr} (hl : NamedIfAny known start lhs) :
    NamedIfAny known start (danglingOperand lhs).1 ∧
      (danglingOperand lhs).2.Named known start := by
  unfold danglingOperand
  split
  · split
    · exact ⟨hl, names_missing⟩
    · exact ⟨madeIfAny_none, hl _ rfl⟩
  · exact ⟨madeIfAny_none, names_missing⟩

/-- What comes behind errors goes into a sequence with them. -/
theorem names_appendAfterErrors {errors : Option Expr} (hl : NamedIfAny known start errors)
    {e : Expr} (he : e.Named known start) :
    (appendAfterErrors errors e).Named known start := by
  unfold appendAfterErrors
  split
  · exact he
  · cases hl _ rfl with
    | apply hh ho => exact .apply hh (made_concat ho he)
  · exact names_sequence (made_cons (hl _ rfl) (made_singleton he))

/-- A recovery at an operator applies the head of its entry. -/
theorem yields_recoverOperator (ha : ix.Arranged) (hx : ix.NamedBy known)
    (hi : inner.Yields known n start) {entry : IndexedEntry} (he : entry.NamedBy known)
    (length : Nat) {lhs : Option Expr}
    (hl : NamedIfAny known start lhs) :
    Yields n start (Named known start) (recoverOperator ix inner length entry lhs) := by
  obtain ⟨herrors, hleft⟩ := names_danglingOperand hl
  refine yields_after (conserves_advance _) fun _ => ?_
  refine yields_bind (yields_applyDangling hi he hleft _) fun combined hc => ?_
  exact yields_bind (yields_suffixes ha hx hi hc _) fun e hn =>
    yields_pure (names_appendAfterErrors herrors hn)

/-- Setting something aside adds an error node. -/
theorem yields_setAside {r : Reading β} (hr : Conserves n r) (code : ErrorCode)
    (arg : Option String) (i : Nat) {lhs : Option Expr} (hl : NamedIfAny known start lhs) :
    Yields n start (Named known start)
      (r >>= fun _ => Reading.error code arg i >>= fun e => pure (appendError lhs e)) :=
  yields_after hr fun _ => yields_bind (yields_error _ _ _) fun _ he =>
    yields_pure (names_appendError hl he)

/-- A recovery adds errors, and operands that are read behind them. -/
theorem yields_recover (ha : ix.Arranged) (hx : ix.NamedBy known) (hi : inner.Yields known n start)
    {lhs : Option Expr} (hl : NamedIfAny known start lhs) :
    Yields n start (Named known start) (recover ix inner lhs) := by
  obtain ⟨next, heq, hrule⟩ := exists_recoveryRule ix inner lhs
  rw [heq]
  refine yields_after conserves_get fun p => ?_
  have h := hrule p
  generalize next p = r at h ⊢
  cases h with
  | operator hm => exact yields_recoverOperator ha hx hi (namedBy_of_mem_lookup ha hx hm) _ hl
  | symbol | closing =>
    exact yields_after conserves_index fun i => yields_setAside (conserves_advance _) _ _ _ hl
  | opening =>
    refine yields_after conserves_index fun i => yields_after (conserves_advance _) fun _ => ?_
    exact yields_after (hi.conserves.expression _) fun _ =>
      yields_setAside (conserves_matchTokens _) _ _ _ hl
  | rest =>
    refine yields_after conserves_index fun i => yields_after conserves_peek fun t => ?_
    exact yields_setAside conserves_seekEnd _ _ _ hl

/-- Rounds of recovering keep the names. -/
theorem yields_recoverAll (ha : ix.Arranged) (hx : ix.NamedBy known)
    (hi : inner.Yields known n start) {lhs : Option Expr} (hl : NamedIfAny known start lhs) :
    Yields n start (NamedIfAny known start) (recoverAll ix inner lhs) := by
  refine yields_loop (fun o ho => yields_after conserves_get fun p => ?_) hl
  split
  · exact yields_pure ho
  · exact yields_bind (yields_recover ha hx hi ho) fun e he => yields_pure (madeIfAny_some he)

/-- The result of a parse has names that are known, the parser's own, or read at some place. -/
theorem yields_parseAll (ha : ix.Arranged) (hx : ix.NamedBy known) :
    Yields Nested.maxDepth start (Named known start) (parseAll ix) := by
  have hi : (Nested.outermost ix).Yields known Nested.maxDepth start := yields_atDepth ha hx _
  refine yields_bind (hi.expression _) fun first hfirst => ?_
  refine yields_bind (yields_recoverAll ha hx hi hfirst) fun all hall => ?_
  refine yields_after conserves_get fun p => ?_
  split
  · exact yields_after conserves_index fun i => yields_setAside conserves_seekEnd _ _ _ hall
  · exact yields_pure (names_orEmpty hall)

end Parser

end MathMarkup
