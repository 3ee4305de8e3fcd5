import MathMarkup.Proofs.Completion

/-!
# Parsed expressions are bare

The parser annotates nothing: unless a routine of the lexicon does, what is read carries no markup
around it (`Expr.Bare`). Each reader gets this from the readers inside of it, and the readers at
every level from those one level deeper. It matters where a parse ends too deep: an error that is
put behind a bare expression always stands in the result.
-/

namespace MathMarkup

/-- The expression is no annotation. -/
def Expr.Bare (e : Expr) : Prop :=
  ∀ markup inner, e ≠ .annotated markup inner

/-- What was read, if anything, is bare. -/
def Expr.BareIfAny (o : Option Expr) : Prop :=
  ∀ e ∈ o, e.Bare

/-- Applications are no annotations, whatever their head. -/
theorem Expr.bare_apply (head : String) (operands : List Expr) : (Expr.apply head operands).Bare :=
  fun _ _ h => Expr.noConfusion h

theorem Expr.bareIfAny_none : Expr.BareIfAny none :=
  fun _ h => absurd h (by simp)

theorem Expr.bareIfAny_some {e : Expr} (h : e.Bare) : Expr.BareIfAny (some e) := by
  intro a ha
  rw [← Option.some.inj ha]
  exact h

/-- Whatever is answered, the routine ends with a result of some sort. -/
def Routine.EndsIn {Request : Type} {Response : Request → Type} {α : Type} (P : α → Prop) :
    Routine Request Response α → Prop
  | .done a => P a
  | .ask _ next => ∀ x, (next x).EndsIn P

/-- The routine gives a bare expression if its left operand is bare. -/
def ParseHandler.KeepsBare (handler : ParseHandler) : Prop :=
  ∀ lhs p, Expr.BareIfAny lhs → (handler lhs p).EndsIn Expr.BareIfAny

/-- No routine of the lexicon annotates. -/
def Index.KeepsBare (ix : Index) : Prop :=
  ∀ e ∈ ix.latest, ∀ handler, e.parse = some handler → handler.KeepsBare

namespace Reading

variable {α β : Type} {P : α → Prop} {Q : β → Prop}

/-- The reading gives a value of some sort, whatever the tokens. -/
def Gives (P : α → Prop) (r : Reading α) : Prop :=
  ∀ p, P (r p).1

/-- A value is given without looking at any token. -/
theorem gives_pure {a : α} (h : P a) : Gives P (pure a) :=
  fun _ => h

/-- Readings in a row give what the last one does, for every value of the first. -/
theorem gives_bind {r : Reading α} {f : α → Reading β} (hr : Gives P r)
    (hf : ∀ a, P a → Gives Q (f a)) : Gives Q (r >>= f) :=
  fun p => hf _ (hr p) _

/-- After a reading whose value does not matter. -/
theorem gives_after {r : Reading α} {f : α → Reading β} (hf : ∀ a, Gives Q (f a)) :
    Gives Q (r >>= f) :=
  fun _ => hf _ _

/-- A step that is taken back when it fails gives its value or nothing. -/
theorem gives_rewinding {Q : Option β → Prop} {step : Reading (Option β)} (hn : Q none)
    (h : Gives Q step) : Gives Q (rewinding step) := by
  refine gives_after fun start => gives_bind h fun o ho => ?_
  cases o with
  | some b => exact gives_pure ho
  | none => exact gives_after fun _ => gives_pure hn

/-- The first alternative that works out gives its value. -/
theorem gives_firstOf {Q : Option β → Prop} {alternative : α → Reading (Option β)} {as : List α}
    (hn : Q none) (h : ∀ a ∈ as, Gives Q (alternative a)) : Gives Q (firstOf alternative as) := by
  induction as with
  | nil => exact gives_pure hn
  | cons a as ih =>
    refine gives_bind (h a List.mem_cons_self) fun o ho => ?_
    cases o with
    | some b => exact gives_pure ho
    | none => exact ih fun x hx => h x (List.mem_cons_of_mem _ hx)

/-- A loop gives what its rounds keep. -/
theorem gives_loop {round : α → Reading (α × Bool)}
    (h : ∀ a, P a → Gives (fun r => P r.1) (round a)) {a : α} (ha : P a) :
    Gives P (loop round a) := by
  intro p
  induction a, p using loop_induction round with
  | last a p b again q heq hloop =>
    have hround := h a ha p
    rw [heq] at hround
    rw [hloop]
    exact hround
  | again a p b q heq hloop ih =>
    have hround := h a ha p
    rw [heq] at hround
    rw [hloop]
    exact ih hround

/-- A routine gives what it ends in for all answers. -/
theorem gives_run {handler : ParseRoutine α} (answer : (q : ParseRequest) → Reading q.Response)
    (h : handler.EndsIn P) : Gives P (handler.run answer) := by
  induction handler with
  | done a => exact gives_pure h
  | ask q next ih => exact gives_after fun x => ih x (h x)

end Reading

/-- The readers inside give bare expressions. -/
structure Nested.Bare (inner : Nested) : Prop where
  expression : ∀ p, Reading.Gives Expr.BareIfAny (inner.expression p)
  primary : ∀ p, Reading.Gives Expr.BareIfAny (inner.primary p)

namespace Parser

open MathMarkup.Reading MathMarkup.Expr

variable {ix : Index} {inner : Nested}

/-! ## Errors and groups -/

/-- An error is an application. -/
theorem bare_error (code : ErrorCode) (arg : Option String) (markup : String) :
    (Expr.error code arg markup).Bare :=
  bare_apply _ _

/-- Raising an error gives an application. -/
theorem gives_error (code : ErrorCode) (arg : Option String) (start : Nat) :
    Gives Bare (Reading.error code arg start) :=
  fun _ => bare_apply _ _

/-- An error behind what was read makes an application. -/
theorem bare_appendError {lhs : Option Expr} {error : Expr} (hl : BareIfAny lhs)
    (he : error.Bare) : (appendError lhs error).Bare := by
  cases lhs with
  | none => exact he
  | some e =>
    have happly : appendError (some e) error =
        if isErroredSequence e then pushOperand e error else .sequence [e, error] := rfl
    rw [happly]
    split
    · cases e with
      | apply head operands => exact bare_apply _ _
      | _ => exact hl _ rfl
    · exact bare_apply _ _

/-- What was read, or something bare in its place. -/
theorem bare_getD {o : Option Expr} (h : BareIfAny o) {e : Expr} (he : e.Bare) : (o.getD e).Bare := by
  cases o with
  | none => exact he
  | some e => exact h e rfl

theorem gives_some {r : Reading Expr} (h : Gives Bare r) :
    Gives BareIfAny (r >>= fun e => pure (some e)) :=
  gives_bind h fun _ he => gives_pure (bareIfAny_some he)

/-- What is skipped in a group becomes an error around it. -/
theorem gives_skipToCloseGroup (start : Nat) {body : Option Expr} (hb : BareIfAny body) :
    Gives Bare (skipToCloseGroup start body) := by
  refine gives_after fun p => gives_after fun _ => ?_
  split
  · exact gives_pure (bare_appendError hb (bare_error _ _ _))
  · exact gives_bind (gives_error _ _ _) fun e he => gives_pure (bare_appendError hb he)

/-- A group in braces gives its body, a sequence or an error. -/
theorem gives_braceGroup (hi : inner.Bare) : Gives Bare (braceGroup inner) := by
  refine gives_after fun start => gives_after fun _ => gives_after fun closed => ?_
  split
  · exact gives_pure (bare_apply _ _)
  · refine gives_bind (hi.expression _) fun body hb => gives_after fun closed => ?_
    split
    · exact gives_pure (bare_getD hb (bare_apply _ _))
    · exact gives_skipToCloseGroup start hb

/-- A routine that annotates nothing gives something bare. -/
theorem gives_runHandler {handler : ParseHandler} (hh : handler.KeepsBare) {lhs : Option Expr}
    (hl : BareIfAny lhs) (p : Precedence) : Gives BareIfAny (runHandler inner handler lhs p) :=
  gives_run _ (hh lhs p hl)

/-! ## Operators -/

/-- An operator gives an application, or what its routine gives. -/
theorem gives_applyOperator {entry : IndexedEntry} {lhs : Expr} (hl : lhs.Bare)
    (hh : ∀ handler, entry.parse = some handler → handler.KeepsBare) (p : Precedence) :
    Gives BareIfAny (applyOperator inner entry lhs p) := by
  unfold applyOperator
  split
  · exact gives_runHandler (hh _ ‹_›) (bareIfAny_some hl) _
  · refine gives_some ?_
    unfold postfixApplication
    dsimp only
    split
    · exact gives_after fun _ => gives_pure (bare_apply _ _)
    · exact gives_pure (bare_apply _ _)
  · exact gives_runHandler (hh _ ‹_›) (bareIfAny_some hl) _
  · exact gives_some (gives_after fun rhs => gives_pure (bare_apply _ _))
  · exact gives_pure bareIfAny_none

/-- An operator that is tried gives an application or nothing. -/
theorem gives_tryOperator {candidate : Nat × IndexedEntry} {lhs : Expr}
    (hl : lhs.Bare) (hh : ∀ handler, candidate.2.parse = some handler → handler.KeepsBare)
    (min : Precedence) : Gives BareIfAny (tryOperator inner min lhs candidate) := by
  unfold tryOperator
  split
  · split
    · exact gives_rewinding bareIfAny_none
        (gives_after fun _ => gives_applyOperator hl hh _)
    · exact gives_pure bareIfAny_none
  · exact gives_pure bareIfAny_none

/-- Juxtaposition gives a product. -/
theorem gives_juxtapose (ix : Index) (inner : Nested) (min : Precedence) (lhs : Expr) :
    Gives BareIfAny (juxtapose ix inner min lhs) := by
  unfold juxtapose
  split
  · exact gives_pure bareIfAny_none
  · refine gives_after fun last => ?_
    split
    · exact gives_pure bareIfAny_none
    · refine gives_rewinding bareIfAny_none (gives_after fun o => ?_)
      split
      · exact gives_pure (bareIfAny_some (bare_apply _ _))
      · exact gives_pure bareIfAny_none

/-- What a look-up finds does not annotate. -/
theorem keepsBare_of_mem_lookup (ha : ix.Arranged) (hx : ix.KeepsBare) {kind : Kind}
    {tokens : List String} {found : Nat × IndexedEntry} (hf : found ∈ ix.lookup kind tokens)
    (handler : ParseHandler) (hp : found.2.parse = some handler) : handler.KeepsBare :=
  hx _ (Index.of_mem_lookup ha hf).1 handler hp

/-- A suffix gives an application. -/
theorem gives_suffix (ha : ix.Arranged) (hx : ix.KeepsBare) {lhs : Expr}
    (hl : lhs.Bare) (min : Precedence) : Gives BareIfAny (suffix ix inner min lhs) := by
  refine gives_after fun upcoming => ?_
  cases hc : operatorCandidates ix upcoming with
  | nil => exact gives_juxtapose ix inner min lhs
  | cons top others =>
    dsimp only
    split
    · refine gives_firstOf bareIfAny_none fun candidate hm => gives_tryOperator hl ?_ min
      rw [← hc] at hm
      exact (mem_operatorCandidates hm).elim (keepsBare_of_mem_lookup ha hx) (keepsBare_of_mem_lookup ha hx)
    · exact gives_pure bareIfAny_none

/-- Rounds of suffixes give the operand or an application. -/
theorem gives_suffixes (ha : ix.Arranged) (hx : ix.KeepsBare) {lhs : Expr}
    (hl : lhs.Bare) (min : Precedence) : Gives Bare (suffixes ix inner min lhs) := by
  refine gives_loop (fun e he => ?_) hl
  refine gives_bind (gives_suffix ha hx he min) fun o ho => ?_
  split
  · exact gives_pure (ho _ rfl)
  · exact gives_pure he

/-! ## Primary expressions -/

/-- A text is a string or an error. -/
theorem gives_text : Gives Bare text := by
  refine gives_after fun _ => gives_after fun start => gives_after fun opened => ?_
  split
  · refine gives_after fun text => gives_after fun closed => ?_
    split
    · exact gives_pure (fun _ _ h => Expr.noConfusion h)
    · exact gives_error _ _ _
  · exact gives_pure (fun _ _ h => Expr.noConfusion h)

/-- A numeral is a number. -/
theorem gives_numeral : Gives Bare numeral := by
  refine gives_after fun p => gives_after fun _ => gives_after fun q => ?_
  split
  · exact gives_after fun _ => gives_pure (fun _ _ h => Expr.noConfusion h)
  · exact gives_pure (fun _ _ h => Expr.noConfusion h)

/-- An operand between delimiters is bare if it is so in itself. -/
theorem gives_delimited (hi : inner.Bare) (close : List String) :
    Gives (fun o => ∀ body ∈ o, BareIfAny body) (delimited inner close) := by
  refine gives_after fun closed => ?_
  have hnone : ∀ body ∈ (none : Option (Option Expr)), BareIfAny body :=
    fun _ h => absurd h (by simp)
  have hsome : ∀ {o}, BareIfAny o → ∀ body ∈ some o, BareIfAny body := by
    intro o ho body hb
    rw [← Option.some.inj hb]
    exact ho
  split
  · exact gives_pure (hsome bareIfAny_none)
  · refine gives_bind (hi.expression _) fun body hb => gives_after fun closed => ?_
    split
    · exact gives_pure (hsome hb)
    · exact gives_pure hnone

/-- A matchfix operator gives an application. -/
theorem gives_tryMatchfix (hi : inner.Bare) {candidate : Nat × IndexedEntry}
    (hh : ∀ handler, candidate.2.parse = some handler → handler.KeepsBare) :
    Gives BareIfAny (tryMatchfix inner candidate) := by
  refine gives_rewinding bareIfAny_none ?_
  dsimp only
  split
  · exact gives_pure bareIfAny_none
  · refine gives_after fun _ => gives_bind (gives_delimited hi _) fun o ho => ?_
    split
    · exact gives_pure bareIfAny_none
    · split
      · exact gives_runHandler (hh _ ‹_›) (ho _ rfl) _
      · exact gives_pure (bareIfAny_some (bare_apply _ _))

/-- An environment gives an application or an error. -/
theorem gives_environment (hx : ix.KeepsBare) : Gives BareIfAny (environment ix inner) := by
  refine gives_rewinding bareIfAny_none (gives_after fun _ => gives_after fun name => ?_)
  split
  · exact gives_pure bareIfAny_none
  · split
    · exact gives_pure bareIfAny_none
    · refine gives_after fun cells => gives_firstOf bareIfAny_none fun entry hm => ?_
      unfold tryEnvironment
      split
      · refine gives_rewinding bareIfAny_none (gives_runHandler (hx entry ?_ _ ‹_›)
          (bareIfAny_some (bare_apply _ _)) _)
        exact Index.environments_subset ix _ hm
      · exact gives_pure (bareIfAny_some (bare_apply _ _))

/-- A prefix operator gives an application. -/
theorem gives_tryPrefixOp {candidate : Nat × IndexedEntry}
    (hh : ∀ handler, candidate.2.parse = some handler → handler.KeepsBare) (min : Precedence) :
    Gives BareIfAny (tryPrefixOp inner min candidate) := by
  unfold tryPrefixOp
  dsimp only
  split
  · exact gives_pure bareIfAny_none
  · refine gives_rewinding bareIfAny_none (gives_after fun _ => ?_)
    split
    · exact gives_runHandler (hh _ ‹_›) bareIfAny_none _
    · exact gives_after fun _ => gives_pure (bareIfAny_some (bare_apply _ _))

/-- An entry for a symbol gives the symbol or an application. -/
theorem gives_trySymbol {candidate : Nat × IndexedEntry}
    (hh : ∀ handler, candidate.2.parse = some handler → handler.KeepsBare) :
    Gives BareIfAny (trySymbol inner candidate) := by
  refine gives_rewinding bareIfAny_none (gives_after fun _ => ?_)
  have hsymbol : ∀ name, (Expr.symbol name).Bare := fun _ _ _ h => Expr.noConfusion h
  split
  · exact gives_runHandler (hh _ ‹_›) bareIfAny_none _
  · split
    · refine gives_some (gives_after fun arguments => ?_)
      split
      · exact gives_pure (bare_apply _ _)
      · refine gives_after fun argument => ?_
        split
        · exact gives_pure (bare_apply _ _)
        · exact gives_pure (hsymbol _)
    · exact gives_pure (bareIfAny_some (hsymbol _))

/-- A name that is read as written is a symbol or a function. -/
theorem gives_namedSymbol : Gives BareIfAny (namedSymbol inner) := by
  refine gives_after fun p => ?_
  have hsymbol : ∀ name, (Expr.symbol name).Bare := fun _ _ _ h => Expr.noConfusion h
  dsimp only
  split
  · exact gives_pure bareIfAny_none
  · refine gives_after fun _ => ?_
    split
    · refine gives_after fun arguments => ?_
      split
      · exact gives_pure (bareIfAny_some (bare_apply _ _))
      · exact gives_pure (bareIfAny_some (hsymbol _))
    · exact gives_pure (bareIfAny_some (hsymbol _))

/-- A symbol is bare, from the lexicon or as written. -/
theorem gives_symbol (ha : ix.Arranged) (hx : ix.KeepsBare) :
    Gives BareIfAny (symbol ix inner) := by
  refine gives_after fun upcoming => ?_
  refine gives_bind (gives_firstOf bareIfAny_none fun candidate hm =>
    gives_trySymbol (keepsBare_of_mem_lookup ha hx hm)) fun o ho => ?_
  split
  · exact gives_pure ho
  · exact gives_namedSymbol

/-- What begins an operand gives something bare, whichever token it begins with. -/
theorem gives_primaryFrom (ha : ix.Arranged) (hx : ix.KeepsBare) (hi : inner.Bare)
    (min : Precedence) (t : Token) : Gives BareIfAny (primaryFrom ix inner min t) := by
  apply primaryFrom_cases
  case group => exact fun _ => gives_some (gives_braceGroup hi)
  case closing => exact fun _ => gives_pure bareIfAny_none
  case text => exact fun _ => gives_some gives_text
  case others =>
    refine gives_firstOf bareIfAny_none fun r hr => ?_
    apply alternative_cases hr
    case fence =>
      exact gives_after fun _ => gives_firstOf bareIfAny_none fun candidate hm =>
        gives_tryMatchfix hi (keepsBare_of_mem_lookup ha hx hm)
    case environment => exact fun _ => gives_environment hx
    case skipped => exact gives_pure bareIfAny_none
    case prefixOp =>
      exact gives_after fun _ => gives_firstOf bareIfAny_none fun candidate hm =>
        gives_tryPrefixOp (keepsBare_of_mem_lookup ha hx hm) min
    case symbol => exact gives_symbol ha hx

theorem gives_primary (ha : ix.Arranged) (hx : ix.KeepsBare) (hi : inner.Bare)
    (min : Precedence) : Gives BareIfAny (Parser.primary ix inner min) := by
  refine gives_after fun t => ?_
  split
  · exact gives_pure bareIfAny_none
  · split
    · exact gives_some gives_numeral
    · exact gives_primaryFrom ha hx hi min _

/-! ## Every level -/

theorem gives_giveUp : Gives BareIfAny Nested.giveUp :=
  gives_after fun _ => gives_pure bareIfAny_none

/-- One level deeper, the same is given, or nothing. -/
theorem gives_deeper {step : Reading (Option Expr)} (h : Gives BareIfAny step) :
    Gives BareIfAny (Nested.deeper step) := by
  refine gives_after fun p => ?_
  split
  · exact gives_pure bareIfAny_none
  · split
    · exact gives_giveUp
    · exact gives_after fun _ => gives_bind h fun o ho => gives_after fun _ => gives_pure ho

/-- An operand with its suffixes is bare. -/
theorem gives_operation (ha : ix.Arranged) (hx : ix.KeepsBare) (hi : inner.Bare)
    (min : Precedence) : Gives BareIfAny (Nested.operation ix inner min) := by
  refine gives_bind (hi.primary min) fun o ho => ?_
  split
  · exact gives_some (gives_suffixes ha hx (ho _ rfl) min)
  · exact gives_pure bareIfAny_none

/-- By induction on the levels, readers at every level give bare expressions. -/
theorem bare_atDepth (ha : ix.Arranged) (hx : ix.KeepsBare) (n : Nat) :
    (Nested.atDepth ix n).Bare := by
  induction n with
  | zero => exact ⟨fun _ => gives_giveUp, fun _ => gives_giveUp⟩
  | succ n ih =>
    exact ⟨fun min => gives_deeper (gives_operation ha hx ih min),
      fun min => gives_deeper (gives_primary ha hx ih min)⟩

/-! ## Routines of the standard lexicon -/

open Lexicon Lexicon.Structure Lexicon.Arithmetic in
/-- No routine of the standard lexicon annotates: each puts a head over what it has read. -/
theorem keepsBare_standard : ∀ handler ∈ Lexicon.standard.filterMap Entry.routine?,
    handler.KeepsBare := by
  refine forall_routines_standard (P := ParseHandler.KeepsBare) (fun head _ => ?collecting)
    ?group ?subscript ?negate ?fraction ?power ?root
  case collecting => exact fun _ _ _ _ => bareIfAny_some (bare_apply _ _)
  case group =>
    intro lhs _ hl
    cases lhs with
    | none => exact bareIfAny_some (bare_apply _ _)
    | some e =>
      -- one expression stays what it was, a sequence becomes the operands of a delimiter
      have hbody : (if e.isApply "Sequence" then .apply "Delimiter" (Expr.splat (some e)) else e :
          Expr).Bare := by
        split
        · exact bare_apply _ _
        · exact hl e rfl
      exact bareIfAny_some hbody
  case subscript | power =>
    intro lhs _ _ x
    cases lhs with
    | none => exact bareIfAny_none
    | some base => exact bareIfAny_some (bare_apply _ _)
  case negate =>
    intro _ _ _ x
    refine bareIfAny_some ?_
    unfold negated
    split
    · split
      · exact bare_apply _ _
      · exact fun _ _ h => Expr.noConfusion h
    · exact bare_apply _ _
  case fraction => exact fun _ _ _ _ _ => bareIfAny_some (bare_apply _ _)
  case root =>
    intro _ _ _ index radicand
    refine bareIfAny_some ?_
    cases index <;> exact bare_apply _ _

/-! ## The end of a parse -/

/-- A recovery at an operator gives an application. -/
theorem gives_recoverOperator (ha : ix.Arranged) (hx : ix.KeepsBare)
    {entry : IndexedEntry} (hh : ∀ handler, entry.parse = some handler → handler.KeepsBare)
    (length : Nat) {lhs : Option Expr} (hl : BareIfAny lhs) :
    Gives Bare (recoverOperator ix inner length entry lhs) := by
  -- what was read is bare, and an error is put in for an operand that is missing
  have hleft : (danglingOperand lhs).2.Bare := by
    unfold danglingOperand
    cases lhs with
    | none => exact bare_apply _ _
    | some e =>
      dsimp only
      split
      · exact bare_apply _ _
      · exact hl e rfl
  have happly : ∀ p, Gives Bare (applyDangling inner entry (danglingOperand lhs).2 p) := by
    intro p
    refine gives_after fun start => gives_bind (gives_applyOperator hleft hh p) fun o ho => ?_
    split
    · exact gives_pure (ho _ rfl)
    · exact gives_after fun _ => gives_after fun rhs => gives_pure (bare_apply _ _)
  refine gives_after fun _ => gives_bind (happly _) fun combined hc => ?_
  refine gives_bind (gives_suffixes ha hx hc _) fun e he => gives_pure ?_
  unfold appendAfterErrors
  split
  · exact he
  · exact bare_apply _ _
  · exact bare_apply _ _

/-- A recovery gives an error, or an application with one in it. -/
theorem gives_recover (ha : ix.Arranged) (hx : ix.KeepsBare)
    {lhs : Option Expr} (hl : BareIfAny lhs) : Gives Bare (recover ix inner lhs) := by
  have happend : ∀ {code : ErrorCode} {arg : Option String} {start : Nat},
      Gives Bare (Reading.error code arg start >>= fun error => pure (appendError lhs error)) :=
    gives_bind (gives_error _ _ _) fun _ he => gives_pure (bare_appendError hl he)
  obtain ⟨next, heq, hrule⟩ := exists_recoveryRule ix inner lhs
  rw [heq]
  refine gives_after fun p => ?_
  have h := hrule p
  generalize next p = r at h ⊢
  cases h with
  | operator hm => exact gives_recoverOperator ha hx (keepsBare_of_mem_lookup ha hx hm) _ hl
  | symbol | closing => exact gives_after fun _ => gives_after fun _ => happend
  | opening =>
    exact gives_after fun _ => gives_after fun _ => gives_after fun _ => gives_after fun _ => happend
  | rest => exact gives_after fun _ => gives_after fun _ => gives_after fun _ => happend

/-- Rounds of recovering give what they began with or an application. -/
theorem gives_recoverAll (ha : ix.Arranged) (hx : ix.KeepsBare)
    {lhs : Option Expr} (hl : BareIfAny lhs) : Gives BareIfAny (recoverAll ix inner lhs) := by
  refine gives_loop (fun o ho => gives_after fun p => ?_) hl
  split
  · exact gives_pure ho
  · exact gives_bind (gives_recover ha hx ho) fun e he => gives_pure (bareIfAny_some he)

/-- The result of a parse is bare, however the parse ends. -/
theorem bare_parseAll (ha : ix.Arranged) (hx : ix.KeepsBare) (p : Parser) :
    (parseAll ix p).1.Bare := by
  have hfirst : BareIfAny ((Nested.outermost ix).expression .loosest p).1 :=
    (bare_atDepth ha hx Nested.maxDepth).expression .loosest p
  have hall : BareIfAny (recoverAll ix (Nested.outermost ix)
      ((Nested.outermost ix).expression .loosest p).1
      ((Nested.outermost ix).expression .loosest p).2).1 := gives_recoverAll ha hx hfirst _
  rw [parseAll_apply]
  split
  · exact bare_appendError hall (bare_error _ _ _)
  · exact bare_getD hall (bare_apply _ _)

/-- Input that nests too deeply leaves a syntax error in the result, since nothing bare can hide
it. -/
theorem contains_syntaxError (ha : ix.Arranged) (hx : ix.KeepsBare) {p : Parser}
    (hdeep : (parseAll ix p).2.tooDeep = true) :
    ∃ arg markup, (parseAll ix p).1.Contains (Expr.error .syntaxError arg markup) := by
  refine (hides_or_contains_syntaxError hdeep).resolve_right ?_
  rintro ⟨markup, e, -, heq⟩
  exact bare_parseAll ha hx p markup e heq

end Parser
end MathMarkup
