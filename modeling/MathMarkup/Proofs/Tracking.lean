import MathMarkup.Proofs.NameTokens
import MathMarkup.Proofs.Passage
import MathMarkup.Proofs.Rewinding

/-!
# Readers that keep environments in order

If no error node stands in what a reader gives, then it has kept the environments in order over the
tokens that it passed (`Reading.Tracks`). Each reader gets this from the readers inside of it, as
errors are never dropped from what is read: what is made of something with an error node in it has
an error node, and so a sound result comes of sound parts. Routines of entries are held to the same
(`Index.Orderly`).

This module goes up to the primary expressions, environments apart: these readers pass no begin or
end command.
-/

namespace MathMarkup

/-! ## Expressions without errors -/

namespace Expr

/-- No error node stands in the expression. -/
def Sound (e : Expr) : Prop :=
  e.hasErrors = false

/-- No error node stands in what was read, if anything was. -/
def SoundIfAny (o : Option Expr) : Prop :=
  ∀ e ∈ o, e.Sound

/-- Something was read, and no error node stands in it. -/
def SoundRead (o : Option Expr) : Prop :=
  ∃ e ∈ o, e.Sound

/-- No list of expressions has errors unless one of them does. -/
theorem anyHasErrors_eq_false_iff {es : List Expr} :
    anyHasErrors es = false ↔ ∀ e ∈ es, e.Sound := by
  induction es with
  | nil => simp [anyHasErrors]
  | cons e es ih =>
    rw [anyHasErrors, Bool.or_eq_false_iff, ih, List.forall_mem_cons]
    rfl

/-- An application is sound if its head is not that of an error and its operands are sound. -/
theorem sound_apply_iff {head : String} {operands : List Expr} :
    (Expr.apply head operands).Sound ↔ head ≠ "Error" ∧ ∀ o ∈ operands, o.Sound := by
  rw [Sound, hasErrors, Bool.or_eq_false_iff, anyHasErrors_eq_false_iff, beq_eq_false_iff_ne]

/-- An error node in an operand stands in the application. -/
theorem not_sound_apply {head : String} {operands : List Expr} {o : Expr} (ho : o ∈ operands)
    (h : ¬ o.Sound) : ¬ (Expr.apply head operands).Sound :=
  fun hs => h ((sound_apply_iff.1 hs).2 o ho)

/-- Annotations are no error nodes. -/
theorem sound_strip_iff {e : Expr} : e.strip.Sound ↔ e.Sound := by
  fun_induction strip e with
  | case1 markup e ih =>
    rw [ih, Sound, Sound, hasErrors]
  | case2 e h => exact Iff.rfl

/-- The operands of a sound expression are sound, also behind annotations. -/
theorem Sound.operands {e : Expr} (h : e.Sound) : ∀ o ∈ e.operands, o.Sound := by
  have hs := sound_strip_iff.2 h
  unfold Expr.operands
  cases heq : e.strip with
  | apply head operands =>
    rw [heq] at hs
    exact (sound_apply_iff.1 hs).2
  | _ => exact fun _ ho => absurd ho List.not_mem_nil

theorem soundIfAny_none : SoundIfAny none :=
  fun _ h => absurd h (by simp)

theorem soundIfAny_some {e : Expr} : SoundIfAny (some e) ↔ e.Sound :=
  ⟨fun h => h e rfl, fun h _ ha => Option.some.inj ha ▸ h⟩

theorem soundRead_some {e : Expr} : SoundRead (some e) ↔ e.Sound :=
  ⟨fun ⟨_, ha, h⟩ => Option.some.inj ha ▸ h, fun h => ⟨e, rfl, h⟩⟩

theorem not_soundRead_none : ¬ SoundRead none :=
  fun ⟨_, h, _⟩ => absurd h (by simp)

/-- The operands that a body contributes hold all errors of the body. -/
theorem soundIfAny_of_splat {body : Option Expr} (h : ∀ o ∈ splat body, o.Sound) :
    SoundIfAny body := by
  cases body with
  | none => exact soundIfAny_none
  | some e =>
    rw [soundIfAny_some, ← sound_strip_iff]
    unfold splat at h
    dsimp only at h
    cases heq : e.strip with
    | apply head operands =>
      rw [heq] at h
      dsimp only at h
      by_cases hhead : head = "Sequence"
      · rw [if_pos hhead] at h
        exact sound_apply_iff.2 ⟨by rw [hhead]; decide, h⟩
      · rw [if_neg hhead] at h
        exact h _ (List.mem_singleton_self _)
    | _ =>
      rw [heq] at h
      exact h _ (List.mem_singleton_self _)

/-- An expression with the head of an error is an error node itself. -/
theorem not_sound_of_isApply {e : Expr} (h : e.isApply "Error" = true) : ¬ e.Sound := by
  intro hs
  have hstrip := sound_strip_iff.2 hs
  rw [isApply, head?, beq_iff_eq] at h
  cases heq : e.strip with
  | apply head operands =>
    rw [heq] at h
    rw [heq, sound_apply_iff] at hstrip
    exact hstrip.1 (Option.some.inj h)
  | _ =>
    rw [heq] at h
    cases h

/-- What an error makes is an error node. -/
theorem not_sound_error (code : ErrorCode) (arg : Option String) (markup : String) :
    ¬ (Expr.error code arg markup).Sound :=
  not_sound_of_isApply rfl

/-- Something in place of what was not read cannot mend what was. -/
theorem not_sound_getD {o : Option Expr} (h : ¬ SoundIfAny o) (e : Expr) :
    ¬ (o.getD e).Sound := by
  cases o with
  | none => exact absurd soundIfAny_none h
  | some e => exact fun he => h (soundIfAny_some.2 he)

end Expr

open MathMarkup.Expr

namespace Parser

/-- A sequence that ends in an error has an error node in it. -/
theorem not_sound_of_isErroredSequence {e : Expr} (h : isErroredSequence e = true) :
    ¬ e.Sound := by
  intro hs
  rw [isErroredSequence, Bool.and_eq_true] at h
  obtain ⟨-, hlast⟩ := h
  cases heq : e.operands.getLast? with
  | some last =>
    rw [heq] at hlast
    exact not_sound_of_isApply hlast (hs.operands last (List.mem_of_getLast? heq))
  | none =>
    rw [heq] at hlast
    cases hlast

/-- An error that is put behind something stays there, whatever it is put behind. -/
theorem not_sound_appendError (lhs : Option Expr) {error : Expr} (he : ¬ error.Sound) :
    ¬ (appendError lhs error).Sound := by
  cases lhs with
  | none => exact he
  | some e =>
    show ¬ (if isErroredSequence e then pushOperand e error else .sequence [e, error] : Expr).Sound
    by_cases herrored : isErroredSequence e = true
    · rw [if_pos herrored]
      cases e with
      | apply head operands => exact not_sound_apply (List.mem_append_right _ List.mem_cons_self) he
      | annotated markup e =>
        -- an annotated sequence stays as it is, with the error that it ends in
        exact not_sound_of_isErroredSequence herrored
      | _ => cases herrored
    · rw [if_neg herrored]
      exact not_sound_apply (List.mem_cons_of_mem _ List.mem_cons_self) he

end Parser

/-! ## Routines that keep errors -/

/-- The request reads an expression with one of the readers of the parser. -/
def ParseRequest.Reads : ParseRequest → Prop
  | .group | .argument | .optionalArgument | .expression _ => True
  | _ => False

/-- No error node stands in the answer. -/
def ParseRequest.SoundAnswer : (q : ParseRequest) → q.Response → Prop
  | .group, o => SoundIfAny o
  | .argument, o => SoundIfAny o
  | .optionalArgument, o => SoundIfAny o
  | .expression _, o => SoundIfAny o
  | _, _ => True

/-- The routine only has expressions read, and once an error node stood in one of them the routine
gives nothing that is sound. -/
def Routine.KeepsErrors : ParseRoutine (Option Expr) → Prop
  | .done _ => True
  | .ask q next => q.Reads ∧ ∀ x, (next x).KeepsErrors ∧
      (¬ q.SoundAnswer x → (next x).EndsIn fun o => ¬ SoundRead o)

/-- So does the routine of an entry, whatever it is called with. -/
def ParseHandler.KeepsErrors (handler : ParseHandler) : Prop :=
  ∀ lhs p, (handler lhs p).KeepsErrors

/-- The routine of an entry gives nothing that is sound if it is called with something that is
not. -/
def ParseHandler.KeepsOperand (handler : ParseHandler) : Prop :=
  ∀ lhs p, ¬ SoundIfAny lhs → (handler lhs p).EndsIn fun o => ¬ SoundRead o

/-- Entries of the kind are given something that was read before: a left operand, a body or the
cells of an environment. -/
def Kind.TakesOperand (kind : Kind) : Prop :=
  kind ∈ [Kind.infixOp, .postfixOp, .matchfix, .environment]

instance (kind : Kind) : Decidable kind.TakesOperand :=
  inferInstanceAs (Decidable (_ ∈ _))

/-- What the entries of a lexicon must keep to: routines keep errors, and no trigger or close
delimiter holds a command that begins or ends an environment. -/
structure Index.Orderly (ix : Index) : Prop where
  arranged : ix.Arranged
  keepsErrors : ∀ e ∈ ix.latest, ∀ handler, e.parse = some handler → handler.KeepsErrors
  keepsOperand : ∀ e ∈ ix.latest, e.role.kind.TakesOperand → ∀ handler, e.parse = some handler →
    handler.KeepsOperand
  trigger : ∀ e ∈ ix.latest, Token.Boundless e.trigger
  close : ∀ e ∈ ix.latest, ∀ close, e.role.close? = some close → Token.Boundless close

/-- The readers inside keep environments in order. -/
structure Nested.Tracks (ix : Index) (n : Nat) (inner : Nested) : Prop where
  moving : inner.Moving n
  expression : ∀ p, Reading.Tracks ix n SoundIfAny (inner.expression p)
  primary : ∀ p, Reading.Tracks ix n SoundIfAny (inner.primary p)

namespace Parser

open MathMarkup.Reading

variable {α : Type} {ix : Index} {inner : Nested} {n : Nat} {pre : List Token → Prop}

/-! ## Single tokens -/

/-- Ending a group passes no begin or end command, so it keeps environments in order. -/
theorem tracks_matchCloseGroup {ok : Bool → Prop} : Tracks ix n ok matchCloseGroup := by
  refine tracks_peek_bind fun o => ?_
  cases o with
  | none => exact tracks_pure _
  | some t =>
    by_cases hk : t.kind = .closeGroup
    · simp only [if_pos hk]
      refine tracks_after ((tracks_advance 1).mono (fun ts hts => ?_) fun _ h => h)
        fun _ => tracks_pure _
      exact frontClear_one hts.2 (Token.not_bounds_of_kind (by rw [hk]; decide))
    · simp only [if_neg hk]
      exact tracks_pure _

/-- A spelling that is no begin or end command is passed freely. -/
theorem tracks_matchToken {ok : Bool → Prop} {raw : String} (hb : Token.Boundless [raw]) :
    Tracks ix n ok (matchToken raw) := by
  refine tracks_peek_bind fun o => ?_
  cases o with
  | none => exact tracks_pure _
  | some t =>
    by_cases hraw : t.raw = raw
    · simp only [if_pos hraw]
      refine tracks_after ((tracks_advance 1).mono (fun ts hts => ?_) fun _ h => h)
        fun _ => tracks_pure _
      exact frontClear_one hts.2 (Token.not_bounds_of_boundless hb (List.mem_singleton.2 hraw))
    · simp only [if_neg hraw]
      exact tracks_pure _

/-- Spellings that are no begin or end commands are passed freely. -/
theorem tracks_matchTokens {ok : Bool → Prop} {raws : List String} (hb : Token.Boundless raws) :
    Tracks ix n ok (matchTokens raws) := by
  refine tracks_get_bind fun p => ?_
  by_cases hraws : Token.raws (p.ahead.take raws.length) = raws
  · rw [if_pos hraws]
    refine tracks_after ((tracks_advance _).mono (fun ts hts => ?_) fun _ h => h)
      fun _ => tracks_pure _
    rw [hts.2]
    exact frontClear_of_raws hb hraws
  · rw [if_neg hraws]
    exact tracks_pure _

/-- What is read and given as something that was read keeps its soundness. -/
theorem tracks_some {r : Reading Expr} (h : TracksFrom ix n pre Sound r) :
    TracksFrom ix n pre SoundIfAny (r >>= fun e => pure (some e)) :=
  tracks_bind h (fun _ => tracks_pure _) fun _ he =>
    gives_pure fun hs => he (soundIfAny_some.1 hs)

theorem tracks_read {r : Reading Expr} (h : TracksFrom ix n pre Sound r) :
    TracksFrom ix n pre SoundRead (r >>= fun e => pure (some e)) :=
  tracks_bind h (fun _ => tracks_pure _) fun _ he =>
    gives_pure fun hs => he (soundRead_some.1 hs)

/-! ## Groups and arguments -/

/-- Whatever an error quotes, it is not sound. -/
theorem gives_error_unsound (code : ErrorCode) (arg : Option String) (i : Nat) :
    Gives (fun e => ¬ e.Sound) (Reading.error code arg i) :=
  fun _ => not_sound_error _ _ _

/-- A group that is skipped to its end is an error. -/
theorem gives_skipToCloseGroup_unsound (i : Nat) (body : Option Expr) :
    Gives (fun e => ¬ e.Sound) (skipToCloseGroup i body) := by
  refine gives_after fun p => gives_after fun _ => ?_
  split
  · exact gives_pure (not_sound_appendError _ (not_sound_error _ _ _))
  · exact gives_bind (gives_error_unsound _ _ _) fun e he =>
      gives_pure (not_sound_appendError _ he)

/-- Skipping passes the tokens up to the bracket and drops none. -/
theorem passing_skipToCloseGroup (i : Nat) (body : Option Expr) :
    Passing n (skipToCloseGroup i body) := by
  refine passing_bind (passing_of_state fun _ => rfl) fun p => ?_
  refine passing_bind (passing_advance _) fun _ => ?_
  split
  · exact passing_pure _
  · exact passing_bind (passing_of_state fun _ => rfl) fun _ => passing_pure _

/-- A group in braces that is sound kept the environments inside in order. -/
theorem tracks_braceGroup (hi : inner.Tracks ix n) :
    TracksFrom ix n (FrontClear 1) Sound (braceGroup inner) := by
  refine tracks_state_bind (fun _ => rfl) fun start => ?_
  refine tracks_after (tracks_advance 1) fun _ =>
    tracks_after tracks_matchCloseGroup fun closed => ?_
  split
  · exact tracks_pure _
  · refine tracks_bind (hi.expression _) (fun body => ?_) fun body hbody => ?_
    · refine tracks_after tracks_matchCloseGroup fun closed => ?_
      split
      · exact tracks_pure _
      · exact tracks_of_unsound (passing_skipToCloseGroup _ _)
          (gives_skipToCloseGroup_unsound _ _)
    · refine gives_after fun closed => ?_
      split
      · exact gives_pure (not_sound_getD hbody _)
      · exact gives_skipToCloseGroup_unsound _ _

/-- A group of any kind that is sound kept the environments inside in order. -/
theorem tracks_group (hi : inner.Tracks ix n) : Tracks ix n SoundIfAny (group inner) := by
  refine tracks_peek_bind fun o => ?_
  cases o with
  | none => exact tracks_pure _
  | some t =>
    by_cases hk : t.kind = .openGroup
    · simp only [if_pos hk]
      refine (tracks_some (tracks_braceGroup hi)).mono (fun ts hts => ?_) fun _ h => h
      exact frontClear_one hts.2 (Token.not_bounds_of_kind (by rw [hk]; decide))
    · simp only [if_neg hk]
      exact tracks_pure _

/-- A number that is cut has nothing but digits. -/
theorem all_isDigit_of_splitDigit? {t : Token} {parts : String × String}
    (h : splitDigit? t = some parts) : t.raw.toList.all Char.isDigit = true := by
  unfold splitDigit? at h
  by_cases hc : t.kind = .number ∧ t.raw.toList.all Char.isDigit = true
  · exact hc.2
  · rw [if_neg hc] at h
    cases h

/-- Taking the first digit off a number passes that digit and cuts the number. -/
theorem passes_takeDigit {p : Parser} {t : Token} {first rest : String}
    (hp : p.ahead.head? = some t) (h : splitDigit? t = some (first, rest)) :
    Passes [⟨first, .number⟩] p (takeDigit first rest p).2 := by
  have hdigits := all_isDigit_of_splitDigit? h
  obtain ⟨rfl, -, -⟩ := splitDigit?_eq_some h
  cases ha : p.ahead with
  | nil => rw [ha] at hp; cases hp
  | cons u us =>
    rw [ha] at hp
    obtain rfl := Option.some.inj hp
    refine ⟨rfl, .single ⟨[], us, first, rest, hdigits, ha, ?_⟩⟩
    show [⟨first, .number⟩] ++ ⟨rest, .number⟩ :: p.ahead.drop 1 = _
    rw [ha]
    rfl

/-- An argument keeps environments in order, as a digit that is cut off is no command of theirs. -/
theorem tracks_argument (hi : inner.Tracks ix n) : Tracks ix n SoundIfAny (argument inner) := by
  have hbraces : ∀ {p : Parser} {t : Token}, p.ahead.head? = some t → t.kind = .openGroup →
      FrontClear 1 p.ahead := fun hh hk =>
    frontClear_one hh (Token.not_bounds_of_kind (by rw [hk]; decide))
  refine ⟨⟨conserves_argument hi.moving.conserves, fun p hp => ?_⟩,
    fun p hp _ hok opened hclose => ?_⟩
  · rw [argument, peek_bind_apply]
    cases hh : p.ahead.head? with
    | none => exact ⟨[], passes_of_sides rfl rfl⟩
    | some t =>
      dsimp only
      split
      · exact (tracks_some (tracks_braceGroup hi)).passes p hp
      · cases hs : splitDigit? t with
        | none => exact (hi.primary _).passes p hp
        | some parts => exact ⟨_, passes_takeDigit hh hs⟩
  · rw [argument, peek_bind_apply] at hok hclose
    cases hh : p.ahead.head? with
    | none =>
      rw [hh] at hclose
      exact hclose
    | some t =>
      rw [hh] at hok hclose
      dsimp only at hok hclose
      by_cases hk : t.kind = .openGroup
      · rw [if_pos hk] at hok hclose
        exact (tracks_some (tracks_braceGroup hi)).closable p hp (hbraces hh hk) hok opened hclose
      · rw [if_neg hk] at hok hclose
        cases hs : splitDigit? t with
        | none =>
          rw [hs] at hok hclose
          exact (hi.primary _).closable p hp trivial hok opened hclose
        | some parts =>
          -- the digit that is taken is in no one's way, and neither is the cut
          rw [hs] at hclose
          have hdigit : ∀ u ∈ [(⟨parts.1, .number⟩ : Token)], ¬ u.Bounds := by
            intro u hu
            rw [List.mem_singleton.1 hu]
            exact Token.not_bounds_of_kind (by simp)
          exact (Closable.append hdigit hclose).of_cuts (passes_takeDigit hh hs).ahead

/-- What stands in square brackets, itself absent between adjoining ones, or nothing unless there
are brackets. -/
def bracketed (inner : Nested) : Reading (Option (Option Expr)) := do
  if ← Reading.matchToken "[" then
    let body ← inner.expression .loosest
    if ← Reading.matchToken "]" then return some body else return none
  else return none

/-- A cursor that is set where it stands stays. -/
theorem seek_index (p : Parser) : p.seek p.index = p := by
  rw [seek, if_pos (Nat.le_refl _), Nat.sub_self]
  rfl

/-- An optional argument goes back where there is none. -/
theorem optionalArgument_eq (inner : Nested) :
    optionalArgument inner = rewinding (bracketed inner) >>= fun o => pure o.join := by
  funext p
  rw [bind_apply, optionalArgument, bind_apply, show Reading.index p = (p.index, p) from rfl,
    bind_apply]
  -- both begin with the bracket, and differ only in how they go back
  have hbracketed : bracketed inner p = (if (matchToken "[" p).1 then do
      let body ← inner.expression .loosest
      if ← Reading.matchToken "]" then return some body else return none
    else return none : Reading (Option (Option Expr))) (matchToken "[" p).2 := rfl
  rcases matchToken_apply "[" p with hopen | hopen
  · rw [hopen] at hbracketed ⊢
    dsimp only at hbracketed ⊢
    rw [if_pos rfl, bind_apply] at hbracketed ⊢
    rcases matchToken_apply "]" (inner.expression .loosest (p.advance 1)).2 with hclose | hclose
    · rw [bind_apply, hclose] at hbracketed ⊢
      rw [rewinding_of_some hbracketed]
      rfl
    · rw [bind_apply, hclose] at hbracketed ⊢
      rw [rewinding_of_none hbracketed]
      rfl
  · rw [hopen] at hbracketed ⊢
    rw [rewinding_of_none hbracketed]
    show (none, p) = (none, p.seek p.index)
    rw [seek_index]

/-- An argument in square brackets that is sound kept the environments in order. -/
theorem tracks_optionalArgument (hi : inner.Tracks ix n) :
    Tracks ix n SoundIfAny (optionalArgument inner) := by
  have hbracketed : Tracks ix n (fun o => ∃ body ∈ o, SoundIfAny body) (bracketed inner) := by
    refine tracks_after (tracks_matchToken (by decide)) fun opened => ?_
    split
    · refine tracks_bind (hi.expression _) (fun body => ?_) fun body hbody => ?_
      · refine tracks_after (tracks_matchToken (by decide)) fun closed => ?_
        split <;> exact tracks_pure _
      · refine gives_after fun closed => ?_
        split
        · exact gives_pure fun ⟨_, hm, hs⟩ => hbody (Option.some.inj hm ▸ hs)
        · exact gives_pure fun ⟨_, hm, _⟩ => absurd hm (by simp)
    · exact tracks_pure _
  rw [optionalArgument_eq]
  refine tracks_bind (tracks_rewinding hbracketed) (fun _ => tracks_pure _) fun o ho => ?_
  refine gives_pure fun hs => ho fun body hbody => ?_
  rw [hbody] at hs
  exact hs

/-- No error node stands in the arguments, if there are any. -/
def SoundArguments (o : Option (List Expr)) : Prop :=
  ∀ es ∈ o, ∀ e ∈ es, Sound e

/-- Arguments in parentheses that are sound kept the environments in order. -/
theorem tracks_argumentList (hi : inner.Tracks ix n) :
    Tracks ix n SoundArguments (argumentList inner) := by
  refine tracks_rewinding (tracks_after (tracks_matchToken (by decide)) fun opened => ?_)
  split
  · refine tracks_after (tracks_matchToken (by decide)) fun closed => ?_
    split
    · exact tracks_pure _
    · refine tracks_bind (hi.expression _) (fun body => ?_) fun body hbody => ?_
      · refine tracks_after (tracks_matchToken (by decide)) fun closed => ?_
        split <;> exact tracks_pure _
      · refine gives_after fun closed => ?_
        split
        · refine gives_pure fun ⟨es, hm, hs⟩ => hbody (soundIfAny_of_splat fun o ho => ?_)
          rw [← Option.some.inj hm] at hs
          exact hs o ho
        · exact gives_pure fun ⟨_, hm, _⟩ => absurd hm (by simp)
  · exact tracks_pure _

/-! ## Routines -/

/-- A request that has an expression read keeps the environments in order if the answer is sound. -/
theorem tracks_answer (hi : inner.Tracks ix n) {q : ParseRequest} (hq : q.Reads) :
    Tracks ix n q.SoundAnswer (answer inner q) := by
  cases q with
  | group => exact tracks_group hi
  | argument => exact tracks_argument hi
  | optionalArgument => exact tracks_optionalArgument hi
  | expression min => exact hi.expression min
  | _ => exact hq.elim

/-- A routine that keeps errors keeps the environments in order if its result is sound. -/
theorem tracks_runHandler (hi : inner.Tracks ix n) {handler : ParseHandler}
    (hh : handler.KeepsErrors) (lhs : Option Expr) (p : Precedence) :
    Tracks ix n SoundRead (runHandler inner handler lhs p) := by
  have hrun : ∀ r : ParseRoutine (Option Expr), r.KeepsErrors →
      Tracks ix n SoundRead (r.run (answer inner)) := by
    intro r hr
    induction r with
    | done o => exact tracks_pure o
    | ask q next ih =>
      exact tracks_bind (tracks_answer hi hr.1) (fun x => ih x (hr.2 x).1)
        fun x hx => gives_run _ ((hr.2 x).2 hx)
  exact hrun _ (hh lhs p)

/-- A routine that keeps its operand gives nothing sound for an unsound one. -/
theorem gives_runHandler_unsound {handler : ParseHandler} (hh : handler.KeepsOperand)
    {lhs : Option Expr} (hl : ¬ SoundIfAny lhs) (p : Precedence) :
    Gives (fun o => ¬ SoundRead o) (runHandler inner handler lhs p) :=
  gives_run _ (hh lhs p hl)

/-! ## Operators -/

theorem tracks_infixApplication (hi : inner.Tracks ix n) (entry : IndexedEntry) (lhs : Expr)
    (p : Precedence) : Tracks ix n Sound (infixApplication inner entry lhs p) := by
  refine tracks_bind (hi.expression p) (fun _ => tracks_pure _) fun rhs hrhs => gives_pure ?_
  exact not_sound_apply (List.mem_cons_of_mem _ List.mem_cons_self) (not_sound_getD hrhs _)

theorem tracks_postfixApplication (entry : IndexedEntry) (lhs : Expr) :
    Tracks ix n Sound (postfixApplication entry lhs) := by
  unfold postfixApplication
  dsimp only
  split
  · exact tracks_after (tracks_of_sides (conserves_warn _) fun _ => ⟨rfl, rfl⟩)
      fun _ => tracks_pure _
  · exact tracks_after (tracks_pure _) fun _ => tracks_pure _

/-- An operator that gives something sound kept the environments in order. -/
theorem tracks_applyOperator (hx : ix.Orderly) (hi : inner.Tracks ix n) {entry : IndexedEntry}
    (he : entry ∈ ix.latest) (lhs : Expr) (p : Precedence) :
    Tracks ix n SoundRead (applyOperator inner entry lhs p) := by
  unfold applyOperator
  split
  · exact tracks_runHandler hi (hx.keepsErrors _ he _ ‹_›) _ _
  · exact tracks_read (tracks_postfixApplication entry lhs)
  · exact tracks_runHandler hi (hx.keepsErrors _ he _ ‹_›) _ _
  · exact tracks_read (tracks_infixApplication hi entry lhs _)
  · exact tracks_pure _

/-- The left operand stays in what an operator makes of it. -/
theorem gives_applyOperator_unsound (hx : ix.Orderly) {entry : IndexedEntry}
    (he : entry ∈ ix.latest) {lhs : Expr}
    (hl : ¬ lhs.Sound) (p : Precedence) :
    Gives (fun o => ¬ SoundRead o) (applyOperator inner entry lhs p) := by
  -- with a routine its assumption keeps the operand, without one the operand is a part of the
  -- result
  have hleft : ¬ SoundIfAny (some lhs) := fun h => hl (soundIfAny_some.1 h)
  have hsome : ∀ {r : Reading Expr}, Gives (fun e => ¬ e.Sound) r →
      Gives (fun o => ¬ SoundRead o) (r >>= fun e => pure (some e)) := fun h =>
    gives_bind h fun e he => gives_pure fun hs => he (soundRead_some.1 hs)
  unfold applyOperator
  split
  case h_1 hrole hparse =>
    refine gives_runHandler_unsound (hx.keepsOperand _ he ?_ _ hparse) hleft _
    rw [hrole]
    show Kind.postfixOp.TakesOperand
    decide
  case h_2 =>
    have hsplat : ¬ (Expr.apply entry.head (splat (some lhs))).Sound := fun hs =>
      hleft (soundIfAny_of_splat (sound_apply_iff.1 hs).2)
    refine hsome ?_
    unfold postfixApplication
    dsimp only
    split
    · exact gives_after fun _ => gives_pure hsplat
    · exact gives_pure hsplat
  case h_3 hrole hparse =>
    refine gives_runHandler_unsound (hx.keepsOperand _ he ?_ _ hparse) hleft _
    rw [hrole]
    show Kind.infixOp.TakesOperand
    decide
  case h_4 =>
    exact hsome (gives_after fun rhs => gives_pure (not_sound_apply List.mem_cons_self hl))
  case h_5 => exact gives_pure not_soundRead_none

/-- An operator that is tried keeps the environments in order or goes back to where it began. -/
theorem attempts_tryOperator (hx : ix.Orderly) (hi : inner.Tracks ix n)
    {candidate : Nat × IndexedEntry} (he : candidate.2 ∈ ix.latest) (min : Precedence)
    (lhs : Expr) :
    Attempts ix n (FrontClear candidate.1) Sound (tryOperator inner min lhs candidate) := by
  unfold tryOperator
  split
  · split
    · exact attempts_rewinding (tracks_after (tracks_advance _) fun _ =>
        tracks_applyOperator hx hi he _ _)
    · exact attempts_none
  · exact attempts_none

/-- Taking back what failed makes nothing sound. -/
theorem gives_rewinding_unsound {step : Reading (Option Expr)}
    (h : Gives (fun o => ¬ SoundRead o) step) : Gives (fun o => ¬ SoundRead o) (rewinding step) :=
  gives_rewinding not_soundRead_none h

/-- An operator after an unsound operand gives nothing sound. -/
theorem gives_tryOperator_unsound (hx : ix.Orderly) {candidate : Nat × IndexedEntry}
    (he : candidate.2 ∈ ix.latest) (min : Precedence)
    {lhs : Expr} (hl : ¬ lhs.Sound) :
    Gives (fun o => ¬ SoundRead o) (tryOperator inner min lhs candidate) := by
  unfold tryOperator
  split
  · split
    · exact gives_rewinding_unsound (gives_after fun _ => gives_applyOperator_unsound hx he hl _)
    · exact gives_pure not_soundRead_none
  · exact gives_pure not_soundRead_none

/-- The factors of a product hold all its errors. -/
theorem sound_of_factors {lhs : Expr} (h : ∀ o ∈ factors lhs, o.Sound) : lhs.Sound := by
  unfold factors at h
  cases lhs with
  | apply head operands =>
    dsimp only at h
    by_cases hhead : head = "Multiply"
    · rw [if_pos hhead] at h
      exact sound_apply_iff.2 ⟨by rw [hhead]; decide, h⟩
    · rw [if_neg hhead] at h
      exact h _ (List.mem_singleton_self _)
  | _ => exact h _ (List.mem_singleton_self _)

/-- Juxtaposition keeps the environments of the operand on the right in order. -/
theorem tracks_juxtapose (hi : inner.Tracks ix n) (min : Precedence) (lhs : Expr) :
    Tracks ix n SoundIfAny (juxtapose ix inner min lhs) := by
  unfold juxtapose
  split
  · exact tracks_pure _
  · refine tracks_state_bind (fun _ => rfl) fun last => ?_
    split
    · exact tracks_pure _
    · refine tracks_rewinding (tracks_bind (hi.expression _) (fun rhs => ?_) fun rhs hrhs => ?_)
      · split <;> exact tracks_pure _
      · split
        · refine gives_pure fun hs => hrhs (soundIfAny_some.2 ?_)
          exact (sound_apply_iff.1 (soundRead_some.1 hs)).2 _
            (List.mem_append_right _ List.mem_cons_self)
        · exact gives_pure not_soundRead_none

/-- A product with an unsound factor is unsound. -/
theorem gives_juxtapose_unsound (ix : Index) (inner : Nested) (min : Precedence) {lhs : Expr}
    (hl : ¬ lhs.Sound) : Gives (fun o => ¬ SoundRead o) (juxtapose ix inner min lhs) := by
  unfold juxtapose
  split
  · exact gives_pure not_soundRead_none
  · refine gives_after fun last => ?_
    split
    · exact gives_pure not_soundRead_none
    · refine gives_rewinding_unsound (gives_after fun rhs => ?_)
      split
      · refine gives_pure fun hs => hl (sound_of_factors fun o ho => ?_)
        exact (sound_apply_iff.1 (soundRead_some.1 hs)).2 o (List.mem_append_left _ ho)
      · exact gives_pure not_soundRead_none

/-- What a look-up finds comes next, as long as its trigger. -/
theorem raws_of_mem_lookup (ha : ix.Arranged) {kind : Kind} {ts : List Token}
    {found : Nat × IndexedEntry} (hf : found ∈ ix.lookup kind (Token.raws ts)) :
    found.2.trigger.length = found.1 ∧ Token.raws (ts.take found.1) = found.2.trigger := by
  obtain ⟨-, -, -, hlen, htrigger⟩ := Index.of_mem_lookup ha hf
  constructor
  · rw [htrigger, List.length_take, Nat.min_eq_left hlen]
  · rw [htrigger, Token.raws, Token.raws, List.map_take]

/-- A trigger that comes next holds no command that begins or ends an environment. -/
theorem frontClear_of_mem_lookup (hx : ix.Orderly) {kind : Kind} {ts : List Token}
    {found : Nat × IndexedEntry} (hf : found ∈ ix.lookup kind (Token.raws ts)) :
    FrontClear found.1 ts := by
  obtain ⟨he, -⟩ := Index.of_mem_lookup hx.arranged hf
  obtain ⟨hlength, hraws⟩ := raws_of_mem_lookup hx.arranged hf
  have hfront : FrontClear found.2.trigger.length ts :=
    frontClear_of_raws (hx.trigger _ he) (by rw [hlength, hraws])
  rwa [hlength] at hfront

/-- A candidate for a suffix is a usable entry. -/
theorem mem_latest_of_operatorCandidates (hx : ix.Orderly) {raws : List String}
    {c : Nat × IndexedEntry} (hc : c ∈ operatorCandidates ix raws) : c.2 ∈ ix.latest :=
  (mem_operatorCandidates hc).elim (fun h => (Index.of_mem_lookup hx.arranged h).1)
    fun h => (Index.of_mem_lookup hx.arranged h).1

/-- Candidates one after another, each with its trigger next. -/
theorem attempts_candidates {attempt : Nat × IndexedEntry → Reading (Option Expr)}
    {candidates : List (Nat × IndexedEntry)}
    (h : ∀ c ∈ candidates, Attempts ix n (FrontClear c.1) Sound (attempt c)) :
    Attempts ix n (fun ts => ∀ c ∈ candidates, FrontClear c.1 ts) Sound
      (firstOf attempt candidates) :=
  attempts_firstOf (fun _ _ _ => FrontClear.of_cuts) h

/-- Candidates of one kind that a look-up finds. -/
theorem attempts_lookup (hx : ix.Orderly) {attempt : Nat × IndexedEntry → Reading (Option Expr)}
    (kind : Kind)
    (h : ∀ c : Nat × IndexedEntry, c.2 ∈ ix.latest →
      Attempts ix n (FrontClear c.1) Sound (attempt c)) :
    Attempts ix n pre Sound (do
      Reading.firstOf attempt (ix.lookup kind (← Reading.upcoming))) := by
  refine attempts_view_bind (fun _ => rfl) fun raws => ?_
  refine (attempts_candidates fun c hc =>
    h c (Index.of_mem_lookup hx.arranged hc).1).mono fun ts hts c hc => ?_
  rw [← hts.2] at hc
  exact frontClear_of_mem_lookup hx hc

/-- A suffix that gives something sound kept the environments in order. -/
theorem tracks_suffix (hx : ix.Orderly) (hi : inner.Tracks ix n) (min : Precedence)
    (lhs : Expr) : Tracks ix n SoundIfAny (suffix ix inner min lhs) := by
  refine tracks_upcoming_bind fun raws => ?_
  cases hc : operatorCandidates ix raws with
  | nil => exact (tracks_juxtapose hi min lhs).from
  | cons top others =>
    dsimp only
    split
    · rw [← hc]
      refine ((attempts_candidates fun c hm =>
        attempts_tryOperator hx hi (mem_latest_of_operatorCandidates hx hm) min lhs).mono
          fun ts hts c hm => ?_).toTracksFrom
      rw [← hts.2] at hm
      exact (mem_operatorCandidates hm).elim (frontClear_of_mem_lookup hx)
        (frontClear_of_mem_lookup hx)
    · exact tracks_pure _

/-- A suffix after an unsound operand gives nothing sound. -/
theorem gives_suffix_unsound (hx : ix.Orderly) (min : Precedence) {lhs : Expr}
    (hl : ¬ lhs.Sound) : Gives (fun o => ¬ SoundRead o) (suffix ix inner min lhs) := by
  refine gives_after fun raws => ?_
  cases hc : operatorCandidates ix raws with
  | nil => exact gives_juxtapose_unsound ix inner min hl
  | cons top others =>
    dsimp only
    split
    · refine gives_firstOf not_soundRead_none fun c hm => ?_
      rw [← hc] at hm
      exact gives_tryOperator_unsound hx (mem_latest_of_operatorCandidates hx hm) min hl
    · exact gives_pure not_soundRead_none

/-- Rounds of suffixes that end soundly were sound all along and kept environments in order. -/
theorem tracks_suffixes (hx : ix.Orderly) (hi : inner.Tracks ix n) (min : Precedence)
    (lhs : Expr) : Tracks ix n Sound (suffixes ix inner min lhs) := by
  refine tracks_loop (fun e => ?_) (fun e he => ?_) lhs
  · refine tracks_bind (tracks_suffix hx hi min e) (fun o => ?_) fun o ho => ?_
    · split <;> exact tracks_pure _
    · split
      · exact gives_pure fun hs => ho (soundIfAny_some.2 hs)
      · exact absurd soundIfAny_none ho
  · refine gives_bind (gives_suffix_unsound hx min he) fun o ho => ?_
    split
    · exact gives_pure fun hs => ho (soundRead_some.2 hs)
    · exact gives_pure he

/-- Rounds of suffixes never mend an unsound operand. -/
theorem gives_suffixes_unsound (hx : ix.Orderly) (min : Precedence) {lhs : Expr}
    (hl : ¬ lhs.Sound) : Gives (fun e => ¬ e.Sound) (suffixes ix inner min lhs) := by
  refine gives_loop (fun e he => ?_) hl
  refine gives_bind (gives_suffix_unsound hx min he) fun o ho => ?_
  split
  · exact gives_pure fun hs => ho (soundRead_some.2 hs)
  · exact gives_pure he

/-! ## Primary expressions -/

/-- Digits and the thin spaces between them. -/
theorem frontClear_digitGroups (ts : List Token) : FrontClear (digitGroups ts).2 ts := by
  fun_induction digitGroups ts with
  | case1 => exact fun _ ht => absurd ht List.not_mem_nil
  | case2 t hk sep rest hsep r ih =>
    rw [FrontClear, List.take_succ_cons, List.forall_mem_cons, List.take_succ_cons,
      List.forall_mem_cons]
    refine ⟨Token.not_bounds_of_kind (by rw [hk]; decide), ?_, ih⟩
    exact @Token.not_bounds_of_boundless [thinSpace] (by decide) _
      (List.mem_singleton.2 hsep)
  | case3 t hk sep rest hsep =>
    exact frontClear_one rfl (Token.not_bounds_of_kind (by rw [hk]; decide))
  | case4 t hk => exact frontClear_one rfl (Token.not_bounds_of_kind (by rw [hk]; decide))
  | case5 t ts hk => exact fun _ ht => absurd ht List.not_mem_nil

/-- The tokens of an overline are digits and brackets and no begin or end command. -/
theorem frontClear_of_overlined? {ts : List Token} {digits : String}
    (h : overlined? ts = some digits) : FrontClear 4 ts := by
  unfold overlined? at h
  split at h
  case h_2 => cases h
  case h_1 line left number right rest =>
    split at h
    case isFalse => cases h
    case isTrue hc =>
      obtain ⟨hline, hleft, hnumber, hright, -⟩ := hc
      -- the command, the braces and the number: none of the four tokens bounds anything
      have hboundless : ∀ {t : Token}, t.raw = "\\overline" ∨ t.raw = "\x7b" → ¬ t.Bounds := by
        intro t ht
        refine @Token.not_bounds_of_boundless ["\\overline", "\x7b"] (by decide) _ ?_
        rcases ht with ht | ht <;> simp [ht]
      intro t ht
      simp only [List.take_succ_cons, List.take_zero, List.mem_cons, List.not_mem_nil,
        or_false] at ht
      rcases ht with rfl | rfl | rfl | rfl
      · exact hboundless (Or.inl hline)
      · exact hboundless (Or.inr hleft)
      · exact Token.not_bounds_of_kind (by rw [hnumber]; decide)
      · exact Token.not_bounds_of_kind (by rw [hright]; decide)

/-- The tokens of a repeating part hold no begin or end command. -/
theorem frontClear_of_repeatingPart? {pointed : Bool} {ts : List Token} {digits : String}
    {length : Nat} (h : repeatingPart? pointed ts = some (digits, length)) :
    FrontClear length ts := by
  unfold repeatingPart? at h
  split at h
  · obtain ⟨d, hd, heq⟩ := Option.map_eq_some_iff.1 h
    obtain ⟨-, rfl⟩ := Prod.mk.inj heq
    exact frontClear_of_overlined? hd
  · cases ts with
    | nil => cases h
    | cons point rest =>
      dsimp only at h
      by_cases hpoint : point.raw = "."
      · rw [if_pos hpoint] at h
        obtain ⟨d, hd, heq⟩ := Option.map_eq_some_iff.1 h
        obtain ⟨-, rfl⟩ := Prod.mk.inj heq
        rw [FrontClear, List.take_succ_cons, List.forall_mem_cons]
        refine ⟨?_, frontClear_of_overlined? hd⟩
        exact @Token.not_bounds_of_boundless ["."] (by decide) _
          (List.mem_singleton.2 hpoint)
      · rw [if_neg hpoint] at h
        cases h

/-- A numeral passes no begin or end command. -/
theorem tracks_numeral : Tracks ix n Sound numeral := by
  refine tracks_get_bind fun p => ?_
  refine tracks_after ((tracks_advance _).mono (fun ts hts => ?_) fun _ h => h) fun _ => ?_
  · rw [← hts.2]
    exact frontClear_digitGroups ts
  · refine tracks_get_bind fun q => ?_
    split
    case h_2 => exact tracks_pure _
    case h_1 digits length hr =>
      refine tracks_after ((tracks_advance _).mono (fun ts hts => ?_) fun _ h => h)
        fun _ => tracks_pure _
      rw [hts.2]
      exact frontClear_of_repeatingPart? hr

/-- A text without its braces is one token, and no begin or end command. -/
theorem tracks_textToken {ok : String → Prop} : Tracks ix n ok textToken := by
  refine tracks_peek_bind fun o => ?_
  cases o with
  | none => exact tracks_pure _
  | some t =>
    by_cases hk : t.kind = .text
    · simp only [if_pos hk]
      refine tracks_after ((tracks_advance 1).mono (fun ts hts => ?_) fun _ h => h)
        fun _ => tracks_pure _
      exact frontClear_one hts.2 (Token.not_bounds_of_kind (by rw [hk]; decide))
    · simp only [if_neg hk]
      exact tracks_pure _

/-- A text passes its command, its braces and what is between them. -/
theorem tracks_text : TracksFrom ix n (FrontClear 1) Sound text := by
  refine tracks_after (tracks_advance 1) fun _ => tracks_state_bind (fun _ => rfl) fun start => ?_
  refine tracks_after (tracks_matchToken (by decide)) fun opened => ?_
  split
  · refine tracks_after tracks_textToken fun text => ?_
    refine tracks_after tracks_matchCloseGroup fun closed => ?_
    split
    · exact tracks_pure _
    · exact tracks_of_state fun _ => rfl
  · exact tracks_pure _

/-- The closing bracket came, and no error node stands in the body before it. -/
def SoundBody (o : Option (Option Expr)) : Prop :=
  ∃ body ∈ o, SoundIfAny body

theorem not_soundBody_some {body : Option Expr} (h : ¬ SoundIfAny body) :
    ¬ SoundBody (some body) :=
  fun ⟨_, hm, hs⟩ => h (Option.some.inj hm ▸ hs)

theorem not_soundBody_none : ¬ SoundBody none :=
  fun ⟨_, hm, _⟩ => absurd hm (by simp)

/-- A sound body before its closing delimiter kept the environments in order. -/
theorem tracks_delimited (hi : inner.Tracks ix n) {close : List String}
    (hc : Token.Boundless close) : Tracks ix n SoundBody (delimited inner close) := by
  refine tracks_after (tracks_matchTokens hc) fun closed => ?_
  split
  · exact tracks_pure _
  · refine tracks_bind (hi.expression _) (fun body => ?_) fun body hbody => ?_
    · refine tracks_after (tracks_matchTokens hc) fun closed => ?_
      split <;> exact tracks_pure _
    · refine gives_after fun closed => ?_
      split
      · exact gives_pure (not_soundBody_some hbody)
      · exact gives_pure not_soundBody_none

/-- Entries with a closing delimiter are given what is inside the delimiters. -/
theorem takesOperand_of_close? {role : Role} {close : List String}
    (h : role.close? = some close) : role.kind.TakesOperand := by
  cases role with
  | «matchfix» close =>
    show Kind.matchfix.TakesOperand
    decide
  | _ => cases h

/-- A matchfix operator keeps the environments inside in order or goes back. -/
theorem attempts_tryMatchfix (hx : ix.Orderly) (hi : inner.Tracks ix n)
    {candidate : Nat × IndexedEntry} (he : candidate.2 ∈ ix.latest) :
    Attempts ix n (FrontClear candidate.1) Sound (tryMatchfix inner candidate) := by
  refine attempts_rewinding ?_
  dsimp only
  cases hclose : candidate.2.role.close? with
  | none => exact tracks_pure _
  | some close =>
    -- the delimiter that closes bounds nothing either, as the table is in order
    have hdelimited := tracks_delimited hi (hx.close _ he close hclose)
    refine tracks_after (tracks_advance _) fun _ =>
      tracks_bind hdelimited (fun o => ?_) fun o ho => ?_
    · split
      · exact tracks_pure _
      · split
        · exact tracks_runHandler hi (hx.keepsErrors _ he _ ‹_›) _ _
        · exact tracks_pure _
    · cases o with
      | none => exact gives_pure not_soundRead_none
      | some body =>
        have hbody : ¬ SoundIfAny body := fun hs => ho ⟨body, rfl, hs⟩
        dsimp only
        split
        · refine gives_runHandler_unsound (hx.keepsOperand _ he ?_ _ ‹_›) hbody _
          exact takesOperand_of_close? hclose
        · refine gives_pure fun hs => hbody (soundIfAny_of_splat ?_)
          exact (sound_apply_iff.1 (soundRead_some.1 hs)).2

/-- Some matchfix operator keeps the environments in order, or all of them go back. -/
theorem attempts_matchfix (hx : ix.Orderly) (hi : inner.Tracks ix n) :
    Attempts ix n pre Sound (matchfix ix inner) :=
  attempts_lookup hx .matchfix fun _ he => attempts_tryMatchfix hx hi he

/-- A prefix operator keeps the environments of its operand in order or goes back. -/
theorem attempts_tryPrefixOp (hx : ix.Orderly) (hi : inner.Tracks ix n) (min : Precedence)
    {candidate : Nat × IndexedEntry} (he : candidate.2 ∈ ix.latest) :
    Attempts ix n (FrontClear candidate.1) Sound (tryPrefixOp inner min candidate) := by
  unfold tryPrefixOp
  dsimp only
  split
  · exact attempts_none
  · refine attempts_rewinding (tracks_after (tracks_advance _) fun _ => ?_)
    split
    · exact tracks_runHandler hi (hx.keepsErrors _ he _ ‹_›) _ _
    · refine tracks_bind (hi.expression _) (fun _ => tracks_pure _) fun operand ho => ?_
      refine gives_pure fun hs => ?_
      exact not_sound_apply List.mem_cons_self (not_sound_getD ho _) (soundRead_some.1 hs)

/-- Some prefix operator keeps the environments in order, or all of them go back. -/
theorem attempts_prefixOperation (hx : ix.Orderly) (hi : inner.Tracks ix n) (min : Precedence) :
    Attempts ix n pre Sound (prefixOperation ix inner min) :=
  attempts_lookup hx .prefixOp fun _ he => attempts_tryPrefixOp hx hi min he

/-- The arguments of a function keep the environments in order. -/
theorem tracks_functionArguments (hi : inner.Tracks ix n) (head : String) :
    Tracks ix n Sound (functionArguments inner head) := by
  refine tracks_bind (tracks_argumentList hi) (fun o => ?_) fun o ho => ?_
  · split
    · exact tracks_pure _
    · refine tracks_bind (hi.expression _) (fun o => ?_) fun o ho => ?_
      · split <;> exact tracks_pure _
      · split
        · refine gives_pure (not_sound_apply List.mem_cons_self fun hs => ?_)
          exact ho (soundIfAny_some.2 hs)
        · exact absurd soundIfAny_none ho
  · cases o with
    | none => exact absurd (fun _ h => absurd h (by simp)) ho
    | some operands =>
      refine gives_pure fun hs => ho fun es hes => ?_
      rw [← Option.some.inj hes]
      exact (sound_apply_iff.1 hs).2

/-- An entry for a symbol passes its spelling, which has no begin or end command. -/
theorem attempts_trySymbol (hx : ix.Orderly) (hi : inner.Tracks ix n)
    {candidate : Nat × IndexedEntry} (he : candidate.2 ∈ ix.latest) :
    Attempts ix n (FrontClear candidate.1) Sound (trySymbol inner candidate) := by
  refine attempts_rewinding (tracks_after (tracks_advance _) fun _ => ?_)
  split
  · exact tracks_runHandler hi (hx.keepsErrors _ he _ ‹_›) _ _
  · split
    · exact tracks_read (tracks_functionArguments hi _)
    · exact tracks_pure _

/-- The begin command is not read as a name. -/
theorem wordless_begin : Name.Wordless "\\begin" := by
  constructor <;> decide +kernel

/-- The end command is not read as a name. -/
theorem wordless_end : Name.Wordless "\\end" := by
  constructor <;> decide +kernel

/-- No command that begins or ends an environment is part of a name. -/
theorem frontClear_of_identifier? {ts : List Token} {name : String} {length : Nat}
    (h : Name.identifier? ts = some (name, length)) : FrontClear length ts := by
  rintro ⟨raw, kind⟩ ht ⟨hk, hraw⟩
  obtain rfl : kind = .command := hk
  rcases hraw with hraw | hraw
  · obtain rfl : raw = "\\begin" := hraw
    exact Name.not_mem_of_identifier? wordless_begin h ht
  · obtain rfl : raw = "\\end" := hraw
    exact Name.not_mem_of_identifier? wordless_end h ht

/-- A name that is read as written passes no begin or end command. -/
theorem attempts_namedSymbol (hi : inner.Tracks ix n) :
    Attempts ix n pre Sound (namedSymbol inner) := by
  refine attempts_get_bind fun p => ?_
  dsimp only
  cases hname : Name.identifier? p.ahead with
  | none => exact attempts_none
  | some found =>
    obtain ⟨name, length⟩ := found
    dsimp only
    refine TracksFrom.attempts (tracks_after ((tracks_advance _).mono (fun ts hts => ?_)
      fun _ h => h) fun _ => ?_) fun q => ?_
    · rw [hts.2]
      exact frontClear_of_identifier? hname
    · -- arguments in parentheses are only asked for behind an upright name
      split
      · refine tracks_bind (tracks_argumentList hi) (fun o => ?_) fun o ho => ?_
        · split <;> exact tracks_pure _
        · cases o with
          | none => exact absurd (fun _ h => absurd h (by simp)) ho
          | some operands =>
            refine gives_pure fun hs => ho fun es hes => ?_
            rw [← Option.some.inj hes]
            exact (sound_apply_iff.1 (soundIfAny_some.1 hs)).2
      · exact tracks_pure _
    · -- a name is always something
      rw [bind_apply]
      split
      · rw [bind_apply]
        cases (argumentList inner (Reading.advance length q).2).1 <;> exact nofun
      · exact nofun

/-- A symbol keeps the environments in order or goes back. -/
theorem attempts_symbol (hx : ix.Orderly) (hi : inner.Tracks ix n) :
    Attempts ix n pre Sound (symbol ix inner) := by
  refine attempts_view_bind (fun _ => rfl) fun raws => ?_
  have hknown : Attempts ix n (fun ts => ∀ c ∈ ix.lookup .identifier raws, FrontClear c.1 ts) Sound
      (firstOf (trySymbol inner) (ix.lookup .identifier raws)) :=
    attempts_candidates fun c hc =>
      attempts_trySymbol hx hi (Index.of_mem_lookup hx.arranged hc).1
  have hclear : ∀ ts, pre ts ∧ Token.raws ts = raws →
      (∀ c ∈ ix.lookup .identifier raws, FrontClear c.1 ts) ∧ True := by
    refine fun ts hts => ⟨fun c hc => ?_, trivial⟩
    rw [← hts.2] at hc
    exact frontClear_of_mem_lookup hx hc
  refine Attempts.mono ?_ hclear
  exact attempts_orElse (fun _ _ _ _ => trivial) hknown (fun _ => rfl) (attempts_namedSymbol hi)

end Parser
end MathMarkup
