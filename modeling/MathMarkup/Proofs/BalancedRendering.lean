import MathMarkup.Proofs.Annotations
import MathMarkup.Proofs.NeutralMarkup
import MathMarkup.Proofs.StringLiterals

/-!
# Renderings are balanced

With the standard lexicon and the default options, the rendering of an expression leaves the open
braces as they are (`Renderer.neutral_render`), if its names can be written that way
(`Expr.Writable`): a name may have braces in it, since they are escaped, but a head without an entry
is put into the argument of a text command as it stands, so the braces of a head must match.

Whatever is reported on the way, a rendering has to end with neutral markup
(`Rendering.Always`), and a routine of the lexicon too, unless it fails (`Renderer.Makes`).
-/

namespace MathMarkup

open Lexer

/-! ## Expressions to write -/

/-- A name without backslashes, or a command that leaves the open braces as they are, also if its
characters are escaped. -/
def Name.Writable (name : String) : Prop :=
  '\\' ∉ name.toList ∨ name.toList.head? = some '\\' ∧ depthAfter 0 name.toList = some 0 ∧
    depthAfter 0 (Name.escape name.toList).toList = some 0

instance (name : String) : Decidable (Name.Writable name) :=
  inferInstanceAs (Decidable (_ ∨ _))

namespace Name.Writable

variable {name : String}

/-- A writable name is encoded as neutral markup, in whatever typeface. -/
theorem neutral_encode (h : Writable name) (w : Wrapping) : Neutral (encode name w) := by
  rcases h with h | ⟨-, -, h⟩
  · exact Name.neutral_encode (neutral_escape h) w
  · exact Name.neutral_encode (nests_of_depthAfter h) w

/-- A writable name that is a command is that command, which opens and closes nothing. -/
theorem neutral_command (h : Writable name) (hc : name.toList.head? = some '\\') :
    Neutral name := by
  rcases h with h | ⟨-, h, -⟩
  · exact absurd (List.mem_of_mem_head? hc) h
  · exact nests_of_depthAfter h

/-- A writable name that is no command fits into a text, if its braces match. -/
theorem fitsText (h : Writable name) (hc : name.toList.head? ≠ some '\\')
    (hm : matchedFrom 0 name.toList = true) : FitsText name.toList := by
  rcases h with h | ⟨hcommand, -⟩
  · exact fun rest => splitText_of_matchedFrom h hm rest
  · exact absurd hcommand hc

end Name.Writable

/-- An expression without tables, annotations and errors, where all names are writable and the
braces of heads match. -/
inductive Expr.Writable : Expr → Prop where
  | number (text : String) : Writable (.number text)
  | string (value : String) : Writable (.string value)
  | symbol {name : String} (h : Name.Writable name) : Writable (.symbol name)
  | apply {head : String} {operands : List Expr} (hne : head ≠ "Error") (hh : Name.Writable head)
      (hm : matchedFrom 0 head.toList = true) (ho : ∀ o ∈ operands, Writable o) :
      Writable (.apply head operands)

/-- A part of an expression that is rendered by itself. -/
structure Expr.WritablePart (whole part : Expr) : Prop where
  size : part.size < whole.size
  writable : part.Writable

namespace Expr

/-- The operands of a writable expression are writable. -/
theorem Writable.operands {e : Expr} (h : e.Writable) : ∀ o ∈ e.operands, o.Writable := by
  cases h with
  | apply _ _ _ ho => exact ho
  | _ => exact fun _ ho => absurd ho List.not_mem_nil

variable {whole e : Expr}

/-- The operands are writable parts of the whole. -/
theorem Writable.parts (h : e.Writable) : ∀ o ∈ e.operands, e.WritablePart o :=
  fun o ho => ⟨size_lt_of_mem_operands ho, h.operands o ho⟩

/-- The operands of a writable part are writable parts of the whole. -/
theorem WritablePart.parts (h : whole.WritablePart e) :
    ∀ o ∈ e.operands, whole.WritablePart o := fun o ho =>
  ⟨Nat.lt_trans (size_lt_of_mem_operands ho) h.size, h.writable.operands o ho⟩

/-- An operand by its place is a writable part. -/
theorem Writable.operand? (h : e.Writable) {n : Nat} {o : Expr}
    (ho : e.operand? n = some o) : e.WritablePart o := by
  cases n with
  | zero => cases ho
  | succ n => exact h.parts o (List.mem_of_getElem? ho)

end Expr

/-! ## What a rendering ends with -/

namespace Rendering

variable {α β : Type} {P : α → Prop} {Q : β → Prop}

/-- Whatever was reported before, the rendering ends with something of some sort. -/
def Always (P : α → Prop) (x : Rendering α) : Prop :=
  ∀ ws, P (x ws).1

theorem always_pure {a : α} (h : P a) : Always P (pure a) :=
  fun _ => h

/-- Renderings in a row end with what the last one does, for every result of the first. -/
theorem always_bind {x : Rendering α} {f : α → Rendering β} (hx : Always P x)
    (hf : ∀ a, P a → Always Q (f a)) : Always Q (x >>= f) :=
  fun ws => hf (x ws).1 (hx ws) (x ws).2

theorem always_after {x : Rendering α} {f : α → Rendering β} (hf : ∀ a, Always Q (f a)) :
    Always Q (x >>= f) :=
  fun ws => hf (x ws).1 (x ws).2

/-- Rendering each member of a list ends with results of the sort. -/
theorem always_mapM {as : List α} {f : α → Rendering β} (h : ∀ a ∈ as, Always Q (f a)) :
    Always (fun bs => ∀ b ∈ bs, Q b) (as.mapM f) := by
  induction as with
  | nil => exact always_pure fun _ hb => absurd hb List.not_mem_nil
  | cons a as ih =>
    rw [List.forall_mem_cons] at h
    rw [List.mapM_cons]
    refine always_bind h.1 fun b hb => always_bind (ih h.2) fun bs hbs => ?_
    exact always_pure (List.forall_mem_cons.2 ⟨hb, hbs⟩)

/-- Accumulating over a list ends with what each round keeps. -/
theorem always_foldlM {as : List α} {f : β → α → Rendering β}
    (h : ∀ b, Q b → ∀ a ∈ as, Always Q (f b a)) {b : β} (hb : Q b) :
    Always Q (as.foldlM f b) := by
  induction as generalizing b with
  | nil => exact always_pure hb
  | cons a as ih =>
    rw [List.foldlM_cons]
    refine always_bind (h b hb a List.mem_cons_self) fun b' hb' => ?_
    exact ih (fun b hb x hx => h b hb x (List.mem_cons_of_mem a hx)) hb'

end Rendering

namespace Renderer

open Rendering

/-! ## Requests -/

variable {r : Renderer} {whole e : Expr} {node : RenderNode}

/-- The renderer for the parts of an expression gives neutral markup. -/
def Serves (whole : Expr) (node : RenderNode) : Prop :=
  ∀ part, whole.WritablePart part → ∀ level, Always Neutral (node part level)

/-- Commas between neutral pieces. -/
theorem neutral_commas {pieces : List String} (h : ∀ s ∈ pieces, Neutral s) :
    Neutral (", ".intercalate pieces) :=
  neutral_intercalate (nests_of_depthAfter (by decide)) (by decide) (by decide) (by decide) h

/-- Parentheses around neutral markup. -/
theorem neutral_parens {markup : String} (h : Neutral markup) :
    Neutral ("(" ++ markup ++ ")") :=
  (Nests.after (nests_of_depthAfter (by decide)) h (by decide)).before
    (nests_of_depthAfter (by decide)) (by decide)

/-- The operands are rendered as neutral markup between commas. -/
theorem always_operands (h : Serves whole node) (he : ∀ o ∈ e.operands, whole.WritablePart o)
    (level : Nat) : Always Neutral (operands node e level) :=
  always_bind (always_mapM fun o ho => h o (he o ho) (level + 1)) fun _ hpieces =>
    always_pure (neutral_commas hpieces)

/-- A fence closes what it opens. -/
theorem neutral_fence (ho : r.options = {}) {markup : String} (h : Neutral markup) (level : Nat) :
    Neutral (r.fence e markup level) := by
  rw [fence, ho]
  exact neutral_parens h

/-- Markup with fences around it or not. -/
theorem always_fenced (ho : r.options = {}) (h : Serves whole node) (he : whole.WritablePart e)
    (level : Nat) (fenced : String → Bool) :
    Always Neutral (do
      let markup ← node e level
      return if fenced markup then r.fence e markup level
        else markup) := by
  refine always_bind (h e he level) fun markup hm => always_pure ?_
  split
  · exact neutral_fence ho hm level
  · exact hm

/-- An operand is rendered neutrally, fenced or not. -/
theorem always_wrap (ho : r.options = {}) (h : Serves whole node) (he : whole.WritablePart e)
    (p : Option Precedence) (level : Nat) : Always Neutral (r.wrap node e p level) := by
  cases p with
  | some p =>
    exact always_fenced ho h he level fun markup =>
      r.bindsLooser e markup p
  | none => exact always_fenced ho h he level fun _ => true

/-- The arguments of a function are rendered neutrally, fenced or not. -/
theorem always_arguments (hr : r.options = {}) (h : Serves whole node)
    (he : ∀ o ∈ e.operands, whole.WritablePart o) (level : Nat) :
    Always Neutral (r.arguments node e level) :=
  always_bind (always_operands h he level) fun _ ho => always_pure (by
    rw [hr]
    exact neutral_parens ho)

/-! ## Routines -/

variable {α β : Type} {P : α → Prop} {Q : β → Prop}

/-- The routine ends with something of some sort, unless it fails. -/
def Makes (r : Renderer) (node : RenderNode) (P : α → Prop) (x : RenderRoutine α) : Prop :=
  Always (fun o => ∀ a, o = Except.ok a → P a)
    (x.run.run (r.answer node))

/-- A routine that is done has made its result. -/
theorem makes_pure {a : α} (h : P a) : Makes r node P (pure a) :=
  fun _ _ ha => Except.ok.inj ha ▸ h

/-- A routine that fails has made nothing that could be wrong. -/
theorem makes_throw (w : Warning) : Makes r node P (throw w) :=
  fun _ _ ha => absurd ha nofun

/-- Routines in a row make what the last one does. -/
theorem makes_bind {x : RenderRoutine α} {f : α → RenderRoutine β} (hx : Makes r node P x)
    (hf : ∀ a, P a → Makes r node Q (f a)) : Makes r node Q (x >>= f) := by
  intro ws
  have hresult := hx ws
  rw [run_bind_apply]
  revert hresult
  rcases x.run.run (r.answer node) ws with ⟨w | a, vs⟩ <;>
    intro hresult
  · exact fun _ hb => absurd hb nofun
  · exact hf a (hresult a rfl) vs

/-- A request is answered by a rendering. -/
theorem always_ok {x : Rendering β} (h : Always Q x) :
    Always (fun o : Except Warning β => ∀ b, o = .ok b → Q b) (do return .ok (← x)) :=
  fun ws _ hb => Except.ok.inj hb ▸ h ws

/-- The options that a routine asks for are the default ones. -/
theorem makes_options_bind (ho : r.options = {}) {f : Options → RenderRoutine β}
    (h : Makes r node Q (f {})) : Makes r node Q (RenderRoutine.options >>= f) := by
  have hasked : Makes r node (· = {}) RenderRoutine.options :=
    fun _ _ heq => (Except.ok.inj heq).symm.trans ho
  refine makes_bind hasked ?_
  rintro _ rfl
  exact h

/-- What stands for a missing operand is neutral. -/
theorem makes_missing (ho : r.options = {}) : Makes r node Neutral RenderRoutine.missing :=
  makes_options_bind ho (makes_pure (nests_of_depthAfter (by decide)))

/-- A request to render a part makes neutral markup. -/
theorem makes_render (h : Serves whole node) (he : whole.WritablePart e) (level : Nat) :
    Makes r node Neutral (RenderRoutine.render e level) :=
  always_ok (h e he level)

/-- A request to render and fence a part makes neutral markup. -/
theorem makes_wrap (ho : r.options = {}) (h : Serves whole node) (he : whole.WritablePart e)
    (p : Precedence) (level : Nat) : Makes r node Neutral (RenderRoutine.wrap e p level) :=
  always_ok (always_wrap ho h he (some p) level)

theorem makes_wrapBase (ho : r.options = {}) (h : Serves whole node) (he : whole.WritablePart e)
    (p : Precedence) (level : Nat) : Makes r node Neutral (RenderRoutine.wrapBase e p level) :=
  always_ok (always_fenced ho h he level fun markup => isShortFenced e ||
    r.bindsLooser e markup p.tighter)

theorem makes_operands (h : Serves whole node) (he : ∀ o ∈ e.operands, whole.WritablePart o)
    (level : Nat) : Makes r node Neutral (RenderRoutine.operands e level) :=
  always_ok (always_operands h he level)

/-- A routine for each operand makes results of the sort. -/
theorem makes_mapM {as : List α} {f : α → RenderRoutine β}
    (h : ∀ a ∈ as, Makes r node Q (f a)) :
    Makes r node (fun bs => ∀ b ∈ bs, Q b) (as.mapM f) := by
  suffices hloop : ∀ bs, (∀ b ∈ bs, Q b) →
      Makes r node (fun bs => ∀ b ∈ bs, Q b) (List.mapM.loop f as bs) from
    hloop [] fun _ hb => absurd hb List.not_mem_nil
  induction as with
  | nil => exact fun bs hbs => makes_pure fun b hb => hbs b (List.mem_reverse.1 hb)
  | cons a as ih =>
    rw [List.forall_mem_cons] at h
    intro bs hbs
    exact makes_bind h.1 fun b hb => ih h.2 (b :: bs) (List.forall_mem_cons.2 ⟨hb, hbs⟩)

/-- A routine that accumulates makes what each round keeps. -/
theorem makes_foldlM {as : List α} {f : β → α → RenderRoutine β}
    (h : ∀ b, Q b → ∀ a ∈ as, Makes r node Q (f b a)) {b : β} (hb : Q b) :
    Makes r node Q (as.foldlM f b) := by
  induction as generalizing b with
  | nil => exact makes_pure hb
  | cons a as ih =>
    refine makes_bind (h b hb a List.mem_cons_self) fun b' hb' => ?_
    exact ih (fun b hb x hx => h b hb x (List.mem_cons_of_mem a hx)) hb'

end Renderer

/-- The routine makes neutral markup of every writable expression. Only without operands is it asked
about one that is named `Error`, which is never applied. -/
def RenderHandler.KeepsBraces (name : Option String) (handler : RenderHandler) : Prop :=
  ∀ (r : Renderer), r.options = {} → ∀ (e : Expr) (node : RenderNode), e.Writable →
    (name = some "Error" → e.operands = []) → Renderer.Serves e node → ∀ level,
      Renderer.Makes r node Neutral (handler e level)

/-- What the entry puts into markup leaves the open braces as they are. -/
structure IndexedEntry.KeepsBraces (e : IndexedEntry) : Prop where
  template : Neutral e.template
  fillable : e.role ≠ .identifier → e.role ≠ .function → Template.Fillable e.template.toList
  environment : e.role = .environment → Neutral (String.join e.trigger)
  routine : ∀ handler, e.render = some handler → handler.KeepsBraces e.name

/-- The renderer has the default options, and its entries leave the open braces as they are. -/
structure Renderer.KeepsBraces (r : Renderer) : Prop where
  options : r.options = {}
  names : r.index.Names
  entries : ∀ entry ∈ r.index.latest, entry.KeepsBraces

namespace Renderer

open Rendering

/-! ## Nodes -/

variable {r : Renderer} {e : Expr} {node : RenderNode}

/-- A routine that keeps braces gives neutral markup, or the fallback does. -/
theorem always_runHandler (ho : r.options = {}) {name : Option String} {handler : RenderHandler}
    (hh : handler.KeepsBraces name) (he : e.Writable) (hn : name = some "Error" → e.operands = [])
    (h : Serves e node) (level : Nat) : Always Neutral (r.runHandler node handler e level) := by
  refine always_bind (hh r ho e node he hn h level) fun o hmade => ?_
  split
  · exact always_pure (hmade _ rfl)
  · exact always_after fun _ => always_pure neutral_empty

/-- A symbol is what its entry makes of it, or its name. -/
theorem always_symbol (hr : r.KeepsBraces) {name : String} (hn : Name.Writable name)
    (h : Serves (.symbol name) node) (level : Nat) :
    Always Neutral (r.symbol node (.symbol name) name level) := by
  unfold symbol
  split
  next entry hentry =>
    have hkeeps := hr.entries entry (Index.mem_latest_of_byName? hentry)
    split
    · split
      next handler hrender =>
        have hroutine := hkeeps.routine handler hrender
        exact always_runHandler hr.options hroutine (.symbol hn) (fun _ => rfl) h level
      next => exact always_pure hkeeps.template
    · exact always_pure (hn.neutral_encode _)
  next => exact always_pure (hn.neutral_encode _)

theorem neutral_missingSymbol (ho : r.options = {}) : Neutral r.options.missingSymbol := by
  rw [ho]
  exact nests_of_depthAfter (by decide)

/-- An operator with one operand is filled in neutrally. -/
theorem always_unaryOperator (ho : r.options = {}) {entry : IndexedEntry}
    (ht : Template.Fillable entry.template.toList) (he : e.Writable) (h : Serves e node)
    (p : Precedence) (level : Nat) :
    Always Neutral (r.unaryOperator node e entry p level) := by
  have hfill : ∀ {operand : Rendering String}, Always Neutral operand →
      Always Neutral (operand >>= fun o => pure (Template.fill entry.template [o])) := by
    intro operand hoperand
    refine always_bind hoperand fun o ho => always_pure ?_
    exact Template.neutral_fill ht (List.forall_mem_singleton.2 ho)
  unfold unaryOperator
  cases hops : e.operands with
  | nil => exact always_after fun _ => hfill (always_pure (neutral_missingSymbol ho))
  | cons o os =>
    have hpart : e.WritablePart o := he.parts o (by rw [hops]; exact List.mem_cons_self)
    have hoperand := hfill (always_wrap ho h hpart (some p) (level + 1))
    dsimp only
    split
    · exact always_after fun _ => hoperand
    · exact hoperand

/-- An operator between operands is filled in neutrally, operand by operand. -/
theorem always_infixOperator (ho : r.options = {}) {entry : IndexedEntry}
    (ht : Template.Fillable entry.template.toList) (he : e.Writable) (h : Serves e node)
    (p : Precedence) (level : Nat) :
    Always Neutral (r.infixOperator node e entry p level) := by
  have hfill : ∀ {left right : String}, Neutral left → Neutral right →
      Neutral (Template.fill entry.template [left, right]) :=
    fun hl hr => Template.neutral_fill ht
      (List.forall_mem_cons.2 ⟨hl, List.forall_mem_singleton.2 hr⟩)
  have hmissing := neutral_missingSymbol ho
  unfold infixOperator
  cases hops : e.operands with
  | nil => exact always_after fun _ => always_pure (hfill hmissing hmissing)
  | cons first rest =>
    have hin : ∀ o ∈ first :: rest, e.WritablePart o := by
      rw [← hops]
      exact he.parts
    -- the operands that follow are put behind the first one by one
    have hchain : ∀ q q' : Precedence, Always Neutral (do
        let first ← r.wrap node first (some q) (level + 1)
        if rest.isEmpty then return Template.fill entry.template [first, r.options.missingSymbol]
        else
          rest.foldlM (fun markup o => do
            let operand ← r.wrap node o (some q') (level + 1)
            return Template.fill entry.template [markup, operand]) first) := by
      intro q q'
      refine always_bind (always_wrap ho h (hin first List.mem_cons_self) _ _) fun left hl => ?_
      split
      · exact always_pure (hfill hl hmissing)
      · refine always_foldlM (fun markup hm o hmem => ?_) hl
        have hpart := hin o (List.mem_cons_of_mem first hmem)
        exact always_bind (always_wrap ho h hpart _ _) fun _ hoperand =>
          always_pure (hfill hm hoperand)
    cases entry.role.associativity with
    | left | right =>
      dsimp only
      split
      · exact always_after fun _ => hchain _ _
      · exact hchain _ _

/-- Operators of all positions are written neutrally. -/
theorem always_operator (hr : r.KeepsBraces) {entry : IndexedEntry} (hk : entry.KeepsBraces)
    (he : e.Writable) (h : Serves e node) (level : Nat) :
    Always Neutral (r.operator node e entry level) := by
  have hfillable := hk.fillable
  unfold operator
  split
  next p hrole =>
    rw [hrole] at hfillable
    exact always_unaryOperator hr.options (hfillable nofun nofun) he h _ level
  next p hrole =>
    rw [hrole] at hfillable
    exact always_unaryOperator hr.options (hfillable nofun nofun) he h _ level
  next p a hrole =>
    rw [hrole] at hfillable
    exact always_infixOperator hr.options (hfillable nofun nofun) he h _ level
  next => exact always_pure hk.template

/-- The cells of an environment are parts of parts of its body. -/
theorem writablePart_of_cell (he : e.Writable) {row cell : Expr}
    (hrow : row ∈ ((e.operand? 1).map Expr.operands).getD []) (hcell : cell ∈ row.operands) :
    e.WritablePart cell := by
  cases hbody : e.operand? 1 with
  | none =>
    rw [hbody] at hrow
    exact absurd hrow List.not_mem_nil
  | some body =>
    rw [hbody] at hrow
    exact ((he.operand? hbody).parts row hrow).parts cell hcell

/-- The cells of an environment are written neutrally between its commands. -/
theorem always_environment {entry : IndexedEntry} (hn : Neutral (String.join entry.trigger))
    (he : e.Writable) (h : Serves e node) (level : Nat) :
    Always Neutral (environment node e entry level) := by
  -- cells and rows are put together the same way, with another separator
  have hseparated : ∀ {separator : String} {pieces : List String}, separator ∈ [" & ", "\\\\"] →
      (∀ s ∈ pieces, Neutral s) → Neutral (separator.intercalate pieces) := by
    intro separator pieces hs hp
    rcases List.mem_cons.1 hs with rfl | hs
    · exact neutral_intercalate (nests_of_depthAfter (by decide)) (by decide) (by decide)
        (by decide) hp
    · rw [List.mem_singleton.1 hs]
      exact neutral_intercalate (nests_of_depthAfter (by decide)) (by decide) (by decide)
        (by decide) hp
  have hrows : Always (fun rows => ∀ s ∈ rows, Neutral s)
      ((((e.operand? 1).map Expr.operands).getD []).mapM fun row => do
        return " & ".intercalate (← row.operands.mapM fun cell => node cell (level + 1))) := by
    refine always_mapM fun row hrow => ?_
    have hcells : Always (fun cells => ∀ s ∈ cells, Neutral s)
        (row.operands.mapM fun cell => node cell (level + 1)) :=
      always_mapM fun cell hcell => h cell (writablePart_of_cell he hrow hcell) (level + 1)
    exact always_bind hcells fun cells hc => always_pure (hseparated (by simp) hc)
  refine always_bind hrows fun rows hr => always_pure ?_
  have hbegin : Neutral ("\\begin\x7b" ++ String.join entry.trigger ++ "\x7d") :=
    neutral_around (nests_of_depthAfter (by decide)) (by decide) hn
  refine neutral_behind (hbegin.after (hseparated (by simp) hr) ?_)
    (nests_of_depthAfter (by decide)) (by decide) (by decide) (by decide) hn
  exact endsWithControlWord_concat (by decide) (by decide) _

/-- Arguments in braces are neutral, and no control word runs on into them. -/
theorem neutral_bracedArguments {arguments : List String} (h : ∀ s ∈ arguments, Neutral s) :
    Neutral (String.join (arguments.map Name.braced)) ∧
      extendsControlWord (String.join (arguments.map Name.braced)) = false := by
  induction arguments with
  | nil => exact ⟨neutral_empty, rfl⟩
  | cons s arguments ih =>
    rw [List.forall_mem_cons] at h
    obtain ⟨hn, hx⟩ := ih h.2
    rw [List.map_cons, String.join_cons]
    refine ⟨(neutral_braced h.1).before hn hx, ?_⟩
    rw [Name.braced, String.append_assoc, String.append_assoc]
    exact extendsControlWord_append (by decide) (by decide) _

/-- An application of a head without an entry. The head is a command, or the name of a function, or
else it is put into a text as it stands. -/
theorem always_unknownApplication (ho : r.options = {}) {head : String}
    (hh : Name.Writable head) (hm : matchedFrom 0 head.toList = true) (he : e.Writable)
    (h : Serves e node) (level : Nat) :
    Always Neutral (r.unknownApplication node e head level) := by
  have hoperands : Always (fun operands => ∀ s ∈ operands, Neutral s)
      (e.operands.mapM fun o => node o (level + 1)) :=
    always_mapM fun o hmem => h o (he.parts o hmem) (level + 1)
  unfold unknownApplication
  split
  next hc =>
    -- the head is a command, with its operands as arguments in braces
    refine always_bind hoperands fun arguments ha => always_pure ?_
    obtain ⟨hn, hx⟩ := neutral_bracedArguments ha
    exact (hh.neutral_command (beq_iff_eq.1 hc)).before hn hx
  next hc =>
    split
    · refine always_bind (always_arguments ho h he.parts level) fun arguments ha => always_pure ?_
      refine neutral_join (List.forall_mem_cons.2 ⟨hh.neutral_encode _, ?_⟩)
      exact List.forall_mem_singleton.2 ha
    · refine always_after fun _ => always_bind hoperands fun operands ho => always_pure ?_
      have htext := neutral_text (hh.fitsText (mt beq_iff_eq.2 hc) hm)
      have hcommas := neutral_commas (List.forall_mem_cons.2 ⟨htext, ho⟩)
      exact (Nests.after (nests_of_depthAfter (by decide)) hcommas (by decide)).before
        (nests_of_depthAfter (by decide)) (by decide)

/-- An application is written neutrally, with an entry for its head or without one. -/
theorem always_application (hr : r.KeepsBraces) {head : String} {operands : List Expr}
    (he : (Expr.apply head operands).Writable) (h : Serves (.apply head operands) node)
    (level : Nat) :
    Always Neutral (r.application node (.apply head operands) head level) := by
  obtain ⟨hne, hh, hm⟩ : head ≠ "Error" ∧ Name.Writable head ∧
      matchedFrom 0 head.toList = true := by
    cases he with
    | apply hne hh hm ho => exact ⟨hne, hh, hm⟩
  unfold application
  cases hentry : r.index.byName? head with
  | none => exact always_unknownApplication hr.options hh hm he h level
  | some entry =>
    have hkeeps := hr.entries entry (Index.mem_latest_of_byName? hentry)
    have hname : entry.name = some head := by
      rw [hr.names.byName] at hentry
      have hfound := List.find?_some hentry
      exact beq_iff_eq.1 hfound
    dsimp only
    cases hrender : entry.render with
    | some handler =>
      refine always_runHandler hr.options (hkeeps.routine handler hrender) he (fun herror => ?_) h
        level
      rw [hname] at herror
      exact absurd (Option.some.inj herror) hne
    | none =>
      -- without a routine the role says what is made of the template
      cases hrole : entry.role with
      | «matchfix» close =>
        have hfillable := hkeeps.fillable (by rw [hrole]; nofun) (by rw [hrole]; nofun)
        exact always_bind (always_operands h he.parts level) fun _ hoperands =>
          always_pure (Template.neutral_fill hfillable (List.forall_mem_singleton.2 hoperands))
      | environment => exact always_environment (hkeeps.environment hrole) he h level
      | identifier | function =>
        dsimp only
        split
        · exact always_pure hkeeps.template
        · refine always_bind (always_arguments hr.options h he.parts level) fun _ ha => ?_
          exact always_pure (neutral_join
            (List.forall_mem_cons.2 ⟨hkeeps.template, List.forall_mem_singleton.2 ha⟩))
      | prefixOp p | infixOp p a | postfixOp p => exact always_operator hr hkeeps he h level

/-- The rendering of a writable expression leaves the open braces as they are. The induction is on
the size of the expression, since some routines have parts of parts rendered. -/
theorem neutral_render (hr : r.KeepsBraces) (he : e.Writable) (level : Nat) :
    Always Neutral (r.render e level) := by
  induction hs : e.size using Nat.strongRecOn generalizing e level with
  | ind n ih =>
    subst hs
    have hserves : Serves e (r.under e) := by
      intro part hpart l
      rw [under_of_size_lt hpart.size]
      exact ih part.size hpart.size hpart.writable l rfl
    rw [render_eq]
    -- leaves are written as they are, and what is applied asks for its parts through `under`
    cases he with
    | number text =>
      show Always Neutral (r.number text)
      unfold number
      rw [hr.options]
      split
      · exact always_pure (Numeral.neutral_render ‹_›)
      · exact always_after fun _ => always_pure neutral_empty
    | string value =>
      refine always_pure (neutral_text fun rest => ?_)
      rw [Literal.toList_escapeText]
      exact Literal.splitText_escaped _ rest
    | symbol hn => exact always_symbol hr hn hserves level
    | apply hne hh hm ho => exact always_application hr (.apply hne hh hm ho) hserves level

end Renderer
end MathMarkup
