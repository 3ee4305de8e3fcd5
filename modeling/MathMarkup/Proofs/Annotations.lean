import MathMarkup.Proofs.Lookup
import MathMarkup.Proofs.Rendering
import MathMarkup.Transcoder

/-!
# Canonical rendering ignores annotations

Annotations say where an expression comes from, not what it means, so a canonical rendering should
not depend on them at any depth. `Expr.unannotated` deletes them all. Everything that a renderer
asks about an expression looks through annotations: its head, its operands, whether it is a number
or a symbol, how tightly it binds. So the rendering of an expression and the rendering of what is
left of it without annotations run in step, as long as the options look through annotations as well
(`Transcoder.render_unannotated`).

The two runs differ in the expressions that custom routines carry along. `Renderer.Mirrors` relates
what two routines end with, answered in the one run and in the other, and is closed under putting
routines together; one lemma for each routine of the standard lexicon follows from that.
-/

namespace MathMarkup
namespace Expr

/-! ## Expressions without annotations -/

mutual
/-- The expression without the annotations at any depth. -/
def unannotated : Expr → Expr
  | .apply head operands => .apply head (unannotatedAll operands)
  | .table entries => .table (unannotatedEntries entries)
  | .annotated _ e => e.unannotated
  | e => e
/-- The expressions without the annotations at any depth. -/
def unannotatedAll : List Expr → List Expr
  | [] => []
  | e :: es => e.unannotated :: unannotatedAll es
/-- The entries without the annotations at any depth. -/
def unannotatedEntries : List (String × Expr) → List (String × Expr)
  | [] => []
  | (key, e) :: es => (key, e.unannotated) :: unannotatedEntries es
end

/-- Dropping annotations from a list of expressions is dropping them from each. -/
theorem unannotatedAll_eq (es : List Expr) : unannotatedAll es = es.map unannotated := by
  induction es with
  | nil => rfl
  | cons e es ih => rw [unannotatedAll, ih, List.map_cons]

/-- Dropping annotations from a table keeps the keys. -/
theorem unannotatedEntries_eq (es : List (String × Expr)) :
    unannotatedEntries es = es.map fun entry => (entry.1, entry.2.unannotated) := by
  induction es with
  | nil => rfl
  | cons e es ih => rw [unannotatedEntries, ih, List.map_cons]

/-- Nothing is left to strip. -/
theorem strip_unannotated (e : Expr) : e.unannotated.strip = e.strip.unannotated := by
  fun_induction strip e with
  | case1 m e ih => rw [unannotated, ih]
  | case2 e h =>
    cases e with
    | annotated m e => exact absurd rfl (h m e)
    | _ => simp only [unannotated, strip]

/-! ## What the accessors see -/

/-- Annotations do not hide the head. -/
theorem head?_unannotated (e : Expr) : e.unannotated.head? = e.head? := by
  rw [head?, head?, strip_unannotated]
  cases he : e.strip with
  | annotated m inner => exact absurd he (strip_ne_annotated e m inner)
  | _ => rfl

theorem isApply_unannotated (e : Expr) (head : String) :
    e.unannotated.isApply head = e.isApply head := by
  rw [isApply, isApply, head?_unannotated]

/-- The operands without annotations are those of the expression without annotations. -/
theorem operands_unannotated (e : Expr) : e.unannotated.operands = e.operands.map unannotated := by
  rw [operands, operands, strip_unannotated]
  cases he : e.strip with
  | annotated m inner => exact absurd he (strip_ne_annotated e m inner)
  | apply head operands => exact unannotatedAll_eq operands
  | _ => rfl

/-- An operand by its place is found behind annotations. -/
theorem operand?_unannotated (e : Expr) (n : Nat) :
    e.unannotated.operand? n = (e.operand? n).map unannotated := by
  cases n with
  | zero => rfl
  | succ n => rw [operand?, operand?, operands_unannotated, List.getElem?_map]

/-- A symbol is seen through its annotations. -/
theorem symbol?_unannotated (e : Expr) : e.unannotated.symbol? = e.symbol? := by
  rw [symbol?, symbol?, strip_unannotated]
  cases he : e.strip with
  | annotated m inner => exact absurd he (strip_ne_annotated e m inner)
  | _ => rfl

/-- A number is seen through its annotations. -/
theorem number?_unannotated (e : Expr) : e.unannotated.number? = e.number? := by
  rw [number?, number?, strip_unannotated]
  cases he : e.strip with
  | annotated m inner => exact absurd he (strip_ne_annotated e m inner)
  | _ => rfl

/-- A string is seen through its annotations. -/
theorem string?_unannotated (e : Expr) : e.unannotated.string? = e.string? := by
  rw [string?, string?, strip_unannotated]
  cases he : e.strip with
  | annotated m inner => exact absurd he (strip_ne_annotated e m inner)
  | _ => rfl

/-! ## Parts -/

/-- The expression is smaller, and it is without annotations too: it can be a part of the other. -/
structure Within (part whole : Expr) : Prop where
  size : part.size < whole.size
  unannotated : part.unannotated.size < whole.unannotated.size

/-- A part of a part is a part. -/
theorem Within.trans {a b c : Expr} (h₁ : a.Within b) (h₂ : b.Within c) : a.Within c :=
  ⟨Nat.lt_trans h₁.size h₂.size, Nat.lt_trans h₁.unannotated h₂.unannotated⟩

/-- Operands are parts, also behind annotations of the whole. -/
theorem within_of_mem_operands {e o : Expr} (h : o ∈ e.operands) : o.Within e where
  size := size_lt_of_mem_operands h
  unannotated := by
    refine size_lt_of_mem_operands ?_
    rw [operands_unannotated]
    exact List.mem_map_of_mem h

/-- An operand by its place is a part. -/
theorem within_of_operand? {e o : Expr} {n : Nat} (h : e.operand? n = some o) : o.Within e := by
  cases n with
  | zero => exact absurd h nofun
  | succ n => exact within_of_mem_operands (List.mem_of_getElem? h)

theorem size_lt_of_mem_entries {entry : String × Expr} {es : List (String × Expr)}
    (h : entry ∈ es) : entry.2.size < (Expr.table es).size := by
  suffices hle : entry.2.size ≤ sizeEntries es by
    rw [size]
    omega
  induction es with
  | nil => exact absurd h List.not_mem_nil
  | cons x xs ih =>
    obtain ⟨key, e⟩ := x
    rw [sizeEntries]
    rcases List.mem_cons.1 h with rfl | h
    · exact Nat.le_add_right _ _
    · exact Nat.le_trans (ih h) (Nat.le_add_left _ _)

/-- The values of a table are parts of it. -/
theorem within_of_mem_entries {entry : String × Expr} {es : List (String × Expr)}
    (h : entry ∈ es) : entry.2.Within (.table es) where
  size := size_lt_of_mem_entries h
  unannotated := by
    rw [show (Expr.table es).unannotated = .table (unannotatedEntries es) from by
      rw [unannotated], unannotatedEntries_eq]
    exact @size_lt_of_mem_entries (entry.1, entry.2.unannotated) _
      (List.mem_map.2 ⟨entry, h, rfl⟩)

end Expr

/-! ## Options that look through annotations -/

/-- The style depends on the structure of the expression alone. -/
def Selector.LooksThrough {α : Type} (s : Selector α) : Prop :=
  ∀ e level, s e level = s e.unannotated level

/-- One style for all expressions looks at none of them. -/
theorem Selector.looksThrough_constant {α : Type} (style : α) :
    (Selector.constant style).LooksThrough :=
  fun _ _ => rfl

/-- All styles depend on the structure of the expression alone. -/
structure Options.LooksThrough (o : Options) : Prop where
  applyFunctionStyle : o.applyFunctionStyle.LooksThrough
  groupStyle : o.groupStyle.LooksThrough
  rootStyle : o.rootStyle.LooksThrough
  fractionStyle : o.fractionStyle.LooksThrough
  logicStyle : o.logicStyle.LooksThrough
  powerStyle : o.powerStyle.LooksThrough
  numericSetStyle : o.numericSetStyle.LooksThrough

namespace Renderer

open Expr

variable {α β γ : Type} {r : Renderer}

/-! ## What decides about fences -/

/-- How loosely an expression binds is seen through its annotations. -/
theorem bindsLooser_unannotated (r : Renderer) (e : Expr) (markup : String) (p : Precedence) :
    r.bindsLooser e.unannotated markup p = r.bindsLooser e markup p := by
  rw [bindsLooser, bindsLooser, strip_unannotated]
  cases he : e.strip with
  | annotated m inner => exact absurd he (strip_ne_annotated e m inner)
  | _ => rfl

/-- Which expressions are fenced when they are short is seen through annotations. -/
theorem isShortFenced_unannotated (e : Expr) : isShortFenced e.unannotated = isShortFenced e := by
  rw [isShortFenced, isShortFenced, strip_unannotated]
  cases he : e.strip with
  | annotated m inner => exact absurd he (strip_ne_annotated e m inner)
  | _ => rfl

/-- The same fence goes around, if the style for groups looks through annotations. -/
theorem fence_unannotated (ho : r.options.LooksThrough) (e : Expr) (markup : String)
    (level : Nat) : r.fence e.unannotated markup level = r.fence e markup level := by
  rw [fence, fence, ← ho.groupStyle]

/-! ## Rendering in step -/

/-- Two renderers for the parts of an expression give the same: the first one for a part, and the
second one for what is left of it without annotations. -/
def Agree (whole : Expr) (node node' : RenderNode) : Prop :=
  ∀ part : Expr, part.Within whole → ∀ level, node part level = node' part.unannotated level

variable {whole e : Expr} {node node' : RenderNode}

/-- Rendering a list and rendering the list without annotations agree if they do for each member. -/
theorem mapM_unannotated {es : List α} {k : α → γ} {f : α → Rendering β} {g : γ → Rendering β}
    (h : ∀ e ∈ es, f e = g (k e)) : es.mapM f = (es.map k).mapM g := by
  induction es with
  | nil => rfl
  | cons e es ih =>
    rw [List.map_cons, List.mapM_cons, List.mapM_cons, h e List.mem_cons_self,
      ih fun x hx => h x (List.mem_cons_of_mem e hx)]

/-- Accumulating over a list and over the list without annotations agree if each round does. -/
theorem foldlM_unannotated {es : List α} {k : α → γ} {f : β → α → Rendering β}
    {g : β → γ → Rendering β} (h : ∀ b, ∀ e ∈ es, f b e = g b (k e)) (b : β) :
    es.foldlM f b = (es.map k).foldlM g b := by
  induction es generalizing b with
  | nil => rfl
  | cons e es ih =>
    rw [List.map_cons, List.foldlM_cons, List.foldlM_cons, h b e List.mem_cons_self]
    exact bind_congr fun b' => ih (fun b x hx => h b x (List.mem_cons_of_mem e hx)) b'

theorem mapM_operands (h : Agree whole node node') (he : ∀ o ∈ e.operands, o.Within whole)
    (level : Nat) :
    (e.operands.mapM fun o => node o level) =
      e.unannotated.operands.mapM fun o => node' o level := by
  rw [operands_unannotated]
  exact mapM_unannotated fun o ho => h o (he o ho) level

/-- The operands are rendered alike by renderers that agree. -/
theorem operands_agree (h : Agree whole node node') (he : ∀ o ∈ e.operands, o.Within whole)
    (level : Nat) : operands node e level = operands node' e.unannotated level := by
  rw [operands, operands, mapM_operands h he]

/-- An operand is fenced alike by renderers that agree. -/
theorem wrap_agree (ho : r.options.LooksThrough) (h : Agree whole node node')
    (he : e.Within whole) (p : Option Precedence) (level : Nat) :
    r.wrap node e p level = r.wrap node' e.unannotated p level := by
  simp only [wrap, h e he, bindsLooser_unannotated, fence_unannotated ho]

theorem wrapShort_agree (ho : r.options.LooksThrough) (h : Agree whole node node')
    (he : e.Within whole) (level : Nat) :
    r.wrapShort node e level = r.wrapShort node' e.unannotated level := by
  simp only [wrapShort, h e he, isShortFenced_unannotated, fence_unannotated ho]

/-- The base of a script is fenced alike by renderers that agree. -/
theorem wrapBase_agree (ho : r.options.LooksThrough) (h : Agree whole node node')
    (he : e.Within whole) (p : Precedence) (level : Nat) :
    r.wrapBase node e p level = r.wrapBase node' e.unannotated p level := by
  simp only [wrapBase, h e he, isShortFenced_unannotated, bindsLooser_unannotated,
    fence_unannotated ho]

/-- The arguments of a function are rendered alike by renderers that agree. -/
theorem arguments_agree (ho : r.options.LooksThrough) (h : Agree whole node node')
    (he : ∀ o ∈ e.operands, o.Within whole) (level : Nat) :
    r.arguments node e level = r.arguments node' e.unannotated level := by
  rw [arguments, arguments, operands_agree h he, ← ho.applyFunctionStyle]

/-! ## Routines in step -/

/-- Two results that are related, or the same failure. -/
def SameOutcome (R : α → β → Prop) : Except Warning α → Except Warning β → Prop
  | .ok a, .ok b => R a b
  | .error v, .error w => v = w
  | _, _ => False

/-- Two renderings report the same warnings and end with related results. -/
def InStep (R : α → β → Prop) (x : Rendering (Except Warning α))
    (y : Rendering (Except Warning β)) : Prop :=
  ∀ ws, (x ws).2 = (y ws).2 ∧ SameOutcome R (x ws).1 (y ws).1

/-- Two routines run in step, each answered by its own renderer for the parts. -/
def Mirrors (r : Renderer) (node node' : RenderNode) (R : α → β → Prop) (x : RenderRoutine α)
    (y : RenderRoutine β) : Prop :=
  InStep R (x.run.run (r.answer node)) (y.run.run (r.answer node'))

section Mirrors

variable {α' β' : Type} {R : α → β → Prop} {S : α' → β' → Prop}

/-- Routines that do nothing but return related results run in step. -/
theorem mirrors_pure {a : α} {b : β} (h : R a b) : Mirrors r node node' R (pure a) (pure b) :=
  fun _ => ⟨rfl, h⟩

/-- Routines that fail with the same warning run in step. -/
theorem mirrors_throw (w : Warning) : Mirrors r node node' R (throw w) (throw w) :=
  fun _ => ⟨rfl, rfl⟩

/-- A routine of two parts runs the second one only if the first one does not fail. -/
theorem run_bind_apply (x : RenderRoutine α) (f : α → RenderRoutine α') (ws : List Warning) :
    (x >>= f).run.run (r.answer node) ws = match x.run.run (r.answer node) ws with
      | (.ok a, vs) => (f a).run.run (r.answer node) vs
      | (.error w, vs) => (.error w, vs) := by
  show (x.run >>= ExceptT.bindCont f).run (r.answer node) ws = _
  rw [Routine.run_bind]
  show (ExceptT.bindCont f (x.run.run (r.answer node) ws).1).run (r.answer node)
    (x.run.run (r.answer node) ws).2 = _
  rcases x.run.run (r.answer node) ws with ⟨_ | _, vs⟩ <;> rfl

/-- What follows runs in step if it does for related results. -/
theorem mirrors_bind {x : RenderRoutine α} {y : RenderRoutine β} {f : α → RenderRoutine α'}
    {g : β → RenderRoutine β'} (h : Mirrors r node node' R x y)
    (hf : ∀ a b, R a b → Mirrors r node node' S (f a) (g b)) :
    Mirrors r node node' S (x >>= f) (y >>= g) := by
  intro ws
  rw [run_bind_apply, run_bind_apply]
  obtain ⟨hws, hout⟩ := h ws
  revert hws hout
  rcases x.run.run (r.answer node) ws with ⟨_ | a, vs⟩ <;>
    rcases y.run.run (r.answer node') ws with ⟨_ | b, vs'⟩ <;> intro hws hout
  · exact ⟨hws, hout⟩
  · exact hout.elim
  · exact hout.elim
  · obtain rfl : vs = vs' := hws
    exact hf a b hout vs

/-- Both routines see the same options. -/
theorem mirrors_options :
    Mirrors r node node' (fun a b => a = r.options ∧ b = r.options) RenderRoutine.options
      RenderRoutine.options :=
  fun _ => ⟨rfl, rfl, rfl⟩

theorem mirrors_missing : Mirrors r node node' Eq RenderRoutine.missing RenderRoutine.missing := by
  refine mirrors_bind mirrors_options ?_
  rintro _ _ ⟨rfl, rfl⟩
  exact mirrors_pure rfl

/-- Two requests that are answered alike. -/
theorem inStep_ask {x y : Rendering String} (h : x = y) :
    InStep Eq (do return Except.ok (← x)) (do return Except.ok (← y)) :=
  fun _ => h ▸ ⟨rfl, rfl⟩

/-- A request to render a part is answered alike. -/
theorem mirrors_render (h : Agree whole node node') (he : e.Within whole) (level : Nat) :
    Mirrors r node node' Eq (RenderRoutine.render e level)
      (RenderRoutine.render e.unannotated level) :=
  inStep_ask (h e he level)

/-- A request to render and fence a part is answered alike. -/
theorem mirrors_wrap (ho : r.options.LooksThrough) (h : Agree whole node node')
    (he : e.Within whole) (p : Precedence) (level : Nat) :
    Mirrors r node node' Eq (RenderRoutine.wrap e p level)
      (RenderRoutine.wrap e.unannotated p level) :=
  inStep_ask (wrap_agree ho h he (some p) level)

theorem mirrors_wrapShort (ho : r.options.LooksThrough) (h : Agree whole node node')
    (he : e.Within whole) (level : Nat) :
    Mirrors r node node' Eq (RenderRoutine.wrapShort e level)
      (RenderRoutine.wrapShort e.unannotated level) :=
  inStep_ask (wrapShort_agree ho h he level)

theorem mirrors_wrapBase (ho : r.options.LooksThrough) (h : Agree whole node node')
    (he : e.Within whole) (p : Precedence) (level : Nat) :
    Mirrors r node node' Eq (RenderRoutine.wrapBase e p level)
      (RenderRoutine.wrapBase e.unannotated p level) :=
  inStep_ask (wrapBase_agree ho h he p level)

/-- A request to render all operands is answered alike. -/
theorem mirrors_operands (h : Agree whole node node') (he : ∀ o ∈ e.operands, o.Within whole)
    (level : Nat) : Mirrors r node node' Eq (RenderRoutine.operands e level)
      (RenderRoutine.operands e.unannotated level) :=
  inStep_ask (operands_agree h he level)

/-- Routines over the operands run in step if the routine for each operand does. -/
theorem mirrors_mapM {es : List Expr} {f g : Expr → RenderRoutine β}
    (h : ∀ e ∈ es, Mirrors r node node' Eq (f e) (g e.unannotated)) :
    Mirrors r node node' Eq (es.mapM f) ((es.map unannotated).mapM g) := by
  suffices hloop : ∀ bs, Mirrors r node node' Eq (List.mapM.loop f es bs)
      (List.mapM.loop g (es.map unannotated) bs) from hloop []
  induction es with
  | nil => exact fun _ => mirrors_pure rfl
  | cons e es ih =>
    intro bs
    refine mirrors_bind (h e List.mem_cons_self) ?_
    rintro b _ rfl
    exact ih (fun x hx => h x (List.mem_cons_of_mem e hx)) (b :: bs)

/-- Routines that accumulate over the operands run in step if each round keeps the relation. -/
theorem mirrors_foldlM {es : List Expr} {f : α → Expr → RenderRoutine α}
    {g : β → Expr → RenderRoutine β}
    (h : ∀ a b, R a b → ∀ e ∈ es, Mirrors r node node' R (f a e) (g b e.unannotated)) {a : α}
    {b : β} (hab : R a b) :
    Mirrors r node node' R (es.foldlM f a) ((es.map unannotated).foldlM g b) := by
  induction es generalizing a b with
  | nil => exact mirrors_pure hab
  | cons e es ih =>
    refine mirrors_bind (h a b hab e List.mem_cons_self) fun a' b' hab' => ?_
    exact ih (fun a b hab x hx => h a b hab x (List.mem_cons_of_mem e hx)) hab'

end Mirrors
end Renderer

/-- The routine does the same for an expression as for what is left of it without annotations. -/
def RenderHandler.SeesThrough (handler : RenderHandler) : Prop :=
  ∀ (r : Renderer), r.options.LooksThrough → ∀ (e : Expr) (node node' : RenderNode),
    Renderer.Agree e node node' → ∀ level,
      Renderer.Mirrors r node node' Eq (handler e level) (handler e.unannotated level)

/-- Every render routine of the index sees through annotations. -/
def Index.SeesThrough (ix : Index) : Prop :=
  ∀ entry ∈ ix.latest, ∀ handler, entry.render = some handler → handler.SeesThrough

namespace Renderer

open Expr

variable {r : Renderer} {whole e : Expr} {node node' : RenderNode}

/-- Renderings in a row: the second one goes on with the warnings of the first one. -/
theorem rendering_bind_apply {α β : Type} (x : Rendering α) (f : α → Rendering β)
    (ws : List Warning) : (x >>= f) ws = f (x ws).1 (x ws).2 := rfl

/-- A routine that sees through annotations gives the same, by its markup or by its fallback. -/
theorem runHandler_agree (ho : r.options.LooksThrough) {handler : RenderHandler}
    (hh : handler.SeesThrough) (h : Agree e node node') (level : Nat) :
    r.runHandler node handler e level = r.runHandler node' handler e.unannotated level := by
  funext ws
  obtain ⟨hws, hout⟩ := hh r ho e node node' h level ws
  unfold runHandler
  rw [rendering_bind_apply, rendering_bind_apply]
  revert hws hout
  rcases (handler e level).run.run (r.answer node) ws with ⟨_ | a, vs⟩ <;>
    rcases (handler e.unannotated level).run.run (r.answer node') ws with ⟨_ | b, vs'⟩ <;>
    intro hws hout
  all_goals obtain rfl : vs = vs' := hws
  · rw [show _ = _ from hout]
  · exact hout.elim
  · exact hout.elim
  · rw [show _ = _ from hout]

/-- A table is rendered alike by renderers that agree. -/
theorem table_agree {entries : List (String × Expr)}
    (h : Agree (.table entries) node node') (level : Nat) :
    table node entries level = table node' (unannotatedEntries entries) level := by
  rw [unannotatedEntries_eq, table, table]
  congr 1
  refine mapM_unannotated ?_
  rintro ⟨key, value⟩ hm
  dsimp only
  rw [h value (within_of_mem_entries hm)]

/-- An operator with one operand is written alike by renderers that agree. -/
theorem unaryOperator_agree (ho : r.options.LooksThrough) (h : Agree e node node')
    (entry : IndexedEntry) (p : Precedence) (level : Nat) :
    r.unaryOperator node e entry p level = r.unaryOperator node' e.unannotated entry p level := by
  unfold unaryOperator
  rw [operands_unannotated, List.length_map]
  cases hops : e.operands with
  | nil => rfl
  | cons o os =>
    have hin : o.Within e := within_of_mem_operands (by rw [hops]; exact List.mem_cons_self)
    rw [List.map_cons]
    dsimp only
    rw [wrap_agree ho h hin]

/-- An operator between operands is written alike by renderers that agree. -/
theorem infixOperator_agree (ho : r.options.LooksThrough) (h : Agree e node node')
    (entry : IndexedEntry) (p : Precedence) (level : Nat) :
    r.infixOperator node e entry p level = r.infixOperator node' e.unannotated entry p level := by
  unfold infixOperator
  rw [operands_unannotated, List.length_map]
  cases hops : e.operands with
  | nil => rfl
  | cons o os =>
    have hin : ∀ x ∈ o :: os, x.Within e := fun x hx =>
      within_of_mem_operands (by rw [hops]; exact hx)
    have hrest : ∀ (q : Precedence) (first : String),
        (os.foldlM (fun markup x => do
          let operand ← r.wrap node x (some q) (level + 1)
          return Template.fill entry.template [markup, operand]) first) =
        (os.map unannotated).foldlM (fun markup x => do
          let operand ← r.wrap node' x (some q) (level + 1)
          return Template.fill entry.template [markup, operand]) first := by
      intro q first
      refine foldlM_unannotated (fun markup x hx => ?_) first
      rw [wrap_agree ho h (hin x (List.mem_cons_of_mem o hx))]
    simp only [List.map_cons, List.isEmpty_map, wrap_agree ho h (hin o List.mem_cons_self), hrest]

/-- Operators of all positions are written alike by renderers that agree. -/
theorem operator_agree (ho : r.options.LooksThrough) (h : Agree e node node')
    (entry : IndexedEntry) (level : Nat) :
    r.operator node e entry level = r.operator node' e.unannotated entry level := by
  unfold operator
  cases entry.role with
  | prefixOp p => exact unaryOperator_agree ho h entry _ level
  | postfixOp p => exact unaryOperator_agree ho h entry _ level
  | infixOp p a => exact infixOperator_agree ho h entry _ level
  | _ => rfl

/-- The cells of an environment are written alike by renderers that agree. -/
theorem environment_agree (h : Agree e node node') (entry : IndexedEntry) (level : Nat) :
    environment node e entry level = environment node' e.unannotated entry level := by
  unfold environment
  rw [operand?_unannotated]
  cases hbody : e.operand? 1 with
  | none => rfl
  | some body =>
    rw [Option.map_some, Option.map_some, Option.map_some, Option.getD_some, Option.getD_some,
      operands_unannotated]
    dsimp only
    congr 1
    refine mapM_unannotated fun row hrow => ?_
    have hin : ∀ cell ∈ row.operands, cell.Within e := fun cell hcell =>
      (within_of_mem_operands hcell).trans
        ((within_of_mem_operands hrow).trans (within_of_operand? hbody))
    rw [mapM_operands h hin]

/-- A head without an entry is written alike by renderers that agree. -/
theorem unknownApplication_agree (ho : r.options.LooksThrough) (h : Agree e node node')
    (head : String) (level : Nat) :
    r.unknownApplication node e head level =
      r.unknownApplication node' e.unannotated head level := by
  have hin : ∀ o ∈ e.operands, o.Within e := fun o hm => within_of_mem_operands hm
  unfold unknownApplication
  simp only [mapM_operands h hin, arguments_agree ho h hin]

/-- An application is written alike, with the routine of its entry or without one. -/
theorem application_agree (ho : r.options.LooksThrough) (hx : r.index.SeesThrough)
    (h : Agree e node node') (head : String) (level : Nat) :
    r.application node e head level = r.application node' e.unannotated head level := by
  have hin : ∀ o ∈ e.operands, o.Within e := fun o hm => within_of_mem_operands hm
  unfold application
  cases hentry : r.index.byName? head with
  | none => exact unknownApplication_agree ho h head level
  | some entry =>
    dsimp only
    -- a routine of its own looks through annotations by assumption; without one the role decides
    cases hrender : entry.render with
    | some handler =>
      have hhandler := hx entry (Index.mem_latest_of_byName? hentry) handler hrender
      exact runHandler_agree ho hhandler h level
    | none =>
      cases entry.role with
      | matchfix close =>
        dsimp only
        rw [operands_agree h hin]
      | environment => exact environment_agree h entry level
      | identifier | function =>
        dsimp only
        rw [operands_unannotated, List.isEmpty_map, arguments_agree ho h hin]
      | prefixOp p | infixOp p a | postfixOp p => exact operator_agree ho h entry level

/-! ## The whole rendering -/

/-- Below an expression, a smaller one is rendered by the renderer itself. -/
theorem under_of_size_lt {part : Expr} (h : part.size < e.size) (level : Nat) :
    r.under e part level = r.render part level :=
  dif_pos h

/-- A canonical rendering is the same without the annotations. Each node hands its parts on to
renderers that agree by the induction, and an annotation itself is passed over. -/
theorem render_unannotated_of_index (hc : r.canonical = true) (ho : r.options.LooksThrough)
    (hx : r.index.SeesThrough) (e : Expr) (level : Nat) :
    r.render e level = r.render e.unannotated level := by
  -- on the size, as the parts are handed to `under`, which asks for less than the whole
  induction hs : e.size using Nat.strongRecOn generalizing e level with
  | ind n ih =>
    subst hs
    have hagree : Agree e (r.under e) (r.under e.unannotated) := by
      intro part hpart l
      rw [under_of_size_lt hpart.size, under_of_size_lt hpart.unannotated]
      exact ih part.size hpart.size part l rfl
    cases e with
    | annotated markup inner =>
      have hlt : inner.size < (Expr.annotated markup inner).size := by
        rw [size]
        omega
      rw [render_eq, renderNode, hc, Bool.true_or, if_pos rfl, under_of_size_lt hlt, unannotated]
      exact ih inner.size hlt inner level rfl
    | table entries =>
      rw [render_eq, render_eq]
      exact table_agree hagree level
    | apply head ops =>
      rw [render_eq, render_eq]
      exact application_agree ho hx hagree head level
    | number text => rfl
    | string value => rfl
    | symbol name => rfl

end Renderer
/-! ## The routines of the standard lexicon -/

namespace Lexicon

open Expr Renderer

namespace Structure

/-- A sequence is written from its operands, which are seen through annotations. -/
theorem seesThrough_renderSequence : RenderHandler.SeesThrough renderSequence := by
  intro r ho e node node' h level
  unfold renderSequence
  rw [operands_unannotated]
  refine mirrors_bind (mirrors_mapM fun o hm =>
    mirrors_wrap ho h (within_of_mem_operands hm) _ _) ?_
  rintro operands _ rfl
  exact mirrors_pure rfl

/-- The delimiters are strings, and strings are seen through annotations. -/
theorem seesThrough_renderDelimiter : RenderHandler.SeesThrough renderDelimiter := by
  intro r ho e node node' h level
  refine mirrors_bind mirrors_options ?_
  rintro _ _ ⟨rfl, rfl⟩
  rw [← ho.groupStyle]
  refine mirrors_bind (mirrors_operands h (fun o hm => within_of_mem_operands hm) level) ?_
  rintro operands _ rfl
  exact mirrors_pure rfl

/-- A subscript is written from its two operands. -/
theorem seesThrough_renderSubscript : RenderHandler.SeesThrough renderSubscript := by
  intro r ho e node node' h level
  unfold renderSubscript
  rw [operand?_unannotated, operand?_unannotated]
  -- the base is put in front of the script whether the script is there or missing
  have hscript : ∀ {script script' : RenderRoutine String},
      Mirrors r node node' Eq script script' → ∀ base : String, Mirrors r node node' Eq
        (do let sub ← script; return base ++ "_\x7b" ++ sub ++ "\x7d")
        (do let sub ← script'; return base ++ "_\x7b" ++ sub ++ "\x7d") :=
    fun hs base => mirrors_bind hs (by rintro sub _ rfl; exact mirrors_pure rfl)
  cases hsub : e.operand? 2 with
  | none =>
    have hscript := hscript mirrors_missing
    cases hbase : e.operand? 1 with
    | none => exact mirrors_bind mirrors_missing (by rintro base _ rfl; exact hscript base)
    | some base =>
      exact mirrors_bind (mirrors_wrapBase ho h (within_of_operand? hbase) _ _)
        (by rintro base _ rfl; exact hscript base)
  | some sub =>
    have hscript := hscript (mirrors_render h (within_of_operand? hsub) (level + 1))
    cases hbase : e.operand? 1 with
    | none => exact mirrors_bind mirrors_missing (by rintro base _ rfl; exact hscript base)
    | some base =>
      exact mirrors_bind (mirrors_wrapBase ho h (within_of_operand? hbase) _ _)
        (by rintro base _ rfl; exact hscript base)

/-- The markup kept by an error is seen through annotations. -/
theorem errorMarkup?_unannotated (e : Expr) : errorMarkup? e.unannotated = errorMarkup? e := by
  unfold errorMarkup?
  rw [operands_unannotated, List.find?_map]
  have hlatex : ((fun o : Expr => o.isApply "Latex") ∘ unannotated) =
      fun o => o.isApply "Latex" := by
    funext o
    exact isApply_unannotated o "Latex"
  rw [hlatex]
  cases e.operands.find? fun o => o.isApply "Latex" with
  | none => rfl
  | some context =>
    show (context.unannotated.operand? 1).bind string? = (context.operand? 1).bind string?
    rw [operand?_unannotated]
    cases context.operand? 1 with
    | none => rfl
    | some markup => exact string?_unannotated markup

/-- An error is written as the markup it kept. -/
theorem seesThrough_renderError : RenderHandler.SeesThrough renderError := by
  intro r ho e node node' h level
  unfold renderError
  have hcode : (e.unannotated.operand? 1).bind string? = (e.operand? 1).bind string? := by
    rw [operand?_unannotated]
    cases e.operand? 1 with
    | none => rfl
    | some code => exact string?_unannotated code
  rw [hcode, errorMarkup?_unannotated]
  split
  · exact mirrors_missing
  · cases errorMarkup? e with
    | none => exact mirrors_missing
    | some markup => exact mirrors_pure rfl

end Structure

namespace Arithmetic

/-- What counts as an integer is seen through annotations. -/
theorem isInteger_unannotated (e : Expr) : isInteger e.unannotated = isInteger e := by
  rw [isInteger, isInteger, number?_unannotated]

/-- What counts as a fraction of integers is seen through annotations. -/
theorem isNumericFraction_unannotated (e : Expr) :
    isNumericFraction e.unannotated = isNumericFraction e := by
  rw [isNumericFraction, isNumericFraction, isApply_unannotated, operands_unannotated,
    List.all_map]
  have hinteger : isInteger ∘ unannotated = isInteger := funext isInteger_unannotated
  rw [hinteger]

/-- A wrong number of operands is a warning with or without annotations. -/
theorem wrongCount_unannotated (e : Expr) (head : String) (expected : Nat) :
    wrongCount e.unannotated head expected = wrongCount e head expected := by
  rw [wrongCount, wrongCount, operands_unannotated, List.length_map]

/-- Operands that are put together one after another. What stands between two of them does not hang
on their annotations. -/
theorem mirrors_glued {r : Renderer} {e : Expr} {node node' : RenderNode}
    (ho : r.options.LooksThrough) (h : Agree e node node') {first : Expr} {rest : List Expr}
    (hin : ∀ o ∈ first :: rest, o.Within e) (p q : Precedence) (level : Nat)
    {glue : String × Expr → Expr → String → RenderRoutine (String × Expr)}
    (hglue : ∀ acc op rhs, ∃ s, glue acc op rhs = pure (s, op) ∧
      glue (acc.1, acc.2.unannotated) op.unannotated rhs = pure (s, op.unannotated)) :
    Mirrors r node node' Eq
      (do
        let start ← RenderRoutine.wrap first p level
        let all ← rest.foldlM (fun acc op => do
          let rhs ← RenderRoutine.wrap op q level
          glue acc op rhs) (start, first)
        return all.1)
      (do
        let start ← RenderRoutine.wrap first.unannotated p level
        let all ← (rest.map unannotated).foldlM (fun acc op => do
          let rhs ← RenderRoutine.wrap op q level
          glue acc op rhs) (start, first.unannotated)
        return all.1) := by
  refine mirrors_bind (mirrors_wrap ho h (hin first List.mem_cons_self) p level) ?_
  rintro start _ rfl
  refine mirrors_bind (mirrors_foldlM
    (fun acc acc' (hacc : acc' = (acc.1, acc.2.unannotated)) op hm => ?_) rfl) ?_
  · subst hacc
    refine mirrors_bind (mirrors_wrap ho h (hin op (List.mem_cons_of_mem first hm)) q level) ?_
    rintro rhs _ rfl
    obtain ⟨s, heq, heq'⟩ := hglue acc op rhs
    rw [heq, heq']
    exact mirrors_pure rfl
  · rintro all _ rfl
    exact mirrors_pure rfl

/-- A sum is written from its operands and their signs, which are seen through annotations. -/
theorem seesThrough_renderAdd : RenderHandler.SeesThrough renderAdd := by
  intro r ho e node node' h level
  refine mirrors_bind mirrors_options ?_
  rintro _ _ ⟨rfl, rfl⟩
  rw [operands_unannotated]
  cases hops : e.operands with
  | nil => exact mirrors_pure rfl
  | cons first rest =>
    refine mirrors_glued ho h (fun o hm => within_of_mem_operands (by rw [hops]; exact hm)) _ _ _
      fun acc op rhs => ?_
    dsimp only
    rw [isInteger_unannotated, isNumericFraction_unannotated]
    split <;> exact ⟨_, rfl, rfl⟩

/-- A product is written from its factors. -/
theorem seesThrough_renderMultiply : RenderHandler.SeesThrough renderMultiply := by
  intro r ho e node node' h level
  refine mirrors_bind mirrors_options ?_
  rintro _ _ ⟨rfl, rfl⟩
  rw [operands_unannotated]
  cases hops : e.operands with
  | nil => exact mirrors_pure rfl
  | cons first rest =>
    refine mirrors_glued ho h (fun o hm => within_of_mem_operands (by rw [hops]; exact hm)) _ _ _
      fun acc op rhs => ?_
    dsimp only
    rw [number?_unannotated, symbol?_unannotated]
    split <;> exact ⟨_, rfl, rfl⟩

/-- A quotient is written from its two operands. -/
theorem seesThrough_renderDivide : RenderHandler.SeesThrough renderDivide := by
  intro r ho e node node' h level
  unfold renderDivide
  rw [operands_unannotated, wrongCount_unannotated]
  match hops : e.operands with
  | [] | [_] | _ :: _ :: _ :: _ => exact mirrors_throw _
  | [numerator, denominator] =>
    have hnumerator : numerator.Within e := within_of_mem_operands (by rw [hops]; simp)
    have hdenominator : denominator.Within e := within_of_mem_operands (by rw [hops]; simp)
    refine mirrors_bind mirrors_options ?_
    rintro _ _ ⟨rfl, rfl⟩
    rw [← ho.fractionStyle]
    -- both parts of the fraction are rendered in the way that its style asks for
    have hoperand : ∀ o : Expr, o.Within e → Mirrors r node node' Eq
        ((if leavesUnbraced (r.options.fractionStyle e level) then RenderRoutine.wrapShort
          else RenderRoutine.render) o (level + 1))
        ((if leavesUnbraced (r.options.fractionStyle e level) then RenderRoutine.wrapShort
          else RenderRoutine.render) o.unannotated (level + 1)) := by
      intro o hin
      split
      · exact mirrors_wrapShort ho h hin _
      · exact mirrors_render h hin _
    refine mirrors_bind (hoperand numerator hnumerator) ?_
    rintro numerator _ rfl
    refine mirrors_bind (hoperand denominator hdenominator) ?_
    rintro denominator _ rfl
    exact mirrors_pure rfl

section Parts

variable {r : Renderer} {e : Expr} {node node' : RenderNode}

/-- A radical mirrors if its radicand and its index are parts. -/
theorem mirrors_renderRadical (h : Agree e node node') {radicand : Expr}
    (hr : radicand.Within e) {index : Option Expr} (hi : ∀ i ∈ index, i.Within e) (level : Nat) :
    Mirrors r node node' Eq (renderRadical radicand index level)
      (renderRadical radicand.unannotated (index.map unannotated) level) := by
  refine mirrors_bind (mirrors_render h hr _) ?_
  rintro radicand _ rfl
  cases index with
  | none => exact mirrors_pure rfl
  | some index =>
    refine mirrors_bind (mirrors_render h (hi index rfl) _) ?_
    rintro index _ rfl
    exact mirrors_pure rfl

/-- A power mirrors if its base and its exponent are parts. -/
theorem mirrors_renderScript (ho : r.options.LooksThrough) (h : Agree e node node')
    {base exponent : Expr} (hb : base.Within e) (hx : exponent.Within e) (level : Nat) :
    Mirrors r node node' Eq (renderScript base exponent level)
      (renderScript base.unannotated exponent.unannotated level) := by
  refine mirrors_bind (mirrors_wrapBase ho h hb _ _) ?_
  rintro base _ rfl
  refine mirrors_bind (mirrors_render h hx _) ?_
  rintro exponent _ rfl
  exact mirrors_pure rfl

theorem mirrors_renderIndex (h : Agree e node node') {index : Option Expr}
    (hi : ∀ i ∈ index, i.Within e) (level : Nat) :
    Mirrors r node node' Eq (renderIndex index level)
      (renderIndex (index.map unannotated) level) := by
  cases index with
  | none => exact mirrors_pure rfl
  | some index => exact mirrors_render h (hi index rfl) _

/-- A root mirrors in every style of roots. -/
theorem mirrors_renderRoot (ho : r.options.LooksThrough) (h : Agree e node node')
    {radicand : Expr} (hr : radicand.Within e) {index : Option Expr}
    (hi : ∀ i ∈ index, i.Within e) (level : Nat) (style : RootStyle) :
    Mirrors r node node' Eq (renderRoot radicand index level style)
      (renderRoot radicand.unannotated (index.map unannotated) level style) := by
  cases style with
  | radical => exact mirrors_renderRadical h hr hi level
  | quotient | solidus =>
    refine mirrors_bind (mirrors_wrapShort ho h hr _) ?_
    rintro base _ rfl
    refine mirrors_bind (mirrors_renderIndex h hi level) ?_
    rintro index _ rfl
    exact mirrors_pure rfl

end Parts

/-- What a reciprocal is one over is seen through annotations. -/
theorem reciprocal?_unannotated (e : Expr) :
    reciprocal? e.unannotated = (reciprocal? e).map unannotated := by
  unfold reciprocal?
  rw [operands_unannotated, isApply_unannotated]
  match e.operands with
  | [] | [_] | _ :: _ :: _ :: _ => rfl
  | [numerator, denominator] =>
    show (if e.isApply "Divide" && numerator.unannotated.number? == some "1" then
      some denominator.unannotated else none) = _
    rw [number?_unannotated]
    dsimp only
    split <;> rfl

/-- What a reciprocal is one over is a part of the exponent. -/
theorem within_of_reciprocal? {e index : Expr} (h : reciprocal? e = some index) :
    index.Within e := by
  unfold reciprocal? at h
  split at h
  next numerator denominator hops =>
    split at h
    · refine within_of_mem_operands ?_
      rw [hops, ← Option.some.inj h]
      simp
    · exact absurd h nofun
  next => exact absurd h nofun

/-- A power is written as a root or a script, by its exponent seen through annotations. -/
theorem seesThrough_renderPower : RenderHandler.SeesThrough renderPower := by
  intro r ho e node node' h level
  unfold renderPower
  rw [operands_unannotated, wrongCount_unannotated]
  match hops : e.operands with
  | [] | [_] | _ :: _ :: _ :: _ => exact mirrors_throw _
  | [base, exponent] =>
    have hbase : base.Within e := within_of_mem_operands (by rw [hops]; simp)
    have hexponent : exponent.Within e := within_of_mem_operands (by rw [hops]; simp)
    -- every style but the quotient has a special case, and falls back on the plain script
    have hscript := mirrors_renderScript ho h hbase hexponent level
    refine mirrors_bind mirrors_options ?_
    rintro _ _ ⟨rfl, rfl⟩
    rw [← ho.powerStyle]
    dsimp only
    rw [number?_unannotated, reciprocal?_unannotated]
    cases r.options.powerStyle e level with
    | root =>
      cases hindex : reciprocal? exponent with
      | none => exact hscript
      | some index =>
        have hin : index.Within e := (within_of_reciprocal? hindex).trans hexponent
        dsimp only [Option.map_some]
        rw [number?_unannotated]
        split
        · exact mirrors_renderRadical h hbase (fun i hi => absurd hi (Option.not_mem_none i)) level
        · exact mirrors_renderRadical h hbase
            (fun i hi => by rw [← Option.some.inj hi]; exact hin) level
    | reciprocal =>
      dsimp only
      split
      · refine mirrors_bind (mirrors_render h hbase _) ?_
        rintro base _ rfl
        exact mirrors_pure rfl
      · exact hscript
    | solidus =>
      dsimp only
      split
      · refine mirrors_bind (mirrors_wrapShort ho h hbase _) ?_
        rintro base _ rfl
        exact mirrors_pure rfl
      · exact hscript
    | quotient => exact hscript

theorem seesThrough_renderSquareRoot : RenderHandler.SeesThrough renderSquareRoot := by
  intro r ho e node node' h level
  unfold renderSquareRoot
  rw [operands_unannotated, wrongCount_unannotated]
  match hops : e.operands with
  | [] | _ :: _ :: _ => exact mirrors_throw _
  | [radicand] =>
    refine mirrors_bind mirrors_options ?_
    rintro _ _ ⟨rfl, rfl⟩
    rw [← ho.rootStyle]
    exact mirrors_renderRoot ho h (within_of_mem_operands (by rw [hops]; simp))
      (fun i hi => absurd hi (Option.not_mem_none i)) level _

theorem seesThrough_renderIndexedRoot : RenderHandler.SeesThrough renderIndexedRoot := by
  intro r ho e node node' h level
  unfold renderIndexedRoot
  rw [operands_unannotated, wrongCount_unannotated]
  match hops : e.operands with
  | [] | [_] | _ :: _ :: _ :: _ => exact mirrors_throw _
  | [radicand, index] =>
    refine mirrors_bind mirrors_options ?_
    rintro _ _ ⟨rfl, rfl⟩
    rw [← ho.rootStyle]
    refine mirrors_renderRoot ho h (within_of_mem_operands (by rw [hops]; simp)) ?_ level _
    intro i hi
    obtain rfl := Option.some.inj hi
    exact within_of_mem_operands (by rw [hops]; simp)

end Arithmetic

namespace Connectives

/-- A connective is written from its operands, by the style of the whole. -/
theorem seesThrough_renderConnective (spellings : Spellings) (p : Precedence) :
    RenderHandler.SeesThrough (renderConnective spellings p) := by
  intro r ho e node node' h level
  refine mirrors_bind mirrors_options ?_
  rintro _ _ ⟨rfl, rfl⟩
  rw [← ho.logicStyle, operands_unannotated]
  cases hops : e.operands with
  | nil => exact mirrors_pure rfl
  | cons first rest =>
    have hin : ∀ o ∈ first :: rest, o.Within e := fun o hm =>
      within_of_mem_operands (by rw [hops]; exact hm)
    refine mirrors_bind (mirrors_wrap ho h (hin first List.mem_cons_self) _ _) ?_
    rintro first' _ rfl
    refine mirrors_bind (mirrors_mapM fun o hm =>
      mirrors_wrap ho h (hin o (List.mem_cons_of_mem first hm)) _ _) ?_
    rintro rest _ rfl
    exact mirrors_pure rfl

theorem seesThrough_renderNot : RenderHandler.SeesThrough renderNot := by
  intro r ho e node node' h level
  refine mirrors_bind mirrors_options ?_
  rintro _ _ ⟨rfl, rfl⟩
  rw [← ho.logicStyle, operands_unannotated]
  match hops : e.operands with
  | [] => exact mirrors_throw _
  | o :: o' :: os =>
    show Mirrors r node node' Eq (throw (.operandCount "Not" 1 (o :: o' :: os).length))
      (throw (.operandCount "Not" 1 ((o :: o' :: os).map unannotated).length))
    rw [List.length_map]
    exact mirrors_throw _
  | [operand] =>
    refine mirrors_bind (mirrors_wrap ho h (within_of_mem_operands (by rw [hops]; simp)) _ _) ?_
    rintro operand _ rfl
    exact mirrors_pure rfl

end Connectives

/-- A set of numbers is written by the style alone. -/
theorem Sets.seesThrough_renderNumericSet (s : Sets.NumericSet) :
    RenderHandler.SeesThrough (Sets.renderNumericSet s) := by
  intro r ho e node node' h level
  refine mirrors_bind mirrors_options ?_
  rintro _ _ ⟨rfl, rfl⟩
  rw [← ho.numericSetStyle]
  exact mirrors_pure rfl

end Lexicon

/-- The custom render routine of an entry. -/
def Entry.renderRoutine? (e : Entry) : Option RenderHandler :=
  match e.render with
  | some (.custom handler) => some handler
  | _ => none

open Lexicon Structure Arithmetic Connectives Sets in
/-- The routines that render among the standard entries. -/
theorem renderRoutines_standard : Lexicon.standard.filterMap Entry.renderRoutine? = [
    renderSequence, renderDelimiter, renderSubscript, renderError, renderAdd, renderMultiply,
    renderDivide, renderPower, renderSquareRoot, renderIndexedRoot,
    renderConnective andSpellings andPrecedence, renderConnective orSpellings orPrecedence,
    renderNot] ++ numericSets.map renderNumericSet := rfl

/-- A usable entry has the render routine of the entry it was made from. -/
theorem Index.renderRoutine_of_mem_latest {lexicon : List Entry} {e : IndexedEntry}
    {handler : RenderHandler} (he : e ∈ (ofEntries lexicon).1.latest)
    (hh : e.render = some handler) : handler ∈ lexicon.filterMap Entry.renderRoutine? := by
  rw [Index.latest_ofEntries, List.mem_reverse, List.mem_filterMap] at he
  obtain ⟨entry, hm, hu⟩ := he
  refine List.mem_filterMap.2 ⟨entry, hm, ?_⟩
  obtain ⟨role, -, rfl⟩ := Index.usable?_eq_some_iff.1 hu
  exact hh

open Lexicon Structure Arithmetic Connectives Sets in
/-- Every routine of the standard lexicon sees through annotations. -/
theorem Index.seesThrough_standard : Index.standard.SeesThrough := by
  intro e he handler hh
  have hm := renderRoutine_of_mem_latest he hh
  rw [renderRoutines_standard] at hm
  have hall : ∀ h ∈ [renderSequence, renderDelimiter, renderSubscript, renderError, renderAdd,
      renderMultiply, renderDivide, renderPower, renderSquareRoot, renderIndexedRoot,
      renderConnective andSpellings andPrecedence, renderConnective orSpellings orPrecedence,
      renderNot] ++ numericSets.map renderNumericSet, h.SeesThrough := by
    rw [List.forall_mem_append, List.forall_mem_map]
    simp only [List.forall_mem_cons]
    exact ⟨⟨seesThrough_renderSequence, seesThrough_renderDelimiter, seesThrough_renderSubscript,
      seesThrough_renderError, seesThrough_renderAdd, seesThrough_renderMultiply,
      seesThrough_renderDivide, seesThrough_renderPower, seesThrough_renderSquareRoot,
      seesThrough_renderIndexedRoot, seesThrough_renderConnective _ _,
      seesThrough_renderConnective _ _, seesThrough_renderNot, by simp⟩,
      fun s _ => seesThrough_renderNumericSet s⟩
  exact hall handler hm

/-- With the standard lexicon and styles that look through annotations, the canonical rendering of
an expression is that of the expression with every annotation deleted: the same markup, and the same
warnings in the same order. -/
theorem Transcoder.render_unannotated {t : Transcoder} (hx : t.index = Index.standard)
    (ho : t.options.LooksThrough) (e : Expr) :
    t.render e true = t.render e.unannotated true := by
  have hsees : t.index.SeesThrough := by
    rw [hx]
    exact Index.seesThrough_standard
  rw [render, render]
  exact congrArg (fun rendering : Rendering String => rendering.run [])
    (Renderer.render_unannotated_of_index rfl ho hsees e 0)

/-- Sums get large fences, annotated or not. -/
def largeSums : Options :=
  { groupStyle := fun e _ => if e.isApply "Add" then .big else .paren }

/-- A choice of styles by the number of terms looks through annotations. -/
theorem looksThrough_largeSums : largeSums.LooksThrough where
  applyFunctionStyle := Selector.looksThrough_constant _
  groupStyle e level := by
    show (if e.isApply "Add" then GroupStyle.big else .paren) =
      if e.unannotated.isApply "Add" then .big else .paren
    rw [Expr.isApply_unannotated]
  rootStyle := Selector.looksThrough_constant _
  fractionStyle := Selector.looksThrough_constant _
  logicStyle := Selector.looksThrough_constant _
  powerStyle := Selector.looksThrough_constant _
  numericSetStyle := Selector.looksThrough_constant _

/-- A product of an annotated sum and an annotated negative number, and a root with too few
operands. -/
theorem Transcoder.render_unannotated_product :
    largeSums.LooksThrough ∧
    let e : Expr := .apply "Multiply" [
      .annotated "s" (.apply "Add" [.annotated "x" (.symbol "x"), .symbol "y"]),
      .annotated "n" (.annotated "m" (.number "-2")), .apply "Root" [.annotated "z" (.symbol "z")]]
    Transcoder.render { options := largeSums } e true =
      Transcoder.render { options := largeSums } e.unannotated true ∧
    Transcoder.render { options := largeSums } e true =
      ("\\Bigl(x+y\\Bigr)\\times(-2)\\times", [.operandCount "Root" 2 1]) :=
  ⟨looksThrough_largeSums, render_unannotated rfl looksThrough_largeSums _, by decide +kernel⟩

end MathMarkup
