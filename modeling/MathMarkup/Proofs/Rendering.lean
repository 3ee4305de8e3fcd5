import MathMarkup.Lexicon.Standard
import MathMarkup.Parser.Operator
import MathMarkup.Renderer

/-!
# What expressions are rendered as

One rule for each form of expression says what it is rendered as, given what its operands are
rendered as. `Renderer.Renders r e s` says that `e` is rendered as `s` at every level of nesting and
without a warning. The renderer of a node accepts smaller expressions only; operands are smaller,
so the rules for them go through (`Renderer.Renders.under`).

Custom routines ask the renderer for what they need. `Renderer.Performs` says what a routine does,
warnings included, and `Renderer.Answers` what it ends with where there are none; both have a rule
for each way to put routines together.
-/

namespace MathMarkup

namespace Routine

variable {Request : Type} {Response : Request → Type} {α β : Type}
variable {m : Type → Type} [Monad m] [LawfulMonad m]

/-- A routine of two parts runs one part after the other. -/
theorem run_bind (answer : (q : Request) → m (Response q)) (r : Routine Request Response α)
    (f : α → Routine Request Response β) :
    (r >>= f).run answer = r.run answer >>= fun a => (f a).run answer := by
  induction r with
  | done a =>
    show (f a).run answer = pure a >>= _
    rw [pure_bind]
  | ask q next ih =>
    show (answer q >>= fun x => ((next x) >>= f).run answer) = (answer q >>= _) >>= _
    rw [bind_assoc]
    exact bind_congr fun x => ih x

end Routine

namespace Template

/-! ## Templates of operators -/

/-- Filling goes by what is behind the text up to a hash. -/
theorem fillFrom_eq (args : List String) (written : String) (template : List Char) :
    fillFrom args written template =
      let text := append written (String.ofList (template.takeWhile (· != '#')))
      match template.dropWhile (· != '#') with
      | [] => text
      | [hash] => text.push hash
      | hash :: c :: rest =>
        match placeholder? c with
        | some n =>
          if escapesHash text then fillFrom args (text.push hash) (c :: rest)
          else fillFrom args (append text (argument args n)) rest
        | none => fillFrom args (text.push hash) (c :: rest) := by
  rw [fillFrom]
  split
  next heq => simp only [heq]
  next heq => simp only [heq]
  next c rest heq => cases hp : placeholder? c <;> simp only [heq, hp]

/-- The text up to a hash is what stands in front of it. -/
theorem takeWhile_hash {cs : List Char} (h : '#' ∉ cs) (rest : List Char) :
    (cs ++ '#' :: rest).takeWhile (· != '#') = cs ∧
      (cs ++ '#' :: rest).dropWhile (· != '#') = '#' :: rest := by
  have hcs : ∀ c ∈ cs, (c != '#') = true := by
    intro c hc
    rw [bne_iff_ne]
    rintro rfl
    exact h hc
  rw [List.takeWhile_append_of_pos hcs, List.dropWhile_append_of_pos hcs]
  exact ⟨List.append_nil cs, rfl⟩

/-- Text without a hash is text up to the end. -/
theorem takeWhile_of_not_hash {cs : List Char} (h : '#' ∉ cs) :
    cs.takeWhile (· != '#') = cs ∧ cs.dropWhile (· != '#') = [] := by
  have hcs : ∀ c ∈ cs, (c != '#') = true := fun c hc => bne_iff_ne.2 fun he => h (he ▸ hc)
  have ht := @List.takeWhile_append_of_pos _ (· != '#') cs [] hcs
  have hd := @List.dropWhile_append_of_pos _ (· != '#') cs [] hcs
  rw [List.append_nil, List.takeWhile_nil, List.append_nil] at ht
  rw [List.append_nil, List.dropWhile_nil] at hd
  exact ⟨ht, hd⟩

/-- A text without placeholders is written as it stands. -/
theorem fillFrom_text (args : List String) (written : String) {cs : List Char} (h : '#' ∉ cs) :
    fillFrom args written cs = append written (String.ofList cs) := by
  obtain ⟨ht, hd⟩ := takeWhile_of_not_hash h
  rw [fillFrom_eq, ht, hd]

/-- A text and then a placeholder. -/
theorem fillFrom_placeholder (args : List String) (written : String) {cs : List Char}
    (h : '#' ∉ cs) {c : Char} {n : Nat} (hc : placeholder? c = some n) (rest : List Char)
    (he : escapesHash (append written (String.ofList cs)) = false) :
    fillFrom args written (cs ++ '#' :: c :: rest) =
      fillFrom args (append (append written (String.ofList cs)) (argument args n)) rest := by
  obtain ⟨ht, hd⟩ := takeWhile_hash h (c :: rest)
  rw [fillFrom_eq, ht, hd]
  dsimp only
  rw [hc]
  dsimp only
  rw [he, if_neg Bool.false_ne_true]

/-- A sign that a template can stand around: no placeholder, and no backslash at the end. -/
structure Sign (w : String) : Prop where
  hash : '#' ∉ w.toList
  last : ∃ cs c, w.toList = cs ++ [c] ∧ c ≠ '\\'

/-- What is written behind a sign is filled in, since no sign ends in a backslash. -/
theorem escapesHash_append {w : String} (hw : Sign w) (s : String) :
    escapesHash (append s w) = false := by
  obtain ⟨cs, c, hl, hc⟩ := hw.last
  have hends : ∀ pre : List Char, (pre ++ w.toList).getLast? = some c := by
    intro pre
    rw [hl, ← List.append_assoc, List.getLast?_concat]
  have hlast : (append s w).toList.getLast? = some c := by
    unfold append
    split
    · rw [String.toList_append]
      exact hends _
    · rw [String.toList_append]
      exact hends _
  rw [escapesHash, hlast]
  exact beq_eq_false_iff_ne.2 fun h => hc (Option.some.inj h)

/-- An infix template puts its sign between the operands. -/
theorem fill_infixOp {w : String} (hw : Sign w) (a b : String) :
    fill ("#1" ++ w ++ "#2") [a, b] = append (append a w) b := by
  have hcs : ("#1" ++ w ++ "#2").toList = [] ++ '#' :: '1' :: (w.toList ++ '#' :: '2' :: []) := by
    simp only [String.toList_append]
    rfl
  unfold fill
  rw [hcs, fillFrom_placeholder _ _ (by simp) (show placeholder? '1' = some 1 from rfl) _ rfl,
    fillFrom_placeholder _ _ hw.hash (show placeholder? '2' = some 2 from rfl), fillFrom_text]
  · rw [String.ofList_toList, append_empty, show append "" (String.ofList []) = "" from rfl]
    show append (append (append "" a) w) b = _
    rw [empty_append]
  · simp
  · rw [String.ofList_toList]
    exact escapesHash_append hw _

/-- A prefix template puts its sign before the operand. -/
theorem fill_prefixOp {w : String} (hw : Sign w) (a : String) :
    fill (w ++ "#1") [a] = append w a := by
  have hcs : (w ++ "#1").toList = w.toList ++ '#' :: '1' :: [] := by
    rw [String.toList_append]
    rfl
  unfold fill
  rw [hcs, fillFrom_placeholder _ _ hw.hash (show placeholder? '1' = some 1 from rfl),
    fillFrom_text]
  · rw [String.ofList_toList, append_empty, empty_append]
    rfl
  · simp
  · rw [String.ofList_toList]
    exact escapesHash_append hw _

/-- A postfix template puts its sign behind the operand. -/
theorem fill_postfixOp {w : String} (hw : Sign w) (a : String) :
    fill ("#1" ++ w) [a] = append a w := by
  have hcs : ("#1" ++ w).toList = [] ++ '#' :: '1' :: w.toList := by
    rw [String.toList_append]
    rfl
  unfold fill
  rw [hcs, fillFrom_placeholder _ _ (by simp) (show placeholder? '1' = some 1 from rfl) _ rfl,
    fillFrom_text _ _ hw.hash, show append "" (String.ofList []) = "" from rfl,
    String.ofList_toList]
  show append (append "" a) w = _
  rw [empty_append]

end Template

namespace Renderer

/-- The renderer with an index and the default options. -/
def ofIndex (ix : Index) (canonical : Bool) : Renderer :=
  { options := {}, index := ix, canonical }

/-- The renderer that the operands of an expression get. -/
def under (r : Renderer) (e : Expr) : RenderNode := fun target l =>
  if _h : target.size < e.size then r.render target l else return ""

/-- An expression is rendered as some markup at every level, without a warning. -/
def Renders (r : Renderer) (e : Expr) (s : String) : Prop :=
  ∀ level, r.render e level = pure s

variable {ix : Index} {canonical : Bool}

/-- A renderer renders the node, and itself the parts. -/
theorem render_eq (r : Renderer) (e : Expr) (level : Nat) :
    r.render e level = r.renderNode (r.under e) e level := by
  rw [render]
  rfl

/-- Operands are rendered as by themselves. -/
theorem under_of_mem (r : Renderer) {e o : Expr} (ho : o ∈ e.operands) (level : Nat) :
    r.under e o level = r.render o level :=
  dif_pos (Expr.size_lt_of_mem_operands ho)

/-- An operand of the whole is rendered as it is by itself. -/
theorem Renders.under {r : Renderer} {e o : Expr} {s : String} (h : r.Renders o s)
    (ho : o ∈ e.operands) (level : Nat) : r.under e o level = pure s :=
  (r.under_of_mem ho level).trans (h level)

/-! ## Operands -/

/-- The markup of an operand, in parentheses if it binds looser than a precedence. -/
def held (r : Renderer) (e : Expr) (s : String) (p : Precedence) : String :=
  if r.bindsLooser e s p then "(" ++ s ++ ")" else s

/-- The markup of the base of a script. -/
def heldBase (r : Renderer) (e : Expr) (s : String) (p : Precedence) : String :=
  if isShortFenced e || r.bindsLooser e s p.tighter then "(" ++ s ++ ")" else s

/-- An operator binds as its entry says. -/
theorem bindsLooser_apply {r : Renderer} {head : String} {own : Precedence}
    (h : r.precedenceOf? head = some own) (hd : head ≠ "Delimiter") (hs : head ≠ "Subscript")
    (operands : List Expr) (s : String) (p : Precedence) :
    r.bindsLooser (.apply head operands) s p = decide (own < p) := by
  unfold bindsLooser
  rw [show (Expr.apply head operands).strip = .apply head operands from rfl]
  dsimp only
  rw [if_neg (not_or.2 ⟨hd, hs⟩), h]

/-- An operand is fenced as it is held. -/
theorem wrap_eq {node : RenderNode} {e : Expr} {s : String} {level : Nat}
    (h : node e level = pure s) (p : Precedence) :
    (ofIndex ix canonical).wrap node e (some p) level =
      pure ((ofIndex ix canonical).held e s p) := by
  unfold wrap
  rw [h, pure_bind]
  rfl

/-- The base of a script is fenced as it is held there. -/
theorem wrapBase_eq {node : RenderNode} {e : Expr} {s : String} {level : Nat}
    (h : node e level = pure s) (p : Precedence) :
    (ofIndex ix canonical).wrapBase node e p level =
      pure ((ofIndex ix canonical).heldBase e s p) := by
  unfold wrapBase
  rw [h, pure_bind]
  rfl

/-! ## Atoms -/

/-- A symbol without an entry of its own is encoded as a name. -/
theorem renders_symbol {r : Renderer} {name : String}
    (h : ∀ entry, r.index.byName? name = some entry →
      entry.role ≠ .identifier ∧ entry.role ≠ .function) :
    r.Renders (.symbol name) (Name.encode name .auto) := by
  intro level
  rw [render_eq]
  show r.symbol _ _ name level = _
  unfold symbol
  cases hb : r.index.byName? name with
  | none => rfl
  | some entry =>
    obtain ⟨hi, hf⟩ := h entry hb
    have hno : (entry.role == .identifier || entry.role == .function) = false := by
      rw [Bool.or_eq_false_iff, beq_eq_false_iff_ne, beq_eq_false_iff_ne]
      exact ⟨hi, hf⟩
    dsimp only
    rw [hno, if_neg Bool.false_ne_true]

/-- A symbol without an entry is written as its name. -/
theorem renders_unnamed {r : Renderer} {name : String} (h : r.index.byName? name = none) :
    r.Renders (.symbol name) (Name.encode name .auto) := by
  refine renders_symbol fun entry he => ?_
  rw [h] at he
  cases he

/-- A number is written in the format of the options. -/
theorem renders_number {r : Renderer} {text s : String}
    (h : Numeral.render text r.options.number = .ok s) : r.Renders (.number text) s := by
  intro level
  rw [render_eq]
  show r.number text = _
  unfold number
  rw [h]

/-- A string is escaped as text. -/
theorem renders_string (r : Renderer) (s : String) :
    r.Renders (.string s) ("\\text" ++ Name.braced (escapeText s)) :=
  render_eq r (.string s)

/-! ## Operators without routines -/

/-- An application of an operator's head is written as the operator. -/
theorem render_operator {head : String} {operands : List Expr} {entry : IndexedEntry}
    {p : Precedence} (he : ix.byName? head = some entry) (hr : entry.render = none)
    (hp : entry.precedence? = some p) (level : Nat) :
    (ofIndex ix canonical).render (.apply head operands) level =
      (ofIndex ix canonical).operator ((ofIndex ix canonical).under (.apply head operands))
        (.apply head operands) entry level := by
  rw [render_eq]
  show (ofIndex ix canonical).application _ _ head level = _
  unfold application
  rw [show (ofIndex ix canonical).index = ix from rfl, he]
  dsimp only
  rw [hr]
  unfold IndexedEntry.precedence? at hp
  cases hrole : entry.role with
  | prefixOp | infixOp | postfixOp => rfl
  | identifier | function | matchfix | environment =>
    rw [hrole] at hp
    exact absurd hp (by simp [Role.precedence?])

/-- How tightly the left operand of an infix operator must bind. -/
def leftPrecedence (assoc : Associativity) (p : Precedence) : Precedence :=
  if assoc = .right then p.tighter else p

/-- The operand on the right is held to the precedence that it is read at. -/
theorem renders_infixOp {head : String} {a b : Expr} {sa sb w : String} {entry : IndexedEntry}
    {p : Precedence} {assoc : Associativity} (hw : Template.Sign w)
    (he : ix.byName? head = some entry) (hr : entry.render = none)
    (hrole : entry.role = .infixOp p assoc) (ht : entry.template = "#1" ++ w ++ "#2")
    (ha : (ofIndex ix canonical).Renders a sa) (hb : (ofIndex ix canonical).Renders b sb) :
    (ofIndex ix canonical).Renders (.apply head [a, b])
      (append (append ((ofIndex ix canonical).held a sa (leftPrecedence assoc p)) w)
        ((ofIndex ix canonical).held b sb (Parser.rightPrecedence assoc p))) := by
  intro level
  have ha' := ha.under (show a ∈ (Expr.apply head [a, b]).operands from List.mem_cons_self)
  have hb' := hb.under (show b ∈ (Expr.apply head [a, b]).operands from by
    exact List.mem_cons_of_mem _ List.mem_cons_self)
  rw [render_operator he hr (by rw [IndexedEntry.precedence?, hrole]; rfl)]
  unfold operator
  rw [hrole]
  dsimp only
  unfold infixOperator
  rw [hrole]
  -- the associativity says which of the two sides is held tighter
  cases assoc
  all_goals
    show (wrap _ _ a _ _ >>= fun first => (wrap _ _ b _ _ >>= fun operand =>
      pure (Template.fill entry.template [first, operand])) >>= fun x => pure x) = _
    rw [wrap_eq (ha' _), pure_bind, wrap_eq (hb' _), pure_bind, pure_bind, ht,
      Template.fill_infixOp hw]
    rfl

/-- A prefix operator is written before its operand. -/
theorem renders_prefixOp {head : String} {a : Expr} {sa w : String} {entry : IndexedEntry}
    {p : Precedence} (hw : Template.Sign w) (he : ix.byName? head = some entry)
    (hr : entry.render = none) (hrole : entry.role = .prefixOp p)
    (ht : entry.template = w ++ "#1") (ha : (ofIndex ix canonical).Renders a sa) :
    (ofIndex ix canonical).Renders (.apply head [a])
      (append w ((ofIndex ix canonical).held a sa p.tighter)) := by
  intro level
  have ha' := ha.under (show a ∈ (Expr.apply head [a]).operands from List.mem_cons_self)
  rw [render_operator he hr (by rw [IndexedEntry.precedence?, hrole]; rfl)]
  unfold operator
  rw [hrole]
  show (wrap _ _ a _ _ >>= fun operand => pure (Template.fill entry.template [operand])) = _
  rw [wrap_eq (ha' _), pure_bind, ht, Template.fill_prefixOp hw]

/-- A postfix operator is written behind its operand. -/
theorem renders_postfixOp {head : String} {a : Expr} {sa w : String} {entry : IndexedEntry}
    {p : Precedence} (hw : Template.Sign w) (he : ix.byName? head = some entry)
    (hr : entry.render = none) (hrole : entry.role = .postfixOp p)
    (ht : entry.template = "#1" ++ w) (ha : (ofIndex ix canonical).Renders a sa) :
    (ofIndex ix canonical).Renders (.apply head [a])
      (append ((ofIndex ix canonical).held a sa p) w) := by
  intro level
  have ha' := ha.under (show a ∈ (Expr.apply head [a]).operands from List.mem_cons_self)
  rw [render_operator he hr (by rw [IndexedEntry.precedence?, hrole]; rfl)]
  unfold operator
  rw [hrole]
  show (wrap _ _ a _ _ >>= fun operand => pure (Template.fill entry.template [operand])) = _
  rw [wrap_eq (ha' _), pure_bind, ht, Template.fill_postfixOp hw]

/-! ## Functions without routines -/

/-- A function is written before its argument in parentheses. -/
theorem renders_function {head : String} {a : Expr} {sa : String} {entry : IndexedEntry}
    (he : ix.byName? head = some entry) (hr : entry.render = none) (hrole : entry.role = .function)
    (ha : (ofIndex ix canonical).Renders a sa) :
    (ofIndex ix canonical).Renders (.apply head [a])
      (join [entry.template, "(" ++ sa ++ ")"]) := by
  intro level
  have ha' := ha.under (show a ∈ (Expr.apply head [a]).operands from List.mem_cons_self)
  have hargs : (ofIndex ix canonical).arguments ((ofIndex ix canonical).under (.apply head [a]))
      (.apply head [a]) level = pure ("(" ++ sa ++ ")") := by
    show (((ofIndex ix canonical).under (.apply head [a]) a (level + 1) >>= fun s =>
      pure [] >>= fun ss => pure (s :: ss)) >>= fun ss => pure (", ".intercalate ss)) >>= _ = _
    rw [ha', pure_bind, pure_bind, pure_bind, pure_bind]
    rfl
  rw [render_eq]
  show (ofIndex ix canonical).application _ _ head level = _
  unfold application
  rw [show (ofIndex ix canonical).index = ix from rfl, he]
  dsimp only
  rw [hr, hrole]
  show (arguments _ _ _ _ >>= fun s => pure (join [entry.template, s])) = _
  rw [hargs, pure_bind]

/-! ## Custom routines -/

section Performs

variable {α β : Type} {r : Renderer} {node : RenderNode}

/-- A routine does what a rendering does, without a failure. -/
def Performs (r : Renderer) (node : RenderNode) (routine : RenderRoutine α) (x : Rendering α) :
    Prop :=
  routine.run.run (r.answer node) = Except.ok <$> x

theorem performs_pure (a : α) : Performs r node (pure a) (pure a) :=
  rfl

/-- Routines in a row perform what renderings in a row do. -/
theorem Performs.bind {routine : RenderRoutine α} {f : α → RenderRoutine β} {x : Rendering α}
    {g : α → Rendering β} (h : Performs r node routine x) (hf : ∀ a, Performs r node (f a) (g a)) :
    Performs r node (routine >>= f) (x >>= g) := by
  show (routine.run >>= ExceptT.bindCont f).run (r.answer node) = _
  rw [Routine.run_bind, h, bind_map_left, map_bind]
  exact bind_congr hf

/-- A request performs the answer to it. -/
theorem performs_ask (q : RenderRequest) :
    Performs r node (RenderRoutine.ask q) (r.answer node q) := by
  show (r.answer node q >>= fun x => pure (Except.ok x)) = _
  rw [map_eq_pure_bind]

/-- A routine goes on with the options of the renderer. -/
theorem performs_options_bind {f : Options → RenderRoutine α} {x : Rendering α}
    (h : Performs r node (f r.options) x) : Performs r node (RenderRoutine.options >>= f) x :=
  h

/-- A routine gets an operand as it is rendered by itself. -/
theorem performs_wrap {e o : Expr} (ho : o ∈ e.operands) (p : Precedence) (level : Nat) :
    Performs r (r.under e) (RenderRoutine.wrap o p level) (r.wrap r.render o (some p) level) := by
  have hwrap : r.wrap r.render o (some p) level = r.wrap (r.under e) o (some p) level := by
    unfold wrap
    rw [r.under_of_mem ho]
  rw [hwrap]
  exact performs_ask _

/-- A routine for each member performs the rendering for each member. -/
theorem performs_mapM {f : α → RenderRoutine β} {g : α → Rendering β} {xs : List α}
    (h : ∀ x ∈ xs, Performs r node (f x) (g x)) : Performs r node (xs.mapM f) (xs.mapM g) := by
  suffices hloop : ∀ bs, Performs r node (List.mapM.loop f xs bs) (List.mapM.loop g xs bs) from
    hloop []
  induction xs with
  | nil => exact fun bs => performs_pure bs.reverse
  | cons x xs ih =>
    exact fun bs => (h x List.mem_cons_self).bind fun b =>
      ih (fun y hy => h y (List.mem_cons_of_mem x hy)) (b :: bs)

/-- An application is rendered as its routine says. -/
theorem render_of_performs {head : String} {operands : List Expr} {entry : IndexedEntry}
    {handler : RenderHandler} {level : Nat} {x : Rendering String}
    (he : r.index.byName? head = some entry) (hr : entry.render = some handler)
    (h : Performs r (r.under (.apply head operands)) (handler (.apply head operands) level) x) :
    r.render (.apply head operands) level = x := by
  rw [render_eq]
  show r.application _ _ head level = _
  unfold application
  rw [he]
  dsimp only
  rw [hr]
  dsimp only
  unfold runHandler
  rw [h, bind_map_left]
  exact bind_pure x

end Performs

section Answers

variable {α β : Type} {r : Renderer} {node : RenderNode}

/-- A routine ends with a result, without a failure or a warning. -/
def Answers (r : Renderer) (node : RenderNode) (routine : RenderRoutine α) (a : α) : Prop :=
  routine.run.run (r.answer node) = pure (.ok a)

theorem answers_pure (a : α) : Answers r node (pure a) a :=
  rfl

/-- Routines in a row answer with what the last one does. -/
theorem Answers.bind {x : RenderRoutine α} {f : α → RenderRoutine β} {a : α} {b : β}
    (h : Answers r node x a) (hf : Answers r node (f a) b) : Answers r node (x >>= f) b := by
  show (x.run >>= ExceptT.bindCont f).run (r.answer node) = _
  rw [Routine.run_bind, h, pure_bind]
  exact hf

/-- A request that is answered without warnings is answered. -/
theorem answers_ask {q : RenderRequest} {a : q.Response} (h : r.answer node q = pure a) :
    Answers r node (RenderRoutine.ask q) a := by
  show (r.answer node q >>= fun x => (pure (Except.ok x) : Rendering (Except Warning _))) =
    pure (Except.ok a)
  rw [h, pure_bind]

theorem answers_options : Answers r node RenderRoutine.options r.options :=
  answers_ask rfl

/-- A part that renders is a request that is answered. -/
theorem answers_render {e : Expr} {s : String} {level : Nat} (h : node e level = pure s) :
    Answers r node (RenderRoutine.render e level) s :=
  answers_ask h

/-- A part that renders is answered as it is held. -/
theorem answers_wrap {e : Expr} {s : String} {level : Nat} (h : node e level = pure s)
    (p : Precedence) :
    Answers (ofIndex ix canonical) node (RenderRoutine.wrap e p level)
      ((ofIndex ix canonical).held e s p) :=
  answers_ask (wrap_eq h p)

/-- A base that renders is answered as it is held there. -/
theorem answers_wrapBase {e : Expr} {s : String} {level : Nat} (h : node e level = pure s)
    (p : Precedence) :
    Answers (ofIndex ix canonical) node (RenderRoutine.wrapBase e p level)
      ((ofIndex ix canonical).heldBase e s p) :=
  answers_ask (wrapBase_eq h p)

/-- A routine that accumulates answers as the fold does. -/
theorem answers_foldlM {γ : Type} {k : γ → α} {f : β → α → RenderRoutine β} {g : β → γ → β}
    {xs : List γ} (h : ∀ b, ∀ x ∈ xs, Answers r node (f b (k x)) (g b x)) (b : β) :
    Answers r node ((xs.map k).foldlM f b) (xs.foldl g b) := by
  induction xs generalizing b with
  | nil => exact answers_pure b
  | cons x xs ih =>
    exact (h b x List.mem_cons_self).bind
      (ih (fun b y hy => h b y (List.mem_cons_of_mem x hy)) (g b x))

/-- A routine for each member answers with the list of answers. -/
theorem answers_mapM {γ : Type} {k : γ → α} {f : α → RenderRoutine β} {g : γ → β}
    {xs : List γ} (h : ∀ x ∈ xs, Answers r node (f (k x)) (g x)) :
    Answers r node ((xs.map k).mapM f) (xs.map g) := by
  suffices hloop : ∀ (xs : List γ) (bs : List β), (∀ x ∈ xs, Answers r node (f (k x)) (g x)) →
      Answers r node (List.mapM.loop f (xs.map k) bs) (bs.reverse ++ xs.map g) from hloop xs [] h
  intro xs
  induction xs with
  | nil =>
    intro bs _
    rw [List.map_nil, List.map_nil, List.append_nil]
    exact answers_pure _
  | cons x xs ih =>
    intro bs h
    have hrest := ih (g x :: bs) fun y hy => h y (List.mem_cons_of_mem x hy)
    rw [List.reverse_cons, List.append_assoc] at hrest
    exact (h x List.mem_cons_self).bind hrest

/-- An application is rendered as its routine answers. -/
theorem renders_routine {head : String} {operands : List Expr} {entry : IndexedEntry}
    {handler : RenderHandler} {s : String} (he : r.index.byName? head = some entry)
    (hr : entry.render = some handler)
    (h : ∀ level, Answers r (r.under (.apply head operands)) (handler (.apply head operands) level)
      s) : r.Renders (.apply head operands) s :=
  fun level => render_of_performs he hr (h level)

end Answers

end Renderer
end MathMarkup
