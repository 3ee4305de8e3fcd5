import Mathlib.Data.List.Nodup
import MathMarkup.Proofs.Legible
import MathMarkup.Proofs.Names
import MathMarkup.Transcoder

/-!
# Any table of operators

The core of the lexicon is extended by any operators before, between and after their operands, at
any precedences. Every expression of letters and these operators survives rendering and parsing: the
parentheses that the renderer puts are those that the parser needs, for both associativities and for
operators of different kinds that share a precedence.

One case is left out, and it is ambiguous: an operator that groups on the right, at the same
precedence as one that groups on the left or stands after its operand. `OperatorTable.leaves` is
where that matters, since an operator on the right takes the last operand of what is before it
unless that is held tighter.
-/

namespace MathMarkup

open MathMarkup.Lexer MathMarkup.Parser

/-- A control word that means nothing to the core of the lexicon or to the parser. -/
structure FreshWord (w : String) : Prop where
  word : ControlWord w
  core : ∀ e ∈ Category.core.entries, w ∉ e.trigger ∧ w ∉ e.closeTrigger
  spacing : w ∉ spacing
  environment : w ≠ "\\begin" ∧ w ≠ "\\end"

/-- Entries of operators that are parsed without routines, each with a control word of its own. -/
structure Operators (es : List Entry) : Prop where
  kind : ∀ e ∈ es, e.kind = .prefixOp ∨ e.kind = .infixOp ∨ e.kind = .postfixOp
  parse : ∀ e ∈ es, ∀ handler, e.parse ≠ some (.custom handler)
  trigger : ∀ e ∈ es, ∃ w, e.trigger = [w] ∧ FreshWord w
  triggers : (es.map Entry.trigger).Nodup
  precedence : ∀ e ∈ es, ∃ p : Precedence, e.precedence = some p

/-- Entries of operators, each with a name and a control word of its own. -/
structure OperatorTable (es : List Entry) : Prop where
  kind : ∀ e ∈ es, e.kind = .prefixOp ∨ e.kind = .infixOp ∨ e.kind = .postfixOp
  parse : ∀ e ∈ es, ∀ handler, e.parse ≠ some (.custom handler)
  render : ∀ e ∈ es, e.render = none
  name : ∀ e ∈ es, ∃ name, e.name = some name ∧
    ∀ c ∈ Category.core.entries, c.name ≠ some name
  names : (es.map Entry.name).Nodup
  trigger : ∀ e ∈ es, ∃ w, e.trigger = [w] ∧ FreshWord w
  triggers : (es.map Entry.trigger).Nodup
  precedence : ∀ e ∈ es, ∃ p : Precedence, e.precedence = some p ∧ p.val < 65535
  /-- No operator that groups on the right shares its precedence with one that takes what is on its
  left as a whole. -/
  unshared : ∀ e ∈ es, e.kind = .infixOp → e.associativity = .right → ∀ f ∈ es,
    f.precedence = e.precedence →
      f.kind ≠ .postfixOp ∧ (f.kind = .infixOp → f.associativity = .right)

/-- A table of operators has only operators, apart from the core. -/
theorem OperatorTable.operators {es : List Entry} (h : OperatorTable es) : Operators es where
  kind := h.kind
  parse := h.parse
  trigger := h.trigger
  triggers := h.triggers
  precedence e he := by
    obtain ⟨p, hp, -⟩ := h.precedence e he
    exact ⟨p, hp⟩

/-- Expressions of letters and operators. -/
inductive OperatorExpr (es : List Entry) : Expr → Prop where
  | letter (c : Char) (h : c.isAlpha = true) : OperatorExpr es (.symbol (String.ofList [c]))
  | between {f : Entry} {head : String} {a b : Expr} (hf : f ∈ es) (hk : f.kind = .infixOp)
      (hn : f.name = some head) (ha : OperatorExpr es a) (hb : OperatorExpr es b) :
      OperatorExpr es (.apply head [a, b])
  | before {f : Entry} {head : String} {a : Expr} (hf : f ∈ es) (hk : f.kind = .prefixOp)
      (hn : f.name = some head) (ha : OperatorExpr es a) : OperatorExpr es (.apply head [a])
  | after {f : Entry} {head : String} {a : Expr} (hf : f ∈ es) (hk : f.kind = .postfixOp)
      (hn : f.name = some head) (ha : OperatorExpr es a) : OperatorExpr es (.apply head [a])

namespace OperatorTable

variable {es : List Entry} {canonical : Bool}

/-- The core of the lexicon with the operators. -/
def lexicon (es : List Entry) : List Entry :=
  Category.core.entries ++ es

/-- Its index. -/
def index (es : List Entry) : Index :=
  (Index.ofEntries (lexicon es)).1

theorem arranged_index (es : List Entry) : (index es).Arranged :=
  Index.arranged_ofEntries _

/-! ## What look-ups find -/

/-- The member of a list with some unique value is the only one of it. -/
theorem filter_of_unique {α β : Type} {f : α → β} {l : List α} (hl : (l.map f).Nodup) {p : α → Bool}
    {a : α} (ha : a ∈ l) (hp : ∀ x ∈ l, p x = true ↔ f x = f a) : l.filter p = [a] := by
  induction l with
  | nil => exact absurd ha List.not_mem_nil
  | cons x xs ih =>
    rw [List.map_cons, List.nodup_cons] at hl
    rcases List.mem_cons.1 ha with rfl | hmem
    · have hrest : xs.filter p = [] := by
        refine List.filter_eq_nil_iff.2 fun y hy hpy => hl.1 ?_
        rw [← (hp y (List.mem_cons_of_mem _ hy)).1 hpy]
        exact List.mem_map_of_mem hy
      rw [List.filter_cons_of_pos ((hp a List.mem_cons_self).2 rfl), hrest]
    · have hx : ¬ p x = true := by
        intro hpx
        refine hl.1 ?_
        rw [(hp x List.mem_cons_self).1 hpx]
        exact List.mem_map_of_mem hmem
      rw [List.filter_cons_of_neg hx]
      exact ih hl.2 hmem fun y hy => hp y (List.mem_cons_of_mem _ hy)

/-- The role of an operator. -/
def role (e : Entry) (p : Precedence) : Role :=
  if e.kind = .prefixOp then .prefixOp p
  else if e.kind = .infixOp then .infixOp p e.associativity
  else .postfixOp p

/-- Every operator of the table is usable. -/
theorem usable (h : Operators es) {e : Entry} (he : e ∈ es) {p : Precedence}
    (hp : e.precedence = some p) : Index.usable? e = some (e.indexed (role e p)) := by
  obtain ⟨w, hw, -⟩ := h.trigger e he
  obtain ⟨hpre, hin, hpost⟩ := Index.usable?_operator (by rw [hw]; exact List.cons_ne_nil w []) hp
  unfold role
  rcases h.kind e he with hk | hk | hk
  · rw [hpre hk, hk, if_pos rfl]
  · rw [hin hk, hk, if_neg (by decide), if_pos rfl]
  · rw [hpost hk, hk, if_neg (by decide), if_neg (by decide)]

/-- An operator is found where its control word comes next, and as nothing but its kind. -/
theorem any_isFound (h : Operators es) {e : Entry} (he : e ∈ es) (kind : Kind) (w : String)
    (us : List String) : (Index.usable? e).any (Index.isFound kind (w :: us)) = true ↔
      e.kind = kind ∧ e.trigger = [w] := by
  obtain ⟨p, hp⟩ := h.precedence e he
  obtain ⟨v, hv, -⟩ := h.trigger e he
  have hkind : (role e p).foundAs kind = true ↔ e.kind = kind := by
    unfold role
    rcases h.kind e he with hk | hk | hk <;> rw [hk] <;> cases kind <;> simp [Role.foundAs, Role.kind]
  have hpre : ([v] != [] && [v].isPrefixOf (w :: us)) = true ↔ [v] = [w] := by
    simp
  rw [usable h he hp, Option.any_some, Index.isFound, Bool.and_eq_true]
  show _ ∧ ((e.trigger != [] && e.trigger.isPrefixOf (w :: us)) = true) ↔ _
  rw [hv, hpre]
  exact and_congr_left fun _ => hkind

/-- No trigger of the core begins with the token. -/
abbrev Foreign (w : String) : Prop :=
  Index.Foreign Category.core.entries w

/-- The trigger of an operator finds that operator, with one token. -/
theorem lookup_operator (h : Operators es) {e : Entry} (he : e ∈ es) {p : Precedence}
    (hp : e.precedence = some p) {w : String} (hw : e.trigger = [w]) (hf : Foreign w)
    (us : List String) :
    (index es).lookup e.kind (w :: us) = [(1, e.indexed (role e p))] := by
  have hfound : (lexicon es).filter
      (fun e' => (Index.usable? e').any (Index.isFound e.kind (w :: us))) = [e] := by
    rw [lexicon, List.filter_append, Index.filter_of_foreign hf, List.nil_append]
    refine filter_of_unique h.triggers he fun x hx => ?_
    rw [any_isFound h hx, hw]
    refine ⟨fun hx => hx.2, fun ht => ⟨?_, ht⟩⟩
    have := List.inj_on_of_nodup_map h.triggers hx he (ht.trans hw.symm)
    rw [this]
  rw [index, Index.lookup_ofEntries_singleton (usable h he hp) hfound]
  show [(e.trigger.length, _)] = _
  rw [hw]
  rfl

/-- Nothing of a kind is found where no control word of the kind comes next. -/
theorem lookup_nil (h : Operators es) {w : String} (hf : Foreign w) {kind : Kind}
    (hw : ∀ e ∈ es, e.trigger = [w] → e.kind ≠ kind) (us : List String) :
    (index es).lookup kind (w :: us) = [] := by
  refine Index.lookup_ofEntries_nil ?_
  rw [lexicon, List.filter_append, Index.filter_of_foreign hf, List.nil_append]
  refine List.filter_eq_nil_iff.2 fun e he hfound => ?_
  obtain ⟨hk, ht⟩ := (any_isFound h he kind w us).1 hfound
  exact hw e he ht hk

/-- The name of an operator finds that operator. -/
theorem byName?_operator (h : OperatorTable es) {e : Entry} (he : e ∈ es) {p : Precedence}
    (hp : e.precedence = some p) {name : String} (hn : e.name = some name) :
    (index es).byName? name = some (e.indexed (role e p)) := by
  obtain ⟨name', hn', hcore⟩ := h.name e he
  obtain rfl := Option.some.inj (hn.symm.trans hn')
  have hnames : (lexicon es).filter
      (fun e' => (Index.usable? e').any (·.name == some name)) = [e] := by
    rw [lexicon, List.filter_append]
    have hnone : Category.core.entries.filter
        (fun e' => (Index.usable? e').any (·.name == some name)) = [] := by
      refine List.filter_eq_nil_iff.2 fun c hc hf => hcore c hc ?_
      obtain ⟨i, hi, hname⟩ := (Option.any_eq_true _ _).1 hf
      rw [← (Index.of_usable?_eq_some hi).1]
      exact beq_iff_eq.1 hname
    rw [hnone, List.nil_append]
    refine filter_of_unique h.names he fun x hx => ?_
    obtain ⟨q, hq, -⟩ := h.precedence x hx
    rw [usable h.operators hx hq, Option.any_some, hn, beq_iff_eq]
    rfl
  exact Index.byName?_ofEntries_singleton (usable h.operators he hp) hnames

/-- A name that the core does not give is that of an operator, if of anything. -/
theorem role_of_byName? (h : Operators es) {name : String}
    (hcore : ∀ e ∈ Category.core.entries, e.name ≠ some name) {entry : IndexedEntry}
    (he : (index es).byName? name = some entry) :
    entry.role ≠ .identifier ∧ entry.role ≠ .function := by
  have hmem := Index.mem_latest_of_byName? he
  have hname : entry.name = some name := by
    rw [(arranged_index es).names.byName] at he
    have := List.find?_some he
    exact beq_iff_eq.1 this
  rw [index, Index.latest_ofEntries, List.mem_reverse, List.mem_filterMap] at hmem
  obtain ⟨e, hm, hu⟩ := hmem
  rcases List.mem_append.1 hm with hm | hm
  · exact absurd ((Index.of_usable?_eq_some hu).1.symm.trans hname) (hcore e hm)
  · obtain ⟨p, hp⟩ := h.precedence e hm
    rw [usable h hm hp] at hu
    rw [← Option.some.inj hu]
    show role e p ≠ _ ∧ role e p ≠ _
    unfold role
    rcases h.kind e hm with hk | hk | hk <;> rw [hk] <;> simp

/-- A name of one letter is none of the core. -/
theorem name_ne_letter (c : Char) : ∀ e ∈ Category.core.entries, e.name ≠ some (String.ofList [c]) := by
  have hcore : Category.core.entries.all
      fun e => e.name.all fun n => n.toList.length != 1 := by decide
  intro e he hname
  have := List.all_eq_true.1 hcore e he
  rw [hname, Option.all_some, String.toList_ofList] at this
  exact absurd this (show ¬ (1 != 1) = true by decide)

/-- A letter is no trigger of the table. -/
theorem foreign_letter {c : Char} (hc : c.isAlpha = true) : Foreign (String.ofList [c]) :=
  Index.foreign_letter (by decide +kernel) hc

/-- A fresh word is no trigger of the core. -/
theorem foreign_word {w : String} (hw : FreshWord w) : Foreign w := by
  intro e he hh
  exact (hw.core e he).1 (List.mem_of_mem_head? hh)

/-- No operator is triggered by a text that is no control word. -/
theorem trigger_ne (h : Operators es) {w : String} (hw : w.toList.length = 1) :
    ∀ e ∈ es, e.trigger = [w] → ∀ kind, e.kind ≠ kind := by
  intro e he ht
  obtain ⟨v, hv, hf⟩ := h.trigger e he
  obtain ⟨cs, hne, -, hl⟩ := hf.word.letters
  rw [hv] at ht
  rw [← (List.cons.inj ht).1, hl, List.length_cons] at hw
  exact absurd (List.length_eq_zero_iff.1 (Nat.succ.inj hw)) hne

/-- A letter finds nothing. -/
theorem lookup_nil_of_length_one (h : Operators es) {w : String} (hf : Foreign w)
    (hw : w.toList.length = 1) (kind : Kind) (us : List String) :
    (index es).lookup kind (w :: us) = [] :=
  lookup_nil h hf (fun e he ht => trigger_ne h hw e he ht kind) us

/-- Parentheses group. -/
theorem groups (h : Operators es) : Groups (index es) where
  opens := by
    -- no operator is triggered by a parenthesis, so only the entries of the core are left
    have hes : ∀ us, es.filter
        (fun e => (Index.usable? e).any (Index.isFound .matchfix ("(" :: us))) = [] := by
      refine fun us => List.filter_eq_nil_iff.2 fun e he hf => ?_
      obtain ⟨hk, ht⟩ := (any_isFound h he .matchfix "(" us).1 hf
      exact trigger_ne h rfl e he ht _ hk
    obtain ⟨group, hgroup, hkind, hopen, hclose, hparse⟩ : ∃ e, Category.core.entries[1]? = some e ∧
        e.kind = .matchfix ∧ e.trigger = Entry.triggerTokens "(" ∧
        e.closeTrigger = Entry.triggerTokens ")" ∧
        e.parse = some (.custom Lexicon.Structure.parseGroup) := ⟨_, rfl, rfl, rfl, rfl, rfl⟩
    rw [show Entry.triggerTokens "(" = ["("] from triggerTokens_of_isSign (by decide) rfl] at hopen
    rw [show Entry.triggerTokens ")" = [")"] from triggerTokens_of_isSign (by decide) rfl] at hclose
    have hu := Index.usable?_matchfix hkind hopen hclose
    refine ⟨group.indexed (.matchfix [")"]), fun us => ?_, rfl, ?_⟩
    · have hrivals : Index.rivals Category.core.entries .matchfix group.trigger [] = 1 := by
        rw [hopen]
        decide +kernel
      have hcore := Index.filter_of_rivals (List.mem_of_getElem? hgroup) hu rfl
        (by rw [hopen]; exact List.cons_ne_nil _ _) hrivals
        fun u (_ : u ∈ us.head?) => List.not_mem_nil
      rw [hopen] at hcore
      have hfound : (lexicon es).filter
          (fun e => (Index.usable? e).any (Index.isFound .matchfix ("(" :: us))) = [group] := by
        rw [lexicon, List.filter_append, hes, List.append_nil]
        exact hcore
      rw [index, Index.lookup_ofEntries_singleton hu hfound]
      show [(group.trigger.length, _)] = _
      rw [hopen]
      rfl
    · simp only [Entry.indexed, hparse]
  closes k us avoid hne := by
    refine ends_of_stray ⟨by decide, by decide, by decide, by decide, by decide⟩ hne ?_ rfl k
    have hf : Foreign ")" := by
      have hcore : Category.core.entries.all fun e => e.trigger.head? != some ")" := by
        decide +kernel
      exact fun e he => bne_iff_ne.1 (List.all_eq_true.1 hcore e he)
    exact fun kind => lookup_nil_of_length_one h hf rfl kind _

/-- No routine of the core annotates, and operators have none. -/
theorem keepsBare (h : Operators es) : (index es).KeepsBare := by
  intro entry he handler hp
  have hm := Index.routine_of_mem_latest he hp
  have hnone : es.filterMap Entry.routine? = [] := by
    refine List.filterMap_eq_nil_iff.2 fun e he => ?_
    unfold Entry.routine?
    split
    · exact absurd ‹_› (h.parse e he _)
    · rfl
  rw [lexicon, List.filterMap_append, hnone, List.append_nil] at hm
  obtain ⟨e, he, hr⟩ := List.mem_filterMap.1 hm
  have hstandard : e ∈ Lexicon.standard := List.mem_flatMap.2 ⟨.core, by decide, he⟩
  exact keepsBare_standard handler (List.mem_filterMap.2 ⟨e, hstandard, hr⟩)

/-! ## Operators in markup -/

/-- A control word is a sign. -/
theorem sign_of_controlWord {w : String} (hw : ControlWord w) : Template.Sign w := by
  obtain ⟨cs, hne, hcs, hl⟩ := hw.letters
  refine ⟨?_, ?_⟩
  · rw [hl, List.mem_cons]
    rintro (h | h)
    · exact absurd h (by decide)
    · exact absurd (hcs _ h) (by decide)
  · refine ⟨'\\' :: cs.dropLast, cs.getLast hne, ?_, ?_⟩
    · rw [hl, List.cons_append, List.dropLast_append_getLast]
    · intro h
      exact absurd (hcs _ (List.getLast_mem hne)) (by rw [h]; decide)

/-- A fresh word begins like an operator. -/
theorem begins_word {w : String} (hw : FreshWord w) : Begins ⟨w, .command⟩ := by
  obtain ⟨cs, hne, -, hl⟩ := hw.word.letters
  have hone : ∀ v : String, v.toList.length = 1 → w ≠ v := by
    rintro v hv rfl
    rw [hl, List.length_cons] at hv
    exact hne (List.length_eq_zero_iff.1 (Nat.succ.inj hv))
  exact ⟨by simp, hone _ rfl, hone _ rfl⟩

/-- A fresh word is nothing but an operator. -/
theorem plain_word {w : String} (hw : FreshWord w) : Plain ⟨w, .command⟩ :=
  ⟨by simp, by simp, by simp, fun h => hw.word.text h.2, hw.environment.1⟩

/-- A fresh word goes on with no number. -/
theorem not_extending_word {w : String} (hw : FreshWord w) : w ∉ extending := by
  intro hm
  obtain ⟨cs, hne, hcs, hl⟩ := hw.word.letters
  obtain ⟨c, rest, rfl⟩ := List.exists_cons_of_ne_nil hne
  have hall : extending.all fun v => v.toList.tail.head?.all fun d => !d.isAlpha := by decide
  have := List.all_eq_true.1 hall w hm
  rw [hl] at this
  simp [hcs c List.mem_cons_self] at this

/-- No operator has a name of the core. -/
theorem name_ne_core (h : OperatorTable es) {f : Entry} (hf : f ∈ es) {head : String}
    (hn : f.name = some head) : head ≠ "Sequence" ∧ head ≠ "Delimiter" ∧ head ≠ "Subscript" := by
  obtain ⟨name, hname, hcore⟩ := h.name f hf
  obtain rfl := Option.some.inj (hn.symm.trans hname)
  have hne : ∀ (k : Nat) (e : Entry), Category.core.entries[k]? = some e →
      ∀ n, e.name = some n → head ≠ n := by
    rintro k e hk n hen rfl
    exact hcore e (List.mem_of_getElem? hk) hen
  exact ⟨hne 0 _ rfl _ rfl, hne 1 _ rfl _ rfl, hne 9 _ rfl _ rfl⟩

/-- An operator binds as loosely as its precedence. -/
theorem bindsLooser_operator (h : OperatorTable es) {f : Entry} (hf : f ∈ es) {p : Precedence}
    (hp : f.precedence = some p) {head : String} (hn : f.name = some head) (operands : List Expr)
    (s : String) (q : Precedence) :
    (Renderer.ofIndex (index es) canonical).bindsLooser (.apply head operands) s q =
      decide (p < q) := by
  obtain ⟨-, hdelimiter, hsubscript⟩ := name_ne_core h hf hn
  have hown : (Renderer.ofIndex (index es) canonical).precedenceOf? head = some p := by
    rw [Renderer.precedenceOf?]
    show ((index es).byName? head).bind _ = _
    rw [byName?_operator h hf hp hn]
    show (role f p).precedence? = some p
    unfold role
    rcases h.kind f hf with hk | hk | hk <;> rw [hk] <;> rfl
  exact Renderer.bindsLooser_apply hown hdelimiter hsubscript operands s q

/-- An application of an operator is one operand. -/
theorem not_sequence (h : OperatorTable es) {e : Expr} (he : OperatorExpr es e) :
    e.isApply "Sequence" = false ∧ Expr.splat (some e) = [e] := by
  have happly : ∀ {f : Entry} {head : String} (operands : List Expr), f ∈ es → f.name = some head →
      (Expr.apply head operands).isApply "Sequence" = false ∧
        Expr.splat (some (.apply head operands)) = [.apply head operands] := by
    intro f head operands hf hn
    have hne := (name_ne_core h hf hn).1
    refine ⟨?_, ?_⟩
    · show (some head == some "Sequence") = false
      rw [beq_eq_false_iff_ne]
      exact fun heq => hne (Option.some.inj heq)
    · show (if head = "Sequence" then operands else _) = _
      rw [if_neg hne]
  cases he with
  | letter c hc => exact ⟨rfl, rfl⟩
  | between hf _ hn => exact happly _ hf hn
  | before hf _ hn => exact happly _ hf hn
  | after hf _ hn => exact happly _ hf hn

/-! ## Rendering and parsing -/

/-- A control word is the trigger of one operator, so nothing of another kind is found at it. -/
theorem lookup_other (h : Operators es) {f : Entry} (hf : f ∈ es) {w : String}
    (hw : f.trigger = [w]) (hfresh : FreshWord w) {kind : Kind} (hk : f.kind ≠ kind)
    (us : List String) : (index es).lookup kind (w :: us) = [] := by
  refine lookup_nil h (foreign_word hfresh) (fun e he ht => ?_) us
  rw [List.inj_on_of_nodup_map h.triggers he hf (ht.trans hw.symm)]
  exact hk

/-- Behind an operand, a trigger is its operator and nothing else. -/
theorem operatorCandidates_operator (h : Operators es) {f : Entry} (hf : f ∈ es)
    (hk : f.kind = .infixOp ∨ f.kind = .postfixOp) {p : Precedence} (hp : f.precedence = some p)
    {w : String} (hw : f.trigger = [w]) (hfresh : FreshWord w) (us : List String) :
    operatorCandidates (index es) (w :: us) = [(1, f.indexed (role f p))] := by
  have hfound := lookup_operator h hf hp hw (foreign_word hfresh) us
  unfold operatorCandidates
  rcases hk with hk | hk
  · rw [hk] at hfound
    rw [hfound, lookup_other h hf hw hfresh (by rw [hk]; decide), List.foldr_nil]
  · rw [hk] at hfound
    rw [hfound, lookup_other h hf hw hfresh (by rw [hk]; decide)]
    rfl

/-- Some operator at the precedence takes what is on its left as a whole. -/
def TakesLeft (es : List Entry) (p : Precedence) : Prop :=
  ∃ f ∈ es, f.precedence = some p ∧
    (f.kind = .postfixOp ∨ f.kind = .infixOp ∧ f.associativity = .left)

/-- The rendering of an expression, and how it is read: the expression goes without parentheses only
where it is read as a whole, and no operator after it takes its last operand away. -/
structure Fits (es : List Entry) (canonical : Bool) (e : Expr) (s : String) (ts : List Token)
    (own edge : Nat) : Prop where
  renders : (Renderer.ofIndex (index es) canonical).Renders e s
  legible : Legible (index es) e s ts own edge extending
  tight : ∀ p, (Renderer.ofIndex (index es) canonical).bindsLooser e s p = false → p.val ≤ own
  leaves : ∀ p, TakesLeft es p → p.val ≤ own → p.val < edge

/-- A letter fits, and binds tighter than any operator. -/
theorem fits_letter (h : OperatorTable es) {c : Char} (hc : c.isAlpha = true) :
    Fits es canonical (.symbol (String.ofList [c])) (String.ofList [c]) [Name.letterToken c]
      65536 65536 where
  renders := by
    have hr := @Renderer.renders_symbol (Renderer.ofIndex (index es) canonical)
      (String.ofList [c]) fun entry he => role_of_byName? h.operators (name_ne_letter c) he
    rw [Name.encode_letter hc] at hr
    exact hr
  legible := legible_letter hc (fun kind us =>
    lookup_nil_of_length_one h.operators (foreign_letter hc) (by rw [String.toList_ofList]; rfl)
      kind us) _
  tight p _ := Nat.le_of_lt p.isLt
  leaves p _ _ := p.isLt

/-- What an operand is read as in its place, in parentheses or not. -/
theorem Fits.held (h : OperatorTable es) {e : Expr} (he : OperatorExpr es e) {s : String}
    {ts : List Token} {own edge : Nat} (hf : Fits es canonical e s ts own edge) (p : Precedence) :
    ∃ ts' own' edge', Legible (index es) e ((Renderer.ofIndex (index es) canonical).held e s p)
      ts' own' edge' extending ∧ p.val ≤ own' ∧
      ∀ q : Precedence, TakesLeft es q → q.val ≤ own' → q.val < edge' := by
  obtain ⟨ts', own', edge', hl, hp, heq⟩ :=
    hf.legible.held (groups h.operators) (by decide) (not_sequence h he).1 (hf.tight p)
  refine ⟨ts', own', edge', hl, hp, fun q hq hle => ?_⟩
  rcases heq with ⟨rfl, rfl⟩ | rfl
  · exact hf.leaves q hq hle
  · exact q.isLt

section Operators

variable {f : Entry} {head w : String} {p : Precedence} {a b : Expr} {sa sb : String}
variable {ta tb ta' tb' : List Token} {oa ea ob eb oa' ea' ob' eb' : Nat}

/-- The markup of an operand in its place. -/
abbrev heldMarkup (es : List Entry) (canonical : Bool) (e : Expr) (s : String) (p : Precedence) :
    String :=
  (Renderer.ofIndex (index es) canonical).held e s p

/-- An operator keeps its left operand from those that take what is on their left. -/
theorem lt_rightPrecedence (h : OperatorTable es) (hf : f ∈ es) (hk : f.kind = .infixOp)
    (hp : f.precedence = some p) (hp' : p.val < 65535) {q : Precedence} (hq : TakesLeft es q)
    (hle : q.val ≤ p.val) : q.val < (rightPrecedence f.associativity p).val := by
  cases ha : f.associativity with
  | left =>
    show q.val < p.tighter.val
    rw [Precedence.tighter_val hp']
    omega
  | right =>
    -- an operator at the same precedence would take the whole away
    show q.val < p.val
    obtain ⟨g, hg, hgp, hgk⟩ := hq
    refine Nat.lt_of_le_of_ne hle fun heq => ?_
    have hsame : g.precedence = f.precedence := by rw [hgp, hp, Fin.ext heq]
    obtain ⟨hpost, hright⟩ := h.unshared f hf hk ha g hg hsame
    rcases hgk with hgk | ⟨hgk, hgl⟩
    · exact hpost hgk
    · rw [hright hgk] at hgl
      exact absurd hgl (by decide)

/-- The operand on the left of an operator ends before it. -/
theorem lt_edge_of_leftPrecedence (hf : f ∈ es) (hk : f.kind = .infixOp)
    (hp : f.precedence = some p) (hp' : p.val < 65535) {own edge : Nat} (hle : own ≤ edge)
    (hown : (Renderer.leftPrecedence f.associativity p).val ≤ own)
    (hedge : ∀ q, TakesLeft es q → q.val ≤ own → q.val < edge) : p.val ≤ own ∧ p.val < edge := by
  cases ha : f.associativity with
  | left =>
    rw [ha] at hown
    exact ⟨hown, hedge p ⟨f, hf, hp, Or.inr ⟨hk, ha⟩⟩ hown⟩
  | right =>
    rw [ha] at hown
    have hown : p.tighter.val ≤ own := hown
    rw [Precedence.tighter_val hp'] at hown
    omega

/-- A control word between the markup of two operands. -/
theorem scans_between (hfresh : FreshWord w) (hsa : Scans sa ta) (hsb : Scans sb tb)
    (hne : tb ≠ []) : Scans (append (append sa w) sb) (ta ++ ⟨w, .command⟩ :: tb) := by
  rw [append_of_controlWord hfresh.word, append_controlWord hfresh.word]
  exact hsa.append (hsb.glue hne hfresh.word hfresh.spacing) (stops_controlWord hfresh.word _)

/-- An operator is read with the operands on both sides, which bind as tightly as it asks for. -/
theorem legible_between (h : Operators es) (hf : f ∈ es) (hk : f.kind = .infixOp)
    (hn : f.name = some head) (hp : f.precedence = some p) (hw : f.trigger = [w])
    (hfresh : FreshWord w) (la : Legible (index es) a sa ta oa ea extending) (hpa : p.val ≤ oa)
    (hea : p.val < ea) (lb : Legible (index es) b sb tb ob eb extending)
    (hob : (rightPrecedence f.associativity p).val ≤ ob) :
    Legible (index es) (.apply head [a, b]) (append (append sa w) sb) (ta ++ ⟨w, .command⟩ :: tb)
      p.val (rightPrecedence f.associativity p).val extending := by
  have hrole : role f p = .infixOp p f.associativity := by
    rw [role, hk]
    rfl
  have hlegible := la.infixOp [] (fun _ => []) hpa hea lb hob
    (scans_between hfresh la.scans lb.scans lb.ne_nil)
    (fun us => operatorCandidates_operator h hf (Or.inl hk) hp hw hfresh _) hrole
    (Index.parse_indexed (h.parse f hf) _) (not_extending_word hfresh)
  rw [Index.head_indexed hn] at hlegible
  exact hlegible

/-- An operator that has its name to itself is written between its operands, each of which is held
to what the operator asks for. -/
theorem renders_between (h : Operators es) (hf : f ∈ es) (hk : f.kind = .infixOp)
    (hw : f.trigger = [w]) (hfresh : FreshWord w) (hr : f.render = none)
    (hname : (index es).byName? head = some (f.indexed (role f p)))
    (ra : (Renderer.ofIndex (index es) canonical).Renders a sa)
    (rb : (Renderer.ofIndex (index es) canonical).Renders b sb) :
    (Renderer.ofIndex (index es) canonical).Renders (.apply head [a, b])
      (append (append (heldMarkup es canonical a sa (Renderer.leftPrecedence f.associativity p)) w)
        (heldMarkup es canonical b sb (rightPrecedence f.associativity p))) := by
  have hrole : role f p = .infixOp p f.associativity := by
    rw [role, hk]
    rfl
  obtain ⟨-, hrender, htemplate⟩ := Index.indexed_routines (h.parse f hf) hr (role f p)
  have htemplate : (f.indexed (role f p)).template = "#1" ++ w ++ "#2" := by
    rw [htemplate, Entry.defaultTemplate, hk, hw]
    show "#1" ++ append "" w ++ "#2" = _
    rw [empty_append]
  exact Renderer.renders_infixOp (sign_of_controlWord hfresh.word) hname hrender hrole htemplate
    ra rb

/-- An operator fits between operands that are legible where they are held. -/
theorem fits_between (h : OperatorTable es) (hf : f ∈ es) (hk : f.kind = .infixOp)
    (hn : f.name = some head) (hp : f.precedence = some p) (hp' : p.val < 65535)
    (hw : f.trigger = [w]) (hfresh : FreshWord w)
    (fa : Fits es canonical a sa ta oa ea) (fb : Fits es canonical b sb tb ob eb)
    (la : Legible (index es) a (heldMarkup es canonical a sa
      (Renderer.leftPrecedence f.associativity p)) ta' oa' ea' extending)
    (hoa : (Renderer.leftPrecedence f.associativity p).val ≤ oa')
    (hea : ∀ q, TakesLeft es q → q.val ≤ oa' → q.val < ea')
    (lb : Legible (index es) b (heldMarkup es canonical b sb
      (rightPrecedence f.associativity p)) tb' ob' eb' extending)
    (hob : (rightPrecedence f.associativity p).val ≤ ob') :
    Fits es canonical (.apply head [a, b])
      (append (append (heldMarkup es canonical a sa (Renderer.leftPrecedence f.associativity p)) w)
        (heldMarkup es canonical b sb (rightPrecedence f.associativity p)))
      (ta' ++ ⟨w, .command⟩ :: tb') p.val (rightPrecedence f.associativity p).val := by
  obtain ⟨hpa, hedge⟩ := lt_edge_of_leftPrecedence hf hk hp hp' la.own_le hoa hea
  refine ⟨renders_between h.operators hf hk hw hfresh (h.render f hf) (byName?_operator h hf hp hn)
    fa.renders fb.renders, legible_between h.operators hf hk hn hp hw hfresh la hpa hedge lb hob,
    fun q hq => ?_, fun q => lt_rightPrecedence h hf hk hp hp'⟩
  rw [bindsLooser_operator h hf hp hn, decide_eq_false_iff_not, Fin.not_lt, Fin.le_def] at hq
  exact hq

/-- An operator fits before an operand that is legible where it is held. -/
theorem fits_before (h : OperatorTable es) (hf : f ∈ es) (hk : f.kind = .prefixOp)
    (hn : f.name = some head) (hp : f.precedence = some p) (hp' : p.val < 65535)
    (hw : f.trigger = [w]) (hfresh : FreshWord w) (fa : Fits es canonical a sa ta oa ea)
    (la : Legible (index es) a (heldMarkup es canonical a sa p.tighter) ta' oa' ea' extending)
    (hoa : p.tighter.val ≤ oa') :
    Fits es canonical (.apply head [a]) (append w (heldMarkup es canonical a sa p.tighter))
      (⟨w, .command⟩ :: ta') p.val p.tighter.val := by
  have hrole : role f p = .prefixOp p := by
    rw [role, hk]
    rfl
  obtain ⟨hparse, hrender, htemplate⟩ :=
    Index.indexed_routines (h.parse f hf) (h.render f hf) (role f p)
  have htemplate : (f.indexed (role f p)).template = w ++ "#1" := by
    rw [htemplate, Entry.defaultTemplate, hk, hw]
    show append "" w ++ "#1" = _
    rw [empty_append]
  have hscan : Scans _ (⟨w, .command⟩ :: ta') :=
    la.scans.glue la.ne_nil hfresh.word hfresh.spacing
  -- the word is glued to a letter by a space, in the markup as in the tokens
  have hglue := append_controlWord hfresh.word "" (heldMarkup es canonical a sa p.tighter)
  rw [String.empty_append, String.empty_append] at hglue
  rw [← hglue] at hscan
  have hfound := lookup_operator h.operators hf hp hw (foreign_word hfresh)
  rw [hk] at hfound
  have hlegible := la.prefixOp hoa hscan (plain_word hfresh) (begins_word hfresh)
    (fun us => lookup_other h.operators hf hw hfresh (by rw [hk]; decide) _) (fun us => hfound _)
    hrole hparse
  rw [Index.head_indexed hn] at hlegible
  refine ⟨?_, hlegible, fun q hq => ?_, fun q _ hle => ?_⟩
  · exact Renderer.renders_prefixOp (sign_of_controlWord hfresh.word) (byName?_operator h hf hp hn)
      hrender hrole htemplate fa.renders
  · rw [bindsLooser_operator h hf hp hn, decide_eq_false_iff_not, Fin.not_lt, Fin.le_def] at hq
    exact hq
  · rw [Precedence.tighter_val hp']
    omega

/-- An operator fits behind an operand that is legible where it is held. -/
theorem fits_after (h : OperatorTable es) (hf : f ∈ es) (hk : f.kind = .postfixOp)
    (hn : f.name = some head) (hp : f.precedence = some p) (hw : f.trigger = [w])
    (hfresh : FreshWord w) (fa : Fits es canonical a sa ta oa ea)
    (la : Legible (index es) a (heldMarkup es canonical a sa p) ta' oa' ea' extending) (hoa : p.val ≤ oa')
    (hea : ∀ q, TakesLeft es q → q.val ≤ oa' → q.val < ea')
    (hseq : Expr.splat (some a) = [a]) :
    Fits es canonical (.apply head [a]) (append (heldMarkup es canonical a sa p) w)
      (ta' ++ [⟨w, .command⟩]) p.val 65536 := by
  have hrole : role f p = .postfixOp p := by
    rw [role, hk]
    rfl
  obtain ⟨hparse, hrender, htemplate⟩ :=
    Index.indexed_routines (h.parse f hf) (h.render f hf) (role f p)
  have htemplate : (f.indexed (role f p)).template = "#1" ++ w := by
    rw [htemplate, Entry.defaultTemplate, hk, hw]
    show "#1" ++ append "" w = _
    rw [empty_append]
  -- the operand ends before the backslash of the word
  have hstop := stops_controlWord hfresh.word ""
  rw [String.append_empty] at hstop
  have hscan : Scans _ (ta' ++ [⟨w, .command⟩]) :=
    la.scans.append (scans_controlWord hfresh.word hfresh.spacing) hstop
  rw [← append_of_controlWord hfresh.word] at hscan
  have hlegible := la.postfixOp hoa (Nat.le_refl _) (hea p ⟨f, hf, hp, Or.inl hk⟩ hoa) hscan extending
    (fun us _ => operatorCandidates_operator h.operators hf (Or.inr hk) hp hw hfresh _) hrole hparse
    (not_extending_word hfresh) hseq
  rw [Index.head_indexed hn] at hlegible
  refine ⟨?_, hlegible, fun q hq => ?_, fun q _ _ => q.isLt⟩
  · exact Renderer.renders_postfixOp (sign_of_controlWord hfresh.word) (byName?_operator h hf hp hn)
      hrender hrole htemplate fa.renders
  · rw [bindsLooser_operator h hf hp hn, decide_eq_false_iff_not, Fin.not_lt, Fin.le_def] at hq
    exact hq

end Operators

/-- Every expression over the table fits, by induction on how it is made. -/
theorem exists_fits (h : OperatorTable es) (canonical : Bool) {e : Expr} (he : OperatorExpr es e) :
    ∃ s ts own edge, Fits es canonical e s ts own edge := by
  -- on the expression: the operands are held at the precedences that the operator asks for
  induction he with
  | letter c hc => exact ⟨_, _, _, _, fits_letter h hc⟩
  | @between f head a b hf hk hn ha hb iha ihb =>
    obtain ⟨p, hp, hp'⟩ := h.precedence f hf
    obtain ⟨w, hw, hfresh⟩ := h.trigger f hf
    obtain ⟨sa, ta, oa, ea, fa⟩ := iha
    obtain ⟨sb, tb, ob, eb, fb⟩ := ihb
    obtain ⟨ta', oa', ea', la, hoa, hea⟩ :=
      fa.held h ha (Renderer.leftPrecedence f.associativity p)
    obtain ⟨tb', ob', eb', lb, hob, -⟩ := fb.held h hb (rightPrecedence f.associativity p)
    exact ⟨_, _, _, _, fits_between h hf hk hn hp hp' hw hfresh fa fb la hoa hea lb hob⟩
  | @before f head a hf hk hn ha iha =>
    obtain ⟨p, hp, hp'⟩ := h.precedence f hf
    obtain ⟨w, hw, hfresh⟩ := h.trigger f hf
    obtain ⟨sa, ta, oa, ea, fa⟩ := iha
    obtain ⟨ta', oa', ea', la, hoa, -⟩ := fa.held h ha p.tighter
    exact ⟨_, _, _, _, fits_before h hf hk hn hp hp' hw hfresh fa la hoa⟩
  | @after f head a hf hk hn ha iha =>
    obtain ⟨p, hp, hp'⟩ := h.precedence f hf
    obtain ⟨w, hw, hfresh⟩ := h.trigger f hf
    obtain ⟨sa, ta, oa, ea, fa⟩ := iha
    obtain ⟨ta', oa', ea', la, hoa, hea⟩ := fa.held h ha p
    exact ⟨_, _, _, _, fits_after h hf hk hn hp hw hfresh fa la hoa hea (not_sequence h ha).2⟩

/-- Every expression of letters and operators is parsed back from its rendering, whatever the table
of operators. The one way out is the limit on nesting, and then the result says so. -/
theorem parse_render_of_operatorTable (h : OperatorTable es) {e : Expr} (he : OperatorExpr es e)
    (canonical : Bool) :
    let t := (({} : Transcoder).setLexicon (Category.core.entries ++ es)).1
    let markup := (t.render e canonical).1
    let result := (parseAll t.index).run (ofTokens (Token.scan markup))
    (t.parse markup).1 = result.1 ∧
    (result.2.tooDeep = false → result.1 = e) ∧
    (result.2.tooDeep = true →
      ∃ arg context, result.1.Contains (Expr.error .syntaxError arg context)) := by
  intro t markup result
  obtain ⟨s, ts, own, edge, hf⟩ := exists_fits h canonical he
  have hmarkup : markup = s := by
    show ((Renderer.ofIndex (index es) canonical).render e 0 []).1 = s
    rw [hf.renders 0]
    rfl
  refine ⟨rfl, fun ht => ?_, contains_syntaxError (arranged_index es) (keepsBare h.operators)⟩
  rcases hf.legible.parse (arranged_index es) with hd | he
  · rw [← hmarkup] at hd
    exact absurd (hd.symm.trans ht) (by decide)
  · rw [← hmarkup] at he
    exact he

/-- Operators of every sort, some of which share a precedence. -/
def sampleOperators : List Entry := [
  { kind := .prefixOp, name := some "Next", trigger := ["\\next"], precedence := some 300 },
  { kind := .infixOp, name := some "Plus", trigger := ["\\plus"], precedence := some 300 },
  { kind := .infixOp, name := some "Raise", trigger := ["\\raise"], precedence := some 400,
    associativity := .right },
  { kind := .prefixOp, name := some "Root", trigger := ["\\root"], precedence := some 400 },
  { kind := .postfixOp, name := some "Fall", trigger := ["\\fall"], precedence := some 300 }]

/-- The conditions on a control word can be evaluated. -/
theorem freshWord_of_letters {cs : List Char} (hne : cs ≠ []) (hcs : cs.all Char.isAlpha = true)
    (hcore : (Category.core.entries.all fun e =>
      (e.trigger ++ e.closeTrigger).all (· != String.ofList ('\\' :: cs))) = true)
    (hwords : String.ofList ('\\' :: cs) ∉
      Token.textCommands ++ spacing ++ ["\\begin", "\\end"]) :
    FreshWord (String.ofList ('\\' :: cs)) := by
  simp only [List.mem_append, List.mem_cons, List.not_mem_nil, or_false, not_or] at hwords
  obtain ⟨⟨htext, hspacing⟩, hbegin, hend⟩ := hwords
  refine ⟨⟨⟨cs, hne, List.all_eq_true.1 hcs, String.toList_ofList⟩, htext⟩, fun e he => ?_,
    hspacing, hbegin, hend⟩
  have hall := List.all_eq_true.1 (List.all_eq_true.1 hcore e he)
  refine ⟨fun hm => ?_, fun hm => ?_⟩
  · exact bne_iff_ne.1 (hall _ (List.mem_append_left _ hm)) rfl
  · exact bne_iff_ne.1 (hall _ (List.mem_append_right _ hm)) rfl

theorem operatorTable_sample : OperatorTable sampleOperators where
  kind := by decide
  parse := by simp [sampleOperators]
  render := by simp [sampleOperators]
  name := by
    have hcore : ∀ name, (Category.core.entries.all fun c => c.name != some name) = true →
        ∀ c ∈ Category.core.entries, c.name ≠ some name :=
      fun name h c hc => bne_iff_ne.1 (List.all_eq_true.1 h c hc)
    simp only [sampleOperators, List.forall_mem_cons]
    exact ⟨⟨_, rfl, hcore _ (by decide)⟩, ⟨_, rfl, hcore _ (by decide)⟩,
      ⟨_, rfl, hcore _ (by decide)⟩, ⟨_, rfl, hcore _ (by decide)⟩,
      ⟨_, rfl, hcore _ (by decide)⟩, by simp⟩
  names := by decide
  trigger := by
    -- each trigger is a word that neither the core nor the lexer knows
    have hfresh : ∀ name : String, name.toList ≠ [] → name.toList.all Char.isAlpha = true →
        (Category.core.entries.all fun e => (e.trigger ++ e.closeTrigger).all
          (· != String.ofList ('\\' :: name.toList))) = true →
        String.ofList ('\\' :: name.toList) ∉
          Token.textCommands ++ spacing ++ ["\\begin", "\\end"] →
        FreshWord (String.ofList ('\\' :: name.toList)) :=
      fun name h₁ h₂ h₃ h₄ => freshWord_of_letters h₁ h₂ h₃ h₄
    simp only [sampleOperators, List.forall_mem_cons]
    exact ⟨⟨_, rfl, hfresh "next" (by decide) (by decide) (by decide +kernel) (by decide)⟩,
      ⟨_, rfl, hfresh "plus" (by decide) (by decide) (by decide +kernel) (by decide)⟩,
      ⟨_, rfl, hfresh "raise" (by decide) (by decide) (by decide +kernel) (by decide)⟩,
      ⟨_, rfl, hfresh "root" (by decide) (by decide) (by decide +kernel) (by decide)⟩,
      ⟨_, rfl, hfresh "fall" (by decide) (by decide) (by decide +kernel) (by decide)⟩, by simp⟩
  triggers := by decide
  precedence := by
    simp only [sampleOperators, List.forall_mem_cons]
    exact ⟨⟨_, rfl, by decide⟩, ⟨_, rfl, by decide⟩, ⟨_, rfl, by decide⟩, ⟨_, rfl, by decide⟩,
      ⟨_, rfl, by decide⟩, by simp⟩
  unshared := by decide

/-- An operator that groups on the right, between a negation at its left and one at its right, all
at one precedence. -/
def sampleExpr : Expr :=
  .apply "Raise" [.apply "Root" [.symbol "a"],
    .apply "Plus" [.symbol "b", .apply "Fall" [.apply "Next" [.symbol "c"]]]]

theorem operatorExpr_sample : OperatorExpr sampleOperators sampleExpr :=
  .between (List.mem_of_getElem? (i := 2) rfl) rfl rfl
    (.before (List.mem_of_getElem? (i := 3) rfl) rfl rfl (.letter 'a' rfl))
    (.between (List.mem_of_getElem? (i := 1) rfl) rfl rfl (.letter 'b' rfl)
      (.after (List.mem_of_getElem? (i := 4) rfl) rfl rfl
        (.before (List.mem_of_getElem? (i := 0) rfl) rfl rfl (.letter 'c' rfl))))

theorem parse_render_of_operatorTable_sample :
    OperatorTable sampleOperators ∧ OperatorExpr sampleOperators sampleExpr ∧
    let t := (({} : Transcoder).setLexicon (Category.core.entries ++ sampleOperators)).1
    let markup := (t.render sampleExpr false).1
    markup = "(\\root a)\\raise(b\\plus(\\next c\\fall))" ∧ (t.parse markup).1 = sampleExpr := by
  have h := parse_render_of_operatorTable operatorTable_sample operatorExpr_sample false
  refine ⟨operatorTable_sample, operatorExpr_sample, by decide +kernel, ?_⟩
  rw [h.1]
  exact h.2.1 (by decide +kernel)

end OperatorTable
end MathMarkup
