import MathMarkup.Proofs.Letters
import MathMarkup.Proofs.OperatorTable

/-!
# Chains of letters and operators

Letters with operators between them and no parentheses, at any precedences: `a ∘ b · c ∘ d`. The
parser puts every such chain into a tree, and the tree is one that the renderer writes without
parentheses, so the rendering has the tokens of the chain again, up to the spelling of letters: one
that is a named symbol is written as the command of the symbol (`Chain.exists_scan_render_ne`).

The tree has at its root the loosest operator of the chain, the last one of several if they group on
the left and the first if they group on the right (`Chain.exists_root`). What is on either side of
it is a shorter chain, whose operators all bind as tightly as the side asks for. `Chain.Grows` is
the invariant: an operand is fenced for looser operators only, and never for one that it binds as
tightly as.
-/

namespace MathMarkup

open MathMarkup.Lexer MathMarkup.Parser

/-- Entries of operators between operands, each with a name and a control word of its own, of which
those that share a precedence group on the same side. -/
structure InfixTable (es : List Entry) : Prop where
  kind : ∀ e ∈ es, e.kind = .infixOp
  parse : ∀ e ∈ es, ∀ handler, e.parse ≠ some (.custom handler)
  render : ∀ e ∈ es, e.render = none
  name : ∀ e ∈ es, ∃ name, e.name = some name ∧
    ∀ c ∈ Category.core.entries, c.name ≠ some name
  names : (es.map Entry.name).Nodup
  trigger : ∀ e ∈ es, ∃ w, e.trigger = [w] ∧ FreshWord w
  triggers : (es.map Entry.trigger).Nodup
  precedence : ∀ e ∈ es, ∃ p : Precedence, e.precedence = some p ∧ p.val < 65535
  associativity : ∀ e ∈ es, ∀ f ∈ es, f.precedence = e.precedence →
    f.associativity = e.associativity

/-- A table of infix operators is a table of operators. -/
theorem InfixTable.operatorTable {es : List Entry} (h : InfixTable es) : OperatorTable es where
  kind e he := Or.inr (Or.inl (h.kind e he))
  parse := h.parse
  render := h.render
  name := h.name
  names := h.names
  trigger := h.trigger
  triggers := h.triggers
  precedence := h.precedence
  unshared e he _ ha f hf hp := by
    refine ⟨?_, fun _ => by rw [h.associativity e he f hf hp, ha]⟩
    rw [h.kind f hf]
    decide

namespace Chain

/-! ## The loosest operator -/

/-- The last of the least elements of a list. -/
theorem exists_last_least {α : Type} (k : α → Nat) {xs : List α} (h : xs ≠ []) :
    ∃ pre x post, xs = pre ++ x :: post ∧ (∀ y ∈ pre, k x ≤ k y) ∧ ∀ y ∈ post, k x < k y := by
  induction xs with
  | nil => exact absurd rfl h
  | cons a rest ih =>
    by_cases hrest : rest = []
    · subst hrest
      exact ⟨[], a, [], rfl, fun _ hy => absurd hy List.not_mem_nil,
        fun _ hy => absurd hy List.not_mem_nil⟩
    · obtain ⟨pre, x, post, rfl, hpre, hpost⟩ := ih hrest
      by_cases ha : k x ≤ k a
      · exact ⟨a :: pre, x, post, rfl, List.forall_mem_cons.2 ⟨ha, hpre⟩, hpost⟩
      · refine ⟨[], a, pre ++ x :: post, rfl, fun _ hy => absurd hy List.not_mem_nil, ?_⟩
        intro y hy
        rcases List.mem_append.1 hy with hy | hy
        · have := hpre y hy
          omega
        · rcases List.mem_cons.1 hy with rfl | hy
          · omega
          · have := hpost y hy
            omega

/-- The first of the least elements of a list. -/
theorem exists_first_least {α : Type} (k : α → Nat) {xs : List α} (h : xs ≠ []) :
    ∃ pre x post, xs = pre ++ x :: post ∧ (∀ y ∈ pre, k x < k y) ∧ ∀ y ∈ post, k x ≤ k y := by
  obtain ⟨pre, x, post, hxs, hpre, hpost⟩ :=
    exists_last_least k (List.reverse_ne_nil_iff.2 h)
  refine ⟨post.reverse, x, pre.reverse, ?_, fun y hy => hpost y (List.mem_reverse.1 hy),
    fun y hy => hpre y (List.mem_reverse.1 hy)⟩
  rw [← List.reverse_reverse xs, hxs, List.reverse_append, List.reverse_cons, List.append_assoc]
  rfl

theorem le_of_mem_split {α : Type} (k : α → Nat) {pre post : List α} {x : α}
    (hpre : ∀ y ∈ pre, k x ≤ k y) (hpost : ∀ y ∈ post, k x ≤ k y) :
    ∀ y ∈ pre ++ x :: post, k x ≤ k y :=
  List.forall_mem_append.2 ⟨hpre, List.forall_mem_cons.2 ⟨Nat.le_refl _, hpost⟩⟩

/-- An operator and the letter after it. -/
abbrev Step := Entry × Char

/-- The tokens of an operator and the letter after it. -/
def stepTokens (s : Step) : List Token :=
  s.1.trigger.map (⟨·, .command⟩) ++ [Name.letterToken s.2]

/-- The tokens of a letter and the operators with their letters after it. -/
def tokens (c : Char) (steps : List Step) : List Token :=
  Name.letterToken c :: steps.flatMap stepTokens

/-- The tokens of a chain are those of its two sides with the operator between them. -/
theorem tokens_append (c : Char) (pre : List Step) (s : Step) (post : List Step) {w : String}
    (hw : s.1.trigger = [w]) :
    tokens c (pre ++ s :: post) = tokens c pre ++ ⟨w, .command⟩ :: tokens s.2 post := by
  simp [tokens, stepTokens, hw]

/-- The steps are operators of the table with letters after them. -/
def Over (es : List Entry) (steps : List Step) : Prop :=
  ∀ s ∈ steps, s.1 ∈ es ∧ isLetter s.2 = true

/-- How tightly the operator of a step binds. -/
def level (s : Step) : Nat :=
  s.1.precedence.elim 0 Fin.val

theorem level_eq {s : Step} {p : Precedence} (hp : s.1.precedence = some p) : level s = p.val := by
  rw [level, hp]
  rfl

section

variable {es : List Entry}

/-- The operators of a table that bind equally tightly group on the same side. -/
theorem associativity_eq_of_level (h : InfixTable es) {s t : Step} (hs : s.1 ∈ es) (ht : t.1 ∈ es)
    (hl : level s = level t) : s.1.associativity = t.1.associativity := by
  obtain ⟨p, hp, -⟩ := h.precedence s.1 hs
  obtain ⟨q, hq, -⟩ := h.precedence t.1 ht
  rw [level_eq hp, level_eq hq] at hl
  refine h.associativity t.1 ht s.1 hs ?_
  rw [hp, hq, Fin.ext hl]

theorem tighter_val_of_level (h : InfixTable es) {s : Step} {p : Precedence} (hs : s.1 ∈ es)
    (hp : s.1.precedence = some p) : p.tighter.val = level s + 1 := by
  obtain ⟨q, hq, hlt⟩ := h.precedence s.1 hs
  obtain rfl := Option.some.inj (hp.symm.trans hq)
  rw [Precedence.tighter_val hlt, level_eq hp]

/-- A chain has an operator at its root that leaves tight enough operands on both sides: one of the
loosest, the last where they group on the left and the first where they group on the right. -/
theorem exists_root (h : InfixTable es) {steps : List Step} (ho : Over es steps)
    (hne : steps ≠ []) :
    ∃ pre s post, steps = pre ++ s :: post ∧ ∀ p : Precedence,
      s.1.precedence = some p →
        (∀ x ∈ pre, (Renderer.leftPrecedence s.1.associativity p).val ≤ level x) ∧
        ∀ x ∈ post, (rightPrecedence s.1.associativity p).val ≤ level x := by
  obtain ⟨pre, s, post, hlast, hpre, hpost⟩ := exists_last_least level hne
  have hsmem : s ∈ steps := hlast ▸ List.mem_append_right pre List.mem_cons_self
  have hs := (ho s hsmem).1
  cases ha : s.1.associativity with
  | left =>
    refine ⟨pre, s, post, hlast, fun p hp => ?_⟩
    rw [ha]
    refine ⟨fun x hx => ?_, fun x hx => ?_⟩
    · rw [show Renderer.leftPrecedence .left p = p from rfl, ← level_eq hp]
      exact hpre x hx
    · rw [show rightPrecedence .left p = p.tighter from rfl, tighter_val_of_level h hs hp]
      exact hpost x hx
  | right =>
    obtain ⟨pre', t, post', hfirst, hpre', hpost'⟩ := exists_first_least level hne
    have htmem : t ∈ steps := hfirst ▸ List.mem_append_right pre' List.mem_cons_self
    have ht := (ho t htmem).1
    -- the first of the loosest operators groups as the last one does
    have hts : level t ≤ level s :=
      le_of_mem_split level (fun y hy => Nat.le_of_lt (hpre' y hy)) hpost' s (hfirst ▸ hsmem)
    have hst : level s ≤ level t :=
      le_of_mem_split level hpre (fun y hy => Nat.le_of_lt (hpost y hy)) t (hlast ▸ htmem)
    have hat := (associativity_eq_of_level h ht hs (Nat.le_antisymm hts hst)).trans ha
    refine ⟨pre', t, post', hfirst, fun p hp => ?_⟩
    rw [hat]
    refine ⟨fun x hx => ?_, fun x hx => ?_⟩
    · rw [show Renderer.leftPrecedence .right p = p.tighter from rfl, tighter_val_of_level h ht hp]
      exact hpre' x hx
    · rw [show rightPrecedence .right p = p from rfl, ← level_eq hp]
      exact hpost' x hx

/-! ## The tree of a chain -/

variable {canonical : Bool}

/-- A tree without error nodes that is read off some tokens, and its rendering: that has the same
tokens up to the spelling of letters, and it goes without parentheses just where the tokens are read
as a whole. -/
structure Grows (es : List Entry) (canonical : Bool) (e : Expr) (source s : String)
    (ts : List Token) (own edge : Nat) : Prop where
  legible : Legible (OperatorTable.index es) e source ts own edge extending
  leaves : ∀ p, OperatorTable.TakesLeft es p → p.val ≤ own → p.val < edge
  renders : (Renderer.ofIndex (OperatorTable.index es) canonical).Renders e s
  written : Scans s (ts.map Name.writtenToken)
  unfenced : ∀ p : Precedence, p.val ≤ own →
    (Renderer.ofIndex (OperatorTable.index es) canonical).bindsLooser e s p = false
  sound : e.hasErrors = false

/-- A letter is read as the name that it spells, whatever the operators. -/
theorem legible_letterName (h : Operators es) {c : Char} (hc : isLetter c = true) :
    Legible (OperatorTable.index es) (.symbol (Name.letterName c)) (String.ofList [c])
      [Name.letterToken c] 65536 65536 extending := by
  have hforeign : OperatorTable.Foreign (String.ofList [c]) := by
    have hcore : Category.core.entries.all fun e =>
        (e.trigger.head?.toList.filter (·.toList.length == 1)).all fun s =>
          s.toList.head?.all fun d => d.toNat < 128 && !d.isAlpha := by decide +kernel
    intro e he hh
    refine Name.not_mem_of_isLetter hc (List.all_eq_true.1 hcore e he) ?_
    rw [hh, List.mem_filter, String.toList_ofList]
    exact ⟨List.mem_cons_self, rfl⟩
  exact Parser.legible_letterName hc fun kind us => OperatorTable.lookup_nil_of_length_one h hforeign
    (by rw [String.toList_ofList]; rfl) kind us

/-- The name is written as the letter, or as the command of the symbol that the letter is. -/
theorem renders_letterName (h : Operators es) {c : Char} (hc : isLetter c = true) :
    (Renderer.ofIndex (OperatorTable.index es) canonical).Renders (.symbol (Name.letterName c))
      (Name.writtenToken (Name.letterToken c)).raw := by
  have hcore : ∀ e ∈ Category.core.entries, e.name ≠ some (Name.letterName c) := by
    unfold Name.letterName
    cases hs : Name.symbolOfChar? c with
    | none => exact OperatorTable.name_ne_letter c
    | some s =>
      have hnames : ∀ e ∈ Category.core.entries, ∀ s ∈ Name.namedSymbols,
          e.name ≠ some s.name := by decide +kernel
      exact fun e he => hnames e he s (List.mem_of_find?_eq_some hs)
  have hr := @Renderer.renders_symbol (Renderer.ofIndex (OperatorTable.index es) canonical)
    (Name.letterName c) fun _ he => OperatorTable.role_of_byName? h hcore he
  rw [(Name.encode_letterName hc).1] at hr
  exact hr

/-- A plain letter is read as it stands. -/
theorem legible_letter (h : Operators es) {c : Char} (hc : Name.PlainLetter c) :
    Legible (OperatorTable.index es) (.symbol (String.ofList [c])) (String.ofList [c])
      [Name.letterToken c] 65536 65536 extending := by
  have hl := legible_letterName h hc.letter
  rw [hc.letterName_eq] at hl
  exact hl

/-- It is written as it stands, too. -/
theorem renders_letter (h : Operators es) {c : Char} (hc : Name.PlainLetter c) :
    (Renderer.ofIndex (OperatorTable.index es) canonical).Renders (.symbol (String.ofList [c]))
      (String.ofList [c]) := by
  have hr := @renders_letterName es canonical h c hc.letter
  rw [hc.letterName_eq, hc.writtenToken_eq] at hr
  exact hr

/-- A letter grows by itself, and is never fenced. -/
theorem grows_letter (h : InfixTable es) {c : Char} (hc : isLetter c = true) :
    Grows es canonical (.symbol (Name.letterName c)) (String.ofList [c])
      (Name.writtenToken (Name.letterToken c)).raw [Name.letterToken c] 65536 65536 where
  legible := legible_letterName h.operatorTable.operators hc
  leaves p _ _ := p.isLt
  renders := renders_letterName h.operatorTable.operators hc
  written := (Name.encode_letterName hc).2
  unfenced _ _ := rfl
  sound := rfl

/-- No operator of the table has the name of error nodes. -/
theorem name_ne_error (h : InfixTable es) {f : Entry} (hf : f ∈ es) {head : String}
    (hn : f.name = some head) : head ≠ "Error" := by
  obtain ⟨name, hname, hcore⟩ := h.name f hf
  obtain rfl := Option.some.inj (hn.symm.trans hname)
  have herror : ∃ e ∈ Category.core.entries, e.name = some "Error" := by decide
  rintro rfl
  obtain ⟨e, he, hen⟩ := herror
  exact hcore e he hen

/-- An operator between two operands that bind as tightly as it asks for. -/
theorem Grows.between (h : InfixTable es) {f : Entry} (hf : f ∈ es) {head w : String}
    {p : Precedence} (hn : f.name = some head) (hp : f.precedence = some p)
    (hw : f.trigger = [w]) {a b : Expr} {ra rb sa sb : String} {ta tb : List Token}
    {oa ea ob eb : Nat} (ga : Grows es canonical a ra sa ta oa ea)
    (gb : Grows es canonical b rb sb tb ob eb)
    (hoa : (Renderer.leftPrecedence f.associativity p).val ≤ oa)
    (hob : (rightPrecedence f.associativity p).val ≤ ob) :
    ∃ source s edge,
      Grows es canonical (.apply head [a, b]) source s (ta ++ ⟨w, .command⟩ :: tb) p.val edge := by
  obtain ⟨p', hp', hlt⟩ := h.precedence f hf
  obtain rfl := Option.some.inj (hp.symm.trans hp')
  obtain ⟨w', hw', hfresh⟩ := h.trigger f hf
  obtain rfl := (List.cons.inj (hw.symm.trans hw')).1
  have ht := h.operatorTable
  have hk := h.kind f hf
  obtain ⟨hpa, hea⟩ :=
    OperatorTable.lt_edge_of_leftPrecedence hf hk hp hlt ga.legible.own_le hoa ga.leaves
  -- neither side is looser than the operator asks for, so no parentheses are written
  have heldLeft : OperatorTable.heldMarkup es canonical a sa
      (Renderer.leftPrecedence f.associativity p) = sa := by
    show Renderer.held _ _ _ _ = _
    rw [Renderer.held, ga.unfenced _ hoa, if_neg Bool.false_ne_true]
  have heldRight : OperatorTable.heldMarkup es canonical b sb
      (rightPrecedence f.associativity p) = sb := by
    show Renderer.held _ _ _ _ = _
    rw [Renderer.held, gb.unfenced _ hob, if_neg Bool.false_ne_true]
  have hrenders := OperatorTable.renders_between ht.operators hf hk hw hfresh (h.render f hf)
    (OperatorTable.byName?_operator ht hf hp hn) ga.renders gb.renders
  rw [heldLeft, heldRight] at hrenders
  have hwritten := OperatorTable.scans_between hfresh ga.written gb.written
    (fun hnil => gb.legible.ne_nil (List.map_eq_nil_iff.1 hnil))
  rw [← Name.writtenToken_controlWord hfresh.word, ← List.map_cons, ← List.map_append] at hwritten
  refine ⟨_, _, _, ⟨OperatorTable.legible_between ht.operators hf hk hn hp hw hfresh ga.legible hpa
    hea gb.legible hob, fun q => OperatorTable.lt_rightPrecedence ht hf hk hp hlt, hrenders, hwritten,
    fun q hq => ?_, ?_⟩⟩
  · rw [OperatorTable.bindsLooser_operator ht hf hp hn, decide_eq_false_iff_not, Fin.not_lt,
      Fin.le_def]
    exact hq
  · show (head == "Error" || (a.hasErrors || (b.hasErrors || false))) = false
    rw [ga.sound, gb.sound, beq_eq_false_iff_ne.2 (name_ne_error h hf hn)]
    rfl

/-- Every chain has a tree, which binds as tightly as the loosest of its operators. -/
theorem exists_grows (h : InfixTable es) (canonical : Bool) (n : Nat) :
    ∀ {c : Char} {steps : List Step}, steps.length = n → isLetter c = true → Over es steps →
      ∃ e source s own edge, Grows es canonical e source s (tokens c steps) own edge ∧
        ∀ k ≤ 65536, (∀ x ∈ steps, k ≤ level x) → k ≤ own := by
  induction n using Nat.strongRecOn with
  | ind n ih =>
    intro c steps hn hc ho
    by_cases hne : steps = []
    · subst hne
      exact ⟨_, _, _, _, _, grows_letter h hc, fun k hk _ => hk⟩
    -- the chains on both sides of the root are shorter
    obtain ⟨pre, s, post, rfl, hsides⟩ := exists_root h ho hne
    have hs := ho s (List.mem_append_right _ List.mem_cons_self)
    obtain ⟨p, hp, -⟩ := h.precedence s.1 hs.1
    obtain ⟨w, hw, -⟩ := h.trigger s.1 hs.1
    obtain ⟨head, hhead, -⟩ := h.name s.1 hs.1
    obtain ⟨hpre, hpost⟩ := hsides p hp
    rw [List.length_append, List.length_cons] at hn
    obtain ⟨a, ra, sa, oa, ea, ga, hoa⟩ := ih pre.length (by omega) rfl hc
      fun x hx => ho x (List.mem_append_left _ hx)
    obtain ⟨b, rb, sb, ob, eb, gb, hob⟩ := ih post.length (by omega) rfl hs.2
      fun x hx => ho x (List.mem_append_right _ (List.mem_cons_of_mem _ hx))
    obtain ⟨source, markup, edge, hg⟩ := ga.between h hs.1 hhead hp hw gb
      (hoa _ (Nat.le_of_lt (Fin.isLt _)) hpre) (hob _ (Nat.le_of_lt (Fin.isLt _)) hpost)
    rw [tokens_append c pre s post hw]
    -- the tree binds as its root, which is one of the steps
    refine ⟨_, _, _, _, _, hg, fun k _ hk => ?_⟩
    rw [← level_eq hp]
    exact hk s (List.mem_append_right _ List.mem_cons_self)

/-! ## Parsing and rendering -/

/-- A token that neither opens nor closes a fence. -/
def Unfenced (t : Token) : Prop :=
  ∀ e ∈ Category.core.entries, e.kind = .matchfix → t.raw ∉ e.trigger ∧ t.raw ∉ e.closeTrigger

/-- The token of a letter is no fence. -/
theorem unfenced_letter {c : Char} (hc : isLetter c = true) :
    Unfenced (Name.writtenToken (Name.letterToken c)) := by
  rw [Name.writtenToken_letterToken]
  cases hs : Name.symbolOfChar? c with
  | none =>
    intro e he hk
    have hcore : ∀ e ∈ Category.core.entries, e.kind = .matchfix →
        (e.trigger ++ e.closeTrigger).all (fun s =>
          s.toList.head?.all fun d => d.toNat < 128 && !d.isAlpha) = true := by
      decide +kernel
    have hnot := Name.not_mem_of_isLetter hc (hcore e he hk)
    exact ⟨fun hm => hnot (List.mem_append_left _ hm), fun hm => hnot (List.mem_append_right _ hm)⟩
  | some s =>
    have hcore : ∀ s ∈ Name.namedSymbols, ∀ e ∈ Category.core.entries, e.kind = .matchfix →
        s.command ∉ e.trigger ∧ s.command ∉ e.closeTrigger := by
      decide +kernel
    exact hcore s (List.mem_of_find?_eq_some hs)

/-- No token of a chain is a fence. -/
theorem unfenced_tokens (h : InfixTable es) {c : Char} {steps : List Step}
    (hc : isLetter c = true) (ho : Over es steps) :
    ∀ t ∈ (tokens c steps).map Name.writtenToken, Unfenced t := by
  intro t ht
  obtain ⟨u, hu, rfl⟩ := List.mem_map.1 ht
  rcases List.mem_cons.1 hu with rfl | hu
  · exact unfenced_letter hc
  obtain ⟨s, hs, hu⟩ := List.mem_flatMap.1 hu
  rcases List.mem_append.1 hu with hu | hu
  · obtain ⟨w, hw, hfresh⟩ := h.trigger s.1 (ho s hs).1
    rw [hw, List.map_singleton, List.mem_singleton] at hu
    rw [hu, Name.writtenToken_controlWord hfresh.word]
    exact fun e he _ => hfresh.core e he
  · rw [List.mem_singleton.1 hu]
    exact unfenced_letter (ho s hs).2

/-- Where no letter is a named symbol, the tokens are written as they are. -/
theorem map_writtenToken_tokens (h : InfixTable es) {c : Char} {steps : List Step}
    (hc : Name.PlainLetter c) (ho : Over es steps) (hsteps : ∀ s ∈ steps, Name.PlainLetter s.2) :
    (tokens c steps).map Name.writtenToken = tokens c steps := by
  refine (List.map_congr_left fun t ht => ?_).trans (List.map_id _)
  rcases List.mem_cons.1 ht with rfl | ht
  · exact hc.writtenToken_eq
  obtain ⟨s, hs, ht⟩ := List.mem_flatMap.1 ht
  rcases List.mem_append.1 ht with ht | ht
  · obtain ⟨w, hw, hfresh⟩ := h.trigger s.1 (ho s hs).1
    rw [hw, List.map_singleton, List.mem_singleton] at ht
    rw [ht]
    exact Name.writtenToken_controlWord hfresh.word
  · rw [List.mem_singleton.1 ht]
    exact (hsteps s hs).writtenToken_eq

/-- Letters with operators between them and no parentheses, whatever the table of operators, are
parsed to a tree without error nodes, and that is rendered without fences and with the same tokens:
just those letters that are named symbols are written as commands. The one way out is the limit on
nesting. -/
theorem scan_render_parse (h : InfixTable es) {c : Char} {steps : List Step}
    (hc : isLetter c = true) (ho : Over es steps) {markup : String}
    (hm : Token.scan markup = tokens c steps) (canonical : Bool) :
    let t := (({} : Transcoder).setLexicon (Category.core.entries ++ es)).1
    let result := (parseAll t.index).run (ofTokens (Token.scan markup))
    (t.parse markup).1 = result.1 ∧
    (result.2.tooDeep = false →
      result.1.hasErrors = false ∧
      (∀ u ∈ Token.scan (t.render result.1 canonical).1, Unfenced u) ∧
      Token.scan (t.render result.1 canonical).1 = (Token.scan markup).map Name.writtenToken ∧
      (Name.PlainLetter c → (∀ s ∈ steps, Name.PlainLetter s.2) →
        Token.scan (t.render result.1 canonical).1 = Token.scan markup)) := by
  intro t result
  refine ⟨rfl, fun ht => ?_⟩
  -- the tree that the chain grows, read off other markup with the same tokens
  obtain ⟨e, source, s, own, edge, hg, -⟩ := exists_grows h canonical steps.length rfl hc ho
  have hsource : Token.scan source = Token.scan markup := by
    rw [hg.legible.scans.scan_eq, hm]
  have hresult : result.1 = e := by
    have hparse := hg.legible.parse (OperatorTable.arranged_index es)
    rw [hsource] at hparse
    rcases hparse with hd | he
    · exact absurd (hd.symm.trans ht) (by decide)
    · exact he
  have hrender : (t.render result.1 canonical).1 = s := by
    rw [hresult]
    show ((Renderer.ofIndex (OperatorTable.index es) canonical).render e 0 []).1 = s
    rw [hg.renders 0]
    rfl
  rw [hrender, hg.written.scan_eq, hm]
  refine ⟨?_, unfenced_tokens h hc ho, rfl, fun hplain hsteps => ?_⟩
  · rw [hresult]
    exact hg.sound
  · exact map_writtenToken_tokens h hplain ho hsteps

end

/-- The operators of a table that stand between operands. -/
theorem infixTable_filter {es : List Entry} (h : OperatorTable es) :
    InfixTable (es.filter fun e => decide (e.kind = .infixOp)) := by
  have hsub := @List.filter_sublist _ (fun e : Entry => decide (e.kind = .infixOp)) es
  have hmem : ∀ {e}, e ∈ es.filter (fun e => decide (e.kind = .infixOp)) →
      e ∈ es ∧ e.kind = .infixOp := by
    intro e he
    obtain ⟨he, hk⟩ := List.mem_filter.1 he
    exact ⟨he, of_decide_eq_true hk⟩
  refine ⟨fun e he => (hmem he).2, fun e he => h.parse e (hmem he).1,
    fun e he => h.render e (hmem he).1, fun e he => h.name e (hmem he).1,
    (hsub.map _).nodup h.names, fun e he => h.trigger e (hmem he).1,
    (hsub.map _).nodup h.triggers, fun e he => h.precedence e (hmem he).1, ?_⟩
  intro e he f hf hp
  -- either of the two that groups on the right makes the other do so
  have hright : ∀ {e f}, e ∈ es ∧ e.kind = .infixOp → f ∈ es ∧ f.kind = .infixOp →
      f.precedence = e.precedence → e.associativity = .right → f.associativity = .right :=
    fun he hf hp ha => (h.unshared _ he.1 he.2 ha _ hf.1 hp).2 hf.2
  cases he' : e.associativity with
  | right => exact hright (hmem he) (hmem hf) hp he'
  | left =>
    cases hf' : f.associativity with
    | left => rfl
    | right => exact (he'.symm.trans (hright (hmem hf) (hmem he) hp.symm hf')).symm

/-- The operators of the sample that stand between operands. -/
def sampleInfixes : List Entry :=
  OperatorTable.sampleOperators.filter fun e => decide (e.kind = .infixOp)

/-- Sums and powers of letters. -/
def sampleSteps : List Step :=
  let plus := sampleInfixes.get ⟨0, by decide⟩
  let raise := sampleInfixes.get ⟨1, by decide⟩
  [(plus, 'b'), (raise, 'é'), (raise, 'β'), (plus, 'e')]

theorem infixTable_sample : InfixTable sampleInfixes :=
  infixTable_filter OperatorTable.operatorTable_sample

theorem scan_render_parse_sample :
    InfixTable sampleInfixes ∧ isLetter 'a' = true ∧ Over sampleInfixes sampleSteps ∧
    let markup := "a\\plus b\\raise é\\raise β\\plus e"
    let t := (({} : Transcoder).setLexicon (Category.core.entries ++ sampleInfixes)).1
    Token.scan markup = tokens 'a' sampleSteps ∧
    (t.parse markup).1 = .apply "Plus" [.apply "Plus" [.symbol "a", .apply "Raise" [.symbol "b",
      .apply "Raise" [.symbol "é", .symbol "beta"]]], .symbol "e"] ∧
    Token.scan (t.render (t.parse markup).1 false).1 =
      Token.scan "a\\plus b\\raise é\\raise\\beta\\plus e" := by
  have hover : Over sampleInfixes sampleSteps := by
    simp only [Over, sampleSteps, List.forall_mem_cons]
    exact ⟨⟨List.get_mem _ _, by decide +kernel⟩, ⟨List.get_mem _ _, by decide +kernel⟩,
      ⟨List.get_mem _ _, by decide +kernel⟩, ⟨List.get_mem _ _, by decide +kernel⟩, by simp⟩
  have hscan : Token.scan "a\\plus b\\raise é\\raise β\\plus e" = tokens 'a' sampleSteps := by
    decide +kernel
  -- what is read is computed; the way back is by the theorem
  have h := scan_render_parse infixTable_sample rfl hover hscan false
  refine ⟨infixTable_sample, rfl, hover, hscan, by decide +kernel, ?_⟩
  rw [h.1, (h.2 (by decide +kernel)).2.2.1]
  decide +kernel

/-- A sum of two letters that are named symbols is not written with the tokens it was read from. -/
theorem exists_scan_render_ne :
    ∃ (es : List Entry) (c : Char) (steps : List Step) (markup : String),
      InfixTable es ∧ isLetter c = true ∧ Over es steps ∧ Token.scan markup = tokens c steps ∧
      let t := (({} : Transcoder).setLexicon (Category.core.entries ++ es)).1
      ((parseAll t.index).run (ofTokens (Token.scan markup))).2.tooDeep = false ∧
      t.render (t.parse markup).1 false = ("\\alpha\\plus\\beta", []) ∧
      Token.scan (t.render (t.parse markup).1 false).1 ≠ Token.scan markup := by
  refine ⟨sampleInfixes, 'α', [(sampleInfixes.get ⟨0, by decide⟩, 'β')], "α\\plus β",
    infixTable_sample, by decide +kernel, ?_, by decide +kernel, by decide +kernel,
    by decide +kernel, by decide +kernel⟩
  rw [Over, List.forall_mem_singleton]
  exact ⟨List.get_mem _ _, by decide +kernel⟩

end Chain
end MathMarkup
