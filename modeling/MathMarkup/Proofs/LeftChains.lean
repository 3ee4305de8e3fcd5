import Mathlib.Data.List.Induction
import MathMarkup.Proofs.Chains

/-!
# Chains of one operator

Letters with one operator between them that groups on the left: `a ∘ b ∘ c ∘ d`. What is on the
right of such an operator is read one step tighter than the operator binds, so that the next
operator is left for the whole that was read so far. There is no step above the tightest precedence:
an operator that binds as tightly as that takes all of the chain on its right, although it groups on
the left (`LeftInfix.parse_chain`). The tree that groups on the left is written without parentheses
all the same, and does not come back.
-/

namespace MathMarkup

open MathMarkup.Lexer MathMarkup.Parser

theorem Precedence.tighter_of_not_lt {p : Precedence} (h : ¬ p.val < 65535) : p.tighter = p := by
  rw [tighter, dif_neg (by omega)]

/-- An operator between operands that groups on the left, with a name and a control word of its own
and parsed without a routine. -/
structure LeftInfix (e : Entry) (head w : String) (p : Precedence) : Prop where
  kind : e.kind = .infixOp
  associativity : e.associativity = .left
  name : e.name = some head
  precedence : e.precedence = some p
  trigger : e.trigger = [w]
  fresh : FreshWord w
  parse : ∀ handler, e.parse ≠ some (.custom handler)

namespace LeftInfix

/-- The tree of a chain that groups on the left. -/
def leftNested (head : String) (c : Char) (cs : List Char) : Expr :=
  cs.foldl (fun e d => .apply head [e, .symbol (String.ofList [d])]) (.symbol (String.ofList [c]))

/-- The tree of a chain that groups on the right. -/
def rightNested (head : String) (c : Char) : List Char → Expr
  | [] => .symbol (String.ofList [c])
  | d :: ds => .apply head [.symbol (String.ofList [c]), rightNested head d ds]

/-- The chain as it is written. -/
def markup (w : String) (c : Char) (cs : List Char) : String :=
  cs.foldl (fun s d => append (append s w) (String.ofList [d])) (String.ofList [c])

/-- The operator and the letter behind it, for each letter of a chain but the first. -/
def steps (e : Entry) (cs : List Char) : List Chain.Step :=
  cs.map (e, ·)

theorem leftNested_concat (head : String) (c : Char) (cs : List Char) (d : Char) :
    leftNested head c (cs ++ [d]) =
      .apply head [leftNested head c cs, .symbol (String.ofList [d])] := by
  rw [leftNested, List.foldl_append]
  rfl

theorem markup_concat (w : String) (c : Char) (cs : List Char) (d : Char) :
    markup w c (cs ++ [d]) = append (append (markup w c cs) w) (String.ofList [d]) := by
  rw [markup, List.foldl_append]
  rfl

/-- From three letters on the trees are different. -/
theorem leftNested_ne_rightNested (head : String) (c : Char) {cs : List Char}
    (h : 2 ≤ cs.length) : leftNested head c cs ≠ rightNested head c cs := by
  intro heq
  induction cs using List.reverseRecOn with
  | nil => simp at h
  | append_singleton cs d =>
    rw [leftNested_concat] at heq
    cases cs with
    | nil => simp at h
    | cons x xs =>
      -- the last operand is a letter in one tree and an operator in the other
      cases xs <;> simp [rightNested] at heq

variable {e : Entry} {head w : String} {p : Precedence} {c : Char} {cs : List Char}

theorem operators (h : LeftInfix e head w p) : Operators [e] where
  kind f hf := by
    rw [List.mem_singleton.1 hf]
    exact Or.inr (Or.inl h.kind)
  parse f hf := by
    rw [List.mem_singleton.1 hf]
    exact h.parse
  trigger f hf := by
    rw [List.mem_singleton.1 hf]
    exact ⟨w, h.trigger, h.fresh⟩
  triggers := List.nodup_singleton _
  precedence f hf := by
    rw [List.mem_singleton.1 hf]
    exact ⟨p, h.precedence⟩

theorem tokens_concat (h : LeftInfix e head w p) (c : Char) (cs : List Char) (d : Char) :
    Chain.tokens c (steps e (cs ++ [d])) =
      Chain.tokens c (steps e cs) ++ ⟨w, .command⟩ :: [Name.letterToken d] := by
  rw [steps, List.map_append]
  exact Chain.tokens_append c (steps e cs) (e, d) [] h.trigger

/-- Whatever the core has of that name, the operator comes last. -/
theorem byName?_head (h : LeftInfix e head w p) :
    (OperatorTable.index [e]).byName? head = some (e.indexed (OperatorTable.role e p)) := by
  have husable := OperatorTable.usable h.operators List.mem_cons_self h.precedence
  have hname : (e.indexed (OperatorTable.role e p)).name = some head := h.name
  rw [(OperatorTable.arranged_index [e]).names.byName, OperatorTable.index,
    Index.latest_ofEntries, OperatorTable.lexicon,
    List.filterMap_append, List.filterMap_cons, husable]
  simp [hname]

/-! ## Parsing -/

/-- Below the tightest precedence a chain is read from its left end. -/
theorem legible_leftNested (h : LeftInfix e head w p) (hp : p.val < 65535)
    (hc : Name.PlainLetter c) (hcs : ∀ d ∈ cs, Name.PlainLetter d) :
    ∃ own edge, Legible (OperatorTable.index [e]) (leftNested head c cs) (markup w c cs)
      (Chain.tokens c (steps e cs)) own edge extending ∧ p.val ≤ own ∧ p.val < edge := by
  induction cs using List.reverseRecOn with
  | nil => exact ⟨65536, 65536, Chain.legible_letter h.operators hc, by omega, by omega⟩
  | append_singleton cs d ih =>
    obtain ⟨own, edge, hleft, hown, hedge⟩ := ih fun x hx => hcs x (List.mem_append_left _ hx)
    have hletter := Chain.legible_letter h.operators (hcs d (by simp))
    have hright : (rightPrecedence e.associativity p).val = p.val + 1 := by
      rw [h.associativity]
      exact Precedence.tighter_val hp
    have hwhole := OperatorTable.legible_between h.operators List.mem_cons_self h.kind h.name
      h.precedence h.trigger h.fresh hleft hown hedge hletter (by omega)
    rw [leftNested_concat, markup_concat, h.tokens_concat]
    exact ⟨_, _, hwhole, Nat.le_refl _, by omega⟩

/-- At the tightest precedence the first operator takes the rest of the chain. -/
theorem legible_rightNested (h : LeftInfix e head w p) (hp : ¬ p.val < 65535)
    (hc : Name.PlainLetter c) (hcs : ∀ d ∈ cs, Name.PlainLetter d) :
    ∃ s own edge, Legible (OperatorTable.index [e]) (rightNested head c cs) s
      (Chain.tokens c (steps e cs)) own edge extending ∧ p.val ≤ own := by
  induction cs generalizing c with
  | nil => exact ⟨_, 65536, 65536, Chain.legible_letter h.operators hc, by omega⟩
  | cons d ds ih =>
    obtain ⟨s, own, edge, hrest, hown⟩ :=
      ih (hcs d List.mem_cons_self) fun x hx => hcs x (List.mem_cons_of_mem _ hx)
    have hletter := Chain.legible_letter h.operators hc
    have hright : (rightPrecedence e.associativity p).val = p.val := by
      rw [h.associativity]
      exact congrArg Fin.val (Precedence.tighter_of_not_lt hp)
    rw [← hright] at hown
    have hwhole := OperatorTable.legible_between h.operators List.mem_cons_self h.kind h.name
      h.precedence h.trigger h.fresh hletter (by omega) (by omega) hrest hown
    have htokens : Chain.tokens c (steps e (d :: ds)) =
        [Name.letterToken c] ++ ⟨w, .command⟩ :: Chain.tokens d (steps e ds) :=
      Chain.tokens_append c [] (e, d) (steps e ds) h.trigger
    rw [htokens]
    exact ⟨_, _, _, hwhole, Nat.le_refl _⟩

/-! ## Rendering -/

theorem scans_markup (h : LeftInfix e head w p) (hc : Name.PlainLetter c)
    (hcs : ∀ d ∈ cs, Name.PlainLetter d) :
    Scans (markup w c cs) (Chain.tokens c (steps e cs)) := by
  induction cs using List.reverseRecOn with
  | nil => exact (Chain.legible_letter h.operators hc).scans
  | append_singleton cs d ih =>
    have hletter := Chain.legible_letter h.operators (hcs d (by simp))
    rw [markup_concat, h.tokens_concat]
    exact OperatorTable.scans_between h.fresh (ih fun x hx => hcs x (List.mem_append_left _ hx))
      hletter.scans hletter.ne_nil

/-- The operator does not bind looser than itself. -/
theorem bindsLooser_leftNested (h : LeftInfix e head w p) (canonical : Bool) (c : Char)
    (cs : List Char) (s : String) :
    (Renderer.ofIndex (OperatorTable.index [e]) canonical).bindsLooser (leftNested head c cs) s p =
      false := by
  have hown :
      (Renderer.ofIndex (OperatorTable.index [e]) canonical).precedenceOf? head = some p := by
    show ((OperatorTable.index [e]).byName? head).bind _ = _
    rw [h.byName?_head]
    show (OperatorTable.role e p).precedence? = some p
    rw [OperatorTable.role, h.kind]
    rfl
  induction cs using List.reverseRecOn with
  | nil => rfl
  | append_singleton cs d _ =>
    rw [leftNested_concat, Renderer.bindsLooser]
    simp [Expr.strip, hown]

/-- The tree that groups on the left is written without parentheses at every precedence. -/
theorem renders_leftNested (h : LeftInfix e head w p) (hr : e.render = none) (canonical : Bool)
    (hc : Name.PlainLetter c) (hcs : ∀ d ∈ cs, Name.PlainLetter d) :
    (Renderer.ofIndex (OperatorTable.index [e]) canonical).Renders (leftNested head c cs)
      (markup w c cs) := by
  induction cs using List.reverseRecOn with
  | nil => exact Chain.renders_letter h.operators hc
  | append_singleton cs d ih =>
    have hleft := ih fun x hx => hcs x (List.mem_append_left _ hx)
    have hletter := @Chain.renders_letter [e] canonical h.operators d (hcs d (by simp))
    have hwhole := OperatorTable.renders_between h.operators List.mem_cons_self h.kind h.trigger
      h.fresh hr h.byName?_head hleft hletter
    rw [h.associativity] at hwhole
    have hheld : OperatorTable.heldMarkup [e] canonical (leftNested head c cs) (markup w c cs)
        (Renderer.leftPrecedence .left p) = markup w c cs :=
      if_neg (by simp [show Renderer.leftPrecedence .left p = p from rfl, h.bindsLooser_leftNested])
    rw [hheld] at hwhole
    rw [leftNested_concat, markup_concat]
    exact hwhole

/-! ## Chains -/

/-- A chain is parsed to the tree that groups on the left, unless the operator binds as tightly as
can be: then it is parsed to the one that groups on the right. The rendering of the tree that groups
on the left is parsed to the same as the chain. The one way out is the limit on nesting, and then
the result says so. -/
theorem parse_chain (h : LeftInfix e head w p) (hc : Name.PlainLetter c)
    (hcs : ∀ d ∈ cs, Name.PlainLetter d) {chain : String}
    (hchain : Token.scan chain = Chain.tokens c (steps e cs)) :
    let t := (({} : Transcoder).setLexicon (Category.core.entries ++ [e])).1
    let result := (parseAll t.index).run (ofTokens (Token.scan chain))
    (t.parse chain).1 = result.1 ∧
    (result.2.tooDeep = false →
      result.1 = (if p.val < 65535 then leftNested head c cs else rightNested head c cs) ∧
      (2 ≤ cs.length → (result.1 = leftNested head c cs ↔ p.val < 65535))) ∧
    (result.2.tooDeep = true →
      ∃ arg context, result.1.Contains (Expr.error .syntaxError arg context)) ∧
    (e.render = none → ∀ canonical,
      (t.parse (t.render (leftNested head c cs) canonical).1).1 = result.1) := by
  intro t result
  -- no precedence is tighter than the tightest one, so there the right operand takes in the rest
  have hparse : result.2.tooDeep = true ∨
      result.1 = (if p.val < 65535 then leftNested head c cs else rightNested head c cs) := by
    by_cases hp : p.val < 65535
    · obtain ⟨own, edge, hl, -, -⟩ := h.legible_leftNested hp hc hcs
      have hresult := hl.parse (OperatorTable.arranged_index [e])
      rw [hl.scans.scan_eq, ← hchain] at hresult
      rw [if_pos hp]
      exact hresult
    · obtain ⟨s, own, edge, hl, -⟩ := h.legible_rightNested hp hc hcs
      have hresult := hl.parse (OperatorTable.arranged_index [e])
      rw [hl.scans.scan_eq, ← hchain] at hresult
      rw [if_neg hp]
      exact hresult
  refine ⟨rfl, ?_, ?_, ?_⟩
  · intro hdeep
    have hresult := hparse.resolve_left (by rw [hdeep]; simp)
    refine ⟨hresult, ?_⟩
    intro hlength
    rw [hresult]
    by_cases hp : p.val < 65535
    · simp [hp]
    · simp [hp, (leftNested_ne_rightNested head c hlength).symm]
  · exact contains_syntaxError (OperatorTable.arranged_index [e])
      (OperatorTable.keepsBare h.operators)
  · intro hr canonical
    have hrender : (t.render (leftNested head c cs) canonical).1 = markup w c cs := by
      show ((Renderer.ofIndex (OperatorTable.index [e]) canonical).render _ 0 []).1 = _
      rw [h.renders_leftNested hr canonical hc hcs 0]
      rfl
    rw [hrender]
    show ((parseAll t.index).run (ofTokens (Token.scan (markup w c cs)))).1 = result.1
    rw [(h.scans_markup hc hcs).scan_eq, ← hchain]

/-- An operator with a control word of its own at some precedence. -/
def star (p : Precedence) : Entry :=
  { kind := .infixOp, name := some "Star", trigger := ["\\star"], precedence := some p }

theorem leftInfix_star (p : Precedence) : LeftInfix (star p) "Star" "\\star" p where
  kind := rfl
  associativity := rfl
  name := rfl
  precedence := rfl
  trigger := rfl
  fresh := @OperatorTable.freshWord_of_letters "star".toList (by decide) (by decide)
    (by decide +kernel) (by decide)
  parse _ := nofun

theorem plainLetter_of_all {cs : List Char} (h : cs.all Char.isAlpha = true) :
    ∀ d ∈ cs, Name.PlainLetter d := by
  intro d hd
  exact Name.plainLetter_of_isAlpha (List.all_eq_true.1 h d hd)

theorem scan_star (p : Precedence) :
    Token.scan "a\\star b\\star c" = Chain.tokens 'a' (steps (star p) ['b', 'c']) := by
  have hscan : Token.scan "a\\star b\\star c" =
      Chain.tokens 'a' (steps (star .loosest) ['b', 'c']) := by decide +kernel
  exact hscan

/-- One step below the tightest precedence. -/
theorem parse_chain_star :
    LeftInfix (star 65534) "Star" "\\star" 65534 ∧
    let t := (({} : Transcoder).setLexicon (Category.core.entries ++ [star 65534])).1
    let tree := Expr.apply "Star" [.apply "Star" [.symbol "a", .symbol "b"], .symbol "c"]
    (t.parse "a\\star b\\star c").1 = tree ∧ (t.parse (t.render tree false).1).1 = tree := by
  have hchain := parse_chain (leftInfix_star 65534) (Name.plainLetter_of_isAlpha rfl)
    (plainLetter_of_all rfl) (scan_star 65534)
  have hresult := (hchain.2.1 (by decide +kernel)).1
  rw [if_pos (by decide)] at hresult
  refine ⟨leftInfix_star 65534, hchain.1.trans hresult, ?_⟩
  exact (hchain.2.2.2 rfl false).trans hresult

/-- At the tightest precedence `a ∘ b ∘ c` is `a ∘ (b ∘ c)`. -/
theorem exists_parse_ne_leftNested :
    ¬ ∀ (e : Entry) (head w : String) (p : Precedence) (c : Char) (cs : List Char) (chain : String),
      LeftInfix e head w p → Name.PlainLetter c → (∀ d ∈ cs, Name.PlainLetter d) → 2 ≤ cs.length →
      Token.scan chain = Chain.tokens c (steps e cs) →
      let t := (({} : Transcoder).setLexicon (Category.core.entries ++ [e])).1
      ((parseAll t.index).run (ofTokens (Token.scan chain))).2.tooDeep = false →
        (t.parse chain).1 = leftNested head c cs := by
  intro h
  have hparse := h _ _ _ _ 'a' ['b', 'c'] "a\\star b\\star c" (leftInfix_star 65535)
    (Name.plainLetter_of_isAlpha rfl) (plainLetter_of_all rfl) (by decide) (scan_star 65535)
    (by decide +kernel)
  exact absurd hparse (by decide +kernel)

end LeftInfix
end MathMarkup
