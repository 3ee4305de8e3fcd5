import MathMarkup.Proofs.Completion
import MathMarkup.Proofs.Legible
import MathMarkup.Proofs.Numerals
import MathMarkup.Proofs.StandardLexicon

/-!
# Expressions in standard notation

What the renderer makes of an expression in the standard lexicon, and what that is read back as.
Operands that a place does not suit get parentheses, so an expression comes back as it was, with one
exception: a factorial sign and an equals sign after it are the trigger of an inequation, and the
renderer puts nothing between them. `Fused` says that this happens among some tokens.

`Fits e e' s ts own edge avoid` is what the rules below are about: `e` is rendered as `s`, which
makes the tokens `ts` and is read as `e'`. `Held` is the same of an operand in its place. Every rule
has to say what is read if an equals sign follows: `Chops` is where it ends in a factorial sign,
which then belongs to the next operator.
-/

namespace MathMarkup
namespace Standard

open MathMarkup.Lexer MathMarkup.Parser MathMarkup.Reading

/-! ## Factorial signs before equals signs -/

/-- The tokens of a factorial and of an equation. -/
def bang : Token := ⟨"!", .char⟩
def equals : Token := ⟨"=", .char⟩

/-- A factorial sign comes right before an equals sign. -/
def Fused (ts : List Token) : Prop :=
  ["!", "="] <:+: Token.raws ts

theorem raws_append (ts us : List Token) :
    Token.raws (ts ++ us) = Token.raws ts ++ Token.raws us :=
  List.map_append

theorem fused_cons (t : Token) (ts : List Token) :
    Fused (t :: ts) ↔ (t.raw = "!" ∧ ∃ u ∈ ts.head?, u.raw = "=") ∨ Fused ts := by
  unfold Fused
  rw [show Token.raws (t :: ts) = t.raw :: Token.raws ts from rfl, List.infix_cons_iff,
    List.cons_prefix_cons]
  refine or_congr_left (and_congr eq_comm ?_)
  cases ts with
  | nil => simp [Token.raws]
  | cons u us =>
    rw [show Token.raws (u :: us) = u.raw :: Token.raws us from rfl, List.cons_prefix_cons]
    simp [eq_comm]

theorem not_fused_nil : ¬ Fused [] :=
  fun h => absurd h.length_le (by decide)

/-- Tokens without a factorial sign. -/
theorem not_fused {ts : List Token} (h : "!" ∉ Token.raws ts) : ¬ Fused ts :=
  fun hf => h (hf.subset List.mem_cons_self)

theorem getLast?_raws_append {us : List Token} (h : us ≠ []) (ts : List Token) :
    (Token.raws (ts ++ us)).getLast? = (Token.raws us).getLast? := by
  have hne : Token.raws us ≠ [] := fun hn => h (List.map_eq_nil_iff.1 hn)
  rw [raws_append, List.getLast?_append_of_ne_nil _ hne]

/-- Where no sign comes right before an equals sign, what is fused is so in one of the parts. -/
theorem fused_append {ts us : List Token}
    (h : (Token.raws ts).getLast? = some "!" → ∀ u ∈ us.head?, u.raw ≠ "=") :
    Fused (ts ++ us) ↔ Fused ts ∨ Fused us := by
  induction ts with
  | nil => exact ⟨Or.inr, fun hf => hf.resolve_left not_fused_nil⟩
  | cons t ts ih =>
    by_cases hts : ts = []
    · subst hts
      rw [List.cons_append, List.nil_append, fused_cons, fused_cons, or_assoc]
      refine ⟨fun hf => ?_, fun hf => ?_⟩
      · rcases hf with ⟨ht, u, hu, he⟩ | hf
        · exact absurd he (h (congrArg some ht) u hu)
        · exact Or.inr (Or.inr hf)
      · rcases hf with ⟨-, u, hu, -⟩ | hf | hf
        · exact absurd hu (by simp)
        · exact absurd hf not_fused_nil
        · exact Or.inr hf
    · have hlast := getLast?_raws_append hts [t]
      rw [List.cons_append, fused_cons, fused_cons, ih fun hl => h (hlast.trans hl), or_assoc,
        List.head?_append_of_ne_nil _ hts]

/-- A factorial sign before an equation. -/
theorem fused_of_last {ts : List Token} (h : (Token.raws ts).getLast? = some "!")
    (us : List Token) : Fused (ts ++ (equals :: us)) := by
  obtain ⟨raws, hr⟩ := List.getLast?_eq_some_iff.1 h
  refine ⟨raws, Token.raws us, ?_⟩
  rw [raws_append, hr, List.append_assoc, List.append_assoc]
  rfl

/-- The tokens of a fence take no part. -/
theorem fused_fenced {left right : Token} (hl : left.raw ≠ "!") (hr : right.raw ≠ "=")
    (ts : List Token) : Fused (left :: ts ++ [right]) ↔ Fused ts := by
  rw [List.cons_append, fused_cons, fused_append fun _ u hu => by rw [← Option.some.inj hu]; exact hr]
  refine ⟨fun h => ?_, fun h => Or.inr (Or.inl h)⟩
  rcases h with ⟨h, -⟩ | h | h
  · exact absurd h hl
  · exact h
  · rcases (fused_cons right []).1 h with ⟨-, u, hu, -⟩ | h
    · exact absurd hu (by simp)
    · exact absurd h not_fused_nil

theorem mem_raws_fenced {left right : Token} (hl : left.raw ≠ "!") (hr : right.raw ≠ "!")
    (ts : List Token) : "!" ∈ Token.raws (left :: ts ++ [right]) ↔ "!" ∈ Token.raws ts := by
  rw [raws_append, show Token.raws (left :: ts) = left.raw :: Token.raws ts from rfl,
    show Token.raws [right] = [right.raw] from rfl, List.mem_append, List.mem_cons,
    List.mem_singleton]
  exact ⟨fun h => (h.resolve_right hr.symm).resolve_left hl.symm, fun h => Or.inl (Or.inr h)⟩

/-! ## What is read back -/

/-- An expression is read back as another one, which is the same unless signs are fused. -/
structure Rereads (e e' : Expr) (ts : List Token) : Prop where
  same : e' = e ↔ ¬ Fused ts
  factorial : "!" ∈ Token.raws ts → ∃ a, e.Contains (.apply "Factorial" [a])
  isApply : ∀ head, head ≠ "Equal" → head ≠ "NotEqual" → e'.isApply head = e.isApply head
  number : e'.number? = e.number?

/-- Without a factorial sign nothing is fused. -/
theorem rereads_refl {e : Expr} {ts : List Token} (h : "!" ∉ Token.raws ts) : Rereads e e ts where
  same := iff_of_true rfl (not_fused h)
  factorial hm := absurd hm h
  isApply _ _ _ := rfl
  number := rfl

theorem Rereads.fenced {e e' : Expr} {ts : List Token} (h : Rereads e e' ts) {left right : Token}
    (hl : left.raw ≠ "!") (hr : right.raw ≠ "=") (hr' : right.raw ≠ "!") :
    Rereads e e' (left :: ts ++ [right]) where
  same := by rw [fused_fenced hl hr, h.same]
  factorial hm := h.factorial ((mem_raws_fenced hl hr' ts).1 hm)
  isApply := h.isApply
  number := h.number

/-- An operand, what it is read back as, and the tokens it is read from. -/
structure Part where
  expr : Expr
  reread : Expr
  tokens : List Token

/-- An application is read back as one of what its operands are read back as. -/
theorem rereads_apply {head : String} {parts : List Part} {ts : List Token}
    (h : ∀ p ∈ parts, Rereads p.expr p.reread p.tokens)
    (hf : Fused ts ↔ ∃ p ∈ parts, Fused p.tokens)
    (hb : "!" ∈ Token.raws ts → (∃ p ∈ parts, "!" ∈ Token.raws p.tokens) ∨
      head = "Factorial" ∧ ∃ p, parts = [p]) :
    Rereads (.apply head (parts.map Part.expr)) (.apply head (parts.map Part.reread)) ts where
  same := by
    rw [Expr.apply.injEq, eq_self, true_and, List.map_inj_left, hf, not_exists]
    refine forall_congr' fun p => ?_
    rw [not_and]
    exact forall_congr' fun hp => (h p hp).same
  factorial hm := by
    rcases hb hm with ⟨p, hp, hm⟩ | ⟨rfl, p, rfl⟩
    · obtain ⟨a, ha⟩ := (h p hp).factorial hm
      exact ⟨a, .operand (List.mem_map_of_mem hp) ha⟩
    · exact ⟨p.expr, .here⟩
  isApply _ _ _ := rfl
  number := rfl

/-- What is read back of the operands of an application, in order. -/
structure Gathers (es : List Expr) (parts : List Part) (ts : List Token) : Prop where
  exprs : parts.map Part.expr = es
  rereads : ∀ q ∈ parts, Rereads q.expr q.reread q.tokens
  fused : Fused ts ↔ ∃ q ∈ parts, Fused q.tokens
  factorial : "!" ∈ Token.raws ts → ∃ q ∈ parts, "!" ∈ Token.raws q.tokens

theorem gathers_singleton {a a' : Expr} {ts ta : List Token} (h : Rereads a a' ta)
    (hf : Fused ts ↔ Fused ta) (hm : "!" ∈ Token.raws ts → "!" ∈ Token.raws ta) :
    Gathers [a] [⟨a, a', ta⟩] ts where
  exprs := rfl
  rereads q hq := by
    rw [List.mem_singleton.1 hq]
    exact h
  fused := by
    rw [hf]
    simp
  factorial hm' := ⟨_, List.mem_cons_self, hm hm'⟩

/-- One more operand. -/
theorem Gathers.concat {es : List Expr} {parts : List Part} {ts ts' tb : List Token} {b b' : Expr}
    (h : Gathers es parts ts) (hb : Rereads b b' tb) (hf : Fused ts' ↔ Fused ts ∨ Fused tb)
    (hm : "!" ∈ Token.raws ts' → "!" ∈ Token.raws ts ∨ "!" ∈ Token.raws tb) :
    Gathers (es ++ [b]) (parts ++ [⟨b, b', tb⟩]) ts' where
  exprs := by rw [List.map_append, h.exprs, List.map_cons, List.map_nil]
  rereads q hq := by
    rcases List.mem_append.1 hq with hq | hq
    · exact h.rereads q hq
    · rw [List.mem_singleton.1 hq]
      exact hb
  fused := by
    rw [hf, h.fused]
    simp only [List.mem_append, List.mem_singleton, or_and_right, exists_or, exists_eq_left]
  factorial hm' := by
    rcases hm hm' with hm' | hm'
    · obtain ⟨q, hq, hm'⟩ := h.factorial hm'
      exact ⟨q, List.mem_append_left _ hq, hm'⟩
    · exact ⟨_, List.mem_append_right _ List.mem_cons_self, hm'⟩

/-- The application of a head to them. -/
theorem Gathers.apply {es : List Expr} {parts : List Part} {ts : List Token}
    (h : Gathers es parts ts) (head : String) :
    Rereads (.apply head es) (.apply head (parts.map Part.reread)) ts := by
  rw [← h.exprs]
  exact rereads_apply h.rereads h.fused fun hm => Or.inl (h.factorial hm)

/-! ## Operands in their place -/

/-- The raw texts that must not follow some expression or other: those that go on with a name or a
numeral, and an equals sign, which makes another sign of a factorial. -/
def wary : List String := "=" :: extending

/-- The tokens end in a factorial sign, and what is before it can be read. -/
def Chops (ts : List Token) (own : Nat) : Prop :=
  ∃ e s ts' edge avoid, ts = ts' ++ [bang] ∧ Legible Index.standard e s ts' own edge avoid ∧
    ∀ w ∈ avoid, w ∈ wary

/-- Markup that is read as an expression, and what is read of it before an equals sign. -/
structure Readable (e : Expr) (s : String) (ts : List Token) (own edge : Nat)
    (avoid : List String) : Prop where
  legible : Legible Index.standard e s ts own edge avoid
  wary : ∀ w ∈ avoid, w ∈ wary
  last : "=" ∈ avoid ↔ (Token.raws ts).getLast? = some "!"
  chops : "=" ∈ avoid → Chops ts own
  strip : e.strip = e
  sequence : e.isApply "Sequence" = false

/-- Markup that does not end in a factorial sign. -/
theorem readable_closed {e : Expr} {s : String} {ts : List Token} {own edge : Nat}
    {avoid : List String} (h : Legible Index.standard e s ts own edge avoid)
    (hw : ∀ w ∈ avoid, w ∈ extending) (hl : (Token.raws ts).getLast? ≠ some "!")
    (hs : e.strip = e) (hq : e.isApply "Sequence" = false) :
    Readable e s ts own edge avoid := by
  have hno : "=" ∉ avoid := fun hm => absurd (hw _ hm) (by decide)
  exact ⟨h, fun w hm => List.mem_cons_of_mem _ (hw w hm), iff_of_false hno hl,
    fun hm => absurd hm hno, hs, hq⟩

/-- What is read hangs on the tokens only. -/
theorem Readable.respell {e : Expr} {s s' : String} {ts : List Token} {own edge : Nat}
    {avoid : List String} (h : Readable e s ts own edge avoid) (hs : Scans s' ts) :
    Readable e s' ts own edge avoid :=
  { h with legible := { h.legible with scans := hs } }

/-- An operand that is no sequence is one operand. -/
theorem Readable.splat {e : Expr} {s : String} {ts : List Token} {own edge : Nat}
    {avoid : List String} (h : Readable e s ts own edge avoid) : Expr.splat (some e) = [e] := by
  have hq := h.sequence
  unfold Expr.splat
  dsimp only
  rw [h.strip]
  cases e with
  | apply head operands =>
    exact if_neg fun he => beq_eq_false_iff_ne.1 hq (congrArg some he)
  | _ => rfl

/-- What stands in front of an operand leaves the end of it as it is. -/
theorem Readable.extend {e : Expr} {s : String} {ts : List Token} {own edge : Nat}
    {avoid : List String} (h : Readable e s ts own edge avoid) (mk : Expr → Expr)
    (pre : String → String) (pts : List Token) {q own' edge' : Nat}
    (hmk : ∀ {e s ts own edge avoid}, Legible Index.standard e s ts own edge avoid → q ≤ own →
      (∀ w ∈ avoid, w ∈ Standard.wary) →
      Legible Index.standard (mk e) (pre s) (pts ++ ts) own' edge' avoid)
    (hq : q ≤ own) (hs : (mk e).strip = mk e) (hno : (mk e).isApply "Sequence" = false) :
    Readable (mk e) (pre s) (pts ++ ts) own' edge' avoid where
  legible := hmk h.legible hq h.wary
  wary := h.wary
  last := by rw [getLast?_raws_append h.legible.ne_nil, h.last]
  chops hm := by
    obtain ⟨e', s', ts', edge'', avoid', rfl, hl, hw⟩ := h.chops hm
    exact ⟨mk e', pre s', pts ++ ts', edge', avoid', (List.append_assoc pts ts' [bang]).symm,
      hmk hl hq hw, hw⟩
  strip := hs
  sequence := hno

/-- The renderer with the standard lexicon. -/
abbrev renderer (canonical : Bool) : Renderer :=
  Renderer.ofIndex Index.standard canonical

/-- The renderer puts an expression into parentheses where it would not be read as a whole. -/
structure Binds (canonical : Bool) (e : Expr) (s : String) (own edge : Nat) : Prop where
  /-- Subscripts never get any, so they may be read looser than where they stand. -/
  tight : ∀ p : Precedence, (renderer canonical).bindsLooser e s p = false → min p.val 720 ≤ own
  tighter : e.isApply "Subscript" = false → ∀ p : Precedence, 810 < p.val →
    (renderer canonical).bindsLooser e s p = false → p.val ≤ own
  /-- No operator after it takes its last operand away. -/
  firm : ∀ p, TakesLeft p → (renderer canonical).bindsLooser e s p = false → p.val < edge

theorem binds_closed (canonical : Bool) (e : Expr) (s : String) :
    Binds canonical e s 65536 65536 where
  tight p _ := by
    have := p.isLt
    omega
  tighter _ p _ _ := Nat.le_of_lt p.isLt
  firm p _ _ := p.isLt

/-- An operator is read where its precedence says. -/
theorem binds_apply {canonical : Bool} {head : String} {own : Precedence}
    (h : (renderer canonical).precedenceOf? head = some own) (hd : head ≠ "Delimiter")
    (hs : head ≠ "Subscript") (operands : List Expr) (s : String) {k edge : Nat}
    (hk : min own.val 720 ≤ k) (hk' : 810 < own.val → own.val ≤ k)
    (hedge : ∀ p, TakesLeft p → p.val ≤ own.val → p.val < edge) :
    Binds canonical (.apply head operands) s k edge := by
  have hle : ∀ p, (renderer canonical).bindsLooser (.apply head operands) s p = false →
      p.val ≤ own.val := by
    intro p hp
    rw [Renderer.bindsLooser_apply h hd hs, decide_eq_false_iff_not, Fin.not_lt] at hp
    exact hp
  refine ⟨fun p hp => ?_, fun _ p h810 hp => ?_, fun p ht hp => hedge p ht (hle p hp)⟩
  · have := hle p hp
    omega
  · have := hle p hp
    have := hk' (by omega)
    omega

/-- The rendering of an expression and what it is read back as. -/
structure Fits (canonical : Bool) (e e' : Expr) (s : String) (ts : List Token) (own edge : Nat)
    (avoid : List String) : Prop extends Readable e' s ts own edge avoid, Rereads e e' ts,
    Binds canonical e s own edge where
  renders : (renderer canonical).Renders e s

/-- An expression is read back from its rendering, but for fused signs. -/
def Rereadable (canonical : Bool) (e : Expr) : Prop :=
  ∃ e' s ts own edge avoid, Fits canonical e e' s ts own edge avoid

/-- The rendering of an operand in its place, and what it is read back as. -/
structure Held (e e' : Expr) (s : String) (p : Precedence) (ts : List Token) (own edge : Nat)
    (avoid : List String) : Prop extends Readable e' s ts own edge avoid, Rereads e e' ts where
  reached : min p.val 720 ≤ own
  reached' : e.isApply "Subscript" = false → 810 < p.val → p.val ≤ own
  firm : TakesLeft p → p.val < edge

theorem bindsLooser_mono {r : Renderer} {e : Expr} {s : String} {p q : Precedence} (hpq : p ≤ q)
    (h : r.bindsLooser e s q = false) : r.bindsLooser e s p = false := by
  -- only the precedence of a number or of an applied head is compared with the one that is asked
  -- for
  have hlt : ∀ own : Precedence, decide (own < q) = false → decide (own < p) = false := by
    intro own hown
    rw [decide_eq_false_iff_not, Fin.not_lt] at hown ⊢
    exact Fin.le_trans hpq hown
  revert h
  unfold Renderer.bindsLooser
  cases e.strip with
  | number text =>
    dsimp only
    cases r.precedenceOf? "Negate" with
    | none => exact id
    | some own =>
      rw [Bool.and_eq_false_iff, Bool.and_eq_false_iff]
      exact Or.imp_right (hlt own)
  | apply head operands =>
    dsimp only
    split
    · exact id
    · cases r.precedenceOf? head with
      | none => exact id
      | some own => exact hlt own
  | _ => exact id

/-- Parentheses group. -/
theorem groups : Groups Index.standard where
  opens := by
    obtain ⟨group, hmem, hkind, hopen, hclose, hparse⟩ : ∃ e, e ∈ Lexicon.standard ∧
        e.kind = .matchfix ∧ e.trigger = Entry.triggerTokens "(" ∧
        e.closeTrigger = Entry.triggerTokens ")" ∧
        e.parse = some (.custom Lexicon.Structure.parseGroup) :=
      ⟨_, List.mem_of_getElem? (i := 1) rfl, rfl, rfl, rfl, rfl⟩
    rw [show Entry.triggerTokens "(" = ["("] from triggerTokens_of_isSign (by decide) rfl] at hopen
    rw [show Entry.triggerTokens ")" = [")"] from triggerTokens_of_isSign (by decide) rfl] at hclose
    have hu := Index.usable?_matchfix hkind hopen hclose
    -- no other entry begins with a parenthesis
    have hrivals : Index.rivals Lexicon.standard .matchfix group.trigger [] = 1 := by
      rw [hopen]
      decide +kernel
    refine ⟨group.indexed (.matchfix [")"]), fun us => ?_, rfl, ?_⟩
    · have hfound := Index.lookup_of_rivals hmem hu rfl
        (by rw [hopen]; exact List.cons_ne_nil _ _) hrivals
        fun u (_ : u ∈ us.head?) => List.not_mem_nil
      rw [hopen] at hfound
      exact hfound
    · simp only [Entry.indexed, hparse]
  closes k us avoid hne := by
    refine ends_of_stray ⟨by decide, by decide, by decide, by decide, by decide⟩ hne ?_ rfl k
    exact fun kind => lookup_foreign (foreign_of_not_opening (by decide)) kind _

/-- In parentheses nothing around an expression matters. -/
theorem Readable.group {e : Expr} {s : String} {ts : List Token} {own edge : Nat}
    {avoid : List String} (h : Readable e s ts own edge avoid) :
    Readable e ("(" ++ s ++ ")") (leftParen :: ts ++ [rightParen]) 65536 65536 [] := by
  have hwary : ")" ∉ avoid := fun hm => absurd (h.wary _ hm) (by decide)
  have hlast : (Token.raws (leftParen :: ts ++ [rightParen])).getLast? ≠ some "!" := by
    rw [getLast?_raws_append (List.cons_ne_nil _ _)]
    decide
  exact readable_closed (h.legible.group groups hwary h.sequence []) (by simp) hlast h.strip
    h.sequence

/-- In parentheses or not, an operand is read where it stands. -/
theorem Fits.fenced {canonical : Bool} {e e' : Expr} {s : String} {ts : List Token} {own edge : Nat}
    {avoid : List String} (h : Fits canonical e e' s ts own edge avoid) {p : Precedence} (b : Bool)
    (hb : b = false → (renderer canonical).bindsLooser e s p = false) :
    ∃ ts' own' edge' avoid', Held e e' (if b then "(" ++ s ++ ")" else s) p ts' own' edge' avoid' := by
  cases b with
  | true =>
    have hp := p.isLt
    exact ⟨_, _, _, _, h.toReadable.group,
      h.toRereads.fenced (by decide) (by decide) (by decide), by omega, fun _ _ => by omega,
      fun _ => hp⟩
  | false =>
    have hl := hb rfl
    exact ⟨_, _, _, _, h.toReadable, h.toRereads, h.tight p hl, fun hs hp => h.tighter hs p hp hl,
      fun ht => h.firm p ht hl⟩

theorem Fits.held {canonical : Bool} {e e' : Expr} {s : String} {ts : List Token} {own edge : Nat}
    {avoid : List String} (h : Fits canonical e e' s ts own edge avoid) (p : Precedence) :
    ∃ ts' own' edge' avoid', Held e e' ((renderer canonical).held e s p) p ts' own' edge' avoid' :=
  h.fenced _ id

theorem Fits.heldBase {canonical : Bool} {e e' : Expr} {s : String} {ts : List Token}
    {own edge : Nat} {avoid : List String} (h : Fits canonical e e' s ts own edge avoid)
    (p : Precedence) : ∃ ts' own' edge' avoid',
      Held e e' ((renderer canonical).heldBase e s p) p ts' own' edge' avoid' :=
  h.fenced _ fun hb => bindsLooser_mono (Fin.le_def.2 (Precedence.le_tighter p))
    (Bool.or_eq_false_iff.1 hb).2

/-! ## Arguments in braces -/

theorem ends_rightBrace (k : Nat) {avoid : List String} (h : "\x7d" ∉ avoid) (us : List Token) :
    Ends Index.standard k avoid (rightBrace :: us) := by
  have hno := lookup_foreign (foreign_of_not_opening (w := "\x7d") (by decide))
  refine ends_of_declines k ?_ (fun _ n m => reads_expression_closeGroup rfl us m n) ?_
  · rw [operatorCandidates, show Token.raws (rightBrace :: us) = "\x7d" :: Token.raws us from rfl,
      hno, hno]
    rfl
  · intro u hu
    rw [← Option.some.inj hu]
    exact h

theorem Readable.argument {e : Expr} {s : String} {ts : List Token} {own edge : Nat}
    {avoid : List String} (h : Readable e s ts own edge avoid) (n : Nat) (rest : List Token) :
    Reads n (argument (Nested.atDepth Index.standard n)) (leftBrace :: ts ++ [rightBrace]) (some e)
      rest := by
  have hno : "\x7d" ∉ avoid := fun hm => absurd (h.wary _ hm) (by decide)
  obtain ⟨t, us, rfl, ht⟩ := h.legible.begins
  exact reads_argument rfl (reads_braceGroup rfl ⟨t, us, rfl, ht.kind⟩
    (h.legible.opens .loosest (Nat.zero_le _)) (ends_rightBrace 0 hno) rest)

end Standard
end MathMarkup
