import MathMarkup.Proofs.StandardRoundTrip

/-!
# Products without a sign

Two ways lead to a product: a sign, whose entry collects operands, and an operand that follows
without any operator, which the parser tries for where no trigger comes next. Both read the operand
one step tighter than products bind and put it behind the operands of a product on the left, so sums
of products are parsed alike with and without signs (`parse_adjacent_eq_parse_times`).

A `Phrase` is such a sum or a piece of one, with one constructor for each production of the grammar.
What stands between two factors is a parameter: `Multiplies` says of a piece of markup that it makes
products there, and holds of nothing and of the sign. From it alone follows what a phrase is read
as, by induction. Only with nothing between them may a letter come right before another one or
before a parenthesis; letters are cut off from whatever follows (`Detached`), and none is a
function.
-/

namespace MathMarkup
namespace Parser

open Reading Nested

/-! ## Operands that follow without an operator -/

variable {ix : Index} {n : Nat} {q : Precedence}
variable (hq : (ix.byName? "Multiply").bind IndexedEntry.precedence? = some q)
include hq

/-- An expression that binds tighter than products goes no further before another operand. -/
theorem ends_of_operand {t : Nat} {avoid : List String} {rest : List Token}
    (hc : operatorCandidates ix (Token.raws rest) = []) (ht : q.val < t)
    (hcalm : ∀ u ∈ rest.head?, u.raw ∉ avoid) : Ends ix t avoid rest := by
  refine ⟨fun n m lhs hm => ?_, hcalm⟩
  have htight : q < m := by
    rw [Fin.lt_def]
    omega
  refine reads_suffix_bare hc (reads_juxtapose hq ?_)
  rw [decide_eq_true htight, Bool.true_or, if_pos rfl]
  exact reads_pure _ _

/-- An operand that follows without an operator is multiplied. -/
theorem reads_suffix_operand {m : Precedence} {lhs b : Expr} {ts rest : List Token}
    (hc : operatorCandidates ix (Token.raws (ts ++ rest)) = []) (hm : m ≤ q) (hne : ts ≠ [])
    (hb : Reads n ((atDepth ix n).expression q.tighter) ts (some b) rest) :
    Reads n (suffix ix (atDepth ix n) m lhs) ts
      (some (.apply "Multiply" (factors lhs ++ [b]))) rest := by
  have hmore : (ts ++ rest).isEmpty = false := by
    rw [List.isEmpty_eq_false_iff]
    exact fun h => hne (List.append_eq_nil_iff.1 h).1
  refine reads_suffix_bare hc (reads_juxtapose hq ?_)
  rw [decide_eq_false (Fin.not_lt.2 hm), hmore, Bool.false_or, if_neg Bool.false_ne_true]
  refine reads_rewinding (reads_bind_right hb (fun o => ?_) (reads_pure _ _))
  cases o <;> exact conserves_pure _

/-- An expression goes on with another operand: their product is the left part of the whole. -/
theorem Opens.operand {m : Precedence} {a b : Expr} {ta tb : List Token} {s t : Nat}
    {avoid avoid' : List String} (ha : Opens ix m a ta s avoid)
    (hc : ∀ us, operatorCandidates ix (Token.raws (tb ++ us)) = []) (hm : m ≤ q) (hs : q.val < s)
    (hne : tb ≠ []) (hcalm : ∀ u ∈ tb.head?, u.raw ∉ avoid)
    (hb : ∀ n us, Ends ix t avoid' us →
      Reads n ((atDepth ix n).expression q.tighter) tb (some b) us) :
    Opens ix m (.apply "Multiply" (factors a ++ [b])) (ta ++ tb) t avoid' := by
  intro n us x rest ht hx
  have hends : Ends ix s avoid ((tb ++ us) ++ rest) := by
    rw [List.append_assoc]
    refine ends_of_operand hq (hc _) hs fun u hu => hcalm u ?_
    cases tb with
    | nil => exact absurd rfl hne
    | cons t tb => exact hu
  have hgo := reads_suffixes_some hne (reads_suffix_operand hq (hc _) hm hne (hb n _ ht)) hx
  have h := ha n _ x rest hends hgo
  rw [List.append_assoc]
  exact h

end Parser

namespace Standard

open MathMarkup.Lexer MathMarkup.Parser MathMarkup.Reading

/-! ## Sums of products of letters -/

/-- What a piece of a sum is. -/
inductive Rank where
  | base
  | factor
  | product
  | sum

/-- The precedence at which a piece is read. -/
def Rank.own : Rank → Nat
  | .base => 65536
  | .factor => 720
  | .product => 390
  | .sum => 275

/-- The precedence that its last operand is held to. -/
def Rank.edge : Rank → Nat
  | .base | .factor => 65536
  | .product => 391
  | .sum => 276

/-- A sum of products, where a product is one or more factors, and a factor is a letter or a sum in
parentheses, with or without a sum as its exponent. -/
inductive Phrase : Rank → Type where
  | letter (c : Char) (hc : c.isAlpha = true) : Phrase .base
  | group (s : Phrase .sum) : Phrase .base
  | plain (b : Phrase .base) : Phrase .factor
  | power (b : Phrase .base) (x : Phrase .sum) : Phrase .factor
  | single (f : Phrase .factor) : Phrase .product
  | times (p : Phrase .product) (f : Phrase .factor) : Phrase .product
  | alone (p : Phrase .product) : Phrase .sum
  | plus (s : Phrase .sum) (p : Phrase .product) : Phrase .sum

namespace Phrase

/-- The markup, given what stands between two factors. -/
def markup (between : String) : {r : Rank} → Phrase r → String
  | _, letter c _ => String.ofList [c]
  | _, group s => "(" ++ s.markup between ++ ")"
  | _, plain b => b.markup between
  | _, power b x => b.markup between ++ ("^" ++ "\x7b") ++ x.markup between ++ "\x7d"
  | _, single f => f.markup between
  | _, times p f => p.markup between ++ between ++ f.markup between
  | _, alone p => p.markup between
  | _, plus s p => s.markup between ++ "+" ++ p.markup between

/-- The tokens of the markup. -/
def tokens (between : List Token) : {r : Rank} → Phrase r → List Token
  | _, letter c _ => [Name.letterToken c]
  | _, group s => leftParen :: s.tokens between ++ [rightParen]
  | _, plain b => b.tokens between
  | _, power b x => b.tokens between ++
      (loneToken '^' :: (leftBrace :: x.tokens between ++ [rightBrace]))
  | _, single f => f.tokens between
  | _, times p f => p.tokens between ++ between ++ f.tokens between
  | _, alone p => p.tokens between
  | _, plus s p => s.tokens between ++ [loneToken '+'] ++ p.tokens between

/-- The expression: sums and products take in those that begin them, and only those. -/
def expr : {r : Rank} → Phrase r → Expr
  | _, letter c _ => .symbol (String.ofList [c])
  | _, group s => s.expr
  | _, plain b => b.expr
  | _, power b x => .apply "Power" [b.expr, x.expr]
  | _, single f => f.expr
  | _, times p f => .apply "Multiply" (gathered "Multiply" p.expr ++ [f.expr])
  | _, alone p => p.expr
  | _, plus s p => .apply "Add" (gathered "Add" s.expr ++ [p.expr])

end Phrase

/-! ## Factors side by side -/

/-- A token that no operator begins with. -/
def Bare (t : Token) : Prop :=
  ∀ us, operatorCandidates Index.standard (t.raw :: us) = []

theorem bare_letter {c : Char} (hc : c.isAlpha = true) : Bare (Name.letterToken c) := by
  intro us
  have hnone := lookup_foreign (foreign_letter hc)
  rw [operatorCandidates, show (Name.letterToken c).raw = String.ofList [c] from rfl, hnone, hnone]
  rfl

theorem bare_leftParen : Bare leftParen := by
  have hnone : ∀ kind, Index.rivals Lexicon.standard kind ["("] [] = 0 →
      ∀ us, Index.standard.lookup kind ("(" :: us) = [] := fun kind hr us =>
    Index.lookup_of_no_rivals hr fun u (_ : u ∈ us.head?) => List.not_mem_nil
  intro us
  rw [operatorCandidates, show leftParen.raw = "(" from rfl,
    hnone .postfixOp (by decide +kernel), hnone .infixOp (by decide +kernel)]
  rfl

/-- The operands of a product that goes on are those that an operator would collect. -/
theorem factors_eq_gathered {e : Expr} (he : e.strip = e) : factors e = gathered "Multiply" e := by
  unfold factors gathered
  cases e with
  | apply head operands =>
    show _ = if (some head == some "Multiply") = true then operands else _
    simp only [beq_iff_eq, Option.some.injEq]
  | annotated markup e => exact absurd he (Expr.strip_ne_annotated e markup e)
  | _ => rfl

/-- What may stand between two factors: a piece of markup that makes a product of what is read
before it and the factor behind it. -/
structure Multiplies (between : String) (ts : List Token) : Prop where
  detached : Detached between ts
  readable : ∀ {a b : Expr} {sa sb : String} {ta tb : List Token},
    Readable a sa ta 390 391 [] → Readable b sb tb 720 65536 [] →
    Scans (sa ++ between ++ sb) (ta ++ ts ++ tb) → (∀ t ∈ tb.head?, Bare t) →
    Readable (.apply "Multiply" (gathered "Multiply" a ++ [b])) (sa ++ between ++ sb)
      (ta ++ ts ++ tb) 390 391 []

/-- The precedence of products. -/
theorem precedence?_multiply :
    (Index.standard.byName? "Multiply").bind IndexedEntry.precedence? = some 390 := by
  obtain ⟨f, hf, -⟩ := collects_multiply false
  obtain ⟨-, hc, -, -⟩ := clear_infixOp hf.mem hf.name hf.kind
  have hu := (Index.usable?_operator hc.trigger_ne_nil hf.precedence).2.1 hf.kind
  rw [byName?_standard hf.mem hu hf.name]
  rfl

/-- Nothing between two factors multiplies them. -/
theorem multiplies_nothing : Multiplies "" [] where
  detached := detached_empty
  readable {a b sa sb ta tb} ha hb hs hbare := by
    rw [String.append_empty, List.append_nil] at hs ⊢
    obtain ⟨t, us, rfl, ht⟩ := hb.legible.begins
    have hnone : ∀ rest, operatorCandidates Index.standard (Token.raws (t :: us ++ rest)) = [] :=
      fun rest => hbare t rfl (Token.raws (us ++ rest))
    have hlegible : Legible Index.standard
        (.apply "Multiply" (gathered "Multiply" a ++ [b])) (sa ++ sb) (ta ++ t :: us) 390 391 [] := by
      refine ⟨hs, ?_, fun m hm => ?_, by decide⟩
      · obtain ⟨t', us', rfl, ht'⟩ := ha.legible.begins
        exact ⟨t', _, rfl, ht'⟩
      · -- the left operand is held to 391, so it leaves the next factor to the product at 390
        rw [← factors_eq_gathered ha.strip]
        exact (ha.legible.opens m hm).operand precedence?_multiply hnone (Fin.le_def.2 hm)
          (show 390 < 391 by decide) (List.cons_ne_nil _ _) (fun _ _ => List.not_mem_nil)
          fun n us hends => hb.legible.reads (m := (390 : Precedence).tighter) (by decide) hends n
    have hlast : (Token.raws (ta ++ t :: us)).getLast? ≠ some "!" := by
      rw [getLast?_raws_append (List.cons_ne_nil _ _)]
      exact fun h => List.not_mem_nil (hb.last.2 h)
    exact readable_closed hlegible nofun hlast rfl rfl

/-- The token of a product. -/
def timesToken : Token := ⟨"\\times", .command⟩

theorem controlWord_times : ControlWord "\\times" where
  letters := ⟨"times".toList, by decide, List.all_eq_true.1 (by decide), rfl⟩
  text := by decide

/-- So does the sign between them. -/
theorem multiplies_times : Multiplies "\\times " [timesToken] where
  detached := detached_controlWord controlWord_times (by decide)
  readable {a b sa sb ta tb} ha hb hs _ := by
    obtain ⟨f, hf, ht⟩ := collects_multiply false
    have hright : rightPrecedence f.associativity 390 = 391 := by
      rw [hf.associativity]
      rfl
    have hread := (hf.connects a).readable ha.legible (Nat.le_refl _) (by decide)
      (fun _ _ => List.not_mem_nil) hb (by rw [hright]; decide)
    rw [ht, show signTokens (join ["\\times"]) = [timesToken] from by decide, hright] at hread
    exact hread.respell hs

/-! ## What is read of a phrase -/

/-- Markup whose end nothing takes in may be read looser, and its last operand held to less. -/
theorem Readable.loosen {e : Expr} {s : String} {ts : List Token} {own edge own' edge' : Nat}
    (h : Readable e s ts own edge []) (hown : own' ≤ own) (hedge : edge' ≤ edge)
    (hle : own' ≤ edge') : Readable e s ts own' edge' [] := by
  have hlegible : Legible Index.standard e s ts own' edge' [] :=
    ⟨h.legible.scans, h.legible.begins, fun m hm n us x rest ht =>
      h.legible.opens m (Nat.le_trans hm hown) n us x rest (ht.mono hedge), hle⟩
  exact readable_closed hlegible nofun (fun hl => List.not_mem_nil (h.last.2 hl)) h.strip h.sequence

theorem readable_letter {c : Char} (hc : c.isAlpha = true) :
    Readable (.symbol (String.ofList [c])) (String.ofList [c]) [Name.letterToken c] 65536 65536 [] := by
  refine readable_closed (legible_standardLetter hc []) nofun (fun hl => ?_) rfl rfl
  exact bang_not_mem_letter hc (List.mem_of_getLast? hl)

/-- The sum of what is read before the sign and the product behind it. -/
theorem readable_plus {a b : Expr} {sa sb : String} {ta tb : List Token}
    (ha : Readable a sa ta 275 276 []) (hb : Readable b sb tb 390 391 [])
    (hs : Scans (sa ++ "+" ++ sb) (ta ++ [loneToken '+'] ++ tb)) :
    Readable (.apply "Add" (gathered "Add" a ++ [b])) (sa ++ "+" ++ sb)
      (ta ++ [loneToken '+'] ++ tb) 275 276 [] := by
  obtain ⟨f, hf, ht⟩ := collects_add false
  have hright : rightPrecedence f.associativity 275 = 276 := by
    rw [hf.associativity]
    rfl
  have hread := (hf.connects a).readable ha.legible (Nat.le_refl _) (by decide)
    (fun _ _ => List.not_mem_nil) hb (by rw [hright]; decide)
  rw [ht, show signTokens (join ["+"]) = [loneToken '+'] from by decide, hright] at hread
  exact hread.respell hs

namespace Phrase

variable {between : String} {ts : List Token} {r : Rank}

/-- A phrase begins with a letter or a parenthesis, before which there is no operator. -/
theorem bare (ts : List Token) (p : Phrase r) : ∃ t us, p.tokens ts = t :: us ∧ Bare t := by
  induction p with
  | letter c hc => exact ⟨_, _, rfl, bare_letter hc⟩
  | group s => exact ⟨_, _, rfl, bare_leftParen⟩
  | plain b ih => exact ih
  | single f ih => exact ih
  | alone p ih => exact ih
  | power b x ih =>
    obtain ⟨t, us, hb, ht⟩ := ih
    exact ⟨t, _, by rw [tokens, hb]; rfl, ht⟩
  | times p f ih =>
    obtain ⟨t, us, hp, ht⟩ := ih
    exact ⟨t, _, by rw [tokens, hp]; rfl, ht⟩
  | plus s p ih =>
    obtain ⟨t, us, hs, ht⟩ := ih
    exact ⟨t, _, by rw [tokens, hs]; rfl, ht⟩

/-- A phrase is cut into its tokens whatever comes after it, so that factors may stand side by
side. -/
theorem detached (h : Detached between ts) (p : Phrase r) :
    Detached (p.markup between) (p.tokens ts) := by
  have hlone : ∀ c : Char, SignChar c → Detached (String.ofList [c]) [loneToken c] :=
    fun c hc => detached_lone hc.lone hc.spacing
  -- on the phrase: its signs are single characters, and none of them runs into its neighbour
  induction p with
  | letter c hc =>
    rw [markup, tokens, ← Name.loneToken_of_isAlpha hc]
    exact detached_lone (Name.lone_of_isAlpha hc) (Name.not_mem_of_letter hc (by decide))
  | group s ih =>
    have hleft := hlone '(' (by decide)
    have hright := hlone ')' (by decide)
    exact (hleft.append ih).append hright
  | plain b ih => exact ih
  | single f ih => exact ih
  | alone p ih => exact ih
  | power b x ihb ihx =>
    have hmark := hlone '^' (by decide)
    have hwhole := (ihb.append hmark).append (detached_braced ihx.scans)
    rw [List.append_assoc] at hwhole
    simp only [markup, tokens, String.append_assoc] at hwhole ⊢
    exact hwhole
  | times p f ihp ihf => exact (ihp.append h).append ihf
  | plus s p ihs ihp =>
    have hplus := hlone '+' (by decide)
    exact (ihs.append hplus).append ihp

/-- Every piece is read as its expression, at the precedence of its rank. -/
theorem readable (h : Multiplies between ts) (p : Phrase r) :
    Readable p.expr (p.markup between) (p.tokens ts) r.own r.edge [] := by
  have hscans : ∀ {r : Rank} (p : Phrase r), Scans (p.markup between) (p.tokens ts) :=
    fun p => (p.detached h.detached).scans
  induction p with
  | letter c hc => exact readable_letter hc
  | group s ih => exact ih.group
  | plain b ih => exact ih.loosen (by decide) (by decide) (by decide)
  | single f ih => exact ih.loosen (by decide) (by decide) (by decide)
  | alone p ih => exact ih.loosen (by decide) (by decide) (by decide)
  | power b x ihb ihx => exact readable_power ihb (by decide) (by decide) ihx
  | times p f ihp ihf =>
    obtain ⟨t, us, hf, ht⟩ := f.bare ts
    refine h.readable ihp ihf (hscans (.times p f)) fun u hu => ?_
    rw [hf] at hu
    rw [← Option.some.inj hu]
    exact ht
  | plus s p ihs ihp => exact readable_plus ihs ihp (hscans (.plus s p))

/-- A phrase is parsed as its expression, unless it nests too deeply. -/
theorem parse (h : Multiplies between ts) (p : Phrase r)
    (hdeep : (reading (p.markup between)).2.tooDeep = false) :
    (({} : Transcoder).parse (p.markup between)).1 = p.expr := by
  rw [parse_eq]
  rcases (p.readable h).legible.parse arranged with hd | hparse
  · exact absurd (hd.symm.trans hdeep) (by decide)
  · exact hparse

end Phrase

/-- A sum of products is parsed alike with its factors side by side and with a sign between every
two of them, unless either nests too deeply: both are parsed as the expression that takes in the
sums and the products which begin others. -/
theorem parse_adjacent_eq_parse_times (s : Phrase .sum) :
    let t : Transcoder := {}
    let adjacent := s.markup ""
    let signed := s.markup "\\times "
    (reading adjacent).2.tooDeep = false → (reading signed).2.tooDeep = false →
      (t.parse adjacent).1 = (t.parse signed).1 ∧ (t.parse signed).1 = s.expr := by
  intro t adjacent signed hadjacent hsigned
  have hparse := s.parse multiplies_nothing hadjacent
  have hparse' := s.parse multiplies_times hsigned
  exact ⟨hparse.trans hparse'.symm, hparse'⟩

/-- Products in parentheses, on the left where they are taken in and on the right where they are
not, a letter before a parenthesis, and a power of a sum. -/
def samplePhrase : Phrase .sum :=
  let letter (c : Char) (hc : true = c.isAlpha) : Phrase .factor := .plain (.letter c hc.symm)
  let product : Phrase .product := .times (.single (letter 'a' rfl)) (letter 'b' rfl)
  let sum : Phrase .sum := .plus (.alone (.single (letter 'c' rfl))) product
  .plus
    (.alone (.times (.times (.single (.plain (.group (.alone product)))) (letter 'f' rfl))
      (.plain (.group (.alone product)))))
    (.times (.single (letter 'g' rfl)) (.power (.group sum) sum))

theorem parse_samplePhrase :
    let t : Transcoder := {}
    samplePhrase.markup "" = "(ab)f(ab)+g(c+ab)^\x7bc+ab\x7d" ∧
      samplePhrase.markup "\\times " =
        "(a\\times b)\\times f\\times (a\\times b)+g\\times (c+a\\times b)^\x7bc+a\\times b\x7d" ∧
      (reading (samplePhrase.markup "")).2.tooDeep = false ∧
      (reading (samplePhrase.markup "\\times ")).2.tooDeep = false ∧
      (t.parse (samplePhrase.markup "")).1 = (t.parse (samplePhrase.markup "\\times ")).1 := by
  have hadjacent : (reading (samplePhrase.markup "")).2.tooDeep = false := by
    decide +kernel
  have hsigned : (reading (samplePhrase.markup "\\times ")).2.tooDeep = false := by
    decide +kernel
  exact ⟨by decide, by decide, hadjacent, hsigned,
    (parse_adjacent_eq_parse_times samplePhrase hadjacent hsigned).1⟩

end Standard
end MathMarkup
