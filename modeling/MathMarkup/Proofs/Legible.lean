import MathMarkup.Proofs.Bare
import MathMarkup.Proofs.Grammar
import MathMarkup.Proofs.Names
import MathMarkup.Proofs.Rendering
import MathMarkup.Proofs.Scan

/-!
# Legible markup

`Parser.Legible ix e s ts own edge` says that the markup `s` is cut into the tokens `ts`, and that
an expression which begins with them has `e` as its left part, as long as it is read at `own` or
looser and what follows leaves the last operand of `e` alone, which is held to `edge`. It is what
the renderer and the parser agree on: the renderer puts an expression into parentheses where it is
not read at the precedence its place asks for (`Legible.held`), and each operator asks for just what
it reads its operands at.
-/

namespace MathMarkup

namespace Precedence

theorem tighter_val {p : Precedence} (h : p.val < 65535) : p.tighter.val = p.val + 1 := by
  rw [tighter, dif_pos (by omega)]

theorem le_tighter (p : Precedence) : p.val ≤ p.tighter.val := by
  by_cases h : p.val < 65535
  · rw [tighter_val h]
    omega
  · exact Nat.le_of_eq (by rw [tighter, dif_neg (by omega)])

/-- An operand of a prefix operator is read one step tighter wherever the operator may stand. -/
theorem tighter_tighterOf {p m : Precedence} (h : m.val ≤ p.val) :
    p.tighter.tighterOf m = p.tighter := by
  rw [tighterOf, if_neg]
  rw [Fin.lt_def]
  have := le_tighter p
  omega

end Precedence

namespace Parser

open Reading Nested Lexer

variable {ix : Index}

/-- A token that an operand can begin with. -/
structure Begins (t : Token) : Prop where
  kind : t.kind ≠ .closeGroup
  close : t.raw ≠ ")"
  equals : t.raw ≠ "="

/-- Markup that is read as an expression. -/
structure Legible (ix : Index) (e : Expr) (s : String) (ts : List Token) (own edge : Nat)
    (avoid : List String) : Prop where
  scans : Scans s ts
  begins : ∃ t us, ts = t :: us ∧ Begins t
  opens : ∀ m : Precedence, m.val ≤ own → Opens ix m e ts edge avoid
  own_le : own ≤ edge

/-- Markup that is read at some precedence is read at a looser one. -/
theorem Legible.mono {e : Expr} {s : String} {ts : List Token} {own own' edge : Nat}
    {avoid : List String} (h : Legible ix e s ts own edge avoid) (hown : own' ≤ own) :
    Legible ix e s ts own' edge avoid where
  scans := h.scans
  begins := h.begins
  opens m hm := h.opens m (Nat.le_trans hm hown)
  own_le := Nat.le_trans hown h.own_le

theorem Legible.ne_nil {e : Expr} {s : String} {ts : List Token} {own edge : Nat}
    {avoid : List String} (h : Legible ix e s ts own edge avoid) : ts ≠ [] := by
  obtain ⟨t, us, rfl, -⟩ := h.begins
  exact List.cons_ne_nil t us

/-- Where nothing goes on at some precedence, the markup is read to its end. -/
theorem Legible.reads {e : Expr} {s : String} {ts rest : List Token} {own edge : Nat}
    {avoid : List String} (h : Legible ix e s ts own edge avoid) {m : Precedence} (hm : m.val ≤ own)
    (hends : Ends ix m.val avoid rest) (n : Nat) :
    Reads n ((atDepth ix n).expression m) ts (some e) rest :=
  (h.opens m hm).expression (hends.mono (Nat.le_trans hm h.own_le)) hends n

/-- Legible markup is parsed as the expression, unless it nests too deeply. -/
theorem Legible.parse (ha : ix.Arranged) {e : Expr} {s : String} {ts : List Token} {own edge : Nat}
    {avoid : List String} (h : Legible ix e s ts own edge avoid) :
    (parseAll ix (ofTokens (Token.scan s))).2.tooDeep = true ∨
      (parseAll ix (ofTokens (Token.scan s))).1 = e := by
  have hr := h.reads (m := .loosest) (Nat.zero_le _) (ends_nil ha _ _) maxDepth
  have hstart : AtLevel maxDepth (ofTokens (Token.scan s)) := by
    rw [h.scans.ofTokens]
    exact ⟨Nat.zero_add _, Nat.zero_le _⟩
  have hfirst := hr.outcome _ hstart (by rw [h.scans.ofTokens, List.append_nil])
  have hlevel := hr.conserves.atLevel hstart
  have hparse := parseAll_apply ix (ofTokens (Token.scan s))
  dsimp only at hparse
  rw [show atDepth ix maxDepth = outermost ix from rfl] at hfirst hlevel
  rcases hf : (outermost ix).expression .loosest (ofTokens (Token.scan s)) with ⟨o, q⟩
  rw [hf] at hparse hfirst hlevel
  rcases hl : recoverAll ix (outermost ix) o q with ⟨all, q'⟩
  rw [hl] at hparse
  -- a parse that was too deep at any time says so at its end
  have hdeep : q'.tooDeep = true → (parseAll ix (ofTokens (Token.scan s))).2.tooDeep = true := by
    intro ht
    rw [hparse, if_pos ht]
    exact ht
  rcases hfirst with ht | ⟨ho, -, hq⟩
  · have hs := (conserves_recoverAll ix (conserves_atDepth ix maxDepth) o q hlevel).sticky ht
    rw [show atDepth ix maxDepth = outermost ix from rfl, hl] at hs
    exact Or.inl (hdeep hs)
  · have hall := recoverAll_of_end ix (outermost ix) o hq
    obtain ⟨rfl, rfl⟩ := Prod.mk.inj (hall.symm.trans hl)
    by_cases ht : q.tooDeep = true
    · exact Or.inl (hdeep ht)
    · right
      rw [hparse, if_neg ht, show o = some e from ho]
      rfl

/-! ## Letters -/

/-- A letter that begins no trigger is a name, whatever follows it: no upright name is a single
letter. -/
theorem legible_letter {c : Char} (hc : c.isAlpha = true)
    (hl : ∀ kind us, ix.lookup kind (String.ofList [c] :: us) = []) (avoid : List String) :
    Legible ix (.symbol (String.ofList [c])) (String.ofList [c]) [Name.letterToken c]
      65536 65536 avoid where
  scans := by
    refine @Name.scans_letters [c] fun d hd => ?_
    rw [List.mem_singleton.1 hd]
    exact hc
  begins := by
    have hne := Name.not_mem_of_letter hc (show [")", "="].all _ from by decide)
    exact ⟨_, [], rfl, TokenKind.noConfusion, fun h => hne (h ▸ List.mem_cons_self),
      fun h => hne (h ▸ List.mem_cons_of_mem _ List.mem_cons_self)⟩
  opens m _ := by
    have hne := Name.not_mem_of_letter hc
      (show ["\\begin", "\\mathrm", "\\operatorname"].all _ from by decide)
    simp only [List.mem_cons, List.not_mem_nil, or_false, not_or] at hne
    -- no command that makes a name upright is a single letter, so no arguments are asked for
    have hslanted : Name.isUpright (String.ofList [c]) = false := by
      rw [Name.isUpright, beq_eq_false_iff_ne.2 hne.2.1, beq_eq_false_iff_ne.2 hne.2.2]
      rfl
    refine opens_namedSymbol ?_ (fun us => hl .matchfix _) (fun us => hl .prefixOp _)
      (fun us => hl .identifier _) fun n rest _ => ?_
    · exact ⟨TokenKind.noConfusion, TokenKind.noConfusion, TokenKind.noConfusion,
        fun h => TokenKind.noConfusion h.1, hne.1⟩
    · refine reads_namedSymbol (Name.identifier?_letter hc rest) fun hupright => ?_
      rw [show ([Name.letterToken c] ++ rest).head? = some (Name.letterToken c) from rfl,
        Option.any_some, show (Name.letterToken c).raw = String.ofList [c] from rfl, hslanted] at hupright
      cases hupright
  own_le := Nat.le_refl _

/-! ## Parentheses -/

/-- The tokens of parentheses. -/
def leftParen : Token := ⟨"(", .char⟩
def rightParen : Token := ⟨")", .char⟩

/-- An index that reads parentheses as groups. -/
structure Groups (ix : Index) : Prop where
  opens : ∃ entry : IndexedEntry, (∀ us, ix.lookup .matchfix ("(" :: us) = [(1, entry)]) ∧
    entry.role.close? = some [")"] ∧ entry.parse = some Lexicon.Structure.parseGroup
  closes : ∀ k us avoid, ")" ∉ avoid → Ends ix k avoid (rightParen :: us)

theorem plain_leftParen : Plain leftParen where
  number := by decide
  openGroup := by decide
  closeGroup := by decide
  text := by decide
  begin := by decide

theorem Legible.group (hg : Groups ix) {e : Expr} {s : String} {ts : List Token} {own edge : Nat}
    {avoid : List String} (h : Legible ix e s ts own edge avoid) (havoid : ")" ∉ avoid)
    (he : e.isApply "Sequence" = false) (avoid' : List String) :
    Legible ix e ("(" ++ s ++ ")") (leftParen :: ts ++ [rightParen]) 65536 65536 avoid' where
  scans := by
    have hin := h.scans.concat (c := ')') (by decide) (by decide)
      (fun c hc => by rw [← Option.some.inj hc]; decide)
    rw [String.append_assoc]
    exact hin.cons (c := '(') (by decide) (by decide)
  begins := ⟨leftParen, _, rfl, ⟨by decide, by decide, by decide⟩⟩
  opens m _ := by
    obtain ⟨entry, hl, hc, hp⟩ := hg.opens
    obtain ⟨t, us, rfl, ht⟩ := h.begins
    refine opens_fence plain_leftParen (fun us => hl _) hc hp (fun us u hu => ?_)
      (h.opens .loosest (Nat.zero_le _)) (hg.closes 0 · avoid havoid) fun n us => reads_parseGroup he us
    rw [← Option.some.inj hu]
    exact ht.close
  own_le := Nat.le_refl _

/-- An operand is read at the precedence its place asks for, in parentheses or not. -/
theorem Legible.held (hg : Groups ix) {r : Renderer} {e : Expr} {s : String} {ts : List Token}
    {own edge : Nat} {avoid : List String} (h : Legible ix e s ts own edge avoid)
    (havoid : ")" ∉ avoid) (he : e.isApply "Sequence" = false)
    {p : Precedence} (hp : r.bindsLooser e s p = false → p.val ≤ own) :
    ∃ ts' own' edge', Legible ix e (r.held e s p) ts' own' edge' avoid ∧ p.val ≤ own' ∧
      (own' = own ∧ edge' = edge ∨ edge' = 65536) := by
  unfold Renderer.held
  cases hl : r.bindsLooser e s p with
  | true =>
    rw [if_pos rfl]
    exact ⟨_, 65536, 65536, h.group hg havoid he avoid, Nat.le_of_lt p.isLt, Or.inr rfl⟩
  | false =>
    rw [if_neg Bool.false_ne_true]
    exact ⟨ts, own, edge, h, hp hl, Or.inl ⟨rfl, rfl⟩⟩

/-! ## Operators -/

section Operators

variable {a b e : Expr} {s sa sb : String} {ta tb : List Token} {oa ea ob eb : Nat}
variable {avoid avoid' : List String}
variable {op : Token} {entry : IndexedEntry} {p : Precedence} {assoc : Associativity}

/-- An operator between operands, given what its entry makes of the one on the right. -/
theorem Legible.infixWith (ha : Legible ix a sa ta oa ea avoid) (ops : List Token)
    (others : List Token → List (Nat × IndexedEntry)) (hpa : p.val ≤ oa) (hea : p.val < ea)
    (hs : Scans s (ta ++ (op :: ops ++ tb)))
    (hc : ∀ us, operatorCandidates ix (Token.raws (op :: ops ++ tb ++ us)) =
      ((op :: ops).length, entry) :: others us)
    (hrole : entry.role = .infixOp p assoc) (hop : op.raw ∉ avoid) {edge : Nat}
    (hedge : p.val ≤ edge) (happ : ∀ n us, Ends ix edge avoid' us →
      Reads n (applyOperator (atDepth ix n) entry a p) tb (some e) us) :
    Legible ix e s (ta ++ (op :: ops ++ tb)) p.val edge avoid' where
  scans := hs
  begins := by
    obtain ⟨t, us, rfl, ht⟩ := ha.begins
    exact ⟨t, _, rfl, ht⟩
  opens m hm :=
    (ha.opens m (Nat.le_trans hm hpa)).operator ops (fun us _ => ⟨_, hc us⟩)
      (by rw [IndexedEntry.precedence?, hrole]; rfl) (Fin.le_def.2 hm) hea hop happ
  own_le := hedge

theorem le_rightPrecedence (assoc : Associativity) (p : Precedence) :
    p.val ≤ (rightPrecedence assoc p).val := by
  cases assoc with
  | left => exact Precedence.le_tighter p
  | right => exact Nat.le_refl _

theorem Legible.infixOp (ha : Legible ix a sa ta oa ea avoid) (ops : List Token)
    (others : List Token → List (Nat × IndexedEntry)) (hpa : p.val ≤ oa) (hea : p.val < ea)
    (hb : Legible ix b sb tb ob eb avoid') (hpb : (rightPrecedence assoc p).val ≤ ob)
    (hs : Scans s (ta ++ (op :: ops ++ tb)))
    (hc : ∀ us, operatorCandidates ix (Token.raws (op :: ops ++ tb ++ us)) =
      ((op :: ops).length, entry) :: others us)
    (hrole : entry.role = .infixOp p assoc) (hparse : entry.parse = none)
    (hop : op.raw ∉ avoid) :
    Legible ix (.apply entry.head [a, b]) s (ta ++ (op :: ops ++ tb)) p.val
      (rightPrecedence assoc p).val avoid' :=
  ha.infixWith ops others hpa hea hs hc hrole hop (le_rightPrecedence assoc p) fun n _ hends =>
    reads_applyOperator_infixOp hrole hparse (hb.reads hpb hends n)

/-- An operator after its operand. What comes next may have to be kept from going on with it. -/
theorem Legible.postfixOp (ha : Legible ix a sa ta oa ea avoid) {own : Nat} (hown : own ≤ oa)
    (hpo : own ≤ p.val) (hea : p.val < ea) (hs : Scans s (ta ++ [op])) (avoid' : List String)
    (hc : ∀ us, (∀ u ∈ us.head?, u.raw ∉ avoid') →
      operatorCandidates ix (Token.raws (op :: us)) = [(1, entry)])
    (hrole : entry.role = .postfixOp p) (hparse : entry.parse = none) (hop : op.raw ∉ avoid)
    (hseq : Expr.splat (some a) = [a]) :
    Legible ix (.apply entry.head [a]) s (ta ++ [op]) own 65536 avoid' where
  scans := hs
  begins := by
    obtain ⟨t, us, rfl, ht⟩ := ha.begins
    exact ⟨t, _, rfl, ht⟩
  opens m hm :=
    (ha.opens m (Nat.le_trans hm hown)).operator [] (fun us hends => ⟨[], hc us hends.calm⟩)
      (by rw [IndexedEntry.precedence?, hrole]; rfl) (Fin.le_def.2 (Nat.le_trans hm hpo)) hea hop
      fun n us _ => reads_applyOperator_postfixOp hrole hparse hseq us
  own_le := Nat.le_of_lt (Nat.lt_of_le_of_lt hpo p.isLt)

/-- An operator before its operand, which it reads one step tighter. -/
theorem legible_prefixWith (hs : Scans s (op :: tb)) (hop : Plain op) (hbegins : Begins op)
    (hm : ∀ us, ix.lookup .matchfix (Token.raws (op :: tb ++ us)) = [])
    (hc : ∀ us, ix.lookup .prefixOp (Token.raws (op :: tb ++ us)) = [(1, entry)])
    (happ : ∀ n m us, m.val ≤ p.val → Ends ix p.tighter.val avoid us →
      Reads n (tryPrefixOp (atDepth ix n) m (1, entry)) (op :: tb) (some e) us) :
    Legible ix e s (op :: tb) p.val p.tighter.val avoid where
  scans := hs
  begins := ⟨op, tb, rfl, hbegins⟩
  opens m hmp := opens_prefixOp hop hm hc fun n us hends => happ n m us hmp hends
  own_le := Precedence.le_tighter p

theorem Legible.prefixOp (hb : Legible ix b sb tb ob eb avoid) (hpb : p.tighter.val ≤ ob)
    (hs : Scans s (op :: tb)) (hop : Plain op) (hbegins : Begins op)
    (hm : ∀ us, ix.lookup .matchfix (Token.raws (op :: tb ++ us)) = [])
    (hc : ∀ us, ix.lookup .prefixOp (Token.raws (op :: tb ++ us)) = [(1, entry)])
    (hrole : entry.role = .prefixOp p) (hparse : entry.parse = none) :
    Legible ix (.apply entry.head [b]) s (op :: tb) p.val p.tighter.val avoid := by
  refine legible_prefixWith hs hop hbegins hm hc fun n m us hmp hends => ?_
  refine reads_tryPrefixOp (by rw [IndexedEntry.precedence?, hrole]; rfl) hparse ?_
  rw [Precedence.tighter_tighterOf hmp]
  exact hb.reads hpb hends n

end Operators

end Parser
end MathMarkup
