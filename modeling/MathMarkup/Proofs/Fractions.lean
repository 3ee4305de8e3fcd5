import MathMarkup.Proofs.StandardRoundTrip

/-!
# Fractions in two styles

Expressions of letters and integers under quotients and powers, rendered in either of the two styles
that are read back as quotients. With a fraction bar they come back as they are. With a solidus
between numerator and denominator they come back regrouped: `/` groups on the left and binds looser
than `^`, but the renderer holds a quotient as if it stood by itself, since the entry that gives
quotients their name is a function without a precedence. `Fraction.regroup` is what is read, and
`Fraction.regroup_eq_iff` says which expressions it leaves alone: those where no quotient is a
denominator or the base of a power.
-/

namespace MathMarkup
namespace Standard

open MathMarkup.Lexer MathMarkup.Parser MathMarkup.Reading

/-- Letters and integers under quotients and powers. -/
inductive Fraction where
  | letter (c : Char) (hc : c.isAlpha = true)
  | integer (ds : List Char) (hds : Numeral.Canonical ds)
  | quotient (numerator denominator : Fraction)
  | power (base exponent : Fraction)

namespace Fraction

/-- The expression. -/
def expr : Fraction → Expr
  | letter c _ => .symbol (String.ofList [c])
  | integer ds _ => .number (String.ofList ds)
  | quotient n d => .apply "Divide" [n.expr, d.expr]
  | power b x => .apply "Power" [b.expr, x.expr]

def isQuotient : Fraction → Bool
  | quotient _ _ => true
  | _ => false

def isPower : Fraction → Bool
  | power _ _ => true
  | _ => false

/-! ## What a solidus groups -/

/-- A quotient whose denominator may be written with a solidus itself. -/
def divide (n : Fraction) : Fraction → Fraction
  | quotient a b => quotient (n.divide a) b
  | d => quotient n d

/-- A power whose base may be written with a solidus. -/
def raise : Fraction → Fraction → Fraction
  | quotient a b, x => quotient a (power b x)
  | b, x => power b x

/-- What is read where quotients are written with a solidus and only powers get parentheses, as the
bases of other powers. -/
def regroup : Fraction → Fraction
  | quotient n d => n.regroup.divide d.regroup
  | power b x => if b.isPower then power b.regroup x.regroup else b.regroup.raise x.regroup
  | q => q

/-- No quotient is a denominator or the base of a power. -/
def grouped : Fraction → Bool
  | quotient n d => !d.isQuotient && n.grouped && d.grouped
  | power b x => !b.isQuotient && b.grouped && x.grouped
  | _ => true

/-- The number of letters and integers. -/
def atoms : Fraction → Nat
  | quotient n d => n.atoms + d.atoms
  | power b x => b.atoms + x.atoms
  | _ => 1

theorem divide_of_not_quotient (n : Fraction) {d : Fraction} (h : d.isQuotient = false) :
    n.divide d = quotient n d := by
  cases d with
  | quotient a b => exact absurd h Bool.noConfusion
  | _ => rfl

theorem raise_of_not_quotient {b : Fraction} (h : b.isQuotient = false) (x : Fraction) :
    b.raise x = power b x := by
  cases b with
  | quotient a b => exact absurd h Bool.noConfusion
  | _ => rfl

theorem atoms_pos (q : Fraction) : 0 < q.atoms := by
  induction q with
  | letter | integer => exact Nat.one_pos
  | quotient n d ihn _ => exact Nat.add_pos_left ihn _
  | power b x ihb _ => exact Nat.add_pos_left ihb _

theorem atoms_divide (n d : Fraction) : (n.divide d).atoms = n.atoms + d.atoms := by
  induction d with
  | quotient a b iha _ =>
    show (n.divide a).atoms + b.atoms = n.atoms + (a.atoms + b.atoms)
    omega
  | _ => rfl

theorem atoms_raise (b x : Fraction) : (b.raise x).atoms = b.atoms + x.atoms := by
  cases b with
  | quotient a b => exact (Nat.add_assoc a.atoms b.atoms x.atoms).symm
  | _ => rfl

/-- Regrouping keeps the letters and integers. -/
theorem atoms_regroup (q : Fraction) : q.regroup.atoms = q.atoms := by
  induction q with
  | letter | integer => rfl
  | quotient n d ihn ihd =>
    show (n.regroup.divide d.regroup).atoms = n.atoms + d.atoms
    rw [atoms_divide, ihn, ihd]
  | power b x ihb ihx =>
    show (if b.isPower then power b.regroup x.regroup else b.regroup.raise x.regroup).atoms =
      b.atoms + x.atoms
    split
    · show b.regroup.atoms + x.regroup.atoms = _
      rw [ihb, ihx]
    · rw [atoms_raise, ihb, ihx]

/-- Regrouping a quotient whose parts stay the same. -/
theorem regroup_quotient_eq_iff {n d : Fraction} : (quotient n d).regroup = quotient n d ↔
    d.isQuotient = false ∧ n.regroup = n ∧ d.regroup = d := by
  show n.regroup.divide d.regroup = quotient n d ↔ _
  constructor
  · intro h
    cases hd : d.regroup with
    | quotient a b =>
      -- the numerator would be a larger quotient than it is
      rw [hd] at h
      obtain ⟨hn, -⟩ := Fraction.quotient.inj h
      have hatoms := congrArg atoms hn
      rw [atoms_divide, atoms_regroup] at hatoms
      have := atoms_pos a
      omega
    | letter | integer | power =>
      rw [hd] at h
      obtain ⟨hn, rfl⟩ := Fraction.quotient.inj h
      exact ⟨rfl, hn, rfl⟩
  · rintro ⟨hd, hn, hd'⟩
    rw [hn, hd', divide_of_not_quotient n hd]

theorem regroup_power_eq_iff {b x : Fraction} : (power b x).regroup = power b x ↔
    b.isQuotient = false ∧ b.regroup = b ∧ x.regroup = x := by
  show (if b.isPower then power b.regroup x.regroup else b.regroup.raise x.regroup) = power b x ↔ _
  constructor
  · intro h
    split at h
    next hb =>
      obtain ⟨hb', hx⟩ := Fraction.power.inj h
      refine ⟨?_, hb', hx⟩
      cases b with
      | power => rfl
      | _ => exact absurd hb Bool.false_ne_true
    next =>
      -- a base that is no power is raised, which gives a quotient just if the base is one
      cases hb : b.regroup with
      | quotient a c =>
        rw [hb] at h
        exact Fraction.noConfusion h
      | letter | integer | power =>
        rw [hb] at h
        obtain ⟨rfl, hx⟩ := Fraction.power.inj h
        exact ⟨rfl, rfl, hx⟩
  · rintro ⟨hb, hb', hx⟩
    rw [hb', hx, raise_of_not_quotient hb, ite_self]

/-- Regrouping leaves an expression alone just if no quotient is a denominator or the base of a
power in it. -/
theorem regroup_eq_iff (q : Fraction) : q.regroup = q ↔ q.grouped = true := by
  induction q with
  | letter | integer => exact iff_of_true rfl rfl
  | quotient n d ihn ihd =>
    rw [regroup_quotient_eq_iff, ihn, ihd, grouped, Bool.and_eq_true, Bool.and_eq_true,
      Bool.not_eq_true', and_assoc]
  | power b x ihb ihx =>
    rw [regroup_power_eq_iff, ihb, ihx, grouped, Bool.and_eq_true, Bool.and_eq_true,
      Bool.not_eq_true', and_assoc]

theorem expr_injective : Function.Injective expr := by
  intro q
  -- on one of them; the heads and the kinds of the leaves tell the constructors apart
  induction q with
  | letter c hc =>
    intro q' h
    cases q' with
    | letter c' hc' =>
      obtain rfl := (List.cons.inj (String.ofList_injective (Expr.symbol.inj h))).1
      rfl
    | _ => exact Expr.noConfusion h
  | integer ds hds =>
    intro q' h
    cases q' with
    | integer ds' hds' =>
      obtain rfl := String.ofList_injective (Expr.number.inj h)
      rfl
    | _ => exact Expr.noConfusion h
  | quotient n d ihn ihd =>
    intro q' h
    cases q' with
    | quotient n' d' =>
      obtain ⟨hn, hd⟩ := List.cons.inj (Expr.apply.inj h).2
      rw [ihn hn, ihd (List.cons.inj hd).1]
    | power => exact absurd (Expr.apply.inj h).1 (by decide)
    | _ => exact Expr.noConfusion h
  | power b x ihb ihx =>
    intro q' h
    cases q' with
    | power b' x' =>
      obtain ⟨hb, hx⟩ := List.cons.inj (Expr.apply.inj h).2
      rw [ihb hb, ihx (List.cons.inj hx).1]
    | quotient => exact absurd (Expr.apply.inj h).1 (by decide)
    | _ => exact Expr.noConfusion h

/-- A quotient or a power is an arithmetic expression. -/
theorem arithmetic (q : Fraction) : Arithmetic q.expr := by
  induction q with
  | letter c hc => exact .letter hc
  | integer ds hds => exact .integer hds
  | quotient n d ihn ihd => exact .binary (by decide) ihn ihd
  | power b x ihb ihx => exact .binary (by decide) ihb ihx

/-- None of these expressions is put into parentheses for what it is by itself. -/
theorem isShortFenced_expr (q : Fraction) : Renderer.isShortFenced q.expr = false := by
  cases q with
  | integer ds hds =>
    show (!(String.ofList ds).toList.all Char.isDigit) = false
    rw [String.toList_ofList, Bool.not_eq_false', List.all_eq_true]
    exact hds.digits
  | _ => rfl

end Fraction

/-! ## Rendering with a solidus -/

/-- The renderer of the standard lexicon that writes quotients with a solidus. -/
def solidusRenderer (canonical : Bool) : Renderer :=
  { options := { fractionStyle := .constant .inlineSolidus }, index := Index.standard, canonical }

variable {canonical : Bool}

/-- The markup of a base in its place. -/
def solidusBase (canonical : Bool) (e : Expr) (s : String) : String :=
  if Renderer.isShortFenced e || (solidusRenderer canonical).bindsLooser e s (720 : Precedence).tighter
  then "(" ++ s ++ ")" else s

theorem renders_solidus {a b : Fraction} {sa sb : String}
    (ha : (solidusRenderer canonical).Renders a.expr sa)
    (hb : (solidusRenderer canonical).Renders b.expr sb) :
    (solidusRenderer canonical).Renders (Fraction.quotient a b).expr
      (append (append sa "/") sb) := by
  obtain ⟨f, hf, hn, -, -, hu, -, hrender⟩ := exists_divide
  -- without a fraction bar the parts are asked for as short operands
  have hpart : ∀ {q : Fraction} {s : String}, (solidusRenderer canonical).Renders q.expr s →
      q.expr ∈ (Fraction.quotient a b).expr.operands → ∀ level,
        Renderer.Answers (solidusRenderer canonical)
          ((solidusRenderer canonical).under (Fraction.quotient a b).expr)
          (RenderRoutine.wrapShort q.expr level) s := by
    intro q s hq hm level
    refine Renderer.answers_ask ?_
    show Renderer.wrapShort _ _ q.expr level = pure s
    unfold Renderer.wrapShort
    rw [hq.under hm, pure_bind, q.isShortFenced_expr, if_neg Bool.false_ne_true]
  have hroutine : (f.indexed .function).render = some Lexicon.Arithmetic.renderDivide := by
    simp only [Entry.indexed, hrender]
  refine Renderer.renders_routine (byName?_standard hf hu hn) hroutine fun level => ?_
  refine Renderer.answers_options.bind ?_
  refine (hpart ha List.mem_cons_self _).bind ?_
  refine (hpart hb (List.mem_cons_of_mem _ List.mem_cons_self) _).bind ?_
  rw [← Template.fill_infixOp (w := "/") ⟨by decide, [], '/', rfl, by decide⟩]
  exact Renderer.answers_pure _

theorem renders_solidusPower {b x : Fraction} {sb sx : String}
    (hb : (solidusRenderer canonical).Renders b.expr sb)
    (hx : (solidusRenderer canonical).Renders x.expr sx) :
    (solidusRenderer canonical).Renders (Fraction.power b x).expr
      (solidusBase canonical b.expr sb ++ (String.ofList ['^'] ++ "\x7b") ++ sx ++ "\x7d") := by
  obtain ⟨f, hs, hrender⟩ := exists_power
  have hroutine : (f.indexed (.infixOp 720 f.associativity)).render =
      some Lexicon.Arithmetic.renderPower := by
    simp only [Entry.indexed, hrender]
  refine Renderer.renders_routine (byName?_standard hs.mem hs.usable hs.name) hroutine
    fun level => ?_
  -- the base may need parentheses, the exponent is in braces
  have hbase : Renderer.Answers (solidusRenderer canonical)
      ((solidusRenderer canonical).under (Fraction.power b x).expr)
      (RenderRoutine.wrapBase b.expr 720 (level + 1)) (solidusBase canonical b.expr sb) := by
    refine Renderer.answers_ask ?_
    show Renderer.wrapBase _ _ b.expr 720 (level + 1) = _
    unfold Renderer.wrapBase
    rw [hb.under List.mem_cons_self, pure_bind]
    rfl
  refine Renderer.answers_options.bind ?_
  refine hbase.bind ?_
  refine (Renderer.answers_render
    (hx.under (List.mem_cons_of_mem _ List.mem_cons_self) _)).bind ?_
  exact Renderer.answers_pure _

/-! ## Chains of quotients -/

/-- The token of a solidus. -/
def solidus : Token := ⟨"/", .char⟩

/-- The entry of the solidus. -/
structure IsSolidus (f : Entry) : Prop where
  mem : f ∈ Lexicon.standard
  kind : f.kind = .infixOp
  trigger : f.trigger = ["/"]
  precedence : f.precedence = some 600
  associativity : f.associativity = .left
  clear : Clear f .infixOp [.postfixOp]
  plain : (f.indexed (.infixOp 600 f.associativity)).parse = none
  head : (f.indexed (.infixOp 600 f.associativity)).head = "Divide"

theorem exists_solidus : ∃ f, IsSolidus f := by
  obtain ⟨f, hf, hk, ht, hp, ha, hn, hparse⟩ : ∃ f ∈ Lexicon.standard, f.kind = .infixOp ∧
      f.trigger = Entry.triggerTokens "/" ∧ f.precedence = some 600 ∧ f.associativity = .left ∧
      f.name = none ∧ f.parse = some (.aliasOf "Divide") :=
    ⟨_, mem_standard (c := .arithmetic) (List.mem_of_getElem? (i := 7) rfl), rfl, rfl, rfl, rfl,
      rfl, rfl⟩
  rw [show Entry.triggerTokens "/" = ["/"] from triggerTokens_of_isSign (by decide) rfl] at ht
  have hclear : isClear f .infixOp [.postfixOp] = true := by
    rw [isClear, ht]
    decide +kernel
  refine ⟨f, hf, hk, ht, hp, ha, clear_of_isClear hclear, ?_, ?_⟩
  · simp only [Entry.indexed, hparse]
  · simp only [IndexedEntry.head, Entry.indexed, Entry.aliasName?, hparse, hn]
    rfl

theorem IsSolidus.connects {f : Entry} (h : IsSolidus f) (n : Expr) :
    Connects f 600 n fun d => .apply "Divide" [n, d] := by
  refine ⟨h.mem, h.kind, h.precedence, h.clear, ?_, fun hr => ?_, fun d => rfl, fun d => rfl⟩
  · rw [h.trigger]
    decide
  · rw [← h.head]
    exact reads_applyOperator_infixOp rfl h.plain hr

/-- The markup of an expression, as a chain of quotients. The parts of a chain are no quotients
themselves, unless they are in parentheses. -/
inductive Chained : Fraction → String → List Token → Prop where
  | single {q : Fraction} {s : String} {ts : List Token} {avoid : List String}
      (hq : q.isQuotient = false) (h : Readable q.expr s ts 720 65536 avoid) : Chained q s ts
  | quotient {n d : Fraction} {s sn sd : String} {tn td : List Token} {avoid : List String}
      (hn : Chained n sn tn) (hd : d.isQuotient = false)
      (h : Readable d.expr sd td 720 65536 avoid) (hs : Scans s (tn ++ (solidus :: td))) :
      Chained (.quotient n d) s (tn ++ (solidus :: td))

theorem Chained.scans {q : Fraction} {s : String} {ts : List Token} (h : Chained q s ts) :
    Scans s ts := by
  cases h with
  | single _ h => exact h.legible.scans
  | quotient _ _ _ hs => exact hs

theorem scans_solidus {sa sb : String} {ta tb : List Token} (ha : Scans sa ta) (hb : Scans sb tb)
    (hne : tb ≠ []) : Scans (append (append sa "/") sb) (ta ++ (solidus :: tb)) :=
  (joins_sign (w := "/") (by decide)).between ha hb hne

/-- A chain is read from the left. -/
theorem Chained.readable {q : Fraction} {s : String} {ts : List Token} (h : Chained q s ts) :
    ∃ own edge avoid, Readable q.expr s ts own edge avoid ∧ 600 ≤ own ∧ 600 < edge := by
  induction h with
  | single _ h => exact ⟨720, 65536, _, h, by decide, by decide⟩
  | @quotient n d _ _ _ _ _ _ _ _ hd hs ihn =>
    obtain ⟨f, hf⟩ := exists_solidus
    obtain ⟨own, edge, avoid, hn, hown, hedge⟩ := ihn
    have hcalm := (hf.connects n.expr).calm hn.wary fun he => by
      rw [hf.trigger] at he
      exact absurd he (by decide)
    have hright : rightPrecedence f.associativity 600 = 601 := by
      rw [hf.associativity]
      rfl
    have hread := (hf.connects n.expr).readable hn.legible hown hedge hcalm hd
      (by rw [hright]; decide)
    rw [hf.trigger, show signTokens (join ["/"]) = [solidus] from by decide, List.append_assoc,
      hright] at hread
    exact ⟨600, 601, _, hread.respell hs, Nat.le_refl _, by decide⟩

/-- A denominator that is a chain goes on with the chain of the numerator. -/
theorem Chained.divide {n d : Fraction} {s sn sd : String} {tn td : List Token}
    (hn : Chained n sn tn) (hd : Chained d sd td) (hs : Scans s (tn ++ (solidus :: td))) :
    Chained (n.divide d) s (tn ++ (solidus :: td)) := by
  induction hd generalizing s with
  | @single d _ _ _ hq h =>
    rw [n.divide_of_not_quotient hq]
    exact .quotient hn hq h hs
  | @quotient a b _ sa _ ta tb _ ha hb h _ iha =>
    obtain ⟨_, _, _, hread, -⟩ := ha.readable
    have hfirst := iha (scans_solidus hn.scans ha.scans hread.legible.ne_nil)
    rw [show tn ++ solidus :: (ta ++ solidus :: tb) = tn ++ solidus :: ta ++ solidus :: tb by simp]
      at hs ⊢
    exact .quotient hfirst hb h hs

/-- An exponent belongs to the last part of a chain. -/
theorem Chained.raise {b x : Fraction} {sb sx : String} {tb tx : List Token}
    (hb : Chained b sb tb) (hx : Chained x sx tx) :
    Chained (b.raise x) (sb ++ (String.ofList ['^'] ++ "\x7b") ++ sx ++ "\x7d")
      (tb ++ (loneToken '^' :: (leftBrace :: tx ++ [rightBrace]))) := by
  obtain ⟨_, _, _, hx', -⟩ := hx.readable
  cases hb with
  | single hq h =>
    rw [Fraction.raise_of_not_quotient hq]
    exact .single rfl (readable_power h (Nat.le_refl _) (by decide) hx')
  | @quotient n d _ sn sd tn td _ hn hd h hs =>
    obtain ⟨f, hpower, -⟩ := exists_power
    have hwhole := hpower.scans hs hx.scans
    rw [List.append_assoc, List.cons_append] at hwhole ⊢
    exact .quotient hn rfl (readable_power h (Nat.le_refl _) (by decide) hx') hwhole

/-- A base in parentheses. -/
theorem Chained.group {b x : Fraction} {sb sx : String} {tb tx : List Token}
    (hb : Chained b sb tb) (hx : Chained x sx tx) :
    ∃ ts, Chained (.power b x)
      ("(" ++ sb ++ ")" ++ (String.ofList ['^'] ++ "\x7b") ++ sx ++ "\x7d") ts := by
  obtain ⟨_, _, _, hb', -⟩ := hb.readable
  obtain ⟨_, _, _, hx', -⟩ := hx.readable
  exact ⟨_, .single rfl (readable_power hb'.group (by decide) (by decide) hx')⟩

/-! ## What is read back -/

theorem precedenceOf?_divide : (solidusRenderer canonical).precedenceOf? "Divide" = none := by
  obtain ⟨f, hf, hn, -, -, hu, -, -⟩ := exists_divide
  show (Index.standard.byName? "Divide").bind _ = _
  rw [byName?_standard hf hu hn]
  rfl

/-- Quotients are never put into parentheses as bases, powers always are. -/
theorem solidusBase_quotient (n d : Fraction) (s : String) :
    solidusBase canonical (Fraction.quotient n d).expr s = s := by
  have hloose : (solidusRenderer canonical).bindsLooser (Fraction.quotient n d).expr s
      (720 : Precedence).tighter = false := by
    unfold Renderer.bindsLooser
    show (if _ then _ else _) = false
    rw [if_neg (by decide), precedenceOf?_divide]
  unfold solidusBase
  rw [Fraction.isShortFenced_expr, hloose, Bool.or_self, if_neg Bool.false_ne_true]

theorem solidusBase_power (b x : Fraction) (s : String) :
    solidusBase canonical (Fraction.power b x).expr s = "(" ++ s ++ ")" := by
  have hprec : (solidusRenderer canonical).precedenceOf? "Power" = some 720 :=
    @precedenceOf?_power canonical
  have hloose : (solidusRenderer canonical).bindsLooser (Fraction.power b x).expr s
      (720 : Precedence).tighter = true :=
    (Renderer.bindsLooser_apply hprec (by decide) (by decide) _ s _).trans (by decide)
  unfold solidusBase
  rw [hloose, Bool.or_true, if_pos rfl]

theorem renders_letter {c : Char} (hc : c.isAlpha = true) :
    (solidusRenderer canonical).Renders (Fraction.letter c hc).expr (String.ofList [c]) := by
  have hr := @Renderer.renders_unnamed (solidusRenderer canonical) _ (byName?_letter c)
  rw [Name.encode_letter hc] at hr
  exact hr

/-- An expression that stands by itself is a chain of one part. -/
theorem chained_closed {q : Fraction} {s : String} {ts : List Token} (hq : q.isQuotient = false)
    (hl : Legible Index.standard q.expr s ts 65536 65536 extending) (hb : "!" ∉ Token.raws ts)
    (hs : q.expr.strip = q.expr) (hno : q.expr.isApply "Sequence" = false) : Chained q s ts :=
  .single hq (readable_closed (hl.mono (by decide)) (fun _ => id)
    (fun h => hb (List.mem_of_getLast? h)) hs hno)

/-- With a solidus an expression is rendered as a chain, and what that is the chain of is the
regrouped expression. -/
theorem exists_chained (canonical : Bool) (q : Fraction) : ∃ s ts,
    (solidusRenderer canonical).Renders q.expr s ∧ Chained q.regroup s ts := by
  induction q with
  | letter c hc =>
    have hl := legible_standardLetter hc extending
    exact ⟨_, _, renders_letter hc, chained_closed rfl hl (bang_not_mem_letter hc) rfl rfl⟩
  | integer ds hds =>
    exact ⟨_, _, Renderer.renders_number (Numeral.render_canonical hds),
      chained_closed rfl (legible_integer hds) (bang_not_mem_integer hds) rfl rfl⟩
  | quotient n d ihn ihd =>
    obtain ⟨sn, tn, hn, hn'⟩ := ihn
    obtain ⟨sd, td, hd, hd'⟩ := ihd
    obtain ⟨_, _, _, hread, -⟩ := hd'.readable
    exact ⟨_, _, renders_solidus hn hd,
      hn'.divide hd' (scans_solidus hn'.scans hd'.scans hread.legible.ne_nil)⟩
  | power b x ihb ihx =>
    obtain ⟨sb, tb, hb, hb'⟩ := ihb
    obtain ⟨sx, tx, hx, hx'⟩ := ihx
    have hrenders := renders_solidusPower hb hx
    cases b with
    | quotient n d =>
      rw [solidusBase_quotient] at hrenders
      exact ⟨_, _, hrenders, hb'.raise hx'⟩
    | power b' x' =>
      rw [solidusBase_power] at hrenders
      obtain ⟨ts, hts⟩ := hb'.group hx'
      exact ⟨_, ts, hrenders, hts⟩
    | letter | integer =>
      -- in parentheses or not, these are read as the base
      unfold solidusBase at hrenders
      split at hrenders
      · obtain ⟨ts, hts⟩ := hb'.group hx'
        exact ⟨_, ts, hrenders, hts⟩
      · exact ⟨_, _, hrenders, hb'.raise hx'⟩

/-- What comes back in either style. With a fraction bar an expression is parsed back as it is. With
a solidus it is parsed as the regrouped expression, which is the same just if no quotient is a
denominator or the base of a power in it. Either way it must not nest too deeply. -/
theorem parse_render_fraction (q : Fraction) (canonical : Bool) (style : FractionStyle) :
    let t : Transcoder := { options := { fractionStyle := .constant style } }
    let markup := (t.render q.expr canonical).1
    (reading markup).2.tooDeep = false →
      (style = .quotient → (t.parse markup).1 = q.expr) ∧
      (style = .inlineSolidus → (t.parse markup).1 = q.regroup.expr ∧
        ((t.parse markup).1 = q.expr ↔ q.grouped = true)) := by
  intro t markup hdeep
  refine ⟨?_, ?_⟩
  · rintro rfl
    exact parse_render_of_arithmetic q.arithmetic canonical hdeep
  · rintro rfl
    obtain ⟨s, ts, hs, hchain⟩ := exists_chained canonical q
    have hmarkup : markup = s := by
      show ((solidusRenderer canonical).render q.expr 0 []).1 = s
      rw [hs 0]
      rfl
    obtain ⟨_, _, _, hread, -⟩ := hchain.readable
    -- the markup is a chain of the regrouped expression, so that is what is read
    have hparse : (t.parse markup).1 = q.regroup.expr := by
      rw [hmarkup] at hdeep ⊢
      show (({} : Transcoder).parse s).1 = _
      rw [parse_eq]
      exact (hread.legible.parse arranged).resolve_left fun hd =>
        absurd (hd.symm.trans hdeep) (by decide)
    refine ⟨hparse, ?_⟩
    rw [hparse, ← q.regroup_eq_iff]
    exact Fraction.expr_injective.eq_iff

/-- A quotient with a quotient as its numerator, and a power in that one's denominator. -/
def sampleFraction : Fraction :=
  .quotient (.quotient (.letter 'a' rfl) (.power (.letter 'b' rfl) (.integer ['1', '2'] (by decide))))
    (.letter 'c' rfl)

theorem parse_render_sampleFraction :
    let t : Transcoder := { options := { fractionStyle := .constant .inlineSolidus } }
    let markup := (t.render sampleFraction.expr true).1
    markup = "a/b^\x7b12\x7d/c" ∧ (reading markup).2.tooDeep = false ∧
      (t.parse markup).1 = sampleFraction.expr := by
  intro t markup
  obtain ⟨hmarkup, hdeep⟩ : markup = "a/b^\x7b12\x7d/c" ∧ (reading markup).2.tooDeep = false := by
    decide +kernel
  have hstyle := (parse_render_fraction sampleFraction true .inlineSolidus hdeep).2 rfl
  exact ⟨hmarkup, hdeep, hstyle.2.2 (by decide)⟩

/-- A power of a quotient. -/
def quotientPower : Fraction :=
  .power (.quotient (.letter 'a' rfl) (.letter 'b' rfl)) (.letter 'c' rfl)

/-- So the style does change what is read: with a solidus the power of a quotient has its exponent
on the denominator. -/
theorem exists_parse_render_fraction_ne : ¬ ∀ (q : Fraction) (style : FractionStyle),
    style ∈ [FractionStyle.quotient, .inlineSolidus] →
      let t : Transcoder := { options := { fractionStyle := .constant style } }
      let markup := (t.render q.expr true).1
      (reading markup).2.tooDeep = false → (t.parse markup).1 = q.expr := by
  intro h
  let t : Transcoder := { options := { fractionStyle := .constant .inlineSolidus } }
  let markup := (t.render quotientPower.expr true).1
  obtain ⟨hdeep, hne⟩ : (reading markup).2.tooDeep = false ∧
      (t.parse markup).1 ≠ quotientPower.expr := by
    decide +kernel
  exact hne (h quotientPower .inlineSolidus (by decide) hdeep)

end Standard
end MathMarkup
