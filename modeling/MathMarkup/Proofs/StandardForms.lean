import MathMarkup.Proofs.Connectives
import MathMarkup.Proofs.StandardOperands

/-!
# The forms of standard notation

One rule for each form of expression in the standard lexicon: if its operands are read back from
their renderings, then it is read back from its own.
-/

namespace MathMarkup
namespace Standard

open MathMarkup.Lexer MathMarkup.Parser MathMarkup.Reading

/-! ## Entries -/

theorem sign_of_isSign {w : String} (h : isSign w = true) : Template.Sign w := by
  rcases of_isSign h with ⟨hw, -, -⟩ | ⟨cs, rfl, hne, hcs, -⟩
  · obtain ⟨cs, hne, hcs, hl⟩ := hw.letters
    refine ⟨?_, '\\' :: cs.dropLast, cs.getLast hne, ?_, ?_⟩
    · rw [hl, List.mem_cons]
      rintro (h | h)
      · exact absurd h (by decide)
      · exact absurd (hcs _ h) (by decide)
    · rw [hl, List.cons_append, List.dropLast_append_getLast]
    · intro h
      exact absurd (hcs _ (List.getLast_mem hne)) (by rw [h]; decide)
  · rw [← String.toList_ofList (l := cs)] at hcs
    refine ⟨fun h => (hcs _ h).2 rfl, cs.dropLast, cs.getLast hne, ?_, ?_⟩
    · rw [String.toList_ofList, List.dropLast_append_getLast]
    · rw [String.toList_ofList] at hcs
      exact (hcs _ (List.getLast_mem hne)).1.lone.command

/-- The heads whose operands are listed or scripted have routines. -/
theorem name_ne_of_parse_eq_none {f : Entry} (hf : f ∈ Lexicon.standard) (hparse : f.parse = none)
    {head : String} (hn : f.name = some head) :
    head ≠ "Delimiter" ∧ head ≠ "Subscript" ∧ head ≠ "Sequence" := by
  have hall : Lexicon.standard.all fun f => f.parse.isSome ||
      (f.name != some "Delimiter" && f.name != some "Subscript" && f.name != some "Sequence") := by
    decide
  have := List.all_eq_true.1 hall f hf
  rw [hparse, hn, Option.isSome_none, Bool.false_or, Bool.and_eq_true, Bool.and_eq_true,
    bne_iff_ne, bne_iff_ne, bne_iff_ne] at this
  obtain ⟨⟨hd, hs⟩, hq⟩ := this
  exact ⟨fun h => hd (congrArg some h), fun h => hs (congrArg some h),
    fun h => hq (congrArg some h)⟩

theorem precedenceOf?_standard {canonical : Bool} {f : Entry} (hf : f ∈ Lexicon.standard)
    {head : String} (hn : f.name = some head) {role : Role}
    (hu : Index.usable? f = some (f.indexed role)) :
    (renderer canonical).precedenceOf? head = role.precedence? := by
  show (Index.standard.byName? head).bind _ = _
  rw [byName?_standard hf hu hn]
  rfl

/-! ## Operators between operands -/

section Infix

variable {canonical : Bool} {f : Entry} {head : String} {p : Precedence}
variable {a : Expr} {sa : String} {ta : List Token} {oa ea : Nat} {va : List String}
variable {b : Expr} {sb : String} {tb : List Token} {ob eb : Nat} {vb : List String}
variable {mk : Expr → Expr}

/-- The operator with its entry and what the entry makes of the operand on the right. -/
structure Connects (f : Entry) (p : Precedence) (a : Expr) (mk : Expr → Expr) : Prop where
  mem : f ∈ Lexicon.standard
  kind : f.kind = .infixOp
  precedence : f.precedence = some p
  clear : Clear f .infixOp [.postfixOp]
  bang : "!" ∉ f.trigger
  reads : ∀ {b : Expr} {n : Nat} {ts us : List Token},
    Reads n ((Nested.atDepth Index.standard n).expression (rightPrecedence f.associativity p)) ts
      (some b) us →
    Reads n (applyOperator (Nested.atDepth Index.standard n)
      (f.indexed (.infixOp p f.associativity)) a p) ts (some (mk b)) us
  strip : ∀ b, (mk b).strip = mk b
  sequence : ∀ b, (mk b).isApply "Sequence" = false

theorem head_of_begins {t : Token} (ht : Begins t) (us : List Token) :
    ∀ u ∈ (Token.raws (t :: us)).head?, u ∉ goingOn := by
  intro u hu hm
  rw [← Option.some.inj hu] at hm
  exact ht.equals (List.mem_singleton.1 hm)

theorem Connects.legible (h : Connects f p a mk)
    (la : Legible Index.standard a sa ta oa ea va) (hpa : p.val ≤ oa) (hea : p.val < ea)
    (hva : ∀ w ∈ f.trigger.head?, w ∉ va) (lb : Legible Index.standard b sb tb ob eb vb)
    (hpb : (rightPrecedence f.associativity p).val ≤ ob) :
    Legible Index.standard (mk b) (append (append sa (join f.trigger)) sb)
      (ta ++ signTokens (join f.trigger) ++ tb) p.val (rightPrecedence f.associativity p).val
      vb := by
  have hscan := (joins_sign h.clear.sign).between la.scans lb.scans lb.ne_nil
  have htokens := h.clear.tokens
  rw [List.append_assoc]
  -- the first token of the sign finds the operator, the others are skipped with it
  cases hts : signTokens (join f.trigger) with
  | nil =>
    rw [hts] at htokens
    exact absurd htokens.symm h.clear.trigger_ne_nil
  | cons op ops =>
    rw [hts] at hscan htokens
    refine la.infixWith ops (fun _ => []) hpa hea hscan (fun us => ?_) rfl ?_
      (le_rightPrecedence _ _) fun n us hends => h.reads (lb.reads hpb hends n)
    · obtain ⟨t, us', rfl, ht⟩ := lb.begins
      have hfound := operatorCandidates_infixOp h.mem h.kind h.clear h.precedence
        (head_of_begins ht (us' ++ us))
      rw [← htokens, ← raws_append] at hfound
      rw [Token.raws, Token.raws, List.length_map] at hfound
      rw [List.append_assoc]
      exact hfound
    · rw [← htokens] at hva
      exact hva op.raw rfl

theorem Connects.readable (h : Connects f p a mk)
    (la : Legible Index.standard a sa ta oa ea va) (hpa : p.val ≤ oa) (hea : p.val < ea)
    (hva : ∀ w ∈ f.trigger.head?, w ∉ va) (hb : Readable b sb tb ob eb vb)
    (hpb : (rightPrecedence f.associativity p).val ≤ ob) :
    Readable (mk b) (append (append sa (join f.trigger)) sb)
      (ta ++ signTokens (join f.trigger) ++ tb) p.val (rightPrecedence f.associativity p).val vb :=
  hb.extend mk _ _ (fun lb hq _ => h.legible la hpa hea hva lb hq) hpb (h.strip b) (h.sequence b)

/-- What is fused around an operator is so in its operands. -/
theorem Connects.fused (h : Connects f p a mk)
    (hva : (Token.raws ta).getLast? = some "!" → f.trigger.head? ≠ some "=")
    (lb : Legible Index.standard b sb tb ob eb vb) :
    (Fused (ta ++ signTokens (join f.trigger) ++ tb) ↔ Fused ta ∨ Fused tb) ∧
      ("!" ∈ Token.raws (ta ++ signTokens (join f.trigger) ++ tb) →
        "!" ∈ Token.raws ta ∨ "!" ∈ Token.raws tb) := by
  obtain ⟨t, us, rfl, ht⟩ := lb.begins
  -- the sign has no factorial sign, so two tokens fuse in it only across one of its borders
  have hsign : "!" ∉ Token.raws (signTokens (join f.trigger)) := by
    rw [h.clear.tokens]
    exact h.bang
  have hne : signTokens (join f.trigger) ≠ [] := by
    intro hn
    have := h.clear.tokens
    rw [hn] at this
    exact h.clear.trigger_ne_nil this.symm
  constructor
  · rw [fused_append fun _ u hu => by rw [← Option.some.inj hu]; exact ht.equals,
      fused_append fun hl u hu he => ?_, or_assoc]
    · exact or_congr_right ⟨fun hf => hf.resolve_left (not_fused hsign), Or.inr⟩
    · refine hva hl ?_
      rw [← h.clear.tokens, Token.raws, List.head?_map, hu, Option.map_some, he]
  · intro hm
    rw [raws_append, raws_append, List.mem_append, List.mem_append] at hm
    exact hm.imp_left fun hm => hm.resolve_right hsign

/-- The token that an operator begins with may follow, unless it is an equals sign. -/
theorem Connects.calm (h : Connects f p a mk) (hw : ∀ w ∈ va, w ∈ wary)
    (he : f.trigger.head? = some "=" → "=" ∉ va) : ∀ w ∈ f.trigger.head?, w ∉ va := by
  intro w hw' hm
  rcases List.mem_cons.1 (hw w hm) with rfl | hext
  · exact he hw' hm
  · exact h.clear.calm w hw' hext

/-- An operator whose entry has no routines. -/
theorem connects_plain (hf : f ∈ Lexicon.standard) (hn : f.name = some head)
    (hk : f.kind = .infixOp) (hparse : f.parse = none) (hrender : f.render = none)
    (hp : f.precedence = some p) (a : Expr) : Connects f p a fun b => .apply head [a, b] := by
  obtain ⟨-, hc, hb, -⟩ := clear_infixOp hf hn hk
  refine ⟨hf, hk, hp, hc, hb, fun h => ?_, fun b => rfl, fun b => ?_⟩
  · obtain ⟨hplain, -⟩ := Index.indexed_routines (e := f) (by rw [hparse]; exact nofun) hrender
      (.infixOp p f.associativity)
    rw [← Index.head_indexed hn (.infixOp p f.associativity)]
    exact reads_applyOperator_infixOp rfl hplain h
  · exact beq_eq_false_iff_ne.2 fun h => (name_ne_of_parse_eq_none hf hparse hn).2.2
      (Option.some.inj h)

/-- An operator keeps its left operand from those that take what is on their left. -/
theorem lt_rightPrecedence (hf : f ∈ Lexicon.standard) (hk : f.kind = .infixOp)
    (hparse : f.parse = none) (hp : f.precedence = some p) (hlt : p.val < 720) (q : Precedence)
    (hq : TakesLeft q) (hle : q.val ≤ p.val) :
    q.val < (rightPrecedence f.associativity p).val := by
  cases ha : f.associativity with
  | left =>
    show q.val < p.tighter.val
    rw [Precedence.tighter_val (by omega)]
    omega
  | right =>
    have hno := not_takesLeft hf hk ha hparse hp
    refine Nat.lt_of_le_of_ne hle fun heq => hno ?_
    rw [← show q = p from Fin.ext heq]
    exact hq

/-- The operand on the left is read as a whole before the operator. -/
theorem Held.before {a a' : Expr} (h : Held a a' sa (Renderer.leftPrecedence f.associativity p) ta
    oa ea va) (hf : f ∈ Lexicon.standard) (hk : f.kind = .infixOp) (hp : f.precedence = some p)
    (hlt : p.val < 720) : p.val ≤ oa ∧ p.val < ea := by
  have hreached := h.reached
  cases ha : f.associativity with
  | left =>
    rw [ha] at h hreached
    have hle : min p.val 720 ≤ oa := hreached
    exact ⟨by omega, h.firm ⟨f, hf, hp, Or.inr ⟨hk, ha⟩⟩⟩
  | right =>
    rw [ha] at hreached
    have hle : min p.tighter.val 720 ≤ oa := hreached
    rw [Precedence.tighter_val (by omega)] at hle
    have hown := h.legible.own_le
    omega

/-- The operand on the right is read as a whole behind the operator. -/
theorem Held.behind {b b' : Expr} (h : Held b b' sb (rightPrecedence f.associativity p) tb ob eb vb)
    (hlt : p.val < 720) : (rightPrecedence f.associativity p).val ≤ ob := by
  have hreached := h.reached
  have hle : (rightPrecedence f.associativity p).val ≤ 720 := by
    cases f.associativity with
    | left => exact Nat.le_trans (Nat.le_of_eq (Precedence.tighter_val (by omega))) hlt
    | right => exact Nat.le_of_lt hlt
  omega

end Infix

/-! ## Equations -/

/-- Where an equals sign follows a factorial sign, they are the sign of an inequation first. -/
theorem operatorCandidates_fused : ∃ entry other : IndexedEntry,
    (∀ us, operatorCandidates Index.standard ("!" :: "=" :: us) = [(2, entry), (1, other)]) ∧
      entry.role = .infixOp 260 .right ∧ entry.parse = none ∧ entry.head = "NotEqual" := by
  obtain ⟨f, hf, hk, ht, hp, ha, hparse, hn⟩ : ∃ f ∈ Lexicon.standard, f.kind = .infixOp ∧
      f.trigger = Entry.triggerTokens "!=" ∧ f.precedence = some 260 ∧ f.associativity = .right ∧
      f.parse = some (.aliasOf "NotEqual") ∧ f.name = none :=
    ⟨_, mem_standard (c := .inequalities) (List.mem_of_getElem? (i := 2) rfl), rfl, rfl, rfl, rfl,
      rfl, rfl⟩
  obtain ⟨g, hg, hgk, hgt, hgp⟩ : ∃ g ∈ Lexicon.standard, g.kind = .postfixOp ∧
      g.trigger = Entry.triggerTokens "!" ∧ g.precedence = some 810 :=
    ⟨_, mem_standard (c := .arithmetic) (List.mem_of_getElem? (i := 13) rfl), rfl, rfl, rfl⟩
  rw [show Entry.triggerTokens "!=" = ["!", "="] from triggerTokens_of_isSign (by decide) rfl] at ht
  rw [show Entry.triggerTokens "!" = ["!"] from triggerTokens_of_isSign (by decide) rfl] at hgt
  have hu := (Index.usable?_operator (by rw [ht]; exact List.cons_ne_nil _ _) hp).2.1 hk
  have hgu := (Index.usable?_operator (by rw [hgt]; exact List.cons_ne_nil _ _) hgp).2.2 hgk
  -- no other entry has one of the two triggers
  have hrivals : Index.rivals Lexicon.standard .infixOp f.trigger [] = 1 := by
    rw [ht]
    decide +kernel
  have hgrivals : Index.rivals Lexicon.standard .postfixOp g.trigger [] = 1 := by
    rw [hgt]
    decide +kernel
  refine ⟨f.indexed (.infixOp 260 .right), g.indexed (.postfixOp 810), fun us => ?_, rfl, ?_, ?_⟩
  · have hin := Index.lookup_of_rivals hf hu rfl (by rw [ht]; exact List.cons_ne_nil _ _) hrivals
      fun u (_ : u ∈ us.head?) => List.not_mem_nil
    have hpost := Index.lookup_of_rivals hg hgu rfl (by rw [hgt]; exact List.cons_ne_nil _ _)
      hgrivals fun u (_ : u ∈ ("=" :: us).head?) => List.not_mem_nil
    rw [ht, ha] at hin
    rw [hgt] at hpost
    show ((Index.standard.lookup .postfixOp (["!"] ++ ("=" :: us))).foldr insertCandidate
      (Index.standard.lookup .infixOp (["!", "="] ++ us))) = _
    rw [Index.standard, hin, hpost]
    rfl
  · simp only [Entry.indexed, hparse]
  · simp only [IndexedEntry.head, Entry.indexed, Entry.aliasName?, hparse, hn]
    rfl

theorem scans_equation {sa sb : String} {ta tb : List Token} (ha : Scans sa ta) (hb : Scans sb tb)
    (hne : tb ≠ []) : Scans (append (append sa "=") sb) (ta ++ [equals] ++ tb) := by
  rw [List.append_assoc]
  exact (joins_sign (w := "=") (by decide)).between ha hb hne

/-- The sign of an inequation takes the place of a factorial sign and an equals sign. -/
theorem readable_fused {b : Expr} {sa sb : String} {ta tb : List Token} {oa ob eb : Nat}
    {vb : List String} (hsa : Scans sa ta) (ha : Chops ta oa) (hoa : 260 < oa)
    (hb : Readable b sb tb ob eb vb) (hob : 260 ≤ ob) :
    ∃ c, Readable (.apply "NotEqual" [c, b]) (append (append sa "=") sb) (ta ++ [equals] ++ tb)
      260 260 vb := by
  obtain ⟨c, sc, tc, ec, vc, rfl, lc, hvc⟩ := ha
  obtain ⟨entry, other, hcand, hrole, hparse, hhead⟩ := operatorCandidates_fused
  refine ⟨c, ?_⟩
  refine hb.extend (fun b => .apply "NotEqual" [c, b]) (append (append sa "=")) _
    (fun lb hq _ => ?_) hob rfl rfl
  have hscan := scans_equation hsa lb.scans lb.ne_nil
  rw [List.append_assoc, List.append_assoc] at hscan ⊢
  have hec := lc.own_le
  show Legible Index.standard _ _ (tc ++ (bang :: [equals] ++ _)) (260 : Precedence).val 260 _
  refine lc.infixWith [equals] (fun _ => [(1, other)])
    (Nat.le_of_lt hoa) (by show 260 < ec; omega) hscan (fun us => hcand _) hrole (fun hm => ?_)
    (Nat.le_refl _) fun n us hends => ?_
  · exact absurd (hvc _ hm) (by decide)
  · rw [← hhead]
    exact reads_applyOperator_infixOp hrole hparse (lb.reads hq hends n)

/-- The entry of equations. -/
theorem of_name_equal {f : Entry} (hf : f ∈ Lexicon.standard) (hn : f.name = some "Equal")
    {role : Role} (hu : Index.usable? f = some (f.indexed role)) :
    join f.trigger = "=" ∧ role = .infixOp 260 .right := by
  obtain ⟨g, hg, hgn, hgk, hgt, hgp, hga⟩ : ∃ g ∈ Lexicon.standard, g.name = some "Equal" ∧
      g.kind = .infixOp ∧ g.trigger = Entry.triggerTokens "=" ∧ g.precedence = some 260 ∧
      g.associativity = .right :=
    ⟨_, mem_standard (c := .inequalities) List.mem_cons_self, rfl, rfl, rfl, rfl, rfl⟩
  rw [show Entry.triggerTokens "=" = ["="] from triggerTokens_of_isSign (by decide) rfl] at hgt
  have hgu := (Index.usable?_operator (by rw [hgt]; exact List.cons_ne_nil _ _) hgp).2.1 hgk
  have hsame := Option.some.inj
    ((byName?_standard hf hu hn).symm.trans (byName?_standard hg hgu hgn))
  have htrigger : f.trigger = g.trigger := congrArg IndexedEntry.trigger hsame
  have hrole : role = .infixOp 260 g.associativity := congrArg IndexedEntry.role hsame
  rw [htrigger, hgt, hrole, hga]
  exact ⟨rfl, rfl⟩

/-- An equation with a factorial on its left is read back as an inequation. -/
theorem rereads_fused {a a' b b' : Expr} {ta tb : List Token} (ha : Rereads a a' ta)
    (hb : Rereads b b' tb) (hlast : (Token.raws ta).getLast? = some "!") (c : Expr) :
    Rereads (.apply "Equal" [a, b]) (.apply "NotEqual" [c, b']) (ta ++ [equals] ++ tb) where
  same := by
    refine iff_of_false (fun h => absurd (Expr.apply.inj h).1 (by decide)) fun h => h ?_
    rw [List.append_assoc]
    exact fused_of_last hlast tb
  factorial hm := by
    rw [raws_append, raws_append, List.mem_append, List.mem_append] at hm
    rcases hm.imp_left fun h => h.resolve_right (by decide) with hm | hm
    · obtain ⟨x, hx⟩ := ha.factorial hm
      exact ⟨x, .operand List.mem_cons_self hx⟩
    · obtain ⟨x, hx⟩ := hb.factorial hm
      exact ⟨x, .operand (List.mem_cons_of_mem a List.mem_cons_self) hx⟩
  isApply head he hne := by
    show (some "NotEqual" == some head) = (some "Equal" == some head)
    rw [beq_eq_false_iff_ne.2 fun h => hne (Option.some.inj h).symm,
      beq_eq_false_iff_ne.2 fun h => he (Option.some.inj h).symm]
  number := rfl

/-- An operator without routines between its operands. -/
theorem rereadable_infix {canonical : Bool} {f : Entry} {head : String} {a b : Expr}
    (hf : f ∈ Lexicon.standard) (hn : f.name = some head) (hk : f.kind = .infixOp)
    (hparse : f.parse = none) (hrender : f.render = none) (fa : Rereadable canonical a)
    (fb : Rereadable canonical b) : Rereadable canonical (.apply head [a, b]) := by
  obtain ⟨⟨p, hp, -, hlt⟩, hc, hbang, heq⟩ := clear_infixOp hf hn hk
  have hlt := hlt hparse
  obtain ⟨hdelimiter, hsubscript, -⟩ := name_ne_of_parse_eq_none hf hparse hn
  have hu := (Index.usable?_operator hc.trigger_ne_nil hp).2.1 hk
  have hprec := @precedenceOf?_standard canonical f hf head hn _ hu
  obtain ⟨-, hplain, htemplate⟩ := Index.indexed_routines (e := f)
    (by rw [hparse]; exact nofun) hrender (.infixOp p f.associativity)
  have htemplate : (f.indexed (.infixOp p f.associativity)).template =
      "#1" ++ join f.trigger ++ "#2" := by
    rw [htemplate, Entry.defaultTemplate, hk]
  obtain ⟨a', sa, _, _, _, _, fa⟩ := fa
  obtain ⟨b', sb, _, _, _, _, fb⟩ := fb
  have hrenders := Renderer.renders_infixOp (sign_of_isSign hc.sign) (byName?_standard hf hu hn)
    hplain rfl htemplate fa.renders fb.renders
  obtain ⟨ta, oa, ea, va, ha⟩ := fa.held (Renderer.leftPrecedence f.associativity p)
  obtain ⟨tb, ob, eb, vb, hb⟩ := fb.held (rightPrecedence f.associativity p)
  have hright := hb.behind hlt
  obtain ⟨hpa, hea⟩ := ha.before hf hk hp hlt
  have hbinds := fun s => @binds_apply canonical head p hprec hdelimiter hsubscript [a, b] s p.val _
    (Nat.min_le_left _ _) (fun _ => Nat.le_refl _) (lt_rightPrecedence hf hk hparse hp hlt)
  by_cases hfuse : f.trigger.head? = some "=" ∧ "=" ∈ va
  · -- the left side ends in a factorial sign, so an inequation is read
    obtain rfl : head = "Equal" := by
      by_contra hne
      exact heq hne hfuse.1
    obtain ⟨ht, hrole⟩ := of_name_equal hf hn hu
    obtain ⟨rfl, hassoc⟩ := Role.infixOp.inj hrole
    rw [ht, hassoc] at hrenders
    rw [hassoc] at hright ha hb hbinds
    have hoa : 260 < oa := by
      have : min 261 720 ≤ oa := ha.reached
      omega
    obtain ⟨c, hread⟩ := readable_fused ha.legible.scans (ha.chops hfuse.2) hoa hb.toReadable hright
    exact ⟨_, _, _, _, _, _, hread,
      rereads_fused ha.toRereads hb.toRereads (ha.last.1 hfuse.2) c, hbinds _, hrenders⟩
  · have hcalm : f.trigger.head? = some "=" → "=" ∉ va := fun he hm => hfuse ⟨he, hm⟩
    have hconnects := connects_plain hf hn hk hparse hrender hp a'
    have hfused := hconnects.fused (fun hl he => hcalm he (ha.last.2 hl)) hb.legible
    exact ⟨_, _, _, _, _, _, hconnects.readable ha.legible hpa hea (hconnects.calm ha.wary hcalm)
      hb.toReadable hright,
      ((gathers_singleton ha.toRereads Iff.rfl id).concat hb.toRereads hfused.1 hfused.2).apply head,
      hbinds _, hrenders⟩

/-! ## Sums, products and connectives -/

section Collecting

variable {canonical : Bool} {f : Entry} {head : String} {p : Precedence}

/-- Operands behind some markup, with a sign before each of them. -/
def collected (canonical : Bool) (w : String) (p : Precedence) (s : String)
    (rest : List (Expr × String)) : String :=
  rest.foldl
    (fun acc x => append (append acc w) ((renderer canonical).held x.1 x.2 p.tighter)) s

/-- An operator that collects its operands. -/
structure Collects (canonical : Bool) (f : Entry) (head : String) (p : Precedence) : Prop where
  mem : f ∈ Lexicon.standard
  name : f.name = some head
  kind : f.kind = .infixOp
  precedence : f.precedence = some p
  associativity : f.associativity = .left
  bound : p.val < 720
  parse : f.parse = some (.custom (Lexicon.collecting head))
  unlisted : head ∉ ["Equal", "NotEqual", "Delimiter", "Subscript", "Sequence"]
  renders : ∀ {a : Expr} {s : String} {rest : List (Expr × String)},
    (renderer canonical).Renders a s → s ≠ "" →
    (∀ x ∈ rest, (renderer canonical).Renders x.1 x.2) →
    (renderer canonical).Renders (.apply head (a :: rest.map Prod.fst))
      (collected canonical (join f.trigger) p ((renderer canonical).held a s p) rest)

/-- The operands that an expression gives to a head that collects them. -/
def gathered (head : String) (e : Expr) : List Expr :=
  if e.isApply head then e.operands else [e]

theorem Collects.connects (h : Collects canonical f head p) (a : Expr) :
    Connects f p a fun b => .apply head (gathered head a ++ [b]) := by
  obtain ⟨-, hc, hb, -⟩ := clear_infixOp h.mem h.name h.kind
  refine ⟨h.mem, h.kind, h.precedence, hc, hb, fun hr => ?_, fun b => rfl, fun b => ?_⟩
  · refine reads_applyOperator_routine rfl ?_ (reads_collecting hr)
    simp only [Entry.indexed, h.parse]
  · refine beq_eq_false_iff_ne.2 fun he => h.unlisted ?_
    rw [Option.some.inj he]
    decide

/-- One more operand is collected. -/
theorem Collects.step (h : Collects canonical f head p) {x : Expr} {s : String} {ts : List Token}
    {own edge : Nat} {avoid : List String} (hx : Readable x s ts own edge avoid)
    (hown : p.val ≤ own) (hedge : p.val < edge) {es : List Expr} {parts : List Part}
    (hg : Gathers es parts ts) (hparts : gathered head x = parts.map Part.reread) {b : Expr}
    (hb : Rereadable canonical b) :
    ∃ (sb : String) (parts' : List Part) (ts' : List Token) (avoid' : List String),
      (renderer canonical).Renders b sb ∧ Gathers (es ++ [b]) parts' ts' ∧
      Readable (.apply head (parts'.map Part.reread)) (collected canonical (join f.trigger) p s
        [(b, sb)]) ts' p.val p.tighter.val avoid' := by
  obtain ⟨-, -, -, heq⟩ := clear_infixOp h.mem h.name h.kind
  have hequal : f.trigger.head? ≠ some "=" := by
    refine heq fun he => h.unlisted ?_
    rw [he]
    exact List.mem_cons_self
  have hbound := h.bound
  obtain ⟨b', sb, _, _, _, _, fb⟩ := hb
  obtain ⟨tb, ob, eb, vb, hb⟩ := fb.held p.tighter
  have hright : rightPrecedence f.associativity p = p.tighter := by
    rw [h.associativity]
    rfl
  -- left-associative, so the operand on the right is held one precedence tighter
  have hreached := hb.reached
  have hob : (rightPrecedence f.associativity p).val ≤ ob := by
    rw [hright]
    rw [Precedence.tighter_val (by omega)] at hreached ⊢
    omega
  have hconnects := h.connects x
  have hread := hconnects.readable hx.legible hown hedge
    (hconnects.calm hx.wary fun he => absurd he hequal) hb.toReadable hob
  obtain ⟨hfused, hbang⟩ := hconnects.fused (fun _ => hequal) hb.legible
  refine ⟨sb, _, _, vb, fb.renders, hg.concat hb.toRereads hfused hbang, ?_⟩
  rw [List.map_append, ← hparts]
  rw [hright] at hread
  exact hread

/-- All other operands are collected, one after the other. -/
theorem Collects.gather (h : Collects canonical f head p) {rest : List Expr}
    (hrest : ∀ b ∈ rest, Rereadable canonical b) {es : List Expr} {parts : List Part} {s : String}
    {ts : List Token} {avoid : List String} (hg : Gathers es parts ts)
    (hr : Readable (.apply head (parts.map Part.reread)) s ts p.val p.tighter.val avoid) :
    ∃ (markups : List (Expr × String)) (parts' : List Part) (ts' : List Token)
      (avoid' : List String), markups.map Prod.fst = rest ∧
      (∀ x ∈ markups, (renderer canonical).Renders x.1 x.2) ∧ Gathers (es ++ rest) parts' ts' ∧
      Readable (.apply head (parts'.map Part.reread)) (collected canonical (join f.trigger) p s
        markups) ts' p.val p.tighter.val avoid' := by
  -- on the operands that are left: what is read so far gives its operands to the next sign
  induction rest generalizing es parts s ts avoid with
  | nil =>
    refine ⟨[], parts, ts, avoid, rfl, fun x hx => absurd hx List.not_mem_nil, ?_, hr⟩
    rw [List.append_nil]
    exact hg
  | cons b rest ih =>
    have hbound := h.bound
    have hgathered : gathered head (.apply head (parts.map Part.reread)) =
        parts.map Part.reread :=
      if_pos (show (some head == some head) = true from beq_self_eq_true _)
    obtain ⟨sb, parts₁, ts₁, avoid₁, hsb, hg₁, hr₁⟩ := h.step hr (Nat.le_refl _)
      (by rw [Precedence.tighter_val (by omega)]; omega) hg hgathered (hrest b List.mem_cons_self)
    obtain ⟨markups, parts', ts', avoid', hfst, hrenders, hg', hr'⟩ :=
      ih (fun x hx => hrest x (List.mem_cons_of_mem b hx)) hg₁ hr₁
    refine ⟨(b, sb) :: markups, parts', ts', avoid', ?_, fun x hx => ?_, ?_, hr'⟩
    · rw [List.map_cons, hfst]
    · rcases List.mem_cons.1 hx with rfl | hx
      · exact hsb
      · exact hrenders x hx
    · rw [List.append_assoc] at hg'
      exact hg'

/-- An operator that collects its operands, between two or more of them. -/
theorem Collects.rereadable (h : Collects canonical f head p) {a b : Expr} {rest : List Expr}
    (ha : Rereadable canonical a) (hhead : a.isApply head = false) (hb : Rereadable canonical b)
    (hrest : ∀ x ∈ rest, Rereadable canonical x) :
    Rereadable canonical (.apply head (a :: b :: rest)) := by
  obtain ⟨-, hc, -, -⟩ := clear_infixOp h.mem h.name h.kind
  have hbound := h.bound
  have hlisted : ∀ {w : String}, w ∈ ["Equal", "NotEqual", "Delimiter", "Subscript", "Sequence"] →
      head ≠ w := by
    rintro w hw rfl
    exact h.unlisted hw
  obtain ⟨a', sa, _, _, _, _, fa⟩ := ha
  obtain ⟨ta, oa, ea, va, ha⟩ := fa.held p
  have hreached := ha.reached
  have hfirm := ha.firm ⟨f, h.mem, h.precedence, Or.inr ⟨h.kind, h.associativity⟩⟩
  -- the first operand does not give its own operands, so it is the first one of the whole
  have hgathered : gathered head a' = [a'] := by
    rw [gathered, ha.isApply head (hlisted (by decide)) (hlisted (by decide)), hhead,
      if_neg Bool.false_ne_true]
  obtain ⟨sb, parts₁, ts₁, avoid₁, hsb, hg₁, hr₁⟩ :=
    h.step ha.toReadable (by omega) hfirm (gathers_singleton ha.toRereads Iff.rfl id) hgathered hb
  obtain ⟨markups, parts', ts', avoid', hfst, hrenders, hg', hr'⟩ := h.gather hrest hg₁ hr₁
  have hmarkups : ∀ x ∈ (b, sb) :: markups, (renderer canonical).Renders x.1 x.2 := by
    intro x hx
    rcases List.mem_cons.1 hx with rfl | hx
    · exact hsb
    · exact hrenders x hx
  have hwhole := h.renders fa.renders (fa.legible.scans.ne_empty fa.legible.ne_nil) hmarkups
  rw [List.map_cons, hfst] at hwhole
  have hu := (Index.usable?_operator hc.trigger_ne_nil h.precedence).2.1 h.kind
  have hprec := @precedenceOf?_standard canonical f h.mem head h.name _ hu
  refine ⟨_, _, _, _, _, _, hr', hg'.apply head, ?_, hwhole⟩
  refine binds_apply hprec (hlisted (by decide)) (hlisted (by decide)) _ _ (Nat.min_le_left _ _)
    (fun _ => Nat.le_refl _) fun q _ hle => ?_
  rw [Precedence.tighter_val (by omega)]
  omega

/-- A named entry with a render routine. -/
theorem renders_standard {f : Entry} {head : String} {role : Role} {handler : RenderHandler}
    (hf : f ∈ Lexicon.standard) (hn : f.name = some head)
    (hu : Index.usable? f = some (f.indexed role)) (hr : f.render = some (.custom handler))
    {operands : List Expr} {s : String}
    (h : ∀ level, Renderer.Answers (renderer canonical)
      ((renderer canonical).under (.apply head operands)) (handler (.apply head operands) level) s) :
    (renderer canonical).Renders (.apply head operands) s :=
  Renderer.renders_routine (byName?_standard hf hu hn) (by simp only [Entry.indexed, hr]) h

/-- A routine that keeps the last operand beside the markup. -/
theorem foldl_collected (canonical : Bool) (w : String) (p : Precedence)
    (rest : List (Expr × String)) (acc : String × Expr) :
    (rest.foldl (fun acc x => (append (append acc.1 w) ((renderer canonical).held x.1 x.2 p.tighter),
      x.1)) acc).1 = collected canonical w p acc.1 rest :=
  (List.foldl_hom Prod.fst fun _ _ => rfl).symm

theorem append_plus (s b : String) : append (append s "+") b = s ++ "+" ++ b := by
  have hsign : ∀ c ∈ ['+'], SignChar c := List.forall_mem_singleton.2 (by decide)
  obtain ⟨hs, hb⟩ := append_signs hsign (List.cons_ne_nil _ _) s
  rw [show "+" = String.ofList ['+'] from rfl, hs, hb]

/-- A routine that puts each operand behind the sign and the markup so far, and keeps the operand to
see what comes next to it. -/
theorem answers_glued (canonical : Bool) {e a : Expr} {s : String} {rest : List (Expr × String)}
    (he : e.operands = a :: rest.map Prod.fst) (hs : (renderer canonical).Renders a s)
    (hrest : ∀ x ∈ rest, (renderer canonical).Renders x.1 x.2) (w : String) (p : Precedence)
    (level : Nat) {glue : String × Expr → Expr → String → RenderRoutine (String × Expr)}
    (hglue : ∀ acc op rhs, glue acc op rhs = pure (append (append acc.1 w) rhs, op)) :
    Renderer.Answers (renderer canonical) ((renderer canonical).under e)
      (do
        let start ← RenderRoutine.wrap a p level
        let all ← (rest.map Prod.fst).foldlM (fun acc op => do
          let rhs ← RenderRoutine.wrap op p.tighter level
          glue acc op rhs) (start, a)
        return all.1)
      (collected canonical w p ((renderer canonical).held a s p) rest) := by
  refine (Renderer.answers_wrap (hs.under ?_ _) p).bind ?_
  · rw [he]
    exact List.mem_cons_self
  -- the pair holds the markup and the last operand; only the markup is asked for in the end
  refine (Renderer.answers_foldlM (k := Prod.fst) (g := fun acc x =>
    (append (append acc.1 w) ((renderer canonical).held x.1 x.2 p.tighter), x.1))
    (fun acc x hx => ?_) _).bind ?_
  · refine (Renderer.answers_wrap ((hrest x hx).under ?_ _) _).bind ?_
    · rw [he]
      exact List.mem_cons_of_mem _ (List.mem_map_of_mem hx)
    · rw [hglue]
      exact Renderer.answers_pure _
  · rw [← foldl_collected canonical w p rest (_, a)]
    exact Renderer.answers_pure _

theorem collects_add (canonical : Bool) :
    ∃ f, Collects canonical f "Add" 275 ∧ f.trigger = ["+"] := by
  obtain ⟨f, hf, hn, hk, ht, hp, ha, hparse, hrender⟩ : ∃ f ∈ Lexicon.standard,
      f.name = some "Add" ∧ f.kind = .infixOp ∧ f.trigger = Entry.triggerTokens "+" ∧
      f.precedence = some 275 ∧ f.associativity = .left ∧
      f.parse = some (.custom (Lexicon.collecting "Add")) ∧
      f.render = some (.custom Lexicon.Arithmetic.renderAdd) :=
    ⟨_, mem_standard (c := .arithmetic) List.mem_cons_self, rfl, rfl, rfl, rfl, rfl, rfl, rfl⟩
  have hjoin : join f.trigger = "+" := by
    rw [ht]
    exact join_triggerTokens (by decide)
  rw [show Entry.triggerTokens "+" = ["+"] from triggerTokens_of_isSign (by decide) rfl] at ht
  obtain ⟨-, hc, -, -⟩ := clear_infixOp hf hn hk
  have hu := (Index.usable?_operator hc.trigger_ne_nil hp).2.1 hk
  refine ⟨f, ⟨hf, hn, hk, hp, ha, by decide, hparse, by decide, fun hs _ hrest => ?_⟩, ht⟩
  rw [hjoin]
  -- the template for invisible addition is empty, so each operand is behind a plus
  refine renders_standard hf hn hu hrender fun level => Renderer.answers_options.bind
    (answers_glued canonical rfl hs hrest "+" 275 (level + 1) fun acc op rhs => ?_)
  rw [append_plus]
  rfl

theorem collects_multiply (canonical : Bool) :
    ∃ f, Collects canonical f "Multiply" 390 ∧ f.trigger = ["\\times"] := by
  obtain ⟨f, hf, hn, hk, ht, hp, ha, hparse, hrender⟩ : ∃ f ∈ Lexicon.standard,
      f.name = some "Multiply" ∧ f.kind = .infixOp ∧ f.trigger = Entry.triggerTokens "\\times" ∧
      f.precedence = some 390 ∧ f.associativity = .left ∧
      f.parse = some (.custom (Lexicon.collecting "Multiply")) ∧
      f.render = some (.custom Lexicon.Arithmetic.renderMultiply) :=
    ⟨_, mem_standard (c := .arithmetic) (List.mem_of_getElem? (i := 6) rfl), rfl, rfl, rfl, rfl,
      rfl, rfl, rfl⟩
  have hjoin : join f.trigger = "\\times" := by
    rw [ht]
    exact join_triggerTokens (by decide)
  rw [show Entry.triggerTokens "\\times" = ["\\times"] from triggerTokens_of_isSign (by decide) rfl]
    at ht
  obtain ⟨-, hc, -, -⟩ := clear_infixOp hf hn hk
  have hu := (Index.usable?_operator hc.trigger_ne_nil hp).2.1 hk
  refine ⟨f, ⟨hf, hn, hk, hp, ha, by decide, hparse, by decide, fun hs _ hrest => ?_⟩, ht⟩
  rw [hjoin]
  refine renders_standard hf hn hu hrender fun level => Renderer.answers_options.bind
    (answers_glued canonical rfl hs hrest "\\times" 390 (level + 1) fun acc op rhs => ?_)
  show pure (append (append (append "" acc.1) "\\times") rhs, op) = _
  rw [empty_append]

/-- Connectives write nothing in front of the first operand. -/
theorem foldl_joinOperand {canonical : Bool} {w : String} (p : Precedence)
    {rest : List (Expr × String)} {s : String} (hs : s ≠ "") :
    (rest.map fun x => (renderer canonical).held x.1 x.2 p.tighter).foldl
      (Lexicon.Connectives.joinOperand w) s = collected canonical w p s rest := by
  rw [foldl_joinOperand_of_ne hs, List.foldl_map]
  rfl

theorem collects_connective (canonical : Bool) {f : Entry} {head : String} {p : Precedence}
    {spellings : Lexicon.Connectives.Spellings} (hf : f ∈ Lexicon.standard)
    (hn : f.name = some head) (hk : f.kind = .infixOp)
    (hp : f.precedence = some p) (ha : f.associativity = .left) (hlt : p.val < 720)
    (hparse : f.parse = some (.custom (Lexicon.collecting head)))
    (hrender : f.render = some (.custom (Lexicon.Connectives.renderConnective spellings p)))
    (ht : join f.trigger = spellings.boolean)
    (hhead : head ∉ ["Equal", "NotEqual", "Delimiter", "Subscript", "Sequence"]) :
    Collects canonical f head p := by
  obtain ⟨-, hc, -, -⟩ := clear_infixOp hf hn hk
  have hu := (Index.usable?_operator hc.trigger_ne_nil hp).2.1 hk
  refine ⟨hf, hn, hk, hp, ha, hlt, hparse, hhead, fun {a s rest} hs hne hrest => ?_⟩
  refine renders_standard hf hn hu hrender fun level => ?_
  -- a connective leaves out its sign before the first operand, which it knows by empty markup
  have hheld : (renderer canonical).held a s p ≠ "" := by
    unfold Renderer.held
    split
    · simp
    · exact hne
  refine Renderer.answers_options.bind ((Renderer.answers_wrap (hs.under ?_ _) p).bind ?_)
  · exact List.mem_cons_self
  refine (Renderer.answers_mapM (k := Prod.fst)
    (g := fun x => (renderer canonical).held x.1 x.2 p.tighter) fun x hx => ?_).bind ?_
  · exact Renderer.answers_wrap ((hrest x hx).under (List.mem_cons_of_mem _
      (List.mem_map_of_mem hx)) _) _
  · rw [ht, ← foldl_joinOperand p hheld]
    exact (Renderer.answers_pure _).bind (Renderer.answers_pure _)

theorem collects_and (canonical : Bool) : ∃ f p, Collects canonical f "And" p :=
  ⟨_, _, collects_connective canonical
    (mem_standard (c := .logic) (List.mem_of_getElem? (i := 1) rfl)) rfl rfl
    rfl rfl (by decide) rfl rfl (join_triggerTokens (by decide)) (by decide)⟩

theorem collects_or (canonical : Bool) : ∃ f p, Collects canonical f "Or" p :=
  ⟨_, _, collects_connective canonical
    (mem_standard (c := .logic) (List.mem_of_getElem? (i := 3) rfl)) rfl rfl
    rfl rfl (by decide) rfl rfl (join_triggerTokens (by decide)) (by decide)⟩

end Collecting

end Standard
end MathMarkup
