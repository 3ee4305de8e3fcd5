import MathMarkup.Proofs.StandardAtoms
import MathMarkup.Proofs.StandardForms

/-!
# Negations, scripts, fractions, functions and factorials

The other forms of standard notation. Exponents, subscripts and the parts of a fraction are in
braces, so nothing around them matters, and the argument of a function is in parentheses. A negation
goes on to the end of its operand and a factorial begins with its own.
-/

namespace MathMarkup
namespace Standard

open MathMarkup.Lexer MathMarkup.Parser MathMarkup.Reading
open MathMarkup.Lexicon.Arithmetic (parseNegate negated)

variable {canonical : Bool}

/-! ## Negation -/

/-- The token of a minus sign. -/
def minus : Token := ⟨"-", .char⟩

/-- The entry of negation. -/
structure IsNegate (f : Entry) : Prop where
  mem : f ∈ Lexicon.standard
  name : f.name = some "Negate"
  kind : f.kind = .prefixOp
  trigger : f.trigger = ["-"]
  usable : Index.usable? f = some (f.indexed (.prefixOp 275))
  parse : f.parse = some (.custom parseNegate)
  render : f.render = none

theorem exists_negate : ∃ f, IsNegate f := by
  obtain ⟨f, hf, hn, hk, ht, hp, hparse, hrender⟩ : ∃ f ∈ Lexicon.standard,
      f.name = some "Negate" ∧ f.kind = .prefixOp ∧ f.trigger = Entry.triggerTokens "-" ∧
      f.precedence = some 275 ∧ f.parse = some (.custom parseNegate) ∧ f.render = none :=
    ⟨_, mem_standard (c := .arithmetic) (List.mem_of_getElem? (i := 2) rfl), rfl, rfl, rfl, rfl,
      rfl, rfl⟩
  rw [show Entry.triggerTokens "-" = ["-"] from triggerTokens_of_isSign (by decide) rfl] at ht
  have hu := (Index.usable?_operator (by rw [ht]; exact List.cons_ne_nil _ _) hp).1 hk
  exact ⟨f, hf, hn, hk, ht, hu, hparse, hrender⟩

theorem precedenceOf?_negate : (renderer canonical).precedenceOf? "Negate" = some 275 := by
  obtain ⟨f, hf⟩ := exists_negate
  exact precedenceOf?_standard hf.mem hf.name hf.usable

theorem head_of_legible {e : Expr} {s : String} {ts : List Token} {own edge : Nat}
    {avoid : List String} (h : Legible Index.standard e s ts own edge avoid) (rest : List Token) :
    ∀ u ∈ (Token.raws (ts ++ rest)).head?, u ∉ goingOn := by
  obtain ⟨t, us, rfl, ht⟩ := h.begins
  exact head_of_begins ht (us ++ rest)

/-- A sign before a legible operand is legible, a little looser. -/
theorem legible_negated {e : Expr} {s : String} {ts : List Token} {own edge : Nat}
    {avoid : List String} (h : Legible Index.standard e s ts own edge avoid) (hown : 276 ≤ own) :
    Legible Index.standard (negated e) (append "-" s) (minus :: ts) 275 276 avoid := by
  obtain ⟨f, hf⟩ := exists_negate
  obtain ⟨-, hc⟩ := clear_prefixOp hf.mem hf.name hf.kind
  -- no delimiter begins with a minus sign, and the only prefix operator that does is the negation
  have hnone : ∀ rest, Index.standard.lookup .matchfix (Token.raws (minus :: ts ++ rest)) = [] := by
    intro rest
    have hno := hc.lookup_other List.mem_cons_self (head_of_legible h rest)
    rw [hf.trigger] at hno
    exact hno
  have hfound : ∀ rest, Index.standard.lookup .prefixOp (Token.raws (minus :: ts ++ rest)) =
      [(1, f.indexed (.prefixOp 275))] := by
    intro rest
    have hfound := hc.lookup hf.mem hf.usable rfl (head_of_legible h rest)
    rw [hf.trigger] at hfound
    exact hfound
  have hparse : (f.indexed (.prefixOp 275)).parse = some parseNegate := by
    simp only [Entry.indexed, hf.parse]
  have hscan := (joins_sign (w := "-") (by decide)).before h.scans h.ne_nil
  show Legible Index.standard _ _ _ (275 : Precedence).val (275 : Precedence).tighter.val _
  refine legible_prefixWith hscan ⟨by decide, by decide, by decide, by decide, by decide⟩
    ⟨by decide, by decide, by decide⟩ hnone hfound fun n m rest hm hends =>
      reads_tryPrefixOp_routine rfl hparse ?_
  rw [Precedence.tighter_tighterOf hm]
  exact reads_parseNegate (h.reads hown hends n)

/-- The negation of what is no number is an application. -/
theorem negated_of_number?_eq_none {e : Expr} (hs : e.strip = e) (hn : e.number? = none) :
    negated e = .apply "Negate" [e] := by
  cases e with
  | number text => cases hn
  | _ => rfl

/-- The negation of what is no number. -/
theorem rereadable_negate {a : Expr} (ha : Rereadable canonical a) (hnumber : a.number? = none) :
    Rereadable canonical (.apply "Negate" [a]) := by
  obtain ⟨f, hf⟩ := exists_negate
  obtain ⟨-, hc⟩ := clear_prefixOp hf.mem hf.name hf.kind
  obtain ⟨a', sa, _, _, _, _, fa⟩ := ha
  obtain ⟨ta, oa, ea, va, ha⟩ := fa.held (275 : Precedence).tighter
  have hoa : 276 ≤ oa := ha.reached
  -- the operand is no number, so the minus sign is not taken into it
  have hneg := negated_of_number?_eq_none ha.strip (ha.number.trans hnumber)
  have hread := ha.toReadable.extend negated (append "-") [minus]
    (fun l hl _ => legible_negated l hl) hoa (by rw [hneg]; rfl) (by rw [hneg]; rfl)
  rw [hneg] at hread
  have hfused : Fused ([minus] ++ ta) ↔ Fused ta :=
    (fused_cons minus ta).trans (or_iff_right fun h => absurd h.1 (by decide))
  have hmem : "!" ∈ Token.raws ([minus] ++ ta) → "!" ∈ Token.raws ta :=
    fun hm => (List.mem_cons.1 hm).resolve_left (by decide)
  have hsign : Template.Sign (join f.trigger) := sign_of_isSign hc.sign
  have hrenders := Renderer.renders_prefixOp hsign
    (byName?_standard hf.mem hf.usable hf.name) (by simp only [Entry.indexed, hf.render]) rfl
    (by simp only [Entry.indexed, hf.render, Entry.defaultTemplate, hf.kind]) fa.renders
  rw [hf.trigger, show join ["-"] = "-" from by decide] at hrenders
  refine ⟨_, _, _, _, _, _, hread, (gathers_singleton ha.toRereads hfused hmem).apply "Negate", ?_,
    hrenders⟩
  refine binds_apply precedenceOf?_negate (by decide) (by decide) _ _ (Nat.min_le_left _ _)
    (fun _ => Nat.le_refl _) fun q _ hle => ?_
  have : q.val ≤ 275 := hle
  omega

/-- A negative number is held like a negation. -/
theorem rereadable_minusOne : Rereadable canonical (.number "-1") := by
  have hone : Numeral.Grouped [['1']] ['1'] := Numeral.grouped_singleton (List.cons_ne_nil _ _)
  have hdigit : ∀ c ∈ ['1'], c.isDigit = true := List.all_eq_true.1 (by decide)
  have hl := legible_negated (legible_groups hone hdigit) (by decide)
  have hnumeral : Numeral.render "-1" {} = .ok "-1" := by decide
  -- a minus sign in front of a number counts as a negation where parentheses are asked for
  have hbinds : ∀ p : Precedence, (renderer canonical).bindsLooser (.number "-1") "-1" p = false →
      p.val ≤ 275 := by
    intro p hp
    unfold Renderer.bindsLooser at hp
    rw [show (Expr.number "-1").strip = .number "-1" from rfl] at hp
    dsimp only at hp
    rw [precedenceOf?_negate, show ("-1".toList.head? == some '-') = true from rfl, Bool.true_and,
      decide_eq_false_iff_not, Fin.not_lt] at hp
    exact hp
  refine ⟨.number "-1", "-1", _, 275, 276, extending, readable_closed hl (fun _ => id) (by decide)
    rfl rfl, rereads_refl (by decide), ⟨fun p hp => ?_, fun _ p h810 hp => ?_, fun p _ hp => ?_⟩,
    Renderer.renders_number hnumeral⟩
  · have := hbinds p hp
    omega
  · have := hbinds p hp
    omega
  · have := hbinds p hp
    omega

/-! ## Scripts -/

/-- A mark with a script in braces after it. -/
structure Scripts (f : Entry) (head : String) (mark : Char) (handler : ParseHandler) : Prop where
  mem : f ∈ Lexicon.standard
  name : f.name = some head
  kind : f.kind = .infixOp
  precedence : f.precedence = some 720
  trigger : f.trigger = [String.ofList [mark]]
  sign : SignChar mark
  calm : String.ofList [mark] ∉ "!" :: wary
  parse : f.parse = some (.custom handler)
  reads : ∀ {n : Nat} {base x : Expr} {p : Precedence} {ts rest : List Token},
    Reads n (argument (Nested.atDepth Index.standard n)) ts (some x) rest →
    Reads n (runHandler (Nested.atDepth Index.standard n) handler (some base) p) ts
      (some (.apply head [base, x])) rest
  sequence : head ≠ "Sequence"

/-- Subscripts take what is on their left. -/
theorem takesLeft_script : TakesLeft 720 :=
  ⟨_, mem_standard (c := .core) (List.mem_of_getElem? (i := 9) rfl), rfl, Or.inr ⟨rfl, rfl⟩⟩

theorem Scripts.usable {f : Entry} {head : String} {mark : Char} {handler : ParseHandler}
    (h : Scripts f head mark handler) :
    Index.usable? f = some (f.indexed (.infixOp 720 f.associativity)) :=
  (Index.usable?_operator (by rw [h.trigger]; exact List.cons_ne_nil _ _) h.precedence).2.1 h.kind

/-- The markup of a script is cut into the base, the mark and the braces. -/
theorem Scripts.scans {f : Entry} {head : String} {mark : Char} {handler : ParseHandler}
    (h : Scripts f head mark handler) {sa sb : String} {ta tb : List Token} (ha : Scans sa ta)
    (hb : Scans sb tb) : Scans (sa ++ (String.ofList [mark] ++ "\x7b") ++ sb ++ "\x7d")
      (ta ++ (loneToken mark :: (leftBrace :: tb ++ [rightBrace]))) := by
  have hstops : Stops [mark] := by
    intro c hc
    rw [← Option.some.inj hc]
    exact ⟨h.sign.letter, h.sign.lone.digit, h.sign.lone.point⟩
  have hs := (ha.concat h.sign.lone h.sign.spacing hstops).append hb.braced
    (by rw [String.append_assoc]; exact stops_braced _)
  rw [List.append_assoc] at hs
  simp only [String.append_assoc] at hs ⊢
  exact hs

/-- A script of readable parts is legible. -/
theorem Scripts.legible {f : Entry} {head : String} {mark : Char} {handler : ParseHandler}
    (h : Scripts f head mark handler) {a : Expr} {sa : String} {ta : List Token} {oa ea : Nat}
    {va : List String} (ha : Readable a sa ta oa ea va) (hoa : 720 ≤ oa) (hea : 720 < ea)
    {b : Expr} {sb : String} {tb : List Token} {ob eb : Nat} {vb : List String}
    (hb : Readable b sb tb ob eb vb) :
    Legible Index.standard (.apply head [a, b])
      (sa ++ (String.ofList [mark] ++ "\x7b") ++ sb ++ "\x7d")
      (ta ++ (loneToken mark :: (leftBrace :: tb ++ [rightBrace]))) 720 65536 [] := by
  have hscan := h.scans ha.legible.scans hb.legible.scans
  obtain ⟨-, hc, -, -⟩ := clear_infixOp h.mem h.name h.kind
  -- the base may end in a sign that must not be followed by some others, but the mark is not one
  have hmark : (loneToken mark).raw ∉ va :=
    fun hm => h.calm (List.mem_cons_of_mem _ (ha.wary _ hm))
  have hfound : ∀ us, operatorCandidates Index.standard
      (Token.raws (loneToken mark :: [] ++ (leftBrace :: tb ++ [rightBrace]) ++ us)) =
        [(1, f.indexed (.infixOp 720 f.associativity))] := by
    intro us
    have hnext : ∀ u ∈ (Token.raws (leftBrace :: tb ++ [rightBrace] ++ us)).head?, u ∉ goingOn := by
      intro u hu
      rw [← Option.some.inj hu]
      decide
    have hfound := operatorCandidates_infixOp h.mem h.kind hc h.precedence hnext
    rw [h.trigger] at hfound
    exact hfound
  have hparse : (f.indexed (.infixOp 720 f.associativity)).parse = some handler := by
    simp only [Entry.indexed, h.parse]
  show Legible Index.standard _ _ _ (720 : Precedence).val 65536 []
  exact ha.legible.infixWith [] (fun _ => []) hoa hea hscan hfound rfl hmark (by decide)
    fun n us _ => reads_applyOperator_routine rfl hparse (h.reads (hb.argument n us))

/-- It ends in the brace behind the script, so nothing fuses with it. -/
theorem Scripts.readable {f : Entry} {head : String} {mark : Char} {handler : ParseHandler}
    (h : Scripts f head mark handler) {a : Expr} {sa : String} {ta : List Token} {oa ea : Nat}
    {va : List String} (ha : Readable a sa ta oa ea va) (hoa : 720 ≤ oa) (hea : 720 < ea)
    {b : Expr} {sb : String} {tb : List Token} {ob eb : Nat} {vb : List String}
    (hb : Readable b sb tb ob eb vb) :
    Readable (.apply head [a, b]) (sa ++ (String.ofList [mark] ++ "\x7b") ++ sb ++ "\x7d")
      (ta ++ (loneToken mark :: (leftBrace :: tb ++ [rightBrace]))) 720 65536 [] := by
  have hlast : (Token.raws (ta ++ (loneToken mark :: (leftBrace :: tb ++ [rightBrace])))).getLast? ≠
      some "!" := by
    rw [show ta ++ (loneToken mark :: (leftBrace :: tb ++ [rightBrace])) =
      ta ++ loneToken mark :: leftBrace :: tb ++ [rightBrace] by simp,
      getLast?_raws_append (List.cons_ne_nil _ _)]
    decide
  exact readable_closed (h.legible ha hoa hea hb) (by simp) hlast rfl
    (beq_eq_false_iff_ne.2 fun he => h.sequence (Option.some.inj he))

/-- A base with a script, given how it is rendered. -/
theorem Scripts.rereadable {f : Entry} {head : String} {mark : Char} {handler : ParseHandler}
    (h : Scripts f head mark handler) {a b : Expr}
    (hrenders : ∀ {sa sb : String}, (renderer canonical).Renders a sa →
      (renderer canonical).Renders b sb → (renderer canonical).Renders (.apply head [a, b])
        ((renderer canonical).heldBase a sa 720 ++ (String.ofList [mark] ++ "\x7b") ++ sb ++ "\x7d"))
    (hbinds : ∀ s, Binds canonical (.apply head [a, b]) s 720 65536)
    (ha : Rereadable canonical a) (hb : Rereadable canonical b) :
    Rereadable canonical (.apply head [a, b]) := by
  obtain ⟨a', sa, _, _, _, _, fa⟩ := ha
  obtain ⟨b', sb, tb, _, _, _, fb⟩ := hb
  obtain ⟨ta, oa, ea, va, ha⟩ := fa.heldBase 720
  have hmark : ∀ w ∈ "!" :: wary, (loneToken mark).raw ≠ w := by
    rintro w hw rfl
    exact h.calm hw
  have hbang := hmark "!" (by decide)
  have hequal := hmark "=" (by decide)
  -- factorial signs and what they fuse with come from the base and from the script only
  have hfused : Fused (ta ++ (loneToken mark :: (leftBrace :: tb ++ [rightBrace]))) ↔
      Fused ta ∨ Fused tb := by
    rw [fused_append fun _ u hu => by rw [← Option.some.inj hu]; exact hequal, fused_cons,
      fused_fenced (by decide) (by decide)]
    exact or_congr_right (or_iff_right fun hm => hbang hm.1)
  have hmem : "!" ∈ Token.raws (ta ++ (loneToken mark :: (leftBrace :: tb ++ [rightBrace]))) →
      "!" ∈ Token.raws ta ∨ "!" ∈ Token.raws tb := by
    intro hm
    rw [raws_append, List.mem_append] at hm
    refine hm.imp_right fun hm => ?_
    have hm := (List.mem_cons.1 hm).resolve_left (Ne.symm hbang)
    exact (mem_raws_fenced (by decide) (by decide) tb).1 hm
  exact ⟨_, _, _, _, _, _,
    h.readable ha.toReadable ha.reached (ha.firm takesLeft_script) fb.toReadable,
    ((gathers_singleton ha.toRereads Iff.rfl id).concat fb.toRereads hfused hmem).apply head,
    hbinds _, hrenders fa.renders fb.renders⟩

/-- The entry of powers. -/
theorem exists_power : ∃ f, Scripts f "Power" '^' Lexicon.Arithmetic.parsePower ∧
    f.render = some (.custom Lexicon.Arithmetic.renderPower) := by
  obtain ⟨f, hf, hn, hk, ht, hp, hparse, hrender⟩ : ∃ f ∈ Lexicon.standard,
      f.name = some "Power" ∧ f.kind = .infixOp ∧ f.trigger = Entry.triggerTokens "^" ∧
      f.precedence = some 720 ∧ f.parse = some (.custom Lexicon.Arithmetic.parsePower) ∧
      f.render = some (.custom Lexicon.Arithmetic.renderPower) :=
    ⟨_, mem_standard (c := .arithmetic) (List.mem_of_getElem? (i := 10) rfl), rfl, rfl, rfl, rfl,
      rfl, rfl⟩
  rw [show Entry.triggerTokens "^" = [String.ofList ['^']] from
    triggerTokens_of_isSign (by decide) rfl] at ht
  exact ⟨f, ⟨hf, hn, hk, hp, ht, by decide, by decide, hparse, fun h => reads_parsePower h,
    by decide⟩, hrender⟩

/-- A base in its place with an exponent after it. -/
theorem readable_power {b x : Expr} {sb sx : String} {tb tx : List Token} {ob eb ox ex : Nat}
    {vb vx : List String} (hb : Readable b sb tb ob eb vb) (hob : 720 ≤ ob) (heb : 720 < eb)
    (hx : Readable x sx tx ox ex vx) :
    Readable (.apply "Power" [b, x]) (sb ++ (String.ofList ['^'] ++ "\x7b") ++ sx ++ "\x7d")
      (tb ++ (loneToken '^' :: (leftBrace :: tx ++ [rightBrace]))) 720 65536 [] := by
  obtain ⟨f, hs, -⟩ := exists_power
  exact hs.readable hb hob heb hx

theorem precedenceOf?_power : (renderer canonical).precedenceOf? "Power" = some 720 := by
  obtain ⟨f, hs, -⟩ := exists_power
  exact precedenceOf?_standard hs.mem hs.name hs.usable

/-- A power can be read back if its base and its exponent can. -/
theorem rereadable_power {a b : Expr} (ha : Rereadable canonical a) (hb : Rereadable canonical b) :
    Rereadable canonical (.apply "Power" [a, b]) := by
  obtain ⟨f, hs, hrender⟩ := exists_power
  refine hs.rereadable (fun hsa hsb => ?_) (fun s => ?_) ha hb
  · refine renders_standard hs.mem hs.name hs.usable hrender fun level => ?_
    refine Renderer.answers_options.bind ?_
    refine (Renderer.answers_wrapBase (hsa.under List.mem_cons_self _) 720).bind ?_
    refine (Renderer.answers_render
      (hsb.under (List.mem_cons_of_mem _ List.mem_cons_self) _)).bind ?_
    exact Renderer.answers_pure _
  · exact binds_apply precedenceOf?_power (by decide) (by decide) _ _ (by decide)
      (fun _ => by decide) fun p _ _ => p.isLt

/-- A subscript can be read back if its base and its index can. -/
theorem rereadable_subscript {a b : Expr} (ha : Rereadable canonical a)
    (hb : Rereadable canonical b) : Rereadable canonical (.apply "Subscript" [a, b]) := by
  obtain ⟨f, hf, hn, hk, ht, hp, hparse, hrender⟩ : ∃ f ∈ Lexicon.standard,
      f.name = some "Subscript" ∧ f.kind = .infixOp ∧ f.trigger = Entry.triggerTokens "_" ∧
      f.precedence = some 720 ∧ f.parse = some (.custom Lexicon.Structure.parseSubscript) ∧
      f.render = some (.custom Lexicon.Structure.renderSubscript) :=
    ⟨_, mem_standard (c := .core) (List.mem_of_getElem? (i := 9) rfl), rfl, rfl, rfl, rfl,
      rfl, rfl⟩
  rw [show Entry.triggerTokens "_" = [String.ofList ['_']] from
    triggerTokens_of_isSign (by decide) rfl] at ht
  have hs : Scripts f "Subscript" '_' Lexicon.Structure.parseSubscript :=
    ⟨hf, hn, hk, hp, ht, by decide, by decide, hparse, fun h => reads_parseSubscript h, by decide⟩
  refine hs.rereadable (fun hsa hsb => ?_) (fun s => ?_) ha hb
  · refine renders_standard hf hn hs.usable hrender fun level => ?_
    refine (Renderer.answers_wrapBase (hsa.under List.mem_cons_self _) 720).bind ?_
    refine (Renderer.answers_render
      (hsb.under (List.mem_cons_of_mem _ List.mem_cons_self) _)).bind ?_
    exact Renderer.answers_pure _
  · -- a subscript is never put into parentheses
    refine ⟨fun p _ => Nat.min_le_right _ _, fun hno => ?_, fun p _ _ => p.isLt⟩
    exact absurd (show (some "Subscript" == some "Subscript") = false from hno) (by decide)

/-! ## Commands and their arguments -/

/-- The token of a control word. -/
def wordToken (w : String) : Token := ⟨w, .command⟩

/-- The trigger of a function is a control word. -/
def hasWord (f : Entry) : Bool :=
  f.kind != .function || f.trigger.isEmpty ||
    f.trigger.any fun w => f.trigger == [w] && w.toList.head? == some '\\' && isSign w &&
      w != "\\begin"

theorem hasWord_standard : Lexicon.standard.all hasWord = true := by
  decide +kernel

/-- A function of the standard lexicon is one command. -/
theorem function_trigger {f : Entry} (hf : f ∈ Lexicon.standard) (hk : f.kind = .function)
    (hne : f.trigger ≠ []) :
    ∃ w, f.trigger = [w] ∧ ControlWord w ∧ w ∉ spacing ∧ w ≠ "\\begin" := by
  have hall := List.all_eq_true.1 hasWord_standard f hf
  rw [hasWord, hk, bne_self_eq_false, Bool.false_or, List.isEmpty_eq_false_iff.2 hne,
    Bool.false_or, List.any_eq_true] at hall
  obtain ⟨w, -, hw⟩ := hall
  rw [Bool.and_eq_true, Bool.and_eq_true, Bool.and_eq_true, beq_iff_eq, beq_iff_eq,
    bne_iff_ne] at hw
  obtain ⟨⟨⟨ht, hhead⟩, hsign⟩, hbegin⟩ := hw
  rcases of_isSign hsign with ⟨hw, hk, -⟩ | ⟨cs, rfl, -, hcs, -⟩
  · exact ⟨w, ht, hw, hk, hbegin⟩
  · rw [String.toList_ofList] at hhead
    exact absurd rfl (hcs '\\' (List.mem_of_head? hhead)).1.lone.command

theorem controlWord_ne {w v : String} (hw : ControlWord w) (hv : v.toList.head? ≠ some '\\') :
    w ≠ v := by
  rintro rfl
  obtain ⟨cs, -, -, hl⟩ := hw.letters
  exact hv (by rw [hl]; rfl)

/-- The command of a function and what comes after it, if its entry makes something of it. -/
theorem legible_command {f : Entry} (hf : f ∈ Lexicon.standard) (hk : f.kind = .function)
    {head w : String} (hn : f.name = some head) (ht : f.trigger = [w]) (hw : ControlWord w)
    (hbegin : w ≠ "\\begin") {e : Expr} {s : String} {ts : List Token}
    (hs : Scans s (wordToken w :: ts))
    (hnext : ∀ us, ∀ u ∈ (Token.raws (ts ++ us)).head?, u ∉ goingOn)
    (happ : ∀ n us, Reads n (trySymbol (Nested.atDepth Index.standard n) (1, f.indexed .function))
      (wordToken w :: ts) (some e) us) :
    Legible Index.standard e s (wordToken w :: ts) 65536 65536 [] := by
  have hne : f.trigger ≠ [] := by
    rw [ht]
    exact List.cons_ne_nil _ _
  have hc := clear_function hf hn hk hne
  have hu := (Index.usable?_symbol hne).2 hk
  -- the trigger is one command, so no other kind of entry is found for it
  have hnone : ∀ kind ∈ [Kind.matchfix, Kind.prefixOp], ∀ us,
      Index.standard.lookup kind (Token.raws (wordToken w :: ts ++ us)) = [] := by
    intro kind hkind us
    have hno := hc.lookup_other hkind (hnext us)
    rw [ht] at hno
    exact hno
  refine ⟨hs, ⟨wordToken w, ts, rfl, TokenKind.noConfusion, controlWord_ne hw (by decide),
    controlWord_ne hw (by decide)⟩, fun m _ => ?_, Nat.le_refl _⟩
  refine opens_symbol rfl ⟨TokenKind.noConfusion, TokenKind.noConfusion, TokenKind.noConfusion,
      fun h => hw.text h.2, hbegin⟩ (hnone .matchfix (by decide)) (hnone .prefixOp (by decide))
    (fun us => ?_) fun n us _ => happ n us
  have hfound := hc.lookup hf hu rfl (hnext us)
  rw [ht] at hfound
  exact hfound

/-! ## Fractions -/

/-- The template of fractions puts both operands in braces. -/
theorem fill_fraction (a b : String) :
    Template.fill "\\frac\x7b#1\x7d\x7b#2\x7d" [a, b] =
      "\\frac" ++ ("\x7b" ++ a ++ "\x7d" ++ ("\x7b" ++ b ++ "\x7d")) := by
  -- the template up to its first placeholder, between them, and behind the second one
  have hpieces : "\\frac\x7b#1\x7d\x7b#2\x7d".toList =
      "\\frac\x7b".toList ++ '#' :: '1' :: (['}', '{'] ++ '#' :: '2' :: ['}']) := rfl
  have hbrace : ∀ c ∈ ['{'], SignChar c := List.forall_mem_singleton.2 (by decide)
  have hbraces : ∀ c ∈ ['}', '{'], SignChar c := List.forall_mem_cons.2 ⟨by decide, hbrace⟩
  have hopen : ∀ s, append "\\frac\x7b" s = "\\frac\x7b" ++ s :=
    (append_signs hbrace (by decide) "\\frac").2
  obtain ⟨hmid, hafter⟩ := append_signs hbraces (by decide) ("\\frac\x7b" ++ a)
  have hclose : ∀ s, append s (String.ofList ['}']) = s ++ String.ofList ['}'] := fun s =>
    (append_signs (List.forall_mem_singleton.2 (by decide)) (by decide) s).1
  unfold Template.fill
  rw [hpieces, Template.fillFrom_placeholder _ _ (by decide)
    (show Template.placeholder? '1' = some 1 from rfl) _ (by decide), String.ofList_toList,
    empty_append, show Template.argument [a, b] 1 = a from rfl, hopen,
    Template.fillFrom_placeholder _ _ (by decide)
      (show Template.placeholder? '2' = some 2 from rfl), hmid,
    show Template.argument [a, b] 2 = b from rfl, hafter, Template.fillFrom_text _ _ (by decide),
    hclose]
  · simp only [String.append_assoc]
    rfl
  · rw [Template.escapesHash, hmid, String.toList_append, String.toList_ofList,
      List.getLast?_append_of_ne_nil _ (List.cons_ne_nil _ _)]
    decide

theorem scans_fraction {sa sb : String} {ta tb : List Token} (ha : Scans sa ta) (hb : Scans sb tb) :
    Scans ("\\frac" ++ ("\x7b" ++ sa ++ "\x7d" ++ ("\x7b" ++ sb ++ "\x7d")))
      (wordToken "\\frac" ::
        (leftBrace :: ta ++ [rightBrace] ++ (leftBrace :: tb ++ [rightBrace]))) := by
  have hstops : ∀ s t : String, Stops ("\x7b" ++ s ++ t).toList := by
    intro s t
    rw [String.append_assoc]
    exact stops_braced _
  obtain ⟨hw, hk⟩ := controlWord_of_isSign (w := "\\frac") (by decide)
  refine (scans_controlWord hw hk).append (ha.braced.append hb.braced (hstops sb _)) ?_
  rw [String.append_assoc]
  exact hstops sa _

/-- What is fused in the arguments of a fraction is so in one of them. -/
theorem fused_fraction (ta tb : List Token) :
    (Fused (wordToken "\\frac" ::
        (leftBrace :: ta ++ [rightBrace] ++ (leftBrace :: tb ++ [rightBrace]))) ↔
      Fused ta ∨ Fused tb) ∧
    ("!" ∈ Token.raws (wordToken "\\frac" ::
        (leftBrace :: ta ++ [rightBrace] ++ (leftBrace :: tb ++ [rightBrace]))) →
      "!" ∈ Token.raws ta ∨ "!" ∈ Token.raws tb) := by
  constructor
  · rw [fused_cons, or_iff_right fun h => absurd h.1 (by decide),
      fused_append fun _ u hu => by rw [← Option.some.inj hu]; decide,
      fused_fenced (by decide) (by decide), fused_fenced (by decide) (by decide)]
  · intro hm
    have hm := (List.mem_cons.1 hm).resolve_left (by decide)
    rw [← Token.raws, raws_append, List.mem_append] at hm
    exact hm.imp (mem_raws_fenced (by decide) (by decide) ta).1
      (mem_raws_fenced (by decide) (by decide) tb).1

/-- The entry of fractions. -/
theorem exists_divide : ∃ f ∈ Lexicon.standard, f.name = some "Divide" ∧ f.kind = .function ∧
    f.trigger = ["\\frac"] ∧ Index.usable? f = some (f.indexed .function) ∧
    f.parse = some (.custom Lexicon.Arithmetic.parseFraction) ∧
    f.render = some (.custom Lexicon.Arithmetic.renderDivide) := by
  obtain ⟨f, hf, hn, hk, ht, hparse, hrender⟩ : ∃ f ∈ Lexicon.standard,
      f.name = some "Divide" ∧ f.kind = .function ∧ f.trigger = Entry.triggerTokens "\\frac" ∧
      f.parse = some (.custom Lexicon.Arithmetic.parseFraction) ∧
      f.render = some (.custom Lexicon.Arithmetic.renderDivide) :=
    ⟨_, mem_standard (c := .arithmetic) (List.mem_of_getElem? (i := 9) rfl), rfl, rfl, rfl, rfl,
      rfl⟩
  rw [show Entry.triggerTokens "\\frac" = ["\\frac"] from
    triggerTokens_of_isSign (by decide) rfl] at ht
  have hu := (Index.usable?_symbol (by rw [ht]; exact List.cons_ne_nil _ _)).2 hk
  exact ⟨f, hf, hn, hk, ht, hu, hparse, hrender⟩

/-- A fraction can be read back if its two parts can. -/
theorem rereadable_divide {a b : Expr} (ha : Rereadable canonical a)
    (hb : Rereadable canonical b) : Rereadable canonical (.apply "Divide" [a, b]) := by
  obtain ⟨f, hf, hn, hk, ht, hu, hparse, hrender⟩ := exists_divide
  obtain ⟨a', sa, ta, _, _, _, fa⟩ := ha
  obtain ⟨b', sb, tb, _, _, _, fb⟩ := hb
  have hrenders : (renderer canonical).Renders (.apply "Divide" [a, b])
      ("\\frac" ++ ("\x7b" ++ sa ++ "\x7d" ++ ("\x7b" ++ sb ++ "\x7d"))) := by
    rw [← fill_fraction]
    refine renders_standard hf hn hu hrender fun level => ?_
    refine Renderer.answers_options.bind ?_
    refine (Renderer.answers_render (fa.renders.under List.mem_cons_self _)).bind ?_
    refine (Renderer.answers_render
      (fb.renders.under (List.mem_cons_of_mem _ List.mem_cons_self) _)).bind ?_
    exact Renderer.answers_pure _
  have hcustom : (f.indexed .function).parse = some Lexicon.Arithmetic.parseFraction := by
    simp only [Entry.indexed, hparse]
  have hl := legible_command (e := .apply "Divide" [a', b']) hf hk hn ht
    (controlWord_of_isSign (by decide)).1 (by decide)
    (scans_fraction fa.legible.scans fb.legible.scans)
    (fun us u hu => by rw [← Option.some.inj hu]; decide) fun n us => by
      refine reads_trySymbol_routine [wordToken "\\frac"] hcustom ?_
      exact reads_parseFraction (fa.toReadable.argument n _) (fb.toReadable.argument n _)
  obtain ⟨hfused, hmem⟩ := fused_fraction ta tb
  -- the fraction ends in a brace, so an equals sign may follow
  have hlast : (Token.raws (wordToken "\\frac" ::
      (leftBrace :: ta ++ [rightBrace] ++ (leftBrace :: tb ++ [rightBrace])))).getLast? ≠
      some "!" := by
    rw [← List.append_assoc, ← List.cons_append, getLast?_raws_append (List.cons_ne_nil _ _)]
    decide
  exact ⟨_, _, _, _, _, _, readable_closed hl (by simp) hlast rfl rfl,
    ((gathers_singleton fa.toRereads Iff.rfl id).concat fb.toRereads hfused hmem).apply "Divide",
    binds_closed canonical _ _, hrenders⟩

/-! ## Functions -/

theorem join_parenthesized (w s : String) : join [w, "(" ++ s ++ ")"] = w ++ ("(" ++ s ++ ")") := by
  have hparen : extendsControlWord ("(" ++ s ++ ")") = false := by
    rw [extendsControlWord, String.append_assoc, String.toList_append]
    rfl
  show append (append "" w) ("(" ++ s ++ ")") = _
  rw [empty_append, append, hparen, Bool.false_and, if_neg Bool.false_ne_true]

/-- The argument of a function in parentheses. -/
theorem Readable.argumentList {e : Expr} {s : String} {ts : List Token} {own edge : Nat}
    {avoid : List String} (h : Readable e s ts own edge avoid) (n : Nat) (rest : List Token) :
    Reads n (Parser.argumentList (Nested.atDepth Index.standard n))
      (leftParen :: ts ++ [rightParen]) (some [e]) rest := by
  have hno : ")" ∉ avoid := fun hm => absurd (h.wary _ hm) (by decide)
  obtain ⟨t, us, hts, ht⟩ := h.legible.begins
  rw [← h.splat]
  refine reads_argumentList rfl rfl (fun us u hu => ?_) (h.legible.opens .loosest (Nat.zero_le _))
    (groups.closes 0 · avoid hno) rest
  rw [hts] at hu
  rw [← Option.some.inj hu]
  exact ht.close

/-- A function without routines, applied to one argument. -/
theorem rereadable_function {f : Entry} {head : String} {a : Expr} (hf : f ∈ Lexicon.standard)
    (hn : f.name = some head) (hk : f.kind = .function) (hne : f.trigger ≠ [])
    (hparse : f.parse = none) (hrender : f.render = none) (ha : Rereadable canonical a) :
    Rereadable canonical (.apply head [a]) := by
  obtain ⟨w, ht, hw, hspacing, hbegin⟩ := function_trigger hf hk hne
  have hu := (Index.usable?_symbol hne).2 hk
  have hsequence := (name_ne_of_parse_eq_none hf hparse hn).2.2
  obtain ⟨hplain, hnone, htemplate⟩ := Index.indexed_routines (e := f)
    (by rw [hparse]; exact nofun) hrender .function
  obtain ⟨a', sa, ta, oa, ea, va, fa⟩ := ha
  have hrenders : (renderer canonical).Renders (.apply head [a]) (w ++ ("(" ++ sa ++ ")")) := by
    have hr := Renderer.renders_function (byName?_standard hf hu hn) hnone
      rfl fa.renders
    rw [htemplate, Entry.defaultTemplate, hk, ht] at hr
    rw [← join_parenthesized, ← empty_append w]
    exact hr
  have hno : ")" ∉ va := fun hm => absurd (fa.wary _ hm) (by decide)
  have hgroup := fa.legible.group groups hno fa.sequence []
  have hscan : Scans (w ++ ("(" ++ sa ++ ")")) (wordToken w :: (leftParen :: ta ++ [rightParen])) := by
    refine (scans_controlWord hw hspacing).append hgroup.scans fun c hc => ?_
    rw [String.append_assoc, String.toList_append] at hc
    rw [← Option.some.inj hc]
    decide
  have hl := legible_command (e := .apply head [a']) hf hk hn ht hw hbegin hscan
    (head_of_legible hgroup) fun n us => by
      have happly := reads_trySymbol_function [wordToken w] hplain rfl
        (fa.toReadable.argumentList n us)
      rw [Index.head_indexed hn] at happly
      exact happly
  -- the word and the parentheses are no factorial signs, so these are those of the argument
  have hbang : (wordToken w).raw ≠ "!" := controlWord_ne hw (by decide)
  have hfused : Fused (wordToken w :: (leftParen :: ta ++ [rightParen])) ↔ Fused ta := by
    rw [fused_cons, or_iff_right fun h => hbang h.1, fused_fenced (by decide) (by decide)]
  have hmem : "!" ∈ Token.raws (wordToken w :: (leftParen :: ta ++ [rightParen])) →
      "!" ∈ Token.raws ta := fun hm =>
    (mem_raws_fenced (by decide) (by decide) ta).1
      ((List.mem_cons.1 hm).resolve_left (Ne.symm hbang))
  have hlast : (Token.raws (wordToken w :: (leftParen :: ta ++ [rightParen]))).getLast? ≠
      some "!" := by
    rw [← List.cons_append, getLast?_raws_append (List.cons_ne_nil _ _)]
    decide
  exact ⟨_, _, _, _, _, _, readable_closed hl (by simp) hlast rfl
      (beq_eq_false_iff_ne.2 fun h => hsequence (Option.some.inj h)),
    (gathers_singleton fa.toRereads hfused hmem).apply head, binds_closed canonical _ _, hrenders⟩

/-! ## Factorials -/

theorem exists_factorial : ∃ f ∈ Lexicon.standard, f.name = some "Factorial" ∧
    f.kind = .postfixOp ∧ f.trigger = ["!"] ∧ f.precedence = some 810 ∧ f.parse = none ∧
    f.render = none := by
  obtain ⟨f, hf, hn, hk, ht, hp, hparse, hrender⟩ : ∃ f ∈ Lexicon.standard,
      f.name = some "Factorial" ∧ f.kind = .postfixOp ∧ f.trigger = Entry.triggerTokens "!" ∧
      f.precedence = some 810 ∧ f.parse = none ∧ f.render = none :=
    ⟨_, mem_standard (c := .arithmetic) (List.mem_of_getElem? (i := 13) rfl), rfl, rfl, rfl, rfl,
      rfl, rfl⟩
  rw [show Entry.triggerTokens "!" = ["!"] from triggerTokens_of_isSign (by decide) rfl] at ht
  exact ⟨f, hf, hn, hk, ht, hp, hparse, hrender⟩

/-- A factorial sign behind its operand. An equals sign must not follow it. -/
theorem Held.readable_factorial {a a' : Expr} {s : String} {ts : List Token} {own edge : Nat}
    {avoid : List String} (h : Held a a' s 810 ts own edge avoid) :
    Readable (.apply "Factorial" [a']) (append s "!") (ts ++ [bang]) 720 65536 ["="] := by
  obtain ⟨f, hf, hn, hk, ht, hp, hparse, hrender⟩ := exists_factorial
  obtain ⟨-, hc⟩ := clear_postfixOp hf hn hk
  obtain ⟨hplain, -, -⟩ := Index.indexed_routines (e := f)
    (by rw [hparse]; exact nofun) hrender (.postfixOp 810)
  -- no longer trigger begins with a factorial sign unless an equals sign comes next
  have hfound : ∀ us : List Token, (∀ u ∈ us.head?, u.raw ∉ ["="]) →
      operatorCandidates Index.standard (Token.raws (bang :: us)) =
        [(1, f.indexed (.postfixOp 810))] := by
    intro us hus
    have hnext : ∀ u ∈ (Token.raws us).head?, u ∉ goingOn := by
      intro u hu
      rw [Token.raws, List.head?_map] at hu
      obtain ⟨t, htok, rfl⟩ := Option.map_eq_some_iff.1 hu
      exact hus t htok
    have hfound := operatorCandidates_postfixOp hf hk hc hp hnext
    rw [ht] at hfound
    exact hfound
  have hown : 720 ≤ own := h.reached
  have hedge : 810 < edge := h.firm ⟨f, hf, hp, Or.inl hk⟩
  have hscan := (joins_sign (w := "!") (by decide)).after h.legible.scans
  have hbang : "!" ∉ avoid := fun hm => absurd (h.wary _ hm) (by decide)
  have hl := h.legible.postfixOp hown (show 720 ≤ (810 : Precedence).val by decide) hedge hscan
    ["="] hfound rfl hplain hbang h.toReadable.splat
  rw [Index.head_indexed hn] at hl
  have hlast : (Token.raws (ts ++ [bang])).getLast? = some "!" := by
    rw [getLast?_raws_append (List.cons_ne_nil _ _)]
    rfl
  refine ⟨hl, fun w hw => ?_, iff_of_true List.mem_cons_self hlast, fun _ => ?_, rfl, rfl⟩
  · rw [List.mem_singleton.1 hw]
    exact List.mem_cons_self
  · exact ⟨a', s, ts, edge, avoid, rfl, h.legible.mono hown, h.wary⟩

theorem Rereads.factorial_sign {a a' : Expr} {ts : List Token} (h : Rereads a a' ts) :
    Rereads (.apply "Factorial" [a]) (.apply "Factorial" [a']) (ts ++ [bang]) := by
  have hfused : Fused (ts ++ [bang]) ↔ Fused ts := by
    rw [fused_append fun _ u hu => by rw [← Option.some.inj hu]; decide]
    exact or_iff_left (by simp [fused_cons, not_fused_nil])
  show Rereads (.apply "Factorial" ([⟨a, a', ts⟩].map Part.expr))
    (.apply "Factorial" ([⟨a, a', ts⟩].map Part.reread)) (ts ++ [bang])
  refine rereads_apply (fun q hq => ?_) (hfused.trans (by simp)) fun _ => Or.inr ⟨rfl, _, rfl⟩
  rw [List.mem_singleton.1 hq]
  exact h

/-- A factorial. -/
theorem rereadable_factorial {a : Expr} (ha : Rereadable canonical a) :
    Rereadable canonical (.apply "Factorial" [a]) := by
  obtain ⟨f, hf, hn, hk, ht, hp, hparse, hrender⟩ := exists_factorial
  have hu := (Index.usable?_operator (by rw [ht]; exact List.cons_ne_nil _ _) hp).2.2 hk
  obtain ⟨-, hc⟩ := clear_postfixOp hf hn hk
  obtain ⟨-, hnone, htemplate⟩ := Index.indexed_routines (e := f)
    (by rw [hparse]; exact nofun) hrender (.postfixOp 810)
  obtain ⟨a', sa, _, _, _, _, fa⟩ := ha
  obtain ⟨ta, oa, ea, va, ha⟩ := fa.held 810
  have hrenders := Renderer.renders_postfixOp (sign_of_isSign hc.sign)
    (byName?_standard hf hu hn) hnone rfl
    (by rw [htemplate, Entry.defaultTemplate, hk]) fa.renders
  rw [ht, show join ["!"] = "!" from by decide] at hrenders
  have hprec := @precedenceOf?_standard canonical f hf "Factorial" hn _ hu
  exact ⟨_, _, _, _, _, _, ha.readable_factorial, ha.toRereads.factorial_sign,
    binds_apply hprec (by decide) (by decide) _ _ (by decide) (fun h => absurd h (by decide))
      fun p _ _ => p.isLt, hrenders⟩

end Standard
end MathMarkup
