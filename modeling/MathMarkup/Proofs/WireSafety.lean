import MathMarkup.Proofs.ParsedNames
import MathMarkup.Proofs.ReadNames
import MathMarkup.Transcoder

/-!
# Names on the wire

What is parsed with the standard lexicon can be written as JSON, and no name in it is lost on the
way, unless the markup is at fault in the place where that name is read (`Parser.names_parse`): an
upright command has a group with nothing in it, a function is called by the mark for upright type
alone, or the argument of an accent or a typeface has an apostrophe in it. The faults are real
(`Parser.exists_parse_not_bare`), since the decoder of names takes any group that it can read, and
nobody looks at the name that comes out. Where the markup has neither upright commands nor
apostrophes, there are none (`Parser.names_parse_of_plain`).
-/

namespace MathMarkup

/-! ## The standard lexicon -/

namespace Lexicon

open MathMarkup.Parser MathMarkup.Expr

theorem bare_heads_standard :
    Index.standard.latest.all (fun e => decide (BareName e.head)) = true := by
  decide +kernel

variable {known : String → Prop}

theorem keepsNames_collecting {head : String} (hk : known head) :
    (collecting head).KeepsNames known := by
  intro start lhs _ hl rhs hr
  refine madeIfAny_some (named_apply hk (made_concat ?_ (names_orMissing hr)))
  cases lhs with
  | none => exact made_nil
  | some e =>
    have he := hl e rfl
    dsimp only
    split
    · exact he.operands
    · exact made_singleton he

theorem keepsNames_parseGroup (hk : known "Delimiter") :
    ParseHandler.KeepsNames known Structure.parseGroup := by
  intro start lhs _ hl
  cases lhs with
  | none => exact madeIfAny_some (named_apply hk made_nil)
  | some e =>
    refine madeIfAny_some (?_ : (if e.isApply "Sequence" then
      .apply "Delimiter" (Expr.splat (some e)) else e : Expr).Named known start)
    split
    · exact named_apply hk (Made.splat hl)
    · exact hl e rfl

/-- A mark behind a base takes an argument. -/
theorem keepsNames_script {head : String} (hk : known head) :
    ParseHandler.KeepsNames known fun lhs _ => do
      let script ← ParseRoutine.argument.orMissing
      return lhs.map fun base => .apply head [base, script] := by
  intro start lhs _ hl script hs
  cases lhs with
  | none => exact madeIfAny_none
  | some base =>
    exact madeIfAny_some (named_apply hk
      (made_cons (hl base rfl) (made_singleton (names_orMissing hs))))

theorem keepsNames_parseNegate (hk : known "Negate") :
    ParseHandler.KeepsNames known Arithmetic.parseNegate := by
  intro start _ _ _ operand ho
  have hn := names_orMissing ho
  refine madeIfAny_some
    (?_ : (Arithmetic.negated (operand.getD Expr.missing)).Named known start)
  unfold Arithmetic.negated
  split
  · split
    · exact named_apply hk (made_singleton (.number _))
    · exact .number _
  · exact named_apply hk (made_singleton hn)

theorem keepsNames_parseFraction (hk : known "Divide") :
    ParseHandler.KeepsNames known Arithmetic.parseFraction := by
  intro start _ _ _ numerator hn denominator hd
  exact madeIfAny_some (named_apply hk
    (made_cons (names_orMissing hn) (made_singleton (names_orMissing hd))))

theorem keepsNames_parseRoot (hs : known "Sqrt") (hr : known "Root") :
    ParseHandler.KeepsNames known Arithmetic.parseRoot := by
  intro start _ _ _ index hi radicand hradicand
  replace hradicand := names_orMissing hradicand
  cases index with
  | none => exact madeIfAny_some (named_apply hs (made_singleton hradicand))
  | some index =>
    exact madeIfAny_some (named_apply hr
      (made_cons hradicand (made_singleton (hi index rfl))))

/-- The heads that parse routines apply. -/
def routineHeads : List String :=
  ["Sequence", "Delimiter", "Subscript", "Add", "Negate", "Multiply", "Divide", "Power", "Root",
    "Sqrt", "And", "Or"]

theorem routineHeads_standard :
    routineHeads.all (fun head => Index.standard.latest.any (·.head == head)) = true := by
  decide +kernel

/-- If the heads of its entries are known, then the standard lexicon uses no other names. -/
theorem namedBy_standard (hk : ∀ e ∈ Index.standard.latest, known e.head) :
    Index.standard.NamedBy known := by
  -- a name that only a routine uses is the head of some entry as well
  have hr : ∀ head ∈ routineHeads, known head := by
    intro head hhead
    obtain ⟨e, he, heq⟩ := List.any_eq_true.1 (List.all_eq_true.1 routineHeads_standard head hhead)
    rw [← beq_iff_eq.1 heq]
    exact hk e he
  simp only [routineHeads, List.forall_mem_cons] at hr
  obtain ⟨hsequence, hdelimiter, hsubscript, hadd, hnegate, hmultiply, hdivide, hpower, hroot,
    hsqrt, hand, hor, -⟩ := hr
  have hcollects : ∀ head ∈ ["Sequence", "Add", "Multiply", "And", "Or"], known head := by
    simp only [List.forall_mem_cons]
    exact ⟨hsequence, hadd, hmultiply, hand, hor, by simp⟩
  intro e he
  refine ⟨hk e he, fun handler hh => ?_⟩
  exact forall_routines_standard (P := ParseHandler.KeepsNames known)
    (fun head hhead => keepsNames_collecting (hcollects head hhead))
    (keepsNames_parseGroup hdelimiter) (keepsNames_script hsubscript) (keepsNames_parseNegate hnegate)
    (keepsNames_parseFraction hdivide) (keepsNames_script hpower) (keepsNames_parseRoot hsqrt hroot)
    handler (Index.routine_of_mem_latest he hh)

end Lexicon

/-! ## Tokens with a text -/

namespace Lexer

theorem raw_mathToken? {mode mode' : Mode} {cs rest : List Char} {t : Token}
    (h : mathToken? mode cs = some (t, mode', rest)) : t.raw ≠ "" := by
  unfold mathToken? at h
  split at h
  · cases h
  · obtain ⟨rfl, -⟩ := Prod.mk.inj (Option.some.inj h)
    simp
  · split at h
    next hn =>
      obtain ⟨rfl, -⟩ := Prod.mk.inj (Option.some.inj h)
      have hne := (splitNumber?_append hn).2
      simpa using hne
    next =>
      dsimp only at h
      repeat' split at h
      all_goals
        obtain ⟨rfl, -⟩ := Prod.mk.inj (Option.some.inj h)
        simp

theorem raw_next? {mode mode' : Mode} {cs rest : List Char} {t : Token}
    (h : next? mode cs = some (t, mode', rest)) : t.raw ≠ "" := by
  unfold next? at h
  split at h
  · split at h
    next => exact raw_mathToken? h
    next text _ hne _ =>
      obtain ⟨rfl, -⟩ := Prod.mk.inj (Option.some.inj h)
      simpa using hne
  · exact raw_mathToken? h

/-- No token of some markup is empty. -/
theorem raw_of_mem_scanFrom {mode : Mode} {cs : List Char} :
    ∀ t ∈ scanFrom mode cs, t.raw ≠ "" := by
  fun_induction scanFrom mode cs with
  | case1 => simp
  | case2 mode cs t mode' rest hnext ih => exact List.forall_mem_cons.2 ⟨raw_next? hnext, ih⟩

end Lexer

namespace Parser

open MathMarkup.Expr

/-- A token is one of those at the start, or a piece of a number. -/
theorem mem_of_splits {ts us : List Token} (h : Token.Splits ts us) {u : Token} (hu : u ∈ us) :
    u ∈ ts ∨ u.kind = .number ∧ u.raw ≠ "" ∧ ∃ t ∈ ts, u.raw.toList ⊆ t.raw.toList := by
  induction h generalizing u with
  | refl => exact Or.inl hu
  | tail _ hs ih =>
    obtain ⟨left, right, first, rest, hf, hr, rfl, rfl⟩ := hs
    -- both parts of a number that is cut are part of the token that it came from
    have hpiece : ∀ {piece : String}, piece ≠ "" → piece.toList ⊆ (first ++ rest).toList →
        piece ≠ "" ∧ ∃ t ∈ ts, piece.toList ⊆ t.raw.toList := by
      intro piece hne hsub
      refine ⟨hne, ?_⟩
      rcases ih (List.mem_append_right _ List.mem_cons_self) with hm | ⟨-, -, t, ht, hwhole⟩
      · exact ⟨_, hm, hsub⟩
      · exact ⟨t, ht, List.Subset.trans hsub hwhole⟩
    rcases List.mem_append.1 hu with hu | hu
    · exact ih (List.mem_append_left _ hu)
    · rcases List.mem_cons.1 hu with rfl | hu
      · refine Or.inr ⟨rfl, hpiece hf ?_⟩
        rw [String.toList_append]
        exact List.subset_append_left _ _
      · rcases List.mem_cons.1 hu with rfl | hu
        · refine Or.inr ⟨rfl, hpiece hr ?_⟩
          rw [String.toList_append]
          exact List.subset_append_right _ _
        · exact ih (List.mem_append_right _ (List.mem_cons_of_mem _ hu))

/-- Wherever a parse of some markup is, no token is empty. -/
theorem raw_of_place {markup : String} {here : List Token}
    (h : Token.Place (ofTokens (Token.scan markup)).tokens here) : ∀ t ∈ here, t.raw ≠ "" := by
  obtain ⟨ts, hs, hsuffix⟩ := h
  intro t ht
  rcases mem_of_splits hs (hsuffix.subset ht) with hm | ⟨-, hne, -⟩
  · exact Lexer.raw_of_mem_scanFrom t ((dropSpacing_sublist none _).subset hm)
  · exact hne

/-! ## The names in a parse -/

/-- A head drops the mark for upright type. -/
theorem functionName_cases (name : String) :
    functionName name = name ∨ name = functionName name ++ "_upright" := by
  unfold functionName
  dsimp only
  split
  next hs =>
    obtain ⟨before, hb⟩ := List.isSuffixOf_iff_suffix.1 hs
    refine Or.inr (String.toList_inj.1 ?_)
    rw [← hb, List.length_append, Nat.add_sub_cancel, List.take_left, String.toList_append]
    exact congrArg (· ++ "_upright".toList) String.toList_ofList.symm
  next => exact Or.inl rfl

theorem readIdentifier?_of_identifier? {here : List Token} {name : String} {length : Nat}
    (h : Name.identifier? here = some (name, length)) :
    ∃ rest, Name.readIdentifier? here = some (name, rest) := by
  obtain ⟨⟨read, rest⟩, hr, heq⟩ := Option.map_eq_some_iff.1 h
  obtain ⟨rfl, -⟩ := Prod.mk.inj heq
  exact ⟨rest, hr⟩

/-- A symbol is bare, unless the tokens that it is read off are at fault. -/
theorem bareName_or_fault_symbol {here rest : List Token} (hraw : ∀ t ∈ here, t.raw ≠ "")
    {name : String} (h : Name.readIdentifier? here = some (name, rest)) :
    BareName name ∨ Name.Fault here name := by
  rcases Name.begun_or_fault hraw h with hb | hf | ⟨hempty, hf⟩
  · exact Or.inl hb.bareName
  · exact Or.inr (hf name)
  · rw [hempty]
    exact Or.inr hf

/-- A head is bare, unless the tokens that it is read off are at fault. -/
theorem bareName_or_fault_function {here rest : List Token} (hraw : ∀ t ∈ here, t.raw ≠ "")
    {name : String} (h : Name.readIdentifier? here = some (name, rest))
    (hu : here.head?.any (fun t => Name.isUpright t.raw) = true) :
    BareName (functionName name) ∨ Name.Fault here (functionName name) := by
  rcases functionName_cases name with hsame | hdrop
  · rw [hsame]
    exact bareName_or_fault_symbol hraw h
  by_cases hempty : functionName name = ""
  · -- nothing is left without the mark
    rw [hempty] at hdrop ⊢
    rw [hdrop] at h
    cases here with
    | nil => cases h
    | cons command ts => exact Or.inr (.marked (Name.kind_of_isUpright h hu) hu h)
  rcases Name.begun_or_fault hraw h with ⟨c, hc, hne⟩ | hf | ⟨hname, -⟩
  · -- what is left begins as it did with the mark
    rw [hdrop, String.toList_append, List.head?_append] at hc
    cases hhead : (functionName name).toList.head? with
    | none =>
      exact absurd (String.toList_eq_nil_iff.1 (List.head?_eq_none_iff.1 hhead)) hempty
    | some d =>
      rw [hhead] at hc
      exact Or.inl (Name.Begun.bareName ⟨d, hhead, Option.some.inj hc ▸ hne⟩)
  · exact Or.inr (hf _)
  · rw [hname] at hempty
    exact absurd (by decide : functionName "" = "") hempty

theorem bareName_or_fault {here : List Token} (hraw : ∀ t ∈ here, t.raw ≠ "") {name : String}
    (h : Calls here name) : BareName name ∨ Name.Fault here name := by
  cases h with
  | symbol h =>
    obtain ⟨rest, hr⟩ := readIdentifier?_of_identifier? h
    exact bareName_or_fault_symbol hraw hr
  | function h hu hp =>
    obtain ⟨rest, hr⟩ := readIdentifier?_of_identifier? h
    exact bareName_or_fault_function hraw hr hu

/-- What is parsed with the standard lexicon is made with the parser's own names, the heads of the
entries and names that are read off the markup. -/
theorem named_parseTokens {known : String → Prop}
    (hk : ∀ e ∈ Index.standard.latest, known e.head) (markup : String) :
    (parseTokens Index.standard (Token.scan markup)).1.Named known
      (ofTokens (Token.scan markup)).tokens :=
  (yields_parseAll (Index.arranged_ofEntries _) (Lexicon.namedBy_standard hk)
    (ofTokens (Token.scan markup)) (atLevel_ofTokens _) .refl).2

/-- The names in the parse of some markup with the standard lexicon are bare or read off the
markup. -/
theorem named_parse (options : Options) (markup : String) :
    (Transcoder.parse { options } markup).1.Names fun name =>
      BareName name ∨ ∃ here, Token.Place (ofTokens (Token.scan markup)).tokens here ∧
        Calls here name := by
  have hmade := @named_parseTokens BareName (fun e he =>
    of_decide_eq_true (List.all_eq_true.1 Lexicon.bare_heads_standard e he)) markup
  -- a name of the parser itself and one of the lexicon are bare, and any other one is read off the
  -- markup
  have hnames : (parseTokens Index.standard (Token.scan markup)).1.Names fun name =>
      BareName name ∨ ∃ here, Token.Place (ofTokens (Token.scan markup)).tokens here ∧
        Calls here name := by
    refine hmade.names.mono fun name hname => ?_
    cases hname with
    | own h =>
      have hown : ∀ head ∈ ownHeads, BareName head := by decide
      exact Or.inl (hown name h)
    | known h => exact Or.inl h
    | read hp hc => exact Or.inr ⟨_, hp, hc⟩
  have hparse : (Transcoder.parse { options } markup).1 =
      if options.preserveLatex then
        (parseTokens Index.standard (Token.scan markup)).1.annotate markup
      else (parseTokens Index.standard (Token.scan markup)).1 := rfl
  rw [hparse]
  split
  · rw [Expr.annotate, hmade.strip_eq]
    exact .annotated markup hnames
  · exact hnames

/-- Every name in the parse of some markup with the standard lexicon is bare, unless the markup is
at fault at the place where the name is read. -/
theorem names_parse (options : Options) (markup : String) :
    (Transcoder.parse { options } markup).1.Names fun name =>
      BareName name ∨ ∃ here, Token.Place (ofTokens (Token.scan markup)).tokens here ∧
        Calls here name ∧ Name.Fault here name := by
  refine (named_parse options markup).mono fun name hname => ?_
  rcases hname with hb | ⟨here, hplace, hcalls⟩
  · exact Or.inl hb
  · rcases bareName_or_fault (raw_of_place hplace) hcalls with hb | hf
    · exact Or.inl hb
    · exact Or.inr ⟨here, hplace, hcalls, hf⟩

/-- Without upright commands and apostrophes in the markup, every name in the parse is bare. -/
theorem names_parse_of_plain (options : Options) {markup : String}
    (hu : ∀ t ∈ Token.scan markup, Name.isUpright t.raw = false)
    (hq : ∀ t ∈ Token.scan markup, '\'' ∉ t.raw.toList) :
    (Transcoder.parse { options } markup).1.Names BareName := by
  refine (named_parse options markup).mono fun name hname => ?_
  rcases hname with hb | ⟨here, hplace, hcalls⟩
  · exact hb
  refine (bareName_or_fault (raw_of_place hplace) hcalls).resolve_right fun hf => ?_
  -- the token at fault is one of the markup, or a digit or the rest of a number
  obtain ⟨t, ht, hcause⟩ := hf.exists_mem
  obtain ⟨ts, hs, hsuffix⟩ := hplace
  rcases mem_of_splits hs (hsuffix.subset ht) with hm | ⟨hk, -, u, hm, hsub⟩
  · have hscan := (dropSpacing_sublist none _).subset hm
    rcases hcause with ⟨-, hupright⟩ | hquote
    · exact absurd ((hu t hscan).symm.trans hupright) Bool.false_ne_true
    · exact hq t hscan hquote
  · rcases hcause with ⟨hcommand, -⟩ | hquote
    · cases hk.symm.trans hcommand
    · exact hq u ((dropSpacing_sublist none _).subset hm) (hsub hquote)

/-- So not every parse can be written without a loss: an operator name with nothing in it is a
symbol without a name. -/
theorem exists_parse_not_bare : ¬ ∀ (options : Options) (markup : String),
    (Transcoder.parse { options } markup).1.Names BareName := by
  intro h
  have hparse : (Transcoder.parse {} "\\operatorname\x7b\x7d").1 = .symbol "" := by
    decide +kernel
  have hnames := h {} "\\operatorname\x7b\x7d"
  rw [hparse] at hnames
  cases hnames with
  | symbol hname => exact hname.ne_empty rfl

end Parser
end MathMarkup
