import MathMarkup.Proofs.Grammar
import MathMarkup.Proofs.Scan

/-!
# Look-ups in the standard lexicon

What the standard lexicon says about a trigger can be evaluated, and is, once for each sort of
entry: how many entries of a kind begin with it, and which tokens it is made of. From that follows
what is found where the trigger comes next, whatever comes after it. Only an equals sign makes a
difference there: `<`, `>` and `!` have longer triggers that go on with one.
-/

namespace MathMarkup
namespace Standard

open MathMarkup.Lexer MathMarkup.Parser

/-- The tokens that a trigger of the standard lexicon may go on with. -/
def goingOn : List String := ["="]

/-! ## What is evaluated -/

/-- Where the trigger of the entry comes next, the entry is the only one of the kind, and there is
none of some other kinds. No name or numeral takes it in. -/
def isClear (f : Entry) (kind : Kind) (others : List Kind) : Bool :=
  f.trigger.head?.all (!extending.contains ·) && isSign (join f.trigger) &&
    Token.raws (signTokens (join f.trigger)) == f.trigger &&
    Index.rivals Lexicon.standard kind f.trigger goingOn == 1 &&
    others.all fun kind => Index.rivals Lexicon.standard kind f.trigger goingOn == 0

/-- Whether the parser tells the entry from all others by its name and by its trigger. -/
def isClearEntry (f : Entry) : Bool :=
  match f.kind with
  | .infixOp => f.precedence.any (fun p => p.val ≤ 720 && (f.parse.isSome || p.val != 720)) &&
    isClear f .infixOp [.postfixOp] && !f.trigger.contains "!" &&
    (f.name == some "Equal" || f.trigger.head? != some "=")
  | .postfixOp => f.precedence.any (·.val < 65535) && isClear f .postfixOp [.infixOp]
  | .prefixOp => f.precedence.any (·.val < 65535) && isClear f .prefixOp [.matchfix]
  | .function => f.trigger.isEmpty || isClear f .identifier [.matchfix, .prefixOp]
  | .identifier => !isSign (join f.trigger) || isClear f .identifier [.matchfix, .prefixOp]
  | _ => true

/-- Whether no operator at the precedence takes what is on its left as a whole. -/
def isUntaken (p : Option Precedence) : Bool :=
  Lexicon.standard.all fun g => g.precedence != p ||
    g.kind != .postfixOp && (g.kind != .infixOp || g.associativity == .right)

/-- Operators that group on the right share their precedence only with others that do, except for
those with a routine: a power takes its exponent as an argument. -/
def isUnshared (f : Entry) : Bool :=
  f.kind != .infixOp || f.associativity == .left || f.parse.isSome || isUntaken f.precedence

/-- Whether a token can begin a trigger: it is neither a letter nor a closing delimiter. -/
def isOpening (w : String) : Bool :=
  (w.toList.length != 1 || !w.toList.all Char.isAlpha) && w != ")" && w != "\x7d"

/-- All that is evaluated about an entry of the standard lexicon. -/
def isLawful (f : Entry) : Bool :=
  f.trigger.head?.all isOpening && isUnshared f &&
    (f.name.isNone || f.name.all (·.toList.length != 1) &&
      Lexicon.standard.countP (·.name == f.name) == 1 && isClearEntry f)

/-- The entries of each category are standard ones. -/
theorem mem_standard {c : Category} {f : Entry} (h : f ∈ c.entries) : f ∈ Lexicon.standard :=
  List.mem_flatMap.2 ⟨c, by cases c <;> decide, h⟩

/-- Every entry of the standard lexicon is lawful. -/
theorem lawful_standard : Lexicon.standard.all isLawful = true := by
  decide +kernel

theorem isLawful_of_mem {f : Entry} (hf : f ∈ Lexicon.standard) : isLawful f = true :=
  List.all_eq_true.1 lawful_standard f hf

/-! ## Tokens that begin nothing -/

/-- No trigger begins with the token. -/
abbrev Foreign (w : String) : Prop :=
  Index.Foreign Lexicon.standard w

/-- A word that opens no trigger finds nothing. -/
theorem foreign_of_not_opening {w : String} (h : isOpening w = false) : Foreign w := by
  intro f hf hw
  have := isLawful_of_mem hf
  rw [isLawful, Bool.and_eq_true, Bool.and_eq_true, hw, Option.all_some, h] at this
  exact absurd this.1.1 Bool.false_ne_true

/-- No trigger of the standard lexicon is a letter. -/
theorem foreign_letter {c : Char} (hc : c.isAlpha = true) : Foreign (String.ofList [c]) := by
  refine foreign_of_not_opening ?_
  unfold isOpening
  rw [String.toList_ofList]
  simp [hc]

theorem lookup_foreign {w : String} (hw : Foreign w) (kind : Kind) (us : List String) :
    Index.standard.lookup kind (w :: us) = [] :=
  Index.lookup_of_foreign hw kind us

theorem arranged : Index.standard.Arranged :=
  Index.arranged_ofEntries _

/-! ## Names -/

/-- A name of the standard lexicon is that of one entry, and no letter. -/
theorem of_named {f : Entry} (hf : f ∈ Lexicon.standard) {name : String} (hn : f.name = some name) :
    name.toList.length ≠ 1 ∧ Lexicon.standard.countP (·.name == some name) = 1 ∧
      isClearEntry f = true := by
  have := isLawful_of_mem hf
  rw [isLawful, hn, Option.isNone_some, Bool.false_or] at this
  simp only [Bool.and_eq_true, Option.all_some, bne_iff_ne, beq_iff_eq] at this
  exact ⟨this.2.1.1, this.2.1.2, this.2.2⟩

/-- The name of a standard entry finds it. -/
theorem byName?_standard {f : Entry} {i : IndexedEntry} (hf : f ∈ Lexicon.standard)
    (hi : Index.usable? f = some i) {name : String} (hn : f.name = some name) :
    Index.standard.byName? name = some i :=
  Index.byName?_of_countP hf hi hn (of_named hf hn).2.1

/-- No entry is named by a single letter. -/
theorem byName?_letter (c : Char) : Index.standard.byName? (String.ofList [c]) = none := by
  refine Index.byName?_of_not_named fun f hf hn => (of_named hf hn).1 ?_
  rw [String.toList_ofList]
  rfl

/-! ## Triggers -/

structure Clear (f : Entry) (kind : Kind) (others : List Kind) : Prop where
  calm : ∀ w ∈ f.trigger.head?, w ∉ extending
  sign : isSign (join f.trigger) = true
  tokens : Token.raws (signTokens (join f.trigger)) = f.trigger
  sole : Index.rivals Lexicon.standard kind f.trigger goingOn = 1
  unshared : ∀ kind ∈ others, Index.rivals Lexicon.standard kind f.trigger goingOn = 0

/-- The check of an entry shows that it is clear. -/
theorem clear_of_isClear {f : Entry} {kind : Kind} {others : List Kind}
    (h : isClear f kind others = true) : Clear f kind others := by
  simp only [isClear, Bool.and_eq_true, beq_iff_eq, List.all_eq_true] at h
  obtain ⟨⟨⟨⟨hc, hs⟩, ht⟩, hr⟩, hu⟩ := h
  refine ⟨fun w hw hm => ?_, hs, ht, hr, hu⟩
  rw [hw, Option.all_some, List.contains_iff_mem.2 hm] at hc
  exact Bool.noConfusion hc

theorem Clear.trigger_ne_nil {f : Entry} {kind : Kind} {others : List Kind}
    (h : Clear f kind others) : f.trigger ≠ [] := by
  intro ht
  have hs := h.sign
  rw [ht] at hs
  exact absurd hs (by decide)

/-- A clear entry is found as its kind, unless its trigger goes on. -/
theorem Clear.lookup {f : Entry} {kind : Kind} {others : List Kind} (h : Clear f kind others)
    (hf : f ∈ Lexicon.standard) {i : IndexedEntry} (hi : Index.usable? f = some i)
    (hk : i.role.foundAs kind = true) {us : List String} (hus : ∀ u ∈ us.head?, u ∉ goingOn) :
    Index.standard.lookup kind (f.trigger ++ us) = [(f.trigger.length, i)] :=
  Index.lookup_of_rivals hf hi hk h.trigger_ne_nil h.sole hus

/-- A clear entry is found as no other kind. -/
theorem Clear.lookup_other {f : Entry} {kind other : Kind} {others : List Kind}
    (h : Clear f kind others) (hk : other ∈ others) {us : List String}
    (hus : ∀ u ∈ us.head?, u ∉ goingOn) :
    Index.standard.lookup other (f.trigger ++ us) = [] :=
  Index.lookup_of_no_rivals (h.unshared other hk) hus

theorem precedence_of_any {f : Entry} (h : f.precedence.any (·.val < 65535) = true) :
    ∃ p : Precedence, f.precedence = some p ∧ p.val < 65535 := by
  obtain ⟨p, hp, hlt⟩ := (Option.any_eq_true _ _).1 h
  exact ⟨p, hp, of_decide_eq_true hlt⟩

/-- Infix operators of the standard lexicon are clear, and looser than scripts without a routine. -/
theorem clear_infixOp {f : Entry} (hf : f ∈ Lexicon.standard) {name : String}
    (hn : f.name = some name) (hk : f.kind = .infixOp) :
    (∃ p : Precedence, f.precedence = some p ∧ p.val ≤ 720 ∧ (f.parse = none → p.val < 720)) ∧
      Clear f .infixOp [.postfixOp] ∧ "!" ∉ f.trigger ∧
        (name ≠ "Equal" → f.trigger.head? ≠ some "=") := by
  have hc := (of_named hf hn).2.2
  rw [isClearEntry, hk, hn, Bool.and_eq_true, Bool.and_eq_true, Bool.and_eq_true, Bool.or_eq_true,
    beq_iff_eq, bne_iff_ne, Bool.not_eq_true', ← Bool.not_eq_true, List.contains_iff_mem] at hc
  obtain ⟨⟨⟨hany, hc⟩, hb⟩, he⟩ := hc
  obtain ⟨p, hp, hle⟩ := (Option.any_eq_true _ _).1 hany
  rw [Bool.and_eq_true, decide_eq_true_iff, Bool.or_eq_true, bne_iff_ne] at hle
  refine ⟨⟨p, hp, hle.1, fun hparse => ?_⟩, clear_of_isClear hc, hb,
    fun hne => he.resolve_left fun h => hne (Option.some.inj h)⟩
  have := hle.2.resolve_left (by rw [hparse]; exact Bool.false_ne_true)
  omega

/-- Postfix operators of the standard lexicon are clear. -/
theorem clear_postfixOp {f : Entry} (hf : f ∈ Lexicon.standard) {name : String}
    (hn : f.name = some name) (hk : f.kind = .postfixOp) :
    (∃ p : Precedence, f.precedence = some p ∧ p.val < 65535) ∧ Clear f .postfixOp [.infixOp] := by
  have hc := (of_named hf hn).2.2
  rw [isClearEntry, hk, Bool.and_eq_true] at hc
  exact ⟨precedence_of_any hc.1, clear_of_isClear hc.2⟩

/-- Prefix operators of the standard lexicon are clear. -/
theorem clear_prefixOp {f : Entry} (hf : f ∈ Lexicon.standard) {name : String}
    (hn : f.name = some name) (hk : f.kind = .prefixOp) :
    (∃ p : Precedence, f.precedence = some p ∧ p.val < 65535) ∧ Clear f .prefixOp [.matchfix] := by
  have hc := (of_named hf hn).2.2
  rw [isClearEntry, hk, Bool.and_eq_true] at hc
  exact ⟨precedence_of_any hc.1, clear_of_isClear hc.2⟩

/-- Functions of the standard lexicon are clear. -/
theorem clear_function {f : Entry} (hf : f ∈ Lexicon.standard) {name : String}
    (hn : f.name = some name) (hk : f.kind = .function) (ht : f.trigger ≠ []) :
    Clear f .identifier [.matchfix, .prefixOp] := by
  have hc := (of_named hf hn).2.2
  rw [isClearEntry, hk, Bool.or_eq_true, List.isEmpty_iff] at hc
  exact clear_of_isClear (hc.resolve_left ht)

/-- Some operator at the precedence takes what is on its left as a whole. -/
def TakesLeft (p : Precedence) : Prop :=
  ∃ f ∈ Lexicon.standard, f.precedence = some p ∧
    (f.kind = .postfixOp ∨ f.kind = .infixOp ∧ f.associativity = .left)

/-- Where an operator groups on the right, no other one takes what is on its left. -/
theorem not_takesLeft {f : Entry} (hf : f ∈ Lexicon.standard) (hk : f.kind = .infixOp)
    (ha : f.associativity = .right) (hparse : f.parse = none) {p : Precedence}
    (hp : f.precedence = some p) : ¬ TakesLeft p := by
  have hl := isLawful_of_mem hf
  rw [isLawful, Bool.and_eq_true, Bool.and_eq_true] at hl
  have hu := hl.1.2
  rw [isUnshared, hk, ha, hp, hparse] at hu
  have huntaken : isUntaken (some p) = true := hu
  rintro ⟨g, hg, hgp, hgk⟩
  have := List.all_eq_true.1 huntaken g hg
  rw [hgp, bne_self_eq_false, Bool.false_or] at this
  rcases hgk with hgk | ⟨hgk, hga⟩
  · rw [hgk] at this
    simp at this
  · rw [hgk, hga] at this
    simp at this

/-- Behind an operand, the trigger of a clear infix operator is that operator alone. -/
theorem operatorCandidates_infixOp {f : Entry} (hf : f ∈ Lexicon.standard) (hk : f.kind = .infixOp)
    (hc : Clear f .infixOp [.postfixOp]) {p : Precedence} (hp : f.precedence = some p) {us : List String}
    (hus : ∀ u ∈ us.head?, u ∉ goingOn) :
    operatorCandidates Index.standard (f.trigger ++ us) =
      [(f.trigger.length, f.indexed (.infixOp p f.associativity))] := by
  have hu := (Index.usable?_operator hc.trigger_ne_nil hp).2.1 hk
  unfold operatorCandidates
  rw [hc.lookup hf hu rfl hus, hc.lookup_other List.mem_cons_self hus]
  rfl

theorem operatorCandidates_postfixOp {f : Entry} (hf : f ∈ Lexicon.standard)
    (hk : f.kind = .postfixOp) (hc : Clear f .postfixOp [.infixOp]) {p : Precedence}
    (hp : f.precedence = some p) {us : List String} (hus : ∀ u ∈ us.head?, u ∉ goingOn) :
    operatorCandidates Index.standard (f.trigger ++ us) =
      [(f.trigger.length, f.indexed (.postfixOp p))] := by
  have hu := (Index.usable?_operator hc.trigger_ne_nil hp).2.2 hk
  unfold operatorCandidates
  rw [hc.lookup hf hu rfl hus, hc.lookup_other List.mem_cons_self hus]
  rfl

end Standard
end MathMarkup
