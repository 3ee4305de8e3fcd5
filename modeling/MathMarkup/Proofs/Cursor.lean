import MathMarkup.Proofs.Completion
import MathMarkup.Proofs.NameExtent
import MathMarkup.Proofs.Rewinding

/-!
# Where readings leave the cursor

Whoever calls the parser back, a custom routine or the recovery from an error, goes by one rule: a
reading that reads nothing leaves the cursor where it was, and one that reads something leaves it
further on (`Reading.Steps`). Every reader of the parser keeps the rule in every state, whatever
the lexicon is, as long as its custom routines never go back behind where they are called
(`Index.readersStep`).

How far a reading moves where there are tokens is known (`Reading.Moves`). What is left is the end
of the buffer, where no reading has anything to read (`Reading.Advances`).

A cursor cannot be beyond the end of its buffer, because moving it on stops there. But it is never
stopped: readers move it on by lengths that they have read off the tokens ahead, and no such length
is greater than the number of these tokens (`Parser.lengthsFit`), so each time the cursor moves by
the whole length (`Parser.index_advance_of_le`).
-/

namespace MathMarkup
namespace Reading

open MathMarkup.Parser (index_le_length)

variable {α : Type} {n : Nat}

/-- Where a reading leaves the cursor of a state: where it was if it reads nothing, further on if
it reads something, and always in the buffer, in which no more than numbers are cut. -/
structure Steps (r : Reading (Option α)) (p : Parser) : Prop where
  stays : (r p).1 = none → (r p).2.index = p.index
  moves : (r p).1 ≠ none → p.index < (r p).2.index
  within : (r p).2.index ≤ (r p).2.tokens.length
  buffer : Token.Splits p.tokens (r p).2.tokens

/-- A reading that moves or declines, and declines at the end of the tokens. -/
structure Advances (n : Nat) (r : Reading (Option α)) : Prop extends Moves n r where
  ends : ∀ p : Parser, p.ahead = [] → (r p).1 = none

/-- A reading that advances steps in every state at its level. -/
theorem Advances.steps {r : Reading (Option α)} (h : Advances n r) {p : Parser}
    (hp : p.AtLevel n) : Steps r p where
  stays := h.eq p hp
  moves hr := h.lt p hp (fun ha => hr (h.ends p ha)) hr
  within := index_le_length _
  buffer := (h.conserves p hp).splits

end Reading

namespace Parser

open Reading

variable {ix : Index} {n : Nat} {inner : Nested}

/-! ## Groups and arguments -/

/-- A group advances over its brackets. -/
theorem advances_group (hi : inner.Moving n) : Advances n (group inner) where
  toMoves := by
    refine moves_state_bind (fun _ => rfl) fun o => ?_
    split
    · split
      · exact (consumes_bind (consumes_braceGroup hi) fun _ => onward_pure _).moves fun _ => nofun
      · exact moves_none
    · exact moves_none
  ends p ha := by
    rw [group, peek_bind_apply, ha]
    rfl

/-- The token at the cursor tells which reader an argument goes to. -/
theorem argument_cases (inner : Nested) (p : Parser) :
    argument inner p = (none, p) ∧ p.ahead = [] ∨
      (∃ t ts, p.ahead = t :: ts ∧ argument inner p =
        (braceGroup inner >>= fun e => pure (some e)) p) ∨
      (∃ t ts first rest, p.ahead = t :: ts ∧ argument inner p =
        (takeDigit first rest >>= fun _ => pure (some (.number first))) p) ∨
      argument inner p = inner.primary .tightest p := by
  rw [argument, peek_bind_apply]
  cases ha : p.ahead with
  | nil => exact Or.inl ⟨rfl, rfl⟩
  | cons t ts =>
    rw [List.head?_cons]
    dsimp only
    split
    · exact Or.inr (Or.inl ⟨t, ts, rfl, rfl⟩)
    · cases splitDigit? t with
      | some parts => exact Or.inr (Or.inr (Or.inl ⟨t, ts, parts.1, parts.2, rfl, rfl⟩))
      | none => exact Or.inr (Or.inr (Or.inr rfl))

/-- An argument advances over a digit at least. -/
theorem advances_argument (hi : inner.Moving n) : Advances n (argument inner) where
  toOnward := onward_argument hi
  lt p hp ha hs := by
    -- a digit that is cut off a number is a token of its own, which is passed
    rcases argument_cases inner p with ⟨-, hnil⟩ | ⟨t, ts, -, h⟩ | ⟨t, ts, first, rest, -, h⟩ | h
    · exact absurd hnil ha
    · rw [h]
      exact (consumes_braceGroup hi).lt p hp ha
    · rw [h]
      exact Nat.lt_succ_self _
    · rw [h] at hs ⊢
      exact (hi.primary _).lt p hp ha hs
  eq p hp hs := by
    rcases argument_cases inner p with ⟨h, -⟩ | ⟨t, ts, -, h⟩ | ⟨t, ts, first, rest, -, h⟩ | h
    · rw [h]
    · rw [h] at hs
      exact absurd hs nofun
    · rw [h] at hs
      exact absurd hs nofun
    · rw [h] at hs ⊢
      exact (hi.primary _).eq p hp hs
  ends p ha := by
    rw [argument, peek_bind_apply, ha]
    rfl

/-- Arguments in parentheses advance over the parentheses. -/
theorem advances_argumentList (hi : inner.Moving n) : Advances n (argumentList inner) where
  toMoves := by
    refine moves_rewinding (onward_bind (onward_matchToken _) fun opened => ?_) ?_
    · split
      · exact onward_behindParenthesis hi
      · exact onward_pure _
    · intro p hp ha hs
      rcases matchToken_apply "(" p with hopen | hopen
      · -- the parenthesis is consumed, and nothing goes back behind it
        have hlt := (consumes_advance Nat.one_pos).lt p hp ha
        rw [bind_apply, hopen]
        exact Nat.lt_of_lt_of_le hlt
          ((onward_behindParenthesis hi).le _ ((conserves_advance 1).atLevel hp))
      · rw [bind_apply, hopen] at hs
        exact absurd rfl hs
  ends p ha := by
    have hno : matchToken "(" p = (false, p) := by
      rw [matchToken, peek_bind_apply, ha]
      rfl
    unfold argumentList
    rw [rewinding_of_none (q := p)]
    rw [bind_apply, hno]
    rfl

/-! ## Primary expressions -/

/-- At the end of the buffer nothing is looked up. -/
theorem lookup_of_ahead_nil (hx : ix.Arranged) (kind : Kind) {p : Parser} (ha : p.ahead = []) :
    ix.lookup kind (upcoming p).1 = [] := by
  rw [show (upcoming p).1 = Token.raws p.ahead from rfl, ha]
  exact Index.lookup_nil hx kind

/-- A matchfix operator advances over its delimiters. -/
theorem advances_matchfix (hx : ix.Arranged) (hi : inner.Progresses ix n) :
    Advances n (matchfix ix inner) where
  toMoves := moves_matchfix hx hi
  ends p ha := by
    rw [matchfix, bind_apply, lookup_of_ahead_nil hx .matchfix ha]
    rfl

/-- An environment advances over its begin command. -/
theorem advances_environment (hi : inner.Progresses ix n) :
    Advances n (environment ix inner) where
  toMoves := moves_environment hi
  ends p ha := by
    have hname : (takeEnvironmentName (p.advance 1)).1 = none := by
      show (environmentName (p.ahead.drop 1)).1 = none
      rw [ha]
      rfl
    -- what is tried at a begin command fails for want of a name
    unfold environment
    rw [rewinding_of_none (q := (takeEnvironmentName (p.advance 1)).2)]
    rw [bind_apply, bind_apply]
    rw [show (takeEnvironmentName (Reading.advance 1 p).2).1 = none from hname]
    rfl

/-- A prefix operator advances over its trigger. -/
theorem advances_prefixOperation (hx : ix.Arranged) (hi : inner.Progresses ix n)
    (min : Precedence) : Advances n (prefixOperation ix inner min) where
  toMoves := moves_prefixOperation hx hi min
  ends p ha := by
    rw [prefixOperation, bind_apply, lookup_of_ahead_nil hx .prefixOp ha]
    rfl

/-- A symbol advances over its spelling. -/
theorem advances_symbol (hx : ix.Arranged) (hi : inner.Progresses ix n) :
    Advances n (symbol ix inner) where
  toMoves := moves_symbol hx hi
  ends p ha := by
    rw [symbol, bind_apply, lookup_of_ahead_nil hx .identifier ha]
    -- no known symbol is found, so the tokens are asked for a name
    show (namedSymbol inner p).1 = none
    rw [namedSymbol, get_bind_apply, ha]
    rfl

end Parser

namespace Nested

open MathMarkup.Parser Reading

variable {ix : Index} {n : Nat}

/-- At the end of the buffer, nothing is read one level deeper if nothing is read here. -/
theorem ends_deeper {step : Reading (Option Expr)}
    (h : ∀ p : Parser, p.ahead = [] → (step p).1 = none) :
    ∀ p : Parser, p.ahead = [] → (deeper step p).1 = none := by
  intro p ha
  rw [deeper_apply]
  split
  · rfl
  · split
    · rfl
    · exact h p.enter ha

/-- At the end of the buffer, no level reads an operand. -/
theorem ends_primary (ix : Index) (min : Precedence) (n : Nat) :
    ∀ p : Parser, p.ahead = [] → ((atDepth ix n).primary min p).1 = none := by
  cases n with
  | zero => exact fun _ _ => rfl
  | succ n =>
    refine ends_deeper fun p ha => ?_
    rw [Parser.primary, peek_bind_apply, ha]
    rfl

/-- At the end of the buffer, no level reads an expression. -/
theorem ends_expression (ix : Index) (min : Precedence) (n : Nat) :
    ∀ p : Parser, p.ahead = [] → ((atDepth ix n).expression min p).1 = none := by
  cases n with
  | zero => exact fun _ _ => rfl
  | succ n =>
    refine ends_deeper fun p ha => ?_
    rw [operation, bind_apply, ends_primary ix min n p ha]
    rfl

end Nested

/-! ## No move beyond the end -/

namespace Parser

variable {ix : Index}

/-- An advance by no more than the tokens ahead is a full one. -/
theorem index_advance_of_le {length : Nat} {p : Parser} (h : length ≤ p.ahead.length) :
    (p.advance length).index = p.index + length := by
  rw [index_advance, Nat.min_eq_left h]

/-- There are as many tokens as each length that readers move the cursor on by, apart from the
length of one token that was looked at before. It is what a look-up has found, what delimiters, an
operator, a name, a numeral, the name of an environment or the rest of a group take, or what a
recovery sets aside. -/
structure LengthsFit (ix : Index) (tokens : List Token) : Prop where
  found : ∀ kind, ∀ c ∈ ix.lookup kind (Token.raws tokens), c.1 ≤ tokens.length
  operator : ∀ c ∈ operatorCandidates ix (Token.raws tokens), c.1 ≤ tokens.length
  delimiter : ∀ raws : List String, Token.raws (tokens.take raws.length) = raws →
    raws.length ≤ tokens.length
  name : ∀ n ∈ Name.identifier? tokens, n.2 ≤ tokens.length
  digits : (digitGroups tokens).2 ≤ tokens.length
  repeating : ∀ pointed, ∀ r ∈ repeatingPart? pointed tokens, r.2 ≤ tokens.length
  environment : (environmentName tokens).2 ≤ tokens.length
  group : ∀ depth, (groupSpan depth tokens).1 ≤ tokens.length
  symbol : ∀ length ∈ symbolLength? ix tokens, length ≤ tokens.length
  opening : ∀ d ∈ openDelimiter? ix tokens, d.1 ≤ tokens.length
  closing : ∀ length ∈ closeDelimiter? ix tokens, length ≤ tokens.length

/-- There are as many spellings as tokens. -/
theorem length_raws (tokens : List Token) : (Token.raws tokens).length = tokens.length :=
  List.length_map _

/-- A look-up finds no trigger longer than the tokens that come next. -/
theorem le_of_mem_lookup (hx : ix.Arranged) {kind : Kind} {tokens : List Token}
    {c : Nat × IndexedEntry} (hc : c ∈ ix.lookup kind (Token.raws tokens)) :
    c.1 ≤ tokens.length := by
  rw [← length_raws]
  exact (Index.of_mem_lookup hx hc).2.2.2.1

/-- Groups of digits are tokens that come next. -/
theorem digitGroups_le (tokens : List Token) : (digitGroups tokens).2 ≤ tokens.length := by
  fun_induction digitGroups tokens with
  | case2 t _ sep ts _ r ih => exact Nat.add_le_add_right ih 2
  | _ => simp

/-- The four tokens of an overline come next. -/
theorem overlined?_le {tokens : List Token} {digits : String} (h : overlined? tokens = some digits) :
    4 ≤ tokens.length := by
  unfold overlined? at h
  split at h
  · simp
  · cases h

/-- The tokens of a repeating part come next. -/
theorem repeatingPart?_le {pointed : Bool} {tokens : List Token} {r : String × Nat}
    (h : repeatingPart? pointed tokens = some r) : r.2 ≤ tokens.length := by
  cases pointed with
  | true =>
    obtain ⟨digits, hd, rfl⟩ := Option.map_eq_some_iff.1 h
    exact overlined?_le hd
  | false =>
    cases tokens with
    | nil => cases h
    | cons point rest =>
      rw [repeatingPart?, if_neg Bool.false_ne_true] at h
      by_cases hp : point.raw = "."
      · rw [if_pos hp] at h
        obtain ⟨digits, hd, rfl⟩ := Option.map_eq_some_iff.1 h
        exact Nat.succ_le_succ (overlined?_le hd)
      · rw [if_neg hp] at h
        cases h

theorem environmentNameFrom_le (name : String) (tokens : List Token) :
    (environmentNameFrom name tokens).2 ≤ tokens.length := by
  fun_induction environmentNameFrom name tokens with
  | case4 name t ts hclose hopen r ih => exact Nat.succ_le_succ ih
  | _ => simp

/-- The tokens of the name of an environment come next. -/
theorem environmentName_le (tokens : List Token) : (environmentName tokens).2 ≤ tokens.length := by
  cases tokens with
  | nil => exact Nat.le_refl 0
  | cons t ts =>
    rw [environmentName]
    by_cases ht : t.raw = "\x7b"
    · rw [if_pos ht]
      exact Nat.succ_le_succ (environmentNameFrom_le "" ts)
    · rw [if_neg ht]
      exact Nat.zero_le _

/-- The span of a group ends with the tokens. -/
theorem groupSpan_le (depth : Nat) (tokens : List Token) :
    (groupSpan depth tokens).1 ≤ tokens.length := by
  fun_induction groupSpan depth tokens with
  | case1 => exact Nat.le_refl 0
  | case2 => simp
  | _ => exact Nat.succ_le_succ ‹_›

/-- The tokens of a name come next. -/
theorem identifier?_le {tokens : List Token} {n : String × Nat}
    (h : Name.identifier? tokens = some n) : n.2 ≤ tokens.length := by
  obtain ⟨taken, rest, rfl, hlength, -⟩ := Name.exists_of_identifier? h
  rw [hlength, List.length_append]
  exact Nat.le_add_right _ _

/-- The tokens of a symbol come next. -/
theorem symbolLength?_le (hx : ix.Arranged) {tokens : List Token} {length : Nat}
    (h : symbolLength? ix tokens = some length) : length ≤ tokens.length := by
  unfold symbolLength? at h
  cases hl : ix.lookup .identifier (Token.raws tokens) with
  | nil =>
    rw [hl] at h
    obtain ⟨n, hn, rfl⟩ := Option.map_eq_some_iff.1 h
    exact identifier?_le hn
  | cons c cs =>
    rw [hl] at h
    rw [← Option.some.inj h]
    exact le_of_mem_lookup hx (hl ▸ List.mem_cons_self)

/-- The tokens of an opening delimiter come next. -/
theorem openDelimiter?_le (hx : ix.Arranged) {tokens : List Token} {d : Nat × List String}
    (h : openDelimiter? ix tokens = some d) : d.1 ≤ tokens.length := by
  unfold openDelimiter? at h
  cases hl : ix.lookup .matchfix (Token.raws tokens) with
  | cons c cs =>
    rw [hl] at h
    obtain ⟨close, -, rfl⟩ := Option.map_eq_some_iff.1 h
    exact le_of_mem_lookup hx (hl ▸ List.mem_cons_self)
  | nil =>
    rw [hl] at h
    -- an opening brace is one token
    cases tokens with
    | nil => cases h
    | cons t ts =>
      by_cases ht : t.kind = .openGroup
      · rw [← Option.some.inj ((if_pos ht).symm.trans h)]
        exact Nat.succ_le_succ (Nat.zero_le _)
      · cases (if_neg ht).symm.trans h

/-- The tokens of a closing delimiter come next. -/
theorem closeDelimiter?_le (hx : ix.Arranged) {tokens : List Token} {length : Nat}
    (h : closeDelimiter? ix tokens = some length) : length ≤ tokens.length := by
  cases tokens with
  | nil => cases h
  | cons t ts =>
    by_cases ht : t.kind = .closeGroup
    · rw [← Option.some.inj ((if_pos ht).symm.trans h)]
      exact Nat.succ_le_succ (Nat.zero_le _)
    · rw [← length_raws]
      exact (Index.of_matchClose?_eq_some hx ((if_neg ht).symm.trans h)).2.1

/-- No length that is read off the tokens ahead is greater than their number, whatever they are. -/
theorem lengthsFit (lexicon : List Entry) (tokens : List Token) :
    LengthsFit (Index.ofEntries lexicon).1 tokens := by
  have hx := Index.arranged_ofEntries lexicon
  exact
    { found := fun _ _ hc => le_of_mem_lookup hx hc
      operator := fun _ hc =>
        (mem_operatorCandidates hc).elim (le_of_mem_lookup hx) (le_of_mem_lookup hx)
      delimiter := fun raws hr => by
        rw [← hr, length_raws, List.length_take]
        exact Nat.min_le_right _ _
      name := fun _ hn => identifier?_le hn
      digits := digitGroups_le tokens
      repeating := fun _ _ hr => repeatingPart?_le hr
      environment := environmentName_le tokens
      group := fun depth => groupSpan_le depth tokens
      symbol := fun _ hl => symbolLength?_le hx hl
      opening := fun _ hd => openDelimiter?_le hx hd
      closing := fun _ hl => closeDelimiter?_le hx hl }

end Parser

/-! ## All readers -/

/-- Every reader that is given readers for what is inside moves the cursor by the rule. -/
structure Parser.ReadersStep (ix : Index) (inner : Nested) (p : Parser) : Prop where
  expression : ∀ min, Reading.Steps (inner.expression min) p
  primary : ∀ min, Reading.Steps (inner.primary min) p
  group : Reading.Steps (Parser.group inner) p
  argument : Reading.Steps (Parser.argument inner) p
  argumentList : Reading.Steps (Parser.argumentList inner) p
  matchfix : Reading.Steps (Parser.matchfix ix inner) p
  environment : Reading.Steps (Parser.environment ix inner) p
  prefixOperation : ∀ min, Reading.Steps (Parser.prefixOperation ix inner min) p
  symbol : Reading.Steps (Parser.symbol ix inner) p

/-- The readers move the cursor by the rule in every state, at any level of nesting, for every
lexicon whose custom routines never go back behind where they are called. -/
theorem Index.readersStep (lexicon : List Entry) (hr : (ofEntries lexicon).1.NeverRetreats)
    {n : Nat} {p : Parser} (hp : p.AtLevel n) :
    Parser.ReadersStep (ofEntries lexicon).1 (Nested.atDepth (ofEntries lexicon).1 n) p := by
  have hx := arranged_ofEntries lexicon
  have hi := Nested.progresses_atDepth hx hr n
  have hexpression : ∀ min, Reading.Advances n ((Nested.atDepth _ n).expression min) :=
    fun min => ⟨hi.expression min, Nested.ends_expression _ min n⟩
  have hprimary : ∀ min, Reading.Advances n ((Nested.atDepth _ n).primary min) :=
    fun min => ⟨hi.primary min, Nested.ends_primary _ min n⟩
  exact
    { expression := fun min => (hexpression min).steps hp
      primary := fun min => (hprimary min).steps hp
      group := (Parser.advances_group hi.toMoving).steps hp
      argument := (Parser.advances_argument hi.toMoving).steps hp
      argumentList := (Parser.advances_argumentList hi.toMoving).steps hp
      matchfix := (Parser.advances_matchfix hx hi).steps hp
      environment := (Parser.advances_environment hi).steps hp
      prefixOperation := fun min => (Parser.advances_prefixOperation hx hi min).steps hp
      symbol := (Parser.advances_symbol hx hi).steps hp }

/-- The standard lexicon, before a fraction whose numerator is cut off a number. -/
theorem Index.readersStep_standard :
    Index.standard.NeverRetreats ∧
      (Parser.ofTokens (Token.scan "\\frac12x")).AtLevel Nested.maxDepth ∧
      Parser.ReadersStep Index.standard (Nested.atDepth Index.standard Nested.maxDepth)
        (Parser.ofTokens (Token.scan "\\frac12x")) := by
  have hp := Parser.atLevel_ofTokens (Token.scan "\\frac12x")
  exact ⟨Index.neverRetreats_standard, hp,
    Index.readersStep Lexicon.standard Index.neverRetreats_standard hp⟩

end MathMarkup
