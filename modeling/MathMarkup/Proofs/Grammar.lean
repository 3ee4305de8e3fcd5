import MathMarkup.Lexicon.Standard
import MathMarkup.Parser.Recovery
import MathMarkup.Proofs.Lookup
import MathMarkup.Proofs.Reads

/-!
# The forms of expressions

One rule for each form of markup says what it is read as: numerals, names, fences, operators before,
between and after operands, commands with braced arguments and functions with parentheses. The rules
ask of the index only what its look-ups find at the tokens in question, so they hold in every
lexicon.

An operand is followed by whatever follows the expression it is in, so the rules carry a
continuation. `Parser.Opens` is the statement that is closed under putting operators together, and
`Parser.Opens.expression` ends it: what is read before something that cannot go on is the
expression.
-/

namespace MathMarkup
namespace Parser

open Reading Nested

variable {ix : Index} {n : Nat}

/-! ## Matching tokens -/

/-- Spellings that come next are matched and passed. -/
theorem reads_matchTokens {ts : List Token} {raws : List String} (h : Token.raws ts = raws)
    (rest : List Token) : Reads n (matchTokens raws) ts true rest := by
  have hl : raws.length = ts.length := by rw [← h, Token.raws, List.length_map]
  refine reads_get_bind (conserves_matchTokens _) fun p hp => ?_
  rw [hp, hl, List.take_left, if_pos h]
  exact reads_bind_right (reads_advance ts rest) (fun _ => conserves_pure _) (reads_pure _ _)

/-- Spellings that do not come next are not matched, and nothing is passed. -/
theorem reads_matchTokens_none {rest : List Token} {raws : List String}
    (h : Token.raws (rest.take raws.length) ≠ raws) :
    Reads n (matchTokens raws) [] false rest := by
  refine reads_get_bind (conserves_matchTokens _) fun p hp => ?_
  rw [hp, List.nil_append, if_neg h]
  exact reads_pure _ _

/-- The spelling of the token that comes next is matched. -/
theorem reads_matchToken (t : Token) (rest : List Token) :
    Reads n (matchToken t.raw) [t] true rest := by
  refine reads_peek_bind (conserves_matchToken _) ?_
  show Reads n (if t.raw = t.raw then _ else _) _ _ _
  rw [if_pos rfl]
  exact reads_bind_right (reads_advance_one t rest) (fun _ => conserves_pure _) (reads_pure _ _)

/-- Another spelling than that of the token that comes next is not matched. -/
theorem reads_matchToken_none {rest : List Token} {raw : String}
    (h : ∀ t ∈ rest.head?, t.raw ≠ raw) : Reads n (matchToken raw) [] false rest := by
  refine reads_peek_bind (conserves_matchToken _) ?_
  rw [List.nil_append]
  cases hh : rest.head? with
  | none => exact reads_pure _ _
  | some t =>
    show Reads n (if t.raw = raw then _ else _) _ _ _
    rw [if_neg (h t hh)]
    exact reads_pure _ _

/-- A closing brace ends a group. -/
theorem reads_matchCloseGroup {t : Token} (h : t.kind = .closeGroup) (rest : List Token) :
    Reads n matchCloseGroup [t] true rest := by
  refine reads_peek_bind conserves_matchCloseGroup ?_
  show Reads n (if t.kind = .closeGroup then _ else _) _ _ _
  rw [if_pos h]
  exact reads_bind_right (reads_advance_one t rest) (fun _ => conserves_pure _) (reads_pure _ _)

/-- Any other token ends no group. -/
theorem reads_matchCloseGroup_none {t : Token} (h : t.kind ≠ .closeGroup) (rest : List Token) :
    Reads n matchCloseGroup [] false (t :: rest) := by
  refine reads_peek_bind conserves_matchCloseGroup ?_
  show Reads n (if t.kind = .closeGroup then _ else _) _ _ _
  rw [if_neg h]
  exact reads_pure _ _

/-! ## Levels of nesting -/

/-- Giving up at the limit of nesting counts as reading anything, as the limit is excepted. -/
theorem reads_giveUp (ts : List Token) (o : Option Expr) (rest : List Token) :
    Reads 0 giveUp ts o rest :=
  ⟨(conserves_atDepth {} 0).expression .loosest, fun _ _ _ => Or.inl rfl⟩

/-- A level deeper the same is read, unless there is none left. -/
theorem reads_deeper {step : Reading (Option Expr)} {ts rest : List Token} {o : Option Expr}
    (h : Reads n step ts o rest) : Reads (n + 1) (deeper step) ts o rest := by
  refine ⟨conserves_deeper h.conserves, fun p hp ha => ?_⟩
  rw [deeper_apply]
  split
  · exact Or.inl ‹_›
  · split
    · exact Or.inl rfl
    · exact h.outcome p.enter hp.enter ha

/-- What an operation reads at every level, an expression reads. -/
theorem reads_expression {m : Precedence} {ts rest : List Token} {o : Option Expr}
    (h : ∀ n, Reads n (operation ix (atDepth ix n) m) ts o rest) (n : Nat) :
    Reads n ((atDepth ix n).expression m) ts o rest := by
  cases n with
  | zero => exact reads_giveUp ts o rest
  | succ n => exact reads_deeper (h n)

/-- What is read on every level is read on the level below. -/
theorem reads_primary {m : Precedence} {ts rest : List Token} {o : Option Expr}
    (h : ∀ n, Reads n (Parser.primary ix (atDepth ix n) m) ts o rest) (n : Nat) :
    Reads n ((atDepth ix n).primary m) ts o rest := by
  cases n with
  | zero => exact reads_giveUp ts o rest
  | succ n => exact reads_deeper (h n)

/-! ## What ends an expression -/

/-- Raw texts that a name or a numeral may take in after it. -/
def extending : List String := [thinSpace, ".", "("]

/-- An expression whose operators bind at least as tightly as `t` goes no further here, and its last
token does not take in what comes next. -/
structure Ends (ix : Index) (t : Nat) (avoid : List String) (rest : List Token) : Prop where
  quiet : ∀ n (m : Precedence) lhs, t ≤ m.val →
    Reads n (suffix ix (atDepth ix n) m lhs) [] none rest
  calm : ∀ u ∈ rest.head?, u.raw ∉ avoid

/-- What ends an expression of some precedence ends one of a looser one. -/
theorem Ends.mono {t t' : Nat} {avoid : List String} {rest : List Token}
    (h : Ends ix t avoid rest) (ht : t ≤ t') : Ends ix t' avoid rest :=
  ⟨fun n m lhs hm => h.quiet n m lhs (Nat.le_trans ht hm), h.calm⟩

/-- Where no operator comes next, an operand may. -/
theorem reads_suffix_bare {m : Precedence} {lhs : Expr} {ts rest : List Token} {o : Option Expr}
    (hc : operatorCandidates ix (Token.raws (ts ++ rest)) = [])
    (h : Reads n (juxtapose ix (atDepth ix n) m lhs) ts o rest) :
    Reads n (suffix ix (atDepth ix n) m lhs) ts o rest := by
  refine reads_upcoming_bind (conserves_suffix ix (conserves_atDepth ix n) m lhs) ?_
  rw [hc]
  exact h

/-- Whether an operand is looked for hangs on the precedence and on there being a token. -/
theorem reads_juxtapose {q : Precedence}
    (hq : (ix.byName? "Multiply").bind IndexedEntry.precedence? = some q) {m : Precedence}
    {lhs : Expr} {ts rest : List Token} {o : Option Expr}
    (h : Reads n (if q < m || (ts ++ rest).isEmpty then (pure none : Reading (Option Expr)) else
      Reading.rewinding do
        match ← (atDepth ix n).expression q.tighter with
        | some rhs => return some (.apply "Multiply" (factors lhs ++ [rhs]))
        | none => return none) ts o rest) :
    Reads n (juxtapose ix (atDepth ix n) m lhs) ts o rest := by
  have hi := conserves_atDepth ix n
  unfold juxtapose
  rw [hq]
  refine reads_state_bind (fun _ => rfl) (fun atEnd => ?_) h
  split
  · exact conserves_pure _
  · refine conserves_rewinding (conserves_bind (hi.expression _) fun o => ?_)
    split <;> exact conserves_pure _

/-- An operator that binds looser is left for later. -/
theorem ends_of_operator {t : Nat} {avoid : List String} {rest : List Token} {top : Nat × IndexedEntry}
    {others : List (Nat × IndexedEntry)} {q : Precedence}
    (hc : operatorCandidates ix (Token.raws rest) = top :: others)
    (hq : top.2.precedence? = some q) (ht : q.val < t) (hcalm : ∀ u ∈ rest.head?, u.raw ∉ avoid) :
    Ends ix t avoid rest := by
  refine ⟨fun n m lhs hm => ?_, hcalm⟩
  refine reads_upcoming_bind (conserves_suffix ix (conserves_atDepth ix n) m lhs) ?_
  rw [List.nil_append, hc]
  have : admits m top = false := by
    rw [admits, hq]
    exact decide_eq_false (by rw [Fin.le_def]; omega)
  show Reads n (if admits m top then _ else _) _ _ _
  rw [this, if_neg Bool.false_ne_true]
  exact reads_pure _ _

/-- Where nothing begins, nothing is multiplied. -/
theorem ends_of_declines (t : Nat) {avoid : List String} {rest : List Token}
    (hc : operatorCandidates ix (Token.raws rest) = [])
    (hd : rest ≠ [] → ∀ n m, Reads n ((atDepth ix n).expression m) [] none rest)
    (hcalm : ∀ u ∈ rest.head?, u.raw ∉ avoid) : Ends ix t avoid rest := by
  refine ⟨fun n m lhs _ => reads_suffix_bare hc ?_, hcalm⟩
  -- an expression is tried for the other factor only if a product has a precedence
  cases hq : (ix.byName? "Multiply").bind IndexedEntry.precedence? with
  | none =>
    unfold juxtapose
    rw [hq]
    exact reads_pure _ _
  | some q =>
    refine reads_juxtapose hq ?_
    rw [List.nil_append]
    split
    next => exact reads_pure _ _
    next hmore =>
      have hne : rest ≠ [] := by
        intro hn
        rw [hn, List.isEmpty_nil, Bool.or_true] at hmore
        exact hmore rfl
      refine reads_rewinding_none (reads_bind_right (hd hne n _) (fun o => ?_) (reads_pure _ _))
      split <;> exact conserves_pure _

/-- Where an expression ends, no suffix is read. -/
theorem reads_suffixes_none {t : Nat} {avoid : List String} {m : Precedence} {rest : List Token}
    (h : Ends ix t avoid rest) (hm : t ≤ m.val) (e : Expr) (n : Nat) :
    Reads n (suffixes ix (atDepth ix n) m e) [] e rest := by
  have hi := conserves_atDepth ix n
  refine reads_loop_last (conserves_suffixRound ix hi m) ?_
  refine reads_bind_right (h.quiet n m e hm) (fun o => ?_) (reads_pure _ _)
  cases o <;> exact conserves_pure _

/-- One more operator after an expression. -/
theorem reads_suffixes_some {m : Precedence} {e e' x : Expr} {ts us rest : List Token}
    (hne : ts ≠ []) (h : Reads n (suffix ix (atDepth ix n) m e) ts (some e') (us ++ rest))
    (hs : Reads n (suffixes ix (atDepth ix n) m e') us x rest) :
    Reads n (suffixes ix (atDepth ix n) m e) (ts ++ us) x rest := by
  have hi := conserves_atDepth ix n
  refine reads_loop_again (conserves_suffixRound ix hi m) hne ?_ hs
  refine reads_bind_right h (fun o => ?_) (reads_pure _ _)
  cases o <;> exact conserves_pure _

/-! ## What begins an expression -/

/-- An expression at precedence `m` that begins with `ts` has `e` as its left part, whatever is done
with it then, as long as nothing goes on at the precedence `t` inside of `e`. -/
def Opens (ix : Index) (m : Precedence) (e : Expr) (ts : List Token) (t : Nat)
    (avoid : List String) : Prop :=
  ∀ n us x rest, Ends ix t avoid (us ++ rest) → Reads n (suffixes ix (atDepth ix n) m e) us x rest →
    Reads n (operation ix (atDepth ix n) m) (ts ++ us) (some x) rest

/-- What begins an expression is read as one, where it ends. -/
theorem Opens.expression {m : Precedence} {e : Expr} {ts rest : List Token} {t : Nat}
    {avoid : List String} (h : Opens ix m e ts t avoid) (ht : Ends ix t avoid rest)
    (hm : Ends ix m.val avoid rest) (n : Nat) :
    Reads n ((atDepth ix n).expression m) ts (some e) rest := by
  refine reads_expression (fun n => ?_) n
  have hs := reads_suffixes_none hm (Nat.le_refl _) e n
  have := h n [] e rest ht hs
  rw [List.append_nil] at this
  exact this

/-- What a primary expression reads, an expression can begin with. -/
theorem opens_of_primary {m : Precedence} {e : Expr} {ts : List Token} {t : Nat}
    {avoid : List String} (h : ∀ n rest, Ends ix t avoid rest →
      Reads n (Parser.primary ix (atDepth ix n) m) ts (some e) rest) :
    Opens ix m e ts t avoid := by
  intro n us x rest ht hs
  have hi := conserves_atDepth ix n
  refine reads_bind (reads_primary (fun n => h n _ ht) n) (fun o => ?_) ?_
  · cases o with
    | none => exact conserves_pure _
    | some lhs => exact conserves_bind (conserves_suffixes ix hi m lhs) fun _ => conserves_pure _
  · exact reads_bind_right hs (fun _ => conserves_pure _) (reads_pure _ _)

/-! ## The alternatives for a primary expression -/

/-- Without a matchfix entry, none is read. -/
theorem reads_matchfix_none {rest : List Token}
    (h : ix.lookup .matchfix (Token.raws rest) = []) :
    Reads n (matchfix ix (atDepth ix n)) [] none rest := by
  refine reads_upcoming_bind (conserves_matchfix ix (conserves_atDepth ix n)) ?_
  rw [List.nil_append, h]
  exact reads_firstOf_nil rest

/-- Without a prefix operator, none is read. -/
theorem reads_prefixOperation_none {rest : List Token} (m : Precedence)
    (h : ix.lookup .prefixOp (Token.raws rest) = []) :
    Reads n (prefixOperation ix (atDepth ix n) m) [] none rest := by
  refine reads_upcoming_bind (conserves_prefixOperation ix (conserves_atDepth ix n) m) ?_
  rw [List.nil_append, h]
  exact reads_firstOf_nil rest

/-- Where no name comes next, none is read. -/
theorem reads_namedSymbol_none {rest : List Token} (h : Name.identifier? rest = none) :
    Reads n (namedSymbol (atDepth ix n)) [] none rest := by
  have hi := conserves_atDepth ix n
  refine ⟨conserves_namedSymbol hi, fun p hp ha => Or.inr ?_⟩
  unfold namedSymbol
  rw [get_bind_apply, show Name.identifier? p.ahead = none by rw [ha]; exact h]
  exact ⟨rfl, rfl, ha⟩

/-- Where no symbol or function of the lexicon comes next, a name may. -/
theorem reads_symbol_named {ts rest : List Token} {o : Option Expr}
    (h : ix.lookup .identifier (Token.raws (ts ++ rest)) = [])
    (hn : Reads n (namedSymbol (atDepth ix n)) ts o rest) :
    Reads n (symbol ix (atDepth ix n)) ts o rest := by
  have hi := conserves_atDepth ix n
  refine reads_upcoming_bind (conserves_symbol ix hi) ?_
  rw [h]
  refine reads_bind_left (reads_firstOf_nil _) (fun o => ?_) hn
  cases o with
  | none => exact conserves_namedSymbol hi
  | some e => exact conserves_pure _

/-- Where neither an entry nor a name comes next, no symbol is read. -/
theorem reads_symbol_none {rest : List Token}
    (h : ix.lookup .identifier (Token.raws rest) = []) (hn : Name.identifier? rest = none) :
    Reads n (symbol ix (atDepth ix n)) [] none rest :=
  reads_symbol_named h (reads_namedSymbol_none hn)

/-- A token that is neither a number nor a brace nor a text command: the alternatives are tried in
turn. -/
structure Plain (t : Token) : Prop where
  number : t.kind ≠ .number
  openGroup : t.kind ≠ .openGroup
  closeGroup : t.kind ≠ .closeGroup
  text : ¬ (t.kind = .command ∧ t.raw ∈ Token.textCommands)
  begin : t.raw ≠ "\\begin"

/-- An operand that begins with no number is read by its first token. -/
theorem reads_primary_of_head {t : Token} (ht : t.kind ≠ .number) {m : Precedence}
    {ts us rest : List Token} {o : Option Expr} (hts : ts ++ rest = t :: us)
    (h : Reads n (primaryFrom ix (atDepth ix n) m t) ts o rest) :
    Reads n (Parser.primary ix (atDepth ix n) m) ts o rest := by
  refine reads_peek_bind (conserves_primary ix (conserves_atDepth ix n) m) ?_
  rw [hts]
  show Reads n (if t.kind = .number then _ else primaryFrom ix (atDepth ix n) m t) _ _ _
  rw [if_neg ht]
  exact h

/-- An operand that begins with an ordinary token is a delimited expression, an operator or a
symbol. -/
theorem reads_primary_of_plain {t : Token} (ht : Plain t) {m : Precedence}
    {ts us rest : List Token} {o : Option Expr} (hts : ts ++ rest = t :: us)
    (h : Reads n (firstOf id [matchfix ix (atDepth ix n), pure none,
      prefixOperation ix (atDepth ix n) m, symbol ix (atDepth ix n)]) ts o rest) :
    Reads n (Parser.primary ix (atDepth ix n) m) ts o rest := by
  refine reads_primary_of_head ht.number hts ?_
  unfold primaryFrom
  rw [if_neg ht.openGroup, if_neg ht.closeGroup, if_neg ht.text, if_neg ht.begin]
  exact h

/-- Where no trigger and no name begins, there is no primary expression. -/
theorem reads_primary_none {t : Token} (ht : Plain t) {us : List Token} (m : Precedence)
    (hm : ix.lookup .matchfix (Token.raws (t :: us)) = [])
    (hp : ix.lookup .prefixOp (Token.raws (t :: us)) = [])
    (hs : ix.lookup .identifier (Token.raws (t :: us)) = [])
    (hn : Name.identifier? (t :: us) = none) :
    Reads n (Parser.primary ix (atDepth ix n) m) [] none (t :: us) := by
  refine reads_primary_of_plain ht rfl ?_
  refine reads_firstOf_tail (reads_matchfix_none hm) ?_
  refine reads_firstOf_tail (reads_pure _ _) ?_
  refine reads_firstOf_tail (reads_prefixOperation_none m hp) ?_
  exact reads_firstOf_tail (reads_symbol_none hs hn) (reads_firstOf_nil _)

/-- Where no operand comes next, no expression is read. -/
theorem reads_expression_none {rest : List Token} {m : Precedence}
    (h : ∀ n, Reads n (Parser.primary ix (atDepth ix n) m) [] none rest) (n : Nat) :
    Reads n ((atDepth ix n).expression m) [] none rest := by
  refine reads_expression (fun n => ?_) n
  refine reads_bind_right (reads_primary h n) (fun o => ?_) (reads_pure _ _)
  cases o with
  | none => exact conserves_pure _
  | some lhs =>
    exact conserves_bind (conserves_suffixes ix (conserves_atDepth ix n) m lhs)
      fun _ => conserves_pure _

/-- Nothing begins with a closing brace. -/
theorem reads_expression_closeGroup {t : Token} (ht : t.kind = .closeGroup) (us : List Token)
    (m : Precedence) (n : Nat) : Reads n ((atDepth ix n).expression m) [] none (t :: us) := by
  refine reads_expression_none (fun n => ?_) n
  refine reads_primary_of_head (by rw [ht]; decide) rfl ?_
  unfold primaryFrom
  rw [if_neg (by rw [ht]; decide), if_pos ht]
  exact reads_pure _ _

/-- A token that no trigger takes ends every expression. -/
theorem ends_of_stray {t : Token} (ht : Plain t) {avoid : List String} (hcalm : t.raw ∉ avoid)
    {us : List Token}
    (hl : ∀ kind, ix.lookup kind (Token.raws (t :: us)) = [])
    (hn : Name.identifier? (t :: us) = none) (k : Nat) : Ends ix k avoid (t :: us) := by
  refine ends_of_declines k ?_ (fun _ n m => ?_) fun u hu => ?_
  · unfold operatorCandidates
    rw [hl .postfixOp, hl .infixOp, List.foldr_nil]
  · exact reads_expression_none
      (fun n => reads_primary_none ht m (hl .matchfix) (hl .prefixOp) (hl .identifier) hn) n
  · rw [← Option.some.inj hu]
    exact hcalm

/-- The end of the input ends every expression. -/
theorem ends_nil (ha : ix.Arranged) (k : Nat) (avoid : List String) : Ends ix k avoid [] := by
  refine ends_of_declines k ?_ (fun h => absurd rfl h) (fun u hu => absurd hu (by simp))
  unfold operatorCandidates
  rw [show Token.raws [] = [] from rfl, Index.lookup_nil ha, Index.lookup_nil ha, List.foldr_nil]

/-! ## Numerals and names -/

/-- A numeral is its groups of digits, where nothing repeats behind them. -/
theorem reads_numeral {ts rest : List Token} {groups : List String}
    (hg : digitGroups (ts ++ rest) = (groups, ts.length))
    (hr : repeatingPart? ((withLeadingZero (String.join groups)).toList.contains '.') rest = none) :
    Reads n numeral ts (.number (withLeadingZero (String.join groups))) rest := by
  refine reads_get_bind conserves_numeral fun p hp => ?_
  rw [hp, hg]
  refine reads_bind_right (reads_advance ts rest) (fun _ => conserves_repeating _) ?_
  refine reads_get_bind (conserves_repeating _) fun q hq => ?_
  rw [hq, List.nil_append, hr]
  exact reads_pure _ _

/-- A numeral begins an expression, if nothing behind it goes on with it. -/
theorem opens_numeral {m : Precedence} {t : Token} {ts : List Token} {text : String}
    (ht : t.kind = .number) (h : ∀ rest, (∀ u ∈ rest.head?, u.raw ∉ extending) →
      ∀ n, Reads n numeral (t :: ts) (.number text) rest) :
    Opens ix m (.number text) (t :: ts) 65536 extending := by
  refine opens_of_primary fun n rest he =>
    reads_peek_bind (conserves_primary ix (conserves_atDepth ix n) m) ?_
  show Reads n (if t.kind = .number then _ else _) _ _ _
  rw [if_pos ht]
  exact reads_bind_right (h rest he.calm n) (fun _ => conserves_pure _) (reads_pure _ _)

/-- Without a parenthesis there are no arguments. -/
theorem reads_argumentList_none {rest : List Token} (h : ∀ u ∈ rest.head?, u.raw ≠ "(") :
    Reads n (argumentList (atDepth ix n)) [] none rest := by
  refine reads_rewinding_none ?_
  refine reads_bind_right (reads_matchToken_none h) (fun opened => ?_) (reads_pure _ _)
  split
  · exact conserves_behindParenthesis (conserves_atDepth ix n)
  · exact conserves_pure _

/-- A name takes its tokens, and no parenthesis follows that would make it a function. Only upright
names are functions. -/
theorem reads_namedSymbol {ts rest : List Token} {name : String}
    (hn : Name.identifier? (ts ++ rest) = some (name, ts.length))
    (h : ((ts ++ rest).head?.any fun t => Name.isUpright t.raw) = true →
      ∀ u ∈ rest.head?, u.raw ≠ "(") :
    Reads n (namedSymbol (atDepth ix n)) ts (some (.symbol name)) rest := by
  have hi := conserves_atDepth ix n
  refine reads_get_bind (conserves_namedSymbol hi) fun p hp => ?_
  dsimp only
  rw [hp, hn]
  refine reads_bind_right (reads_advance _ rest) (fun _ => ?_) ?_
  · split
    · refine conserves_bind (conserves_argumentList hi) fun arguments => ?_
      split <;> exact conserves_pure _
    · exact conserves_pure _
  · split
    next hupright =>
      exact reads_bind_right (reads_argumentList_none (h hupright))
        (fun arguments => by split <;> exact conserves_pure _) (reads_pure _ _)
    next => exact reads_pure _ _

/-- A name that no trigger takes. -/
theorem opens_namedSymbol {m : Precedence} {t : Token} {ts : List Token} {name : String}
    {avoid : List String} (ht : Plain t)
    (hm : ∀ us, ix.lookup .matchfix (Token.raws (t :: ts ++ us)) = [])
    (hp : ∀ us, ix.lookup .prefixOp (Token.raws (t :: ts ++ us)) = [])
    (hs : ∀ us, ix.lookup .identifier (Token.raws (t :: ts ++ us)) = [])
    (hn : ∀ n rest, Ends ix 65536 avoid rest →
      Reads n (namedSymbol (atDepth ix n)) (t :: ts) (some (.symbol name)) rest) :
    Opens ix m (.symbol name) (t :: ts) 65536 avoid := by
  refine opens_of_primary fun n rest he => ?_
  have hi := conserves_atDepth ix n
  refine reads_primary_of_plain ht rfl ?_
  refine reads_firstOf_tail (reads_matchfix_none (hm rest)) ?_
  refine reads_firstOf_tail (reads_pure _ _) ?_
  refine reads_firstOf_tail (reads_prefixOperation_none m (hp rest)) ?_
  exact reads_firstOf_head (fun _ h => absurd h (List.not_mem_nil))
    (reads_symbol_named (hs rest) (hn n rest he))

/-- A name that may turn out to be a function if a parenthesis follows. -/
theorem opens_name {m : Precedence} {t : Token} {ts : List Token} {name : String} (ht : Plain t)
    (hm : ∀ us, ix.lookup .matchfix (Token.raws (t :: ts ++ us)) = [])
    (hp : ∀ us, ix.lookup .prefixOp (Token.raws (t :: ts ++ us)) = [])
    (hs : ∀ us, ix.lookup .identifier (Token.raws (t :: ts ++ us)) = [])
    (hn : ∀ us, Name.identifier? (t :: ts ++ us) = some (name, (t :: ts).length)) :
    Opens ix m (.symbol name) (t :: ts) 65536 extending :=
  opens_namedSymbol ht hm hp hs fun _ rest he =>
    reads_namedSymbol (hn rest) fun _ u hu hr => he.calm u hu (by rw [hr]; decide)

/-! ## Fences and groups -/

/-- What is between delimiters, up to the one that closes. It does not come at once, but right after
the expression. -/
theorem reads_delimited {right : Token} {ts rest : List Token} {t : Nat} {avoid : List String}
    {e : Expr} (hne : ∀ u ∈ (ts ++ ([right] ++ rest)).head?, u.raw ≠ right.raw)
    (he : Opens ix .loosest e ts t avoid) (hr : Ends ix 0 avoid (right :: rest)) :
    Reads n (delimited (atDepth ix n) [right.raw]) (ts ++ [right]) (some (some e)) rest := by
  have hi := conserves_atDepth ix n
  -- the closing delimiter is looked for before the expression and after it
  refine reads_bind_left (reads_matchTokens_none ?_) (fun closed => ?_) ?_
  · intro heq
    cases hts : ts ++ ([right] ++ rest) with
    | nil => exact absurd (List.append_eq_nil_iff.1 hts).2 (by simp)
    | cons u us =>
      rw [List.append_assoc, hts] at heq
      exact hne u (by rw [hts]; rfl) (List.cons.inj heq).1
  · split
    · exact conserves_pure _
    · refine conserves_bind (hi.expression _) fun body => ?_
      exact conserves_bind (conserves_matchTokens _) fun closed => by
        split <;> exact conserves_pure _
  · rw [if_neg Bool.false_ne_true]
    refine reads_bind (he.expression (hr.mono (Nat.zero_le t)) hr n) (fun body => ?_) ?_
    · exact conserves_bind (conserves_matchTokens _) fun closed => by
        split <;> exact conserves_pure _
    · refine reads_bind_right (@reads_matchTokens n [right] [right.raw] rfl rest)
        (fun closed => ?_) ?_
      · split <;> exact conserves_pure _
      · rw [if_pos rfl]
        exact reads_pure _ _

/-- An expression between delimiters, if the routine of the delimiters makes something of it. -/
theorem opens_fence {m : Precedence} {left right : Token} {ts : List Token} {t : Nat}
    {avoid avoid' : List String} {entry : IndexedEntry} {handler : ParseHandler} {e e' : Expr}
    (hl : Plain left)
    (hm : ∀ us, ix.lookup .matchfix (Token.raws (left :: us)) = [(1, entry)])
    (hc : entry.role.close? = some [right.raw]) (hh : entry.parse = some handler)
    (hne : ∀ us, ∀ u ∈ (ts ++ us).head?, u.raw ≠ right.raw)
    (he : Opens ix .loosest e ts t avoid) (hr : ∀ us, Ends ix 0 avoid (right :: us))
    (hrun : ∀ n us, Reads n (runHandler (atDepth ix n) handler (some e) .loosest) [] (some e') us) :
    Opens ix m e' (left :: ts ++ [right]) 65536 avoid' := by
  refine opens_of_primary fun n rest _ => ?_
  have hi := conserves_atDepth ix n
  refine reads_primary_of_plain hl rfl ?_
  -- delimiters are tried first, so the other ways to begin only have to conserve the tokens
  refine reads_firstOf_head (fun r hr => ?_) ?_
  · simp only [List.mem_cons, List.not_mem_nil, or_false] at hr
    rcases hr with rfl | rfl | rfl
    · exact conserves_pure none
    · exact conserves_prefixOperation ix hi m
    · exact conserves_symbol ix hi
  refine reads_upcoming_bind (conserves_matchfix ix hi) ?_
  rw [List.append_assoc, List.cons_append, hm]
  refine reads_firstOf_head (fun _ h => absurd h List.not_mem_nil) ?_
  refine reads_rewinding ?_
  dsimp only
  rw [hc, hh]
  dsimp only
  show Reads n _ ([left] ++ (ts ++ [right])) _ _
  refine reads_bind (reads_advance_one left _) (fun _ => ?_) ?_
  · refine conserves_bind (conserves_delimited hi _) fun o => ?_
    cases o with
    | none => exact conserves_pure _
    | some body => exact conserves_runHandler hi _ _ _
  refine reads_bind_right (reads_delimited (hne _) he (hr rest)) (fun o => ?_) (hrun n rest)
  cases o with
  | none => exact conserves_pure _
  | some body => exact conserves_runHandler hi _ _ _

/-- An expression in braces. -/
theorem reads_braceGroup {left right : Token} {ts : List Token} {t : Nat} {avoid : List String}
    {e : Expr}
    (hr : right.kind = .closeGroup) (hts : ∃ u us, ts = u :: us ∧ u.kind ≠ .closeGroup)
    (he : Opens ix .loosest e ts t avoid) (hends : ∀ us, Ends ix 0 avoid (right :: us))
    (rest : List Token) : Reads n (braceGroup (atDepth ix n)) (left :: ts ++ [right]) e rest := by
  have hi := conserves_atDepth ix n
  obtain ⟨u, us, rfl, hu⟩ := hts
  refine reads_index_bind fun start => ?_
  show Reads n _ ([left] ++ (u :: us ++ [right])) _ _
  -- what may come after each step conserves the tokens, so that the steps can be put together
  have hend : ∀ (body : Option Expr) (closed : Bool), Conserves n
      (if closed = true then (pure (body.getD (.sequence [])) : Reading Expr)
        else skipToCloseGroup start body) := by
    intro body closed
    split
    · exact conserves_pure _
    · exact conserves_skipToCloseGroup start body
  have hbody : ∀ closed : Bool, Conserves n
      (if closed = true then (pure (.sequence []) : Reading Expr)
        else (atDepth ix n).expression .loosest >>= fun body => matchCloseGroup >>= fun closed =>
          if closed = true then pure (body.getD (.sequence [])) else skipToCloseGroup start body) := by
    intro closed
    split
    · exact conserves_pure _
    · exact conserves_bind (hi.expression _) fun body =>
        conserves_bind conserves_matchCloseGroup fun closed => hend body closed
  refine reads_bind (reads_advance_one left _)
    (fun _ => conserves_bind conserves_matchCloseGroup hbody) ?_
  refine reads_bind_left (reads_matchCloseGroup_none hu _) hbody ?_
  rw [if_neg Bool.false_ne_true]
  refine reads_bind (he.expression ((hends rest).mono (Nat.zero_le t)) (hends rest) n)
    (fun body => conserves_bind conserves_matchCloseGroup fun closed => hend body closed) ?_
  refine reads_bind_right (reads_matchCloseGroup hr rest) (hend _) ?_
  rw [if_pos rfl]
  exact reads_pure _ _

/-- The argument of a command in braces. -/
theorem reads_argument {left right : Token} {ts : List Token} {e : Expr} {rest : List Token}
    (hl : left.kind = .openGroup)
    (h : Reads n (braceGroup (atDepth ix n)) (left :: ts ++ [right]) e rest) :
    Reads n (argument (atDepth ix n)) (left :: ts ++ [right]) (some e) rest := by
  have hi := conserves_atDepth ix n
  refine reads_of_eq (conserves_argument hi) (fun p ha => ?_)
    (reads_bind_right h (fun _ => conserves_pure _) (reads_pure (some e) rest))
  unfold argument
  rw [peek_bind_apply, ha]
  show ((if left.kind = .openGroup then _ else _) : Reading (Option Expr)) p = _
  rw [if_pos hl]

/-! ## Operators -/

/-- An operator after an operand, with what it applies to after it. The operator with the longest
trigger is the one. -/
theorem reads_suffix {m q : Precedence} {op : Token} {ops ts rest : List Token}
    {entry : IndexedEntry} {others : List (Nat × IndexedEntry)} {lhs e : Expr}
    (hc : operatorCandidates ix (Token.raws (op :: ops ++ ts ++ rest)) =
      ((op :: ops).length, entry) :: others)
    (hq : entry.precedence? = some q) (hm : m ≤ q)
    (ha : Reads n (applyOperator (atDepth ix n) entry lhs q) ts (some e) rest) :
    Reads n (suffix ix (atDepth ix n) m lhs) (op :: ops ++ ts) (some e) rest := by
  have hi := conserves_atDepth ix n
  refine reads_upcoming_bind (conserves_suffix ix hi m lhs) ?_
  rw [hc]
  have hadmits : admits m ((op :: ops).length, entry) = true := by
    rw [admits, hq]
    exact decide_eq_true hm
  show Reads n (if admits m ((op :: ops).length, entry) then firstOf _ _ else _) _ _ _
  -- the operator is admitted, so it is the first of those that are tried
  rw [hadmits, if_pos rfl]
  refine reads_firstOf_head (fun _ _ => conserves_tryOperator hi m lhs _) ?_
  unfold tryOperator
  dsimp only
  rw [hq]
  dsimp only
  rw [if_pos hm]
  exact reads_rewinding
    (reads_bind (reads_advance (op :: ops) _) (fun _ => conserves_applyOperator hi _ _ _) ha)

/-- An expression goes on with an operator: it is the left operand, and what the operator makes of
it is the left part of the whole. -/
theorem Opens.operator {m q : Precedence} {a e : Expr} {ta ts : List Token} {s t : Nat}
    {avoid avoid' : List String} {op : Token} {entry : IndexedEntry} (ha : Opens ix m a ta s avoid)
    (ops : List Token) (hc : ∀ us, Ends ix t avoid' us → ∃ others,
      operatorCandidates ix (Token.raws (op :: ops ++ ts ++ us)) =
        ((op :: ops).length, entry) :: others)
    (hq : entry.precedence? = some q) (hm : m ≤ q) (hs : q.val < s) (hop : op.raw ∉ avoid)
    (happ : ∀ n us, Ends ix t avoid' us →
      Reads n (applyOperator (atDepth ix n) entry a q) ts (some e) us) :
    Opens ix m e (ta ++ (op :: ops ++ ts)) t avoid' := by
  intro n us x rest ht hx
  obtain ⟨others, hcand⟩ := hc _ ht
  have hends : Ends ix s avoid ((op :: ops ++ ts ++ us) ++ rest) := by
    rw [List.append_assoc]
    refine ends_of_operator hcand hq hs fun u hu => ?_
    rw [← Option.some.inj hu]
    exact hop
  have hgo := reads_suffixes_some (List.cons_ne_nil op (ops ++ ts))
    (reads_suffix hcand hq hm (happ n _ ht)) hx
  have h := ha n _ x rest hends hgo
  rw [List.append_assoc]
  exact h

/-- An operator between operands reads the right one. -/
theorem reads_applyOperator_infixOp {entry : IndexedEntry} {q : Precedence} {assoc : Associativity}
    (hr : entry.role = .infixOp q assoc) (hh : entry.parse = none) {lhs b : Expr}
    {ts rest : List Token}
    (hb : Reads n ((atDepth ix n).expression (rightPrecedence assoc q)) ts (some b) rest) :
    Reads n (applyOperator (atDepth ix n) entry lhs q) ts (some (.apply entry.head [lhs, b]))
      rest := by
  unfold applyOperator
  rw [hr, hh]
  refine reads_bind_right ?_ (fun _ => conserves_pure _) (reads_pure _ _)
  exact reads_bind_right hb (fun _ => conserves_pure _) (reads_pure _ _)

/-- An operator with a routine reads what the routine does. -/
theorem reads_applyOperator_routine {entry : IndexedEntry} {q : Precedence} {assoc : Associativity}
    {handler : ParseHandler} (hr : entry.role = .infixOp q assoc) (hh : entry.parse = some handler)
    {lhs e : Expr} {ts rest : List Token}
    (hb : Reads n (runHandler (atDepth ix n) handler (some lhs) (rightPrecedence assoc q)) ts
      (some e) rest) :
    Reads n (applyOperator (atDepth ix n) entry lhs q) ts (some e) rest := by
  unfold applyOperator
  rw [hr, hh]
  exact hb

/-- An operator behind its operand reads nothing more. -/
theorem reads_applyOperator_postfixOp {entry : IndexedEntry} {p q : Precedence}
    (hr : entry.role = .postfixOp p) (hh : entry.parse = none) {lhs : Expr}
    (hl : Expr.splat (some lhs) = [lhs]) (rest : List Token) :
    Reads n (applyOperator (atDepth ix n) entry lhs q) [] (some (.apply entry.head [lhs])) rest := by
  unfold applyOperator
  rw [hr, hh]
  refine reads_bind_right (a := .apply entry.head [lhs]) ?_ (fun _ => conserves_pure _)
    (reads_pure _ _)
  unfold postfixApplication
  rw [hl]
  exact reads_pure _ rest

/-! ## Prefix operators -/

/-- A prefix operator begins an expression, given what it makes of the tokens after it. -/
theorem opens_prefixOp {m : Precedence} {op : Token} {entry : IndexedEntry} {e : Expr}
    {ts : List Token} {t : Nat} {avoid : List String} (hop : Plain op)
    (hm : ∀ us, ix.lookup .matchfix (Token.raws (op :: ts ++ us)) = [])
    (hc : ∀ us, ix.lookup .prefixOp (Token.raws (op :: ts ++ us)) = [(1, entry)])
    (h : ∀ n us, Ends ix t avoid us →
      Reads n (tryPrefixOp (atDepth ix n) m (1, entry)) (op :: ts) (some e) us) :
    Opens ix m e (op :: ts) t avoid := by
  refine opens_of_primary fun n rest ht => ?_
  have hi := conserves_atDepth ix n
  refine reads_primary_of_plain hop rfl ?_
  refine reads_firstOf_tail (reads_matchfix_none (hm _)) ?_
  refine reads_firstOf_tail (reads_pure _ _) ?_
  refine reads_firstOf_head (fun r hr => ?_) ?_
  · rw [List.mem_singleton.1 hr]
    exact conserves_symbol ix hi
  refine reads_upcoming_bind (conserves_prefixOperation ix hi m) ?_
  rw [hc]
  exact reads_firstOf_head (fun _ h => absurd h List.not_mem_nil) (h n rest ht)

/-- A prefix operator reads its operand. -/
theorem reads_tryPrefixOp {m p : Precedence} {op : Token} {entry : IndexedEntry} {a : Expr}
    {ts rest : List Token} (hp : entry.precedence? = some p) (hh : entry.parse = none)
    (ha : Reads n ((atDepth ix n).expression (p.tighter.tighterOf m)) ts (some a) rest) :
    Reads n (tryPrefixOp (atDepth ix n) m (1, entry)) (op :: ts)
      (some (.apply entry.head [a])) rest := by
  have hi := conserves_atDepth ix n
  unfold tryPrefixOp
  dsimp only
  rw [hp, hh]
  refine reads_rewinding ?_
  show Reads n _ ([op] ++ ts) _ _
  refine reads_bind (reads_advance_one op _)
    (fun _ => conserves_bind (hi.expression _) fun _ => conserves_pure _) ?_
  exact reads_bind_right ha (fun _ => conserves_pure _) (reads_pure _ _)

/-- A prefix operator with a routine reads what the routine does. -/
theorem reads_tryPrefixOp_routine {m p : Precedence} {op : Token} {entry : IndexedEntry}
    {handler : ParseHandler} {e : Expr} {ts rest : List Token}
    (hp : entry.precedence? = some p) (hh : entry.parse = some handler)
    (h : Reads n (runHandler (atDepth ix n) handler none (p.tighter.tighterOf m)) ts (some e)
      rest) :
    Reads n (tryPrefixOp (atDepth ix n) m (1, entry)) (op :: ts) (some e) rest := by
  have hi := conserves_atDepth ix n
  unfold tryPrefixOp
  dsimp only
  rw [hp, hh]
  refine reads_rewinding ?_
  show Reads n _ ([op] ++ ts) _ _
  exact reads_bind (reads_advance_one op _) (fun _ => conserves_runHandler hi _ _ _) h

/-! ## Symbols and functions with entries -/

/-- The trigger of a symbol or a function begins an expression, given what its entry makes of
it. -/
theorem opens_symbol {m : Precedence} {u : Token} {ts us : List Token} {k : Nat}
    {avoid : List String} {entry : IndexedEntry} {e : Expr} (hts : ts = u :: us) (hu : Plain u)
    (hm : ∀ us, ix.lookup .matchfix (Token.raws (ts ++ us)) = [])
    (hp : ∀ us, ix.lookup .prefixOp (Token.raws (ts ++ us)) = [])
    (hs : ∀ us, ix.lookup .identifier (Token.raws (ts ++ us)) = [(k, entry)])
    (h : ∀ n us, Ends ix 65536 avoid us →
      Reads n (trySymbol (atDepth ix n) (k, entry)) ts (some e) us) :
    Opens ix m e ts 65536 avoid := by
  refine opens_of_primary fun n rest ht => ?_
  have hi := conserves_atDepth ix n
  refine reads_primary_of_plain hu (by rw [hts]; rfl) ?_
  -- delimiters, braces and prefix operators are tried before symbols, and none is found
  refine reads_firstOf_tail (reads_matchfix_none (hm rest)) ?_
  refine reads_firstOf_tail (reads_pure _ _) ?_
  refine reads_firstOf_tail (reads_prefixOperation_none m (hp rest)) ?_
  refine reads_firstOf_head (fun _ h => absurd h (List.not_mem_nil)) ?_
  refine reads_upcoming_bind (conserves_symbol ix hi) ?_
  rw [hs rest]
  refine reads_bind_right
    (reads_firstOf_head (fun _ h => absurd h List.not_mem_nil) (h n rest ht)) (fun o => ?_)
    (reads_pure _ _)
  cases o with
  | none => exact conserves_namedSymbol hi
  | some e => exact conserves_pure _

/-- A symbol with a routine reads what the routine does. -/
theorem reads_trySymbol_routine {entry : IndexedEntry} {handler : ParseHandler} {e : Expr}
    (trigger : List Token) {ts rest : List Token} (hh : entry.parse = some handler)
    (h : Reads n (runHandler (atDepth ix n) handler none .loosest) ts (some e) rest) :
    Reads n (trySymbol (atDepth ix n) (trigger.length, entry)) (trigger ++ ts) (some e) rest := by
  have hi := conserves_atDepth ix n
  unfold trySymbol
  dsimp only
  rw [hh]
  exact reads_rewinding
    (reads_bind (reads_advance trigger _) (fun _ => conserves_runHandler hi _ _ _) h)

/-- Arguments in parentheses. -/
theorem reads_argumentList {left right : Token} {ts : List Token} {t : Nat} {avoid : List String}
    {e : Expr}
    (hl : left.raw = "(") (hr : right.raw = ")") (hne : ∀ us, ∀ u ∈ (ts ++ us).head?, u.raw ≠ ")")
    (he : Opens ix .loosest e ts t avoid) (hends : ∀ us, Ends ix 0 avoid (right :: us))
    (rest : List Token) :
    Reads n (argumentList (atDepth ix n)) (left :: ts ++ [right]) (some (Expr.splat (some e)))
      rest := by
  have hi := conserves_atDepth ix n
  refine reads_rewinding ?_
  show Reads n _ ([left] ++ (ts ++ [right])) _ _
  -- what may come after each step conserves the tokens, whether it finds its parenthesis or not
  have hlast : ∀ (body : Option Expr) (closed : Bool), Conserves n
      (if closed = true then (pure (some (Expr.splat body)) : Reading (Option (List Expr)))
        else pure none) := by
    intro body closed
    split <;> exact conserves_pure _
  have hbody : ∀ closed : Bool, Conserves n
      (if closed = true then (pure (some []) : Reading (Option (List Expr)))
        else (atDepth ix n).expression .loosest >>= fun body => matchToken ")" >>= fun closed =>
          if closed = true then pure (some (Expr.splat body)) else pure none) := by
    intro closed
    split
    · exact conserves_pure _
    · exact conserves_bind (hi.expression _) fun body =>
        conserves_bind (conserves_matchToken _) (hlast body)
  refine reads_bind (a := true) (by rw [← hl]; exact reads_matchToken left _) (fun opened => ?_) ?_
  · split
    · exact conserves_bind (conserves_matchToken _) hbody
    · exact conserves_pure _
  rw [if_pos rfl]
  refine reads_bind_left (reads_matchToken_none ?_) hbody ?_
  · rw [List.append_assoc]
    exact hne ([right] ++ rest)
  rw [if_neg Bool.false_ne_true]
  refine reads_bind (he.expression ((hends rest).mono (Nat.zero_le t)) (hends rest) n)
    (fun body => conserves_bind (conserves_matchToken _) (hlast body)) ?_
  refine reads_bind_right (a := true) (by rw [← hr]; exact reads_matchToken right _) (hlast _) ?_
  rw [if_pos rfl]
  exact reads_pure _ _

/-- A function before arguments in parentheses. -/
theorem reads_trySymbol_function {entry : IndexedEntry} {arguments : List Expr}
    (trigger : List Token) {ts rest : List Token} (hh : entry.parse = none) (hr : entry.role = .function)
    (h : Reads n (argumentList (atDepth ix n)) ts (some arguments) rest) :
    Reads n (trySymbol (atDepth ix n) (trigger.length, entry)) (trigger ++ ts)
      (some (.apply entry.head arguments)) rest := by
  have hi := conserves_atDepth ix n
  unfold trySymbol
  dsimp only
  rw [hh]
  dsimp only
  rw [if_pos hr]
  refine reads_rewinding (reads_bind (reads_advance trigger _)
    (fun _ => conserves_bind (conserves_functionArguments hi _) fun _ => conserves_pure _) ?_)
  refine reads_bind_right (a := .apply entry.head arguments) ?_ (fun _ => conserves_pure _)
    (reads_pure _ _)
  refine reads_bind_right h (fun o => ?_) (reads_pure _ _)
  cases o with
  | some arguments => exact conserves_pure _
  | none =>
    refine conserves_bind (hi.expression _) fun o => ?_
    cases o <;> exact conserves_pure _

/-! ## Routines of the lexicon -/

open MathMarkup.Lexicon

/-- Repeated operands are collected under one head. -/
theorem reads_collecting {head : String} {lhs a : Expr} {p : Precedence} {ts rest : List Token}
    (ha : Reads n ((atDepth ix n).expression p) ts (some a) rest) :
    Reads n (runHandler (atDepth ix n) (collecting head) (some lhs) p) ts
      (some (.apply head ((if lhs.isApply head then lhs.operands else [lhs]) ++ [a]))) rest :=
  reads_bind_right ha (fun _ => conserves_pure _) (reads_pure _ _)

/-- The routine for signs negates the operand behind the sign. -/
theorem reads_parseNegate {a : Expr} {p : Precedence} {ts rest : List Token}
    (ha : Reads n ((atDepth ix n).expression p) ts (some a) rest) :
    Reads n (runHandler (atDepth ix n) Arithmetic.parseNegate none p) ts
      (some (Arithmetic.negated a)) rest :=
  reads_bind_right ha (fun _ => conserves_pure _) (reads_pure _ _)

/-- The routine for powers raises the base to the argument. -/
theorem reads_parsePower {base a : Expr} {p : Precedence} {ts rest : List Token}
    (ha : Reads n (argument (atDepth ix n)) ts (some a) rest) :
    Reads n (runHandler (atDepth ix n) Arithmetic.parsePower (some base) p) ts
      (some (.apply "Power" [base, a])) rest :=
  reads_bind_right ha (fun _ => conserves_pure _) (reads_pure _ _)

/-- The routine for subscripts puts the argument below the base. -/
theorem reads_parseSubscript {base a : Expr} {p : Precedence} {ts rest : List Token}
    (ha : Reads n (argument (atDepth ix n)) ts (some a) rest) :
    Reads n (runHandler (atDepth ix n) Structure.parseSubscript (some base) p) ts
      (some (.apply "Subscript" [base, a])) rest :=
  reads_bind_right ha (fun _ => conserves_pure _) (reads_pure _ _)

/-- The routine for fractions divides its first argument by its second. -/
theorem reads_parseFraction {a b : Expr} {p : Precedence} {ts us rest : List Token}
    (ha : Reads n (argument (atDepth ix n)) ts (some a) (us ++ rest))
    (hb : Reads n (argument (atDepth ix n)) us (some b) rest) :
    Reads n (runHandler (atDepth ix n) Arithmetic.parseFraction none p) (ts ++ us)
      (some (.apply "Divide" [a, b])) rest := by
  have hi := conserves_atDepth ix n
  refine reads_bind ha (fun _ => ?_) ?_
  · exact conserves_bind (conserves_argument hi) fun _ => conserves_pure _
  · exact reads_bind_right hb (fun _ => conserves_pure _) (reads_pure _ _)

/-- Parentheses only group, except around a sequence. -/
theorem reads_parseGroup {e : Expr} {p : Precedence} (he : e.isApply "Sequence" = false)
    (rest : List Token) :
    Reads n (runHandler (atDepth ix n) Structure.parseGroup (some e) p) [] (some e) rest := by
  have hgroup : runHandler (atDepth ix n) Structure.parseGroup (some e) p =
      (pure (some (if e.isApply "Sequence" then .apply "Delimiter" (Expr.splat (some e)) else e)) :
        Reading (Option Expr)) := rfl
  rw [hgroup, he]
  exact reads_pure _ _

end Parser
end MathMarkup
