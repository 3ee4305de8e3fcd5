import MathMarkup.Proofs.Overriding

/-!
# The choice of an operator

Wherever the parser looks for an operator after an expression, the tokens call for one of the infix
and postfix operators whose triggers begin them: the one with the longest trigger, a postfix
operator before an infix one and a later entry before an earlier one where triggers are as long
(`Index.Decides`). Entries are told apart by their positions, so there is exactly one such operator
where there is any (`Index.existsUnique_decides`).

If none of these operators has a routine, the one that decides is all that matters: it is applied if
it binds tightly enough, and else nothing is, however tightly a shorter operator binds.
`Parser.Looks` says so of one look for an operator and `Parser.Runs` of the whole search, look by
look, up to where it ends.
-/

namespace MathMarkup
namespace Index

/-! ## The operator that decides -/

/-- An infix or postfix operator whose trigger begins the tokens. -/
def Operates (tokens : List String) (e : IndexedEntry) : Prop :=
  Begins .postfixOp tokens e ∨ Begins .infixOp tokens e

/-- The operator at one position comes before the one at another: its trigger is longer; or it is as
long, and a postfix operator meets an infix one; or they are of one kind too, and it was registered
later. -/
def Outranks (V : List IndexedEntry) (i j : Fin V.length) : Prop :=
  (V.get j).trigger.length < (V.get i).trigger.length ∨
    (V.get i).trigger.length = (V.get j).trigger.length ∧
      ((V.get i).role.kind = .postfixOp ∧ (V.get j).role.kind = .infixOp ∨
        (V.get i).role.kind = (V.get j).role.kind ∧ j < i)

/-- The position of the operator that comes before all others which the tokens begin with. -/
structure Decides (V : List IndexedEntry) (tokens : List String) (i : Fin V.length) : Prop where
  operates : Operates tokens (V.get i)
  outranks : ∀ j, Operates tokens (V.get j) → j ≠ i → Outranks V i j

variable {V : List IndexedEntry} {tokens : List String}

/-- No entry outranks one that outranks it. -/
theorem Outranks.asymm {i j : Fin V.length} (h : Outranks V i j) : ¬ Outranks V j i := by
  intro h'
  rcases h with hlt | ⟨hlength, hrank⟩
  · rcases h' with hlt' | ⟨hlength', -⟩ <;> omega
  · rcases h' with hlt' | ⟨-, hrank'⟩
    · omega
    · rcases hrank with ⟨hi, hj⟩ | ⟨hkind, hlt⟩
      · rcases hrank' with ⟨hj', -⟩ | ⟨hkind', -⟩
        · rw [hj] at hj'
          cases hj'
        · rw [hi, hj] at hkind'
          cases hkind'
      · rcases hrank' with ⟨hj', hi'⟩ | ⟨-, hlt'⟩
        · rw [hkind, hj'] at hi'
          cases hi'
        · exact absurd hlt (Nat.lt_asymm hlt')

/-- No two entries decide. -/
theorem Decides.unique {i j : Fin V.length} (hi : Decides V tokens i) (hj : Decides V tokens j) :
    i = j := by
  by_contra hne
  exact (hi.outranks j hj.operates (Ne.symm hne)).asymm (hj.outranks i hi.operates hne)

/-- What is looked up by one of the two kinds is what operates and is of that kind. -/
theorem begins_iff {kind : Kind} (hkind : kind = .postfixOp ∨ kind = .infixOp) {e : IndexedEntry} :
    Begins kind tokens e ↔ Operates tokens e ∧ e.role.kind = kind := by
  have hfound : e.role.foundAs kind = true ↔ e.role.kind = kind := by
    rcases hkind with rfl | rfl <;> exact beq_iff_eq
  constructor
  · intro h
    refine ⟨?_, hfound.1 h.1⟩
    rcases hkind with rfl | rfl
    · exact .inl h
    · exact .inr h
  · rintro ⟨h, hk⟩
    rcases h with h | h <;> exact ⟨hfound.2 hk, h.2⟩

theorem Operates.kind {e : IndexedEntry} (h : Operates tokens e) :
    e.role.kind = .postfixOp ∨ e.role.kind = .infixOp := by
  rcases h with h | h
  · exact .inl ((begins_iff (.inl rfl)).1 h).2
  · exact .inr ((begins_iff (.inr rfl)).1 h).2

/-- The position of the entry of a kind that is found first. -/
structure Leads (V : List IndexedEntry) (kind : Kind) (tokens : List String) (i : Fin V.length) :
    Prop where
  begins : Begins kind tokens (V.get i)
  ahead : ∀ j, Begins kind tokens (V.get j) → j ≠ i → Ahead V i j

/-- The entry that leads has the longest trigger. -/
theorem Leads.length_le {kind : Kind} {i j : Fin V.length} (h : Leads V kind tokens i)
    (hj : Begins kind tokens (V.get j)) :
    (V.get j).trigger.length ≤ (V.get i).trigger.length := by
  by_cases hne : j = i
  · rw [hne]
  · rcases h.ahead j hj hne with hlt | ⟨heq, -⟩ <;> omega

/-- What is found first comes ahead of everything else that is found. -/
theorem Finds.head? {kind : Kind} {found : List (Nat × IndexedEntry)}
    (h : Finds V kind tokens found) :
    (found.head? = none ∧ ∀ j, ¬ Begins kind tokens (V.get j)) ∨
      ∃ i, found.head? = some ((V.get i).trigger.length, V.get i) ∧ Leads V kind tokens i := by
  obtain ⟨order, rfl, hmem, hordered⟩ := h
  cases order with
  | nil => exact .inl ⟨rfl, fun j hj => List.not_mem_nil ((hmem j).2 hj)⟩
  | cons i order =>
    refine .inr ⟨i, rfl, (hmem i).1 List.mem_cons_self, fun j hj hne => ?_⟩
    have hj := (List.mem_cons.1 ((hmem j).2 hj)).resolve_left hne
    exact (List.pairwise_cons.1 hordered).1 j hj

/-- The first one of its kind decides if it comes before all of the other kind. -/
theorem Leads.decides {kind other : Kind} {i : Fin V.length}
    (hkinds : kind = .postfixOp ∧ other = .infixOp ∨ kind = .infixOp ∧ other = .postfixOp)
    (hi : Leads V kind tokens i)
    (hother : ∀ j, Begins other tokens (V.get j) → Outranks V i j) : Decides V tokens i := by
  have hkind : kind = .postfixOp ∨ kind = .infixOp := hkinds.imp And.left And.left
  obtain ⟨hoperates, hki⟩ := (begins_iff hkind).1 hi.begins
  refine ⟨hoperates, fun j hj hne => ?_⟩
  have hj : Begins kind tokens (V.get j) ∨ Begins other tokens (V.get j) := by
    rcases hkinds with ⟨rfl, rfl⟩ | ⟨rfl, rfl⟩
    · exact hj
    · exact hj.symm
  rcases hj with hj | hj
  · have hkj := ((begins_iff hkind).1 hj).2
    exact (hi.ahead j hj hne).imp_right fun h => ⟨h.1, .inr ⟨hki.trans hkj.symm, h.2⟩⟩
  · exact hother j hj

end Index

namespace Parser

open Reading

variable {ix : Index} {tokens : List String}

/-- Putting a candidate in ahead of those that are not longer is what a stable sort does with one
more in front. -/
theorem insertCandidate_mergeSort (c : Nat × IndexedEntry) (ds : List (Nat × IndexedEntry)) :
    insertCandidate c (ds.mergeSort fun d e => decide (e.1 ≤ d.1)) =
      (c :: ds).mergeSort fun d e => decide (e.1 ≤ d.1) := by
  have htrans : ∀ d e f : Nat × IndexedEntry, decide (e.1 ≤ d.1) = true →
      decide (f.1 ≤ e.1) = true → decide (f.1 ≤ d.1) = true := by
    simp only [decide_eq_true_iff]
    omega
  have htotal : ∀ d e : Nat × IndexedEntry, (decide (e.1 ≤ d.1) || decide (d.1 ≤ e.1)) = true := by
    simp only [Bool.or_eq_true, decide_eq_true_iff]
    omega
  obtain ⟨longer, rest, hsort, hds, hlonger⟩ := List.mergeSort_cons htrans htotal c ds
  have hsorted := List.pairwise_mergeSort htrans htotal (c :: ds)
  rw [hsort] at hsorted ⊢
  rw [hds]
  -- the candidate goes past all that are longer, and stays ahead of the rest
  clear hsort hds
  induction longer with
  | nil =>
    cases rest with
    | nil => rfl
    | cons d rest =>
      have hd := (List.pairwise_cons.1 hsorted).1 d List.mem_cons_self
      exact if_pos (of_decide_eq_true hd)
  | cons d longer ih =>
    have hd := hlonger d List.mem_cons_self
    rw [Bool.not_eq_true', decide_eq_false_iff_not] at hd
    rw [List.cons_append, insertCandidate, if_neg hd, List.cons_append,
      ih (fun b hb => hlonger b (List.mem_cons_of_mem _ hb)) (List.pairwise_cons.1 hsorted).2]

/-- The candidates are the postfix entries and then the infix entries that are found, sorted by the
length of the trigger. The sort is stable. -/
theorem operatorCandidates_eq_mergeSort (hx : ix.Arranged) (tokens : List String) :
    operatorCandidates ix tokens =
      (ix.lookup .postfixOp tokens ++ ix.lookup .infixOp tokens).mergeSort
        fun c d => decide (d.1 ≤ c.1) := by
  have hinfix : (ix.lookup .infixOp tokens).Pairwise fun c d => decide (d.1 ≤ c.1) = true :=
    (pairwise_lookup hx .infixOp tokens).imp fun h => decide_eq_true h
  rw [operatorCandidates]
  induction ix.lookup .postfixOp tokens with
  | nil => exact (List.mergeSort_of_pairwise hinfix).symm
  | cons c cs ih => rw [List.foldr_cons, ih, insertCandidate_mergeSort, List.cons_append]

/-- The first candidate is the operator that decides. -/
theorem head?_operatorCandidates_decides (hx : ix.Arranged) (tokens : List String) :
    ((operatorCandidates ix tokens).head? = none ∧
      ∀ j, ¬ Index.Operates tokens (ix.entries.get j)) ∨
    ∃ i, (operatorCandidates ix tokens).head? =
        some ((ix.entries.get i).trigger.length, ix.entries.get i) ∧
      Index.Decides ix.entries tokens i := by
  rw [head?_operatorCandidates hx]
  rcases (Index.finds_lookup hx .postfixOp tokens).head? with ⟨hp, hnone⟩ | ⟨i, hp, hi⟩ <;>
    rcases (Index.finds_lookup hx .infixOp tokens).head? with ⟨hq, hnone'⟩ | ⟨j, hq, hj⟩ <;>
    rw [hp, hq]
  · exact .inl ⟨rfl, fun j hj => hj.elim (hnone j) (hnone' j)⟩
  · exact .inr ⟨j, rfl, hj.decides (.inr ⟨rfl, rfl⟩) fun k hk => absurd hk (hnone k)⟩
  · exact .inr ⟨i, rfl, hi.decides (.inl ⟨rfl, rfl⟩) fun k hk => absurd hk (hnone' k)⟩
  · -- one of each kind: the infix operator decides if its trigger is longer
    dsimp only [longerOf]
    by_cases hle : (ix.entries.get j).trigger.length ≤ (ix.entries.get i).trigger.length
    · rw [if_pos hle]
      refine .inr ⟨i, rfl, hi.decides (.inl ⟨rfl, rfl⟩) fun k hk => ?_⟩
      have hki := ((Index.begins_iff (.inl rfl)).1 hi.begins).2
      have hkk := ((Index.begins_iff (.inr rfl)).1 hk).2
      have hlength := hj.length_le hk
      rcases Nat.lt_or_ge (ix.entries.get k).trigger.length (ix.entries.get i).trigger.length with
        hlt | hge
      · exact .inl hlt
      · exact .inr ⟨by omega, .inl ⟨hki, hkk⟩⟩
    · rw [if_neg hle]
      refine .inr ⟨j, rfl, hj.decides (.inr ⟨rfl, rfl⟩) fun k hk => .inl ?_⟩
      have hlength := hi.length_le hk
      omega

end Parser

/-- There is exactly one operator that decides wherever there is any. -/
theorem Index.existsUnique_decides {ix : Index} (hx : ix.Arranged) {tokens : List String}
    (h : ∃ j, Index.Operates tokens (ix.entries.get j)) :
    ∃! i, Index.Decides ix.entries tokens i := by
  obtain ⟨j, hj⟩ := h
  rcases Parser.head?_operatorCandidates_decides hx tokens with ⟨-, hnone⟩ | ⟨i, -, hi⟩
  · exact absurd hj (hnone j)
  · exact ⟨i, hi, fun k hk => hk.unique hi⟩

/-! ## One look for an operator -/

/-- No infix or postfix operator has a routine. -/
def Index.PlainOperators (ix : Index) : Prop :=
  ∀ e ∈ ix.latest, e.role.kind = .infixOp ∨ e.role.kind = .postfixOp → e.parse = none

namespace Parser

open Reading

variable {ix : Index} {inner : Nested}

/-- What an operator without a routine makes of its left operand once its trigger is consumed. -/
def applied (inner : Nested) (entry : IndexedEntry) (lhs : Expr) : Reading Expr :=
  match entry.role with
  | .infixOp p a => infixApplication inner entry lhs (rightPrecedence a p)
  | _ => postfixApplication entry lhs

/-- What comes of one look for an operator, of those among some entries, behind a left operand: the
operator that decides is applied if it binds tightly enough; if it does not, nothing happens at all;
and where there is no operator, an operand may follow that is multiplied. -/
inductive Looks (V : List IndexedEntry) (ix : Index) (inner : Nested) (min : Precedence)
    (lhs : Expr) (p : Parser) : Option Expr → Parser → Prop where
  | applied {i : Fin V.length} {precedence : Precedence} {e : Expr} {q : Parser}
      (decides : Index.Decides V (Token.raws p.ahead) i)
      (binds : (V.get i).precedence? = some precedence) (tight : min ≤ precedence)
      (result : applied inner (V.get i) lhs (p.advance (V.get i).trigger.length) = (e, q)) :
      Looks V ix inner min lhs p (some e) q
  | refused {i : Fin V.length} {precedence : Precedence}
      (decides : Index.Decides V (Token.raws p.ahead) i)
      (binds : (V.get i).precedence? = some precedence) (loose : precedence < min) :
      Looks V ix inner min lhs p none p
  | multiplied {product : Option Expr} {q : Parser}
      (bare : ∀ j, ¬ Index.Operates (Token.raws p.ahead) (V.get j))
      (result : juxtapose ix inner min lhs p = (product, q)) :
      Looks V ix inner min lhs p product q

/-- Every operator behind an operand has a precedence. -/
theorem exists_precedence {e : IndexedEntry}
    (hkind : e.role.kind = .postfixOp ∨ e.role.kind = .infixOp) : ∃ p, e.precedence? = some p := by
  unfold IndexedEntry.precedence?
  cases hrole : e.role <;> rw [hrole] at hkind
  case infixOp p a => exact ⟨p, rfl⟩
  case postfixOp p => exact ⟨p, rfl⟩
  all_goals rcases hkind with h | h <;> cases h

/-- An operator without a routine never declines. -/
theorem tryOperator_plain {entry : IndexedEntry} {precedence : Precedence}
    (hkind : entry.role.kind = .postfixOp ∨ entry.role.kind = .infixOp) (hplain : entry.parse = none)
    (hprec : entry.precedence? = some precedence) {min : Precedence} (hmin : min ≤ precedence)
    (length : Nat) (lhs : Expr) (p : Parser) :
    tryOperator inner min lhs (length, entry) p =
      (some (applied inner entry lhs (p.advance length)).1,
        (applied inner entry lhs (p.advance length)).2) := by
  -- what cannot be applied after an operand is ruled out by its kind
  have happly : applyOperator inner entry lhs precedence =
      (do return some (← applied inner entry lhs)) := by
    unfold applyOperator applied
    unfold IndexedEntry.precedence? at hprec
    cases hrole : entry.role <;> rw [hrole] at hkind hprec
    case infixOp =>
      obtain rfl := Option.some.inj hprec
      rw [hplain]
    case postfixOp => rw [hplain]
    all_goals rcases hkind with h | h <;> cases h
  unfold tryOperator
  rw [hprec]
  dsimp only
  rw [if_pos hmin]
  refine rewinding_of_some ?_
  rw [happly]
  rfl

/-- One look for an operator goes by the one that decides. -/
theorem looks_suffix (hx : ix.Arranged) (hplain : ix.PlainOperators) (min : Precedence) (lhs : Expr)
    (p : Parser) : Looks ix.entries ix inner min lhs p (suffix ix inner min lhs p).1
      (suffix ix inner min lhs p).2 := by
  -- no operator has a routine, so none of them declines
  have hdecides : ix.DecidesWith inner := by
    intro e he hkind handler hparse
    rw [hplain e he hkind] at hparse
    cases hparse
  rw [suffix_eq hx hdecides]
  rcases head?_operatorCandidates_decides hx (Token.raws p.ahead) with ⟨hhead, hnone⟩ |
    ⟨i, hhead, hi⟩ <;> rw [hhead] <;> dsimp only
  · exact .multiplied hnone rfl
  · have hkind := hi.operates.kind
    obtain ⟨precedence, hprec⟩ := exists_precedence hkind
    have hparse : (ix.entries.get i).parse = none :=
      hplain _ (List.mem_reverse.2 (List.get_mem ix.entries i)) hkind.symm
    unfold admits
    dsimp only
    rw [hprec]
    dsimp only
    by_cases hmin : min ≤ precedence
    · rw [if_pos (decide_eq_true hmin), tryOperator_plain hkind hparse hprec hmin]
      exact .applied hi hprec hmin rfl
    · rw [if_neg (fun h => hmin (of_decide_eq_true h))]
      exact .refused hi hprec (Nat.lt_of_not_le hmin)

/-! ## A whole search -/

/-- A search for operators, look by look, from a left operand to what it ends with. A look that
gets the search no further is the last one. -/
inductive Runs (V : List IndexedEntry) (ix : Index) (inner : Nested) (min : Precedence) :
    Expr → Parser → Expr → Parser → Prop where
  | stop {lhs : Expr} {p q : Parser} (look : Looks V ix inner min lhs p none q) :
      Runs V ix inner min lhs p lhs q
  | again {lhs e result : Expr} {p q r : Parser} (look : Looks V ix inner min lhs p (some e) q)
      (further : q.slack < p.slack) (rest : Runs V ix inner min e q result r) :
      Runs V ix inner min lhs p result r
  | stall {lhs e : Expr} {p q : Parser} (look : Looks V ix inner min lhs p (some e) q)
      (still : ¬ q.slack < p.slack) : Runs V ix inner min lhs p e q

/-- A round of a search is a look, and one that finds nothing keeps the left operand. -/
theorem looks_suffixRound (hx : ix.Arranged) (hplain : ix.PlainOperators) {min : Precedence}
    {e e' : Expr} {p q : Parser} {go : Bool} (h : suffixRound ix inner min e p = ((e', go), q)) :
    Looks ix.entries ix inner min e p (if go then some e' else none) q ∧ (go = false → e' = e) := by
  have hlook := @looks_suffix ix inner hx hplain min e p
  rw [suffixRound, bind_apply] at h
  rcases hs : suffix ix inner min e p with ⟨_ | product, r⟩ <;> rw [hs] at h hlook <;> cases h
  · exact ⟨hlook, fun _ => rfl⟩
  · exact ⟨hlook, fun hgo => Bool.noConfusion hgo⟩

/-- Every search for operators goes from one that decides to the next. -/
theorem runs_suffixes (hx : ix.Arranged) (hplain : ix.PlainOperators) (min : Precedence) (lhs : Expr)
    (p : Parser) : Runs ix.entries ix inner min lhs p (suffixes ix inner min lhs p).1
      (suffixes ix inner min lhs p).2 := by
  unfold suffixes
  fun_induction loop (suffixRound ix inner min) lhs p with
  | case1 e p e' q heq =>
    obtain ⟨hlook, hsame⟩ := looks_suffixRound hx hplain heq
    rw [hsame rfl]
    exact .stop hlook
  | case2 e p e' q heq hslack ih => exact .again (looks_suffixRound hx hplain heq).1 hslack ih
  | case3 e p e' q heq hslack => exact .stall (looks_suffixRound hx hplain heq).1 hslack

end Parser

theorem Index.plainOperators_ofEntries {lexicon : List Entry}
    (h : ∀ e ∈ lexicon, e.kind = .infixOp ∨ e.kind = .postfixOp →
      ∀ handler, e.parse ≠ some (.custom handler)) : (ofEntries lexicon).1.PlainOperators := by
  intro i hi hkind
  rw [latest_ofEntries, List.mem_reverse] at hi
  obtain ⟨e, he, hu⟩ := List.mem_filterMap.1 hi
  rw [(keeps_of_usable? hu).2.kind] at hkind
  obtain ⟨role, -, rfl⟩ := usable?_eq_some_iff.1 hu
  exact parse_indexed (h e he hkind) _

/-- In a lexicon whose infix and postfix operators have no routines, wherever an operator is looked
for, one operator decides if the tokens begin with any: that one is applied if it binds tightly
enough, and else nothing is. So it goes at every look of a search, whatever the expressions inside
are read by and whatever the state of the parse. -/
theorem Parser.chooses_operators {lexicon : List Entry}
    (h : ∀ e ∈ lexicon, e.kind = .infixOp ∨ e.kind = .postfixOp →
      ∀ handler, e.parse ≠ some (.custom handler)) :
    (∀ tokens, (∃ j, Index.Operates tokens ((lexicon.filterMap Index.usable?).get j)) →
      ∃! i, Index.Decides (lexicon.filterMap Index.usable?) tokens i) ∧
    ∀ (inner : Nested) (min : Precedence) (lhs : Expr) (p : Parser),
      Looks (lexicon.filterMap Index.usable?) (Index.ofEntries lexicon).1 inner min lhs p
        (suffix (Index.ofEntries lexicon).1 inner min lhs p).1
        (suffix (Index.ofEntries lexicon).1 inner min lhs p).2 ∧
      Runs (lexicon.filterMap Index.usable?) (Index.ofEntries lexicon).1 inner min lhs p
        (suffixes (Index.ofEntries lexicon).1 inner min lhs p).1
        (suffixes (Index.ofEntries lexicon).1 inner min lhs p).2 := by
  have hx := Index.arranged_ofEntries lexicon
  have hplain := Index.plainOperators_ofEntries h
  rw [← Index.entries_ofEntries]
  exact ⟨fun tokens hj => Index.existsUnique_decides hx hj, fun inner min lhs p =>
    ⟨looks_suffix hx hplain min lhs p, runs_suffixes hx hplain min lhs p⟩⟩

/-- Two inequalities, of which one's trigger begins the other's. -/
def Lexicon.inequalities : List Entry :=
  [(Entry.infixOp "<" 245).named "Less", (Entry.infixOp "<=" 241).named "LessEqual"]

open Lexicon (inequalities) in
/-- Before `<=b` the operator of both tokens decides, and that one alone: it is refused where
operators must bind as tightly as `<` does, though `<` would. -/
theorem Parser.chooses_operators_inequalities :
    (∀ e ∈ inequalities, e.kind = .infixOp ∨ e.kind = .postfixOp →
      ∀ handler, e.parse ≠ some (.custom handler)) ∧
    Looks (inequalities.filterMap Index.usable?) (Index.ofEntries inequalities).1
      (Nested.atDepth (Index.ofEntries inequalities).1 2) 245 (.symbol "a")
      (ofTokens (Token.scan "<=b")) none (ofTokens (Token.scan "<=b")) ∧
    ∃ q, Looks (inequalities.filterMap Index.usable?) (Index.ofEntries inequalities).1
      (Nested.atDepth (Index.ofEntries inequalities).1 2) 241 (.symbol "a")
      (ofTokens (Token.scan "<=b")) (some (.apply "LessEqual" [.symbol "a", .symbol "b"])) q := by
  have hplain : ∀ e ∈ inequalities, e.kind = .infixOp ∨ e.kind = .postfixOp →
      ∀ handler, e.parse ≠ some (.custom handler) := by
    intro e he _ handler hparse
    simp only [inequalities, List.mem_cons, List.not_mem_nil, or_false] at he
    rcases he with rfl | rfl <;> cases hparse
  -- what is chosen is by the theorem, what comes of it is computed
  have hlook := (chooses_operators hplain).2 (Nested.atDepth (Index.ofEntries inequalities).1 2)
  have hrefused : suffix (Index.ofEntries inequalities).1
      (Nested.atDepth (Index.ofEntries inequalities).1 2) 245 (.symbol "a")
      (ofTokens (Token.scan "<=b")) = (none, ofTokens (Token.scan "<=b")) :=
    Prod.ext (by decide +kernel) (by decide +kernel)
  have happlied : (suffix (Index.ofEntries inequalities).1
      (Nested.atDepth (Index.ofEntries inequalities).1 2) 241 (.symbol "a")
      (ofTokens (Token.scan "<=b"))).1 = some (.apply "LessEqual" [.symbol "a", .symbol "b"]) := by
    decide +kernel
  have hrefuses := (hlook 245 (.symbol "a") (ofTokens (Token.scan "<=b"))).1
  rw [hrefused] at hrefuses
  exact ⟨hplain, hrefuses, _, happlied ▸ (hlook 241 _ _).1⟩

end MathMarkup
