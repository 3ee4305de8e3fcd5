import MathMarkup.Proofs.Answers
import MathMarkup.Proofs.Bare

/-!
# Overriding an entry

A lexicon is extended by appending to it: a later entry comes before an earlier one with the same
trigger wherever the parser looks for candidates. An entry without a routine never declines, so the
search ends with it and the earlier one might as well not be there (`parseTokens_override`).

Two searches agree as far as it matters if they find the same candidates up to one that never
declines (`AgreeUpTo`). `Index.Interchangeable` says it of every look-up of two indices, and that
the parser finds no difference by any other way: delimiters, environments and the product. Then each
reader that consults the index is the same reading with either one, and so are the readers at every
level of nesting. For operators it takes more than that, since a candidate may bind too loosely to
be tried: the longest one alone decides, as long as no routine of an operator declines.
-/

namespace MathMarkup

/-! ## Searches that agree -/

/-- Two lists are the same, or they are up to an element of some sort. -/
def AgreeUpTo {α : Type} (last : α → Prop) (l l' : List α) : Prop :=
  l = l' ∨ ∃ before a after after',
    last a ∧ l = before ++ a :: after ∧ l' = before ++ a :: after'

section AgreeUpTo

variable {α β : Type} {last : α → Prop} {l l' : List α}

/-- Searches agree from the first member on that ends both. -/
theorem agreeUpTo_cons {a : α} (ha : last a) (after after' : List α) :
    AgreeUpTo last (a :: after) (a :: after') :=
  .inr ⟨[], a, after, after', ha, rfl, rfl⟩

/-- A common beginning does not matter. -/
theorem AgreeUpTo.append_left (h : AgreeUpTo last l l') (k : List α) :
    AgreeUpTo last (k ++ l) (k ++ l') := by
  rcases h with rfl | ⟨before, a, after, after', ha, rfl, rfl⟩
  · exact .inl rfl
  · exact .inr ⟨k ++ before, a, after, after', ha, (List.append_assoc ..).symm,
      (List.append_assoc ..).symm⟩

/-- What comes behind a member that ends both searches does not matter. -/
theorem agreeUpTo_append (h : ∃ before a after after',
      last a ∧ l = before ++ a :: after ∧ l' = before ++ a :: after') (k k' : List α) :
    AgreeUpTo last (l ++ k) (l' ++ k') := by
  obtain ⟨before, a, after, after', ha, rfl, rfl⟩ := h
  exact .inr ⟨before, a, after ++ k, after' ++ k', ha, List.append_assoc .., List.append_assoc ..⟩

/-- Searches that agree still do so for the images of the members. -/
theorem AgreeUpTo.map {last' : β → Prop} {f : α → β} (h : AgreeUpTo last l l')
    (hf : ∀ a, last a → last' (f a)) : AgreeUpTo last' (l.map f) (l'.map f) := by
  rcases h with rfl | ⟨before, a, after, after', ha, rfl, rfl⟩
  · exact .inl rfl
  · refine .inr ⟨before.map f, f a, after.map f, after'.map f, hf a ha, ?_, ?_⟩
    all_goals rw [List.map_append, List.map_cons]

/-- More members that end the search. -/
theorem AgreeUpTo.imp {last' : α → Prop} (h : AgreeUpTo last l l')
    (hlast : ∀ {a}, last a → last' a) : AgreeUpTo last' l l' := by
  rcases h with rfl | ⟨before, a, after, after', ha, rfl, rfl⟩
  · exact .inl rfl
  · exact .inr ⟨before, a, after, after', hlast ha, rfl, rfl⟩

/-- Where the first difference comes behind such an element, later ones do not matter. -/
theorem agreeUpTo_flatMap {f g : β → List α} (h : ∀ b, AgreeUpTo last (f b) (g b))
    (bs : List β) : AgreeUpTo last (bs.flatMap f) (bs.flatMap g) := by
  induction bs with
  | nil => exact .inl rfl
  | cons b bs ih =>
    rw [List.flatMap_cons, List.flatMap_cons]
    rcases h b with heq | hdiffer
    · rw [heq]
      exact ih.append_left _
    · exact agreeUpTo_append hdiffer _ _

/-- Searches that agree have the same first member. -/
theorem AgreeUpTo.head?_eq (h : AgreeUpTo last l l') : l.head? = l'.head? := by
  rcases h with rfl | ⟨before, a, after, after', -, rfl, rfl⟩
  · rfl
  · cases before <;> rfl

end AgreeUpTo

namespace Reading

variable {α β : Type} {alternative : α → Reading (Option β)}

/-- The first alternative that does not decline is taken. -/
theorem firstOf_cons_of_some {a : α} {p : Parser} (h : (alternative a p).1 ≠ none) (as : List α) :
    firstOf alternative (a :: as) p = alternative a p := by
  rw [firstOf, bind_apply]
  rcases ha : alternative a p with ⟨_ | b, q⟩
  · rw [ha] at h
    exact absurd rfl h
  · rfl

/-- Nothing is tried after an alternative that never declines. -/
theorem firstOf_eq_of_agreeUpTo {l l' : List α}
    (h : AgreeUpTo (fun a => ∀ p, (alternative a p).1 ≠ none) l l') :
    firstOf alternative l = firstOf alternative l' := by
  rcases h with rfl | ⟨before, a, after, after', ha, rfl, rfl⟩
  · rfl
  · induction before with
    | nil =>
      funext p
      rw [List.nil_append, List.nil_append, firstOf_cons_of_some (ha p),
        firstOf_cons_of_some (ha p)]
    | cons b before ih =>
      rw [List.cons_append, List.cons_append, firstOf, firstOf, ih]

/-- A step that does not decline is not taken back. -/
theorem rewinding_ne_none {step : Reading (Option α)} {p : Parser} (h : (step p).1 ≠ none) :
    (rewinding step p).1 ≠ none := by
  rcases hs : step p with ⟨_ | a, q⟩
  · rw [hs] at h
    exact absurd rfl h
  · rw [rewinding_of_some hs]
    exact Option.some_ne_none a

end Reading

/-! ## Candidates that never decline -/

/-- A candidate of a kind without a routine. -/
def PlainCandidate (kind : Kind) (candidate : Nat × IndexedEntry) : Prop :=
  candidate.2.parse = none ∧ candidate.2.role.foundAs kind = true

/-- No routine of an infix or postfix entry declines when the readers inside answer it. -/
def Index.DecidesWith (ix : Index) (inner : Nested) : Prop :=
  ∀ e ∈ ix.latest, e.role.kind = .infixOp ∨ e.role.kind = .postfixOp →
    ∀ handler, e.parse = some handler →
      ∀ lhs p q, (Parser.runHandler inner handler (some lhs) p q).1 ≠ none

/-- No routine of an infix or postfix entry ever declines. -/
def Index.NeverDeclines (ix : Index) : Prop :=
  ∀ n, ix.DecidesWith (Nested.atDepth ix n)

/-- A routine that ends with an expression whatever is answered never declines. -/
theorem Index.neverDeclines_of_endsIn {ix : Index}
    (h : ∀ e ∈ ix.latest, ∀ handler, e.parse = some handler →
      ∀ lhs p, (handler (some lhs) p).EndsIn (· ≠ none)) : ix.NeverDeclines :=
  fun _ e he _ handler hh lhs p q => Reading.gives_run _ (h e he handler hh lhs p) q

namespace Parser

open Reading

variable {ix ix' : Index} {inner : Nested}

/-- What is found as a prefix operator is one. -/
theorem foundAs_prefixOp {role : Role} (h : role.foundAs .prefixOp = true) :
    ∃ p, role = .prefixOp p := by
  cases role with
  | prefixOp p => exact ⟨p, rfl⟩
  | _ => exact absurd h Bool.false_ne_true

/-- What is found as an operator behind an operand is an infix or a postfix one. -/
theorem foundAs_operator {role : Role}
    (h : role.foundAs .infixOp = true ∨ role.foundAs .postfixOp = true) :
    (∃ p a, role = .infixOp p a) ∨ ∃ p, role = .postfixOp p := by
  cases role with
  | infixOp p a => exact .inl ⟨p, a, rfl⟩
  | postfixOp p => exact .inr ⟨p, rfl⟩
  | _ => rcases h with h | h <;> exact absurd h Bool.false_ne_true

/-- A prefix operator without a routine never declines: for a missing operand it has an error. -/
theorem tryPrefixOp_ne_none {candidate : Nat × IndexedEntry}
    (h : PlainCandidate .prefixOp candidate) (min : Precedence) (p : Parser) :
    (tryPrefixOp inner min candidate p).1 ≠ none := by
  obtain ⟨length, entry⟩ := candidate
  obtain ⟨hplain, hkind⟩ := h
  dsimp only at hplain hkind
  obtain ⟨precedence, hrole⟩ := foundAs_prefixOp hkind
  have hprec : entry.precedence? = some precedence := by
    rw [IndexedEntry.precedence?, hrole]
    rfl
  rw [tryPrefixOp]
  dsimp only
  rw [hprec]
  refine rewinding_ne_none ?_
  rw [hplain]
  exact Option.some_ne_none _

/-- A symbol without a routine never declines. -/
theorem trySymbol_ne_none {candidate : Nat × IndexedEntry} (h : candidate.2.parse = none)
    (p : Parser) : (trySymbol inner candidate p).1 ≠ none := by
  obtain ⟨length, entry⟩ := candidate
  refine rewinding_ne_none ?_
  dsimp only at h ⊢
  rw [bind_apply, h]
  dsimp only
  split <;> exact Option.some_ne_none _

/-- An operator never declines, unless its routine does. -/
theorem applyOperator_ne_none {entry : IndexedEntry}
    (hrole : (∃ p a, entry.role = .infixOp p a) ∨ ∃ p, entry.role = .postfixOp p)
    (hh : ∀ handler, entry.parse = some handler →
      ∀ lhs p q, (runHandler inner handler (some lhs) p q).1 ≠ none)
    (lhs : Expr) (m : Precedence) (p : Parser) : (applyOperator inner entry lhs m p).1 ≠ none := by
  rcases hrole with ⟨precedence, a, hrole⟩ | ⟨precedence, hrole⟩
  all_goals
    unfold applyOperator
    rw [hrole]
    cases hparse : entry.parse with
    | some handler => exact hh handler hparse lhs _ p
    | none => exact Option.some_ne_none _

/-- An operator that may be taken never declines, unless its routine does. -/
theorem tryOperator_ne_none {candidate : Nat × IndexedEntry}
    (hrole : (∃ p a, candidate.2.role = .infixOp p a) ∨ ∃ p, candidate.2.role = .postfixOp p)
    (hh : ∀ handler, candidate.2.parse = some handler →
      ∀ lhs p q, (runHandler inner handler (some lhs) p q).1 ≠ none)
    {min : Precedence} (ha : admits min candidate = true) (lhs : Expr) (p : Parser) :
    (tryOperator inner min lhs candidate p).1 ≠ none := by
  unfold tryOperator admits at *
  cases hprec : candidate.2.precedence? with
  | some precedence =>
    rw [hprec] at ha
    dsimp only
    rw [if_pos (of_decide_eq_true ha)]
    exact rewinding_ne_none (applyOperator_ne_none hrole hh lhs precedence _)
  | none =>
    rw [hprec] at ha
    exact absurd ha Bool.false_ne_true

/-! ## The longest operator decides -/

/-- The longer of two candidates, the first one where they are as long. -/
def longerOf : Option (Nat × IndexedEntry) → Option (Nat × IndexedEntry) →
    Option (Nat × IndexedEntry)
  | some c, some d => if d.1 ≤ c.1 then some c else some d
  | some c, none => some c
  | none, d => d

/-- The first of the candidates is the longer one of the new and the first of the others. -/
theorem head?_insertCandidate (c : Nat × IndexedEntry) (ds : List (Nat × IndexedEntry)) :
    (insertCandidate c ds).head? = longerOf (some c) ds.head? := by
  cases ds with
  | nil => rfl
  | cons d ds =>
    rw [insertCandidate, List.head?_cons]
    dsimp only [longerOf]
    split <;> rfl

/-- Candidates are put in one after another, the longest last: so that one or the first of the
others comes to stand in front. -/
theorem head?_foldr_insertCandidate {cs : List (Nat × IndexedEntry)}
    (hcs : cs.Pairwise fun c d => d.1 ≤ c.1) (ds : List (Nat × IndexedEntry)) :
    (cs.foldr insertCandidate ds).head? = longerOf cs.head? ds.head? := by
  induction cs with
  | nil => rfl
  | cons c cs ih =>
    obtain ⟨hc, hcs⟩ := List.pairwise_cons.1 hcs
    rw [List.foldr_cons, head?_insertCandidate, ih hcs, List.head?_cons]
    cases cs with
    | nil => rfl
    | cons c' cs =>
      -- what stands in front so far is the next candidate or one of the others, and the new one is
      -- at least as long as the next one
      have hle := hc c' List.mem_cons_self
      cases ds.head? with
      | none =>
        show longerOf (some c) (some c') = some c
        exact if_pos hle
      | some d =>
        show longerOf (some c) (if d.1 ≤ c'.1 then some c' else some d) = longerOf (some c) (some d)
        by_cases hd : d.1 ≤ c'.1
        · rw [if_pos hd]
          show (if c'.1 ≤ c.1 then some c else some c') = if d.1 ≤ c.1 then some c else some d
          rw [if_pos hle, if_pos (Nat.le_trans hd hle)]
        · rw [if_neg hd]

/-- A look-up gives longer triggers first. -/
theorem pairwise_lookup (hx : ix.Arranged) (kind : Kind) (tokens : List String) :
    (ix.lookup kind tokens).Pairwise fun c d => d.1 ≤ c.1 := by
  obtain ⟨order, hfound, -, hordered⟩ := Index.finds_lookup hx kind tokens
  rw [hfound, List.pairwise_map]
  refine hordered.imp fun {i j} h => ?_
  rcases h with h | ⟨h, -⟩
  · exact Nat.le_of_lt h
  · exact Nat.le_of_eq h.symm

/-- A postfix candidate decides unless an infix candidate is longer. -/
theorem head?_operatorCandidates (hx : ix.Arranged) (upcoming : List String) :
    (operatorCandidates ix upcoming).head? =
      longerOf (ix.lookup .postfixOp upcoming).head? (ix.lookup .infixOp upcoming).head? :=
  head?_foldr_insertCandidate (pairwise_lookup hx _ _) _

/-- A candidate for a suffix is a usable operator. -/
theorem role_of_mem_operatorCandidates (hx : ix.Arranged) {upcoming : List String}
    {candidate : Nat × IndexedEntry} (hc : candidate ∈ operatorCandidates ix upcoming) :
    candidate.2 ∈ ix.latest ∧ ((∃ p a, candidate.2.role = .infixOp p a) ∨
      ∃ p, candidate.2.role = .postfixOp p) := by
  rcases mem_operatorCandidates hc with hc | hc
  all_goals obtain ⟨hm, hkind, -⟩ := Index.of_mem_lookup hx hc
  · exact ⟨hm, foundAs_operator (.inr hkind)⟩
  · exact ⟨hm, foundAs_operator (.inl hkind)⟩

/-- Where no routine declines, the longest operator is applied or none is. -/
theorem suffix_eq (hx : ix.Arranged) (hd : ix.DecidesWith inner) (min : Precedence) (lhs : Expr)
    (p : Parser) : suffix ix inner min lhs p =
      match (operatorCandidates ix (Token.raws p.ahead)).head? with
      | none => juxtapose ix inner min lhs p
      | some top => if admits min top then tryOperator inner min lhs top p else (none, p) := by
  rw [suffix, bind_apply, show upcoming p = (Token.raws p.ahead, p) from rfl]
  dsimp only
  cases hc : operatorCandidates ix (Token.raws p.ahead) with
  | nil => rfl
  | cons top others =>
    rw [List.head?_cons]
    dsimp only
    by_cases ha : admits min top = true
    · obtain ⟨hm, hrole⟩ := role_of_mem_operatorCandidates hx
        (show top ∈ operatorCandidates ix (Token.raws p.ahead) by
          rw [hc]
          exact List.mem_cons_self)
      -- only infix and postfix operators are candidates, and their routines do not decline
      have hkind : top.2.role.kind = .infixOp ∨ top.2.role.kind = .postfixOp := by
        rcases hrole with ⟨_, _, h⟩ | ⟨_, h⟩ <;> rw [h]
        · exact .inl rfl
        · exact .inr rfl
      rw [if_pos ha, if_pos ha]
      exact firstOf_cons_of_some
        (tryOperator_ne_none hrole (hd _ hm hkind) ha lhs p) others
    · rw [if_neg ha, if_neg ha]
      rfl

end Parser

/-! ## Indices between which a parse finds no difference -/

/-- Every search of the parser comes to the same with either index. Delimiters may turn out not to
be closed, so all entries for them count; a search of another kind ends with an entry that has no
routine. -/
structure Index.Interchangeable (ix ix' : Index) : Prop where
  lookups : ∀ kind tokens,
    AgreeUpTo (PlainCandidate kind) (ix.lookup kind tokens) (ix'.lookup kind tokens)
  matchfixes : ∀ tokens, ix.lookup .matchfix tokens = ix'.lookup .matchfix tokens
  matchClose : ∀ tokens, ix.matchClose? tokens = ix'.matchClose? tokens
  environments : ∀ name, ix.environments name = ix'.environments name
  multiply : ix.byName? "Multiply" = ix'.byName? "Multiply"

namespace Parser

open Reading

variable {ix ix' : Index} {inner : Nested} (hs : ix.Interchangeable ix')

include hs

/-- Juxtaposition asks an index only for the entry of products. -/
theorem juxtapose_congr (inner : Nested) (min : Precedence) (lhs : Expr) :
    juxtapose ix inner min lhs = juxtapose ix' inner min lhs := by
  rw [juxtapose, juxtapose, hs.multiply]

theorem matchfix_congr (inner : Nested) : matchfix ix inner = matchfix ix' inner := by
  simp only [matchfix, hs.matchfixes]

theorem environment_congr (inner : Nested) : environment ix inner = environment ix' inner := by
  simp only [environment, hs.environments]

/-- Prefix operators that never decline make searches that agree give the same. -/
theorem prefixOperation_congr (inner : Nested) (min : Precedence) :
    prefixOperation ix inner min = prefixOperation ix' inner min := by
  have hfirst : ∀ tokens, firstOf (tryPrefixOp inner min) (ix.lookup .prefixOp tokens) =
      firstOf (tryPrefixOp inner min) (ix'.lookup .prefixOp tokens) := fun tokens =>
    firstOf_eq_of_agreeUpTo ((hs.lookups .prefixOp tokens).imp fun h => tryPrefixOp_ne_none h min)
  simp only [prefixOperation, hfirst]

/-- Symbols that never decline make searches that agree give the same. -/
theorem symbol_congr (inner : Nested) : symbol ix inner = symbol ix' inner := by
  have hfirst : ∀ tokens, firstOf (trySymbol inner) (ix.lookup .identifier tokens) =
      firstOf (trySymbol inner) (ix'.lookup .identifier tokens) := fun tokens =>
    firstOf_eq_of_agreeUpTo ((hs.lookups .identifier tokens).imp fun h => trySymbol_ne_none h.1)
  simp only [symbol, hfirst]

/-- What begins an operand is read the same with either index. -/
theorem primary_congr (inner : Nested) (min : Precedence) :
    primary ix inner min = primary ix' inner min := by
  simp only [primary, primaryFrom, matchfix_congr hs, environment_congr hs,
    prefixOperation_congr hs, symbol_congr hs]

variable (hx : ix.Arranged) (hx' : ix'.Arranged)

include hx hx'

/-- The longest operator decides, and it is the same with either index. -/
theorem suffix_congr (hd : ix.DecidesWith inner) (hd' : ix'.DecidesWith inner) (min : Precedence)
    (lhs : Expr) : suffix ix inner min lhs = suffix ix' inner min lhs := by
  funext p
  rw [suffix_eq hx hd, suffix_eq hx' hd', head?_operatorCandidates hx,
    head?_operatorCandidates hx', (hs.lookups .postfixOp _).head?_eq,
    (hs.lookups .infixOp _).head?_eq, juxtapose_congr hs]

/-- Rounds of suffixes are the same, round by round. -/
theorem suffixes_congr (hd : ix.DecidesWith inner) (hd' : ix'.DecidesWith inner)
    (min : Precedence) (lhs : Expr) : suffixes ix inner min lhs = suffixes ix' inner min lhs := by
  have hround : suffixRound ix inner min = suffixRound ix' inner min := by
    funext e
    rw [suffixRound, suffixRound, suffix_congr hs hx hx' hd hd']
  rw [suffixes, suffixes, hround]

/-- A recovery at an operator is the same with either index. -/
theorem recoverOperator_congr (hd : ix.DecidesWith inner) (hd' : ix'.DecidesWith inner)
    (length : Nat) (entry : IndexedEntry) (lhs : Option Expr) :
    recoverOperator ix inner length entry lhs = recoverOperator ix' inner length entry lhs := by
  unfold recoverOperator
  simp only [suffixes_congr hs hx hx' hd hd']

/-- A recovery looks at the first entry of each kind alone. -/
theorem recover_congr (hd : ix.DecidesWith inner) (hd' : ix'.DecidesWith inner)
    (lhs : Option Expr) : recover ix inner lhs = recover ix' inner lhs := by
  -- the questions to the index that a recovery asks, one by one
  have hsymbol : symbolLength? ix = symbolLength? ix' := by
    funext tokens
    have hhead := (hs.lookups .identifier (Token.raws tokens)).head?_eq
    unfold symbolLength?
    revert hhead
    cases ix.lookup .identifier (Token.raws tokens) <;>
      cases ix'.lookup .identifier (Token.raws tokens) <;> intro hhead
    · rfl
    · cases hhead
    · cases hhead
    · rw [Option.some.inj hhead]
  have hopen : openDelimiter? ix = openDelimiter? ix' := by
    funext tokens
    simp only [openDelimiter?, hs.matchfixes]
  have hclose : closeDelimiter? ix = closeDelimiter? ix' := by
    funext tokens
    simp only [closeDelimiter?, hs.matchClose]
  funext p
  have hhead := (hs.lookups .infixOp (Token.raws p.ahead)).head?_eq
  rw [recover, recover, hsymbol, hopen, hclose]
  simp only [get_bind_apply]
  revert hhead
  cases ix.lookup .infixOp (Token.raws p.ahead) <;>
    cases ix'.lookup .infixOp (Token.raws p.ahead) <;> intro hhead
  · rfl
  · cases hhead
  · cases hhead
  · rw [Option.some.inj hhead]
    simp only [recoverOperator_congr hs hx hx' hd hd']

/-- Rounds of recovering are the same, round by round. -/
theorem recoverAll_congr (hd : ix.DecidesWith inner) (hd' : ix'.DecidesWith inner)
    (lhs : Option Expr) : recoverAll ix inner lhs = recoverAll ix' inner lhs := by
  have hround : recoveryRound ix inner = recoveryRound ix' inner := by
    funext e
    simp only [recoveryRound, recover_congr hs hx hx' hd hd']
  rw [recoverAll, recoverAll, hround]

end Parser

namespace Nested

open MathMarkup.Parser

variable {ix ix' : Index}

/-- The readers at every level are the same. The routines of the second index are among those of
the first one, and the readers inside answer them alike. -/
theorem atDepth_congr (hs : ix.Interchangeable ix') (hx : ix.Arranged) (hx' : ix'.Arranged)
    (hsub : ∀ e ∈ ix'.latest, e ∈ ix.latest) (hd : ix.NeverDeclines) (n : Nat) :
    atDepth ix n = atDepth ix' n := by
  induction n with
  | zero => rfl
  | succ n ih =>
    have hd' : ix'.DecidesWith (atDepth ix n) := fun e he => hd n e (hsub e he)
    have hoperation : operation ix (atDepth ix n) = operation ix' (atDepth ix n) := by
      funext min
      simp only [operation, suffixes_congr hs hx hx' (hd n) hd']
    have hprimary : Parser.primary ix (atDepth ix n) = Parser.primary ix' (atDepth ix n) := by
      funext min
      exact primary_congr hs _ min
    rw [atDepth, atDepth, ← ih, hoperation, hprimary]

end Nested

/-- Interchangeable indices parse everything alike. -/
theorem Parser.parseAll_congr {ix ix' : Index} (hs : ix.Interchangeable ix') (hx : ix.Arranged)
    (hx' : ix'.Arranged) (hsub : ∀ e ∈ ix'.latest, e ∈ ix.latest) (hd : ix.NeverDeclines) :
    parseAll ix = parseAll ix' := by
  have hinner : Nested.outermost ix = Nested.outermost ix' :=
    Nested.atDepth_congr hs hx hx' hsub hd _
  have hd' : ix'.DecidesWith (Nested.outermost ix) := fun e he => hd _ e (hsub e he)
  have hrecover : ∀ lhs, recoverAll ix (Nested.outermost ix) lhs =
      recoverAll ix' (Nested.outermost ix) lhs := recoverAll_congr hs hx hx' (hd _) hd'
  simp only [parseAll, hrecover]
  rw [hinner]

/-! ## A later entry with the same trigger -/

/-- Identifiers and functions are looked up together, every other kind by itself. -/
def Kind.merged : Kind → Kind
  | .function => .identifier
  | kind => kind

/-- The kinds that an entry is found as, by the kind it is merged into. -/
theorem Role.foundAs_eq (role : Role) (kind : Kind) :
    role.foundAs kind = (kind != .environment && role.kind.merged == kind.merged) := by
  cases role <;> cases kind <;> rfl

/-- An entry without a routine that comes in the place of another one: both are looked up alike, and
it is not the other one that products are made by. -/
structure Entry.Overrides (new old : Entry) : Prop where
  usable : (Index.usable? new).isSome
  plain : ∀ handler, new.parse ≠ some (.custom handler)
  kind : new.kind ≠ .matchfix ∧ new.kind ≠ .environment
  alike : old.kind.merged = new.kind.merged
  trigger : old.trigger = new.trigger
  name : old.name ≠ some "Multiply"

/-- A search never gets to the first entry, since the second one has the same trigger, comes before
it and never declines; and nothing but such searches could find it. -/
structure IndexedEntry.HiddenBy (old new : IndexedEntry) : Prop where
  plain : new.parse = none
  trigger : old.trigger = new.trigger
  alike : ∀ kind, old.role.foundAs kind = new.role.foundAs kind
  matchfix : old.role.foundAs .matchfix = false
  close : old.role.close? = none
  environment : (old.role == .environment) = false
  name : old.name ≠ some "Multiply"

/-- An entry that another one overrides is hidden by it once both are usable. -/
theorem Entry.Overrides.hiddenBy {new old : Entry} (h : new.Overrides old) {i j : IndexedEntry}
    (hi : Index.usable? new = some i) (hj : Index.usable? old = some j) : j.HiddenBy i := by
  have halike : j.role.kind.merged = i.role.kind.merged := by
    rw [(Index.keeps_of_usable? hi).2.kind, (Index.keeps_of_usable? hj).2.kind, h.alike]
  -- the new entry is no delimiter and no environment, so neither is one that is alike
  have hne : j.role.kind ≠ .matchfix ∧ j.role.kind ≠ .environment := by
    have hnew := h.kind
    rw [← (Index.keeps_of_usable? hi).2.kind] at hnew
    revert halike hnew
    cases j.role <;> cases i.role <;> simp [Role.kind, Kind.merged]
  exact {
    plain := by
      obtain ⟨role, -, rfl⟩ := Index.usable?_eq_some_iff.1 hi
      exact Index.parse_indexed h.plain _
    trigger := by
      rw [(Index.of_usable?_eq_some hi).2, (Index.of_usable?_eq_some hj).2, h.trigger]
    alike := fun kind => by rw [Role.foundAs_eq, Role.foundAs_eq, halike]
    matchfix := beq_eq_false_iff_ne.2 hne.1
    close := by
      revert hne
      cases j.role <;> simp [Role.kind, Role.close?]
    environment := by
      revert hne
      cases j.role <;> simp [Role.kind]
    name := by
      rw [(Index.of_usable?_eq_some hj).1]
      exact h.name }

namespace Index

variable {ix ix' : Index} {i j : IndexedEntry} {later earlier : List IndexedEntry}

/-- The entries with one trigger are the same without the hidden one, or begin with the one that
hides it. -/
theorem agreeUpTo_triggered (hix : ix.latest = i :: (later ++ j :: earlier))
    (hix' : ix'.latest = i :: (later ++ earlier)) (hj : j.HiddenBy i) (kind : Kind)
    (trigger : List String) :
    AgreeUpTo (fun e => e.parse = none ∧ e.role.foundAs kind = true)
      (ix.triggered kind trigger) (ix'.triggered kind trigger) := by
  unfold triggered
  rw [hix, hix', List.filter_cons, List.filter_cons]
  cases hfound : i.role.foundAs kind && i.trigger == trigger with
  | true =>
    rw [if_pos rfl, if_pos rfl]
    exact agreeUpTo_cons ⟨hj.plain, (Bool.and_eq_true_iff.1 hfound).1⟩ _ _
  | false =>
    have hold : (j.role.foundAs kind && j.trigger == trigger) = false := by
      rw [hj.trigger, hj.alike, hfound]
    rw [List.filter_append, List.filter_append, List.filter_cons, hold]
    exact .inl rfl

/-- Leaving out an entry that a later one hides makes no difference to any look-up that counts. -/
theorem interchangeable_of_latest (hx : ix.Arranged) (hx' : ix'.Arranged)
    (hclose : ∀ e ∈ ix.entries, e.role.close? ≠ some [])
    (hclose' : ∀ e ∈ ix'.entries, e.role.close? ≠ some [])
    (hix : ix.latest = i :: (later ++ j :: earlier))
    (hix' : ix'.latest = i :: (later ++ earlier)) (hj : j.HiddenBy i) :
    ix.Interchangeable ix' where
  lookups kind tokens := by
    rw [lookup_eq hx, lookup_eq hx']
    exact agreeUpTo_flatMap (fun n => (agreeUpTo_triggered hix hix' hj kind _).map fun e h => h) _
  matchfixes tokens := by
    have hgroup : ∀ trigger, ix.triggered .matchfix trigger = ix'.triggered .matchfix trigger := by
      intro trigger
      unfold triggered
      rw [hix, hix', List.filter_cons, List.filter_cons, List.filter_append, List.filter_append,
        List.filter_cons, hj.matchfix]
      rfl
    rw [lookup_eq hx, lookup_eq hx']
    simp only [hgroup]
  matchClose tokens := by
    have hentries : ∀ ix : Index, ix.entries = ix.latest.reverse := fun ix => by
      rw [latest, List.reverse_reverse]
    rw [matchClose?_eq hx hclose, matchClose?_eq hx' hclose', closing, closing, hentries, hentries,
      hix, hix']
    simp [hj.close]
  environments name := by
    rw [hx.environments_eq, hx'.environments_eq, hix, hix', List.filter_cons, List.filter_cons,
      List.filter_append, List.filter_append, List.filter_cons, hj.environment]
    rfl
  multiply := by
    rw [hx.names.byName, hx'.names.byName, hix, hix', List.find?_cons, List.find?_cons,
      List.find?_append, List.find?_append, List.find?_cons, beq_eq_false_iff_ne.2 hj.name]

/-- No matchfix entry of a lexicon has an empty closing delimiter. -/
theorem close?_ne_nil_ofEntries (lexicon : List Entry) :
    ∀ e ∈ (ofEntries lexicon).1.entries, e.role.close? ≠ some [] := by
  intro e he
  rw [entries_ofEntries] at he
  obtain ⟨x, -, hx⟩ := List.mem_filterMap.1 he
  exact close?_ne_nil hx

end Index

/-! ## The whole parse -/

/-- Appending an entry without a routine overrides an earlier one with the same trigger for every
parse: the expression and the warnings are what they are without the earlier entry. It takes a
lexicon in which no routine of an infix or postfix entry declines: behind a longer operator that
does, an entry may be tried that the new one does not bind tightly enough to stand before. -/
theorem Parser.parseTokens_override {before after : List Entry} {new old : Entry}
    (h : new.Overrides old)
    (hd : (Index.ofEntries (before ++ old :: after ++ [new])).1.NeverDeclines)
    (tokens : List Token) :
    parseTokens (Index.ofEntries (before ++ old :: after ++ [new])).1 tokens =
      parseTokens (Index.ofEntries (before ++ after ++ [new])).1 tokens := by
  suffices hparse : parseAll (Index.ofEntries (before ++ old :: after ++ [new])).1 =
      parseAll (Index.ofEntries (before ++ after ++ [new])).1 by
    rw [parseTokens, parseTokens, hparse]
  obtain ⟨i, hi⟩ := Option.isSome_iff_exists.1 h.usable
  cases hj : Index.usable? old with
  | none =>
    -- an entry that is not usable is in neither index
    have hsame : (before ++ old :: after ++ [new]).filterMap Index.usable? =
        (before ++ after ++ [new]).filterMap Index.usable? := by
      simp [hj]
    rw [Index.ofEntries, Index.ofEntries, hsame]
  | some j =>
    have hix : (Index.ofEntries (before ++ old :: after ++ [new])).1.latest =
        i :: ((after.filterMap Index.usable?).reverse ++
          j :: (before.filterMap Index.usable?).reverse) := by
      rw [Index.latest_ofEntries]
      simp [hi, hj]
    have hix' : (Index.ofEntries (before ++ after ++ [new])).1.latest =
        i :: ((after.filterMap Index.usable?).reverse ++
          (before.filterMap Index.usable?).reverse) := by
      rw [Index.latest_ofEntries]
      simp [hi]
    have hs := Index.interchangeable_of_latest (Index.arranged_ofEntries _)
      (Index.arranged_ofEntries _) (Index.close?_ne_nil_ofEntries _)
      (Index.close?_ne_nil_ofEntries _) hix hix' (h.hiddenBy hi hj)
    refine parseAll_congr hs (Index.arranged_ofEntries _) (Index.arranged_ofEntries _) ?_ hd
    rw [hix, hix']
    intro e he
    rcases List.mem_cons.1 he with rfl | he
    · exact List.mem_cons_self
    · refine List.mem_cons_of_mem _ ?_
      rcases List.mem_append.1 he with he | he
      · exact List.mem_append_left _ he
      · exact List.mem_append_right _ (List.mem_cons_of_mem _ he)

open Lexicon Lexicon.Structure Lexicon.Arithmetic in
/-- Every routine of the standard lexicon reads something when it is given a left operand. -/
theorem endsIn_standard : ∀ handler ∈ Lexicon.standard.filterMap Entry.routine?, ∀ lhs p,
    (handler (some lhs) p).EndsIn (· ≠ none) := by
  refine forall_routines_standard (fun head _ => ?_) ?_ ?_ ?_ ?_ ?_ ?_
  case refine_2 => exact fun _ _ => Option.some_ne_none _
  case refine_1 | refine_3 | refine_4 | refine_6 => exact fun _ _ _ => Option.some_ne_none _
  case refine_5 | refine_7 => exact fun _ _ _ _ => Option.some_ne_none _

/-- A comma that makes tuples, appended to the standard lexicon, which begins with the comma of
sequences. -/
theorem Parser.parseTokens_override_comma :
    (Index.ofEntries (Lexicon.standard ++ [(Entry.infixOp "," 20).named "Tuple"])).1.NeverDeclines ∧
    parseTokens (Index.ofEntries
        (Lexicon.standard ++ [(Entry.infixOp "," 20).named "Tuple"])).1 (Token.scan "a,b") =
      (.apply "Tuple" [.symbol "a", .symbol "b"], []) ∧
    parseTokens (Index.ofEntries
        (Lexicon.standard.tail ++ [(Entry.infixOp "," 20).named "Tuple"])).1 (Token.scan "a,b") =
      (.apply "Tuple" [.symbol "a", .symbol "b"], []) := by
  have hd : (Index.ofEntries
      (Lexicon.standard ++ [(Entry.infixOp "," 20).named "Tuple"])).1.NeverDeclines := by
    refine Index.neverDeclines_of_endsIn fun e he handler hh => ?_
    have hm := Index.routine_of_mem_latest he hh
    rw [List.filterMap_append, List.mem_append] at hm
    exact endsIn_standard handler (hm.resolve_right List.not_mem_nil)
  have h : Entry.Overrides ((Entry.infixOp "," 20).named "Tuple")
      (((Entry.infixOp "," 20).named "Sequence").parseWith (Lexicon.collecting "Sequence")
        |>.renderWith Lexicon.Structure.renderSequence) :=
    ⟨by decide +kernel, nofun, by decide, rfl, rfl, by decide⟩
  have hsame := @parseTokens_override [] Lexicon.standard.tail _ _ h hd (Token.scan "a,b")
  -- computed without the hidden comma, and carried over by the theorem
  have htail : parseTokens (Index.ofEntries
      (Lexicon.standard.tail ++ [(Entry.infixOp "," 20).named "Tuple"])).1 (Token.scan "a,b") =
      (.apply "Tuple" [.symbol "a", .symbol "b"], []) := by
    decide +kernel
  exact ⟨hd, hsame.trans htail, htail⟩

end MathMarkup
