import MathMarkup.Lexicon.Recipe
import MathMarkup.Proofs.Completion
import MathMarkup.Proofs.Lockstep
import MathMarkup.Proofs.Overriding

/-!
# Aliases

An operator without a name of its own can parse as a named one, such as `\Rightarrow` as `\implies`.
If the two bind and group alike, it makes no difference which of them is written: the expression is
the same, up to the texts that its error nodes quote, and so are the warnings (`parseTokens_alias`).

That takes two triggers that are nothing but two operators: control words that occur nowhere else in
the lexicon (`Entry.Owns`) and are free otherwise. And it takes custom routines that treat the words
alike, which a routine need not do: it may ask for the tokens themselves
(`quotingLexicon_tells_apart`).
-/

namespace MathMarkup

open Token Expr

/-! ## Two operators that do the same -/

/-- The word is the trigger of the entry, and it occurs nowhere else in the lexicon. -/
structure Entry.Owns (lexicon : List Entry) (e : Entry) (w : String) : Prop where
  free : FreeWord w
  trigger : e.trigger = [w]
  only : lexicon.filter (fun e => w ∈ e.trigger) = [e]
  close : ∀ f ∈ lexicon, w ∉ f.closeTrigger
  environment : ∀ f ∈ lexicon, f.kind = .environment →
    ¬ w.toList <:+: (String.join f.trigger).toList

/-- An infix or prefix operator without a name that parses as another one, which binds and groups
alike. Neither has a routine. -/
structure Entry.AliasOf (e canonical : Entry) : Prop where
  kind : e.kind = canonical.kind
  operator : canonical.kind = .infixOp ∨ canonical.kind = .prefixOp
  precedence : e.precedence = canonical.precedence
  associativity : e.associativity = canonical.associativity
  unnamed : e.name = none
  name : ∃ name, e.parse = some (.aliasOf name) ∧ canonical.name = some name
  plain : ∀ handler, canonical.parse ≠ some (.custom handler)

namespace Index

variable {lexicon : List Entry} {a c : String} {e canonical : Entry}

/-- Usable forms of two operators that do the same. -/
def SameOperator (i j : IndexedEntry) : Prop :=
  i.role = j.role ∧ i.head = j.head ∧ i.parse = none ∧ j.parse = none ∧ i.role.close? = none

theorem sameOperator_indexed (h : e.AliasOf canonical) {role : Role} (hr : role.close? = none) :
    SameOperator (e.indexed role) (canonical.indexed role) := by
  obtain ⟨name, hp, hn⟩ := h.name
  refine ⟨rfl, ?_, ?_, ?_, hr⟩
  · rw [head_indexed hn]
    show (e.name <|> e.aliasName?).getD _ = name
    rw [h.unnamed, Entry.aliasName?, hp]
    rfl
  · refine parse_indexed (fun handler hc => ?_) role
    rw [hp] at hc
    cases hc
  · exact parse_indexed h.plain role

theorem usable?_of_precedence_none {e : Entry} (hk : e.kind = .infixOp ∨ e.kind = .prefixOp)
    (hp : e.precedence = none) : usable? e = none := by
  unfold usable? Entry.role
  rcases hk with hk | hk
  all_goals
    rw [hk, hp]
    dsimp only
    split
    case h_1 hr => split at hr <;> cases hr
    case h_2 => rfl

/-- Either both operators are usable or neither is. -/
theorem sameOperator_usable? (h : e.AliasOf canonical) (he : e.trigger ≠ [])
    (hc : canonical.trigger ≠ []) :
    Option.Rel SameOperator (usable? e) (usable? canonical) := by
  cases hp : canonical.precedence with
  | none =>
    rw [usable?_of_precedence_none h.operator hp,
      usable?_of_precedence_none (h.kind ▸ h.operator) (h.precedence.trans hp)]
    exact .none
  | some p =>
    obtain ⟨hpre, hmid, -⟩ := usable?_operator he (h.precedence.trans hp)
    obtain ⟨hpre', hmid', -⟩ := usable?_operator hc hp
    rcases h.operator with hk | hk
    · rw [hmid (h.kind.trans hk), hmid' hk, h.associativity]
      exact .some (sameOperator_indexed h rfl)
    · rw [hpre (h.kind.trans hk), hpre' hk]
      exact .some (sameOperator_indexed h rfl)

/-- A trigger that holds the word finds nothing but the entry that owns the word. -/
theorem triggered_of_owns {w : String} (h : e.Owns lexicon w) (kind : Kind) {trigger : List String}
    (hw : w ∈ trigger) : (ofEntries lexicon).1.triggered kind trigger =
      ((usable? e).filter fun i => i.role.foundAs kind && i.trigger == trigger).toList := by
  have hsub : lexicon.filter (fun f => (usable? f).any fun i =>
        i.role.foundAs kind && i.trigger == trigger) =
      [e].filter fun f => (usable? f).any fun i => i.role.foundAs kind && i.trigger == trigger := by
    rw [← h.only, List.filter_filter]
    refine List.filter_congr fun f _ => ?_
    rw [Bool.eq_iff_iff, Bool.and_eq_true, iff_self_and]
    intro hany
    obtain ⟨i, hi, hf⟩ := (Option.any_eq_true _ _).1 hany
    rw [Bool.and_eq_true, beq_iff_eq, (of_usable?_eq_some hi).2] at hf
    rw [hf.2]
    exact decide_eq_true hw
  rw [triggered, latest_filter, hsub]
  generalize (fun i : IndexedEntry => i.role.foundAs kind && i.trigger == trigger) = found
  cases hu : usable? e with
  | none => simp [hu]
  | some i => cases hf : found i <;> simp [hu, hf, Option.filter_some]

/-- The close delimiter of a usable entry is the one that the entry was given. -/
theorem closeTrigger_of_usable? {f : Entry} {i : IndexedEntry} (h : usable? f = some i)
    {close : List String} (hc : i.role.close? = some close) : f.closeTrigger = close := by
  rw [(keeps_of_usable? h).2.close] at hc
  by_cases hk : f.kind = .matchfix
  · rw [if_pos hk] at hc
    exact Option.some.inj hc
  · rw [if_neg hk] at hc
    cases hc

theorem kind_of_environment {f : Entry} {i : IndexedEntry} (h : usable? f = some i)
    (hi : i.role = .environment) : f.kind = .environment := by
  rw [← (keeps_of_usable? h).2.kind, hi]
  rfl

/-- Where tokens are renamed, either nothing is seen of it, or each of the words is there. -/
theorem raws_eq_or_mem {ts us : List Token} (h : AllRenamed a c ts us) :
    Token.raws ts = Token.raws us ∨ a ∈ Token.raws ts ∧ c ∈ Token.raws us := by
  induction h with
  | nil => exact Or.inl rfl
  | @cons t u ts us htu _ ih =>
    rcases htu with rfl | ⟨rfl, rfl⟩
    · rcases ih with ih | ⟨ha, hc⟩
      · exact Or.inl (congrArg (t.raw :: ·) ih)
      · exact Or.inr ⟨List.mem_cons_of_mem _ ha, List.mem_cons_of_mem _ hc⟩
    · exact Or.inr ⟨List.mem_cons_self, List.mem_cons_self⟩

theorem eq_raws_iff {ts us : List Token} (h : AllRenamed a c ts us) (ha : a ∈ Token.raws ts)
    (hc : c ∈ Token.raws us) : [a] = Token.raws ts ↔ [c] = Token.raws us := by
  have hlength : (Token.raws ts).length = (Token.raws us).length := by
    rw [Token.raws, Token.raws, List.length_map, List.length_map, h.length_eq]
  have hsingle : ∀ {w : String} {ws : List String}, w ∈ ws → ([w] = ws ↔ ws.length = 1) := by
    intro w ws hw
    refine ⟨fun h => h ▸ rfl, fun h => ?_⟩
    obtain ⟨x, rfl⟩ := List.length_eq_one_iff.1 h
    rw [List.mem_singleton.1 hw]
  rw [hsingle ha, hsingle hc, hlength]

/-- Each of the two operators is found if the trigger is nothing but its word. -/
theorem twins_usable? (ha : e.Owns lexicon a) (hc : canonical.Owns lexicon c)
    (h : e.AliasOf canonical) (kind : Kind) {ws vs : List String} (hwv : [a] = ws ↔ [c] = vs)
    (n : Nat) : List.Forall₂ (fun i j => IndexedEntry.Twins a c (n, i) (n, j))
      ((usable? e).filter fun i => i.role.foundAs kind && i.trigger == ws).toList
      ((usable? canonical).filter fun i => i.role.foundAs kind && i.trigger == vs).toList := by
  have hsame := sameOperator_usable? h (ha.trigger ▸ List.cons_ne_nil a [])
    (hc.trigger ▸ List.cons_ne_nil c [])
  -- either both entries can be used or neither
  rcases hi : usable? e with _ | i <;> rcases hj : usable? canonical with _ | j <;>
    rw [hi, hj] at hsame
  · exact .nil
  · cases hsame
  · cases hsame
  · obtain ⟨hrole, hhead, hparse, hparse', hclose⟩ : SameOperator i j := by
      cases hsame
      assumption
    have hfound : (i.role.foundAs kind && i.trigger == ws) =
        (j.role.foundAs kind && j.trigger == vs) := by
      rw [hrole, (of_usable?_eq_some hi).2, (of_usable?_eq_some hj).2, ha.trigger, hc.trigger,
        Bool.eq_iff_iff.2 (beq_iff_eq.trans (hwv.trans beq_iff_eq.symm))]
    rw [Option.filter_some, Option.filter_some, hfound]
    split
    · refine .cons ⟨rfl, hrole, hhead, hparse.trans hparse'.symm, ?_, ?_⟩ .nil
      · rw [hparse]
        exact nofun
      · rw [hclose]
        exact nofun
    · exact .nil

/-- One trigger finds the entries of the other. -/
theorem twins_triggered (ha : e.Owns lexicon a) (hc : canonical.Owns lexicon c)
    (h : e.AliasOf canonical)
    (hr : ∀ handler ∈ lexicon.filterMap Entry.routine?, ParseHandler.TreatsAlike a c handler)
    (kind : Kind) {ts us : List Token} (htu : AllRenamed a c ts us) (n : Nat) :
    List.Forall₂ (fun i j => IndexedEntry.Twins a c (n, i) (n, j))
      ((ofEntries lexicon).1.triggered kind (Token.raws ts))
      ((ofEntries lexicon).1.triggered kind (Token.raws us)) := by
  rcases raws_eq_or_mem htu with heq | ⟨hat, hcu⟩
  · -- the same entries are found, and each of them does the same as itself
    rw [heq]
    refine List.forall₂_same.2 fun i hi => ?_
    have hmem := List.mem_of_mem_filter hi
    have hclose : ∀ close ∈ i.role.close?, a ∉ close ∧ c ∉ close := by
      intro close hclose
      have hlatest := hmem
      rw [latest_ofEntries, List.mem_reverse, List.mem_filterMap] at hlatest
      obtain ⟨f, hf, hu⟩ := hlatest
      rw [← closeTrigger_of_usable? hu hclose]
      exact ⟨ha.close f hf, hc.close f hf⟩
    exact ⟨rfl, rfl, rfl, rfl, fun handler hh => hr handler (routine_of_mem_latest hmem hh), hclose⟩
  · -- nothing but the two operators is found
    rw [triggered_of_owns ha kind hat, triggered_of_owns hc kind hcu]
    exact twins_usable? ha hc h kind (eq_raws_iff htu hat hcu) n

theorem lookup_renamed (ha : e.Owns lexicon a) (hc : canonical.Owns lexicon c)
    (h : e.AliasOf canonical)
    (hr : ∀ handler ∈ lexicon.filterMap Entry.routine?, ParseHandler.TreatsAlike a c handler)
    (kind : Kind) {ts us : List Token} (htu : AllRenamed a c ts us) :
    List.Forall₂ (IndexedEntry.Twins a c) ((ofEntries lexicon).1.lookup kind (Token.raws ts))
      ((ofEntries lexicon).1.lookup kind (Token.raws us)) := by
  have hlength : (Token.raws ts).length = (Token.raws us).length := by
    rw [Token.raws, Token.raws, List.length_map, List.length_map, htu.length_eq]
  have harranged := arranged_ofEntries lexicon
  rw [lookup_eq harranged, lookup_eq harranged, hlength]
  induction (List.range (Token.raws us).length).reverse with
  | nil => exact .nil
  | cons i is ih =>
    rw [List.flatMap_cons, List.flatMap_cons]
    refine List.rel_append ?_ ih
    rw [List.forall₂_map_left_iff, List.forall₂_map_right_iff, Token.raws, Token.raws,
      ← List.map_take, ← List.map_take]
    exact twins_triggered ha hc h hr kind (List.forall₂_take (i + 1) htu) (i + 1)

/-- No close delimiter holds either word. -/
theorem matchClose?_renamed (ha : e.Owns lexicon a) (hc : canonical.Owns lexicon c)
    {ts us : List Token} (htu : AllRenamed a c ts us) :
    (ofEntries lexicon).1.matchClose? (Token.raws ts) =
      (ofEntries lexicon).1.matchClose? (Token.raws us) := by
  have harranged := arranged_ofEntries lexicon
  have hclosing : closing (ofEntries lexicon).1.entries (Token.raws ts) =
      closing (ofEntries lexicon).1.entries (Token.raws us) := by
    refine List.filter_congr fun close hclose => ?_
    obtain ⟨i, hi, hrole⟩ := List.mem_filterMap.1 hclose
    rw [entries_ofEntries] at hi
    obtain ⟨f, hf, hu⟩ := List.mem_filterMap.1 hi
    obtain rfl := closeTrigger_of_usable? hu hrole
    have hiff := raws_renamed_iff (List.forall₂_take f.closeTrigger.length htu) (ha.close f hf)
      (hc.close f hf)
    rw [Bool.eq_iff_iff, List.isPrefixOf_iff_prefix, List.isPrefixOf_iff_prefix,
      List.prefix_iff_eq_take, List.prefix_iff_eq_take]
    simp only [Token.raws, ← List.map_take]
    exact ⟨fun h => (hiff.1 h.symm).symm, fun h => (hiff.2 h.symm).symm⟩
  have hnil := close?_ne_nil_ofEntries lexicon
  rw [matchClose?_eq harranged hnil, matchClose?_eq harranged hnil, hclosing]

theorem infix_toList_text {ts : List Token} {w : String} (hw : w ∈ Token.raws ts) :
    w.toList <:+: (Token.text ts).toList := by
  unfold Token.text
  generalize Token.raws ts = ws at hw ⊢
  induction ws with
  | nil => exact absurd hw List.not_mem_nil
  | cons v vs ih =>
    rw [String.join_cons, String.toList_append]
    rcases List.mem_cons.1 hw with rfl | hw
    · exact (List.prefix_append _ _).isInfix
    · exact (ih hw).trans (List.suffix_append _ _).isInfix

/-- No name of an environment holds either word. -/
theorem environments_renamed (ha : e.Owns lexicon a) (hc : canonical.Owns lexicon c)
    {name name' : String} (hn : RenamedText a c name name') :
    (ofEntries lexicon).1.environments name = (ofEntries lexicon).1.environments name' := by
  obtain ⟨ts, us, htu, rfl, rfl⟩ := hn
  rcases raws_eq_or_mem htu with heq | ⟨hat, hcu⟩
  · rw [Token.text, heq, Token.text]
  · have harranged := arranged_ofEntries lexicon
    rw [harranged.environments_eq, harranged.environments_eq]
    refine List.filter_congr fun i hi => ?_
    rw [latest_ofEntries, List.mem_reverse, List.mem_filterMap] at hi
    obtain ⟨f, hf, hu⟩ := hi
    by_cases hrole : i.role = .environment
    · have hkind := kind_of_environment hu hrole
      have hne : ∀ {w : String} {vs : List Token}, w ∈ Token.raws vs →
          ¬ w.toList <:+: (String.join f.trigger).toList →
            (String.join i.trigger == Token.text vs) = false := by
        intro w vs hw hnot
        rw [beq_eq_false_iff_ne, (of_usable?_eq_some hu).2]
        exact fun h => hnot (h ▸ infix_toList_text hw)
      rw [hne hat (ha.environment f hf hkind), hne hcu (hc.environment f hf hkind)]
    · rw [beq_eq_false_iff_ne.2 hrole, Bool.false_and, Bool.false_and]

/-- The lexicon cannot tell an operator from its alias. -/
theorem indifferent_of_aliasOf (ha : e.Owns lexicon a) (hc : canonical.Owns lexicon c)
    (h : e.AliasOf canonical)
    (hr : ∀ handler ∈ lexicon.filterMap Entry.routine?, ParseHandler.TreatsAlike a c handler) :
    (ofEntries lexicon).1.Indifferent a c where
  lookup kind _ _ htu := lookup_renamed ha hc h hr kind htu
  closes htu := matchClose?_renamed ha hc htu
  environments hn := environments_renamed ha hc hn
  routine hi handler hh :=
    hr handler (routine_of_mem_latest (environments_subset _ _ hi) hh)

end Index

/-! ## The routines of the standard lexicon -/

namespace Lexicon

open MathMarkup.Parser MathMarkup.Reading

variable {a c : String}

theorem treatsAlike_collecting {head : String} (hp : Unquoting head) :
    ParseHandler.TreatsAlike a c (collecting head) := by
  intro inner hi lhs lhs' p hl
  refine parallel_bind (hi.expression p) fun rhs rhs' hr => parallel_pure (.some ?_)
  refine alike_apply head (allAlike_append ?_ (allAlike_cons (alike_getD hr _) rfl))
  cases hl with
  | none => rfl
  | some hef =>
    dsimp only
    rw [← isApply_eq_of_alike hef]
    split
    · exact allAlike_operands hp hef ‹_›
    · exact allAlike_cons hef rfl

theorem treatsAlike_parseGroup : ParseHandler.TreatsAlike a c Structure.parseGroup := by
  intro inner _ lhs lhs' p hl
  refine parallel_pure (.some ?_)
  have hsplat := allAlike_splat hl
  cases hl with
  | none => rfl
  | some hef =>
    dsimp only
    rw [← isApply_eq_of_alike hef]
    split
    · exact alike_apply _ hsplat
    · exact hef

/-- A mark behind a base takes an argument. -/
theorem treatsAlike_script (ha : FreeWord a) (hc : FreeWord c) (head : String) :
    ParseHandler.TreatsAlike a c fun lhs _ => do
      let script ← ParseRoutine.argument.orMissing
      return lhs.map fun base => .apply head [base, script] := by
  intro inner hi lhs lhs' p hl
  refine parallel_bind (parallel_argument ha hc hi) fun script script' hs => parallel_pure ?_
  cases hl with
  | none => exact .none
  | some hef =>
    exact .some (alike_apply head (allAlike_cons hef (allAlike_cons (alike_getD hs _) rfl)))

theorem negated_unsourced (e : Expr) :
    (Arithmetic.negated e).unsourced = Arithmetic.negated e.unsourced := by
  have hnegate : Unquoting "Negate" := by decide
  cases e with
  | number text =>
    simp only [Arithmetic.negated, unsourced]
    split
    · exact unsourced_apply_unquoting hnegate _
    · rfl
  | apply head operands =>
    rw [Arithmetic.negated, unsourced_apply_unquoting hnegate, unsourced_apply]
    · rw [List.map_singleton, unsourced_apply, Arithmetic.negated]
      intro _ h
      cases h
    · intro _ h
      cases h
  | _ => simp [Arithmetic.negated, unsourced, unsourced_apply_unquoting hnegate]

theorem treatsAlike_parseNegate : ParseHandler.TreatsAlike a c Arithmetic.parseNegate := by
  intro inner hi lhs lhs' p _
  refine parallel_bind (hi.expression p) fun operand operand' ho => parallel_pure (.some ?_)
  show Alike (Arithmetic.negated (operand.getD Expr.missing))
    (Arithmetic.negated (operand'.getD Expr.missing))
  rw [Alike, negated_unsourced, negated_unsourced,
    show (operand.getD Expr.missing).unsourced = _ from alike_getD ho _]

theorem treatsAlike_parseFraction (ha : FreeWord a) (hc : FreeWord c) :
    ParseHandler.TreatsAlike a c Arithmetic.parseFraction := by
  intro inner hi lhs lhs' p _
  have hargument := parallel_argument ha hc hi
  refine parallel_bind hargument fun numerator numerator' hn => ?_
  refine parallel_bind hargument fun denominator denominator' hd => parallel_pure (.some ?_)
  exact alike_apply _ (allAlike_cons (alike_getD hn _) (allAlike_cons (alike_getD hd _) rfl))

theorem treatsAlike_parseRoot (ha : FreeWord a) (hc : FreeWord c) :
    ParseHandler.TreatsAlike a c Arithmetic.parseRoot := by
  intro inner hi lhs lhs' p _
  refine parallel_bind (parallel_optionalArgument ha hc hi) fun index index' hx => ?_
  refine parallel_bind (parallel_argument ha hc hi) fun radicand radicand' hr =>
    parallel_pure (.some ?_)
  have hradicand := alike_getD hr Expr.missing
  cases hx with
  | none => exact alike_apply _ (allAlike_cons hradicand rfl)
  | some hx => exact alike_apply _ (allAlike_cons hradicand (allAlike_cons hx rfl))

/-- No routine of the standard lexicon looks at a token: each reads an expression or arguments. -/
theorem treatsAlike_standard (ha : FreeWord a) (hc : FreeWord c) :
    ∀ handler ∈ standard.filterMap Entry.routine?, ParseHandler.TreatsAlike a c handler := by
  have hunquoting : ∀ head ∈ ["Sequence", "Add", "Multiply", "And", "Or"], Unquoting head := by
    decide
  exact forall_routines_standard (fun head hm => treatsAlike_collecting (hunquoting head hm))
    treatsAlike_parseGroup (treatsAlike_script ha hc _) treatsAlike_parseNegate
    (treatsAlike_parseFraction ha hc) (treatsAlike_script ha hc _) (treatsAlike_parseRoot ha hc)

end Lexicon

/-! ## The whole parse -/

/-- It makes no difference for a parse whether an operator or its alias is written, anywhere in the
tokens and as often as you like: the expression is the same up to the texts that its error nodes
quote, and the warnings are the same. -/
theorem Parser.parseTokens_alias {lexicon : List Entry} {a c : String} {e canonical : Entry}
    (ha : e.Owns lexicon a) (hc : canonical.Owns lexicon c) (h : e.AliasOf canonical)
    (hr : ∀ handler ∈ lexicon.filterMap Entry.routine?, ParseHandler.TreatsAlike a c handler)
    {ts us : List Token} (htu : AllRenamed a c ts us) :
    Alike (parseTokens (Index.ofEntries lexicon).1 ts).1
        (parseTokens (Index.ofEntries lexicon).1 us).1 ∧
      (parseTokens (Index.ofEntries lexicon).1 ts).2 =
        (parseTokens (Index.ofEntries lexicon).1 us).2 :=
  parseTokens_renamed ha.free hc.free (Index.indifferent_of_aliasOf ha hc h hr) htu

/-- What is to be checked about a word that an entry owns. -/
theorem Entry.owns_of_all {lexicon : List Entry} {e : Entry} {w : String} (hw : FreeWord w)
    (ht : e.trigger = [w]) (he : e ∈ lexicon)
    (hcount : lexicon.countP (fun f => w ∈ f.trigger) = 1)
    (hrest : ∀ f ∈ lexicon, w ∉ f.closeTrigger ∧
      (f.kind = .environment → ¬ w.toList <:+: (String.join f.trigger).toList)) :
    e.Owns lexicon w where
  free := hw
  trigger := ht
  only := Index.filter_of_countP he (decide_eq_true (ht ▸ List.mem_singleton_self w))
    (fun _ _ h => h) hcount
  close f hf := (hrest f hf).1
  environment f hf := (hrest f hf).2

/-- An implication in the standard lexicon, inside of a parenthesis that is never closed: the error
node quotes the arrow that was written. -/
theorem Parser.parseTokens_alias_implies :
    (parseTokens Index.standard (Token.scan "(p\\Rightarrow q")).1 =
        Expr.error .unexpectedOpenDelimiter none "(p\\Rightarrow q" ∧
      Alike (parseTokens Index.standard (Token.scan "(p\\Rightarrow q")).1
        (parseTokens Index.standard (Token.scan "(p\\implies q")).1 := by
  have ha : FreeWord "\\Rightarrow" :=
    ⟨⟨⟨"Rightarrow".toList, by decide, List.all_eq_true.1 rfl, rfl⟩, by decide⟩, by decide +kernel⟩
  have hc : FreeWord "\\implies" :=
    ⟨⟨⟨"implies".toList, by decide, List.all_eq_true.1 rfl, rfl⟩, by decide⟩, by decide +kernel⟩
  have hmem : ∀ {i : Nat} {e : Entry}, Lexicon.Connectives.entries[i]? = some e →
      e ∈ Lexicon.standard :=
    fun h => List.mem_flatMap.2 ⟨.logic, by decide, List.mem_of_getElem? h⟩
  have howns : ((Entry.infixOp "\\Rightarrow" 220).parseAs "Implies").right.Owns Lexicon.standard
      "\\Rightarrow" :=
    Entry.owns_of_all ha (by decide +kernel) (hmem (i := 6) rfl)
      (by decide +kernel) (by decide +kernel)
  have howns' : ((Entry.infixOp "\\implies" 220).named "Implies").right.Owns Lexicon.standard
      "\\implies" :=
    Entry.owns_of_all hc (by decide +kernel) (hmem (i := 7) rfl)
      (by decide +kernel) (by decide +kernel)
  have halias : Entry.AliasOf ((Entry.infixOp "\\Rightarrow" 220).parseAs "Implies").right
      ((Entry.infixOp "\\implies" 220).named "Implies").right :=
    ⟨rfl, Or.inl rfl, rfl, rfl, rfl, ⟨"Implies", rfl, rfl⟩, nofun⟩
  -- the two token lists differ in the arrow alone
  have hscan : Token.scan "(p\\Rightarrow q" =
      [⟨"(", .char⟩, ⟨"p", .char⟩, ⟨"\\Rightarrow", .command⟩, ⟨"q", .char⟩] := by
    decide +kernel
  have hscan' : Token.scan "(p\\implies q" =
      [⟨"(", .char⟩, ⟨"p", .char⟩, ⟨"\\implies", .command⟩, ⟨"q", .char⟩] := by
    decide +kernel
  have htokens : AllRenamed "\\Rightarrow" "\\implies" (Token.scan "(p\\Rightarrow q")
      (Token.scan "(p\\implies q") := by
    rw [hscan, hscan']
    exact .cons (renamed_refl _) (.cons (renamed_refl _) (.cons (Or.inr ⟨rfl, rfl⟩)
      (.cons (renamed_refl _) .nil)))
  exact ⟨by decide +kernel, (parseTokens_alias howns howns' halias
    (Lexicon.treatsAlike_standard ha hc) htokens).1⟩

/-- A lexicon with an operator, an alias of it, and a function that takes one token as its argument,
whatever it is. -/
def quotingLexicon : List Entry := [
  (Entry.infixOp "\\aa" 300).parseAs "Op",
  (Entry.infixOp "\\cc" 300).named "Op",
  (Entry.function "\\foo").parseWith (ParseRecipe.handler ⟨"F", [⟨.token, .decline⟩]⟩)]

/-- A routine may tell an operator from its alias: what it makes of the token is no quotation. -/
theorem quotingLexicon_tells_apart :
    ((Entry.infixOp "\\aa" 300).parseAs "Op").Owns quotingLexicon "\\aa" ∧
    ((Entry.infixOp "\\cc" 300).named "Op").Owns quotingLexicon "\\cc" ∧
    Entry.AliasOf ((Entry.infixOp "\\aa" 300).parseAs "Op")
      ((Entry.infixOp "\\cc" 300).named "Op") ∧
    AllRenamed "\\aa" "\\cc" [⟨"\\foo", .command⟩, ⟨"\\aa", .command⟩]
      [⟨"\\foo", .command⟩, ⟨"\\cc", .command⟩] ∧
    ¬ Alike
      (Parser.parseTokens (Index.ofEntries quotingLexicon).1
        [⟨"\\foo", .command⟩, ⟨"\\aa", .command⟩]).1
      (Parser.parseTokens (Index.ofEntries quotingLexicon).1
        [⟨"\\foo", .command⟩, ⟨"\\cc", .command⟩]).1 := by
  have ha : FreeWord "\\aa" :=
    ⟨⟨⟨['a', 'a'], by decide, List.all_eq_true.1 rfl, rfl⟩, by decide⟩, by decide +kernel⟩
  have hc : FreeWord "\\cc" :=
    ⟨⟨⟨['c', 'c'], by decide, List.all_eq_true.1 rfl, rfl⟩, by decide⟩, by decide +kernel⟩
  -- the routine makes a string of the token that it passes
  have hquotes : ∀ {w : String}, w = "\\aa" ∨ w = "\\cc" →
      (Parser.parseTokens (Index.ofEntries quotingLexicon).1
        [⟨"\\foo", .command⟩, ⟨w, .command⟩]).1 = .apply "F" [.string w] := by
    rintro w (rfl | rfl) <;> decide +kernel
  refine ⟨Entry.owns_of_all ha (by decide +kernel) (List.mem_of_getElem? (i := 0) rfl)
      (by decide +kernel) (by decide +kernel),
    Entry.owns_of_all hc (by decide +kernel) (List.mem_of_getElem? (i := 1) rfl)
      (by decide +kernel) (by decide +kernel),
    ⟨rfl, Or.inl rfl, rfl, rfl, rfl, ⟨"Op", rfl, rfl⟩, nofun⟩,
    .cons (renamed_refl _) (.cons (Or.inr ⟨rfl, rfl⟩) .nil), ?_⟩
  rw [hquotes (Or.inl rfl), hquotes (Or.inr rfl), Alike, unsourced_apply_unquoting (by decide),
    unsourced_apply_unquoting (by decide)]
  decide

end MathMarkup
