import Mathlib.Data.List.FinRange
import MathMarkup.Proofs.Lookup

/-!
# What an index answers

An entry of a lexicon is kept if it has what its kind calls for (`Entry.Complete`), and then with
all that it says (`IndexedEntry.Keeps`). Every answer of the index is a statement about one list:
the entries that are kept, in their order. A look-up by trigger is given by the positions of what it
finds (`Finds`), so that entries which are alike count as often as they are registered. Entries that
are not kept make no difference to anything (`ofEntries_filter`).

The tables hold positions and no entries. What leads from the one to the other is that each table
files just the entries that it is for (`Index.Files`), and that reading a group from its end lists
them with the latest first.
-/

namespace MathMarkup

/-! ## What is kept of a lexicon -/

/-- An entry has what its kind calls for: a trigger, without which a symbol or function needs a
name, a precedence if it is an operator, and a close delimiter if it has an open one. -/
structure Entry.Complete (e : Entry) : Prop where
  trigger : e.trigger = [] → (e.kind = .identifier ∨ e.kind = .function) ∧ e.name ≠ none
  precedence : e.kind = .prefixOp ∨ e.kind = .infixOp ∨ e.kind = .postfixOp → e.precedence ≠ none
  closeTrigger : e.kind = .matchfix → e.closeTrigger ≠ []

instance (e : Entry) : Decidable e.Complete :=
  decidable_of_iff
    ((e.trigger = [] → (e.kind = .identifier ∨ e.kind = .function) ∧ e.name ≠ none) ∧
      (e.kind = .prefixOp ∨ e.kind = .infixOp ∨ e.kind = .postfixOp → e.precedence ≠ none) ∧
      (e.kind = .matchfix → e.closeTrigger ≠ []))
    ⟨fun ⟨ht, hp, hc⟩ => ⟨ht, hp, hc⟩, fun ⟨ht, hp, hc⟩ => ⟨ht, hp, hc⟩⟩

/-- A usable entry has all that an entry of the lexicon says, in the form in which it is used. -/
structure IndexedEntry.Keeps (i : IndexedEntry) (e : Entry) : Prop where
  name : i.name = e.name
  trigger : i.trigger = e.trigger
  kind : i.role.kind = e.kind
  precedence : e.kind = .prefixOp ∨ e.kind = .infixOp ∨ e.kind = .postfixOp →
    i.precedence? = e.precedence
  associativity : e.kind = .infixOp → i.role.associativity = e.associativity
  close : i.role.close? = if e.kind = .matchfix then some e.closeTrigger else none
  aliasName : ∀ name, i.aliasName = some name ↔ e.parse = some (.aliasOf name)
  parse : ∀ handler, i.parse = some handler ↔ e.parse = some (.custom handler)
  render : ∀ handler, i.render = some handler ↔ e.render = some (.custom handler)
  template : ∀ template, e.render = some (.template template) → i.template = template
  defaultTemplate : (∀ template, e.render ≠ some (.template template)) →
    i.template = e.defaultTemplate

namespace Entry

/-- A role has the kind of its entry and what that kind calls for. -/
theorem role_eq_ok {e : Entry} {role : Role} (h : e.role = .ok role) : e.Complete ∧
    role.kind = e.kind ∧
    (e.kind = .prefixOp ∨ e.kind = .infixOp ∨ e.kind = .postfixOp →
      role.precedence? = e.precedence) ∧
    (e.kind = .infixOp → role.associativity = e.associativity) ∧
    role.close? = if e.kind = .matchfix then some e.closeTrigger else none := by
  unfold Entry.role at h
  -- the kind decides what is asked for, and what is missing is an error
  cases hk : e.kind with
  | identifier | function =>
    by_cases ht : (e.trigger.isEmpty && e.name.isNone) = true
    · simp [hk, ht] at h
    · simp only [hk, ht, Bool.false_eq_true, if_false, Except.ok.injEq] at h
      subst h
      refine ⟨⟨fun hn => ⟨by simp [hk], ?_⟩, by simp [hk], by simp [hk]⟩, rfl, by simp, by simp,
        rfl⟩
      intro hname
      exact ht (by rw [hn, hname]; rfl)
  | prefixOp | infixOp | postfixOp =>
    by_cases ht : e.trigger = []
    · simp [hk, ht] at h
    · cases hp : e.precedence with
      | none => simp [hk, ht, hp] at h
      | some p =>
        simp only [hk, List.isEmpty_iff, ht, hp, if_false, Except.ok.injEq] at h
        subst h
        exact ⟨⟨fun hn => absurd hn ht, fun _ => by simp [hp], by simp [hk]⟩, rfl, fun _ => rfl,
          by simp [Role.associativity], rfl⟩
  | matchfix =>
    by_cases ht : e.trigger = []
    · simp [hk, ht] at h
    · by_cases hc : e.closeTrigger = []
      · simp [hk, ht, hc] at h
      · simp only [hk, List.isEmpty_iff, ht, hc, if_false, Except.ok.injEq] at h
        subst h
        exact ⟨⟨fun hn => absurd hn ht, by simp [hk], fun _ => hc⟩, rfl, by simp, by simp, rfl⟩
  | environment =>
    by_cases ht : e.trigger = []
    · simp [hk, ht] at h
    · simp only [hk, List.isEmpty_iff, ht, if_false, Except.ok.injEq] at h
      subst h
      exact ⟨⟨fun hn => absurd hn ht, by simp [hk], by simp [hk]⟩, rfl, by simp, by simp, rfl⟩

/-- A complete entry has a role. -/
theorem Complete.exists_role {e : Entry} (h : e.Complete) : ∃ role, e.role = .ok role := by
  obtain ⟨ht, hp, hc⟩ := h
  unfold Entry.role
  cases hk : e.kind with
  | identifier | function =>
    by_cases hn : e.trigger = []
    · have hname := (ht hn).2
      simp [hname]
    · simp [hn]
  | prefixOp | infixOp | postfixOp =>
    have hne : e.trigger ≠ [] := fun hn => by simpa [hk] using ht hn
    obtain ⟨p, hp⟩ := Option.ne_none_iff_exists'.1 (hp (by simp [hk]))
    simp [hne, hp]
  | matchfix =>
    have hne : e.trigger ≠ [] := fun hn => by simpa [hk] using ht hn
    simp [hne, hc hk]
  | environment =>
    have hne : e.trigger ≠ [] := fun hn => by simpa [hk] using ht hn
    simp [hne]

end Entry

namespace Index

open TriggerMap

/-- What is usable is complete, and its usable form keeps all that it says. -/
theorem keeps_of_usable? {e : Entry} {i : IndexedEntry} (h : usable? e = some i) :
    e.Complete ∧ i.Keeps e := by
  obtain ⟨role, hrole, rfl⟩ := usable?_eq_some_iff.1 h
  obtain ⟨hcomplete, hkind, hprecedence, hassociativity, hclose⟩ := Entry.role_eq_ok hrole
  refine ⟨hcomplete, ?_⟩
  exact {
    name := rfl
    trigger := rfl
    kind := hkind
    precedence := hprecedence
    associativity := hassociativity
    close := hclose
    aliasName := by
      unfold Entry.indexed Entry.aliasName?
      cases e.parse with
      | none => simp
      | some rule => cases rule <;> simp
    parse := by
      unfold Entry.indexed
      cases e.parse with
      | none => simp
      | some rule => cases rule <;> simp
    render := by
      unfold Entry.indexed
      cases e.render with
      | none => simp
      | some rule => cases rule <;> simp
    template := by
      intro template hr
      simp only [Entry.indexed, hr]
    defaultTemplate := by
      intro hr
      unfold Entry.indexed
      cases hrule : e.render with
      | none => rfl
      | some rule =>
        cases rule with
        | template template => exact absurd hrule (hr template)
        | custom handler => rfl }

/-- An entry is usable exactly if it is complete. -/
theorem usable?_isSome_iff {e : Entry} : (usable? e).isSome = true ↔ e.Complete := by
  constructor
  · intro h
    obtain ⟨i, hi⟩ := Option.isSome_iff_exists.1 h
    exact (keeps_of_usable? hi).1
  · intro h
    obtain ⟨role, hrole⟩ := h.exists_role
    rw [usable?_of_role hrole, Option.isSome_some]

/-- The usable forms are those of the complete entries, one for each in their order. -/
theorem keeps_filterMap_usable? (lexicon : List Entry) :
    List.Forall₂ IndexedEntry.Keeps (lexicon.filterMap usable?)
      (lexicon.filter fun e => decide e.Complete) := by
  induction lexicon with
  | nil => exact .nil
  | cons e lexicon ih =>
    cases hu : usable? e with
    | some i =>
      obtain ⟨hcomplete, hkeeps⟩ := keeps_of_usable? hu
      rw [List.filterMap_cons_some hu, List.filter_cons, if_pos (decide_eq_true hcomplete)]
      exact .cons hkeeps ih
    | none =>
      have hnot : ¬ e.Complete := fun h => by
        have hsome := usable?_isSome_iff.2 h
        rw [hu] at hsome
        cases hsome
      rw [List.filterMap_cons_none hu, List.filter_cons, if_neg (by simpa using hnot)]
      exact ih

/-! ## By trigger -/

/-- An entry has the kind and a trigger that begins the tokens. -/
def Begins (kind : Kind) (tokens : List String) (e : IndexedEntry) : Prop :=
  e.role.foundAs kind = true ∧ e.trigger ≠ [] ∧ e.trigger <+: tokens

/-- The entry at one position is found ahead of the one at another: its trigger is longer, or as
long and it was registered later. -/
def Ahead (V : List IndexedEntry) (i j : Fin V.length) : Prop :=
  (V.get j).trigger.length < (V.get i).trigger.length ∨
    (V.get i).trigger.length = (V.get j).trigger.length ∧ j < i

/-- What is found among some entries: those of the kind whose trigger begins the tokens, each once
and in order, with the length of the trigger. -/
def Finds (V : List IndexedEntry) (kind : Kind) (tokens : List String)
    (found : List (Nat × IndexedEntry)) : Prop :=
  ∃ order : List (Fin V.length),
    found = order.map (fun i => ((V.get i).trigger.length, V.get i)) ∧
    (∀ i, i ∈ order ↔ Begins kind tokens (V.get i)) ∧ order.Pairwise (Ahead V)

/-- The positions of the entries of a kind with some trigger, the latest first. -/
def positions (V : List IndexedEntry) (kind : Kind) (trigger : List String) :
    List (Fin V.length) :=
  ((List.finRange V.length).filter fun i =>
    (V.get i).role.foundAs kind && (V.get i).trigger == trigger).reverse

/-- Positions are those of entries of the kind with the trigger. -/
theorem mem_positions {V : List IndexedEntry} {kind : Kind} {trigger : List String}
    {i : Fin V.length} : i ∈ positions V kind trigger ↔
      (V.get i).role.foundAs kind = true ∧ (V.get i).trigger = trigger := by
  rw [positions, List.mem_reverse, List.mem_filter, Bool.and_eq_true, beq_iff_eq]
  exact and_iff_right (List.mem_finRange i)

/-- Filtering a list is filtering its positions. -/
theorem filter_eq_map (V : List IndexedEntry) (p : IndexedEntry → Bool) :
    V.filter p = ((List.finRange V.length).filter fun i => p (V.get i)).map V.get := by
  conv_lhs => rw [← List.map_get_finRange V]
  rw [List.filter_map]
  rfl

/-- The entries of one trigger, by their positions. -/
theorem triggered_eq_map (ix : Index) (kind : Kind) (trigger : List String) :
    ix.triggered kind trigger = (positions ix.entries kind trigger).map ix.entries.get := by
  rw [triggered, latest, List.filter_reverse, filter_eq_map, positions,
    List.map_reverse]

/-- The positions of what a look-up finds: by the length of the trigger, the longest first. -/
def order (V : List IndexedEntry) (kind : Kind) (tokens : List String) : List (Fin V.length) :=
  (List.range tokens.length).reverse.flatMap fun n => positions V kind (tokens.take (n + 1))

/-- The order of a look-up has the positions of the entries that begin the tokens, and no others. -/
theorem mem_order {V : List IndexedEntry} {kind : Kind} {tokens : List String}
    {i : Fin V.length} : i ∈ order V kind tokens ↔ Begins kind tokens (V.get i) := by
  simp only [order, List.mem_flatMap, List.mem_reverse, List.mem_range, mem_positions]
  constructor
  · rintro ⟨n, hn, hk, ht⟩
    have hne : (V.get i).trigger ≠ [] := by
      intro h0
      have hl := congrArg List.length (ht.symm.trans h0)
      rw [List.length_take, List.length_nil] at hl
      omega
    exact ⟨hk, hne, ht ▸ List.take_prefix _ _⟩
  · rintro ⟨hk, hne, ht⟩
    have hpos := List.length_pos_iff.2 hne
    have hle := ht.length_le
    refine ⟨(V.get i).trigger.length - 1, by omega, hk, ?_⟩
    rw [Nat.sub_add_cancel hpos]
    exact List.prefix_iff_eq_take.1 ht

/-- In the order of a look-up, longer triggers come first, and later entries of one length. -/
theorem pairwise_order (V : List IndexedEntry) (kind : Kind) (tokens : List String) :
    (order V kind tokens).Pairwise (Ahead V) := by
  rw [order, List.pairwise_flatMap]
  constructor
  · -- entries with one trigger: the later ones come first
    intro n _
    rw [positions, List.pairwise_reverse]
    refine ((List.pairwise_lt_finRange V.length).filter _).imp_of_mem fun {i j} hi hj h => ?_
    have hi := (mem_positions.1 (List.mem_reverse.2 hi)).2
    have hj := (mem_positions.1 (List.mem_reverse.2 hj)).2
    exact Or.inr ⟨congrArg List.length (hj.trans hi.symm), h⟩
  · -- entries with triggers of two lengths: the longer ones come first
    rw [List.pairwise_reverse]
    refine List.pairwise_lt_range.imp_of_mem fun {n m} hn hm h i hi j hj => ?_
    have hn := List.mem_range.1 hn
    have hm := List.mem_range.1 hm
    refine Or.inl ?_
    rw [(mem_positions.1 hi).2, (mem_positions.1 hj).2, List.length_take, List.length_take]
    omega

/-- A look-up finds the entries of a kind whose trigger begins the tokens, each once, in order. -/
theorem finds_lookup {ix : Index} (h : ix.Arranged) (kind : Kind) (tokens : List String) :
    Finds ix.entries kind tokens (ix.lookup kind tokens) := by
  refine ⟨order ix.entries kind tokens, ?_, fun _ => mem_order, pairwise_order _ _ _⟩
  rw [lookup_eq h, order, List.map_flatMap]
  refine List.flatMap_congr fun n hn => ?_
  rw [triggered_eq_map, List.map_map]
  refine List.map_congr_left fun i hi => ?_
  have hn := List.mem_range.1 (List.mem_reverse.1 hn)
  have hlength : (ix.entries.get i).trigger.length = n + 1 := by
    rw [(mem_positions.1 hi).2, List.length_take]
    omega
  rw [hlength]
  rfl

/-! ## By close delimiter -/

/-- The head of a list in descending order is its maximum. -/
theorem head?_eq_max? {l : List Nat} (h : l.Pairwise (· > ·)) : l.head? = l.max? := by
  cases l with
  | nil => rfl
  | cons a as =>
    refine (List.max?_eq_some_iff.2 ⟨List.mem_cons_self, fun b hb => ?_⟩).symm
    rcases List.mem_cons.1 hb with rfl | hb
    · exact Nat.le_refl _
    · exact Nat.le_of_lt ((List.pairwise_cons.1 h).1 b hb)

/-- Lists with the same members have the same maximum. -/
theorem max?_congr {l k : List Nat} (h : ∀ n, n ∈ l ↔ n ∈ k) : l.max? = k.max? := by
  refine Option.ext fun n => ?_
  rw [List.max?_eq_some_iff, List.max?_eq_some_iff, h n]
  exact and_congr_right fun _ => forall_congr' fun b => by rw [h b]

/-- The close delimiters of the entries that begin the tokens. -/
def closing (V : List IndexedEntry) (tokens : List String) : List (List String) :=
  (V.filterMap (·.role.close?)).filter (·.isPrefixOf tokens)

/-- What closes is the close delimiter of an entry and begins the tokens. -/
theorem mem_closing {V : List IndexedEntry} {tokens close : List String} :
    close ∈ closing V tokens ↔ (∃ e ∈ V, e.role.close? = some close) ∧ close <+: tokens := by
  rw [closing, List.mem_filter, List.mem_filterMap, List.isPrefixOf_iff_prefix]

/-- A beginning of the tokens is a key of the closers if it is the close delimiter of an entry. -/
theorem closers_isSome {ix : Index} (h : ix.Arranged) {close : List String} :
    (ix.closers.get? close).isSome ↔ close ≠ [] ∧ ∃ e ∈ ix.entries, e.role.close? = some close := by
  constructor
  · intro hs
    obtain ⟨group, hc⟩ := Option.isSome_iff_exists.1 hs
    obtain ⟨e, he⟩ := h.closers.exists_mem hc
    rw [h.closers.group, List.mem_filter, Bool.and_eq_true, bne_iff_ne, beq_iff_eq] at he
    exact ⟨he.2.1, e, List.mem_reverse.1 he.1, he.2.2⟩
  · rintro ⟨hne, e, he, hc⟩
    cases hs : ix.closers.get? close with
    | some _ => rfl
    | none =>
      have hg := h.closers.group close
      rw [TriggerTable.group, hs, Option.getD_none] at hg
      have hf := List.filter_eq_nil_iff.1 hg.symm e (List.mem_reverse.2 he)
      exact absurd (by rw [bne_iff_ne.2 hne, hc, beq_self_eq_true]; rfl) hf

/-- The close delimiter that matches is the longest one of those that begin the tokens. -/
theorem matchClose?_eq {ix : Index} (h : ix.Arranged)
    (hne : ∀ e ∈ ix.entries, e.role.close? ≠ some []) (tokens : List String) :
    ix.matchClose? tokens = ((closing ix.entries tokens).map List.length).max? := by
  -- the walk lists the longest key first, so its head is the greatest length
  have hdesc : ((ix.closers.prefixes tokens).map (·.1)).Pairwise (· > ·) := by
    rw [TrieMap.prefixes_eq, List.pairwise_map]
    exact pairwise_byLength (fun n => ix.closers.get? (tokens.take n)) _
  rw [matchClose?, ← List.head?_map, head?_eq_max? hdesc]
  refine max?_congr fun n => ?_
  rw [TrieMap.prefixes_eq, List.map_reverse, List.mem_reverse, List.map_filterMap]
  simp only [List.mem_filterMap, List.mem_range, List.mem_map, mem_closing, Option.map_map]
  constructor
  · rintro ⟨i, hi, hv⟩
    obtain ⟨group, hc, rfl⟩ := Option.map_eq_some_iff.1 hv
    obtain ⟨-, hex⟩ := (closers_isSome h).1 (Option.isSome_of_mem hc)
    refine ⟨tokens.take i, ⟨hex, List.take_prefix _ _⟩, ?_⟩
    rw [List.length_take]
    exact Nat.min_eq_left (Nat.le_of_lt_succ hi)
  · rintro ⟨close, ⟨⟨e, he, hc⟩, hp⟩, rfl⟩
    have hnil : close ≠ [] := fun h0 => hne e he (h0 ▸ hc)
    obtain ⟨group, hs⟩ := Option.isSome_iff_exists.1 ((closers_isSome h).2 ⟨hnil, e, he, hc⟩)
    refine ⟨close.length, Nat.lt_succ_of_le hp.length_le, ?_⟩
    rw [← List.prefix_iff_eq_take.1 hp, hs]
    rfl

/-- An entry whose close delimiter is missing is not usable. -/
theorem close?_ne_nil {e : Entry} {i : IndexedEntry} (h : usable? e = some i) :
    i.role.close? ≠ some [] := by
  obtain ⟨hcomplete, hkeeps⟩ := keeps_of_usable? h
  rw [hkeeps.close]
  by_cases hk : e.kind = .matchfix
  · rw [if_pos hk]
    exact fun hc => hcomplete.closeTrigger hk (Option.some.inj hc)
  · rw [if_neg hk]
    exact nofun

/-! ## All answers -/

/-- Leaving out what is not complete makes the same index. -/
theorem ofEntries_filter (lexicon : List Entry) :
    (ofEntries (lexicon.filter fun e => decide e.Complete)).1 = (ofEntries lexicon).1 := by
  have h : (lexicon.filter fun e => decide e.Complete).filterMap usable? =
      lexicon.filterMap usable? := by
    rw [List.filterMap_filter]
    refine List.filterMap_congr fun e _ => ?_
    cases hu : usable? e with
    | some i => simp [(keeps_of_usable? hu).1]
    | none => simp
  rw [ofEntries, h, ofEntries]

/-- An index of a lexicon answers every question from its complete entries in their order: it keeps
exactly them, with all that they say; a look-up finds those of the kind whose trigger begins the
tokens; a name is that of the last one; environments are listed latest first; the longest close
delimiter matches. Entries that are not complete change nothing. -/
theorem answers (lexicon : List Entry) :
    let V := lexicon.filter fun e => decide e.Complete
    let ix := (ofEntries lexicon).1
    List.Forall₂ IndexedEntry.Keeps ix.entries V ∧
    (∀ kind tokens, Finds ix.entries kind tokens (ix.lookup kind tokens)) ∧
    (∀ name, ix.byName? name = (ix.entries.filter (·.name == some name)).getLast?) ∧
    (∀ name, ix.environments name = (ix.entries.filter fun e =>
      e.role == .environment && String.join e.trigger == name).reverse) ∧
    (∀ tokens, ix.matchClose? tokens = ((closing ix.entries tokens).map List.length).max?) ∧
    (ofEntries V).1 = ix := by
  intro V ix
  have hV : ix.entries = lexicon.filterMap usable? := entries_ofEntries lexicon
  have harranged : ix.Arranged := arranged_ofEntries lexicon
  refine ⟨?_, fun kind tokens => finds_lookup harranged kind tokens, fun name => ?_, fun name => ?_,
    fun tokens => ?_, ofEntries_filter lexicon⟩
  · rw [hV]
    exact keeps_filterMap_usable? lexicon
  · rw [List.getLast?_filter, harranged.names.byName, latest]
  · rw [← List.filter_reverse, harranged.environments_eq, latest]
  · refine matchClose?_eq harranged (fun e he => ?_) tokens
    rw [hV] at he
    obtain ⟨x, -, hx⟩ := List.mem_filterMap.1 he
    exact close?_ne_nil hx

end Index
end MathMarkup
