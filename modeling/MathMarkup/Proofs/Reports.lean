import MathMarkup.Proofs.Lookup

/-!
# What is reported about a lexicon

Each entry of a lexicon is reported on by itself, in the order of the entries. One that is left out
has exactly one fault (`Fault`, `Entry.role_eq_error_iff`). One that is kept is only reported if it
is an alias of a name that no entry has. The names are those of all entries, and not only of those
in the index: an alias of an entry that is left out is not reported, though the index does not know
the name (`Index.Reports`).
-/

namespace MathMarkup

/-- What makes an entry unusable: it lacks what its kind calls for, and the trigger is missed
first. -/
inductive Fault (e : Entry) : Warning → Prop
  | trigger : e.trigger = [] → (e.kind = .identifier ∨ e.kind = .function → e.name = none) →
      Fault e (.missingTrigger e.kind e.label)
  | precedence : e.trigger ≠ [] → e.kind = .prefixOp ∨ e.kind = .infixOp ∨ e.kind = .postfixOp →
      e.precedence = none → Fault e (.missingPrecedence e.kind e.label)
  | closeTrigger : e.trigger ≠ [] → e.kind = .matchfix → e.closeTrigger = [] →
      Fault e (.missingCloseTrigger e.label)

namespace Entry

/-- An entry has no role exactly if it has a fault, and that is what is said about it. -/
theorem role_eq_error_iff {e : Entry} {w : Warning} : e.role = .error w ↔ Fault e w := by
  constructor
  · intro h
    unfold role at h
    -- a missing trigger is found first, then what the kind asks for
    by_cases ht : e.trigger = []
    · have hw : (e.kind = .identifier ∨ e.kind = .function → e.name = none) ∧
          .missingTrigger e.kind e.label = w := by
        by_cases hname : e.name = none <;> cases hk : e.kind <;> simp_all
      obtain ⟨hn, rfl⟩ := hw
      exact .trigger ht hn
    · cases hk : e.kind with
      | identifier | function | environment => simp [hk, ht] at h
      | prefixOp | infixOp | postfixOp =>
        cases hp : e.precedence with
        | some p => simp [hk, ht, hp] at h
        | none =>
          obtain rfl : .missingPrecedence e.kind e.label = w := by simpa [hk, ht, hp] using h
          exact .precedence ht (by simp [hk]) hp
      | matchfix =>
        by_cases hc : e.closeTrigger = []
        · obtain rfl : .missingCloseTrigger e.label = w := by simpa [hk, ht, hc] using h
          exact .closeTrigger ht hk hc
        · simp [hk, ht, hc] at h
  · intro h
    cases h with
    | trigger ht hn =>
      unfold role
      cases hk : e.kind <;> simp_all
    | precedence ht hk hp =>
      unfold role
      rcases hk with hk | hk | hk <;> simp [hk, ht, hp]
    | closeTrigger ht hk hc =>
      unfold role
      simp [hk, ht, hc]

end Entry

namespace Index

/-- An entry is left out exactly if it has a fault. -/
theorem usable?_eq_none_iff {e : Entry} : usable? e = none ↔ ∃ w, Fault e w := by
  simp only [← Entry.role_eq_error_iff]
  unfold usable?
  cases e.role <;> simp

/-- An index does not know a name exactly if every entry with that name is left out. -/
theorem byName?_eq_none_iff {lexicon : List Entry} {name : String} :
    (ofEntries lexicon).1.byName? name = none ↔
      ∀ e ∈ lexicon, e.name = some name → usable? e = none := by
  rw [(arranged_ofEntries lexicon).names.byName, latest_ofEntries, List.find?_eq_none]
  simp only [List.mem_reverse, List.mem_filterMap, beq_iff_eq]
  constructor
  · intro h e he hn
    cases hi : usable? e with
    | none => rfl
    | some i => exact absurd ((of_usable?_eq_some hi).1.trans hn) (h i ⟨e, he, hi⟩)
  · intro h i hi hname
    obtain ⟨e, he, hi⟩ := hi
    have hnone := h e he ((of_usable?_eq_some hi).1.symm.trans hname)
    rw [hi] at hnone
    cases hnone

/-- What is reported about an entry of a lexicon: its one fault if it is left out, and otherwise
that it is an alias of a name that no entry has, neither one of the index nor one that is left
out. -/
structure Reports (lexicon : List Entry) (e : Entry) (ws : List Warning) : Prop where
  faulty : usable? e = none → ∃ w, ws = [w] ∧ Fault e w
  plain : ∀ i, usable? e = some i → i.aliasName = none → ws = []
  unknown : ∀ i name, usable? e = some i → i.aliasName = some name →
    (ofEntries lexicon).1.byName? name = none →
    (∀ d ∈ lexicon, usable? d = none → d.name ≠ some name) →
      ws = [.unknownAlias (join e.trigger) name]
  known : ∀ i name, usable? e = some i → i.aliasName = some name →
    ((ofEntries lexicon).1.byName? name ≠ none ∨
      ∃ d ∈ lexicon, usable? d = none ∧ d.name = some name) → ws = []

/-- A name is taken by an entry of the index or by one that is left out. -/
theorem any_name_iff {lexicon : List Entry} {name : String} :
    (lexicon.any fun d => d.name == some name) = true ↔
      (ofEntries lexicon).1.byName? name ≠ none ∨
        ∃ d ∈ lexicon, usable? d = none ∧ d.name = some name := by
  rw [List.any_eq_true, Ne, byName?_eq_none_iff]
  simp only [beq_iff_eq]
  constructor
  · intro h
    obtain ⟨d, hd, hn⟩ := h
    by_cases hu : usable? d = none
    · exact Or.inr ⟨d, hd, hu, hn⟩
    · exact Or.inl fun hall => hu (hall d hd hn)
  · intro h
    rcases h with hsome | ⟨d, hd, -, hn⟩
    · simp only [not_forall] at hsome
      obtain ⟨d, hd, hn, -⟩ := hsome
      exact ⟨d, hd, hn⟩
    · exact ⟨d, hd, hn⟩

theorem entryWarnings_of_fault (lexicon : List Entry) {e : Entry} {w : Warning} (h : Fault e w) :
    entryWarnings lexicon e = [w] := by
  rw [entryWarnings, Entry.role_eq_error_iff.2 h]

/-- A usable entry can only be reported for its alias. -/
theorem entryWarnings_of_usable (lexicon : List Entry) {e : Entry} {i : IndexedEntry}
    (h : usable? e = some i) :
    entryWarnings lexicon e = i.aliasName.elim [] fun name =>
      if lexicon.any (·.name == some name) then [] else [.unknownAlias (join e.trigger) name] := by
  obtain ⟨role, hrole, rfl⟩ := usable?_eq_some_iff.1 h
  rw [entryWarnings, hrole]
  show _ = e.aliasName?.elim _ _
  cases e.aliasName? <;> rfl

theorem reports_entryWarnings (lexicon : List Entry) (e : Entry) :
    Reports lexicon e (entryWarnings lexicon e) where
  faulty h := by
    obtain ⟨w, hw⟩ := usable?_eq_none_iff.1 h
    exact ⟨w, entryWarnings_of_fault lexicon hw, hw⟩
  plain i h hname := by
    rw [entryWarnings_of_usable lexicon h, hname]
    rfl
  unknown i name h hname hunknown hout := by
    rw [entryWarnings_of_usable lexicon h, hname]
    refine if_neg ?_
    rw [any_name_iff]
    intro htaken
    rcases htaken with hknown | ⟨d, hd, hu, hn⟩
    · exact hknown hunknown
    · exact hout d hd hu hn
  known i name h hname htaken := by
    rw [entryWarnings_of_usable lexicon h, hname]
    exact if_pos (any_name_iff.2 htaken)

/-- Each entry of a lexicon is reported on in its place, and the reports are handed over in one
batch unless there are none. -/
theorem register_reports (lexicon : List Entry) :
    ∃ report : Entry → List Warning, (∀ e ∈ lexicon, Reports lexicon e (report e)) ∧
      ∀ {σ : Type} (handOver : List Warning → σ → σ) (s : σ),
        let reports := lexicon.flatMap report
        (register handOver lexicon s).1 = (ofEntries lexicon).1 ∧
          (register handOver lexicon s).2 = if reports.isEmpty then s else handOver reports s := by
  refine ⟨entryWarnings lexicon, ?_, ?_⟩
  · intro e _
    exact reports_entryWarnings lexicon e
  · intro σ handOver s reports
    exact ⟨rfl, rfl⟩

/-- A symbol that parses as an operator, which lacks a precedence. -/
def aliasOfLeftOut : List Entry :=
  [{ kind := .identifier, trigger := ["\\a"], parse := some (.aliasOf "Add") },
    { kind := .infixOp, trigger := ["+"], name := some "Add" }]

/-- An alias of an entry that is left out is not reported, though the index does not know its
name. -/
theorem exists_unreported_alias :
    ¬ ∀ lexicon, ∀ e ∈ lexicon, ∀ i name, usable? e = some i → i.aliasName = some name →
      (.unknownAlias (join e.trigger) name ∈ (ofEntries lexicon).2 ↔
        (ofEntries lexicon).1.byName? name = none) := by
  intro h
  have hunknown : (ofEntries aliasOfLeftOut).1.byName? "Add" = none := by
    refine byName?_eq_none_iff.2 ?_
    intro e he hn
    rcases List.mem_pair.1 he with rfl | rfl
    · cases hn
    · rfl
  have hmem := (h aliasOfLeftOut _ List.mem_cons_self _ "Add" rfl rfl).2 hunknown
  exact absurd hmem (by decide)

end Index
end MathMarkup
