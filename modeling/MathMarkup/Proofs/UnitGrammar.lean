import MathMarkup.Proofs.Braces

/-!
# The grammar of lexical units

`countUnits` counts in one pass, with a depth and a flag. What it counts are the units of a grammar.
A command, a subscript mark or a superscript mark forms a unit with all the braced groups right
after it; a group that no such token takes is a unit, and so is any other token (`UnitBefore`).

Balanced tokens are cut into units in one way only (`Decomposes`), since a group ends at the brace
that closes it. The pass counts one for each of them: the depth passes over whatever is in a group
(`countUnitsFrom_group`), and the flag has no part in what comes after the last group that is taken.
Units do not depend on what follows, unless that begins with a group, so counts add up
(`countUnits_of_balanced`).
-/

namespace MathMarkup.Token

variable {t c : Token} {g g' ts us rest rest' : List Token} {units : List (List Token)}

/-! ## Groups -/

/-- Balanced tokens in braces. -/
inductive IsGroup : List Token → Prop
  | braced {opening close : Token} {body : List Token} (ho : opening.kind = .openGroup)
      (hc : close.kind = .closeGroup) (hbody : Balanced body) :
      IsGroup (opening :: (body ++ [close]))

theorem IsGroup.head (h : IsGroup g) :
    ∃ opening ts, g = opening :: ts ∧ opening.kind = .openGroup := by
  cases h with
  | braced ho hc hbody => exact ⟨_, _, rfl, ho⟩

theorem openAfter_append (depth : Nat) (ts us : List Token) :
    openAfter depth (ts ++ us) = (openAfter depth ts).bind fun d => openAfter d us := by
  induction ts generalizing depth with
  | nil => rfl
  | cons t ts ih =>
    obtain ⟨raw, kind⟩ := t
    cases kind with
    | closeGroup =>
      cases depth with
      | zero => rfl
      | succ d => exact ih d
    | openGroup => exact ih (depth + 1)
    | command | number | text | char => exact ih depth

theorem openAfter_of_close (hc : c.kind = .closeGroup) (ts : List Token) :
    openAfter 0 (c :: ts) = none := by
  obtain ⟨raw, kind⟩ := c
  obtain rfl := hc
  rfl

/-- Of `k + 1 + d` open braces the `d` innermost ones are closed first, and then there is a brace
that closes the next one. -/
theorem exists_close {d k : Nat} (h : openAfter (k + 1 + d) ts = some 0) :
    ∃ body close rest, ts = body ++ close :: rest ∧ close.kind = .closeGroup ∧
      openAfter d body = some 0 ∧ openAfter k rest = some 0 := by
  induction ts generalizing d with
  | nil =>
    have := Option.some.inj h
    omega
  | cons t ts ih =>
    -- the token belongs to the body, and it leads from the depth `d` to the depth `e`
    have hcons : ∀ e, openAfter (k + 1 + e) ts = some 0 →
        (∀ us, openAfter d (t :: us) = openAfter e us) →
        ∃ body close rest, t :: ts = body ++ close :: rest ∧ close.kind = .closeGroup ∧
          openAfter d body = some 0 ∧ openAfter k rest = some 0 := by
      intro e he hopen
      obtain ⟨body, close, rest, rfl, hc, hbody, hrest⟩ := ih he
      exact ⟨t :: body, close, rest, rfl, hc, (hopen body).trans hbody, hrest⟩
    obtain ⟨raw, kind⟩ := t
    cases kind with
    | closeGroup =>
      cases d with
      | zero => exact ⟨[], _, ts, rfl, rfl, rfl, h⟩
      | succ d => exact hcons d h fun us => rfl
    | openGroup => exact hcons (d + 1) h fun us => rfl
    | command | number | text | char => exact hcons d h fun us => rfl

/-- Balanced tokens that begin with a brace begin with a group. -/
theorem exists_group (h : Balanced (t :: ts)) (ht : t.kind = .openGroup) :
    ∃ g rest, t :: ts = g ++ rest ∧ IsGroup g ∧ Balanced rest := by
  have hopen : openAfter 1 ts = some 0 := by
    obtain ⟨raw, kind⟩ := t
    obtain rfl := ht
    exact h
  obtain ⟨body, close, rest, rfl, hc, hbody, hrest⟩ := @exists_close ts 0 0 hopen
  refine ⟨t :: (body ++ [close]), rest, ?_, .braced ht hc hbody, hrest⟩
  rw [List.cons_append, List.append_assoc, List.singleton_append]

/-- A group ends at the brace that closes it. -/
theorem IsGroup.append_inj (hg : IsGroup g) (hg' : IsGroup g') (h : g ++ rest = g' ++ rest') :
    g = g' ∧ rest = rest' := by
  -- if one body went on behind the other, then the brace there would close nothing
  have hbeyond : ∀ {body : List Token} {close : Token} (more : List Token), Balanced body →
      close.kind = .closeGroup → ¬Balanced (body ++ close :: more) := by
    intro body close more hbody hc hmore
    rw [Balanced, openAfter_append, hbody, Option.bind_some, openAfter_of_close hc more] at hmore
    cases hmore
  obtain @⟨opening, close, body, -, hc, hbody⟩ := hg
  obtain @⟨opening', close', body', -, hc', hbody'⟩ := hg'
  rw [List.cons_append, List.cons_append, List.append_assoc, List.append_assoc,
    List.singleton_append, List.singleton_append] at h
  obtain ⟨rfl, hbodies⟩ := List.cons.inj h
  rcases List.append_eq_append_iff.1 hbodies with ⟨more, rfl, hmore⟩ | ⟨more, rfl, hmore⟩
  · cases more with
    | nil =>
      obtain ⟨rfl, rfl⟩ := List.cons.inj hmore
      rw [List.append_nil]
      exact ⟨rfl, rfl⟩
    | cons d more =>
      obtain ⟨rfl, -⟩ := List.cons.inj hmore
      exact absurd hbody' (hbeyond more hbody hc)
  · cases more with
    | nil =>
      obtain ⟨rfl, rfl⟩ := List.cons.inj hmore
      rw [List.append_nil]
      exact ⟨rfl, rfl⟩
    | cons d more =>
      obtain ⟨rfl, -⟩ := List.cons.inj hmore
      exact absurd hbody (hbeyond more hbody' hc')

/-! ## Units -/

/-- A command, or a mark for a script. -/
def Absorbs (t : Token) : Prop :=
  t.kind = .command ∨ t.kind = .char ∧ (t.raw = "_" ∨ t.raw = "^")

theorem absorbsGroups_iff : t.absorbsGroups = true ↔ Absorbs t := by
  simp only [absorbsGroups, Absorbs, Bool.or_eq_true, Bool.and_eq_true, beq_iff_eq]

theorem Absorbs.not_brace (h : Absorbs t) : t.kind ≠ .openGroup ∧ t.kind ≠ .closeGroup := by
  rcases h with h | ⟨h, -⟩ <;> rw [h] <;> exact ⟨TokenKind.noConfusion, TokenKind.noConfusion⟩

/-- No group begins the tokens. -/
def NoGroup (ts : List Token) : Prop :=
  ∀ g, IsGroup g → ¬g <+: ts

theorem noGroup_of_head (h : ∀ t ∈ ts.head?, t.kind ≠ .openGroup) : NoGroup ts := by
  intro g hg hpre
  obtain ⟨opening, body, rfl, ho⟩ := hg.head
  obtain ⟨rest, rfl⟩ := hpre
  exact h opening rfl ho

/-- Tokens that are a unit if certain tokens follow. A command or a mark takes all groups that stand
right after it. -/
inductive UnitBefore : List Token → List Token → Prop
  | absorbing {t : Token} {groups : List (List Token)} {rest : List Token} (ht : Absorbs t)
      (hgroups : ∀ g ∈ groups, IsGroup g) (hrest : NoGroup rest) :
      UnitBefore (t :: groups.flatten) rest
  | group {g rest : List Token} (hg : IsGroup g) : UnitBefore g rest
  | single {t : Token} {rest : List Token} (ht : ¬Absorbs t) (ho : t.kind ≠ .openGroup)
      (hc : t.kind ≠ .closeGroup) : UnitBefore [t] rest

/-- The tokens are these units one after the other. -/
inductive Decomposes : List Token → List (List Token) → Prop
  | nil : Decomposes [] []
  | cons {u rest : List Token} {units : List (List Token)} (hu : UnitBefore u rest)
      (h : Decomposes rest units) : Decomposes (u ++ rest) (u :: units)

theorem UnitBefore.ne_nil (h : UnitBefore us rest) : us ≠ [] := by
  cases h with
  | absorbing => exact List.cons_ne_nil _ _
  | group hg =>
    obtain ⟨opening, ts, rfl, -⟩ := hg.head
    exact List.cons_ne_nil _ _
  | single => exact List.cons_ne_nil _ _

/-- A unit begins with no closing brace, and with an opening one only if a group begins it. -/
theorem UnitBefore.head (h : UnitBefore us rest) :
    ∀ t ∈ (us ++ rest).head?,
      t.kind ≠ .closeGroup ∧ (t.kind = .openGroup → ¬NoGroup (us ++ rest)) := by
  intro t ht
  cases h with
  | absorbing habsorbs =>
    obtain rfl := Option.some.inj ht
    exact ⟨habsorbs.not_brace.2, fun ho => absurd ho habsorbs.not_brace.1⟩
  | group hg =>
    refine ⟨?_, fun _ hno => hno _ hg (List.prefix_append _ _)⟩
    obtain ⟨opening, ts, rfl, ho⟩ := hg.head
    obtain rfl := Option.some.inj ht
    rw [ho]
    exact TokenKind.noConfusion
  | single _ ho hc =>
    obtain rfl := Option.some.inj ht
    exact ⟨hc, fun hopen => absurd hopen ho⟩

theorem Decomposes.head (h : Decomposes ts units) :
    ∀ t ∈ ts.head?, t.kind ≠ .closeGroup ∧ (t.kind = .openGroup → ¬NoGroup ts) := by
  cases h with
  | nil =>
    intro t ht
    cases ht
  | cons hu _ => exact hu.head

/-! ## One decomposition -/

/-- The groups that are taken are the same, if none is left behind them. -/
theorem groups_unique {groups groups' : List (List Token)} (h : ∀ g ∈ groups, IsGroup g)
    (h' : ∀ g ∈ groups', IsGroup g) (hrest : NoGroup rest) (hrest' : NoGroup rest')
    (heq : groups.flatten ++ rest = groups'.flatten ++ rest') :
    groups = groups' ∧ rest = rest' := by
  -- on the groups from the left; a group ends in one place only, so the first ones agree
  induction groups generalizing groups' with
  | nil =>
    cases groups' with
    | nil => exact ⟨rfl, heq⟩
    | cons g groups' =>
      refine absurd ?_ (hrest g (h' g List.mem_cons_self))
      refine ⟨groups'.flatten ++ rest', ?_⟩
      rw [← List.append_assoc]
      exact heq.symm
  | cons g groups ih =>
    cases groups' with
    | nil =>
      refine absurd ?_ (hrest' g (h g List.mem_cons_self))
      refine ⟨groups.flatten ++ rest, ?_⟩
      rw [← List.append_assoc]
      exact heq
    | cons g' groups' =>
      rw [List.forall_mem_cons] at h h'
      rw [List.flatten_cons, List.flatten_cons, List.append_assoc, List.append_assoc] at heq
      obtain ⟨rfl, htail⟩ := h.1.append_inj h'.1 heq
      obtain ⟨rfl, rfl⟩ := ih h.2 h'.2 htail
      exact ⟨rfl, rfl⟩

/-- A unit ends in one place only. -/
theorem UnitBefore.append_inj (h : UnitBefore us rest) (h' : UnitBefore ts rest')
    (heq : us ++ rest = ts ++ rest') : us = ts ∧ rest = rest' := by
  -- the first token tells what kind of unit it is
  cases h with
  | absorbing ht hgroups hrest =>
    cases h' with
    | absorbing ht' hgroups' hrest' =>
      obtain ⟨rfl, htail⟩ := List.cons.inj heq
      obtain ⟨rfl, rfl⟩ := groups_unique hgroups hgroups' hrest hrest' htail
      exact ⟨rfl, rfl⟩
    | group hg =>
      obtain ⟨opening, body, rfl, ho⟩ := hg.head
      obtain ⟨rfl, -⟩ := List.cons.inj heq
      exact absurd ho ht.not_brace.1
    | single ht' =>
      obtain ⟨rfl, -⟩ := List.cons.inj heq
      exact absurd ht ht'
  | group hg =>
    cases h' with
    | absorbing ht' =>
      obtain ⟨opening, body, rfl, ho⟩ := hg.head
      obtain ⟨rfl, -⟩ := List.cons.inj heq
      exact absurd ho ht'.not_brace.1
    | group hg' => exact hg.append_inj hg' heq
    | single _ ho' =>
      obtain ⟨opening, body, rfl, ho⟩ := hg.head
      obtain ⟨rfl, -⟩ := List.cons.inj heq
      exact absurd ho ho'
  | single ht ho =>
    cases h' with
    | absorbing ht' =>
      obtain ⟨rfl, -⟩ := List.cons.inj heq
      exact absurd ht' ht
    | group hg =>
      obtain ⟨opening, body, rfl, ho'⟩ := hg.head
      obtain ⟨rfl, -⟩ := List.cons.inj heq
      exact absurd ho' ho
    | single =>
      obtain ⟨rfl, rfl⟩ := List.cons.inj heq
      exact ⟨rfl, rfl⟩

theorem Decomposes.unique {units units' : List (List Token)} (h : Decomposes ts units)
    (h' : Decomposes ts units') : units = units' := by
  induction h generalizing units' with
  | nil =>
    generalize hts : ([] : List Token) = ts at h'
    cases h' with
    | nil => rfl
    | cons hu _ => exact absurd (List.append_eq_nil_iff.1 hts.symm).1 hu.ne_nil
  | @cons u rest units hu hrest ih =>
    generalize hts : u ++ rest = ts at h'
    cases h' with
    | nil => exact absurd (List.append_eq_nil_iff.1 hts).1 hu.ne_nil
    | cons hu' hrest' =>
      obtain ⟨rfl, rfl⟩ := hu.append_inj hu' hts
      rw [ih hrest']

/-- Balanced tokens begin with groups, and then no more groups follow. -/
theorem exists_groups (h : Balanced ts) :
    ∃ (groups : List (List Token)) (rest : List Token), ts = groups.flatten ++ rest ∧
      (∀ g ∈ groups, IsGroup g) ∧ Balanced rest ∧ NoGroup rest := by
  induction hn : ts.length using Nat.strongRecOn generalizing ts with
  | _ n ih =>
    subst hn
    cases ts with
    | nil =>
      refine ⟨[], [], rfl, fun g hg => absurd hg List.not_mem_nil, h, noGroup_of_head ?_⟩
      intro u hu
      cases hu
    | cons t ts =>
      -- an opening brace begins a group, any other token ends the run of groups
      by_cases ht : t.kind = .openGroup
      · obtain ⟨g, rest, heq, hg, hrest⟩ := exists_group h ht
        have hless : rest.length < (t :: ts).length := by
          obtain ⟨opening, body, rfl, -⟩ := hg.head
          rw [heq, List.length_append, List.length_cons]
          omega
        obtain ⟨groups, after, rfl, hgroups, hafter⟩ := ih _ hless hrest rfl
        refine ⟨g :: groups, after, ?_, List.forall_mem_cons.2 ⟨hg, hgroups⟩, hafter⟩
        rw [heq, List.flatten_cons, List.append_assoc]
      · refine ⟨[], t :: ts, rfl, fun g hg => absurd hg List.not_mem_nil, h, noGroup_of_head ?_⟩
        intro u hu
        obtain rfl := Option.some.inj hu
        exact ht

theorem exists_unit (h : Balanced (t :: ts)) :
    ∃ u rest, t :: ts = u ++ rest ∧ UnitBefore u rest ∧ Balanced rest := by
  by_cases ho : t.kind = .openGroup
  · obtain ⟨g, rest, heq, hg, hrest⟩ := exists_group h ho
    exact ⟨g, rest, heq, .group hg, hrest⟩
  · have hc : t.kind ≠ .closeGroup := by
      intro hc
      rw [Balanced, openAfter_of_close hc ts] at h
      cases h
    have hts : Balanced ts := by
      obtain ⟨raw, kind⟩ := t
      cases kind with
      | openGroup => exact absurd rfl ho
      | closeGroup => exact absurd rfl hc
      | command | number | text | char => exact h
    by_cases ht : Absorbs t
    · obtain ⟨groups, rest, rfl, hgroups, hrest, hno⟩ := exists_groups hts
      exact ⟨t :: groups.flatten, rest, rfl, .absorbing ht hgroups hno, hrest⟩
    · exact ⟨[t], ts, rfl, .single ht ho hc, hts⟩

theorem exists_decomposes (h : Balanced ts) : ∃ units, Decomposes ts units := by
  induction hn : ts.length using Nat.strongRecOn generalizing ts with
  | _ n ih =>
    subst hn
    cases ts with
    | nil => exact ⟨[], .nil⟩
    | cons t ts =>
      obtain ⟨u, rest, heq, hu, hrest⟩ := exists_unit h
      have hless : rest.length < (t :: ts).length := by
        have := List.length_pos_iff.2 hu.ne_nil
        rw [heq, List.length_append]
        omega
      obtain ⟨units, hunits⟩ := ih _ hless hrest rfl
      rw [heq]
      exact ⟨u :: units, .cons hu hunits⟩

/-- Units stay units if tokens follow that begin with no opening brace. -/
theorem Decomposes.append {units units' : List (List Token)} (h : Decomposes ts units)
    (h' : Decomposes us units') (hus : ∀ t ∈ us.head?, t.kind ≠ .openGroup) :
    Decomposes (ts ++ us) (units ++ units') := by
  induction h with
  | nil => exact h'
  | @cons u rest units hu hrest ih =>
    rw [List.append_assoc]
    refine .cons ?_ ih
    cases hu with
    | absorbing ht hgroups hno =>
      refine .absorbing ht hgroups (noGroup_of_head ?_)
      cases rest with
      | nil => exact hus
      | cons t rest =>
        intro u hu ho
        exact (hrest.head u hu).2 ho hno
    | group hg => exact .group hg
    | single ht ho hc => exact .single ht ho hc

/-! ## Counting -/

/-- Nothing is counted inside of braces. -/
theorem countUnitsFrom_inside {d e : Nat} (h : openAfter d ts = some e) (absorbing : Bool)
    (rest : List Token) :
    countUnitsFrom (d + 1) absorbing (ts ++ rest) = countUnitsFrom (e + 1) absorbing rest := by
  induction ts generalizing d with
  | nil =>
    obtain rfl := Option.some.inj h
    rfl
  | cons t ts ih =>
    obtain ⟨raw, kind⟩ := t
    cases kind with
    | closeGroup =>
      cases d with
      | zero => cases h
      | succ d => exact ih h
    | openGroup => exact ih (d := d + 1) h
    | command | number | text | char => exact ih h

/-- A group counts as one, or it is taken by the unit before it. -/
theorem countUnitsFrom_group (hg : IsGroup g) (rest : List Token) :
    countUnitsFrom 0 true (g ++ rest) = countUnitsFrom 0 true rest ∧
      countUnitsFrom 0 false (g ++ rest) = 1 + countUnitsFrom 0 false rest := by
  obtain @⟨⟨raw, kind⟩, ⟨raw', kind'⟩, body, ho, hc, hbody⟩ := hg
  obtain rfl := ho
  obtain rfl := hc
  have hinside : ∀ absorbing, countUnitsFrom 1 absorbing (body ++ [⟨raw', .closeGroup⟩] ++ rest) =
      countUnitsFrom 0 absorbing rest := by
    intro absorbing
    rw [List.append_assoc]
    exact countUnitsFrom_inside hbody absorbing _
  constructor
  · exact hinside true
  · show 1 + countUnitsFrom 1 false (body ++ [_] ++ rest) = _
    rw [hinside]

theorem countUnitsFrom_groups {groups : List (List Token)} (h : ∀ g ∈ groups, IsGroup g)
    (rest : List Token) :
    countUnitsFrom 0 true (groups.flatten ++ rest) = countUnitsFrom 0 true rest := by
  induction groups with
  | nil => rfl
  | cons g groups ih =>
    rw [List.forall_mem_cons] at h
    rw [List.flatten_cons, List.append_assoc, (countUnitsFrom_group h.1 _).1, ih h.2]

/-- A token outside of braces counts as one, and it settles the flag. -/
theorem countUnitsFrom_token (ho : t.kind ≠ .openGroup) (hc : t.kind ≠ .closeGroup)
    (absorbing : Bool) (ts : List Token) :
    countUnitsFrom 0 absorbing (t :: ts) = 1 + countUnitsFrom 0 t.absorbsGroups ts := by
  obtain ⟨raw, kind⟩ := t
  cases kind with
  | openGroup => exact absurd rfl ho
  | closeGroup => exact absurd rfl hc
  | command | number | text | char => rfl

/-- The flag has no part in what comes after the last group that is taken. -/
theorem Decomposes.countUnitsFrom_true (h : Decomposes ts units) (hno : NoGroup ts) :
    countUnitsFrom 0 true ts = countUnitsFrom 0 false ts := by
  cases ts with
  | nil => rfl
  | cons t ts =>
    obtain ⟨hc, ho⟩ := h.head t rfl
    have ho : t.kind ≠ .openGroup := fun hopen => ho hopen hno
    rw [countUnitsFrom_token ho hc, countUnitsFrom_token ho hc]

theorem Decomposes.countUnits_eq (h : Decomposes ts units) : countUnits ts = units.length := by
  induction h with
  | nil => rfl
  | @cons u rest units hu hrest ih =>
    rw [List.length_cons, ← ih, Nat.add_comm]
    show countUnitsFrom 0 false (u ++ rest) = 1 + countUnitsFrom 0 false rest
    cases hu with
    | @absorbing t groups _ ht hgroups hno =>
      rw [List.cons_append, countUnitsFrom_token ht.not_brace.1 ht.not_brace.2,
        absorbsGroups_iff.2 ht, countUnitsFrom_groups hgroups, hrest.countUnitsFrom_true hno]
    | group hg => exact (countUnitsFrom_group hg rest).2
    | @single t _ ht ho hc =>
      have hflag : t.absorbsGroups = false := by
        rw [← Bool.not_eq_true, absorbsGroups_iff]
        exact ht
      rw [List.singleton_append, countUnitsFrom_token ho hc, hflag]

/-- Balanced tokens are cut into units in one way, and the count is how many these are. Counts add
up, if the tokens behind do not begin with a group. -/
theorem countUnits_of_balanced {ts : List Token} (h : Balanced ts) :
    (∃ units, Decomposes ts units ∧ (∀ other, Decomposes ts other → other = units) ∧
      countUnits ts = units.length) ∧
    ∀ us, Balanced us → (∀ t ∈ us.head?, t.kind ≠ .openGroup) →
      countUnits (ts ++ us) = countUnits ts + countUnits us := by
  obtain ⟨units, hunits⟩ := exists_decomposes h
  refine ⟨⟨units, hunits, fun other hother => hother.unique hunits, hunits.countUnits_eq⟩, ?_⟩
  intro us hus hhead
  obtain ⟨units', hunits'⟩ := exists_decomposes hus
  calc countUnits (ts ++ us)
      = (units ++ units').length := (hunits.append hunits' hhead).countUnits_eq
    _ = units.length + units'.length := List.length_append
    _ = countUnits ts + countUnits us := by rw [hunits.countUnits_eq, hunits'.countUnits_eq]

/-- A command takes two groups, one of which has a mark with a group in it. A letter takes none. -/
theorem countUnits_of_balanced_marks :
    let ts := scan "\\hat\x7ba_\x7bb\x7d\x7d\x7bc\x7dx\x7bd\x7d"
    let us := scan "_\x7by\x7d\x7bz\x7dw"
    Balanced ts ∧ Balanced us ∧ (∀ t ∈ us.head?, t.kind ≠ .openGroup) ∧
      (∃ units, Decomposes ts units ∧ (∀ other, Decomposes ts other → other = units) ∧
        units.length = 3) ∧
      countUnits (ts ++ us) = 3 + 2 := by
  intro ts us
  have hts : Balanced ts := by decide +kernel
  have hus : Balanced us := by decide +kernel
  have hhead : ∀ t ∈ us.head?, t.kind ≠ .openGroup := by decide +kernel
  have hfirst : countUnits ts = 3 := by decide +kernel
  have hsecond : countUnits us = 2 := by decide +kernel
  obtain ⟨⟨units, hunits, hunique, hcount⟩, hsum⟩ := countUnits_of_balanced hts
  rw [hfirst] at hcount hsum
  refine ⟨hts, hus, hhead, ⟨units, hunits, hunique, hcount.symm⟩, ?_⟩
  rw [hsum us hus hhead, hsecond]

end MathMarkup.Token
