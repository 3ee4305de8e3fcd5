import MathMarkup.Numeral
import MathMarkup.Proofs.Grammar
import MathMarkup.Proofs.Scan

/-!
# Integers as numerals

An integer is written in groups of three digits with thin spaces between them. The lexer makes a
number of each group. The parser drops spacing but keeps a thin space between two numbers, so the
groups are still together when `Parser.digitGroups` reads them, and it joins them again.
-/

namespace MathMarkup

open MathMarkup.Lexer MathMarkup.Parser

namespace Numeral

/-- The digits of a non-negative integer without needless zeros. -/
structure Canonical (ds : List Char) : Prop where
  ne_nil : ds ≠ []
  digits : ∀ c ∈ ds, c.isDigit = true
  lead : ds.head? = some '0' → ds = ['0']

instance (ds : List Char) : Decidable (Canonical ds) :=
  decidable_of_iff (ds ≠ [] ∧ ds.all Char.isDigit = true ∧ (ds.head? = some '0' → ds = ['0']))
    ⟨fun ⟨h₁, h₂, h₃⟩ => ⟨h₁, List.all_eq_true.1 h₂, h₃⟩,
      fun ⟨h₁, h₂, h₃⟩ => ⟨h₁, List.all_eq_true.2 h₂, h₃⟩⟩

/-! ## Groups of digits -/

/-- The digits in groups, none of which is empty. -/
structure Grouped (gs : List (List Char)) (ds : List Char) : Prop where
  flatten : gs.flatten = ds
  ne_nil : gs ≠ []
  group : ∀ g ∈ gs, g ≠ []

/-- The groups of digits are digits. -/
theorem Grouped.digits {gs : List (List Char)} {ds g : List Char} (h : Grouped gs ds)
    (hd : ∀ c ∈ ds, c.isDigit = true) (hg : g ∈ gs) : ∀ c ∈ g, c.isDigit = true := by
  intro c hc
  refine hd c ?_
  rw [← h.flatten]
  exact List.mem_flatten.2 ⟨g, hg, hc⟩

theorem grouped_singleton {ds : List Char} (h : ds ≠ []) : Grouped [ds] ds where
  flatten := List.append_nil ds
  ne_nil := List.cons_ne_nil ds []
  group g hg := by
    rw [List.mem_singleton.1 hg]
    exact h

theorem Grouped.cons {gs : List (List Char)} {ds g : List Char} (h : Grouped gs ds) (hg : g ≠ []) :
    Grouped (g :: gs) (g ++ ds) where
  flatten := by rw [List.flatten_cons, h.flatten]
  ne_nil := List.cons_ne_nil g gs
  group x hx := by
    rcases List.mem_cons.1 hx with rfl | hx
    · exact hg
    · exact h.group x hx

/-- Chunks from the left are groups. -/
theorem grouped_chunks {size : Nat} {ds : List Char} (h : ds ≠ []) :
    Grouped (chunks size ds) ds := by
  fun_induction chunks size ds with
  | case1 ds _ => exact grouped_singleton h
  | case2 ds hsize ih =>
    obtain ⟨hpos, hlt⟩ := not_or.1 hsize
    have hd : ds.drop size ≠ [] := by
      rw [Ne, List.drop_eq_nil_iff]
      exact hlt
    have ht : ds.take size ≠ [] := by
      rw [Ne, List.take_eq_nil_iff]
      exact not_or.2 ⟨hpos, h⟩
    have hc := (ih hd).cons ht
    rw [List.take_append_drop] at hc
    exact hc

/-- Chunks from the right are groups. -/
theorem grouped_chunksFromRight {size : Nat} {ds : List Char} (h : ds ≠ []) :
    Grouped (chunksFromRight size ds) ds := by
  unfold chunksFromRight
  split
  next => exact grouped_singleton h
  next hsize =>
    obtain ⟨hpos, hlt⟩ := not_or.1 hsize
    dsimp only
    -- the first group takes what is left over, but never nothing
    generalize hfirst : (if ds.length % size = 0 then size else ds.length % size) = first
    have hbounds : 0 < first ∧ first < ds.length := by
      have := Nat.mod_lt ds.length (Nat.pos_of_ne_zero hpos)
      split at hfirst <;> omega
    have hd : ds.drop first ≠ [] := by
      rw [Ne, List.drop_eq_nil_iff]
      omega
    have ht : ds.take first ≠ [] := by
      rw [Ne, List.take_eq_nil_iff]
      exact not_or.2 ⟨by omega, h⟩
    have hc := (@grouped_chunks size _ hd).cons ht
    rw [List.take_append_drop] at hc
    exact hc

/-- The groups of an integer as it is written. -/
def groups (ds : List Char) : List (List Char) :=
  chunksFromRight 3 ds

/-- The markup of groups of digits. -/
def groupsMarkup (gs : List (List Char)) : String :=
  thinSpace.intercalate (gs.map String.ofList)

/-! ## Writing -/

theorem isDigit_of_ne {c d : Char} (hc : c.isDigit = true) (hd : d.isDigit = false) : c ≠ d := by
  rintro rfl
  rw [hc] at hd
  exact Bool.noConfusion hd

theorem cut_of_digits {isMark : Char → Bool} {ds : List Char}
    (h : ∀ c ∈ ds, isMark c = false) : cut isMark ds = (ds, none) := by
  have hdrop : ds.dropWhile (!isMark ·) = [] := by
    rw [← List.append_nil ds, List.dropWhile_append_of_pos fun c hc => by rw [h c hc]; rfl]
    rfl
  unfold cut
  rw [hdrop]

/-- A text of digits is read as a whole number. -/
theorem read?_of_digits {ds : List Char} (hne : ds ≠ []) (h : ∀ c ∈ ds, c.isDigit = true) :
    read? (String.ofList ds) = some ⟨false, ds, [], [], []⟩ := by
  obtain ⟨d, rest, rfl⟩ := List.exists_cons_of_ne_nil hne
  have hd := h d List.mem_cons_self
  -- none of the marks that a number may have is a digit
  have hmark : ∀ m : Char, m.isDigit = false → ∀ c ∈ d :: rest, (c == m) = false := by
    intro m hm c hc
    rw [beq_eq_false_iff_ne]
    exact isDigit_of_ne (h c hc) hm
  have hexp : cut (fun c => c == 'e' || c == 'E') (d :: rest) = (d :: rest, none) := by
    refine cut_of_digits fun c hc => ?_
    rw [hmark 'e' rfl c hc, hmark 'E' rfl c hc]
    rfl
  have hpoint : cut (· == '.') (d :: rest) = (d :: rest, none) := cut_of_digits (hmark '.' rfl)
  have hplus : dropLeading '+' (d :: rest) = d :: rest := by
    rw [dropLeading, if_neg (isDigit_of_ne hd rfl)]
  have hsign : ((d :: rest).head? == some '-') = false := hmark '-' rfl d List.mem_cons_self
  have hall : areDigits (d :: rest) = true := List.all_eq_true.2 h
  have hmantissa : readMantissa? false (d :: rest) = some ⟨false, d :: rest, [], [], []⟩ := by
    unfold readMantissa?
    rw [hpoint]
    show (if (areDigits (d :: rest) && areDigits [] && areDigits [] && _) = true then _ else _) = _
    rw [hall]
    rfl
  unfold read?
  rw [String.toList_ofList]
  dsimp only
  rw [hsign, if_neg Bool.false_ne_true, hplus, hexp]
  dsimp only
  rw [hmantissa]
  rfl

/-- There are no zeros to leave out. -/
theorem stripZeros_canonical {ds : List Char} (h : Canonical ds) :
    (if (ds.dropWhile (· == '0')).isEmpty then ['0'] else ds.dropWhile (· == '0')) = ds := by
  obtain ⟨d, rest, rfl⟩ := List.exists_cons_of_ne_nil h.ne_nil
  by_cases hd : d = '0'
  · rw [h.lead (congrArg some hd)]
    rfl
  · rw [List.dropWhile_cons_of_neg (by rw [beq_iff_eq]; exact hd)]
    rfl

/-- A whole number without leading zeros is written in groups. -/
theorem render_canonical {ds : List Char} (h : Canonical ds) :
    render (String.ofList ds) {} = .ok (groupsMarkup (groups ds)) := by
  have hne : ∀ s : String, (s.toList.head?.all fun c => !c.isDigit) = true → String.ofList ds ≠ s := by
    rintro s hs rfl
    obtain ⟨d, rest, rfl⟩ := List.exists_cons_of_ne_nil h.ne_nil
    rw [String.toList_ofList, List.head?_cons, Option.all_some, h.digits d List.mem_cons_self] at hs
    exact Bool.noConfusion hs
  unfold render
  rw [if_neg (hne _ rfl), if_neg (not_or.2 ⟨hne _ rfl, hne _ rfl⟩), if_neg (hne _ rfl),
    read?_of_digits h.ne_nil h.digits]
  show Except.ok ("" ++ groupDigits _ {} false ++ "") = _
  rw [stripZeros_canonical h, String.empty_append, String.append_empty]
  rfl

/-! ## Tokens -/

/-- The token of a group of digits. -/
def groupToken (g : List Char) : Token :=
  ⟨String.ofList g, .number⟩

/-- The token of the space between groups. -/
def thinToken : Token :=
  ⟨thinSpace, .command⟩

/-- The tokens of groups of digits. -/
def groupTokens : List (List Char) → List Token
  | [] => []
  | [g] => [groupToken g]
  | g :: gs => groupToken g :: thinToken :: groupTokens gs

theorem groupTokens_cons (g : List Char) {gs : List (List Char)} (h : gs ≠ []) :
    groupTokens (g :: gs) = groupToken g :: thinToken :: groupTokens gs := by
  obtain ⟨_, _, rfl⟩ := List.exists_cons_of_ne_nil h
  rfl

theorem groupsMarkup_cons (g : List Char) {gs : List (List Char)} (h : gs ≠ []) :
    groupsMarkup (g :: gs) = String.ofList g ++ thinSpace ++ groupsMarkup gs := by
  unfold groupsMarkup
  rw [List.map_cons, String.intercalate_cons_of_ne_nil (by rw [Ne, List.map_eq_nil_iff]; exact h)]

/-- The tokens of groups begin with a group. -/
theorem head?_groupTokens {gs : List (List Char)} (h : gs ≠ []) :
    ∃ g ts, g ∈ gs ∧ groupTokens gs = groupToken g :: ts := by
  obtain ⟨g, rest, rfl⟩ := List.exists_cons_of_ne_nil h
  cases rest with
  | nil => exact ⟨g, [], List.mem_cons_self, rfl⟩
  | cons g' gs => exact ⟨g, _, List.mem_cons_self, rfl⟩

/-- A text that is one number token, unless what follows goes on with it. -/
structure NumberText (g : List Char) : Prop where
  scan : ∀ rest : List Char, (∀ c ∈ rest.head?, c.isDigit = false) → fractionDigits rest = [] →
    scanFrom .math (g ++ rest) = groupToken g :: scanFrom .math rest
  head : ∃ d cs, g = d :: cs ∧ d.isDigit = true

/-- A number is none of the texts that do not begin with a digit. -/
theorem NumberText.not_mem {g : List Char} (h : NumberText g) {texts : List String}
    (ht : (texts.all fun s => s.toList.head?.all fun c => !c.isDigit) = true) :
    String.ofList g ∉ texts := by
  obtain ⟨d, cs, rfl, hd⟩ := h.head
  intro hm
  have := List.all_eq_true.1 ht _ hm
  rw [String.toList_ofList, List.head?_cons, Option.all_some, hd] at this
  exact Bool.noConfusion this

/-- Digits are the text of a number. -/
theorem numberText_digits {g : List Char} (hne : g ≠ []) (h : ∀ c ∈ g, c.isDigit = true) :
    NumberText g where
  scan _ hr hf := scanFrom_digits hne h hr hf
  head := by
    obtain ⟨d, ds, rfl⟩ := List.exists_cons_of_ne_nil hne
    exact ⟨d, ds, rfl, h d List.mem_cons_self⟩

/-- Each group is a token, and so is each space between two. -/
theorem scanFrom_groups {gs : List (List Char)} (hne : gs ≠ []) (h : ∀ g ∈ gs, NumberText g)
    {rest : List Char} (hr : ∀ c ∈ rest.head?, c.isDigit = false) (hf : fractionDigits rest = []) :
    scanFrom .math ((groupsMarkup gs).toList ++ rest) = groupTokens gs ++ scanFrom .math rest := by
  induction gs with
  | nil => exact absurd rfl hne
  | cons g gs ih =>
    have hg := h g List.mem_cons_self
    by_cases hgs : gs = []
    · subst hgs
      show scanFrom .math ((thinSpace.intercalate [String.ofList g]).toList ++ rest) = _
      rw [String.intercalate_singleton, String.toList_ofList]
      exact hg.scan rest hr hf
    · have hi := ih hgs fun x hx => h x (List.mem_cons_of_mem g hx)
      rw [groupTokens_cons g hgs, groupsMarkup_cons g hgs, String.toList_append,
        String.toList_append, String.toList_ofList, List.append_assoc, List.append_assoc,
        hg.scan _ ?_ rfl, scanFrom_thinSpace, hi]
      · rfl
      · intro c hc
        rw [← Option.some.inj hc]
        decide

/-- The parser keeps the spaces, since a number stands on either side of each. -/
theorem kept_groups {gs : List (List Char)} (hne : gs ≠ []) (h : ∀ g ∈ gs, NumberText g)
    (last : Option Token) (rest : List Token) : ∃ last',
      dropSpacing last (groupTokens gs ++ rest) = groupTokens gs ++ dropSpacing last' rest := by
  induction gs generalizing last with
  | nil => exact absurd rfl hne
  | cons g gs ih =>
    have hspacing : String.ofList g ∉ spacing := (h g List.mem_cons_self).not_mem (by decide)
    -- each space has a group on either side, but the last group has none behind it
    by_cases hgs : gs = []
    · subst hgs
      exact kept_of_not_mem hspacing last rest
    · obtain ⟨last', hkept⟩ := ih hgs (fun x hx => h x (List.mem_cons_of_mem g hx))
        (some thinToken)
      obtain ⟨g', ts, -, hts⟩ := head?_groupTokens hgs
      have hthin : dropSpacing (some (groupToken g)) (thinToken :: (groupTokens gs ++ rest)) =
          thinToken :: dropSpacing (some thinToken) (groupTokens gs ++ rest) := by
        rw [dropSpacing, hts]
        rfl
      refine ⟨last', ?_⟩
      rw [groupTokens_cons g hgs]
      show dropSpacing last (groupToken g :: (thinToken :: (groupTokens gs ++ rest))) = _
      rw [dropSpacing, if_neg, hthin, hkept]
      · rfl
      · rw [Bool.and_eq_true, not_and_or, List.contains_iff_mem]
        exact Or.inl hspacing

/-- Groups with thin spaces between them scan to their tokens. -/
theorem scans_numberTexts {gs : List (List Char)} (hne : gs ≠ []) (h : ∀ g ∈ gs, NumberText g) :
    Scans (groupsMarkup gs) (groupTokens gs) :=
  ⟨fun _ hr => scanFrom_groups hne h (fun c hc => (hr c hc).2.1)
    (fractionDigits_of_ne_point fun c hc => (hr c hc).2.2), kept_groups hne h⟩

theorem scans_groups {gs : List (List Char)} (hne : gs ≠ [])
    (h : ∀ g ∈ gs, g ≠ [] ∧ ∀ c ∈ g, c.isDigit = true) :
    Scans (groupsMarkup gs) (groupTokens gs) :=
  scans_numberTexts hne fun g hg => numberText_digits (h g hg).1 (h g hg).2

/-! ## Reading -/

/-- The tokens of groups are read as the groups. -/
theorem digitGroups_groupTokens {gs : List (List Char)} (hne : gs ≠ []) {rest : List Token}
    (hr : ∀ u ∈ rest.head?, u.raw ≠ thinSpace) :
    digitGroups (groupTokens gs ++ rest) = (gs.map String.ofList, (groupTokens gs).length) := by
  induction gs with
  | nil => exact absurd rfl hne
  | cons g gs ih =>
    -- the groups end where no thin space follows
    by_cases hgs : gs = []
    · subst hgs
      cases rest with
      | nil => rfl
      | cons u us =>
        show digitGroups (groupToken g :: u :: us) = _
        rw [digitGroups, if_pos (show (groupToken g).kind = .number from rfl)]
        dsimp only
        rw [if_neg (hr u rfl)]
        rfl
    · rw [groupTokens_cons g hgs]
      show digitGroups (groupToken g :: thinToken :: (groupTokens gs ++ rest)) = _
      rw [digitGroups, if_pos (show (groupToken g).kind = .number from rfl)]
      dsimp only
      rw [if_pos (show thinToken.raw = thinSpace from rfl), ih hgs]
      rfl

/-- Groups in a row are the digits. -/
theorem join_groups (gs : List (List Char)) :
    String.join (gs.map String.ofList) = String.ofList gs.flatten := by
  refine String.toList_inj.1 ?_
  rw [String.toList_join, List.flatMap_map, String.toList_ofList, List.flatten_eq_flatMap]
  exact List.flatMap_congr fun g _ => String.toList_ofList

/-- The groups are read as the number they make up. -/
theorem reads_groups {n : Nat} {gs : List (List Char)} {ds : List Char} (h : Grouped gs ds)
    (hd : ∀ c ∈ ds, c.isDigit = true) {rest : List Token}
    (hr : ∀ u ∈ rest.head?, u.raw ∉ extending) :
    Reading.Reads n numeral (groupTokens gs) (.number (String.ofList ds)) rest := by
  have hgroups := digitGroups_groupTokens h.ne_nil fun u (hu : u ∈ rest.head?) ht =>
    hr u hu (by rw [ht]; decide)
  have hpoint : ∀ c ∈ ds, c ≠ '.' := fun c hc => isDigit_of_ne (hd c hc) rfl
  -- there is no point in the digits, so neither a zero is put in front nor a repeating part looked
  -- for
  have hzero : withLeadingZero (String.join (gs.map String.ofList)) = String.ofList ds := by
    rw [join_groups, h.flatten]
    unfold withLeadingZero
    rw [String.toList_ofList, if_neg]
    rw [beq_iff_eq]
    intro hh
    exact hpoint '.' (List.mem_of_mem_head? hh) rfl
  have hread := reads_numeral (n := n) hgroups ?_
  · rw [hzero] at hread
    exact hread
  · rw [hzero, String.toList_ofList]
    have hcontains : ds.contains '.' = false := by
      rw [← Bool.not_eq_true, List.contains_iff_mem]
      exact fun hm => hpoint '.' hm rfl
    unfold repeatingPart?
    rw [hcontains, if_neg Bool.false_ne_true]
    cases rest with
    | nil => rfl
    | cons u us =>
      dsimp only
      rw [if_neg]
      intro hu
      exact hr u rfl (by rw [hu]; decide)

end Numeral
end MathMarkup
