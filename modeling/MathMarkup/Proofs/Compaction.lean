import Mathlib.Data.List.Dedup
import Mathlib.Data.List.Sublists
import MathMarkup.Proofs.TriggerMaps

/-!
# Dropping shadowed entries in place

Of neighbours with equal keys `dropShadowed` keeps the last. `compact?` does this in place. It goes
through an array once and puts each entry where it belongs by an exchange: in the place of the entry
that was kept last if the keys are equal, and behind it if they are not. What stood in that place is
exchanged for it, so the entries that are shadowed travel along, and in the end they are cut off.

Between two rounds the array has three regions (`Compacts`): the entries that are kept, those that
are shadowed, and those that are still to be read. From this it follows that no index is ever out of
range, for any entries at all, and that the entries that are kept are those of `dropShadowed`
(`compact?_toArray`). If equal keys are next to each other (`KeysAdjacent`), as they are in a sorted
list, then each key is left once, in the order of the keys and with its last value
(`compact?_of_keysAdjacent`).
-/

namespace MathMarkup.TriggerMap

variable {κ α : Type}

/-! ## In place -/

/-- A number less another one that is not larger. -/
def minus? (a b : Nat) : Option Nat :=
  if b ≤ a then some (a - b) else none

/-- Exchanges what stands at two places of an array. -/
def swap? (entries : Array (κ × α)) (i j : Nat) : Option (Array (κ × α)) :=
  if h : i < entries.size ∧ j < entries.size then some (entries.swap i j h.1 h.2) else none

/-- How far some entries are compacted. -/
structure Compaction (κ α : Type) where
  entries : Array (κ × α)
  /-- The key of the entry that was kept last. -/
  last : κ
  /-- How many of the entries are shadowed so far. -/
  shadowed : Nat

/-- Puts the entry at an index where it belongs. -/
def compactStep? [DecidableEq κ] (c : Compaction κ α) (index : Nat) :
    Option (Compaction κ α) := do
  let entry ← c.entries[index]?
  let shadowed := if entry.1 = c.last then c.shadowed + 1 else c.shadowed
  let place ← minus? index shadowed
  let entries ← swap? c.entries place index
  let kept ← entries[place]?
  some ⟨entries, kept.1, shadowed⟩

/-- Keeps of neighbours with equal keys the last. There is no result if an index is out of range. -/
def compact? [DecidableEq κ] (entries : Array (κ × α)) : Option (Array (κ × α)) :=
  match entries[0]? with
  | none => some entries
  | some first => do
    let c ← (List.range' 1 (entries.size - 1)).foldlM compactStep? ⟨entries, first.1, 0⟩
    let size ← minus? c.entries.size c.shadowed
    some (c.entries.shrink size)

/-! ## Exchanges -/

section Exchanges

variable {entries : Array (κ × α)} {before between after : List (κ × α)} {d e : κ × α}

theorem minus?_add (a b : Nat) : minus? (a + b) b = some a := by
  rw [minus?, if_pos (Nat.le_add_left b a), Nat.add_sub_cancel]

theorem getElem?_of_toList (h : entries.toList = before ++ e :: after) :
    entries[before.length]? = some e := by
  rw [← Array.getElem?_toList, h, List.getElem?_append_right (Nat.le_refl _), Nat.sub_self]
  rfl

theorem lt_size_of_toList (h : entries.toList = before ++ e :: after) :
    before.length < entries.size := by
  rw [← Array.length_toList, h, List.length_append, List.length_cons]
  omega

/-- An entry trades places with one behind it. -/
theorem swap?_of_toList (h : entries.toList = before ++ d :: (between ++ e :: after)) :
    ∃ swapped, swap? entries before.length (before.length + between.length + 1) = some swapped ∧
      swapped.toList = before ++ e :: (between ++ d :: after) := by
  have hd := lt_size_of_toList h
  -- the list once around each of the two entries, so that each index is the length of a prefix
  have hassoc : entries.toList = (before ++ d :: between) ++ e :: after := by
    rw [h, List.append_assoc, List.cons_append]
  have hplace : (before ++ d :: between).length = before.length + between.length + 1 := by
    rw [List.length_append, List.length_cons]
    omega
  have he := lt_size_of_toList hassoc
  have hgetd := getElem?_of_toList h
  have hgete := getElem?_of_toList hassoc
  rw [hplace] at he hgete
  refine ⟨_, dif_pos ⟨hd, he⟩, ?_⟩
  rw [Array.getElem?_eq_getElem hd, Option.some_inj] at hgetd
  rw [Array.getElem?_eq_getElem he, Option.some_inj] at hgete
  rw [Array.toList_swap, hgetd, hgete, h]
  rw [List.set_append_right _ _ (Nat.le_refl _), Nat.sub_self, List.set_cons_zero,
    List.set_append_right _ _ (by omega)]
  have hwithin : before.length + between.length + 1 - before.length = between.length + 1 := by omega
  rw [hwithin, List.set_cons_succ, List.set_append_right _ _ (Nat.le_refl _), Nat.sub_self,
    List.set_cons_zero]

theorem swap?_self (h : entries.toList = before ++ e :: after) :
    swap? entries before.length before.length = some entries := by
  have hlt := lt_size_of_toList h
  rw [swap?, dif_pos ⟨hlt, hlt⟩, Option.some_inj]
  refine Array.ext' ?_
  rw [Array.toList_swap, List.set_set, ← Array.getElem_toList, List.set_getElem_self]

/-- An entry trades places with the first of those in front of it, if there are any. -/
theorem swap?_first (h : entries.toList = before ++ (between ++ e :: after)) :
    ∃ swapped displaced, swap? entries before.length (before.length + between.length) =
        some swapped ∧ displaced.length = between.length ∧
      swapped.toList = before ++ e :: (displaced ++ after) := by
  cases between with
  | nil => exact ⟨entries, [], swap?_self h, rfl, h⟩
  | cons d between =>
    obtain ⟨swapped, hswap, htoList⟩ := swap?_of_toList h
    refine ⟨swapped, between ++ [d], hswap, ?_, ?_⟩
    · rw [List.length_append, List.length_singleton, List.length_cons]
    · rw [htoList, List.append_assoc, List.singleton_append]

end Exchanges

/-! ## Rounds -/

section Rounds

variable [DecidableEq κ] {read unread : List (κ × α)} {c : Compaction κ α}

theorem dropShadowed_ne_nil {entries : List (κ × α)} (h : entries ≠ []) :
    dropShadowed entries ≠ [] := by
  fun_induction dropShadowed entries with
  | case1 a b rest heq ih => exact ih (List.cons_ne_nil b rest)
  | case2 a b rest hne ih => exact List.cons_ne_nil a _
  | case3 => exact h

/-- One more entry takes the place of the last one that is kept, or the place behind it. -/
theorem dropShadowed_concat (entries : List (κ × α)) (e : κ × α) :
    dropShadowed (entries ++ [e]) =
      (if (dropShadowed entries).getLast?.map Prod.fst = some e.1 then
        (dropShadowed entries).dropLast else dropShadowed entries) ++ [e] := by
  -- along the recursion, as it is the last entry that changes and not the first one
  fun_induction dropShadowed entries with
  | case1 a b rest heq ih =>
    rw [← ih]
    show dropShadowed (a :: b :: (rest ++ [e])) = _
    rw [dropShadowed, if_pos heq]
    rfl
  | case2 a b rest hne ih =>
    have hnil := dropShadowed_ne_nil (List.cons_ne_nil b rest)
    rw [List.getLast?_cons_of_ne_nil hnil, List.dropLast_cons_of_ne_nil hnil]
    show dropShadowed (a :: b :: (rest ++ [e])) = _
    rw [dropShadowed, if_neg hne]
    show a :: dropShadowed (b :: rest ++ [e]) = _
    rw [ih]
    split <;> rfl
  | case3 rest hshort =>
    obtain _ | ⟨a, _ | ⟨b, rest⟩⟩ := rest
    · rfl
    · show (if a.1 = e.1 then [e] else [a, e]) = (if some a.1 = some e.1 then [] else [a]) ++ [e]
      by_cases hkey : a.1 = e.1
      · rw [if_pos hkey, if_pos (congrArg some hkey), List.nil_append]
      · rw [if_neg hkey, if_neg (mt Option.some.inj hkey), List.singleton_append]
    · exact absurd rfl (hshort a b rest)

/-- The three regions of an array between two rounds: what is kept, what is shadowed and what is
still to be read. -/
structure Compacts (read unread : List (κ × α)) (c : Compaction κ α) : Prop where
  regions : ∃ displaced, displaced.length = c.shadowed ∧
    c.entries.toList = dropShadowed read ++ (displaced ++ unread)
  length : (dropShadowed read).length + c.shadowed = read.length
  last : (dropShadowed read).getLast?.map Prod.fst = some c.last

theorem compacts_first (first : κ × α) (rest : List (κ × α)) :
    Compacts [first] rest ⟨(first :: rest).toArray, first.1, 0⟩ where
  regions := ⟨[], rfl, rfl⟩
  length := rfl
  last := rfl

/-- A round is an exchange that brings the next entry behind the ones that stay. -/
theorem compacts_of_swap {e : κ × α} {kept displaced : List (κ × α)} {swapped : Array (κ × α)}
    (hentry : c.entries[read.length]? = some e)
    (hshadowed : (if e.1 = c.last then c.shadowed + 1 else c.shadowed) = displaced.length)
    (hplace : kept.length + displaced.length = read.length)
    (hswap : swap? c.entries kept.length read.length = some swapped)
    (htoList : swapped.toList = kept ++ e :: (displaced ++ unread))
    (hconcat : dropShadowed (read ++ [e]) = kept ++ [e]) :
    ∃ next, compactStep? c read.length = some next ∧ Compacts (read ++ [e]) unread next := by
  refine ⟨⟨swapped, e.1, displaced.length⟩, ?_, ⟨displaced, rfl, ?_⟩, ?_, ?_⟩
  · -- nothing underflows, as there are no more shadowed entries than entries that were read
    have hminus : minus? read.length displaced.length = some kept.length := by
      rw [← hplace]
      exact minus?_add _ _
    unfold compactStep?
    rw [hentry]
    show (minus? read.length (if e.1 = c.last then _ else _)).bind _ = _
    rw [hshadowed, hminus]
    show (swap? c.entries kept.length read.length).bind _ = _
    rw [hswap]
    show (swapped[kept.length]?).bind _ = _
    rw [getElem?_of_toList htoList]
    rfl
  · rw [hconcat, htoList, List.append_assoc, List.singleton_append]
  · rw [hconcat, List.length_append, List.length_append, List.length_singleton, ← hplace]
    show kept.length + 1 + displaced.length = _
    omega
  · rw [hconcat, List.getLast?_concat]
    rfl

/-- A round keeps the regions apart, and it stays within the array. -/
theorem Compacts.step {e : κ × α} (h : Compacts read (e :: unread) c) :
    ∃ next, compactStep? c read.length = some next ∧ Compacts (read ++ [e]) unread next := by
  obtain ⟨⟨displaced, hlength, hregions⟩, hshadowed, hlast⟩ := h
  have hentry : c.entries[read.length]? = some e := by
    rw [← List.append_assoc] at hregions
    rw [← hshadowed, ← hlength, ← List.length_append]
    exact getElem?_of_toList hregions
  have hconcat := dropShadowed_concat read e
  by_cases hkey : e.1 = c.last
  · -- the entry takes the place of the last one that is kept, which is shadowed from now on
    obtain ⟨kept, d, hkept⟩ : ∃ kept d, dropShadowed read = kept ++ [d] := by
      rcases List.eq_nil_or_concat (dropShadowed read) with hnil | ⟨kept, d, hkept⟩
      · rw [hnil] at hlast
        cases hlast
      · exact ⟨kept, d, hkept.trans (List.concat_eq_append ..)⟩
    rw [if_pos (by rw [hlast, hkey]), hkept, List.dropLast_concat] at hconcat
    rw [hkept, List.length_append, List.length_singleton] at hshadowed
    rw [hkept, List.append_assoc, List.singleton_append] at hregions
    obtain ⟨swapped, hswap, htoList⟩ := swap?_of_toList hregions
    have hlength' : (displaced ++ [d]).length = c.shadowed + 1 := by
      rw [List.length_append, List.length_singleton, hlength]
    have hplace : kept.length + displaced.length + 1 = read.length := by omega
    have htoList' : swapped.toList = kept ++ e :: ((displaced ++ [d]) ++ unread) := by
      rw [htoList, List.append_assoc, List.singleton_append]
    rw [hplace] at hswap
    refine compacts_of_swap hentry ?_ ?_ hswap htoList' hconcat
    · rw [if_pos hkey, hlength']
    · rw [hlength']
      omega
  · -- the entry takes the place of the first one that is shadowed, if there are any
    rw [if_neg (by rw [hlast, Option.some_inj]; exact Ne.symm hkey)] at hconcat
    obtain ⟨swapped, displaced', hswap, hlength', htoList⟩ := swap?_first hregions
    rw [hlength] at hlength'
    rw [hlength, hshadowed] at hswap
    refine compacts_of_swap hentry ?_ ?_ hswap htoList hconcat
    · rw [if_neg hkey, hlength']
    · rw [hlength', hshadowed]

/-- All that is left to be read is read. -/
theorem Compacts.run (h : Compacts read unread c) :
    ∃ done, (List.range' read.length unread.length).foldlM compactStep? c = some done ∧
      Compacts (read ++ unread) [] done := by
  induction unread generalizing read c with
  | nil =>
    refine ⟨c, rfl, ?_⟩
    rw [List.append_nil]
    exact h
  | cons e unread ih =>
    obtain ⟨next, hstep, hnext⟩ := h.step
    obtain ⟨done, hrun, hdone⟩ := ih hnext
    rw [List.length_append, List.length_singleton] at hrun
    rw [List.append_assoc, List.singleton_append] at hdone
    refine ⟨done, ?_, hdone⟩
    rw [List.length_cons, List.range'_succ, List.foldlM_cons, hstep]
    exact hrun

/-- Whatever the entries are, no index is out of range, and the right entries are kept. -/
theorem compact?_toArray (entries : List (κ × α)) :
    compact? entries.toArray = some (dropShadowed entries).toArray := by
  cases entries with
  | nil => rfl
  | cons first rest =>
    obtain ⟨done, hrun, ⟨displaced, hlength, hregions⟩, -, -⟩ := (compacts_first first rest).run
    rw [List.length_singleton] at hrun
    rw [List.append_nil] at hregions
    -- the shadowed entries are at the end now, and what is left is cut off there
    have hsize : minus? done.entries.size done.shadowed =
        some (dropShadowed (first :: rest)).length := by
      rw [← Array.length_toList, hregions, List.length_append, hlength]
      exact minus?_add _ _
    have hfirst : (first :: rest).toArray[0]? = some first := rfl
    unfold compact?
    rw [hfirst]
    show ((List.range' 1 rest.length).foldlM compactStep? _).bind _ = _
    rw [hrun]
    show (minus? done.entries.size done.shadowed).bind _ = _
    rw [hsize]
    refine congrArg some (Array.ext' ?_)
    rw [Array.toList_shrink, hregions]
    exact List.take_left

end Rounds

/-! ## Adjacent keys -/

/-- Whatever stands between two entries with equal keys has that key too. -/
def KeysAdjacent (entries : List (κ × α)) : Prop :=
  ∀ a e b, [a, e, b].Sublist entries → a.1 = b.1 → e.1 = a.1

instance [DecidableEq κ] (entries : List (κ × α)) : Decidable (KeysAdjacent entries) :=
  decidable_of_iff (∀ s ∈ entries.sublistsLen 3, ∀ a ∈ s[0]?, ∀ e ∈ s[1]?, ∀ b ∈ s[2]?,
    a.1 = b.1 → e.1 = a.1) (by
      constructor
      · intro h a e b hs
        exact h [a, e, b] (List.mem_sublistsLen.2 ⟨hs, rfl⟩) a rfl e rfl b rfl
      · intro h s hs a ha e he b hb
        obtain ⟨hsub, hlength⟩ := List.mem_sublistsLen.1 hs
        match s, hlength with
        | [a', e', b'], _ =>
          obtain rfl := Option.some.inj ha
          obtain rfl := Option.some.inj he
          obtain rfl := Option.some.inj hb
          exact h _ _ _ hsub)

theorem KeysAdjacent.of_cons {e : κ × α} {entries : List (κ × α)}
    (h : KeysAdjacent (e :: entries)) : KeysAdjacent entries :=
  fun a d b hs => h a d b (hs.cons e)

/-- Entries in the order of a trigger map have equal keys next to each other. -/
theorem keysAdjacent_of_sorted {entries : List (List String × α)}
    (h : entries.Pairwise fun a b => comesBefore a b = true) : KeysAdjacent entries := by
  intro a e b hs hkey
  obtain ⟨ha, hrest⟩ := List.pairwise_cons.1 (h.sublist hs)
  have hae := ha e List.mem_cons_self
  have heb := (List.pairwise_cons.1 hrest).1 b List.mem_cons_self
  refine comesBefore_antisymm ?_ hae
  rw [comesBefore_iff] at heb ⊢
  rw [hkey]
  exact heb

variable [DecidableEq κ]

/-- Each key is left once, and the keys stay in their order. -/
theorem map_fst_dropShadowed {entries : List (κ × α)} (h : KeysAdjacent entries) :
    (dropShadowed entries).map Prod.fst = (entries.map Prod.fst).dedup := by
  fun_induction dropShadowed entries with
  | case1 a b rest heq ih =>
    have hmem : a.1 ∈ (b :: rest).map Prod.fst := by
      rw [heq]
      exact List.mem_cons_self
    -- the key comes once more, so its first occurrence is the one that `dedup` drops
    rw [ih h.of_cons]
    exact (List.dedup_cons_of_mem hmem).symm
  | case2 a b rest hne ih =>
    have hmem : a.1 ∉ (b :: rest).map Prod.fst := by
      intro hmem
      obtain ⟨c, hc, hkey⟩ := List.mem_map.1 hmem
      rcases List.mem_cons.1 hc with rfl | hc
      · exact hne hkey.symm
      · -- the neighbour stands between two entries with equal keys
        have hsub : [a, b, c].Sublist (a :: b :: rest) :=
          ((List.singleton_sublist.2 hc).cons_cons b).cons_cons a
        exact hne (h a b c hsub hkey.symm).symm
    rw [List.map_cons, ih h.of_cons]
    exact (List.dedup_cons_of_notMem hmem).symm
  | case3 rest hshort =>
    obtain _ | ⟨a, _ | ⟨b, rest⟩⟩ := rest
    · rfl
    · rfl
    · exact absurd rfl (hshort a b rest)

/-- If equal keys are next to each other, then what is left of the entries has each key once, in the
order of the keys, with its last value. No index is out of range on the way. -/
theorem compact?_of_keysAdjacent {entries : Array (κ × α)} (h : KeysAdjacent entries.toList) :
    ∃ kept, compact? entries = some kept ∧ kept.toList = dropShadowed entries.toList ∧
      kept.toList.map Prod.fst = (entries.toList.map Prod.fst).dedup ∧
      kept.toList.Sublist entries.toList ∧
      ∀ key value, (key, value) ∈ kept ↔ lastValue? entries.toList key = some value := by
  refine ⟨_, compact?_toArray entries.toList, rfl, map_fst_dropShadowed h,
    dropShadowed_sublist _, ?_⟩
  intro key value
  have hdistinct : (dropShadowed entries.toList).Pairwise fun a b => a.1 ≠ b.1 := by
    have hnodup := List.nodup_dedup (entries.toList.map Prod.fst)
    rw [← map_fst_dropShadowed h] at hnodup
    exact List.pairwise_map.1 hnodup
  rw [List.mem_toArray, mem_iff_lastValue? hdistinct, lastValue?_dropShadowed]

/-- Runs of one, two and three entries in turn, of which the last run is the longest. -/
theorem compact?_of_keysAdjacent_runs :
    let entries := #[(["<"], 1), (["a"], 2), (["a"], 3), (["b"], 4), (["b"], 5), (["b"], 6)]
    KeysAdjacent entries.toList ∧
      ∃ kept, compact? entries = some kept ∧ kept.toList = [(["<"], 1), (["a"], 3), (["b"], 6)] ∧
        kept.toList.map Prod.fst = [["<"], ["a"], ["b"]] := by
  intro entries
  have hadjacent : KeysAdjacent entries.toList := by decide +kernel
  have hkept : dropShadowed entries.toList = [(["<"], 1), (["a"], 3), (["b"], 6)] := by
    decide +kernel
  obtain ⟨kept, hcompact, htoList, hkeys, -, -⟩ := compact?_of_keysAdjacent hadjacent
  refine ⟨hadjacent, kept, hcompact, htoList.trans hkept, ?_⟩
  rw [hkeys]
  decide +kernel

/-- The entries of a sorted list are such as can be compacted in place, and this is how its map is
made. -/
theorem LinearMap.compact?_mergeSort (entries : List (List String × α)) :
    KeysAdjacent (entries.mergeSort comesBefore) ∧
      compact? (entries.mergeSort comesBefore).toArray =
        some (LinearMap.ofList entries).entries.toArray :=
  ⟨keysAdjacent_of_sorted (List.pairwise_mergeSort comesBefore_trans comesBefore_total entries),
    compact?_toArray _⟩

end MathMarkup.TriggerMap
