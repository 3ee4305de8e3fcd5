import MathMarkup.Proofs.Lookup
import MathMarkup.Proofs.Numerals

/-!
# Digits in groups

Digits are written in groups of one size. Only the group that is farthest from the point may be
shorter: the first one if the groups are counted from the right, the last one from the left
(`SplitsEvenly`).

`groupDigits` takes the groups off the digits one by one, where nothing can go wrong. The same text
can be written in place, with two positions in bytes between which the next group stands.
`writeInPlace?` does so, and it gives nothing if a position is outside of the text or inside of a
character, if a group would be empty, or if a sum is too large for a machine word. On digits none of
this happens, whatever the size of the groups, as long as a text fills at most half of what a word
can count, and what is written are the same groups (`groupDigits_evenly`).
-/

namespace MathMarkup.Numeral

/-! ## Groups of one size -/

/-- The digits in groups of a size, except for the one that is farthest from the point. -/
structure SplitsEvenly (size : Nat) (fromLeft : Bool) (ds : List Char)
    (groups : List (List Char)) : Prop where
  flatten : groups.flatten = ds
  /-- No size, or a size that is not smaller than the length, leaves the digits together. -/
  single : size = 0 ∨ ds.length ≤ size → groups = [ds]
  full : 0 < size → size < ds.length →
    ∀ g ∈ if fromLeft then groups.dropLast else groups.tail, g.length = size
  outermost : 0 < size → size < ds.length →
    ∀ g ∈ if fromLeft then groups.getLast? else groups.head?, 1 ≤ g.length ∧ g.length ≤ size

theorem chunks_ne_nil (size : Nat) (ds : List Char) : chunks size ds ≠ [] := by
  unfold chunks
  split <;> exact List.cons_ne_nil _ _

theorem chunks_of_short {size : Nat} {ds : List Char} (h : size = 0 ∨ ds.length ≤ size) :
    chunks size ds = [ds] := by
  unfold chunks
  exact dif_pos h

theorem chunks_of_long {size : Nat} {ds : List Char} (h : ¬(size = 0 ∨ ds.length ≤ size)) :
    chunks size ds = ds.take size :: chunks size (ds.drop size) := by
  conv_lhs => unfold chunks
  exact dif_neg h

/-- All chunks but the last are of the size. -/
theorem length_of_mem_dropLast_chunks {size : Nat} {ds : List Char} :
    ∀ g ∈ (chunks size ds).dropLast, g.length = size := by
  fun_induction chunks size ds with
  | case1 ds hshort =>
    intro g hg
    cases hg
  | case2 ds hlong ih =>
    intro g hg
    rw [List.dropLast_cons_of_ne_nil (chunks_ne_nil size _)] at hg
    rcases List.mem_cons.1 hg with rfl | hg
    · rw [List.length_take]
      omega
    · exact ih g hg

/-- The last chunk is not empty and no longer than the size. -/
theorem length_of_mem_getLast?_chunks {size : Nat} {ds : List Char} (hsize : 0 < size)
    (hds : ds ≠ []) : ∀ g ∈ (chunks size ds).getLast?, 1 ≤ g.length ∧ g.length ≤ size := by
  fun_induction chunks size ds with
  | case1 ds hshort =>
    intro g hg
    have heq : ds = g := Option.some.inj hg
    have := List.length_pos_iff.2 hds
    rw [← heq]
    omega
  | case2 ds hlong ih =>
    intro g hg
    obtain ⟨c, cs, hcons⟩ := List.exists_cons_of_ne_nil (chunks_ne_nil size (ds.drop size))
    rw [hcons, List.getLast?_cons_cons, ← hcons] at hg
    refine ih ?_ g hg
    rw [Ne, List.drop_eq_nil_iff]
    omega

/-- Nothing is left over if the size divides the number of digits. -/
theorem length_of_mem_chunks {size : Nat} {ds : List Char} (hsize : 0 < size) (hds : ds ≠ [])
    (hdvd : size ∣ ds.length) : ∀ g ∈ chunks size ds, g.length = size := by
  fun_induction chunks size ds with
  | case1 ds hshort =>
    intro g hg
    rw [List.mem_singleton.1 hg]
    have := Nat.le_of_dvd (List.length_pos_iff.2 hds) hdvd
    omega
  | case2 ds hlong ih =>
    intro g hg
    rcases List.mem_cons.1 hg with rfl | hg
    · rw [List.length_take]
      omega
    · refine ih ?_ ?_ g hg
      · rw [Ne, List.drop_eq_nil_iff]
        omega
      · rw [List.length_drop]
        exact Nat.dvd_sub hdvd (Nat.dvd_refl size)

/-- How many digits stand before the first separator, counted from the right. -/
def leading (size length : Nat) : Nat :=
  if length % size = 0 then size else length % size

/-- Counted from the right, the chunk in front is not empty and no longer than the size. -/
theorem leading_bounds {size : Nat} (hsize : 0 < size) (length : Nat) :
    1 ≤ leading size length ∧ leading size length ≤ size := by
  have hlt := Nat.mod_lt length hsize
  unfold leading
  split <;> omega

/-- The digits after the leading ones fill whole groups. -/
theorem dvd_sub_leading (size length : Nat) : size ∣ length - leading size length := by
  unfold leading
  split
  next hmod =>
    exact Nat.dvd_sub (Nat.dvd_of_mod_eq_zero hmod) (Nat.dvd_refl size)
  next => exact Nat.dvd_sub_mod length

theorem chunksFromRight_of_short {size : Nat} {ds : List Char} (h : size = 0 ∨ ds.length ≤ size) :
    chunksFromRight size ds = [ds] := by
  unfold chunksFromRight
  exact if_pos h

theorem chunksFromRight_of_long {size : Nat} {ds : List Char} (hsize : 0 < size)
    (hlt : size < ds.length) :
    chunksFromRight size ds =
      ds.take (leading size ds.length) :: chunks size (ds.drop (leading size ds.length)) := by
  unfold chunksFromRight
  exact if_neg (by omega)

/-- Counted from the left, only the last group may be shorter. -/
theorem splitsEvenly_chunks (size : Nat) (ds : List Char) :
    SplitsEvenly size true ds (chunks size ds) where
  flatten := by
    by_cases h : ds = []
    · subst h
      rw [chunks_of_short (Or.inr (Nat.zero_le size))]
      rfl
    · exact (grouped_chunks h).flatten
  single := chunks_of_short
  full _ _ := length_of_mem_dropLast_chunks
  outermost hsize hlt := length_of_mem_getLast?_chunks hsize (by rintro rfl; cases hlt)

/-- Counted from the right, only the first group may be shorter. -/
theorem splitsEvenly_chunksFromRight (size : Nat) (ds : List Char) :
    SplitsEvenly size false ds (chunksFromRight size ds) where
  flatten := by
    by_cases h : ds = []
    · subst h
      rw [chunksFromRight_of_short (Or.inr (Nat.zero_le size))]
      rfl
    · exact (grouped_chunksFromRight h).flatten
  single := chunksFromRight_of_short
  full hsize hlt := by
    -- the leading group takes what the others leave over, so the rest is a multiple of the size
    have hbounds := leading_bounds hsize ds.length
    intro g hg
    rw [chunksFromRight_of_long hsize hlt] at hg
    refine length_of_mem_chunks hsize ?_ ?_ g hg
    · rw [Ne, List.drop_eq_nil_iff]
      omega
    · rw [List.length_drop]
      exact dvd_sub_leading size ds.length
  outermost hsize hlt := by
    have hbounds := leading_bounds hsize ds.length
    intro g hg
    rw [chunksFromRight_of_long hsize hlt] at hg
    obtain rfl := Option.some.inj hg
    rw [List.length_take]
    omega

/-! ## Writing in place -/

/-- The characters before a position in bytes and those from it on, if the position is where a
character begins or where the text ends. -/
def splitAtByte? : Nat → List Char → Option (List Char × List Char)
  | 0, cs => some ([], cs)
  | _ + 1, [] => none
  | n + 1, c :: cs =>
    if c.utf8Size ≤ n + 1 then
      (splitAtByte? (n + 1 - c.utf8Size) cs).map fun r => (c :: r.1, r.2)
    else none

/-- The characters from one position in bytes up to another. -/
def slice? (cs : List Char) (start stop : Nat) : Option (List Char) :=
  if start ≤ stop then do
    let (_, after) ← splitAtByte? start cs
    let (piece, _) ← splitAtByte? (stop - start) after
    some piece
  else none

/-- A number, if it is one of the `words` numbers that a machine word can hold. -/
def inWord? (words n : Nat) : Option Nat :=
  if n < words then some n else none

/-- Writes the groups from the position `start` on, behind what is written so far. The next group
stops at `stop`, and it must not be empty, or the writing might not come to an end. -/
def writeFrom? (words size : Nat) (separator : String) (ds : List Char) (start stop : Nat)
    (written : String) : Option String :=
  if _hstart : start < (String.ofList ds).utf8ByteSize then
    if _hstop : start < stop then do
      let group ← slice? ds start stop
      let next ← inWord? words (stop + size)
      writeFrom? words size separator ds stop (min next (String.ofList ds).utf8ByteSize)
        ((if 0 < start then written ++ separator else written) ++ String.ofList group)
    else none
  else some written
termination_by (String.ofList ds).utf8ByteSize - start

/-- Writes digits in groups, with room for twice their number reserved beforehand. -/
def writeInPlace? (words : Nat) (ds : List Char) (format : NumberFormat) (fromLeft : Bool) :
    Option String :=
  let length := (String.ofList ds).utf8ByteSize
  let size := format.digitGroup
  if size = 0 ∨ length ≤ size then some (String.ofList ds)
  else do
    let _ ← inWord? words (length * 2)
    let first := if fromLeft then size else leading size length
    writeFrom? words size format.groupSeparator ds 0 first ""

section

variable {words size : Nat} {before group rest ds : List Char} (separator written : String)

theorem utf8Size_of_isDigit {c : Char} (h : c.isDigit = true) : c.utf8Size = 1 := by
  rw [Char.isDigit, Bool.and_eq_true, decide_eq_true_iff, decide_eq_true_iff] at h
  have hle : c.val ≤ 127 := UInt32.le_trans h.2 (by decide)
  exact if_pos hle

theorem utf8ByteSize_ofList_digits (h : ∀ c ∈ ds, c.isDigit = true) :
    (String.ofList ds).utf8ByteSize = ds.length := by
  induction ds with
  | nil => rfl
  | cons c ds ih =>
    rw [List.forall_mem_cons] at h
    rw [TriggerMap.utf8ByteSize_ofList_cons, utf8Size_of_isDigit h.1, ih h.2, List.length_cons]
    omega

/-- Digits are bytes, so a cut by bytes is one by characters. -/
theorem splitAtByte?_append (h : ∀ c ∈ before, c.isDigit = true) (rest : List Char) :
    splitAtByte? before.length (before ++ rest) = some (before, rest) := by
  induction before with
  | nil => cases rest <;> rfl
  | cons c before ih =>
    rw [List.forall_mem_cons] at h
    have hsize := utf8Size_of_isDigit h.1
    rw [List.length_cons, List.cons_append, splitAtByte?, if_pos (by omega), hsize,
      Nat.add_sub_cancel, ih h.2]
    rfl

/-- A group of digits is sliced out by its place. -/
theorem slice?_append (hbefore : ∀ c ∈ before, c.isDigit = true)
    (hgroup : ∀ c ∈ group, c.isDigit = true) (rest : List Char) :
    slice? (before ++ (group ++ rest)) before.length (before.length + group.length) =
      some group := by
  unfold slice?
  rw [if_pos (Nat.le_add_right _ _), splitAtByte?_append hbefore, Nat.add_sub_cancel_left]
  show (splitAtByte? group.length (group ++ rest)).bind _ = _
  rw [splitAtByte?_append hgroup]
  rfl

theorem inWord?_of_lt {n : Nat} (h : n < words) : inWord? words n = some n :=
  if_pos h

/-- The first group is written in front of the separator and of the others. -/
theorem intercalate_groups (g : List Char) (size : Nat) (ds : List Char) :
    separator.intercalate ((g :: chunks size ds).map String.ofList) =
      String.ofList g ++ separator ++
        separator.intercalate ((chunks size ds).map String.ofList) := by
  have hne : (chunks size ds).map String.ofList ≠ [] := by
    rw [Ne, List.map_eq_nil_iff]
    exact chunks_ne_nil size ds
  rw [List.map_cons, String.intercalate_cons_of_ne_nil hne]

/-- What a text must be like so that it can be written in place. -/
structure Fits (words size : Nat) (ds : List Char) : Prop where
  digits : ∀ c ∈ ds, c.isDigit = true
  positive : 0 < size
  smaller : size < ds.length
  room : 2 * ds.length < words

/-- One round writes one group and goes on to the position behind it. -/
theorem writeFrom?_group (h : Fits words size (before ++ (group ++ rest))) (hgroup : group ≠ []) :
    writeFrom? words size separator (before ++ (group ++ rest)) before.length
        (before.length + group.length) written =
      writeFrom? words size separator (before ++ (group ++ rest)) (before.length + group.length)
        (min (before.length + group.length + size) (before ++ (group ++ rest)).length)
        ((if 0 < before.length then written ++ separator else written) ++ String.ofList group) := by
  obtain ⟨hdigits, hpositive, hsmaller, hroom⟩ := h
  have hbytes := utf8ByteSize_ofList_digits hdigits
  have hpos := List.length_pos_iff.2 hgroup
  have hlength : (before ++ (group ++ rest)).length =
      before.length + (group.length + rest.length) := by
    rw [List.length_append, List.length_append]
  have hslice : slice? (before ++ (group ++ rest)) before.length (before.length + group.length) =
      some group := by
    refine slice?_append (fun c hc => hdigits c ?_) (fun c hc => hdigits c ?_) rest
    · exact List.mem_append_left _ hc
    · exact List.mem_append_right _ (List.mem_append_left _ hc)
  -- the sum of a position and a size, neither of which is beyond the length
  have hsum : inWord? words (before.length + group.length + size) =
      some (before.length + group.length + size) := inWord?_of_lt (by omega)
  conv_lhs => rw [writeFrom?]
  rw [hbytes, dif_pos (by omega), dif_pos (by omega), hslice, hsum]
  rfl

/-- At the end of the digits, everything is written. -/
theorem writeFrom?_end (h : ∀ c ∈ ds, c.isDigit = true) (stop : Nat) :
    writeFrom? words size separator ds ds.length stop written = some written := by
  rw [writeFrom?, utf8ByteSize_ofList_digits h, dif_neg (Nat.lt_irrefl _)]

/-- From the first separator on, the rest is written in groups from the left. -/
theorem writeFrom?_chunks (before rest : List Char) (h : Fits words size (before ++ rest))
    (hbefore : before ≠ []) (hrest : rest ≠ []) :
    writeFrom? words size separator (before ++ rest) before.length
        (min (before.length + size) (before ++ rest).length) written =
      some (written ++ separator ++
        separator.intercalate ((chunks size rest).map String.ofList)) := by
  induction hn : rest.length using Nat.strongRecOn generalizing before rest written with
  | _ n ih =>
    subst hn
    have hpos := List.length_pos_iff.2 hbefore
    have hpositive := h.positive
    have hstop : min (before.length + size) (before ++ rest).length =
        before.length + (rest.take size).length := by
      rw [List.length_append, List.length_take]
      omega
    have htake : rest.take size ≠ [] := by
      rw [Ne, List.take_eq_nil_iff]
      exact not_or.2 ⟨by omega, hrest⟩
    have hsplit : before ++ rest = before ++ (rest.take size ++ rest.drop size) := by
      rw [List.take_append_drop]
    -- one round writes a separator and a group, and the next one starts behind it
    have hround := writeFrom?_group separator written (hsplit ▸ h) htake
    rw [← hsplit, if_pos hpos] at hround
    rw [hstop, hround]
    by_cases hshort : rest.length ≤ size
    · have hall : rest.take size = rest := List.take_of_length_le hshort
      rw [hall, ← List.length_append, writeFrom?_end _ _ h.digits, chunks_of_short (Or.inr hshort)]
      rw [List.map_singleton, String.intercalate_singleton]
    · have hdrop : rest.drop size ≠ [] := by
        rw [Ne, List.drop_eq_nil_iff]
        exact hshort
      have hassoc : before ++ rest = before ++ rest.take size ++ rest.drop size := by
        rw [List.append_assoc, List.take_append_drop]
      have hless : (rest.drop size).length < rest.length := by
        rw [List.length_drop]
        omega
      have hnext := ih (rest.drop size).length hless
        (written ++ separator ++ String.ofList (rest.take size)) (before ++ rest.take size)
        (rest.drop size) (hassoc ▸ h) (List.append_ne_nil_of_left_ne_nil hbefore _) hdrop rfl
      rw [← hassoc, List.length_append] at hnext
      have hlong : ¬(size = 0 ∨ rest.length ≤ size) := by omega
      rw [hnext, chunks_of_long hlong, intercalate_groups]
      simp only [String.append_assoc]

/-- The first group is written without a separator. -/
theorem writeFrom?_first (h : Fits words size ds) {first : Nat} (hpos : 1 ≤ first)
    (hle : first ≤ size) :
    writeFrom? words size separator ds 0 first "" =
      some (separator.intercalate
        ((ds.take first :: chunks size (ds.drop first)).map String.ofList)) := by
  have hsmaller := h.smaller
  have hlength : (ds.take first).length = first := by
    rw [List.length_take]
    omega
  have htake : ds.take first ≠ [] := by
    rw [← List.length_pos_iff]
    omega
  have hdrop : ds.drop first ≠ [] := by
    rw [Ne, List.drop_eq_nil_iff]
    omega
  have hsplit : ds = ds.take first ++ ds.drop first := (List.take_append_drop first ds).symm
  -- the first round is the only one that may be shorter, and nothing stands before it
  have hround := @writeFrom?_group words size [] _ _ separator "" (hsplit ▸ h) htake
  have hrest := writeFrom?_chunks separator (String.ofList (ds.take first)) _ _ (hsplit ▸ h) htake
    hdrop
  rw [← hsplit, hlength] at hrest
  rw [List.nil_append, ← hsplit, List.length_nil, Nat.zero_add, hlength, if_neg (Nat.lt_irrefl 0),
    String.empty_append, hrest] at hround
  rw [hround, intercalate_groups]

/-- Digits can be written in place, if a text fills at most half of what a word can count. -/
theorem writeInPlace?_eq (h : ∀ c ∈ ds, c.isDigit = true) (hroom : 2 * ds.length < words)
    (format : NumberFormat) (fromLeft : Bool) :
    writeInPlace? words ds format fromLeft = some (groupDigits ds format fromLeft) := by
  have hroom' : inWord? words (ds.length * 2) = some (ds.length * 2) := inWord?_of_lt (by omega)
  unfold writeInPlace?
  rw [utf8ByteSize_ofList_digits h]
  dsimp only
  by_cases hshort : format.digitGroup = 0 ∨ ds.length ≤ format.digitGroup
  · have hgroups : (if fromLeft then chunks format.digitGroup ds
        else chunksFromRight format.digitGroup ds) = [ds] := by
      cases fromLeft with
      | true => exact chunks_of_short hshort
      | false => exact chunksFromRight_of_short hshort
    rw [if_pos hshort, groupDigits, hgroups, List.map_singleton, String.intercalate_singleton]
  · have hpos : 0 < format.digitGroup := by omega
    have hlt : format.digitGroup < ds.length := by omega
    -- with room for twice the length, no position and no sum of one and a size overflows
    have hfits : Fits words format.digitGroup ds := ⟨h, hpos, hlt, hroom⟩
    rw [if_neg hshort, hroom']
    show writeFrom? words _ _ ds 0 (if fromLeft then _ else _) "" = _
    cases fromLeft with
    | true =>
      rw [if_pos rfl, writeFrom?_first _ hfits hpos (Nat.le_refl _), groupDigits, if_pos rfl,
        chunks_of_long hshort]
    | false =>
      obtain ⟨hone, hle⟩ := leading_bounds hpos ds.length
      rw [if_neg Bool.false_ne_true, writeFrom?_first _ hfits hone hle, groupDigits,
        if_neg Bool.false_ne_true, chunksFromRight_of_long hpos hlt]

end

/-- Digits are written as even groups with the separator between them, and writing them in place
never fails. -/
theorem groupDigits_evenly {ds : List Char} (h : ∀ c ∈ ds, c.isDigit = true)
    (format : NumberFormat) (fromLeft : Bool) :
    (∃ groups, SplitsEvenly format.digitGroup fromLeft ds groups ∧
      groupDigits ds format fromLeft =
        format.groupSeparator.intercalate (groups.map String.ofList)) ∧
    ∀ words, 2 * ds.length < words →
      writeInPlace? words ds format fromLeft = some (groupDigits ds format fromLeft) := by
  refine ⟨?_, fun words hroom => writeInPlace?_eq h hroom format fromLeft⟩
  cases fromLeft with
  | true => exact ⟨_, splitsEvenly_chunks format.digitGroup ds, rfl⟩
  | false => exact ⟨_, splitsEvenly_chunksFromRight format.digitGroup ds, rfl⟩

/-- One digit more than two groups have makes a group of its own, and it comes first. -/
theorem groupDigits_evenly_seven :
    let ds := "1234567".toList
    (∀ c ∈ ds, c.isDigit = true) ∧
      (∃ groups, SplitsEvenly 3 false ds groups ∧
        "1\\,234\\,567" = "\\,".intercalate (groups.map String.ofList)) ∧
      writeInPlace? UInt64.size ds {} false = some "1\\,234\\,567" := by
  intro ds
  have hall : ds.all Char.isDigit = true := by decide +kernel
  have hdigits : ∀ c ∈ ds, c.isDigit = true := List.all_eq_true.1 hall
  have hgroups : groupDigits ds {} false = "1\\,234\\,567" := by decide +kernel
  obtain ⟨hsplits, hwrites⟩ := groupDigits_evenly hdigits {} false
  rw [hgroups] at hsplits hwrites
  exact ⟨hdigits, hsplits, hwrites UInt64.size (by decide +kernel)⟩

end MathMarkup.Numeral
