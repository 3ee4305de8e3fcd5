import Mathlib.Data.List.Induction
import Mathlib.Data.List.Lex
import Mathlib.Data.List.Sort
import Mathlib.Data.String.Basic
import MathMarkup.Proofs.Lookup
import MathMarkup.TriggerMap.Bucket
import MathMarkup.TriggerMap.ByteTrie
import MathMarkup.TriggerMap.Linear

/-!
# One answer from every trigger map

The trigger maps store their entries in four ways: in a sorted list, in hash maps by length, in a
trie over characters, and in a trie over bytes of which only the laws are known. Each of them is
seen here as a finite map from token sequences, where the last entry for a key counts
(`lastValue?`). The keys that begin an input have different lengths, so `beginnings` can list them
by length, and this is what every map answers.

For the sorted list there is more to do: the sort is stable, so the last entry for a key is still
the last of its neighbours, and dropping the others leaves the keys in strict order.
-/

namespace MathMarkup.TriggerMap

variable {κ α : Type}

/-! ## The last value of a key -/

/-- The value that some entries give to a key: the last one counts. -/
def lastValue? [DecidableEq κ] (entries : List (κ × α)) (key : κ) : Option α :=
  (entries.reverse.find? (·.1 = key)).map (·.2)

theorem lastValue?_concat [DecidableEq κ] (entries : List (κ × α)) (e : κ × α) (key : κ) :
    lastValue? (entries ++ [e]) key =
      if key = e.1 then some e.2 else lastValue? entries key := by
  rw [lastValue?, List.reverse_append, List.reverse_singleton, List.singleton_append,
    List.find?_cons]
  by_cases h : key = e.1
  · rw [decide_eq_true h.symm, if_pos h]
    rfl
  · rw [decide_eq_false (Ne.symm h), if_neg h]
    rfl

theorem lastValue?_cons [DecidableEq κ] (e : κ × α) (entries : List (κ × α)) (key : κ) :
    lastValue? (e :: entries) key =
      (lastValue? entries key).or (if key = e.1 then some e.2 else none) := by
  induction entries using List.reverseRecOn with
  | nil => exact lastValue?_concat [] e key
  | append_singleton entries d ih =>
    rw [← List.cons_append, lastValue?_concat, lastValue?_concat, ih]
    split <;> rfl

/-- A map that is built by insertions has the last value of each key. -/
theorem foldl_insert [DecidableEq κ] {M : Type} {insert : M → κ × α → M}
    {get? : M → κ → Option α}
    (h : ∀ m e key, get? (insert m e) key = if key = e.1 then some e.2 else get? m key)
    {m : M} (hm : ∀ key, get? m key = none) (entries : List (κ × α)) (key : κ) :
    get? (entries.foldl insert m) key = lastValue? entries key := by
  induction entries using List.reverseRecOn generalizing key with
  | nil => exact hm key
  | append_singleton entries e ih =>
    rw [List.foldl_append, List.foldl_cons, List.foldl_nil, h, lastValue?_concat, ih]

/-- Written keys have the values of the keys. -/
theorem lastValue?_map [DecidableEq κ] {κ' : Type} [DecidableEq κ'] {f : κ → κ'}
    (hf : Function.Injective f) (entries : List (κ × α)) (key : κ) :
    lastValue? (entries.map fun e => (f e.1, e.2)) (f key) = lastValue? entries key := by
  induction entries with
  | nil => rfl
  | cons e entries ih =>
    rw [List.map_cons, lastValue?_cons, lastValue?_cons, ih]
    simp only [hf.eq_iff]

/-! ## The keys that begin an input -/

/-- The length and value of every key that begins the tokens, longest first. -/
def beginnings (entries : List (List String × α)) (tokens : List String) : List (Nat × α) :=
  ((List.range (tokens.length + 1)).filterMap fun n =>
    (lastValue? entries (tokens.take n)).map (n, ·)).reverse

/-- Beginnings are the keys that begin the tokens, with their last values. -/
theorem mem_beginnings {entries : List (List String × α)} {tokens : List String} {n : Nat}
    {value : α} : (n, value) ∈ beginnings entries tokens ↔
      ∃ key, key <+: tokens ∧ key.length = n ∧ lastValue? entries key = some value := by
  rw [beginnings, List.mem_reverse, List.mem_filterMap]
  constructor
  · rintro ⟨i, hi, hv⟩
    obtain ⟨v, hv', heq⟩ := Option.map_eq_some_iff.1 hv
    obtain ⟨rfl, rfl⟩ := Prod.mk.inj heq
    have hlen := List.length_take_of_le (Nat.le_of_lt_succ (List.mem_range.1 hi))
    exact ⟨_, List.take_prefix i tokens, hlen, hv'⟩
  · rintro ⟨key, hkey, rfl, hv⟩
    refine ⟨key.length, List.mem_range.2 (Nat.lt_succ_of_le hkey.length_le), ?_⟩
    rw [← List.prefix_iff_eq_take.1 hkey, hv]
    rfl

/-- Each length comes once, the longest first. -/
theorem pairwise_beginnings (entries : List (List String × α)) (tokens : List String) :
    (beginnings entries tokens).Pairwise (·.1 > ·.1) :=
  pairwise_byLength _ _

/-- Nothing else lists these keys in this order. -/
theorem eq_beginnings {entries : List (List String × α)} {tokens : List String}
    {found : List (Nat × α)} (hp : found.Pairwise (·.1 > ·.1))
    (hm : ∀ n value, (n, value) ∈ found ↔
      ∃ key, key <+: tokens ∧ key.length = n ∧ lastValue? entries key = some value) :
    found = beginnings entries tokens := by
  have : Std.Antisymm fun a b : Nat × α => a.1 > b.1 :=
    ⟨fun a b h h' => absurd h (Nat.lt_asymm h')⟩
  have : Std.Irrefl fun a b : Nat × α => a.1 > b.1 := ⟨fun a => Nat.lt_irrefl a.1⟩
  refine hp.eq_of_mem_iff (pairwise_beginnings entries tokens) fun p => ?_
  rw [hm, mem_beginnings]

/-! ## The sorted list -/

section Linear

/-- Longer triggers come first, and triggers of one length in their order. -/
theorem comesBefore_iff {a b : List String × α} : comesBefore a b = true ↔
    b.1.length < a.1.length ∨ a.1.length = b.1.length ∧ a.1 ≤ b.1 := by
  unfold comesBefore
  split
  next h =>
    rw [Bool.not_eq_true', decide_eq_false_iff_not]
    exact ⟨fun hlt => Or.inr ⟨h, not_lt.1 hlt⟩, fun hor => not_lt.2
      (hor.resolve_left (by omega)).2⟩
  next h =>
    rw [decide_eq_true_iff]
    exact ⟨Or.inl, fun hor => hor.resolve_right fun hand => h hand.1⟩

theorem comesBefore_total (a b : List String × α) :
    (comesBefore a b || comesBefore b a) = true := by
  rw [Bool.or_eq_true, comesBefore_iff, comesBefore_iff]
  rcases Nat.lt_trichotomy a.1.length b.1.length with h | h | h
  · exact Or.inr (Or.inl h)
  · exact (le_total a.1 b.1).imp (fun hle => Or.inr ⟨h, hle⟩) fun hle => Or.inr ⟨h.symm, hle⟩
  · exact Or.inl (Or.inl h)

/-- The order of a sorted map is transitive. -/
theorem comesBefore_trans (a b c : List String × α) (hab : comesBefore a b = true)
    (hbc : comesBefore b c = true) : comesBefore a c = true := by
  rw [comesBefore_iff] at *
  rcases hab with hab | ⟨hab, hle⟩ <;> rcases hbc with hbc | ⟨hbc, hle'⟩
  · exact Or.inl (by omega)
  · exact Or.inl (by omega)
  · exact Or.inl (by omega)
  · exact Or.inr ⟨hab.trans hbc, le_trans hle hle'⟩

/-- Of two entries that may come in either order the keys are equal. -/
theorem comesBefore_antisymm {a b : List String × α} (hab : comesBefore a b = true)
    (hba : comesBefore b a = true) : a.1 = b.1 := by
  rw [comesBefore_iff] at *
  rcases hab with hab | ⟨hlen, hab⟩ <;> rcases hba with hba | ⟨hlen', hba⟩
  · omega
  · omega
  · omega
  · exact le_antisymm hab hba

/-- Sorting leaves the entries for one key in their order. -/
theorem filter_mergeSort (entries : List (List String × α)) (key : List String) :
    (entries.mergeSort comesBefore).filter (·.1 = key) = entries.filter (·.1 = key) := by
  have hequal : (entries.filter (·.1 = key)).Pairwise fun a b => comesBefore a b = true := by
    refine List.pairwise_of_forall_mem_list fun a ha b hb => ?_
    have ha := of_decide_eq_true (List.mem_filter.1 ha).2
    have hb := of_decide_eq_true (List.mem_filter.1 hb).2
    rw [comesBefore_iff, ha, hb]
    exact Or.inr ⟨rfl, le_refl _⟩
  have hsub := (List.sublist_mergeSort comesBefore_trans comesBefore_total hequal
    List.filter_sublist).filter (·.1 = key)
  simp only [List.filter_filter, Bool.and_self] at hsub
  refine (hsub.eq_of_length ?_).symm
  exact ((List.mergeSort_perm entries comesBefore).filter _).length_eq.symm

/-- What some entries say about a key is settled by the entries for it. -/
theorem lastValue?_filter [DecidableEq κ] (entries : List (κ × α)) (key : κ) :
    lastValue? (entries.filter (·.1 = key)) key = lastValue? entries key := by
  induction entries with
  | nil => rfl
  | cons e entries ih =>
    rw [List.filter_cons, lastValue?_cons]
    by_cases h : e.1 = key
    · rw [if_pos (decide_eq_true h), lastValue?_cons, ih]
    · rw [if_neg (by rw [decide_eq_false h]; exact Bool.false_ne_true), ih,
        if_neg (Ne.symm h), Option.or_none]

/-- A stable sort keeps the last value of each key. -/
theorem lastValue?_mergeSort (entries : List (List String × α)) (key : List String) :
    lastValue? (entries.mergeSort comesBefore) key = lastValue? entries key := by
  rw [← lastValue?_filter, filter_mergeSort, lastValue?_filter]

/-- A neighbour with an equal key hides what is in front of it. -/
theorem lastValue?_dropShadowed [DecidableEq κ] (entries : List (κ × α)) (key : κ) :
    lastValue? (dropShadowed entries) key = lastValue? entries key := by
  fun_induction dropShadowed entries with
  | case1 a b rest h ih =>
    rw [ih, lastValue?_cons a, lastValue?_cons b, h]
    cases lastValue? rest key with
    | some v => rfl
    | none =>
      split <;> rfl
  | case2 a b rest h ih => rw [lastValue?_cons, ih, lastValue?_cons a]
  | case3 => rfl

/-- Dropping shadowed entries adds none. -/
theorem dropShadowed_sublist [DecidableEq κ] (entries : List (κ × α)) :
    (dropShadowed entries).Sublist entries := by
  fun_induction dropShadowed entries with
  | case1 a b rest h ih => exact ih.cons a
  | case2 a b rest h ih => exact ih.cons_cons a
  | case3 => exact List.Sublist.refl _

/-- In a sorted list the keys that are left are all different. -/
theorem pairwise_dropShadowed {entries : List (List String × α)}
    (h : entries.Pairwise fun a b => comesBefore a b = true) :
    (dropShadowed entries).Pairwise fun a b => a.1 ≠ b.1 := by
  fun_induction dropShadowed entries with
  | case1 a b rest heq ih => exact ih (List.pairwise_cons.1 h).2
  | case2 a b rest hne ih =>
    obtain ⟨ha, hrest⟩ := List.pairwise_cons.1 h
    refine List.pairwise_cons.2 ⟨fun c hc heq => hne ?_, ih hrest⟩
    -- the neighbour lies between two equal keys
    have hb := ha b List.mem_cons_self
    have hc := (dropShadowed_sublist (b :: rest)).subset hc
    rcases List.mem_cons.1 hc with rfl | hc
    · exact heq
    · have hbc := (List.pairwise_cons.1 hrest).1 c hc
      refine comesBefore_antisymm hb ?_
      rw [comesBefore_iff] at hbc ⊢
      rw [heq]
      exact hbc
  | case3 rest hshort =>
    match rest, hshort with
    | [], _ => exact List.Pairwise.nil
    | [a], _ => exact List.pairwise_singleton _ _
    | a :: b :: rest, hshort => exact absurd rfl (hshort a b rest)

/-- Where each key comes once, the entries are its values. -/
theorem mem_iff_lastValue? [DecidableEq κ] {entries : List (κ × α)}
    (h : entries.Pairwise fun a b => a.1 ≠ b.1) {key : κ} {value : α} :
    (key, value) ∈ entries ↔ lastValue? entries key = some value := by
  induction entries generalizing value with
  | nil => exact iff_of_false List.not_mem_nil (Option.some_ne_none value).symm
  | cons e entries ih =>
    obtain ⟨he, hrest⟩ := List.pairwise_cons.1 h
    rw [lastValue?_cons, List.mem_cons, ih hrest]
    by_cases hkey : key = e.1
    · have hnone : lastValue? entries key = none := by
        cases hv : lastValue? entries key with
        | none => rfl
        | some v => exact absurd hkey.symm (he _ ((ih hrest).2 hv))
      rw [hnone, if_pos hkey, Option.none_or, Option.some_inj]
      refine ⟨fun hor => ?_, fun hv => Or.inl (Prod.ext hkey hv.symm)⟩
      exact congrArg Prod.snd (hor.resolve_right (Option.some_ne_none value).symm).symm
    · rw [if_neg hkey, Option.or_none]
      exact or_iff_right fun heq => hkey (congrArg Prod.fst heq)

/-- The first of a sorted list of keys is the longest, so nothing is lost where the tokens are cut
to its length. -/
theorem LinearMap.prefixes_eq_filter {m : LinearMap α}
    (h : m.entries.Pairwise fun a b => comesBefore a b = true) (tokens : List String) :
    m.prefixes tokens =
      (m.entries.filter fun e => e.1.isPrefixOf tokens).map fun e => (e.1.length, e.2) := by
  have hlongest : ∀ e ∈ m.entries, e.1.length ≤ m.longest := by
    unfold LinearMap.longest
    cases hentries : m.entries with
    | nil => exact fun e he => absurd he List.not_mem_nil
    | cons first rest =>
      rw [hentries] at h
      refine List.forall_mem_cons.2 ⟨Nat.le_refl _, fun e he => ?_⟩
      exact (comesBefore_iff.1 ((List.pairwise_cons.1 h).1 e he)).elim Nat.le_of_lt
        fun hlen => Nat.le_of_eq hlen.1.symm
  have hfilter : (m.entries.filter fun e => e.1.isPrefixOf (tokens.take m.longest)) =
      m.entries.filter fun e => e.1.isPrefixOf tokens := by
    refine List.filter_congr fun e he => ?_
    rw [Bool.eq_iff_iff, List.isPrefixOf_iff_prefix, List.isPrefixOf_iff_prefix, List.prefix_take_iff]
    exact and_iff_left (hlongest e he)
  rw [LinearMap.prefixes, hfilter]

/-- The sorted list answers with the keys that begin the tokens. -/
theorem LinearMap.prefixes_ofList (entries : List (List String × α)) (tokens : List String) :
    (LinearMap.ofList entries).prefixes tokens = beginnings entries tokens := by
  have hsorted := List.pairwise_mergeSort comesBefore_trans comesBefore_total entries
  have hdistinct := pairwise_dropShadowed hsorted
  have hkept := hsorted.sublist (dropShadowed_sublist _)
  have hvalue : ∀ key, lastValue? (dropShadowed (entries.mergeSort comesBefore)) key =
      lastValue? entries key := fun key => by
    rw [lastValue?_dropShadowed, lastValue?_mergeSort]
  rw [LinearMap.ofList, LinearMap.prefixes_eq_filter hkept]
  -- two keys that begin the same tokens and are equally long are one key
  refine eq_beginnings ?_ fun n value => ?_
  · refine List.pairwise_map.2 (List.Pairwise.imp_of_mem ?_ ((hkept.and hdistinct).filter _))
    intro a b ha hb hab
    have ha := List.isPrefixOf_iff_prefix.1 (List.mem_filter.1 ha).2
    have hb := List.isPrefixOf_iff_prefix.1 (List.mem_filter.1 hb).2
    refine (comesBefore_iff.1 hab.1).resolve_right fun hlen => hab.2 ?_
    exact (List.prefix_of_prefix_length_le ha hb (Nat.le_of_eq hlen.1)).eq_of_length hlen.1
  · rw [List.mem_map]
    constructor
    · rintro ⟨⟨key, v⟩, he, heq⟩
      obtain ⟨rfl, rfl⟩ := Prod.mk.inj heq
      obtain ⟨hmem, hkey⟩ := List.mem_filter.1 he
      exact ⟨key, List.isPrefixOf_iff_prefix.1 hkey, rfl, by
        rw [← hvalue]
        exact (mem_iff_lastValue? hdistinct).1 hmem⟩
    · rintro ⟨key, hkey, rfl, hv⟩
      rw [← hvalue] at hv
      exact ⟨(key, value), List.mem_filter.2 ⟨(mem_iff_lastValue? hdistinct).2 hv,
        List.isPrefixOf_iff_prefix.2 hkey⟩, rfl⟩

end Linear

/-! ## Hash maps by length -/

namespace BucketMap

/-- The value of a written key in the hash map for a length. -/
def value? (buckets : List (Std.HashMap String α)) (n : Nat) (key : String) : Option α :=
  buckets[n]?.bind fun b => b[key]?

/-- Inserting at a length changes the value of one key of that length. -/
theorem value?_insertAt (key : String) (value : α) (n : Nat)
    (buckets : List (Std.HashMap String α)) (m : Nat) (other : String) :
    value? (insertAt key value n buckets) m other =
      if m = n ∧ other = key then some value else value? buckets m other := by
  have hinsert : ∀ b : Std.HashMap String α, (b.insert key value)[other]? =
      if other = key then some value else b[other]? := by
    intro b
    rw [Std.HashMap.getElem?_insert]
    by_cases h : key = other
    · rw [if_pos (beq_iff_eq.2 h), if_pos h.symm]
    · rw [if_neg (fun hb => h (beq_iff_eq.1 hb)), if_neg (Ne.symm h)]
  -- down to the bucket, with empty ones put in on the way where there are none
  fun_induction insertAt key value n buckets generalizing m with
  | case1 =>
    cases m with
    | zero =>
      show ((∅ : Std.HashMap String α).insert key value)[other]? = _
      rw [hinsert, Std.HashMap.getElem?_empty]
      simp only [true_and]
      rfl
    | succ m => rfl
  | case2 b bs =>
    cases m with
    | zero =>
      show (b.insert key value)[other]? = _
      rw [hinsert]
      simp only [true_and]
      rfl
    | succ m => rfl
  | case3 n ih =>
    cases m with
    | zero =>
      show (∅ : Std.HashMap String α)[other]? = _
      rw [Std.HashMap.getElem?_empty, if_neg fun h => Nat.succ_ne_zero n h.1.symm]
      rfl
    | succ m =>
      exact (ih m).trans (if_congr (and_congr_left' Nat.succ_inj.symm) rfl rfl)
  | case4 n b bs ih =>
    cases m with
    | zero => rw [if_neg fun h => Nat.succ_ne_zero n h.1.symm]; rfl
    | succ m =>
      exact (ih m).trans (if_congr (and_congr_left' Nat.succ_inj.symm) rfl rfl)

/-- The value of a key. -/
def get? (m : BucketMap α) (key : List String) : Option α :=
  value? m.buckets key.length (String.ofList (encodeKey key))

/-- What is looked up is the last value of the key. -/
theorem get?_ofList (entries : List (List String × α)) (key : List String) :
    (ofList entries).get? key = lastValue? entries key := by
  refine foldl_insert (fun m e other => ?_) (fun _ => rfl) entries key
  refine (value?_insertAt _ e.2 e.1.length m.buckets other.length _).trans ?_
  refine if_congr ⟨fun h => ?_, fun h => ?_⟩ rfl rfl
  · exact encodeKey_inj.1 (String.ofList_injective h.2)
  · rw [h]
    exact ⟨rfl, rfl⟩

/-- The walk over hash maps looks at the beginnings of the tokens one by one. -/
theorem prefixesFrom_eq (length : Nat) (revKey : List Char)
    (buckets : List (Std.HashMap String α)) (tokens : List String) :
    prefixesFrom length revKey buckets tokens =
      (List.range (tokens.length + 1)).filterMap fun n =>
        (value? buckets n (String.ofList (revKey.reverse ++ encodeKey (tokens.take n)))).map
          (length + n, ·) := by
  -- on the buckets: each looks up the key so far, and the next one a key of one more token
  induction buckets generalizing length revKey tokens with
  | nil =>
    refine (List.filterMap_eq_nil_iff.2 fun n _ => ?_).symm
    rfl
  | cons b bs ih =>
    rw [List.range_succ_eq_map, List.filterMap_cons, List.filterMap_map, List.take_zero,
      show encodeKey [] = [] from rfl, List.append_nil, Nat.add_zero,
      show value? (b :: bs) 0 (String.ofList revKey.reverse) = b[String.ofList revKey.reverse]?
        from rfl]
    cases tokens with
    | nil =>
      unfold prefixesFrom
      cases b[String.ofList revKey.reverse]? <;> rfl
    | cons t ts =>
      have hrest : ∀ n, ((fun n => (value? (b :: bs) n (String.ofList (revKey.reverse ++
          encodeKey ((t :: ts).take n)))).map (length + n, ·)) ∘ Nat.succ) n =
          (value? bs n (String.ofList (((encodeToken t).reverse ++ revKey).reverse ++
            encodeKey (ts.take n)))).map (length + 1 + n, ·) := by
        intro n
        rw [Function.comp_apply, List.take_succ_cons, encodeKey_cons, List.reverse_append,
          List.reverse_reverse, List.append_assoc, Nat.add_assoc length 1 n, Nat.add_comm 1 n]
        rfl
      rw [List.length_cons, List.filterMap_congr fun n _ => hrest n, ← ih]
      rw [prefixesFrom]
      cases b[String.ofList revKey.reverse]? <;> rfl

/-- The hash maps answer with the keys that begin the tokens. -/
theorem prefixes_ofList (entries : List (List String × α)) (tokens : List String) :
    (ofList entries).prefixes tokens = beginnings entries tokens := by
  rw [prefixes, prefixesFrom_eq, beginnings]
  refine congrArg List.reverse (List.filterMap_congr fun n hn => ?_)
  rw [← get?_ofList, get?, List.length_take_of_le (Nat.le_of_lt_succ (List.mem_range.1 hn)),
    List.reverse_nil, List.nil_append, Nat.zero_add]

end BucketMap

/-! ## Tries -/

/-- The trie over characters answers with the keys that begin the tokens. -/
theorem TrieMap.prefixes_ofList (entries : List (List String × α)) (tokens : List String) :
    (TrieMap.ofList entries).prefixes tokens = beginnings entries tokens := by
  have hvalue : ∀ key, (TrieMap.ofList entries).get? key = lastValue? entries key :=
    foldl_insert (fun m e => get?_insert m e.1 e.2) (fun key => by cases key <;> rfl) entries
  rw [prefixes_eq, beginnings]
  simp only [hvalue]

theorem bytes_append (s t : String) : bytes (s ++ t) = bytes s ++ bytes t := by
  simp only [bytes, String.toByteArray_append, ByteArray.data_append, Array.toList_append]

theorem bytes_injective : Function.Injective bytes := fun _ _ h =>
  String.toByteArray_inj.1 (ByteArray.ext (Array.toList_inj.1 h))

namespace ByteTrie

/-- What a trie promises: it is a finite map in which the last value of a key counts, its parts are
restrictions to the keys that begin in some way, and only a trie without values is empty. -/
structure Lawful (T : ByteTrie α) : Prop where
  get?_collect : ∀ entries key, T.get? (T.collect entries) key = lastValue? entries key
  get?_subtrie : ∀ t p key,
    T.get? (T.subtrie t p) key = if p.isPrefixOf key then T.get? t key else none
  isEmpty_iff : ∀ t, T.isEmpty t = true ↔ ∀ key, T.get? t key = none

variable {T : ByteTrie α}

/-- The value of a key, as the trie has it. -/
def value? (T : ByteTrie α) (m : T.Carrier) (key : List String) : Option α :=
  T.get? m (bytes (String.ofList (encodeKey key)))

/-- A trie that keeps its laws has the last value of each key. -/
theorem Lawful.value?_ofList (h : T.Lawful) (entries : List (List String × α))
    (key : List String) : T.value? (T.ofList entries) key = lastValue? entries key := by
  have hinj : Function.Injective fun key => bytes (String.ofList (encodeKey key)) :=
    fun _ _ heq => encodeKey_inj.1 (String.ofList_injective (bytes_injective heq))
  rw [value?, ofList, h.get?_collect]
  exact lastValue?_map hinj entries key

/-- A part that has the values of the whole for all keys that go on with what was walked. -/
def Covers (T : ByteTrie α) (whole part : T.Carrier) (walked : List String) : Prop :=
  ∀ key, T.get? part (bytes (String.ofList (encodeKey (walked ++ key)))) =
    T.value? whole (walked ++ key)

theorem Lawful.covers_subtrie (h : T.Lawful) {whole part : T.Carrier} {walked : List String}
    (hc : Covers T whole part walked) (t : String) :
    Covers T whole (T.subtrie part (bytes (String.ofList (encodeKey (walked ++ [t])))))
      (walked ++ [t]) := by
  intro key
  have hpre : (bytes (String.ofList (encodeKey (walked ++ [t])))).isPrefixOf
      (bytes (String.ofList (encodeKey (walked ++ [t] ++ key)))) = true := by
    have hsplit : encodeKey (walked ++ [t] ++ key) = encodeKey (walked ++ [t]) ++ encodeKey key :=
      List.flatMap_append
    rw [List.isPrefixOf_iff_prefix, hsplit, String.ofList_append, bytes_append]
    exact List.prefix_append _ _
  rw [h.get?_subtrie, if_pos hpre]
  rw [List.append_assoc]
  exact hc ([t] ++ key)

/-- The walk stops only where no longer key begins the tokens. -/
theorem Lawful.walk_eq (h : T.Lawful) {whole part : T.Carrier} {walked : List String}
    (hc : Covers T whole part walked) (tokens : List String) :
    T.walk part (String.ofList (encodeKey walked)) walked.length tokens =
      (List.range tokens.length).filterMap fun n =>
        (T.value? whole (walked ++ tokens.take (n + 1))).map (walked.length + (n + 1), ·) := by
  -- on the tokens; where the rest of the trie is empty, no longer key is there to be found
  induction tokens generalizing part walked with
  | nil => rfl
  | cons t ts ih =>
    have hkey : String.ofList (encodeKey walked) ++ String.ofList (encodeToken t) =
        String.ofList (encodeKey (walked ++ [t])) := by
      rw [← String.ofList_append, encodeKey, encodeKey, List.flatMap_append,
        List.flatMap_singleton]
    have hsub := h.covers_subtrie hc t
    have hvalue := hsub []
    rw [List.append_nil] at hvalue
    unfold walk
    dsimp only
    rw [hkey]
    by_cases he : T.isEmpty (T.subtrie part (bytes (String.ofList (encodeKey (walked ++ [t])))))
    · rw [if_pos he]
      refine (List.filterMap_eq_nil_iff.2 fun n _ => ?_).symm
      rw [List.take_succ_cons, ← List.singleton_append, ← List.append_assoc, ← hsub,
        (h.isEmpty_iff _).1 he]
      rfl
    · have hih := ih hsub
      rw [List.length_append, List.length_singleton] at hih
      rw [if_neg he, hvalue, hih, List.length_cons, List.range_succ_eq_map, List.filterMap_cons,
        List.filterMap_map]
      have hrest : ∀ n, ((fun n => (T.value? whole (walked ++ (t :: ts).take (n + 1))).map
          (walked.length + (n + 1), ·)) ∘ Nat.succ) n =
          (T.value? whole (walked ++ [t] ++ ts.take (n + 1))).map
            (walked.length + 1 + (n + 1), ·) := by
        intro n
        rw [Function.comp_apply, List.take_succ_cons, List.append_assoc, List.singleton_append,
          Nat.add_assoc walked.length 1, Nat.add_comm 1]
      rw [List.filterMap_congr fun n _ => hrest n, List.take_succ_cons, List.take_zero]
      cases T.value? whole (walked ++ [t]) <;> rfl

/-- A trie over bytes answers with the keys that begin the tokens. -/
theorem Lawful.prefixes_ofList (h : T.Lawful) (entries : List (List String × α))
    (tokens : List String) : T.prefixes (T.ofList entries) tokens = beginnings entries tokens := by
  have hwhole : ∀ key, T.get? (T.subtrie (T.ofList entries) []) key =
      T.get? (T.ofList entries) key := fun key => by
    rw [h.get?_subtrie, if_pos (by rw [List.isPrefixOf_nil_left])]
  have hcovers : Covers T (T.ofList entries) (T.subtrie (T.ofList entries) []) [] :=
    fun key => hwhole _
  have hwalk := h.walk_eq hcovers tokens
  have hvalue := h.value?_ofList entries
  have hroot : T.get? (T.subtrie (T.ofList entries) []) [] = lastValue? entries [] := by
    rw [hwhole, ← hvalue []]
    rfl
  have hfound : T.walk (T.subtrie (T.ofList entries) []) "" 0 tokens =
      (List.range tokens.length).filterMap fun n =>
        (lastValue? entries (tokens.take (n + 1))).map (n + 1, ·) := by
    refine hwalk.trans (List.filterMap_congr fun n _ => ?_)
    rw [List.nil_append, hvalue, List.length_nil, Nat.zero_add]
  rw [prefixes, hroot, hfound, beginnings, List.range_succ_eq_map, List.filterMap_cons,
    List.filterMap_map, List.take_zero]
  cases lastValue? entries [] <;> rfl

/-- A list of keys with values as a trie. -/
def listing (α : Type) : ByteTrie α where
  Carrier := List (List UInt8 × α)
  collect := id
  get? := lastValue?
  subtrie t p := t.filter fun e => p.isPrefixOf e.1
  isEmpty := List.isEmpty

/-- The last value of a key below a prefix, if it is below it. -/
theorem lastValue?_filter_isPrefixOf (t : List (List UInt8 × α)) (p key : List UInt8) :
    lastValue? (t.filter fun e => p.isPrefixOf e.1) key =
      if p.isPrefixOf key then lastValue? t key else none := by
  induction t with
  | nil => split <;> rfl
  | cons e t ih =>
    rw [List.filter_cons, lastValue?_cons e]
    by_cases hkey : key = e.1
    · rw [← hkey]
      by_cases hp : p.isPrefixOf key
      · rw [if_pos hp, lastValue?_cons, ih, if_pos hp, if_pos hp, hkey]
      · rw [if_neg hp, ih, if_neg hp, if_neg hp]
    · rw [if_neg hkey, Option.or_none]
      split
      · rw [lastValue?_cons, if_neg hkey, Option.or_none, ih]
      · exact ih

/-- A list of keys with values keeps the laws of a trie. -/
theorem lawful_listing (α : Type) : (listing α).Lawful where
  get?_collect _ _ := rfl
  get?_subtrie := lastValue?_filter_isPrefixOf
  isEmpty_iff t := by
    show List.isEmpty t = true ↔ ∀ key, lastValue? t key = none
    cases t with
    | nil => exact iff_of_true rfl fun _ => rfl
    | cons e t =>
      refine iff_of_false Bool.false_ne_true fun h => ?_
      have hlast := h e.1
      rw [lastValue?_cons, if_pos rfl, Option.or_eq_none_iff] at hlast
      exact absurd hlast.2 (Option.some_ne_none _)

end ByteTrie

/-! ## All of them -/

/-- Whatever the entries, every trigger map gives the length and the last value of every key that
begins the tokens, each once and the longest first. Only the laws of the byte trie are used. -/
theorem prefixes_agree {T : ByteTrie α} (h : T.Lawful) (entries : List (List String × α))
    (tokens : List String) :
    let found := beginnings entries tokens
    (LinearMap.ofList entries).prefixes tokens = found ∧
    (BucketMap.ofList entries).prefixes tokens = found ∧
    (TrieMap.ofList entries).prefixes tokens = found ∧
    T.prefixes (T.ofList entries) tokens = found ∧
    found.Pairwise (·.1 > ·.1) ∧
    ∀ n value, (n, value) ∈ found ↔
      ∃ key, key <+: tokens ∧ key.length = n ∧ lastValue? entries key = some value :=
  ⟨LinearMap.prefixes_ofList entries tokens, BucketMap.prefixes_ofList entries tokens,
    TrieMap.prefixes_ofList entries tokens, h.prefixes_ofList entries tokens,
    pairwise_beginnings entries tokens, fun _ _ => mem_beginnings⟩

/-- Keys that are written alike up to their lengths, a key given twice and the empty one. -/
theorem prefixes_agree_listing :
    let entries := [(["a", "b"], 1), (["ab"], 2), ([], 3), (["a"], 4), (["a", "b"], 5),
      (["a1:b"], 6), (["a", "b", "2:"], 7)]
    (ByteTrie.listing Nat).Lawful ∧
    ((ByteTrie.listing Nat).prefixes ((ByteTrie.listing Nat).ofList entries) ["a", "b", "c"] =
      [(2, 5), (1, 4), (0, 3)]) ∧
    (TrieMap.ofList entries).prefixes ["a", "b", "c"] = [(2, 5), (1, 4), (0, 3)] := by
  have h := prefixes_agree (ByteTrie.lawful_listing Nat) [(["a", "b"], 1), (["ab"], 2), ([], 3),
    (["a"], 4), (["a", "b"], 5), (["a1:b"], 6), (["a", "b", "2:"], 7)] ["a", "b", "c"]
  refine ⟨ByteTrie.lawful_listing Nat, h.2.2.2.1.trans ?_, h.2.2.1.trans ?_⟩ <;> decide

end MathMarkup.TriggerMap
