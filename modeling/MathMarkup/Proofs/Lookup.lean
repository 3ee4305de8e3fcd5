import Mathlib.Data.List.Basic
import Std.Data.String.ToNat
import MathMarkup.Lexicon.Index

/-!
# What a look-up by trigger finds

The index keeps its entries in tries over the characters of written keys. Here they are seen as
finite maps: `Trie.value?` is the value of a key, an insertion changes it at one key only, and since
distinct token sequences are written differently (`encodeKey_inj`), the same holds of the map over
token sequences (`TrieMap.get?_insert`). A walk down the trie then meets exactly the keys that begin
the tokens (`TrieMap.prefixes_eq`).

`Index.Arranged` says what each table of an index holds, in terms of the list of all usable
entries. Adding an entry preserves it, so every index has it, and `Index.lookup_eq` reads off
what any look-up answers.
-/

namespace MathMarkup
namespace TriggerMap

/-! ## Written keys -/

/-- A number is written in digits. -/
theorem isDigit_of_mem_repr {n : Nat} {c : Char} (h : c ∈ (toString n).toList) : c.isDigit := by
  rw [show toString n = n.repr from rfl, Nat.toList_repr] at h
  exact Nat.isDigit_of_mem_toDigits (by decide) (by decide) h

/-- Two runs of digits before a colon are equal, and so is what follows. -/
theorem append_colon_inj {ds es cs bs : List Char} (hd : ∀ c ∈ ds, c.isDigit)
    (he : ∀ c ∈ es, c.isDigit) (h : ds ++ ':' :: cs = es ++ ':' :: bs) : ds = es ∧ cs = bs := by
  -- on both runs at once; where only one of them ends, its colon would be a digit of the other
  induction ds generalizing es with
  | nil =>
    cases es with
    | nil => exact ⟨rfl, by simpa using h⟩
    | cons e es =>
      simp only [List.nil_append, List.cons_append, List.cons.injEq] at h
      have := he e (List.mem_cons_self ..)
      rw [← h.1] at this
      exact absurd this (by decide)
  | cons d ds ih =>
    cases es with
    | nil =>
      simp only [List.nil_append, List.cons_append, List.cons.injEq] at h
      have := hd d (List.mem_cons_self ..)
      rw [h.1] at this
      exact absurd this (by decide)
    | cons e es =>
      simp only [List.cons_append, List.cons.injEq] at h
      obtain ⟨hds, hcs⟩ := ih (fun c hc => hd c (List.mem_cons_of_mem _ hc))
        (fun c hc => he c (List.mem_cons_of_mem _ hc)) h.2
      exact ⟨by rw [h.1, hds], hcs⟩

/-- The bytes of a text are those of its first character and of the others. -/
theorem utf8ByteSize_ofList_cons (c : Char) (cs : List Char) :
    (String.ofList (c :: cs)).utf8ByteSize = c.utf8Size + (String.ofList cs).utf8ByteSize := by
  have hsplit : String.ofList (c :: cs) = String.ofList [c] ++ String.ofList cs := by
    rw [← String.ofList_append, List.singleton_append]
  rw [hsplit, String.utf8ByteSize_append, ← String.singleton_eq_ofList,
    String.utf8ByteSize_singleton]

/-- Of two character lists that go on to the same text, those with equally many bytes are equal. -/
theorem eq_of_bytes_eq {cs bs ds es : List Char} (h : cs ++ ds = bs ++ es)
    (hb : (String.ofList cs).utf8ByteSize = (String.ofList bs).utf8ByteSize) : cs = bs := by
  induction cs generalizing bs with
  | nil =>
    cases bs with
    | nil => rfl
    | cons b bs =>
      have := Char.utf8Size_pos b
      rw [utf8ByteSize_ofList_cons, String.ofList_nil, String.utf8ByteSize_empty] at hb
      omega
  | cons c cs ih =>
    cases bs with
    | nil =>
      have := Char.utf8Size_pos c
      rw [utf8ByteSize_ofList_cons, String.ofList_nil, String.utf8ByteSize_empty] at hb
      omega
    | cons b bs =>
      simp only [List.cons_append, List.cons.injEq] at h
      obtain ⟨rfl, h⟩ := h
      rw [utf8ByteSize_ofList_cons, utf8ByteSize_ofList_cons, Nat.add_left_cancel_iff] at hb
      rw [ih h hb]

/-- A written token says where it ends. -/
theorem encodeToken_append_inj {t u : String} {cs bs : List Char}
    (h : encodeToken t ++ cs = encodeToken u ++ bs) : t = u ∧ cs = bs := by
  simp only [encodeToken, List.append_assoc, List.cons_append] at h
  obtain ⟨hn, hr⟩ := append_colon_inj (fun _ => isDigit_of_mem_repr)
    (fun _ => isDigit_of_mem_repr) h
  have hb : t.utf8ByteSize = u.utf8ByteSize := Nat.repr_injective (String.toList_inj.1 hn)
  rw [← String.ofList_toList (s := t), ← String.ofList_toList (s := u)] at hb
  have ht := eq_of_bytes_eq hr hb
  rw [ht] at hr
  exact ⟨String.toList_inj.1 ht, List.append_cancel_left hr⟩

/-- Keys of different triggers differ: the length before each spelling says where it ends. -/
theorem encodeKey_inj {ts us : List String} : encodeKey ts = encodeKey us ↔ ts = us := by
  refine ⟨fun h => ?_, fun h => by rw [h]⟩
  induction ts generalizing us with
  | nil =>
    cases us with
    | nil => rfl
    | cons u us =>
      rw [encodeKey_cons] at h
      exact absurd (List.append_eq_nil_iff.1 h.symm).1 (encodeToken_ne_nil u)
  | cons t ts ih =>
    cases us with
    | nil =>
      rw [encodeKey_cons] at h
      exact absurd (List.append_eq_nil_iff.1 h).1 (encodeToken_ne_nil t)
    | cons u us =>
      rw [encodeKey_cons, encodeKey_cons] at h
      obtain ⟨ht, hts⟩ := encodeToken_append_inj h
      rw [ht, ih hts]

/-- No trigger but the empty one has the empty key. -/
theorem encodeKey_ne_nil {ts : List String} (h : ts ≠ []) : encodeKey ts ≠ [] :=
  fun hn => h (encodeKey_inj.1 hn)

/-! ## Tries as maps -/

namespace Trie

variable {α : Type}

/-- The value of a key. -/
def value? (t : Trie α) (key : List Char) : Option α :=
  (t.walk? key).bind (·.1)

/-- No trie has a way down for the empty key. -/
theorem walk?_nil (t : Trie α) : t.walk? [] = none := by
  cases t <;> rfl

theorem value?_nil_key (t : Trie α) : t.value? [] = none := by
  rw [value?, walk?_nil]
  rfl

/-- A trie of one key has a value for that key alone. -/
theorem value?_singleton (v : α) {key : List Char} (h : key ≠ []) (other : List Char) :
    (singleton v key).value? other = if other = key then some v else none := by
  -- along the one branch that is built, a character of the key at each node
  fun_induction singleton v key generalizing other with
  | case1 => exact absurd rfl h
  | case2 c =>
    cases other with
    | nil => simp [value?_nil_key]
    | cons d ds =>
      cases ds with
      | nil => by_cases hd : d = c <;> simp [value?, walk?, hd]
      | cons e es => by_cases hd : d = c <;> simp [value?, walk?, hd]
  | case3 c cs hne ih =>
    have hcs : cs ≠ [] := hne
    cases other with
    | nil => simp [value?_nil_key]
    | cons d ds =>
      by_cases hd : d = c
      · cases ds with
        | nil => simp [value?, walk?, hd, hcs.symm]
        | cons e es =>
          have := ih hcs (e :: es)
          simp only [value?, walk?, hd, if_true] at this ⊢
          rw [this]
          simp
      · simp [value?, walk?, hd]

/-- Setting the value of a key changes nothing about other keys. -/
theorem value?_insert (v : α) {key : List Char} (h : key ≠ []) (t : Trie α) (other : List Char) :
    (t.insert v key).value? other = if other = key then some v else t.value? other := by
  induction t generalizing key other with
  | nil =>
    rw [insert, value?_singleton v h]
    rfl
  | node d old below rest ihb ihr =>
    cases key with
    | nil => exact absurd rfl h
    | cons c cs =>
      cases other with
      | nil => simp [value?_nil_key]
      | cons o os =>
        -- the key goes down here or on to the next node, and the other key may do something else
        by_cases hc : c = d
        · subst hc
          cases cs with
          | nil =>
            by_cases ho : o = c
            · cases os with
              | nil => simp [insert, value?, walk?, ho]
              | cons e es => simp [insert, value?, walk?, ho]
            · simp [insert, value?, walk?, ho]
          | cons b bs =>
            by_cases ho : o = c
            · cases os with
              | nil => simp [insert, value?, walk?, ho]
              | cons e es =>
                have := @ihb (b :: bs) (by simp) (e :: es)
                simp only [insert, value?, walk?, ho, if_true] at this ⊢
                rw [this]
                simp
            · simp [insert, value?, walk?, ho]
        · by_cases ho : o = d
          · subst ho
            have hco : ¬ o :: os = c :: cs := fun he => hc (List.cons.inj he).1.symm
            simp [insert, value?, walk?, hc, Ne.symm hc]
          · have := @ihr (c :: cs) (by simp) (o :: os)
            simp only [insert, value?, walk?, hc, ho, if_false] at this ⊢
            exact this

/-- The way down for a key in two parts is the way for the first part and on from there. -/
theorem walk?_append {key : List Char} (hk : key ≠ []) {more : List Char} (hm : more ≠ [])
    (t : Trie α) : t.walk? (key ++ more) = (t.walk? key).bind fun r => r.2.walk? more := by
  induction t generalizing key with
  | nil => rfl
  | node d value below rest ihb ihr =>
    cases key with
    | nil => exact absurd rfl hk
    | cons c cs =>
      by_cases hc : c = d
      · cases cs with
        | nil =>
          cases more with
          | nil => exact absurd rfl hm
          | cons e es => simp [walk?, hc]
        | cons b bs =>
          have := @ihb (b :: bs) (by simp)
          simp only [List.cons_append, walk?, hc, if_true] at this ⊢
          exact this
      · have := @ihr (c :: cs) (by simp)
        simp only [List.cons_append, walk?, hc, if_false] at this ⊢
        exact this

end Trie

namespace TrieMap

variable {α : Type}

/-- A map finds a trigger at the end of the way for its key. -/
theorem get?_cons (m : TrieMap α) (t : String) (ts : List String) :
    m.get? (t :: ts) = m.row.value? (encodeKey (t :: ts)) := rfl

/-- What was inserted is found under its trigger, and everything else as before. -/
theorem get?_insert (m : TrieMap α) (key : List String) (v : α) (other : List String) :
    (m.insert key v).get? other = if other = key then some v else m.get? other := by
  cases key with
  | nil => cases other <;> simp [insert, get?]
  | cons t ts =>
    cases other with
    | nil => simp [insert, get?]
    | cons u us =>
      rw [get?_cons, get?_cons]
      show (m.row.insert v (encodeKey (t :: ts))).value? _ = _
      rw [Trie.value?_insert v (encodeKey_ne_nil (by simp))]
      simp only [encodeKey_inj]

/-- A walk down a row meets the keys that begin the tokens, shortest first. -/
theorem prefixesFrom_eq (length : Nat) (row : Trie α) (tokens : List String) :
    prefixesFrom length row tokens = (List.range tokens.length).filterMap fun i =>
      (row.value? (encodeKey (tokens.take (i + 1)))).map (length + (i + 1), ·) := by
  induction tokens generalizing length row with
  | nil => rfl
  | cons t ts ih =>
    -- the walk for one more token goes on where the walk for the first one ended
    have hstep : ∀ i < ts.length, row.walk? (encodeKey ((t :: ts).take (i + 1 + 1))) =
        (row.walk? (encodeToken t)).bind fun r => r.2.walk? (encodeKey (ts.take (i + 1))) := by
      intro i hi
      rw [List.take_succ_cons, encodeKey_cons]
      refine Trie.walk?_append (encodeToken_ne_nil t) (encodeKey_ne_nil ?_) row
      intro hn
      have := congrArg List.length hn
      rw [List.length_take, List.length_nil] at this
      omega
    have hfirst : encodeKey ((t :: ts).take (0 + 1)) = encodeToken t := by
      simp [encodeKey]
    rw [prefixesFrom, List.length_cons, List.range_succ_eq_map, List.filterMap_cons]
    rw [hfirst, List.filterMap_map]
    unfold Trie.value?
    cases hw : row.walk? (encodeToken t) with
    | none =>
      have : ∀ i ∈ List.range ts.length, (((fun i => ((row.walk?
          (encodeKey ((t :: ts).take (i + 1)))).bind (·.1)).map (length + (i + 1), ·)) ∘
            Nat.succ) i : Option (Nat × α)) = none := by
        intro i hi
        rw [Function.comp_apply, Nat.succ_eq_add_one, hstep i (List.mem_range.1 hi), hw]
        rfl
      simp only [Option.bind_none, Option.map_none]
      exact (List.filterMap_eq_nil_iff.2 this).symm
    | some r =>
      obtain ⟨value, below⟩ := r
      have : (List.range ts.length).filterMap ((fun i => ((row.walk?
          (encodeKey ((t :: ts).take (i + 1)))).bind (·.1)).map (length + (i + 1), ·)) ∘
            Nat.succ) = prefixesFrom (length + 1) below ts := by
        rw [ih]
        refine List.filterMap_congr fun i hi => ?_
        rw [Function.comp_apply, Nat.succ_eq_add_one, hstep i (List.mem_range.1 hi), hw]
        rw [Option.bind_some, Trie.value?, Nat.add_assoc length 1, Nat.add_comm 1]
      rw [this]
      cases value <;> rfl

/-- A map finds every key that begins the tokens, longest first. -/
theorem prefixes_eq (m : TrieMap α) (tokens : List String) :
    m.prefixes tokens = ((List.range (tokens.length + 1)).filterMap fun i =>
      (m.get? (tokens.take i)).map (i, ·)).reverse := by
  have hrow : ((List.range tokens.length).filterMap fun i =>
      (m.get? (tokens.take (i + 1))).map (i + 1, ·)) = prefixesFrom 0 m.row tokens := by
    rw [prefixesFrom_eq]
    refine List.filterMap_congr fun i hi => ?_
    cases tokens with
    | nil => simp at hi
    | cons t ts => rw [List.take_succ_cons, get?_cons, Nat.zero_add]
  rw [List.range_succ_eq_map, List.filterMap_cons, List.filterMap_map]
  rw [show ((fun i => (m.get? (tokens.take i)).map (i, ·)) ∘ Nat.succ) =
    fun i => (m.get? (tokens.take (i + 1))).map (i + 1, ·) from rfl, hrow]
  unfold prefixes get?
  cases m.root <;> rfl

end TrieMap

/-- Answers that are listed by length, the longest first, have different lengths. -/
theorem pairwise_byLength {α : Type} (value : Nat → Option α) (k : Nat) :
    ((List.range k).filterMap fun n => (value n).map (n, ·)).reverse.Pairwise (·.1 > ·.1) := by
  refine List.pairwise_reverse.2 (List.Pairwise.filterMap _ ?_ List.pairwise_lt_range)
  intro i j hij a ha b hb
  obtain ⟨v, -, rfl⟩ := Option.map_eq_some_iff.1 ha
  obtain ⟨w, -, rfl⟩ := Option.map_eq_some_iff.1 hb
  exact hij

end TriggerMap

/-! ## Tables of positions -/

namespace TriggerTable

/-- A table that is empty has no positions for any trigger. -/
theorem group_empty (trigger : List String) : group {} trigger = [] := by
  cases trigger <;> rfl

/-- Filing a position changes the group of its trigger and no other. -/
theorem group_add (t : TriggerTable) (trigger : List String) (position : Nat)
    (other : List String) : (t.add trigger position).group other =
      if trigger ≠ [] ∧ other = trigger then t.group other ++ [position] else t.group other := by
  rw [add]
  by_cases ht : trigger = []
  · rw [if_pos (List.isEmpty_iff.2 ht), if_neg (fun h => h.1 ht)]
  · rw [if_neg (fun h => ht (List.isEmpty_iff.1 h)), group, TriggerMap.TrieMap.get?_insert]
    by_cases ho : other = trigger
    · rw [if_pos ho, if_pos ⟨ht, ho⟩, ho, Option.getD_some]
    · rw [if_neg ho, if_neg (fun h => ho h.2), group]

/-- No group is empty once a position is filed. -/
theorem get?_add_ne_nil {t : TriggerTable} {other : List String} (h : t.get? other ≠ some [])
    (trigger : List String) (position : Nat) :
    (t.add trigger position).get? other ≠ some [] := by
  rw [add]
  by_cases ht : trigger.isEmpty = true
  · rw [if_pos ht]
    exact h
  · rw [if_neg ht, TriggerMap.TrieMap.get?_insert]
    by_cases ho : other = trigger
    · rw [if_pos ho]
      simp
    · rw [if_neg ho]
      exact h

end TriggerTable

namespace Index

/-- A look-up finds the entries of all groups whose trigger begins the tokens, longest first. -/
theorem expand_prefixes (ix : Index) (t : TriggerTable) (tokens : List String) :
    ix.expand (t.prefixes tokens) = (List.range (tokens.length + 1)).reverse.flatMap fun i =>
      (ix.entriesAt (t.group (tokens.take i))).map (i, ·) := by
  rw [expand, TriggerMap.TrieMap.prefixes_eq, ← List.filterMap_reverse]
  induction (List.range (tokens.length + 1)).reverse with
  | nil => rfl
  | cons i is ih =>
    rw [List.filterMap_cons, List.flatMap_cons, ← ih, TriggerTable.group]
    cases t.get? (tokens.take i) <;> rfl

/-! ## What is stored -/

/-- The latest entries are those that are stored. -/
theorem mem_latest {ix : Index} {e : IndexedEntry} : e ∈ ix.latest ↔ e ∈ ix.stored := by
  rw [latest, List.mem_reverse, entries, Array.mem_toList_iff]

/-- Whatever positions are looked up, the entries are stored ones. -/
theorem mem_latest_of_mem_entriesAt {ix : Index} {positions : List Nat} {e : IndexedEntry}
    (h : e ∈ ix.entriesAt positions) : e ∈ ix.latest := by
  obtain ⟨i, -, hi⟩ := List.mem_filterMap.1 h
  exact mem_latest.2 (Array.mem_of_getElem? hi)

/-- An entry that is found by name is a stored one. -/
theorem mem_latest_of_byName? {ix : Index} {name : String} {e : IndexedEntry}
    (h : ix.byName? name = some e) : e ∈ ix.latest := by
  obtain ⟨i, -, hi⟩ := Option.bind_eq_some_iff.1 h
  exact mem_latest.2 (Array.mem_of_getElem? hi)

/-- Entries for an environment are stored ones. -/
theorem environments_subset (ix : Index) (name : String) {e : IndexedEntry}
    (he : e ∈ ix.environments name) : e ∈ ix.latest :=
  mem_latest_of_mem_entriesAt he

/-- One more entry is stored behind the others. -/
theorem stored_add (ix : Index) (e : IndexedEntry) :
    (ix.add e).stored = ix.stored.push e := by
  unfold add
  cases e.role <;> rfl

/-- One more entry in order. -/
theorem entries_add (ix : Index) (e : IndexedEntry) :
    (ix.add e).entries = ix.entries ++ [e] := by
  rw [entries, stored_add, Array.toList_push, entries]

/-- The entry that was added last is the latest. -/
theorem latest_add (ix : Index) (e : IndexedEntry) : (ix.add e).latest = e :: ix.latest := by
  rw [latest, entries_add, List.reverse_append, latest]
  rfl

/-- An entry keeps its position when another one is stored. -/
theorem getElem?_stored_add (ix : Index) (e : IndexedEntry) {i : Nat} (hi : i < ix.stored.size) :
    (ix.add e).stored[i]? = ix.stored[i]? := by
  rw [stored_add, Array.getElem?_push, if_neg (Nat.ne_of_lt hi)]

/-- Old positions lead to the entries that they led to before another one was added. -/
theorem entriesAt_add (ix : Index) (e : IndexedEntry) {positions : List Nat}
    (h : ∀ i ∈ positions, i < ix.stored.size) :
    (ix.add e).entriesAt positions = ix.entriesAt positions :=
  List.filterMap_congr fun i hi => getElem?_stored_add ix e (h i (List.mem_reverse.1 hi))

/-- The position that a new entry takes leads to it, and it comes first. -/
theorem entriesAt_add_concat (ix : Index) (e : IndexedEntry) {positions : List Nat}
    (h : ∀ i ∈ positions, i < ix.stored.size) :
    (ix.add e).entriesAt (positions ++ [ix.stored.size]) = e :: ix.entriesAt positions := by
  have hnew : (ix.add e).stored[ix.stored.size]? = some e := by
    rw [stored_add, Array.getElem?_push_size]
  have hold := entriesAt_add ix e h
  rw [entriesAt] at hold ⊢
  rw [List.reverse_append, List.reverse_singleton, List.singleton_append, List.filterMap_cons, hnew,
    hold]

end Index

/-! ## The tables of an index -/

/-- Whether entries in a role are found when entries of a kind are looked up. -/
def Role.foundAs (role : Role) (kind : Kind) : Bool :=
  match kind with
  | .identifier | .function => role.kind == .identifier || role.kind == .function
  | .environment => false
  | kind => role.kind == kind

namespace IndexedEntry

/-- What an entry is filed under in the table for a kind. -/
def key? (kind : Kind) (e : IndexedEntry) : Option (List String) :=
  if e.role.foundAs kind then some e.trigger else none

/-- What an environment is filed under: its name, which is a key of one token. -/
def blockKey? (e : IndexedEntry) : Option (List String) :=
  if e.role = .environment then some [String.join e.trigger] else none

/-- The key of an entry for a kind is its trigger, if it is found as that kind. -/
theorem key?_beq (kind : Kind) (e : IndexedEntry) (trigger : List String) :
    (e.key? kind == some trigger) = (e.role.foundAs kind && e.trigger == trigger) := by
  unfold key?
  cases e.role.foundAs kind <;> rfl

end IndexedEntry

namespace Index

/-- The table in which entries of a kind are looked up. -/
def table (ix : Index) : Kind → TriggerTable
  | .identifier | .function => ix.symbols
  | .prefixOp => ix.prefixOps
  | .infixOp => ix.infixOps
  | .postfixOp => ix.postfixOps
  | .matchfix => ix.matchfixes
  | .environment => {}

/-- A look-up goes through the prefixes in the table of its kind. -/
theorem lookup_eq_table (ix : Index) (kind : Kind) (tokens : List String) :
    ix.lookup kind tokens = ix.expand ((ix.table kind).prefixes tokens) := by
  cases kind with
  | environment => cases tokens <;> rfl
  | _ => rfl

/-- A table files the stored entries under their keys: the group of a key has the positions of the
entries with that key, so that read from its end it lists them with the latest first. -/
structure Files (ix : Index) (t : TriggerTable) (key? : IndexedEntry → Option (List String)) :
    Prop where
  group : ∀ key, ix.entriesAt (t.group key) = ix.latest.filter fun e =>
    key != [] && key? e == some key
  inRange : ∀ key, ∀ i ∈ t.group key, i < ix.stored.size
  occupied : ∀ key, t.get? key ≠ some []

/-- An empty table files nothing. -/
theorem files_empty (key? : IndexedEntry → Option (List String)) : Files {} {} key? where
  group key := by
    rw [TriggerTable.group_empty]
    rfl
  inRange key i hi := by
    rw [TriggerTable.group_empty] at hi
    exact absurd hi List.not_mem_nil
  occupied key := by
    have hnone : TriggerMap.TrieMap.get? ({} : TriggerTable) key = none := by cases key <;> rfl
    rw [hnone]
    exact nofun

/-- A table goes on to file all entries if the position of a new one is added under its key, and
nothing is if it has none. -/
theorem Files.add {ix : Index} {t : TriggerTable} {key? : IndexedEntry → Option (List String)}
    (h : ix.Files t key?) (e : IndexedEntry) :
    (ix.add e).Files ((key? e).elim t (t.add · ix.stored.size)) key? := by
  have hsize : ix.stored.size < (ix.add e).stored.size := by
    rw [stored_add, Array.size_push]
    exact Nat.lt_succ_self _
  have hgrown : ∀ key, ∀ i ∈ t.group key, i < (ix.add e).stored.size :=
    fun key i hi => Nat.lt_trans (h.inRange key i hi) hsize
  cases hk : key? e with
  | none =>
    refine ⟨fun key => ?_, hgrown, h.occupied⟩
    rw [Option.elim_none, entriesAt_add ix e (h.inRange key), h.group, latest_add, List.filter_cons,
      hk]
    simp
  | some k =>
    refine ⟨fun key => ?_, fun key i hi => ?_, fun key => ?_⟩
    · rw [Option.elim_some, TriggerTable.group_add, latest_add, List.filter_cons, hk]
      -- the group of the new entry's key grows at its end, which is read first
      by_cases hkey : k ≠ [] ∧ key = k
      · obtain ⟨hne, rfl⟩ := hkey
        rw [if_pos ⟨hne, rfl⟩, entriesAt_add_concat ix e (h.inRange key), h.group,
          if_pos (by simp [hne])]
      · have hother : (key != [] && some k == some key) = false := by
          rw [Bool.and_eq_false_iff, bne_eq_false_iff_eq, beq_eq_false_iff_ne]
          by_cases hne : key = []
          · exact .inl hne
          · refine .inr fun heq => hkey ?_
            obtain rfl := Option.some.inj heq
            exact ⟨hne, rfl⟩
        rw [if_neg hkey, entriesAt_add ix e (h.inRange key), h.group, hother,
          if_neg Bool.false_ne_true]
    · rw [Option.elim_some, TriggerTable.group_add] at hi
      by_cases hkey : k ≠ [] ∧ key = k
      · rw [if_pos hkey, List.mem_append, List.mem_singleton] at hi
        rcases hi with hi | rfl
        · exact hgrown key i hi
        · exact hsize
      · rw [if_neg hkey] at hi
        exact hgrown key i hi
    · exact TriggerTable.get?_add_ne_nil (h.occupied key) _ _

/-- A key of the table leads to some entry. -/
theorem Files.exists_mem {ix : Index} {t : TriggerTable}
    {key? : IndexedEntry → Option (List String)} (h : ix.Files t key?) {key : List String}
    {positions : List Nat} (hk : t.get? key = some positions) :
    ∃ e, e ∈ ix.entriesAt (t.group key) := by
  have hgroup : t.group key = positions := by rw [TriggerTable.group, hk, Option.getD_some]
  obtain ⟨i, hi⟩ := List.exists_mem_of_ne_nil positions fun hn => h.occupied key (by rw [hk, hn])
  rw [← hgroup] at hi
  have hlt := h.inRange key i hi
  exact ⟨ix.stored[i], List.mem_filterMap.2
    ⟨i, List.mem_reverse.2 hi, Array.getElem?_eq_getElem hlt⟩⟩

/-- The positions in the table of names lead to the last entry with each name. -/
structure Names (ix : Index) : Prop where
  byName : ∀ name, ix.byName? name = ix.latest.find? (·.name == some name)
  inRange : ∀ name, ∀ i ∈ ix.names.get? [name], i < ix.stored.size

/-- Every table files, of all usable entries, those that it is for. -/
structure Arranged (ix : Index) : Prop where
  tables : ∀ kind, ix.Files (ix.table kind) (IndexedEntry.key? kind)
  closers : ix.Files ix.closers (·.role.close?)
  blocks : ix.Files ix.blocks IndexedEntry.blockKey?
  names : ix.Names

/-- An empty index is arranged. -/
theorem arranged_empty : Arranged {} where
  tables kind := by
    cases kind <;> exact files_empty _
  closers := files_empty _
  blocks := files_empty _
  names := ⟨fun _ => rfl, fun _ _ h => absurd h nofun⟩

/-- Adding an entry changes the tables it is for and no other. -/
theorem table_add (ix : Index) (e : IndexedEntry) (kind : Kind) :
    (ix.add e).table kind = (e.key? kind).elim (ix.table kind) ((ix.table kind).add · ix.stored.size)
    := by
  unfold add IndexedEntry.key?
  cases hr : e.role <;> cases kind <;> rfl

/-- The closing delimiters with one more entry. -/
theorem closers_add (ix : Index) (e : IndexedEntry) :
    (ix.add e).closers = e.role.close?.elim ix.closers (ix.closers.add · ix.stored.size) := by
  unfold add
  cases hr : e.role <;> rfl

/-- The environments with one more entry. -/
theorem blocks_add (ix : Index) (e : IndexedEntry) :
    (ix.add e).blocks = e.blockKey?.elim ix.blocks (ix.blocks.add · ix.stored.size) := by
  unfold add IndexedEntry.blockKey?
  cases hr : e.role <;> rfl

/-- The names with one more entry. -/
theorem names_add (ix : Index) (e : IndexedEntry) :
    (ix.add e).names = e.name.elim ix.names (ix.names.insert [·] ix.stored.size) := by
  unfold add
  cases e.role <;> cases e.name <;> rfl

/-- The position of a new entry takes the place of the one before under its name. -/
theorem get?_names_add (ix : Index) (e : IndexedEntry) (name : String) :
    (ix.add e).names.get? [name] =
      if e.name = some name then some ix.stored.size else ix.names.get? [name] := by
  rw [names_add]
  cases hn : e.name with
  | none => rfl
  | some n =>
    rw [Option.elim_some, TriggerMap.TrieMap.get?_insert]
    refine if_congr ?_ rfl rfl
    rw [List.cons_eq_cons, Option.some_inj, eq_comm]
    exact and_iff_left rfl

/-- The table of names finds the new entry under its name and the others as before. -/
theorem Names.add {ix : Index} (h : ix.Names) (e : IndexedEntry) : (ix.add e).Names where
  byName name := by
    rw [byName?, get?_names_add, latest_add, List.find?_cons]
    by_cases hn : e.name = some name
    · rw [if_pos hn, Option.bind_some, stored_add, Array.getElem?_push_size, hn, beq_self_eq_true]
    · rw [if_neg hn, beq_eq_false_iff_ne.2 hn, ← h.byName, byName?]
      refine Option.bind_congr fun i hi => ?_
      exact getElem?_stored_add ix e (h.inRange name i hi)
  inRange name i hi := by
    rw [get?_names_add] at hi
    rw [stored_add, Array.size_push]
    by_cases hn : e.name = some name
    · rw [if_pos hn] at hi
      obtain rfl := Option.some.inj hi
      exact Nat.lt_succ_self _
    · rw [if_neg hn] at hi
      exact Nat.lt_succ_of_lt (h.inRange name i hi)

/-- An entry that is added keeps every table arranged. -/
theorem Arranged.add {ix : Index} (h : ix.Arranged) (e : IndexedEntry) : (ix.add e).Arranged where
  tables kind := by
    rw [table_add]
    exact (h.tables kind).add e
  closers := by
    rw [closers_add]
    exact h.closers.add e
  blocks := by
    rw [blocks_add]
    exact h.blocks.add e
  names := h.names.add e

/-- Entries that are added one after the other are stored in that order. -/
theorem entries_foldl_add (es : List IndexedEntry) (ix : Index) :
    (es.foldl add ix).entries = ix.entries ++ es := by
  induction es generalizing ix with
  | nil => rw [List.foldl_nil, List.append_nil]
  | cons e es ih => rw [List.foldl_cons, ih, entries_add, List.append_assoc, List.singleton_append]

/-- The index of a lexicon holds its usable entries in their order. -/
theorem entries_ofEntries (lexicon : List Entry) :
    (ofEntries lexicon).1.entries = lexicon.filterMap usable? :=
  entries_foldl_add _ {}

/-- The latest entries of a lexicon are its usable ones, from the last to the first. -/
theorem latest_ofEntries (lexicon : List Entry) :
    (ofEntries lexicon).1.latest = (lexicon.filterMap usable?).reverse := by
  rw [latest, entries_ofEntries]

/-- Every index of a lexicon is arranged, since every entry that is added keeps it so. -/
theorem arranged_ofEntries (lexicon : List Entry) : (ofEntries lexicon).1.Arranged := by
  suffices h : ∀ (es : List IndexedEntry) (ix : Index), ix.Arranged → (es.foldl add ix).Arranged
    from h _ {} arranged_empty
  intro es
  induction es with
  | nil => exact fun ix h => h
  | cons e es ih => exact fun ix h => ih _ (h.add e)

/-- The environments with a name are found with the latest first. -/
theorem Arranged.environments_eq {ix : Index} (h : ix.Arranged) (name : String) :
    ix.environments name = ix.latest.filter fun e =>
      e.role == .environment && String.join e.trigger == name := by
  rw [environments, h.blocks.group]
  refine List.filter_congr fun e _ => ?_
  rw [IndexedEntry.blockKey?]
  by_cases hr : e.role = .environment
  · rw [if_pos hr, hr]
    simp
  · rw [if_neg hr, beq_eq_false_iff_ne.2 hr]
    rfl

/-- The usable entries of a kind with some trigger, the latest first. -/
def triggered (ix : Index) (kind : Kind) (trigger : List String) : List IndexedEntry :=
  ix.latest.filter fun e => e.role.foundAs kind && e.trigger == trigger

/-- A look-up finds all entries of the kind whose trigger begins the tokens, those with longer
triggers first and later ones first among those with one trigger. -/
theorem lookup_eq {ix : Index} (h : ix.Arranged) (kind : Kind) (tokens : List String) :
    ix.lookup kind tokens = (List.range tokens.length).reverse.flatMap fun i =>
      (ix.triggered kind (tokens.take (i + 1))).map (i + 1, ·) := by
  have hnil : ix.entriesAt ((ix.table kind).group (tokens.take 0)) = [] := by
    rw [(h.tables kind).group]
    exact List.filter_eq_nil_iff.2 fun e _ => by simp
  rw [lookup_eq_table, expand_prefixes, List.range_succ_eq_map, List.reverse_cons,
    List.flatMap_append, List.flatMap_singleton, hnil, List.map_nil, List.append_nil,
    ← List.map_reverse, List.flatMap_map]
  refine List.flatMap_congr fun i hi => ?_
  have hne : tokens.take (i + 1) ≠ [] := by
    intro hn
    have := congrArg List.length hn
    have := List.mem_range.1 (List.mem_reverse.1 hi)
    rw [List.length_take, List.length_nil] at *
    omega
  rw [(h.tables kind).group, triggered, bne_iff_ne.2 hne]
  simp only [Bool.true_and, IndexedEntry.key?_beq]

/-- Nothing is looked up before no tokens. -/
theorem lookup_nil {ix : Index} (h : ix.Arranged) (kind : Kind) : ix.lookup kind [] = [] := by
  rw [lookup_eq h]
  rfl

/-- What a look-up finds is usable, of the kind, and its trigger begins the tokens. -/
theorem of_mem_lookup {ix : Index} (h : ix.Arranged) {kind : Kind} {tokens : List String}
    {found : Nat × IndexedEntry} (hf : found ∈ ix.lookup kind tokens) :
    found.2 ∈ ix.latest ∧ found.2.role.foundAs kind ∧ 0 < found.1 ∧ found.1 ≤ tokens.length ∧
      found.2.trigger = tokens.take found.1 := by
  rw [lookup_eq h, List.mem_flatMap] at hf
  obtain ⟨i, hi, hf⟩ := hf
  obtain ⟨e, he, rfl⟩ := List.mem_map.1 hf
  rw [triggered, List.mem_filter, Bool.and_eq_true, beq_iff_eq] at he
  have := List.mem_range.1 (List.mem_reverse.1 hi)
  exact ⟨he.1, he.2.1, Nat.succ_pos i, this, he.2.2⟩

/-- What a look-up finds is a usable entry with a trigger. -/
theorem of_lookup_eq_cons {ix : Index} (h : ix.Arranged) {kind : Kind} {tokens : List String}
    {found : Nat × IndexedEntry} {others : List (Nat × IndexedEntry)}
    (hf : ix.lookup kind tokens = found :: others) : found.2 ∈ ix.latest ∧ 0 < found.1 := by
  have hm : found ∈ ix.lookup kind tokens := by
    rw [hf]
    exact List.mem_cons_self ..
  obtain ⟨he, -, hl, -⟩ := of_mem_lookup h hm
  exact ⟨he, hl⟩

/-- A close delimiter that is found is that of a usable entry, and it begins the tokens. -/
theorem of_matchClose?_eq_some {ix : Index} (h : ix.Arranged) {tokens : List String} {length : Nat}
    (hm : ix.matchClose? tokens = some length) :
    0 < length ∧ length ≤ tokens.length ∧
      ∃ e ∈ ix.latest, e.role.close? = some (tokens.take length) := by
  rw [matchClose?, Option.map_eq_some_iff] at hm
  obtain ⟨⟨length', group⟩, hm, rfl⟩ := hm
  have hf := List.mem_of_mem_head? hm
  rw [TriggerMap.TrieMap.prefixes_eq, List.mem_reverse, List.mem_filterMap] at hf
  obtain ⟨i, hi, hf⟩ := hf
  obtain ⟨group', hg, heq⟩ := Option.map_eq_some_iff.1 hf
  obtain ⟨rfl, rfl⟩ := Prod.mk.inj heq
  obtain ⟨e, he⟩ := h.closers.exists_mem hg
  rw [h.closers.group, List.mem_filter, Bool.and_eq_true, bne_iff_ne, beq_iff_eq] at he
  refine ⟨?_, Nat.le_of_lt_succ (List.mem_range.1 hi), e, he.1, he.2.2⟩
  refine Nat.pos_of_ne_zero fun h0 => he.2.1 ?_
  rw [show i = 0 from h0, List.take_zero]

/-! ## Look-ups in a lexicon

Which entries a look-up finds hangs on the lexicon alone: those of the kind whose trigger begins the
tokens. Where that is one entry, the look-up finds it and nothing else. -/

/-- A usable entry is one with a role. -/
theorem usable?_eq_some_iff {e : Entry} {i : IndexedEntry} :
    usable? e = some i ↔ ∃ role, e.role = .ok role ∧ e.indexed role = i := by
  unfold usable?
  cases e.role <;> simp

/-- An entry with a role is usable, with that role. -/
theorem usable?_of_role {e : Entry} {role : Role} (h : e.role = .ok role) :
    usable? e = some (e.indexed role) :=
  usable?_eq_some_iff.2 ⟨role, h, rfl⟩

/-- A usable entry keeps its name and its trigger. -/
theorem of_usable?_eq_some {e : Entry} {i : IndexedEntry} (h : usable? e = some i) :
    i.name = e.name ∧ i.trigger = e.trigger := by
  obtain ⟨role, -, rfl⟩ := usable?_eq_some_iff.1 h
  exact ⟨rfl, rfl⟩

/-- A matchfix entry needs its two delimiters only. -/
theorem usable?_matchfix {e : Entry} {w c : String} (hk : e.kind = .matchfix)
    (ht : e.trigger = [w]) (hc : e.closeTrigger = [c]) :
    usable? e = some (e.indexed (.matchfix [c])) := by
  refine usable?_of_role ?_
  rw [Entry.role, hk, ht, hc]
  rfl

/-- An operator entry needs its spelling and its precedence only. -/
theorem usable?_operator {e : Entry} {p : Precedence} (ht : e.trigger ≠ [])
    (hp : e.precedence = some p) :
    (e.kind = .prefixOp → usable? e = some (e.indexed (.prefixOp p))) ∧
    (e.kind = .infixOp → usable? e = some (e.indexed (.infixOp p e.associativity))) ∧
    (e.kind = .postfixOp → usable? e = some (e.indexed (.postfixOp p))) := by
  have hne : ¬ e.trigger.isEmpty = true := by
    rw [List.isEmpty_iff]
    exact ht
  refine ⟨fun hk => usable?_of_role ?_, fun hk => usable?_of_role ?_, fun hk => usable?_of_role ?_⟩
  all_goals
    unfold Entry.role
    rw [hk, hp]
    exact if_neg hne

/-- A symbol or a function needs its spelling only. -/
theorem usable?_symbol {e : Entry} (ht : e.trigger ≠ []) :
    (e.kind = .identifier → usable? e = some (e.indexed .identifier)) ∧
    (e.kind = .function → usable? e = some (e.indexed .function)) := by
  have hne : ¬ (e.trigger.isEmpty && e.name.isNone) = true := by
    rw [Bool.and_eq_true, List.isEmpty_iff]
    exact fun h => ht h.1
  refine ⟨fun hk => usable?_of_role ?_, fun hk => usable?_of_role ?_⟩
  all_goals
    unfold Entry.role
    rw [hk]
    exact if_neg hne

/-- Without a routine of its own, an entry parses to its head. -/
theorem parse_indexed {e : Entry} (hp : ∀ handler, e.parse ≠ some (.custom handler)) (r : Role) :
    (e.indexed r).parse = none := by
  unfold Entry.indexed
  dsimp only
  split
  · exact absurd ‹_› (hp _)
  · rfl

/-- An entry without routines parses to its head and renders by its template. -/
theorem indexed_routines {e : Entry} (hp : ∀ handler, e.parse ≠ some (.custom handler))
    (hr : e.render = none) (r : Role) : (e.indexed r).parse = none ∧ (e.indexed r).render = none ∧
      (e.indexed r).template = e.defaultTemplate := by
  refine ⟨parse_indexed hp r, ?_, ?_⟩
  · unfold Entry.indexed
    rw [hr]
  · unfold Entry.indexed
    rw [hr]

/-- The head of an entry with a name is that name. -/
theorem head_indexed {e : Entry} {head : String} (hn : e.name = some head) (r : Role) :
    (e.indexed r).head = head := by
  show (e.name <|> e.aliasName?).getD _ = head
  rw [hn]
  rfl

/-- Whether a usable entry is found as one of a kind before some tokens. -/
def isFound (kind : Kind) (tokens : List String) (e : IndexedEntry) : Bool :=
  e.role.foundAs kind && (e.trigger != [] && e.trigger.isPrefixOf tokens)

/-- The trigger of an entry that is found begins with the first token. -/
theorem of_any_isFound {e : Entry} {kind : Kind} {w : String} {us : List String}
    (h : (usable? e).any (isFound kind (w :: us)) = true) :
    (usable? e).any (·.role.foundAs kind) = true ∧ e.trigger.head? = some w := by
  obtain ⟨i, hi, hf⟩ := (Option.any_eq_true _ _).1 h
  rw [isFound, Bool.and_eq_true, Bool.and_eq_true, (of_usable?_eq_some hi).2] at hf
  refine ⟨by rw [hi]; exact hf.1, ?_⟩
  cases ht : e.trigger with
  | nil =>
    rw [ht] at hf
    exact absurd hf.2.1 (by simp)
  | cons v vs =>
    rw [ht, List.isPrefixOf_cons_cons, Bool.and_eq_true, beq_iff_eq] at hf
    rw [hf.2.2.1]
    rfl

/-- A member that alone has a weaker property is the only one that has the stronger one. -/
theorem filter_of_countP {α : Type} {l : List α} {p q : α → Bool} {a : α} (ha : a ∈ l)
    (hp : p a = true) (hq : ∀ x ∈ l, p x = true → q x = true) (hc : l.countP q = 1) :
    l.filter p = [a] := by
  have hle : l.countP p ≤ l.countP q := List.countP_mono_left hq
  rw [hc, List.countP_eq_length_filter] at hle
  have hm : a ∈ l.filter p := List.mem_filter.2 ⟨ha, hp⟩
  cases hf : l.filter p with
  | nil =>
    rw [hf] at hm
    exact absurd hm List.not_mem_nil
  | cons x xs =>
    rw [hf] at hm hle
    obtain rfl : xs = [] := by
      rw [← List.length_eq_zero_iff]
      rw [List.length_cons] at hle
      omega
    rw [List.mem_singleton.1 hm]

/-- How many entries of a lexicon are found as some kind where a trigger comes next, as long as none
of some tokens comes after it. This can be evaluated. -/
def rivals (lexicon : List Entry) (kind : Kind) (trigger nexts : List String) : Nat :=
  -- few entries have the kind, so only their triggers are compared
  (lexicon.filter fun e => (usable? e).any (·.role.foundAs kind)).countP fun e =>
    e.trigger != [] && (e.trigger.isPrefixOf trigger || trigger.isPrefixOf e.trigger &&
      (e.trigger.drop trigger.length).head?.all fun u => !nexts.contains u)

/-- Rivals are counted among all entries. -/
theorem rivals_eq (lexicon : List Entry) (kind : Kind) (trigger nexts : List String) :
    rivals lexicon kind trigger nexts =
      lexicon.countP fun e => (e.trigger != [] && (e.trigger.isPrefixOf trigger ||
        trigger.isPrefixOf e.trigger &&
          (e.trigger.drop trigger.length).head?.all fun u => !nexts.contains u)) &&
        (usable? e).any (·.role.foundAs kind) :=
  List.countP_filter

/-- An entry that is found where a trigger comes next is a rival for it. -/
theorem isRival_of_isFound {e : Entry} {kind : Kind} {trigger us nexts : List String}
    (h : (usable? e).any (isFound kind (trigger ++ us)) = true) (hus : ∀ u ∈ us.head?, u ∉ nexts) :
    (e.trigger != [] && (e.trigger.isPrefixOf trigger ||
      trigger.isPrefixOf e.trigger &&
        (e.trigger.drop trigger.length).head?.all fun u => !nexts.contains u) &&
      (usable? e).any (·.role.foundAs kind)) = true := by
  obtain ⟨i, hi, hf⟩ := (Option.any_eq_true _ _).1 h
  rw [isFound, Bool.and_eq_true, Bool.and_eq_true, (of_usable?_eq_some hi).2] at hf
  obtain ⟨hkind, hne, hp⟩ := hf
  rw [hi, Option.any_some, hkind, hne, Bool.true_and, Bool.and_true, Bool.or_eq_true,
    Bool.and_eq_true]
  rcases List.prefix_or_prefix_of_prefix (List.isPrefixOf_iff_prefix.1 hp)
    (List.prefix_append trigger us) with hle | hge
  · exact Or.inl (List.isPrefixOf_iff_prefix.2 hle)
  · -- a longer trigger would need the next token
    obtain ⟨vs, hvs⟩ := hge
    right
    refine ⟨List.isPrefixOf_iff_prefix.2 ⟨vs, hvs⟩, ?_⟩
    rw [← hvs, List.drop_left]
    rw [← hvs, List.isPrefixOf_iff_prefix, List.prefix_append_right_inj] at hp
    cases vs with
    | nil => rfl
    | cons v vs =>
      obtain ⟨ws, rfl⟩ := hp
      rw [List.head?_cons, Option.all_some, Bool.not_eq_true', ← Bool.not_eq_true,
        List.contains_iff_mem]
      exact hus v rfl

/-- Without rivals, the entry of a trigger is the only one that is found there. -/
theorem filter_of_rivals {lexicon : List Entry} {kind : Kind} {e : Entry} {i : IndexedEntry}
    (he : e ∈ lexicon) (hi : usable? e = some i) (hk : i.role.foundAs kind = true)
    (ht : e.trigger ≠ []) {nexts : List String} (hr : rivals lexicon kind e.trigger nexts = 1)
    {us : List String} (hus : ∀ u ∈ us.head?, u ∉ nexts) :
    lexicon.filter (fun x => (usable? x).any (isFound kind (e.trigger ++ us))) = [e] := by
  rw [rivals_eq] at hr
  refine filter_of_countP he ?_ (fun x _ hx => isRival_of_isFound hx hus) hr
  rw [hi, Option.any_some, isFound, hk, (of_usable?_eq_some hi).2, bne_iff_ne.2 ht,
    List.isPrefixOf_iff_prefix.2 (List.prefix_append _ _)]
  rfl

/-- The entries of a prefix are among those that are found, by the length of their triggers. -/
theorem triggered_take (ix : Index) (kind : Kind) {tokens : List String} {k : Nat}
    (hk : k < tokens.length) :
    ix.triggered kind (tokens.take (k + 1)) =
      (ix.latest.filter (isFound kind tokens)).filter (·.trigger == tokens.take (k + 1)) := by
  rw [triggered, List.filter_filter]
  refine List.filter_congr fun e _ => ?_
  by_cases ht : e.trigger = tokens.take (k + 1)
  · have hne : tokens.take (k + 1) ≠ [] := by
      rw [Ne, List.take_eq_nil_iff]
      rintro (h | h)
      · omega
      · rw [h] at hk
        exact absurd hk (by simp)
    have hp : (tokens.take (k + 1)).isPrefixOf tokens = true := by
      rw [List.isPrefixOf_iff_prefix]
      exact List.take_prefix _ _
    rw [isFound, ht, hp, bne_iff_ne.2 hne, beq_self_eq_true]
    simp only [Bool.and_true, Bool.true_and]
  · rw [beq_eq_false_iff_ne.2 ht, Bool.and_false, Bool.false_and]

/-- A sum over positions of which only one counts. -/
theorem flatMap_range_of_unique {β : Type} {f : Nat → List β} {k n : Nat} (hk : k < n)
    (hf : ∀ i < n, i ≠ k → f i = []) : (List.range n).reverse.flatMap f = f k := by
  induction n with
  | zero => omega
  | succ n ih =>
    rw [List.range_succ, List.reverse_append, List.reverse_singleton, List.flatMap_append,
      List.flatMap_singleton]
    by_cases hn : k = n
    · have hrest : (List.range n).reverse.flatMap f = [] := by
        refine List.flatMap_eq_nil_iff.2 fun i hi => ?_
        have hi := List.mem_range.1 (List.mem_reverse.1 hi)
        exact hf i (by omega) (by omega)
      rw [hrest, List.append_nil, hn]
    · rw [hf n (by omega) (fun h => hn h.symm), List.nil_append]
      exact ih (by omega) fun i hi => hf i (by omega)

/-- Where no entry is found, the look-up gives none. -/
theorem lookup_of_found_nil {ix : Index} (h : ix.Arranged) {kind : Kind} {tokens : List String}
    (hf : ix.latest.filter (isFound kind tokens) = []) : ix.lookup kind tokens = [] := by
  rw [lookup_eq h]
  refine List.flatMap_eq_nil_iff.2 fun k hk => ?_
  rw [triggered_take ix kind (List.mem_range.1 (List.mem_reverse.1 hk)), hf]
  rfl

/-- Where one entry is found, the look-up gives that one with its length. -/
theorem lookup_of_found_singleton {ix : Index} (h : ix.Arranged) {kind : Kind}
    {tokens : List String} {e : IndexedEntry}
    (hf : ix.latest.filter (isFound kind tokens) = [e]) :
    ix.lookup kind tokens = [(e.trigger.length, e)] := by
  have hfound : isFound kind tokens e = true := by
    have : e ∈ ix.latest.filter (isFound kind tokens) := by rw [hf]; exact List.mem_singleton_self e
    exact (List.mem_filter.1 this).2
  rw [isFound, Bool.and_eq_true, Bool.and_eq_true, bne_iff_ne, List.isPrefixOf_iff_prefix] at hfound
  obtain ⟨-, hne, hpre⟩ := hfound
  have hpos := List.length_pos_iff.2 hne
  have hle := hpre.length_le
  have htake := List.prefix_iff_eq_take.1 hpre
  have hk : e.trigger.length - 1 + 1 = e.trigger.length := by omega
  -- only the length of its own trigger leads to the entry
  rw [lookup_eq h, @flatMap_range_of_unique _ _ (e.trigger.length - 1) _ (by omega)]
  · rw [triggered_take ix kind (by omega), hf, hk, ← htake, List.filter_singleton,
      beq_self_eq_true]
    rfl
  · intro k hk' hne
    rw [triggered_take ix kind hk', hf, List.filter_singleton, beq_eq_false_iff_ne.2]
    · rfl
    · intro heq
      have := congrArg List.length heq
      rw [List.length_take] at this
      omega

/-- The latest entries with a property come from the entries of the lexicon that get it. -/
theorem latest_filter (lexicon : List Entry) (p : IndexedEntry → Bool) :
    (ofEntries lexicon).1.latest.filter p =
      ((lexicon.filter fun e => (usable? e).any p).filterMap usable?).reverse := by
  rw [latest_ofEntries, List.filter_reverse, List.filter_filterMap, List.filterMap_filter]
  congr 1
  refine List.filterMap_congr fun e _ => ?_
  cases usable? e with
  | none => rfl
  | some i => cases hp : p i <;> simp [hp]

/-- No entry of the kind begins the tokens. -/
theorem lookup_ofEntries_nil {lexicon : List Entry} {kind : Kind} {tokens : List String}
    (h : lexicon.filter (fun e => (usable? e).any (isFound kind tokens)) = []) :
    (ofEntries lexicon).1.lookup kind tokens = [] := by
  refine lookup_of_found_nil (arranged_ofEntries lexicon) ?_
  rw [latest_filter, h]
  rfl

/-- One entry of the kind begins the tokens. -/
theorem lookup_ofEntries_singleton {lexicon : List Entry} {kind : Kind} {tokens : List String}
    {e : Entry} {i : IndexedEntry} (hi : usable? e = some i)
    (h : lexicon.filter (fun e => (usable? e).any (isFound kind tokens)) = [e]) :
    (ofEntries lexicon).1.lookup kind tokens = [(i.trigger.length, i)] := by
  refine lookup_of_found_singleton (arranged_ofEntries lexicon) ?_
  rw [latest_filter, h, List.filterMap_cons, hi]
  rfl

/-- The only entry of the kind whose trigger is there. -/
theorem lookup_of_rivals {lexicon : List Entry} {kind : Kind} {e : Entry} {i : IndexedEntry}
    (he : e ∈ lexicon) (hi : usable? e = some i) (hk : i.role.foundAs kind = true)
    (ht : e.trigger ≠ []) {nexts : List String} (hr : rivals lexicon kind e.trigger nexts = 1)
    {us : List String} (hus : ∀ u ∈ us.head?, u ∉ nexts) :
    (ofEntries lexicon).1.lookup kind (e.trigger ++ us) = [(e.trigger.length, i)] := by
  rw [lookup_ofEntries_singleton hi (filter_of_rivals he hi hk ht hr hus),
    (of_usable?_eq_some hi).2]

/-- Without any rival, nothing is found where the trigger comes next. -/
theorem lookup_of_no_rivals {lexicon : List Entry} {kind : Kind} {trigger nexts : List String}
    (hr : rivals lexicon kind trigger nexts = 0) {us : List String}
    (hus : ∀ u ∈ us.head?, u ∉ nexts) : (ofEntries lexicon).1.lookup kind (trigger ++ us) = [] := by
  rw [rivals_eq] at hr
  refine lookup_ofEntries_nil (List.filter_eq_nil_iff.2 fun e he hf => ?_)
  exact List.countP_eq_zero.1 hr e he (isRival_of_isFound hf hus)

/-- No trigger of a lexicon begins with the token. -/
def Foreign (lexicon : List Entry) (w : String) : Prop :=
  ∀ e ∈ lexicon, e.trigger.head? ≠ some w

/-- A foreign word begins no trigger of an entry. -/
theorem filter_of_foreign {lexicon : List Entry} {w : String} (hw : Foreign lexicon w) (kind : Kind)
    (us : List String) :
    lexicon.filter (fun e => (usable? e).any (isFound kind (w :: us))) = [] :=
  List.filter_eq_nil_iff.2 fun e he hf => hw e he (of_any_isFound hf).2

/-- Nothing is found before a foreign word. -/
theorem lookup_of_foreign {lexicon : List Entry} {w : String} (hw : Foreign lexicon w) (kind : Kind)
    (us : List String) : (ofEntries lexicon).1.lookup kind (w :: us) = [] :=
  lookup_ofEntries_nil (filter_of_foreign hw kind us)

/-- Letters are foreign to a lexicon without a trigger that begins with one. -/
theorem foreign_letter {lexicon : List Entry} (h : (lexicon.all fun e => e.trigger.head?.all fun w =>
    w.toList.length != 1 || !w.toList.all Char.isAlpha) = true) {c : Char}
    (hc : c.isAlpha = true) : Foreign lexicon (String.ofList [c]) := by
  intro e he hw
  have := List.all_eq_true.1 h e he
  rw [hw, Option.all_some, String.toList_ofList] at this
  simp [hc] at this

/-- A name that no entry has is not found. -/
theorem byName?_of_not_named {lexicon : List Entry} {name : String}
    (h : ∀ e ∈ lexicon, e.name ≠ some name) : (ofEntries lexicon).1.byName? name = none := by
  rw [(arranged_ofEntries lexicon).names.byName, ← List.head?_filter, latest_filter,
    List.filter_eq_nil_iff.2]
  · rfl
  · intro e he hf
    obtain ⟨i, hi, hname⟩ := (Option.any_eq_true _ _).1 hf
    rw [(of_usable?_eq_some hi).1, beq_iff_eq] at hname
    exact h e he hname

/-- A name that one usable entry has is found as that entry. -/
theorem byName?_ofEntries_singleton {lexicon : List Entry} {name : String} {e : Entry}
    {i : IndexedEntry} (hi : usable? e = some i)
    (h : lexicon.filter (fun e => (usable? e).any (·.name == some name)) = [e]) :
    (ofEntries lexicon).1.byName? name = some i := by
  rw [(arranged_ofEntries lexicon).names.byName, ← List.head?_filter, latest_filter, h,
    List.filterMap_cons, hi]
  rfl

/-- A name that is counted once is found as the entry that has it. -/
theorem byName?_of_countP {lexicon : List Entry} {name : String} {e : Entry} {i : IndexedEntry}
    (he : e ∈ lexicon) (hi : usable? e = some i) (hn : e.name = some name)
    (hc : lexicon.countP (·.name == some name) = 1) :
    (ofEntries lexicon).1.byName? name = some i := by
  refine byName?_ofEntries_singleton hi (filter_of_countP he ?_ (fun x _ hx => ?_) hc)
  · rw [hi, Option.any_some, (of_usable?_eq_some hi).1, hn, beq_self_eq_true]
  · obtain ⟨j, hj, hname⟩ := (Option.any_eq_true _ _).1 hx
    rw [← (of_usable?_eq_some hj).1]
    exact hname

end Index
end MathMarkup
