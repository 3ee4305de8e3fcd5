import MathMarkup.Proofs.Bare

/-!
# What a reading passes over

Environments open and close along the tokens like the blocks of a program: `Parser.Environments`
runs over some tokens from the left with the names of those that are open, and says which are open
at the end. What a reading passes over keeps this in order, if what it gives is sound, that is
without error nodes (`Reading.Tracks`): from any environments that are open, a run over the tokens
after the reading extends to one over those before it.

A reading that declines goes back to where it began and leaves numbers that it has cut. For that the
tokens behind the cursor must be those that were passed (`Parser.Passes`), and cuts must change no
run (`Parser.Environments.of_splits`).
-/

namespace MathMarkup

/-- The token begins or ends an environment. -/
def Token.Bounds (t : Token) : Prop :=
  t.kind = .command ∧ (t.raw = "\\begin" ∨ t.raw = "\\end")

/-- None of the raw texts is that of a command that begins or ends an environment. -/
def Token.Boundless (raws : List String) : Prop :=
  "\\begin" ∉ raws ∧ "\\end" ∉ raws

instance (raws : List String) : Decidable (Token.Boundless raws) :=
  inferInstanceAs (Decidable (_ ∧ _))

/-- Only commands begin or end environments. -/
theorem Token.not_bounds_of_kind {t : Token} (h : t.kind ≠ .command) : ¬ t.Bounds :=
  fun hb => h hb.1

/-- A token whose text is among boundless ones begins and ends no environment. -/
theorem Token.not_bounds_of_boundless {raws : List String} (h : Boundless raws) {t : Token}
    (ht : t.raw ∈ raws) : ¬ t.Bounds := by
  rintro ⟨-, hraw | hraw⟩
  · exact h.1 (hraw ▸ ht)
  · exact h.2 (hraw ▸ ht)

/-- One number of digits is cut in two. -/
def Token.CutsOnce (before after : List Token) : Prop :=
  ∃ left right first rest, (first ++ rest).toList.all Char.isDigit = true ∧
    before = left ++ ⟨first ++ rest, .number⟩ :: right ∧
    after = left ++ ⟨first, .number⟩ :: ⟨rest, .number⟩ :: right

/-- Some numbers of digits are cut into several. -/
def Token.Cuts : List Token → List Token → Prop :=
  Relation.ReflTransGen Token.CutsOnce

namespace Parser

/-! ## Environments along the tokens -/

/-- A run over some tokens from the left, from the names of the environments that are open to those
of the environments that are open at the end, the innermost first. Like the parser it goes by the
raw text of a begin command, which an environment of the lexicon must follow. What name an end
command may close is left open. -/
inductive Environments (ix : Index) (closes : String → Option String → Prop) :
    List String → List Token → List String → Prop where
  | nil (opened : List String) : Environments ix closes opened [] opened
  | begins {t : Token} {ts : List Token} {opened left : List String} {name : String} {length : Nat}
      (ht : t.raw = "\\begin")
      (hn : environmentName ts = (some name, length)) (hx : ix.environments name ≠ [])
      (h : Environments ix closes (name :: opened) (ts.drop length) left) :
      Environments ix closes opened (t :: ts) left
  | ends {ts : List Token} {opened left : List String} {name : String}
      (hc : closes name (environmentName ts).1)
      (h : Environments ix closes opened (ts.drop (environmentName ts).2) left) :
      Environments ix closes (name :: opened) (⟨"\\end", .command⟩ :: ts) left
  | other {t : Token} {ts : List Token} {opened left : List String} (ht : ¬ t.Bounds)
      (h : Environments ix closes opened ts left) : Environments ix closes opened (t :: ts) left

variable {ix : Index} {closes : String → Option String → Prop} {opened left : List String}

/-- Tokens in front that begin and end no environment leave the run as it is. -/
theorem Environments.append {ts us : List Token} (hts : ∀ t ∈ ts, ¬ t.Bounds)
    (h : Environments ix closes opened us left) :
    Environments ix closes opened (ts ++ us) left := by
  induction ts with
  | nil => exact h
  | cons t ts ih =>
    rw [List.forall_mem_cons] at hts
    exact .other hts.1 (ih hts.2)

/-- Without begin and end commands everything that is open stays open. -/
theorem Environments.left_eq {ts : List Token} (h : Environments ix closes opened ts left)
    (hts : ∀ t ∈ ts, t.raw ≠ "\\begin" ∧ t.raw ≠ "\\end") : opened = left := by
  induction ts with
  | nil =>
    cases h
    rfl
  | cons t ts ih =>
    rw [List.forall_mem_cons] at hts
    cases h with
    | begins hraw => exact absurd hraw hts.1.1
    | ends => exact absurd rfl hts.1.2
    | other _ h => exact ih h hts.2

/-! ## Environments and cuts -/

/-- Where a cut is made, the first token stays, or it is the front piece itself. -/
theorem uncons_of_cutsOnce {u : Token} {ts us : List Token} (h : Token.CutsOnce ts (u :: us)) :
    (∃ ts', ts = u :: ts' ∧ Token.CutsOnce ts' us) ∨
      ∃ first rest right, (first ++ rest).toList.all Char.isDigit = true ∧
        u = ⟨first, .number⟩ ∧ us = ⟨rest, .number⟩ :: right ∧
        ts = ⟨first ++ rest, .number⟩ :: right := by
  obtain ⟨before, right, first, rest, hd, rfl, hus⟩ := h
  cases before with
  | nil =>
    obtain ⟨rfl, rfl⟩ := List.cons.inj hus
    exact Or.inr ⟨first, rest, right, hd, rfl, rfl, rfl⟩
  | cons b before =>
    obtain ⟨rfl, rfl⟩ := List.cons.inj hus
    exact Or.inl ⟨_, rfl, before, right, first, rest, hd, rfl, rfl⟩

/-- A cut leaves two pieces, so it cannot leave nothing. -/
theorem not_cutsOnce_nil {ts : List Token} : ¬ Token.CutsOnce ts [] := by
  rintro ⟨before, right, first, rest, -, -, h⟩
  exact absurd h.symm (by simp)

/-- Digits spell no command and no brace. -/
theorem ne_of_all_isDigit {s t : String} (h : s.toList.all Char.isDigit = true)
    (ht : t.toList.all Char.isDigit = false) : s ≠ t := by
  rintro rfl
  exact absurd (h.symm.trans ht) Bool.noConfusion

/-- A number within the braces is a part of the name of an environment. -/
theorem environmentNameFrom_number (name raw : String) (ts : List Token) :
    environmentNameFrom name (⟨raw, .number⟩ :: ts) =
      ((environmentNameFrom (name ++ raw) ts).1, (environmentNameFrom (name ++ raw) ts).2 + 1) :=
  rfl

/-- The rest of a name does not tell whether a number in it was cut, and what comes after it was cut
only if the name was not. -/
theorem environmentNameFrom_of_cutsOnce (name : String) {ts us : List Token}
    (h : Token.CutsOnce ts us) :
    (environmentNameFrom name us).1 = (environmentNameFrom name ts).1 ∧
      (us.drop (environmentNameFrom name us).2 = ts.drop (environmentNameFrom name ts).2 ∨
        Token.CutsOnce (ts.drop (environmentNameFrom name ts).2)
          (us.drop (environmentNameFrom name us).2)) := by
  induction us generalizing name ts with
  | nil => exact absurd h not_cutsOnce_nil
  | cons u us ih =>
    rcases uncons_of_cutsOnce h with ⟨ts', rfl, hts⟩ | ⟨first, rest, right, -, rfl, rfl, rfl⟩
    · rw [environmentNameFrom, environmentNameFrom]
      split
      · exact ⟨rfl, Or.inr hts⟩
      · exact ⟨rfl, Or.inr hts⟩
      · exact ih _ hts
    · rw [environmentNameFrom_number, environmentNameFrom_number, environmentNameFrom_number,
        String.append_assoc]
      exact ⟨rfl, Or.inl rfl⟩

/-- A cut number in the name of an environment spells the same name, a token longer. -/
theorem environmentName_of_cutsOnce {ts us : List Token} (h : Token.CutsOnce ts us) :
    (environmentName us).1 = (environmentName ts).1 ∧
      (us.drop (environmentName us).2 = ts.drop (environmentName ts).2 ∨
        Token.CutsOnce (ts.drop (environmentName ts).2) (us.drop (environmentName us).2)) := by
  cases us with
  | nil => exact absurd h not_cutsOnce_nil
  | cons u us =>
    rcases uncons_of_cutsOnce h with ⟨ts', rfl, hts⟩ | ⟨first, rest, right, hd, rfl, rfl, rfl⟩
    · rw [environmentName, environmentName]
      split
      · exact environmentNameFrom_of_cutsOnce "" hts
      · exact ⟨rfl, Or.inr h⟩
    · -- digits are no opening brace, so there is no name
      have hfirst : first.toList.all Char.isDigit = true := by
        rw [String.toList_append, List.all_append, Bool.and_eq_true] at hd
        exact hd.1
      rw [environmentName, environmentName, if_neg (ne_of_all_isDigit hfirst (by decide)),
        if_neg (ne_of_all_isDigit hd (by decide))]
      exact ⟨rfl, Or.inr h⟩

/-- Cutting a number changes no run. -/
theorem Environments.of_cutsOnce {ts us : List Token} (h : Environments ix closes opened us left)
    (hs : Token.CutsOnce ts us) : Environments ix closes opened ts left := by
  induction h generalizing ts with
  | nil => exact absurd hs not_cutsOnce_nil
  | @begins t us opened left name length ht hn hx h ih =>
    rcases uncons_of_cutsOnce hs with ⟨ts', rfl, hts⟩ | ⟨first, rest, right, hd, rfl, rfl, rfl⟩
    · obtain ⟨hname, hdrop⟩ := environmentName_of_cutsOnce hts
      rw [hn] at hname hdrop
      have hn' : environmentName ts' = (some name, (environmentName ts').2) :=
        Prod.ext hname.symm rfl
      refine .begins ht hn' hx ?_
      rcases hdrop with heq | hcut
      · rw [← heq]
        exact h
      · exact ih hcut
    · -- no begin command is the first part of a number
      have hfirst : first.toList.all Char.isDigit = true := by
        rw [String.toList_append, List.all_append, Bool.and_eq_true] at hd
        exact hd.1
      exact absurd ht (ne_of_all_isDigit hfirst (by decide))
  | @ends us opened left name hc h ih =>
    rcases uncons_of_cutsOnce hs with ⟨ts', rfl, hts⟩ | ⟨first, rest, right, -, hu, -⟩
    · obtain ⟨hname, hdrop⟩ := environmentName_of_cutsOnce hts
      refine .ends (hname ▸ hc) ?_
      rcases hdrop with heq | hcut
      · rw [← heq]
        exact h
      · exact ih hcut
    · cases hu
  | @other t us opened left ht h ih =>
    rcases uncons_of_cutsOnce hs with ⟨ts', rfl, hts⟩ | ⟨first, rest, right, hd, rfl, rfl, rfl⟩
    · exact .other ht (ih hts)
    · -- the second part of the number is no command either
      refine .other (Token.not_bounds_of_kind nofun) ?_
      cases h with
      | begins hraw =>
        have hrest : rest.toList.all Char.isDigit = true := by
          rw [String.toList_append, List.all_append, Bool.and_eq_true] at hd
          exact hd.2
        exact absurd hraw (ne_of_all_isDigit hrest (by decide))
      | other _ h => exact h

/-- A run over tokens that were cut is one over the tokens before the cuts. -/
theorem Environments.of_cuts {ts us : List Token} (h : Environments ix closes opened us left)
    (hs : Token.Cuts ts us) : Environments ix closes opened ts left := by
  induction hs with
  | refl => exact h
  | tail _ hcut ih => exact ih (h.of_cutsOnce hcut)

/-- From some environments that are open there is a run over the tokens, whatever names the end
commands give. -/
def Closable (ix : Index) (opened : List String) (ts : List Token) : Prop :=
  ∃ left, Environments ix (fun _ _ => True) opened ts left

/-- Tokens in front that begin and end no environment can be passed. -/
theorem Closable.append {ts us : List Token} (hts : ∀ t ∈ ts, ¬ t.Bounds)
    (h : Closable ix opened us) : Closable ix opened (ts ++ us) := by
  obtain ⟨left, hrun⟩ := h
  exact ⟨left, hrun.append hts⟩

/-- What can be closed after some cuts can be closed before them. -/
theorem Closable.of_cuts {ts us : List Token} (h : Closable ix opened us)
    (hs : Token.Cuts ts us) : Closable ix opened ts := by
  obtain ⟨left, hrun⟩ := h
  exact ⟨left, hrun.of_cuts hs⟩

/-! ## What stays at the front -/

/-- None of the first tokens begins or ends an environment. -/
def FrontClear (k : Nat) (ts : List Token) : Prop :=
  ∀ t ∈ ts.take k, ¬ t.Bounds

/-- The first token alone. -/
theorem frontClear_one {ts : List Token} {t : Token} (h : ts.head? = some t)
    (ht : ¬ t.Bounds) : FrontClear 1 ts := by
  cases ts with
  | nil => cases h
  | cons u ts =>
    obtain rfl := Option.some.inj h
    exact fun v hv => List.mem_singleton.1 hv ▸ ht

/-- Where some raw texts come next that are not those of such a command. -/
theorem frontClear_of_raws {ts : List Token} {raws : List String} (hb : Token.Boundless raws)
    (h : Token.raws (ts.take raws.length) = raws) : FrontClear raws.length ts := by
  intro t ht
  have hraw : t.raw ∈ raws := h ▸ List.mem_map_of_mem ht
  exact Token.not_bounds_of_boundless hb hraw

/-- The pieces of a number begin and end no environment. -/
theorem FrontClear.of_cutsOnce {k : Nat} {ts us : List Token} (h : FrontClear k ts)
    (hs : Token.CutsOnce ts us) : FrontClear k us := by
  induction us generalizing k ts with
  | nil => exact absurd hs not_cutsOnce_nil
  | cons u us ih =>
    cases k with
    | zero => exact fun _ ht => absurd ht List.not_mem_nil
    | succ k =>
      rcases uncons_of_cutsOnce hs with ⟨ts', rfl, hts⟩ | ⟨first, rest, right, -, rfl, rfl, rfl⟩
      · rw [FrontClear, List.take_succ_cons, List.forall_mem_cons] at h ⊢
        exact ⟨h.1, ih h.2 hts⟩
      · -- both parts are numbers, and the tokens behind them have moved on
        rw [FrontClear, List.take_succ_cons, List.forall_mem_cons] at h ⊢
        refine ⟨Token.not_bounds_of_kind nofun, fun t ht => ?_⟩
        cases k with
        | zero => exact absurd ht List.not_mem_nil
        | succ k =>
          rcases List.mem_cons.1 ht with rfl | ht
          · exact Token.not_bounds_of_kind nofun
          · exact h.2 t (List.take_subset_take_left right (Nat.le_succ k) ht)

/-- However often numbers are cut, the first tokens stay clear. -/
theorem FrontClear.of_cuts {k : Nat} {ts us : List Token} (h : FrontClear k ts)
    (hs : Token.Cuts ts us) : FrontClear k us := by
  induction hs with
  | refl => exact h
  | tail _ hcut ih => exact ih.of_cutsOnce hcut

/-- A cut does not touch a first token that is no number. -/
theorem head?_of_cuts {ts us : List Token} {t : Token} (hk : t.kind ≠ .number)
    (h : ts.head? = some t) (hs : Token.Cuts ts us) : us.head? = some t := by
  induction hs with
  | refl => exact h
  | @tail vs us _ hcut ih =>
    cases us with
    | nil => exact absurd hcut not_cutsOnce_nil
    | cons u us =>
      rcases uncons_of_cutsOnce hcut with ⟨ts', rfl, -⟩ | ⟨first, rest, right, -, -, -, rfl⟩
      · exact ih
      · rw [← Option.some.inj ih] at hk
        exact absurd rfl hk

/-! ## The tokens that are passed -/

/-- The second state comes after the first one in a parse that has passed some tokens, pieces of
numbers among them. -/
structure Passes (passed : List Token) (p q : Parser) : Prop where
  behind : q.behind = passed.reverse ++ p.behind
  ahead : Token.Cuts p.ahead (passed ++ q.ahead)

/-- A cut behind some tokens is one with them in front. -/
theorem cutsOnce_append_left (before : List Token) {ts us : List Token}
    (h : Token.CutsOnce ts us) : Token.CutsOnce (before ++ ts) (before ++ us) := by
  obtain ⟨left, right, first, rest, hd, rfl, rfl⟩ := h
  exact ⟨before ++ left, right, first, rest, hd, by rw [List.append_assoc],
    by rw [List.append_assoc]⟩

/-- Cuts behind some tokens are ones with them in front. -/
theorem cuts_append_left (before : List Token) {ts us : List Token} (h : Token.Cuts ts us) :
    Token.Cuts (before ++ ts) (before ++ us) := by
  induction h with
  | refl => exact .refl
  | tail _ hcut ih => exact .tail ih (cutsOnce_append_left before hcut)

/-- Where both sides of the cursor are the same, nothing was passed. -/
theorem passes_of_sides {p q : Parser} (hb : q.behind = p.behind) (ha : q.ahead = p.ahead) :
    Passes [] p q :=
  ⟨hb, by rw [ha]; exact .refl⟩

/-- What is passed in two steps is passed in one, in a row. -/
theorem Passes.trans {ts us : List Token} {p q r : Parser} (h₁ : Passes ts p q)
    (h₂ : Passes us q r) : Passes (ts ++ us) p r where
  behind := by rw [h₂.behind, h₁.behind, List.reverse_append, List.append_assoc]
  ahead := by
    rw [List.append_assoc]
    exact Relation.ReflTransGen.trans h₁.ahead (cuts_append_left ts h₂.ahead)

/-- Moving on by one token drops that token. -/
theorem ahead_advance_one {p : Parser} {t : Token} {ts : List Token} (h : p.ahead = t :: ts) :
    (p.advance 1).ahead = ts := by
  show p.ahead.drop 1 = ts
  rw [h]
  rfl

/-- Moving on passes the tokens that come next. -/
theorem passes_advance (k : Nat) (p : Parser) : Passes (p.ahead.take k) p (p.advance k) :=
  ⟨rfl, by
    show Token.Cuts p.ahead (p.ahead.take k ++ p.ahead.drop k)
    rw [List.take_append_drop]
    exact .refl⟩

/-- Going back puts the tokens that were passed in front of those ahead. -/
theorem Passes.sides_seek {ts : List Token} {p q : Parser} (h : Passes ts p q) :
    (q.seek p.index).behind = p.behind ∧ (q.seek p.index).ahead = ts ++ q.ahead := by
  have hi : q.index = ts.length + p.index := by
    rw [Parser.index, h.behind, List.length_append, List.length_reverse]
    rfl
  have hlen : ts.reverse.length = ts.length := List.length_reverse
  rw [Parser.seek, if_pos (by omega), hi, Nat.add_sub_cancel]
  constructor
  · show q.behind.drop ts.length = p.behind
    rw [h.behind, ← hlen, List.drop_left]
  · show (q.behind.take ts.length).reverse ++ q.ahead = ts ++ q.ahead
    rw [h.behind, ← hlen, List.take_left, List.reverse_reverse]

/-- Going back leads to the tokens that were passed. -/
theorem Passes.seek {ts : List Token} {p q : Parser} (h : Passes ts p q) :
    Passes [] p (q.seek p.index) := by
  obtain ⟨hbehind, hahead⟩ := h.sides_seek
  refine ⟨hbehind, ?_⟩
  rw [hahead]
  exact h.ahead

end Parser

namespace Reading

open MathMarkup.Parser

variable {α β : Type} {ix : Index} {n : Nat} {pre : List Token → Prop} {ok : α → Prop}
  {okay : β → Prop}

/-! ## Readings that pass tokens -/

/-- A reading that passes tokens, whatever it gives. -/
structure Passing (n : Nat) (r : Reading α) : Prop where
  conserves : Conserves n r
  passes : ∀ p : Parser, p.AtLevel n → ∃ passed, Passes passed p (r p).2

/-- A reading that moves neither side of the cursor passes nothing. -/
theorem passing_of_sides {r : Reading α} (hc : Conserves n r)
    (h : ∀ p, (r p).2.behind = p.behind ∧ (r p).2.ahead = p.ahead) : Passing n r :=
  ⟨hc, fun p _ => ⟨[], passes_of_sides (h p).1 (h p).2⟩⟩

theorem passing_of_state {r : Reading α} (h : ∀ p, (r p).2 = p) : Passing n r :=
  passing_of_sides (conserves_of_state h) fun p => by rw [h p]; exact ⟨rfl, rfl⟩

theorem passing_pure (a : α) : Passing n (pure a : Reading α) :=
  passing_of_state fun _ => rfl

/-- What readings in a row pass is passed in a row. -/
theorem passing_bind {r : Reading α} {f : α → Reading β} (hr : Passing n r)
    (hf : ∀ a, Passing n (f a)) : Passing n (r >>= f) where
  conserves := conserves_bind hr.conserves fun a => (hf a).conserves
  passes p hp := by
    obtain ⟨ts, hts⟩ := hr.passes p hp
    obtain ⟨us, hus⟩ := (hf (r p).1).passes _ (hr.conserves.atLevel hp)
    exact ⟨ts ++ us, hts.trans hus⟩

theorem passing_advance (k : Nat) : Passing n (advance k) :=
  ⟨conserves_advance k, fun p _ => ⟨_, passes_advance k p⟩⟩

/-- A step that is taken back when it fails passes its tokens, or none but in pieces. -/
theorem passing_rewinding {step : Reading (Option α)} (h : Passing n step) :
    Passing n (rewinding step) where
  conserves := conserves_rewinding h.conserves
  passes p hp := by
    have hpass := h.passes p hp
    rcases hs : step p with ⟨o, q⟩
    rw [hs] at hpass
    obtain ⟨ts, hts⟩ := hpass
    cases o with
    | some a => rw [rewinding_of_some hs]; exact ⟨ts, hts⟩
    | none => rw [rewinding_of_none hs]; exact ⟨[], hts.seek⟩

/-- A loop passes what its rounds pass, by induction on the slack. -/
theorem passing_loop {round : α → Reading (α × Bool)} (h : ∀ a, Passing n (round a)) (a : α) :
    Passing n (loop round a) where
  conserves := conserves_loop (fun a => (h a).conserves) a
  passes p hp := by
    induction a, p using loop_induction round with
    | last a p b again q heq hloop =>
      have hpass := (h a).passes p hp
      rw [heq] at hpass
      rw [hloop]
      exact hpass
    | again a p b q heq hloop ih =>
      have hpass := (h a).passes p hp
      have hp' := (h a).conserves.atLevel hp
      rw [heq] at hpass hp'
      rw [hloop]
      obtain ⟨ts, hts⟩ := hpass
      obtain ⟨us, hus⟩ := ih hp'
      exact ⟨ts ++ us, hts.trans hus⟩

/-- A reading that goes back to where it began when it declines. -/
def Returns (n : Nat) (r : Reading (Option α)) : Prop :=
  ∀ p : Parser, p.AtLevel n → (r p).1 = none → Passes [] p (r p).2

theorem returns_none : Returns n (pure none : Reading (Option α)) :=
  fun _ _ _ => passes_of_sides rfl rfl

/-- What is taken back when it fails is back at its beginning. -/
theorem returns_rewinding {step : Reading (Option α)} (h : Passing n step) :
    Returns n (rewinding step) := by
  intro p hp hnone
  obtain ⟨ts, hts⟩ := h.passes p hp
  rcases hs : step p with ⟨_ | a, q⟩
  · rw [hs] at hts
    rw [rewinding_of_none hs]
    exact hts.seek
  · rw [rewinding_of_some hs] at hnone
    exact absurd hnone (Option.some_ne_none a)

/-! ## Readings that keep environments in order -/

/-- A reading that passes tokens and, wherever the tokens ahead are of some sort and what it gives
is sound, keeps the environments in order: a run over the tokens behind it extends to one over those
before it. -/
structure TracksFrom (ix : Index) (n : Nat) (pre : List Token → Prop) (ok : α → Prop)
    (r : Reading α) : Prop extends Passing n r where
  closable : ∀ p : Parser, p.AtLevel n → pre p.ahead → ok (r p).1 → ∀ opened,
    Closable ix opened (r p).2.ahead → Closable ix opened p.ahead

/-- Such a reading wherever it begins. -/
abbrev Tracks (ix : Index) (n : Nat) (ok : α → Prop) (r : Reading α) : Prop :=
  TracksFrom ix n (fun _ => True) ok r

/-- What holds wherever the reading begins holds before some tokens. -/
theorem TracksFrom.from {r : Reading α} (h : Tracks ix n ok r) : TracksFrom ix n pre ok r :=
  ⟨h.toPassing, fun p hp _ => h.closable p hp trivial⟩

/-- Fewer beginnings and fewer results that count ask for less. -/
theorem TracksFrom.mono {pre' : List Token → Prop} {ok' : α → Prop} {r : Reading α}
    (h : TracksFrom ix n pre ok r) (hpre : ∀ ts, pre' ts → pre ts) (hok : ∀ a, ok' a → ok a) :
    TracksFrom ix n pre' ok' r :=
  ⟨h.toPassing, fun p hp hts ha => h.closable p hp (hpre _ hts) (hok _ ha)⟩

/-- What is never sound keeps nothing in order. -/
theorem tracks_of_unsound {r : Reading α} (h : Passing n r) (hu : Gives (fun a => ¬ ok a) r) :
    TracksFrom ix n pre ok r :=
  ⟨h, fun p _ _ ha => absurd ha (hu p)⟩

/-- A reading that moves neither side of the cursor has nothing to keep in order. -/
theorem tracks_of_sides {r : Reading α} (hc : Conserves n r)
    (h : ∀ p, (r p).2.behind = p.behind ∧ (r p).2.ahead = p.ahead) : TracksFrom ix n pre ok r :=
  ⟨passing_of_sides hc h, fun p _ _ _ opened hclose => by rw [(h p).2] at hclose; exact hclose⟩

theorem tracks_of_state {r : Reading α} (h : ∀ p, (r p).2 = p) : TracksFrom ix n pre ok r :=
  tracks_of_sides (conserves_of_state h) fun p => by rw [h p]; exact ⟨rfl, rfl⟩

theorem tracks_pure (a : α) : TracksFrom ix n pre ok (pure a : Reading α) :=
  tracks_of_state fun _ => rfl

/-- One reading after another. If what the first one gives is not sound, the second one must not
make it sound again. -/
theorem tracks_bind {r : Reading α} {f : α → Reading β} (hr : TracksFrom ix n pre ok r)
    (hf : ∀ a, Tracks ix n okay (f a)) (hk : ∀ a, ¬ ok a → Gives (fun b => ¬ okay b) (f a)) :
    TracksFrom ix n pre okay (r >>= f) where
  toPassing := passing_bind hr.toPassing fun a => (hf a).toPassing
  closable p hp hts hb opened hclose := by
    by_cases ha : ok (r p).1
    · have hp' := hr.conserves.atLevel hp
      exact hr.closable p hp hts ha opened ((hf _).closable _ hp' trivial hb opened hclose)
    · exact absurd hb (hk _ ha _)

/-- A first reading whose result does not count, and one that relies on nothing. -/
theorem tracks_after {r : Reading α} {f : α → Reading β}
    (hr : TracksFrom ix n pre (fun _ => True) r) (hf : ∀ a, Tracks ix n okay (f a)) :
    TracksFrom ix n pre okay (r >>= f) :=
  tracks_bind hr hf fun _ h => absurd trivial h

/-- A look at the state leaves what comes after it to rely on the same tokens. -/
theorem tracks_state_bind {r : Reading α} {f : α → Reading β} (hr : ∀ p, (r p).2 = p)
    (hf : ∀ a, TracksFrom ix n pre okay (f a)) : TracksFrom ix n pre okay (r >>= f) where
  toPassing := passing_bind (passing_of_state hr) fun a => (hf a).toPassing
  closable p hp hts hb opened hclose := by
    rw [bind_apply, hr p] at hb hclose
    exact (hf _).closable p hp hts hb opened hclose

/-- A look at the tokens ahead, and then a reading that may rely on it. -/
theorem tracks_view_bind {r : Reading α} {f : α → Reading β} {view : List Token → α}
    (hr : ∀ p, r p = (view p.ahead, p))
    (hf : ∀ a, TracksFrom ix n (fun ts => pre ts ∧ view ts = a) okay (f a)) :
    TracksFrom ix n pre okay (r >>= f) where
  toPassing := passing_bind (passing_of_state fun p => by rw [hr p]) fun a => (hf a).toPassing
  closable p hp hts hb opened hclose := by
    rw [bind_apply, hr p] at hb hclose
    exact (hf _).closable p hp ⟨hts, rfl⟩ hb opened hclose

/-- What is read after a look at the next token may rely on that token. -/
theorem tracks_peek_bind {f : Option Token → Reading β}
    (hf : ∀ t, TracksFrom ix n (fun ts => pre ts ∧ ts.head? = t) okay (f t)) :
    TracksFrom ix n pre okay (peek >>= f) :=
  tracks_view_bind (fun _ => rfl) hf

/-- What is read after a look at the spellings ahead may rely on them. -/
theorem tracks_upcoming_bind {f : List String → Reading β}
    (hf : ∀ raws, TracksFrom ix n (fun ts => pre ts ∧ Token.raws ts = raws) okay (f raws)) :
    TracksFrom ix n pre okay (upcoming >>= f) :=
  tracks_view_bind (fun _ => rfl) hf

/-- What is read after a look at the state may rely on the tokens ahead. -/
theorem tracks_get_bind {f : Parser → Reading β}
    (hf : ∀ p, TracksFrom ix n (fun ts => pre ts ∧ ts = p.ahead) okay (f p)) :
    TracksFrom ix n pre okay ((get : Reading Parser) >>= f) where
  toPassing := passing_bind (passing_of_state fun _ => rfl) fun p => (hf p).toPassing
  closable p hp hts hb opened hclose := (hf p).closable p hp ⟨hts, rfl⟩ hb opened hclose

/-- Moving on over tokens that begin and end no environment keeps the order. -/
theorem tracks_advance {ok : Unit → Prop} (k : Nat) :
    TracksFrom ix n (FrontClear k) ok (advance k) where
  toPassing := passing_advance k
  closable p _ hfront _ opened hclose := by
    have happ := Closable.append hfront hclose
    rw [show (advance k p).2.ahead = p.ahead.drop k from rfl, List.take_append_drop] at happ
    exact happ

/-- Taking back what failed leaves environments as they were, so only success counts. -/
theorem tracks_rewinding {step : Reading (Option α)}
    (h : TracksFrom ix n pre (fun o => ∃ a ∈ o, ok a) step) :
    TracksFrom ix n pre (fun o => ∀ a ∈ o, ok a) (rewinding step) where
  toPassing := passing_rewinding h.toPassing
  closable p hp hts hok opened hclose := by
    have hstep := h.closable p hp hts
    have hpass := h.passes p hp
    rcases hs : step p with ⟨o, q⟩
    rw [hs] at hstep hpass
    cases o with
    | some a =>
      rw [rewinding_of_some hs] at hok hclose
      exact hstep ⟨a, rfl, hok a rfl⟩ opened hclose
    | none =>
      -- back where it began, but for cuts
      obtain ⟨ts, hts⟩ := hpass
      rw [rewinding_of_none hs] at hclose
      exact hclose.of_cuts hts.seek.ahead

/-- An attempt keeps the environments in order and goes back when it declines. -/
structure Attempts (ix : Index) (n : Nat) (pre : List Token → Prop) (ok : α → Prop)
    (r : Reading (Option α)) : Prop
    extends TracksFrom ix n pre (fun o => ∀ a ∈ o, ok a) r where
  returns : Returns n r

/-- An attempt that reads nothing. -/
theorem attempts_none : Attempts ix n pre ok (pure none) :=
  ⟨tracks_pure none, returns_none⟩

/-- A step that keeps environments in order if it succeeds is an attempt, taken back if it fails. -/
theorem attempts_rewinding {step : Reading (Option α)}
    (h : TracksFrom ix n pre (fun o => ∃ a ∈ o, ok a) step) :
    Attempts ix n pre ok (rewinding step) :=
  ⟨tracks_rewinding h, returns_rewinding h.toPassing⟩

/-- What never declines is an attempt. -/
theorem TracksFrom.attempts {r : Reading (Option α)}
    (h : TracksFrom ix n pre (fun o => ∀ a ∈ o, ok a) r) (hs : ∀ p, (r p).1 ≠ none) :
    Attempts ix n pre ok r :=
  ⟨h, fun p _ hnone => absurd hnone (hs p)⟩

/-- Fewer beginnings ask for less of an attempt. -/
theorem Attempts.mono {pre' : List Token → Prop} {r : Reading (Option α)}
    (h : Attempts ix n pre ok r) (hpre : ∀ ts, pre' ts → pre ts) : Attempts ix n pre' ok r :=
  ⟨h.toTracksFrom.mono hpre fun _ ha => ha, h.returns⟩

/-- What is attempted after a look at the tokens may rely on what was seen. -/
theorem attempts_view_bind {r : Reading α} {f : α → Reading (Option β)} {view : List Token → α}
    (hr : ∀ p, r p = (view p.ahead, p))
    (hf : ∀ a, Attempts ix n (fun ts => pre ts ∧ view ts = a) okay (f a)) :
    Attempts ix n pre okay (r >>= f) where
  toTracksFrom := tracks_view_bind hr fun a => (hf a).toTracksFrom
  returns p hp hnone := by
    rw [bind_apply, hr p] at hnone ⊢
    exact (hf _).returns p hp hnone

/-- What is attempted after a look at the state may rely on the tokens ahead. -/
theorem attempts_get_bind {f : Parser → Reading (Option β)}
    (hf : ∀ p, Attempts ix n (fun ts => pre ts ∧ ts = p.ahead) okay (f p)) :
    Attempts ix n pre okay ((get : Reading Parser) >>= f) where
  toTracksFrom := tracks_get_bind fun p => (hf p).toTracksFrom
  returns p hp hnone := (hf p).returns p hp hnone

/-- After an attempt that declined, another one finds the same tokens but for cuts, which must not
undo what it relies on. -/
theorem attempts_orElse {r : Reading (Option α)} {f : Option α → Reading (Option α)}
    {pre' : List Token → Prop} (hcuts : ∀ ts us, pre' ts → Token.Cuts ts us → pre' us)
    (hr : Attempts ix n pre ok r) (hsome : ∀ a, f (some a) = pure (some a))
    (hnone : Attempts ix n pre' ok (f none)) :
    Attempts ix n (fun ts => pre ts ∧ pre' ts) ok (r >>= f) := by
  refine ⟨⟨passing_bind hr.toPassing fun o => ?_, fun p hp hts hok opened hclose => ?_⟩,
    fun p hp hn => ?_⟩
  · cases o with
    | some a => rw [hsome]; exact passing_pure _
    | none => exact hnone.toPassing
  · have hfirst := hr.closable p hp hts.1
    have hback := hr.returns p hp
    have hp' := hr.conserves.atLevel hp
    rw [bind_apply] at hok hclose
    rcases ha : r p with ⟨o, q⟩
    rw [ha] at hok hclose hfirst hback hp'
    cases o with
    | some a =>
      rw [hsome] at hok hclose
      exact hfirst hok opened hclose
    | none =>
      -- what declined has gone back, but it may have cut numbers on the way
      have hcut : Token.Cuts p.ahead q.ahead := (hback rfl).ahead
      have hthen := hnone.closable q hp' (hcuts _ _ hts.2 hcut) hok opened hclose
      exact hthen.of_cuts hcut
  · have hback := hr.returns p hp
    have hp' := hr.conserves.atLevel hp
    rw [bind_apply] at hn ⊢
    rcases ha : r p with ⟨o, q⟩
    rw [ha] at hn hback hp'
    cases o with
    | some a => rw [hsome] at hn; cases hn
    | none => exact (hback rfl).trans (hnone.returns q hp' hn)

/-- Alternatives that are attempts are an attempt, since cuts leave the beginnings of the later
ones. -/
theorem attempts_firstOf {alternative : α → Reading (Option β)} {as : List α}
    {pre : α → List Token → Prop}
    (hcuts : ∀ a ts us, pre a ts → Token.Cuts ts us → pre a us)
    (h : ∀ a ∈ as, Attempts ix n (pre a) okay (alternative a)) :
    Attempts ix n (fun ts => ∀ a ∈ as, pre a ts) okay (firstOf alternative as) := by
  induction as with
  | nil => exact attempts_none
  | cons a as ih =>
    rw [List.forall_mem_cons] at h
    have hall : ∀ ts us, (∀ x ∈ as, pre x ts) → Token.Cuts ts us → ∀ x ∈ as, pre x us :=
      fun ts us hts hcut x hx => hcuts x ts us (hts x hx) hcut
    have hfirst : Attempts ix n (fun ts => pre a ts ∧ ∀ x ∈ as, pre x ts) okay
        (firstOf alternative (a :: as)) := by
      refine attempts_orElse hall h.1 (fun _ => rfl) ?_
      exact ih h.2
    exact hfirst.mono fun ts hts => List.forall_mem_cons.1 hts

/-- A loop keeps in order what each round keeps in order. -/
theorem tracks_loop {round : α → Reading (α × Bool)}
    (h : ∀ a, Tracks ix n (fun r => ok r.1) (round a))
    (hk : ∀ a, ¬ ok a → Gives (fun r => ¬ ok r.1) (round a)) (a : α) :
    Tracks ix n ok (loop round a) := by
  refine ⟨passing_loop (fun a => (h a).toPassing) a, fun p hp _ hok opened hclose => ?_⟩
  induction a, p using loop_induction round with
  | last a p b again q heq hloop =>
    have hround := (h a).closable p hp trivial
    rw [heq] at hround
    rw [hloop] at hok hclose
    exact hround hok opened hclose
  | again a p b q heq hloop ih =>
    have hround := (h a).closable p hp trivial
    have hp' := (h a).conserves.atLevel hp
    rw [heq] at hround hp'
    rw [hloop] at hok hclose
    -- what was not sound after the round would not be sound at the end
    have hb : ok b := Classical.byContradiction fun hb =>
      gives_loop (P := fun x => ¬ ok x) hk hb q hok
    exact hround hb opened (ih hp' hok hclose)

end Reading
end MathMarkup
