import MathMarkup.Proofs.Overriding
import MathMarkup.Proofs.Tracking
import MathMarkup.Transcoder

/-!
# Environments in a parse without errors

A parse without error nodes has kept the environments of its markup in order
(`Parser.environments_of_parse`): every begin command is followed by the name of an environment, and
every end command closes the innermost environment that is open. Only `Parser.tabular` meets an end
command, and it takes any: the name behind it is not looked at, and the end of the input does as
well (`Parser.exists_unclosed_environment`).
-/

namespace MathMarkup

open MathMarkup.Expr

namespace Parser

open MathMarkup.Reading

variable {ix : Index} {inner : Nested} {n : Nat} {pre : List Token → Prop}

/-! ## Environments -/

/-- No error node stands in the cells. -/
structure Tabular.Sound (t : Tabular) : Prop where
  rows : ∀ row ∈ t.rows, ∀ cell ∈ row, SoundIfAny cell
  row : ∀ cell ∈ t.row, SoundIfAny cell
  cell : SoundIfAny t.cell

/-- Cells that are sound as a table are sound each. -/
theorem Tabular.sound_of_toExpr {t : Tabular} (h : t.toExpr.Sound) : t.Sound := by
  have hall : ∀ row ∈ t.allRows, ∀ cell ∈ row, SoundIfAny cell := by
    intro row hrow cell hcell
    have hlist := (sound_apply_iff.1 h).2 _ (List.mem_map_of_mem hrow)
    have hs := (sound_apply_iff.1 hlist).2 _ (List.mem_map_of_mem hcell)
    exact Classical.byContradiction fun hc => not_sound_getD hc _ hs
  unfold allRows at hall
  split at hall
  next hrow hcell =>
    refine ⟨hall, fun cell hc => ?_, ?_⟩
    · rw [hrow] at hc
      cases hc
    · rw [hcell]
      exact soundIfAny_none
  next =>
    have hlast := hall _ (List.mem_append_right _ List.mem_cons_self)
    refine ⟨fun row hrow => hall row (List.mem_append_left _ hrow), fun cell hc => ?_, ?_⟩
    · exact hlast cell (List.mem_append_left _ hc)
    · exact hlast _ (List.mem_append_right _ List.mem_cons_self)

/-- The name of an environment is taken from the tokens, and those are passed. -/
theorem takeEnvironmentName_apply (p : Parser) :
    takeEnvironmentName p =
      ((environmentName p.ahead).1, p.advance (environmentName p.ahead).2) := rfl

/-- Taking a name passes its tokens. -/
theorem passing_takeEnvironmentName : Passing n takeEnvironmentName :=
  ⟨conserves_takeEnvironmentName, fun p _ => ⟨_, passes_advance _ p⟩⟩

theorem passing_unexpectedInCell (t : Tabular) : Passing n (unexpectedInCell t) := by
  refine passing_bind (passing_of_state fun _ => rfl) fun _ => ?_
  refine passing_bind (passing_advance 1) fun _ => ?_
  exact passing_bind (passing_of_state fun _ => rfl) fun _ => passing_pure _

/-- What cannot stand in a cell is an error there, so the cells are unsound. -/
theorem gives_unexpectedInCell_unsound (t : Tabular) :
    Gives (fun u => ¬ Tabular.Sound u) (unexpectedInCell t) := by
  refine gives_after fun _ => gives_after fun _ => ?_
  refine gives_bind (gives_error_unsound _ _ _) fun error he => gives_pure fun hs => ?_
  exact not_sound_appendError t.cell he (soundIfAny_some.1 hs.cell)

/-- The cells before one that ended are among the cells. -/
theorem Tabular.Sound.of_endCell {t : Tabular} (h : t.endCell.Sound) : t.Sound where
  rows := h.rows
  row cell hc := h.row cell (List.mem_append_left _ hc)
  cell := h.row _ (List.mem_append_right _ List.mem_cons_self)

/-- The cells before a row that ended are among the cells. -/
theorem Tabular.Sound.of_endRow {t : Tabular} (h : t.endRow.Sound) : t.Sound where
  rows row hrow := h.rows row (List.mem_append_left _ hrow)
  row cell hc :=
    h.rows _ (List.mem_append_right _ List.mem_cons_self) cell (List.mem_append_left _ hc)
  cell := h.rows _ (List.mem_append_right _ List.mem_cons_self) _
    (List.mem_append_right _ List.mem_cons_self)

/-- Errors in the cells stay there. -/
theorem gives_tabularStep_unsound (inner : Nested) {t : Tabular} (ht : ¬ t.Sound) :
    Gives (fun r => ¬ Tabular.Sound r.1) (tabularStep inner t) := by
  have hunexpected : Gives (fun r => ¬ Tabular.Sound r.1)
      (unexpectedInCell t >>= fun u => (pure (u, true) : Reading (Tabular × Bool))) :=
    gives_bind (gives_unexpectedInCell_unsound t) fun u hu => gives_pure hu
  intro p
  obtain ⟨o, r, -, hround, heq⟩ := tabularRound_apply inner t p
  rw [heq]
  -- no round drops a cell, so an error that is there is kept
  cases hround with
  | ended => exact ht
  | cell => exact fun hs => ht hs.of_endCell
  | row => exact fun hs => ht hs.of_endRow
  | closed => exact ht
  | filled => exact hunexpected p
  | empty _ hcell =>
    rw [bind_apply]
    cases (inner.expression .loosest p).1 with
    | none => exact hunexpected _
    | some e =>
      refine fun hs => ht ⟨hs.rows, hs.row, ?_⟩
      rw [hcell]
      exact soundIfAny_none

/-- A round that wants another one keeps the environments in order. -/
theorem tracks_tabularStep (hi : inner.Tracks ix n) (t : Tabular) :
    Tracks ix n (fun r => r.2 = true ∧ Tabular.Sound r.1) (tabularStep inner t) := by
  have hunexpected : ∀ {pre : List Token → Prop},
      TracksFrom ix n pre (fun r => r.2 = true ∧ Tabular.Sound r.1)
        (unexpectedInCell t >>= fun u => (pure (u, true) : Reading (Tabular × Bool))) :=
    tracks_of_unsound (passing_bind (passing_unexpectedInCell t) fun _ => passing_pure _)
      (gives_bind (gives_unexpectedInCell_unsound t) fun u hu => gives_pure fun hs => hu hs.2)
  have hclear : ∀ {ts : List Token} {token : Token}, True ∧ ts.head? = some token →
      token.raw ∈ ["&", "\\\\"] → FrontClear 1 ts := fun hts hraw =>
    frontClear_one hts.2 (Token.not_bounds_of_boundless (by decide) hraw)
  obtain ⟨next, heq, hround⟩ := exists_tabularRound inner t
  rw [heq]
  refine tracks_peek_bind fun o => ?_
  have h := hround o
  generalize next o = r at h ⊢
  cases h with
  | ended => exact tracks_pure _
  | cell | row =>
    exact tracks_after ((tracks_advance 1).mono (fun ts hts => hclear hts (by decide)) fun _ h => h)
      fun _ => tracks_pure _
  | closed =>
    -- the last round, which wants no other
    refine tracks_of_unsound (passing_bind (passing_advance 1) fun _ =>
      passing_bind passing_takeEnvironmentName fun _ => passing_pure _) ?_
    exact gives_after fun _ => gives_after fun _ => gives_pure fun hs => Bool.noConfusion hs.1
  | filled => exact hunexpected
  | empty =>
    refine (tracks_bind (hi.expression _) (fun e => ?_) fun e he => ?_).from
    · cases e with
      | some e => exact tracks_pure _
      | none => exact hunexpected
    · cases e with
      | some e => exact gives_pure fun hs => he hs.2.cell
      | none => exact absurd soundIfAny_none he

/-- A round that is the last one stands at the end of the input, or at an end command and takes it
with what name it has. -/
theorem tabularStep_last {t u : Tabular} {p q : Parser}
    (h : tabularStep inner t p = ((u, false), q)) :
    u = t ∧ (p.ahead = [] ∧ q = p ∨ ∃ ts, p.ahead = ⟨"\\end", .command⟩ :: ts ∧
      q.ahead = ts.drop (environmentName ts).2) := by
  have hmore : ∀ {α : Type} {r : Reading α} {f : α → Tabular} {p : Parser},
      (r >>= fun x => (pure (f x, true) : Reading (Tabular × Bool))) p ≠ ((u, false), q) :=
    fun heq => Bool.noConfusion (Prod.mk.inj (Prod.mk.inj heq).1).2
  obtain ⟨o, r, hhead, hround, heq⟩ := tabularRound_apply inner t p
  rw [heq] at h
  -- only at the end of the input and at an end command is another round not wanted
  cases hround with
  | ended =>
    obtain ⟨hresult, rfl⟩ := Prod.mk.inj h
    exact ⟨(Prod.mk.inj hresult).1.symm, Or.inl ⟨List.head?_eq_none_iff.1 hhead, rfl⟩⟩
  | cell | row | filled => exact absurd h hmore
  | closed =>
    obtain ⟨ts, ha⟩ := List.head?_eq_some_iff.1 hhead
    rw [bind_apply, bind_apply, takeEnvironmentName_apply] at h
    obtain ⟨hresult, rfl⟩ := Prod.mk.inj h
    have hts : (Reading.advance 1 p).2.ahead = ts := ahead_advance_one ha
    refine ⟨(Prod.mk.inj hresult).1.symm, Or.inr ⟨ts, ha, ?_⟩⟩
    show (Reading.advance 1 p).2.ahead.drop _ = _
    rw [hts]
  | empty =>
    rw [bind_apply] at h
    cases he : (inner.expression .loosest p).1 with
    | some e =>
      rw [he] at h
      exact absurd (Prod.mk.inj (Prod.mk.inj h).1).2 Bool.noConfusion
    | none =>
      rw [he] at h
      exact absurd h hmore

/-- A round over the cells passes what the cell or the mark between cells takes up. -/
theorem passing_tabularStep (hi : inner.Tracks ix n) (t : Tabular) :
    Passing n (tabularStep inner t) :=
  (tracks_tabularStep hi t).toPassing

/-- The cells of an environment: the environment that is open before them is closed behind them, or
the input ends. The induction is on the rounds; the last one closes the environment. -/
theorem closable_of_repeats (hi : inner.Tracks ix n) {t u : Tabular} {p q : Parser}
    (h : Repeats (tabularStep inner) t p u q) (hp : p.AtLevel n) (hu : u.Sound) :
    t.Sound ∧ ∀ name opened, Closable ix opened q.ahead → Closable ix (name :: opened) p.ahead := by
  -- on the rounds, from the last one, which sees the end command or the end of the input
  induction h with
  | @last t u p q h =>
    obtain ⟨rfl, hend⟩ := tabularStep_last h
    refine ⟨hu, fun name opened hclose => ?_⟩
    rcases hend with ⟨ha, rfl⟩ | ⟨ts, ha, hq⟩
    · rw [ha]
      exact ⟨_, .nil _⟩
    · rw [ha]
      rw [hq] at hclose
      obtain ⟨left, hrun⟩ := hclose
      exact ⟨left, .ends trivial hrun⟩
  | @again t b u p r q h _ ih =>
    have hround := (tracks_tabularStep hi t).closable p hp trivial
    have hr := (passing_tabularStep hi t).conserves.atLevel hp
    rw [h] at hround hr
    obtain ⟨hb, hrest⟩ := ih hr hu
    refine ⟨Classical.byContradiction fun ht => ?_, fun name opened hclose => ?_⟩
    · have hkeeps := gives_tabularStep_unsound inner ht p
      rw [h] at hkeeps
      exact hkeeps hb
    · exact hround ⟨rfl, hb⟩ _ (hrest name opened hclose)

/-- An environment entry reads nothing on its own, and its routine keeps environments in order. -/
theorem attempts_tryEnvironment (hx : ix.Orderly) (hi : inner.Tracks ix n) (cells : Expr)
    {entry : IndexedEntry} (he : entry ∈ ix.latest) :
    Attempts ix n (fun _ => True) Sound (tryEnvironment inner cells entry) := by
  unfold tryEnvironment
  split
  · exact attempts_rewinding (tracks_runHandler hi (hx.keepsErrors _ he _ ‹_›) _ _)
  · exact (tracks_pure _).attempts fun _ => Option.some_ne_none _

/-- An environment entry makes nothing sound of unsound cells. -/
theorem gives_tryEnvironment_unsound (hx : ix.Orderly) (inner : Nested) {cells : Expr}
    (hc : ¬ cells.Sound) {name : String} {entry : IndexedEntry}
    (he : entry ∈ ix.environments name) :
    Gives (fun o => ¬ SoundRead o) (tryEnvironment inner cells entry) := by
  have hlatest := Index.environments_subset ix name he
  have hrole : entry.role = .environment := by
    rw [hx.arranged.environments_eq] at he
    have hfound := (List.mem_filter.1 he).2
    rw [Bool.and_eq_true, beq_iff_eq] at hfound
    exact hfound.1
  unfold tryEnvironment
  split
  · refine gives_rewinding_unsound (gives_runHandler_unsound
      (hx.keepsOperand _ hlatest ?_ _ ‹_›) (fun h => hc (soundIfAny_some.1 h)) _)
    rw [hrole]
    decide
  · exact gives_pure fun hs => not_sound_apply List.mem_cons_self hc (soundRead_some.1 hs)

/-- What the environments with some name make of the cells. -/
theorem attempts_environments (hx : ix.Orderly) (hi : inner.Tracks ix n) (name : String)
    (cells : Expr) : Attempts ix n (fun _ => True) Sound
      (firstOf (tryEnvironment inner cells) (ix.environments name)) := by
  have hfirst := attempts_firstOf (fun _ _ _ _ _ => trivial) fun e he =>
    attempts_tryEnvironment hx hi cells (Index.environments_subset ix name he)
  exact hfirst.mono fun _ _ _ _ => trivial

/-- No entry for a name makes something sound of unsound cells. -/
theorem gives_environments_unsound (hx : ix.Orderly) (inner : Nested) (name : String)
    {cells : Expr} (hc : ¬ cells.Sound) : Gives (fun o => ¬ SoundRead o)
      (firstOf (tryEnvironment inner cells) (ix.environments name)) :=
  gives_firstOf not_soundRead_none fun _ he =>
    gives_tryEnvironment_unsound hx inner hc he

/-- The steps of an environment pass its tokens. -/
theorem passing_environmentStep (hx : ix.Orderly) (hi : inner.Tracks ix n) :
    Passing n (environmentStep ix inner) := by
  refine passing_bind (passing_advance 1) fun _ => ?_
  refine passing_bind passing_takeEnvironmentName fun o => ?_
  split
  · exact passing_pure _
  · unfold environmentBody
    split
    · exact passing_pure _
    · exact passing_bind (passing_loop (passing_tabularStep hi) _) fun t =>
        (attempts_environments hx hi _ _).toPassing

/-- An environment whose cells are sound is opened and closed by the tokens it passed. -/
theorem attempts_environment (hx : ix.Orderly) (hi : inner.Tracks ix n) :
    Attempts ix n (fun ts => ∃ t us, ts = t :: us ∧ t.raw = "\\begin") Sound
      (environment ix inner) := by
  refine attempts_rewinding ⟨passing_environmentStep hx hi, ?_⟩
  rintro p hp ⟨t, us, ha, ht⟩ hok opened hclose
  -- behind the begin command stands the name, and behind the name the cells
  have hus : (Reading.advance 1 p).2.ahead = us := ahead_advance_one ha
  rw [bind_apply, bind_apply, takeEnvironmentName_apply, hus] at hok hclose
  rcases hn : environmentName us with ⟨_ | name, length⟩
  · rw [hn] at hok
    exact absurd hok not_soundRead_none
  · rw [hn] at hok hclose
    dsimp only at hok hclose
    generalize hq : (Reading.advance 1 p).2.advance length = q at hok hclose
    have hqa : q.ahead = us.drop length := by
      rw [← hq, ← hus]
      rfl
    have hql : q.AtLevel n := by
      rw [← hq]
      exact ((conserves_bind (conserves_advance 1) fun _ => conserves_advance length) p hp).atLevel
        hp
    cases hentries : ix.environments name with
    | nil =>
      rw [hentries] at hok
      exact absurd hok not_soundRead_none
    | cons entry entries =>
      have hnonempty : ix.environments name ≠ [] := by rw [hentries]; exact List.cons_ne_nil _ _
      rw [hentries] at hok hclose
      dsimp only at hok hclose
      rw [← hentries, bind_apply] at hok hclose
      have hcells : (tabular inner q).1.toExpr.Sound := Classical.byContradiction fun hc =>
        gives_environments_unsound hx inner name hc _ hok
      have hrest := (attempts_environments hx hi name (tabular inner q).1.toExpr).closable _
        ((passing_loop (passing_tabularStep hi) _).conserves.atLevel hql) trivial
        (fun e he => hok.elim fun e' h => Option.mem_unique h.1 he ▸ h.2) opened hclose
      have htable := (closable_of_repeats hi (repeats_tabular hi.moving hql) hql
        (Tabular.sound_of_toExpr hcells)).2 name opened hrest
      rw [hqa] at htable
      obtain ⟨left, hrun⟩ := htable
      rw [ha]
      exact ⟨left, .begins ht hn hnonempty hrun⟩

/-- What is tried at a token that begins no group, numeral or text. -/
theorem attempts_alternative (hx : ix.Orderly) (hi : inner.Tracks ix n) (min : Precedence)
    (t : Token) {r : Reading (Option Expr)}
    (hr : r ∈ [matchfix ix inner,
      if t.raw = "\\begin" then environment ix inner else pure none,
      prefixOperation ix inner min,
      symbol ix inner]) : Attempts ix n (fun ts => ts.head? = some t) Sound r := by
  apply alternative_cases hr
  case fence => exact attempts_matchfix hx hi
  case environment =>
    refine fun hbegin => (attempts_environment hx hi).mono fun ts hts => ?_
    obtain ⟨us, rfl⟩ := List.head?_eq_some_iff.1 hts
    exact ⟨t, us, rfl, hbegin⟩
  case skipped => exact attempts_none
  case prefixOp => exact attempts_prefixOperation hx hi min
  case symbol => exact attempts_symbol hx hi

/-- What begins with no number is a group, a symbol or an operator, each of which is an attempt. -/
theorem attempts_primaryFrom (hx : ix.Orderly) (hi : inner.Tracks ix n) (min : Precedence)
    {t : Token} (hk : t.kind ≠ .number) :
    Attempts ix n (fun ts => ts.head? = some t) Sound (primaryFrom ix inner min t) := by
  apply primaryFrom_cases
  case group =>
    refine fun hopen => ((tracks_some (tracks_braceGroup hi)).mono (fun ts hts => ?_)
      fun _ h => h).attempts fun _ => Option.some_ne_none _
    exact frontClear_one hts (Token.not_bounds_of_kind (by rw [hopen]; decide))
  case closing => exact fun _ => attempts_none
  case text =>
    refine fun htext => ((tracks_some tracks_text).mono (fun ts hts => ?_) fun _ h => h).attempts
      fun _ => Option.some_ne_none _
    exact frontClear_one hts
      (@Token.not_bounds_of_boundless Token.textCommands (by decide) _ htext.2)
  case others =>
    exact (attempts_firstOf (fun _ ts us hts hcuts => head?_of_cuts hk hts hcuts)
      fun r hr => attempts_alternative hx hi min t hr).mono fun ts hts _ _ => hts

/-- An operand without suffixes keeps environments in order or goes back. -/
theorem attempts_primary (hx : ix.Orderly) (hi : inner.Tracks ix n) (min : Precedence) :
    Attempts ix n (fun _ => True) Sound (Parser.primary ix inner min) := by
  refine attempts_view_bind (fun _ => rfl) fun o => ?_
  cases o with
  | none => exact attempts_none
  | some t =>
    dsimp only
    split
    next => exact (tracks_some tracks_numeral).from.attempts fun _ => Option.some_ne_none _
    next hk =>
      exact (attempts_primaryFrom hx hi min hk).mono fun ts hts => hts.2

end Parser

namespace Nested

open MathMarkup.Parser MathMarkup.Reading

variable {ix : Index} {inner : Nested} {n : Nat}

/-! ## Every level -/

/-- An operand with its suffixes keeps environments in order. -/
theorem tracks_operation (hx : ix.Orderly) (hi : inner.Tracks ix n) (min : Precedence) :
    Reading.Tracks ix n SoundIfAny (operation ix inner min) := by
  refine tracks_bind (hi.primary min) (fun o => ?_) fun o ho => ?_
  · split
    · exact tracks_some (tracks_suffixes hx hi min _)
    · exact tracks_pure _
  · split
    · have hl := fun hs => ho (soundIfAny_some.2 hs)
      refine gives_bind (gives_suffixes_unsound hx min hl) fun e he => ?_
      exact gives_pure fun hs => he (soundIfAny_some.1 hs)
    · exact absurd soundIfAny_none ho

/-- Going a level deeper changes nothing about the tokens. -/
theorem tracks_deeper {step : Reading (Option Expr)}
    (h : Reading.Tracks ix n SoundIfAny step) :
    Reading.Tracks ix (n + 1) SoundIfAny (deeper step) := by
  refine ⟨⟨conserves_deeper h.conserves, fun p hp => ?_⟩, fun p hp _ hok opened hclose => ?_⟩
  · rw [deeper_apply]
    split
    · exact ⟨[], passes_of_sides rfl rfl⟩
    · split
      · exact ⟨[], passes_of_sides rfl rfl⟩
      · obtain ⟨ts, hts⟩ := h.passes _ hp.enter
        exact ⟨ts, hts.behind, hts.ahead⟩
  · rw [deeper_apply] at hok hclose
    split at hok
    · rw [if_pos ‹_›] at hclose
      exact hclose
    · rw [if_neg ‹_›] at hclose
      split at hok
      · rw [if_pos ‹_›] at hclose
        exact hclose
      · rw [if_neg ‹_›] at hclose
        exact h.closable p.enter hp.enter trivial hok opened hclose

/-- Such routines never move the cursor to a position of their choice. -/
theorem neverSeeks_of_keepsErrors {handler : ParseHandler} (hh : handler.KeepsErrors) :
    handler.NeverSeeks := by
  have hrun : ∀ r : ParseRoutine (Option Expr), r.KeepsErrors →
      r.Avoids fun q => ∃ i, q = .setIndex i := by
    intro r hr
    induction r with
    | done o => trivial
    | ask q next ih =>
      refine ⟨?_, fun x => ih x (hr.2 x).1⟩
      rintro ⟨i, rfl⟩
      exact hr.1
  exact fun lhs p => hrun _ (hh lhs p)

/-- An orderly lexicon has routines that never go back, so every level makes progress. -/
theorem progresses_of_orderly (hx : ix.Orderly) (n : Nat) : (atDepth ix n).Progresses ix n :=
  progresses_atDepth hx.arranged (Index.neverRetreats_of_neverSeeks hx.arranged
    fun e he handler hh => neverSeeks_of_keepsErrors (hx.keepsErrors e he handler hh)) n

/-- By induction on the levels, readers at every level keep environments in order. -/
theorem tracks_atDepth (hx : ix.Orderly) (n : Nat) : (atDepth ix n).Tracks ix n := by
  induction n with
  | zero =>
    have hmoving := (progresses_of_orderly hx 0).toMoving
    have h : Reading.Tracks ix 0 SoundIfAny giveUp :=
      tracks_of_sides (hmoving.expression .loosest).conserves fun _ => ⟨rfl, rfl⟩
    exact ⟨hmoving, fun _ => h, fun _ => h⟩
  | succ n ih =>
    exact ⟨(progresses_of_orderly hx (n + 1)).toMoving,
      fun min => tracks_deeper (tracks_operation hx ih min),
      fun min => tracks_deeper (Parser.attempts_primary hx ih min).toTracksFrom⟩

end Nested

namespace Parser

open MathMarkup.Reading

variable {ix : Index} {inner : Nested} {n : Nat} {pre : List Token → Prop}

/-! ## The end of a parse -/

/-- A dangling operator goes back before it is read without its routine. -/
theorem applyDangling_eq (inner : Nested) (entry : IndexedEntry) (left : Expr) (p : Precedence) :
    applyDangling inner entry left p =
      rewinding (applyOperator inner entry left p) >>= fun o =>
        match o with
        | some e => pure e
        | none => infixApplication inner entry left p.tighter := by
  funext q
  rw [applyDangling, bind_apply, bind_apply, bind_apply,
    show Reading.index q = (q.index, q) from rfl]
  rcases ha : applyOperator inner entry left p q with ⟨_ | e, r⟩
  · rw [rewinding_of_none ha]
    rfl
  · rw [rewinding_of_some ha]

/-- An operator without a right operand passes nothing more. -/
theorem tracks_applyDangling (hx : ix.Orderly) (hi : inner.Tracks ix n) {entry : IndexedEntry}
    (he : entry ∈ ix.latest) (left : Expr) (p : Precedence) :
    Tracks ix n Sound (applyDangling inner entry left p) := by
  rw [applyDangling_eq]
  refine tracks_bind (tracks_rewinding (tracks_applyOperator hx hi he left p)) (fun o => ?_)
    fun o ho => ?_
  · split
    · exact tracks_pure _
    · exact tracks_infixApplication hi entry left _
  · split
    · exact gives_pure fun hs => ho (soundIfAny_some.2 hs)
    · exact absurd soundIfAny_none ho

/-- An operator after an unsound operand makes nothing sound of it. -/
theorem gives_applyDangling_unsound (hx : ix.Orderly) {entry : IndexedEntry}
    (he : entry ∈ ix.latest) {left : Expr}
    (hl : ¬ left.Sound) (p : Precedence) :
    Gives (fun e => ¬ e.Sound) (applyDangling inner entry left p) := by
  refine gives_after fun start => gives_bind (gives_applyOperator_unsound hx he hl p) fun o ho => ?_
  split
  · exact gives_pure fun hs => ho (soundRead_some.2 hs)
  · exact gives_after fun _ => gives_after fun rhs =>
      gives_pure (not_sound_apply List.mem_cons_self hl)

/-- What is put behind errors is part of what comes out, and so are the errors. -/
theorem sound_of_appendAfterErrors {errors : Option Expr} {e : Expr}
    (h : (appendAfterErrors errors e).Sound) : SoundIfAny errors ∧ e.Sound := by
  unfold appendAfterErrors at h
  split at h
  · exact ⟨soundIfAny_none, h⟩
  · obtain ⟨hhead, hops⟩ := sound_apply_iff.1 h
    refine ⟨soundIfAny_some.2 (sound_apply_iff.2 ⟨hhead, fun o ho => ?_⟩), ?_⟩
    · exact hops o (List.mem_append_left _ ho)
    · exact hops e (List.mem_append_right _ List.mem_cons_self)
  · obtain ⟨-, hops⟩ := sound_apply_iff.1 h
    exact ⟨soundIfAny_some.2 (hops _ List.mem_cons_self),
      hops e (List.mem_cons_of_mem _ List.mem_cons_self)⟩

/-- What an operator takes and what it leaves were together what was read. -/
theorem soundIfAny_of_danglingOperand {lhs : Option Expr}
    (h : SoundIfAny (danglingOperand lhs).1) (hl : (danglingOperand lhs).2.Sound) :
    SoundIfAny lhs := by
  unfold danglingOperand at h hl
  cases lhs with
  | none => exact soundIfAny_none
  | some e =>
    dsimp only at h hl
    split at h
    next => exact h
    next hn =>
      rw [if_neg hn] at hl
      exact soundIfAny_some.2 hl

/-- A recovery at an operator keeps environments in order if its result is sound. -/
theorem tracks_recoverOperator (hx : ix.Orderly) (hi : inner.Tracks ix n) {entry : IndexedEntry}
    (he : entry ∈ ix.latest) (length : Nat)
    (lhs : Option Expr) :
    TracksFrom ix n (FrontClear length) Sound (recoverOperator ix inner length entry lhs) := by
  refine tracks_after (tracks_advance length) fun _ => ?_
  refine tracks_bind (tracks_applyDangling hx hi he _ _) (fun combined => ?_) fun combined hc => ?_
  · exact tracks_bind (tracks_suffixes hx hi _ _) (fun _ => tracks_pure _) fun e he =>
      gives_pure fun hs => he (sound_of_appendAfterErrors hs).2
  · refine gives_bind (gives_suffixes_unsound hx _ hc) fun e he => ?_
    exact gives_pure fun hs => he (sound_of_appendAfterErrors hs).2

/-- A recovery at an operator after something unsound makes nothing sound. -/
theorem gives_recoverOperator_unsound (hx : ix.Orderly) {entry : IndexedEntry}
    (he : entry ∈ ix.latest) (length : Nat)
    {lhs : Option Expr} (hl : ¬ SoundIfAny lhs) :
    Gives (fun e => ¬ e.Sound) (recoverOperator ix inner length entry lhs) := by
  refine gives_after fun _ => ?_
  by_cases hleft : (danglingOperand lhs).2.Sound
  · refine gives_after fun combined => gives_after fun e => gives_pure fun hs => hl ?_
    exact soundIfAny_of_danglingOperand (sound_of_appendAfterErrors hs).1 hleft
  · refine gives_bind (gives_applyDangling_unsound hx he hleft _) fun combined hc => ?_
    refine gives_bind (gives_suffixes_unsound hx _ hc) fun e he => ?_
    exact gives_pure fun hs => he (sound_of_appendAfterErrors hs).2

/-- Matching spellings passes them or nothing. -/
theorem passing_matchTokens (raws : List String) : Passing n (matchTokens raws) := by
  refine passing_bind (passing_of_state fun _ => rfl) fun p => ?_
  split
  · exact passing_bind (passing_advance _) fun _ => passing_pure _
  · exact passing_pure _

/-- Recovering by passing tokens makes an error, so there is nothing sound to keep in order. -/
theorem tracks_recoverTokens (code : ErrorCode) (length : Nat) (lhs : Option Expr) :
    TracksFrom ix n pre Sound (recoverTokens code length lhs) := by
  refine tracks_of_unsound ?_ ?_
  · refine passing_bind (passing_of_state fun _ => rfl) fun _ => ?_
    refine passing_bind (passing_advance length) fun _ => ?_
    exact passing_bind (passing_of_state fun _ => rfl) fun _ => passing_pure _
  · exact gives_after fun _ => gives_after fun _ => gives_bind (gives_error_unsound _ _ _)
      fun _ he => gives_pure (not_sound_appendError _ he)

/-- Recovering at a delimiter makes an error, so there is nothing sound to keep in order. -/
theorem tracks_recoverDelimiter (hi : inner.Tracks ix n) (length : Nat) (close : List String)
    (lhs : Option Expr) : TracksFrom ix n pre Sound (recoverDelimiter inner length close lhs) := by
  refine tracks_of_unsound ?_ ?_
  · refine passing_bind (passing_of_state fun _ => rfl) fun _ => ?_
    refine passing_bind (passing_advance length) fun _ => ?_
    refine passing_bind (hi.expression _).toPassing fun _ => ?_
    refine passing_bind (passing_matchTokens close) fun _ => ?_
    exact passing_bind (passing_of_state fun _ => rfl) fun _ => passing_pure _
  · refine gives_after fun _ => gives_after fun _ => gives_after fun _ => gives_after fun _ => ?_
    exact gives_bind (gives_error_unsound _ _ _) fun _ he =>
      gives_pure (not_sound_appendError _ he)

/-- Discarding the rest makes an error, so there is nothing sound to keep in order. -/
theorem tracks_discardRest (lhs : Option Expr) : TracksFrom ix n pre Sound (discardRest lhs) := by
  refine tracks_of_unsound ?_ ?_
  · refine passing_bind (passing_of_state fun _ => rfl) fun _ => ?_
    refine passing_bind (passing_of_state fun _ => rfl) fun _ => ?_
    refine passing_bind ⟨conserves_seekEnd, fun p _ => ⟨_, passes_advance _ p⟩⟩ fun _ => ?_
    exact passing_bind (passing_of_state fun _ => rfl) fun _ => passing_pure _
  · refine gives_after fun _ => gives_after fun _ => gives_after fun _ => ?_
    exact gives_bind (gives_error_unsound _ _ _) fun _ he =>
      gives_pure (not_sound_appendError _ he)

/-- Only an operator is recovered without leaving an error. -/
theorem tracks_recover (hx : ix.Orderly) (hi : inner.Tracks ix n) (lhs : Option Expr) :
    Tracks ix n Sound (recover ix inner lhs) := by
  obtain ⟨next, heq, hrule⟩ := exists_recoveryRule ix inner lhs
  rw [heq]
  refine tracks_get_bind fun p => ?_
  have h := hrule p
  generalize next p = r at h ⊢
  cases h with
  | operator hm =>
    refine (tracks_recoverOperator hx hi (Index.of_mem_lookup hx.arranged hm).1 _ lhs).mono
      (fun ts hts => ?_) fun _ h => h
    rw [hts.2]
    exact frontClear_of_mem_lookup hx hm
  | symbol | closing => exact tracks_recoverTokens _ _ _
  | opening => exact tracks_recoverDelimiter hi _ _ _
  | rest => exact tracks_discardRest _

/-- A recovery after something unsound makes nothing sound. -/
theorem gives_recover_unsound (hx : ix.Orderly) {lhs : Option Expr} (hl : ¬ SoundIfAny lhs) :
    Gives (fun e => ¬ e.Sound) (recover ix inner lhs) := by
  have happend : ∀ {code : ErrorCode} {arg : Option String} {start : Nat},
      Gives (fun e => ¬ e.Sound)
        (Reading.error code arg start >>= fun error => pure (appendError lhs error)) :=
    gives_bind (gives_error_unsound _ _ _) fun _ he => gives_pure (not_sound_appendError _ he)
  obtain ⟨next, heq, hrule⟩ := exists_recoveryRule ix inner lhs
  rw [heq]
  refine gives_after fun p => ?_
  have h := hrule p
  generalize next p = r at h ⊢
  cases h with
  | operator hm =>
    exact gives_recoverOperator_unsound hx (Index.of_mem_lookup hx.arranged hm).1 _ hl
  | symbol | closing => exact gives_after fun _ => gives_after fun _ => happend
  | opening =>
    exact gives_after fun _ => gives_after fun _ => gives_after fun _ => gives_after fun _ => happend
  | rest => exact gives_after fun _ => gives_after fun _ => gives_after fun _ => happend

/-- A round of recovering after something unsound makes nothing sound. -/
theorem gives_recoveryRound_unsound (hx : ix.Orderly) {lhs : Option Expr}
    (hl : ¬ SoundIfAny lhs) :
    Gives (fun r => ¬ SoundIfAny r.1) (recoveryRound ix inner lhs) := by
  refine gives_after fun p => ?_
  split
  · exact gives_pure hl
  · exact gives_bind (gives_recover_unsound hx hl) fun e he =>
      gives_pure fun hs => he (soundIfAny_some.1 hs)

/-- Rounds of recovering that end soundly kept environments in order. -/
theorem tracks_recoverAll (hx : ix.Orderly) (hi : inner.Tracks ix n) (lhs : Option Expr) :
    Tracks ix n SoundIfAny (recoverAll ix inner lhs) := by
  refine tracks_loop (fun o => ?_) (fun o => gives_recoveryRound_unsound hx) lhs
  refine tracks_get_bind fun p => ?_
  split
  · exact tracks_pure _
  · refine (tracks_bind (tracks_recover hx hi o) (fun _ => tracks_pure _) fun e he => ?_).from
    exact gives_pure fun hs => he (soundIfAny_some.1 hs)

/-- A parse without errors has kept the environments in order over all its tokens. -/
theorem closable_of_parseAll (hx : ix.Orderly) (tokens : List Token)
    (hs : (parseAll ix (ofTokens tokens)).1.Sound) : Closable ix [] (ofTokens tokens).ahead := by
  have hi : (Nested.outermost ix).Tracks ix Nested.maxDepth :=
    Nested.tracks_atDepth hx Nested.maxDepth
  have hl := atLevel_ofTokens tokens
  have hbody : Tracks ix Nested.maxDepth SoundIfAny
      ((Nested.outermost ix).expression .loosest >>= recoverAll ix (Nested.outermost ix)) :=
    tracks_bind (hi.expression .loosest) (fun lhs => tracks_recoverAll hx hi lhs)
      fun lhs hlhs => gives_loop (fun _ h => gives_recoveryRound_unsound hx h) hlhs
  have hmoves : (Nested.outermost ix).Progresses ix Nested.maxDepth :=
    Nested.progresses_of_orderly hx Nested.maxDepth
  -- the loop of recoveries only stops at the end of the input
  have hend := ahead_of_repeats_recoveryRound (repeats_recoverAll hx.arranged hmoves
    ((Nested.outermost ix).expression .loosest (ofTokens tokens)).1
    ((hi.expression .loosest).conserves.atLevel hl))
  have hparse := parseAll_apply ix (ofTokens tokens)
  dsimp only at hparse
  rw [hparse] at hs
  split at hs
  next =>
    -- input that nests too deeply leaves an error
    exact absurd hs (not_sound_appendError _ (not_sound_error _ _ _))
  next hdeep =>
    refine hbody.closable _ hl trivial ?_ [] ?_
    · exact Classical.byContradiction fun hnot => not_sound_getD hnot _ hs
    · rw [bind_apply, hend.resolve_right hdeep]
      exact ⟨_, .nil _⟩

end Parser

/-! ## The standard lexicon -/

/-- A usable entry that is given an operand has the routine of such an entry. -/
theorem Index.operandRoutine_of_mem_latest {lexicon : List Entry} {e : IndexedEntry}
    {handler : ParseHandler} (he : e ∈ (Index.ofEntries lexicon).1.latest)
    (hk : e.role.kind.TakesOperand) (hh : e.parse = some handler) :
    handler ∈ (lexicon.filter fun e => e.kind.TakesOperand).filterMap Entry.routine? := by
  rw [Index.latest_ofEntries, List.mem_reverse, List.mem_filterMap] at he
  obtain ⟨entry, hm, hu⟩ := he
  rw [(Index.keeps_of_usable? hu).2.kind] at hk
  refine List.mem_filterMap.2 ⟨entry, List.mem_filter.2 ⟨hm, by simpa using hk⟩, ?_⟩
  obtain ⟨role, -, rfl⟩ := Index.usable?_eq_some_iff.1 hu
  exact hh

/-- What holds of all the rows of raw texts of an index, checked over its entries. -/
theorem Index.forall_rows_of_all {ix : Index} {row : List String → Prop} [DecidablePred row]
    (h : ix.latest.all (fun e =>
      decide (row e.trigger) && e.role.close?.all fun close => decide (row close)) = true) :
    ∀ e ∈ ix.latest, row e.trigger ∧ ∀ close, e.role.close? = some close → row close := by
  intro e he
  have hall := List.all_eq_true.1 h e he
  rw [Bool.and_eq_true, decide_eq_true_iff] at hall
  refine ⟨hall.1, fun close hclose => ?_⟩
  have hclosed := hall.2
  rw [hclose] at hclosed
  exact of_decide_eq_true hclosed

namespace Lexicon

/-- An application of some other head holds all errors of its operands. -/
theorem sound_of_operands {e : Expr} {head : String} (h : e.isApply head = true)
    (hne : head ≠ "Error") (ho : ∀ o ∈ e.operands, o.Sound) : e.Sound := by
  rw [isApply, head?, beq_iff_eq] at h
  rw [← sound_strip_iff]
  unfold Expr.operands at ho
  split at h
  next heq =>
    rw [heq] at ho ⊢
    exact sound_apply_iff.2 ⟨by rw [Option.some.inj h]; exact hne, ho⟩
  next => cases h

/-- Collecting what a group holds keeps its errors. -/
theorem keepsErrors_collecting (head : String) : (collecting head).KeepsErrors :=
  fun _ _ => ⟨trivial, fun _ => ⟨trivial, fun hx hs =>
    not_sound_apply (List.mem_append_right _ List.mem_cons_self) (not_sound_getD hx _)
      (soundRead_some.1 hs)⟩⟩

theorem keepsOperand_collecting (head : String) : (collecting head).KeepsOperand := by
  intro lhs p hl rhs hs
  obtain ⟨hhead, hops⟩ := sound_apply_iff.1 (soundRead_some.1 hs)
  cases lhs with
  | none => exact hl soundIfAny_none
  | some e =>
    refine hl (soundIfAny_some.2 ?_)
    have hleft := fun o ho => hops o (List.mem_append_left _ ho)
    dsimp only at hleft
    split at hleft
    · exact sound_of_operands ‹_› hhead hleft
    · exact hleft e (List.mem_singleton_self _)

/-- A sequence in a group keeps the errors of its members. -/
theorem keepsErrors_parseGroup : ParseHandler.KeepsErrors Structure.parseGroup :=
  fun _ _ => trivial

theorem keepsOperand_parseGroup : ParseHandler.KeepsOperand Structure.parseGroup := by
  intro lhs p hl hs
  cases lhs with
  | none => exact hl soundIfAny_none
  | some e =>
    have he : (if e.isApply "Sequence" then Expr.apply "Delimiter" (splat (some e)) else e).Sound :=
      soundRead_some.1 hs
    split at he
    · exact hl (soundIfAny_of_splat (sound_apply_iff.1 he).2)
    · exact hl (soundIfAny_some.2 he)

/-- A script keeps the errors of what is raised or lowered. -/
theorem keepsErrors_script (head : String) : ParseHandler.KeepsErrors fun lhs _ => do
    let script ← ParseRoutine.argument.orMissing
    return lhs.map fun base => .apply head [base, script] := by
  refine fun lhs _ => ⟨trivial, fun script => ⟨trivial, fun hx hs => ?_⟩⟩
  cases lhs with
  | none => exact not_soundRead_none hs
  | some base =>
    exact not_sound_apply (List.mem_cons_of_mem _ List.mem_cons_self) (not_sound_getD hx _)
      (soundRead_some.1 hs)

/-- A script keeps the errors of its base. -/
theorem keepsOperand_script (head : String) : ParseHandler.KeepsOperand fun lhs _ => do
    let script ← ParseRoutine.argument.orMissing
    return lhs.map fun base => .apply head [base, script] := by
  intro lhs _ hl script hs
  cases lhs with
  | none => exact hl soundIfAny_none
  | some base =>
    exact not_sound_apply List.mem_cons_self (fun h => hl (soundIfAny_some.2 h))
      (soundRead_some.1 hs)

/-- A sign keeps the errors of what it stands before. -/
theorem keepsErrors_parseNegate : ParseHandler.KeepsErrors Arithmetic.parseNegate := by
  refine fun _ _ => ⟨trivial, fun operand => ⟨trivial, fun hx hs => ?_⟩⟩
  have hoperand := not_sound_getD hx Expr.missing
  replace hs : (Arithmetic.negated (operand.getD Expr.missing)).Sound := soundRead_some.1 hs
  unfold Arithmetic.negated at hs
  split at hs
  next heq =>
    rw [heq] at hoperand
    exact hoperand rfl
  next => exact not_sound_apply List.mem_cons_self hoperand hs

/-- A fraction keeps the errors of its parts. -/
theorem keepsErrors_parseFraction : ParseHandler.KeepsErrors Arithmetic.parseFraction := by
  refine fun _ _ => ⟨trivial, fun numerator => ⟨⟨trivial, fun denominator =>
    ⟨trivial, fun hx hs => ?_⟩⟩, fun hx denominator hs => ?_⟩⟩
  · exact not_sound_apply (List.mem_cons_of_mem _ List.mem_cons_self) (not_sound_getD hx _)
      (soundRead_some.1 hs)
  · exact not_sound_apply List.mem_cons_self (not_sound_getD hx _) (soundRead_some.1 hs)

/-- A root keeps the errors of its radicand and of its index. -/
theorem keepsErrors_parseRoot : ParseHandler.KeepsErrors Arithmetic.parseRoot := by
  refine fun _ _ => ⟨trivial, fun index => ⟨⟨trivial, fun radicand =>
    ⟨trivial, fun hx hs => ?_⟩⟩, fun hx radicand hs => ?_⟩⟩
  · have hradicand := not_sound_getD hx Expr.missing
    cases index with
    | none => exact not_sound_apply List.mem_cons_self hradicand (soundRead_some.1 hs)
    | some index => exact not_sound_apply List.mem_cons_self hradicand (soundRead_some.1 hs)
  · cases index with
    | none => exact hx soundIfAny_none
    | some index =>
      exact not_sound_apply (List.mem_cons_of_mem _ List.mem_cons_self)
        (fun h => hx (soundIfAny_some.2 h)) (soundRead_some.1 hs)

open Structure Arithmetic in
/-- The routines of the entries that are given something. -/
theorem operandRoutines_standard :
    (standard.filter fun e => e.kind.TakesOperand).filterMap Entry.routine? = [
      collecting "Sequence", parseGroup, parseGroup, parseGroup, parseSubscript, collecting "Add",
      collecting "Multiply", collecting "Multiply", collecting "Multiply", parsePower,
      collecting "And", collecting "And", collecting "Or", collecting "Or"] := rfl

/-- No entry of the standard lexicon has a begin or end command in its spellings. -/
theorem boundless_standard : Index.standard.latest.all (fun e =>
    decide (Token.Boundless e.trigger) && e.role.close?.all fun close =>
      decide (Token.Boundless close)) = true := by
  decide +kernel

/-- The standard lexicon is orderly. -/
theorem orderly_standard : Index.standard.Orderly := by
  have hboundless := Index.forall_rows_of_all boundless_standard
  refine ⟨Index.arranged_ofEntries _, fun e he handler hh => ?_, fun e he hk handler hh => ?_,
    fun e he => (hboundless e he).1, fun e he => (hboundless e he).2⟩
  · -- each routine of the lexicon, then those that take an operand
    exact forall_routines_standard (P := ParseHandler.KeepsErrors)
      (fun head _ => keepsErrors_collecting head)
      keepsErrors_parseGroup (keepsErrors_script _) keepsErrors_parseNegate
      keepsErrors_parseFraction (keepsErrors_script _) keepsErrors_parseRoot handler
      (Index.routine_of_mem_latest he hh)
  · have hall : ∀ h ∈ (standard.filter fun e => e.kind.TakesOperand).filterMap Entry.routine?,
        h.KeepsOperand := by
      rw [operandRoutines_standard]
      simp only [List.forall_mem_cons]
      exact ⟨keepsOperand_collecting _, keepsOperand_parseGroup, keepsOperand_parseGroup,
        keepsOperand_parseGroup, keepsOperand_script _, keepsOperand_collecting _,
        keepsOperand_collecting _, keepsOperand_collecting _, keepsOperand_collecting _,
        keepsOperand_script _, keepsOperand_collecting _, keepsOperand_collecting _,
        keepsOperand_collecting _, keepsOperand_collecting _, by simp⟩
    exact hall handler (Index.operandRoutine_of_mem_latest he hk hh)

end Lexicon

namespace Parser

/-- If no error node stands in the parse of some markup with the standard lexicon, then the
environments of the markup are in order: every begin command is followed by the name of an
environment, every end command closes the innermost environment that is open, and only the end of
the input leaves some of them open. -/
theorem environments_of_parse (options : Options) (markup : String)
    (h : (Transcoder.parse { options } markup).1.hasErrors = false) :
    ∃ left, Environments Index.standard (fun _ _ => True) []
      (ofTokens (Token.scan markup)).ahead left := by
  refine closable_of_parseAll Lexicon.orderly_standard (Token.scan markup) ?_
  replace h : (if options.preserveLatex then
      Expr.annotate (parseAll Index.standard (ofTokens (Token.scan markup))).1 markup
    else (parseAll Index.standard (ofTokens (Token.scan markup))).1 : Expr).Sound := h
  split at h
  · -- the annotation of the whole has no errors of its own
    rw [← sound_strip_iff]
    exact h
  · exact h

/-- A matrix in the cell of another one. -/
theorem environments_of_parse_matrices :
    let markup := "\\begin\x7bpmatrix\x7d\\begin\x7bmatrix\x7da\\end\x7bmatrix\x7d\\end\x7bpmatrix\x7d"
    (Transcoder.parse {} markup).1.hasErrors = false ∧
    ∃ left, Environments Index.standard (fun _ _ => True) []
      (ofTokens (Token.scan markup)).ahead left := by
  intro markup
  have hsound : (Transcoder.parse {} markup).1.hasErrors = false := by decide +kernel
  exact ⟨hsound, environments_of_parse {} markup hsound⟩

/-- But an environment need not be closed: the end of the input does as well as its end command. -/
theorem exists_unclosed_environment : ¬ ∀ (options : Options) (markup : String),
    (Transcoder.parse { options } markup).1.hasErrors = false →
      Environments Index.standard (fun begun ended => ended = some begun) []
        (ofTokens (Token.scan markup)).ahead [] := by
  intro hall
  have hrun := hall {} "\\begin\x7bpmatrix\x7da" (by decide +kernel)
  have htokens : (ofTokens (Token.scan "\\begin\x7bpmatrix\x7da")).ahead =
      ⟨"\\begin", .command⟩ :: ⟨"\x7b", .openGroup⟩ ::
        (["p", "m", "a", "t", "r", "i", "x"].map fun c => ⟨c, .char⟩) ++
        [⟨"\x7d", .closeGroup⟩, ⟨"a", .char⟩] := by
    decide +kernel
  rw [htokens] at hrun
  cases hrun with
  | other ht => exact ht ⟨rfl, Or.inl rfl⟩
  | @begins _ _ _ _ name length _ hn _ hrest =>
    -- behind the name of the environment there is a letter, and then nothing to close it
    have hlength : length = 9 := (congrArg Prod.snd hn).symm.trans (by decide +kernel)
    rw [hlength] at hrest
    replace hrest : Environments Index.standard _ [name] [⟨"a", .char⟩] [] := hrest
    exact absurd (hrest.left_eq (by decide)) (List.cons_ne_nil name [])

end Parser
end MathMarkup
