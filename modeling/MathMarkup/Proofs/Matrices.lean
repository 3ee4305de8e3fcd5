import MathMarkup.Proofs.StandardRoundTrip

/-!
# Matrices

The cells of an environment are kept apart by two marks, one between cells and one between rows, and
ended by the end command. The parser reads them as one flat stream: a mark ends the cell or the row
before it, and the end command leaves the last row to be completed. A row is read from left to right
(`Parser.exists_reads_row`), and so are the rows (`Parser.exists_reads_rows`). What both need of a
cell is that it is read as far as any of the marks (`Parser.IsCell`), so cells may be environments
themselves: their marks are within what is read.

In standard notation no trigger and no name begins with a mark, so everything legible is read as far
as one. With that a matrix of letters, integers and matrices is parsed back from its rendering
(`Standard.parse_render_matrix`).
-/

namespace MathMarkup
namespace Parser

open Reading Nested Lexer

variable {ix : Index} {n : Nat}

/-! ## Cells and rows -/

/-- The token between cells. -/
def ampersand : Token := ⟨"&", .char⟩

/-- The token between rows. -/
def rowBreak : Token := ⟨"\\\\", .command⟩

/-- The commands around the cells. -/
def beginCommand : Token := ⟨"\\begin", .command⟩
def endCommand : Token := ⟨"\\end", .command⟩

/-- The tokens that end a cell. -/
def marks : List Token := [ampersand, rowBreak, endCommand]

/-- Some tokens are read as the expression, as far as the next mark. -/
structure IsCell (ix : Index) (e : Expr) (ts : List Token) : Prop where
  begins : ∃ t us, ts = t :: us ∧ t ∉ marks
  reads : ∀ n, ∀ m ∈ marks, ∀ us, Reads n ((atDepth ix n).expression .loosest) ts (some e) (m :: us)

theorem reads_tabularStep_ampersand (t : Tabular) (rest : List Token) :
    Reads n (tabularStep (atDepth ix n) t) [ampersand] (t.endCell, true) rest := by
  refine reads_of_eq (conserves_tabularStep (conserves_atDepth ix n) t) (fun p ha => ?_)
    (reads_bind_right (reads_advance_one ampersand rest) (fun _ => conserves_pure _)
      (reads_pure (t.endCell, true) rest))
  unfold tabularStep
  rw [peek_bind_apply, ha]
  rfl

theorem reads_tabularStep_rowBreak (t : Tabular) (rest : List Token) :
    Reads n (tabularStep (atDepth ix n) t) [rowBreak] (t.endRow, true) rest := by
  refine reads_of_eq (conserves_tabularStep (conserves_atDepth ix n) t) (fun p ha => ?_)
    (reads_bind_right (reads_advance_one rowBreak rest) (fun _ => conserves_pure _)
      (reads_pure (t.endRow, true) rest))
  unfold tabularStep
  rw [peek_bind_apply, ha]
  rfl

/-- The name behind an end command is taken in, whatever it is. -/
theorem reads_tabularStep_end (t : Tabular) {ts rest : List Token} {o : Option String}
    (h : Reads n takeEnvironmentName ts o rest) :
    Reads n (tabularStep (atDepth ix n) t) (endCommand :: ts) (t, false) rest := by
  refine reads_of_eq (conserves_tabularStep (conserves_atDepth ix n) t) (fun p ha => ?_)
    (reads_bind (reads_advance_one endCommand (ts ++ rest))
      (fun _ => conserves_bind conserves_takeEnvironmentName fun _ => conserves_pure (t, false))
      (reads_bind_right h (fun _ => conserves_pure _) (reads_pure _ _)))
  unfold tabularStep
  rw [peek_bind_apply, ha]
  rfl

theorem reads_tabularStep_cell {t : Tabular} (ht : t.cell = none) {e : Expr} {ts : List Token}
    (h : IsCell ix e ts) {m : Token} (hm : m ∈ marks) (us : List Token) :
    Reads n (tabularStep (atDepth ix n) t) ts ({ t with cell := some e }, true) (m :: us) := by
  have hi := conserves_atDepth ix n
  obtain ⟨first, others, rfl, hfirst⟩ := h.begins
  simp only [marks, List.mem_cons, List.not_mem_nil, or_false, not_or] at hfirst
  obtain ⟨hampersand, hbreak, hend⟩ := hfirst
  have hread : ∀ o : Option Expr, Conserves n (o.elim (do return (← unexpectedInCell t, true))
      fun e => pure ({ t with cell := some e }, true)) := by
    rintro (_ | e)
    · exact conserves_bind (conserves_unexpectedInCell t) fun _ => conserves_pure _
    · exact conserves_pure _
  refine reads_of_eq (conserves_tabularStep hi t) (fun p ha => ?_)
    (reads_bind_right (h.reads n m hm us) hread (reads_pure _ _))
  unfold tabularStep
  rw [peek_bind_apply, ha]
  obtain ⟨rows, row, cell⟩ := t
  dsimp only at ht
  subst ht
  refine (congrFun ((if_neg hampersand).trans ((if_neg hbreak).trans (if_neg hend))) p).trans ?_
  exact congrFun (bind_congr fun o => by cases o <;> rfl) p

/-- The cells of a row are put behind those that are there, whatever comes after the last one. -/
theorem exists_reads_row {f : Expr → List Token} {cells : List Expr} (hne : cells ≠ [])
    (h : ∀ e ∈ cells, IsCell ix e (f e)) (done : List (List (Option Expr)))
    (row : List (Option Expr)) :
    ∃ t : Tabular, t.rows = done ∧ t.row ++ [t.cell] = row ++ cells.map some ∧
      ∀ {u : Tabular} {us rest : List Token}, (∃ m ms, m ∈ marks ∧ us ++ rest = m :: ms) →
        Reads n (loop (tabularStep (atDepth ix n)) t) us u rest →
        Reads n (loop (tabularStep (atDepth ix n)) ⟨done, row, none⟩)
          ([ampersand].intercalate (cells.map f) ++ us) u rest := by
  have hstep := conserves_tabularStep (conserves_atDepth ix n)
  -- on the cells, with those that are put into the row; the last one has no ampersand behind it
  induction cells generalizing row with
  | nil => exact absurd rfl hne
  | cons e cells ih =>
    have he := h e List.mem_cons_self
    have hts : f e ≠ [] := by
      obtain ⟨t, us, hts, -⟩ := he.begins
      rw [hts]
      exact List.cons_ne_nil t us
    cases cells with
    | nil =>
      refine ⟨⟨done, row, some e⟩, rfl, rfl, fun {u us rest} hmark hgo => ?_⟩
      obtain ⟨m, ms, hm, hus⟩ := hmark
      rw [List.map_singleton, List.intercalate_singleton]
      refine reads_loop_again hstep hts ?_ hgo
      rw [hus]
      exact reads_tabularStep_cell rfl he hm ms
    | cons e' cells =>
      obtain ⟨t, hrows, hrow, hread⟩ := ih (List.cons_ne_nil e' cells)
        (fun x hx => h x (List.mem_cons_of_mem e hx)) (row ++ [some e])
      refine ⟨t, hrows, ?_, fun {u us rest} hmark hgo => ?_⟩
      · rw [hrow, List.map_cons, List.append_assoc]
        rfl
      · simp only [List.map_cons] at hread ⊢
        rw [List.intercalate_cons_cons, List.append_assoc, List.append_assoc]
        refine reads_loop_again hstep hts
          (reads_tabularStep_cell rfl he (m := ampersand) List.mem_cons_self _) ?_
        exact reads_loop_again hstep (List.cons_ne_nil _ _) (reads_tabularStep_ampersand _ _)
          (hread hmark hgo)

/-- A row that has cells is one of the rows, even if it is the last one. -/
theorem allRows_of_row {t : Tabular} {cells : List Expr} (hne : cells ≠ [])
    (h : t.row ++ [t.cell] = cells.map some) : t.allRows = t.rows ++ [cells.map some] := by
  have hcounts : t.row = [] → t.cell = none → False := by
    intro hrow hcell
    rw [hrow, hcell] at h
    cases cells with
    | nil => exact hne rfl
    | cons e cells => exact absurd (List.cons.inj h).1 nofun
  unfold Tabular.allRows
  split
  next hrow hcell =>
    exact (hcounts hrow hcell).elim
  next => rw [h]

/-- The tokens of some rows. -/
def rowsTokens (f : Expr → List Token) (rows : List (List Expr)) : List Token :=
  [rowBreak].intercalate (rows.map fun row => [ampersand].intercalate (row.map f))

/-- Rows that have cells are put behind those that are there, up to the end command. -/
theorem exists_reads_rows {f : Expr → List Token} {rows : List (List Expr)}
    (hne : ∀ row ∈ rows, row ≠ []) (h : ∀ row ∈ rows, ∀ e ∈ row, IsCell ix e (f e))
    (done : List (List (Option Expr))) :
    ∃ t : Tabular, t.allRows = done ++ rows.map (·.map some) ∧
      ∀ {u : Tabular} {us rest : List Token},
        Reads n (loop (tabularStep (atDepth ix n)) t) (endCommand :: us) u rest →
        Reads n (loop (tabularStep (atDepth ix n)) ⟨done, [], none⟩)
          (rowsTokens f rows ++ endCommand :: us) u rest := by
  have hstep := conserves_tabularStep (conserves_atDepth ix n)
  have hend : endCommand ∈ marks := by decide
  have hbreak : rowBreak ∈ marks := by decide
  -- on the rows, with those that are done; a break is between two rows, not behind the last one
  induction rows generalizing done with
  | nil =>
    refine ⟨⟨done, [], none⟩, ?_, fun hgo => hgo⟩
    rw [List.map_nil, List.append_nil]
    rfl
  | cons row rows ih =>
    have hrow := hne row List.mem_cons_self
    obtain ⟨t, hrows, hcells, hread⟩ :=
      @exists_reads_row ix n f row hrow (h row List.mem_cons_self) done []
    rw [List.nil_append] at hcells
    cases rows with
    | nil =>
      refine ⟨t, ?_, fun {u us rest} hgo => ?_⟩
      · rw [allRows_of_row hrow hcells, hrows]
        rfl
      · rw [rowsTokens, List.map_singleton, List.intercalate_singleton]
        exact hread ⟨endCommand, us ++ rest, hend, rfl⟩ hgo
    | cons row' rows =>
      obtain ⟨t', hall, hread'⟩ := ih (fun r hr => hne r (List.mem_cons_of_mem row hr))
        (fun r hr => h r (List.mem_cons_of_mem row hr)) (done ++ [row.map some])
      refine ⟨t', ?_, fun {u us rest} hgo => ?_⟩
      · rw [hall, List.append_assoc]
        rfl
      · have hnext : t.endRow = ⟨done ++ [row.map some], [], none⟩ := by
          rw [Tabular.endRow, hrows, hcells]
        unfold rowsTokens at hread' ⊢
        simp only [List.map_cons] at hread' ⊢
        rw [List.intercalate_cons_cons, List.append_assoc, List.append_assoc]
        refine hread ⟨rowBreak, _, hbreak, rfl⟩ (reads_loop_again hstep (List.cons_ne_nil _ _)
          (reads_tabularStep_rowBreak t _) ?_)
        rw [hnext]
        exact hread' hgo

/-! ## The environment -/

/-- The tokens of a name in braces. -/
def nameTokens (ts : List Token) : List Token :=
  leftBrace :: ts ++ [rightBrace]

theorem environmentNameFrom_of_braceless {ts : List Token}
    (hts : ∀ t ∈ ts, t.kind ≠ .openGroup ∧ t.kind ≠ .closeGroup) (name : String)
    (rest : List Token) :
    environmentNameFrom name (ts ++ rightBrace :: rest) =
      (some (name ++ Token.text ts), ts.length + 1) := by
  induction ts generalizing name with
  | nil =>
    show (some name, 1) = (some (name ++ ""), 1)
    rw [String.append_empty]
  | cons t ts ih =>
    obtain ⟨hopen, hclose⟩ := hts t List.mem_cons_self
    have hrest := ih (fun u hu => hts u (List.mem_cons_of_mem t hu)) (name ++ t.raw)
    rw [List.cons_append, environmentNameFrom]
    split
    · exact absurd ‹_› hclose
    · exact absurd ‹_› hopen
    · have htext : Token.text (t :: ts) = t.raw ++ Token.text ts := String.join_cons
      rw [hrest, htext, String.append_assoc]
      rfl

theorem reads_takeEnvironmentName {ts : List Token}
    (hts : ∀ t ∈ ts, t.kind ≠ .openGroup ∧ t.kind ≠ .closeGroup) (rest : List Token) :
    Reads n takeEnvironmentName (nameTokens ts) (some (Token.text ts)) rest := by
  have hname : environmentName (nameTokens ts ++ rest) =
      (some (Token.text ts), (nameTokens ts).length) := by
    have hfrom := environmentNameFrom_of_braceless hts "" rest
    rw [String.empty_append] at hfrom
    have hcut : nameTokens ts ++ rest = leftBrace :: (ts ++ rightBrace :: rest) := by
      rw [nameTokens, List.append_assoc]
      rfl
    rw [hcut, environmentName, show leftBrace.raw = "\x7b" from rfl, if_pos rfl, hfrom, nameTokens]
    simp
  refine reads_get_bind conserves_takeEnvironmentName fun p hp => ?_
  dsimp only
  rw [hp, hname]
  exact reads_bind_right (reads_advance _ rest) (fun _ => conserves_pure _) (reads_pure _ _)

section Environment

variable {name : List Token} {f : Expr → List Token} {rows : List (List Expr)}
variable {entry : IndexedEntry} {others : List IndexedEntry}

/-- The tokens of an environment. -/
def environmentTokens (name : List Token) (f : Expr → List Token) (rows : List (List Expr)) :
    List Token :=
  beginCommand :: nameTokens name ++ (rowsTokens f rows ++ endCommand :: nameTokens name)

/-- The cells of an environment are read together with the end command and the name behind it. -/
theorem exists_reads_tabular (hname : ∀ t ∈ name, t.kind ≠ .openGroup ∧ t.kind ≠ .closeGroup)
    (hne : ∀ row ∈ rows, row ≠ []) (h : ∀ row ∈ rows, ∀ e ∈ row, IsCell ix e (f e))
    (rest : List Token) :
    ∃ t : Tabular, t.toExpr = .apply "List" (rows.map (.apply "List")) ∧
      Reads n (tabular (atDepth ix n)) (rowsTokens f rows ++ endCommand :: nameTokens name) t
        rest := by
  have hi := conserves_atDepth ix n
  obtain ⟨t, hall, hread⟩ := @exists_reads_rows ix n f rows hne h []
  refine ⟨t, ?_, hread (reads_loop_last (fun t => conserves_tabularStep hi t)
    (reads_tabularStep_end t (reads_takeEnvironmentName hname rest)))⟩
  rw [Tabular.toExpr, hall, List.nil_append, List.map_map]
  congr 1
  refine List.map_congr_left fun row _ => ?_
  rw [Function.comp_apply, List.map_map, Function.comp_def]
  exact congrArg _ (List.map_id row)

/-- An environment is read as what its entry is called, applied to the list of its rows. -/
theorem reads_environment (hname : ∀ t ∈ name, t.kind ≠ .openGroup ∧ t.kind ≠ .closeGroup)
    (hentry : ix.environments (Token.text name) = entry :: others) (hparse : entry.parse = none)
    (hne : ∀ row ∈ rows, row ≠ []) (h : ∀ row ∈ rows, ∀ e ∈ row, IsCell ix e (f e))
    (rest : List Token) :
    Reads n (environment ix (atDepth ix n)) (environmentTokens name f rows)
      (some (.apply entry.head [.apply "List" (rows.map (.apply "List"))])) rest := by
  have hi := conserves_atDepth ix n
  obtain ⟨t, hexpr, htabular⟩ := @exists_reads_tabular ix n name f rows hname hne h rest
  have hbody : ∀ o : Option String,
      Conserves n (o.elim (pure none) (environmentBody ix (atDepth ix n))) := by
    rintro (_ | name)
    · exact conserves_pure _
    · exact conserves_environmentBody ix hi name
  -- the step as a choice on the name, for which the rules for two steps in a row apply
  have hstep : environmentStep ix (atDepth ix n) = (do
      Reading.advance 1
      (← takeEnvironmentName).elim (pure none) (environmentBody ix (atDepth ix n))) :=
    bind_congr fun _ => bind_congr fun o => by cases o <;> rfl
  rw [environment_eq, hstep]
  refine reads_rewinding ?_
  show Reads n _ ([beginCommand] ++ (nameTokens name ++ _)) _ _
  refine reads_bind (reads_advance_one beginCommand _)
    (fun _ => conserves_bind conserves_takeEnvironmentName hbody) ?_
  refine reads_bind (reads_takeEnvironmentName hname _) hbody ?_
  have hne : ix.environments (Token.text name) ≠ [] := by
    rw [hentry]
    exact List.cons_ne_nil entry others
  rw [Option.elim_some, environmentBody_of_ne_nil hne, hentry]
  refine reads_bind_right htabular
    (fun x => conserves_firstOf fun _ _ => conserves_tryEnvironment hi _ _) ?_
  refine reads_firstOf_head (fun _ _ => conserves_tryEnvironment hi _ _) ?_
  rw [tryEnvironment, hparse, hexpr]
  exact reads_pure _ _

/-- An environment begins an expression, whatever comes after it. -/
theorem opens_environment {m : Precedence} {avoid : List String}
    (hl : ∀ us, ix.lookup .matchfix ("\\begin" :: us) = [])
    (hname : ∀ t ∈ name, t.kind ≠ .openGroup ∧ t.kind ≠ .closeGroup)
    (hentry : ix.environments (Token.text name) = entry :: others) (hparse : entry.parse = none)
    (hne : ∀ row ∈ rows, row ≠ []) (h : ∀ row ∈ rows, ∀ e ∈ row, IsCell ix e (f e)) :
    Opens ix m (.apply entry.head [.apply "List" (rows.map (.apply "List"))])
      (environmentTokens name f rows) 65536 avoid := by
  refine opens_of_primary fun n rest _ => ?_
  have hi := conserves_atDepth ix n
  refine reads_primary_of_head (t := beginCommand) (by decide) rfl ?_
  unfold primaryFrom
  rw [if_neg (by decide), if_neg (by decide), if_neg (by decide)]
  refine reads_firstOf_tail (reads_matchfix_none (hl _)) ?_
  refine reads_firstOf_head (fun r hr => ?_) (reads_environment hname hentry hparse hne h rest)
  simp only [List.mem_cons, List.not_mem_nil, or_false] at hr
  rcases hr with rfl | rfl
  · exact conserves_prefixOperation ix hi m
  · exact conserves_symbol ix hi

end Environment

end Parser

namespace Lexer

open MathMarkup.Parser

/-! ## The markup of an environment -/

/-- The mark between cells stands between blanks. -/
theorem detached_ampersand : Detached " & " [ampersand] := by
  refine ⟨fun rest => ?_, kept_of_not_mem (by decide)⟩
  show scanFrom .math (' ' :: '&' :: ' ' :: rest) = _
  rw [scanFrom_space, scanFrom_lone (c := '&') (by decide), scanFrom_space]
  rfl

theorem detached_rowBreak : Detached "\\\\" [rowBreak] :=
  ⟨fun _ => scanFrom_of_next rfl, kept_of_not_mem (by decide)⟩

/-- A command and a name in braces behind it. -/
theorem detached_named {w name : String} {ts : List Token} (hw : ControlWord w) (hk : w ∉ spacing)
    (h : Scans name ts) :
    Detached (w ++ ("\x7b" ++ name ++ "\x7d")) (⟨w, .command⟩ :: nameTokens ts) := by
  refine (scans_controlWord hw hk).detach (detached_braced h) ?_ ?_
  · rw [String.append_assoc]
    exact stops_braced _
  · intro hempty
    have hlist := congrArg String.toList hempty
    rw [String.append_assoc, String.toList_append] at hlist
    exact List.cons_ne_nil _ _ hlist

/-- The markup of an environment. -/
def environmentMarkup (name : String) (f : Expr → String) (rows : List (List Expr)) : String :=
  "\\begin\x7b" ++ name ++ "\x7d" ++
    "\\\\".intercalate (rows.map fun row => " & ".intercalate (row.map f)) ++
    "\\end\x7b" ++ name ++ "\x7d"

theorem scans_environment {name : String} {ts : List Token} {f : Expr → String}
    {g : Expr → List Token} {rows : List (List Expr)} (hname : Scans name ts)
    (h : ∀ row ∈ rows, ∀ e ∈ row, Scans (f e) (g e)) :
    Scans (environmentMarkup name f rows) (environmentTokens ts g rows) := by
  have hbegin : Detached ("\\begin" ++ ("\x7b" ++ name ++ "\x7d"))
      (beginCommand :: nameTokens ts) :=
    detached_named ⟨⟨"begin".toList, by decide, List.all_eq_true.1 (by decide), rfl⟩, by decide⟩
      (by decide) hname
  have hend : Detached ("\\end" ++ ("\x7b" ++ name ++ "\x7d")) (endCommand :: nameTokens ts) :=
    detached_named ⟨⟨"end".toList, by decide, List.all_eq_true.1 (by decide), rfl⟩, by decide⟩
      (by decide) hname
  have hrows : Scans ("\\\\".intercalate (rows.map fun row => " & ".intercalate (row.map f)))
      (rowsTokens g rows) := by
    refine Scans.intercalate detached_rowBreak ?_ (by decide) fun row hrow =>
      Scans.intercalate detached_ampersand ?_ (by decide) (h row hrow)
    · exact fun c hc => by rw [← Option.some.inj hc]; decide
    · exact fun c hc => by rw [← Option.some.inj hc]; decide
  -- the last cell ends before the backslash of the end command
  have hstop : Stops ("\\end" ++ ("\x7b" ++ name ++ "\x7d")).toList := by
    intro c hc
    rw [String.toList_append] at hc
    rw [← Option.some.inj hc]
    decide
  have hwhole := hbegin.before (hrows.append hend.scans hstop)
  rw [environmentMarkup, show "\\begin\x7b" = "\\begin" ++ "\x7b" from rfl,
    show "\\end\x7b" = "\\end" ++ "\x7b" from rfl]
  simp only [String.append_assoc] at hwhole ⊢
  exact hwhole

end Lexer

namespace Standard

open MathMarkup.Lexer MathMarkup.Parser MathMarkup.Reading

/-! ## Matrices of standard notation -/

theorem foreign_mark {m : Token} (hm : m ∈ marks) : Foreign m.raw := by
  have hall : Lexicon.standard.all fun f => marks.all fun m => f.trigger.head? != some m.raw := by
    decide +kernel
  intro f hf
  exact bne_iff_ne.1 (List.all_eq_true.1 (List.all_eq_true.1 hall f hf) m hm)

/-- A mark ends every expression. -/
theorem ends_mark {m : Token} (hm : m ∈ marks) (k : Nat) (us : List Token) :
    Ends Index.standard k extending (m :: us) := by
  have hplain : Plain m ∧ m.raw ∉ extending ∧ Name.identifier? (m :: us) = none := by
    simp only [marks, List.mem_cons, List.not_mem_nil, or_false] at hm
    rcases hm with rfl | rfl | rfl <;>
      exact ⟨⟨by decide, by decide, by decide, by decide, by decide⟩, by decide, rfl⟩
  obtain ⟨hp, hcalm, hnone⟩ := hplain
  exact ends_of_stray hp hcalm (fun kind => lookup_foreign (foreign_mark hm) kind _) hnone k

/-- A matrix with the rows. -/
def matrix (rows : List (List Expr)) : Expr :=
  .apply "Matrix" [.apply "List" (rows.map (.apply "List"))]

theorem size_lt_matrix {rows : List (List Expr)} {row : List Expr} (hrow : row ∈ rows) {cell : Expr}
    (hcell : cell ∈ row) : cell.size < (matrix rows).size := by
  have hin : cell.size < (Expr.apply "List" row).size := Expr.size_lt_of_mem_operands hcell
  have hlist : (Expr.apply "List" row).size < (Expr.apply "List" (rows.map (.apply "List"))).size :=
    Expr.size_lt_of_mem_operands (List.mem_map_of_mem hrow)
  have hmatrix : (Expr.apply "List" (rows.map (.apply "List"))).size < (matrix rows).size :=
    Expr.size_lt_of_mem_operands List.mem_cons_self
  omega

theorem mapM_eq_pure {α β : Type} {f : α → Rendering β} {g : α → β} {as : List α}
    (h : ∀ a ∈ as, f a = pure (g a)) : as.mapM f = pure (as.map g) := by
  induction as with
  | nil => rfl
  | cons a as ih =>
    rw [List.mapM_cons, h a List.mem_cons_self, pure_bind,
      ih fun x hx => h x (List.mem_cons_of_mem a hx), pure_bind]
    rfl

variable {canonical : Bool}

/-- A matrix is rendered as an environment with parentheses. -/
theorem renders_matrix {rows : List (List Expr)} {f : Expr → String}
    (h : ∀ row ∈ rows, ∀ cell ∈ row, (renderer canonical).Renders cell (f cell)) :
    (renderer canonical).Renders (matrix rows) (environmentMarkup "pmatrix" f rows) := by
  obtain ⟨g, hg, hn, hk, ht, hr⟩ : ∃ g ∈ Lexicon.standard, g.name = some "Matrix" ∧
      Index.usable? g = some (g.indexed .environment) ∧ g.trigger = ["pmatrix"] ∧ g.render = none :=
    ⟨_, mem_standard (c := .core) (List.mem_of_getElem? (i := 13) rfl), rfl, rfl, rfl, rfl⟩
  have hname : String.join (g.indexed .environment).trigger = "pmatrix" := by
    show String.join g.trigger = _
    rw [ht]
    rfl
  intro level
  rw [Renderer.render_eq]
  show (renderer canonical).application _ (matrix rows) "Matrix" level = _
  have hentry : (renderer canonical).index.byName? "Matrix" = some (g.indexed .environment) :=
    byName?_standard hg hk hn
  unfold Renderer.application
  rw [hentry]
  dsimp only
  have hroutine : (g.indexed .environment).render = none := by
    simp only [Entry.indexed, hr]
  rw [hroutine]
  show Renderer.environment _ (matrix rows) (g.indexed .environment) level = _
  unfold Renderer.environment
  rw [hname]
  -- each row and then all of them: nothing warns, so the routine is one pure value
  have hrow : ∀ row ∈ rows, (do
      return " & ".intercalate (← (Expr.apply "List" row).operands.mapM fun cell =>
        (renderer canonical).under (matrix rows) cell (level + 1)) : Rendering String) =
      pure (" & ".intercalate (row.map f)) := by
    intro row hrow
    have hcells : ∀ cell ∈ row, (renderer canonical).under (matrix rows) cell (level + 1) =
        pure (f cell) := by
      intro cell hcell
      unfold Renderer.under
      rw [dif_pos (size_lt_matrix hrow hcell), h row hrow cell hcell (level + 1)]
    show (row.mapM _ >>= _) = _
    rw [mapM_eq_pure hcells, pure_bind]
  have hrows : (rows.map (Expr.apply "List")).mapM (fun row => do
      return " & ".intercalate (← row.operands.mapM fun cell =>
        (renderer canonical).under (matrix rows) cell (level + 1)) : Expr → Rendering String) =
      pure (rows.map fun row => " & ".intercalate (row.map f)) := by
    rw [List.mapM_map]
    exact mapM_eq_pure hrow
  show ((rows.map (Expr.apply "List")).mapM _ >>= _) = _
  rw [hrows]
  rfl

/-! ## What is read back -/

/-- The markup of an expression. -/
def markup (canonical : Bool) (e : Expr) : String :=
  ((renderer canonical).render e 0 []).1

def tokens (canonical : Bool) (e : Expr) : List Token :=
  Token.scan (markup canonical e)

/-- An expression is rendered without a warning, and can be a cell wherever its markup stands. -/
structure Tabulated (canonical : Bool) (e : Expr) : Prop where
  renders : (renderer canonical).Renders e (markup canonical e)
  legible : Legible Index.standard e (markup canonical e) (tokens canonical e) 65536 65536 extending
  begins : ∃ t us, tokens canonical e = t :: us ∧ t ∉ marks

theorem tabulated_of_legible {e : Expr} {s : String} {ts : List Token} {t : Token}
    {us : List Token} (hr : (renderer canonical).Renders e s)
    (hl : Legible Index.standard e s ts 65536 65536 extending) (hts : ts = t :: us)
    (ht : t ∉ marks) : Tabulated canonical e := by
  have hmarkup : markup canonical e = s := by
    rw [markup, hr 0]
    rfl
  have htokens : tokens canonical e = ts := by
    rw [tokens, hmarkup, hl.scans.scan_eq]
  rw [← hmarkup] at hr hl
  rw [← htokens] at hl hts
  exact ⟨hr, hl, t, us, hts, ht⟩

theorem Tabulated.isCell {e : Expr} (h : Tabulated canonical e) :
    IsCell Index.standard e (tokens canonical e) :=
  ⟨h.begins, fun n _ hm us => h.legible.reads (Nat.zero_le _) (ends_mark hm _ us) n⟩

theorem tabulated_letter {c : Char} (hc : c.isAlpha = true) :
    Tabulated canonical (.symbol (String.ofList [c])) := by
  refine tabulated_of_legible (renders_standardLetter canonical hc)
    (legible_standardLetter hc extending) rfl fun hm => ?_
  exact Name.not_mem_of_letter hc (show ["&", "\\\\", "\\end"].all _ from by decide)
    (List.mem_map_of_mem (f := Token.raw) hm)

theorem tabulated_integer {ds : List Char} (h : Numeral.Canonical ds) :
    Tabulated canonical (.number (String.ofList ds)) := by
  have hgrouped : Numeral.Grouped (Numeral.groups ds) ds :=
    Numeral.grouped_chunksFromRight h.ne_nil
  obtain ⟨g, ts, -, hts⟩ := Numeral.head?_groupTokens hgrouped.ne_nil
  refine tabulated_of_legible (Renderer.renders_number (Numeral.render_canonical h))
    (legible_integer h) hts fun hm => ?_
  have hkind : ∀ m ∈ marks, m.kind ≠ .number := by decide
  exact hkind _ hm rfl

/-- The entry that matrices are read with. -/
theorem environments_pmatrix : ∃ entry, Index.standard.environments "pmatrix" = [entry] ∧
    entry.parse = none ∧ entry.head = "Matrix" := by
  have heval : (Index.standard.environments "pmatrix").map (fun e => (e.parse.isNone, e.head)) =
      [(true, "Matrix")] := by
    decide +kernel
  obtain ⟨entry, hentry, hsame⟩ := List.map_eq_singleton_iff.1 heval
  obtain ⟨hparse, hhead⟩ := Prod.mk.inj hsame
  exact ⟨entry, hentry, Option.isNone_iff_eq_none.1 hparse, hhead⟩

/-- A matrix is read back from its rendering if its cells are and no row is without cells. -/
theorem tabulated_matrix {rows : List (List Expr)} (hne : ∀ row ∈ rows, row ≠ [])
    (h : ∀ row ∈ rows, ∀ cell ∈ row, Tabulated canonical cell) :
    Tabulated canonical (matrix rows) := by
  obtain ⟨entry, hentry, hparse, hhead⟩ := environments_pmatrix
  have hname : Scans "pmatrix" ("pmatrix".toList.map Name.letterToken) :=
    Name.scans_letters (List.all_eq_true.1 (by decide))
  have hkinds : ∀ t ∈ "pmatrix".toList.map Name.letterToken,
      t.kind ≠ .openGroup ∧ t.kind ≠ .closeGroup := by
    intro t ht
    obtain ⟨c, -, rfl⟩ := List.mem_map.1 ht
    exact ⟨TokenKind.noConfusion, TokenKind.noConfusion⟩
  have htext : Token.text ("pmatrix".toList.map Name.letterToken) = "pmatrix" := by decide
  -- the entry is found by what the tokens of the name say
  rw [← htext] at hentry
  have hrivals : Index.rivals Lexicon.standard .matchfix ["\\begin"] [] = 0 := by decide +kernel
  have hlookup : ∀ us, Index.standard.lookup .matchfix ("\\begin" :: us) = [] := fun us =>
    Index.lookup_of_no_rivals hrivals fun u _ => List.not_mem_nil
  have hlegible : Legible Index.standard (matrix rows)
      (environmentMarkup "pmatrix" (markup canonical) rows)
      (environmentTokens ("pmatrix".toList.map Name.letterToken) (tokens canonical) rows)
      65536 65536 extending := by
    have hscans := scans_environment hname fun row hrow cell hcell =>
      (h row hrow cell hcell).legible.scans
    refine ⟨hscans, ⟨beginCommand, _, rfl, by decide, by decide, by decide⟩, fun m _ => ?_,
      Nat.le_refl _⟩
    have hopens := @opens_environment Index.standard _ (tokens canonical) rows entry [] m extending
      hlookup hkinds hentry hparse hne fun row hrow cell hcell => (h row hrow cell hcell).isCell
    rw [hhead] at hopens
    exact hopens
  have hrenders := renders_matrix fun row hrow cell hcell => (h row hrow cell hcell).renders
  exact tabulated_of_legible hrenders hlegible rfl (by decide)

/-- What the cells of a matrix are: letters, integers and matrices again. Rows may be of different
lengths, but each has a cell; there may be none at all. -/
inductive Cell : Expr → Prop where
  | letter {c : Char} (hc : c.isAlpha = true) : Cell (.symbol (String.ofList [c]))
  | integer {ds : List Char} (hds : Numeral.Canonical ds) : Cell (.number (String.ofList ds))
  | matrix {rows : List (List Expr)} (hne : ∀ row ∈ rows, row ≠ [])
      (h : ∀ row ∈ rows, ∀ cell ∈ row, Cell cell) : Cell (matrix rows)

theorem Cell.tabulated {e : Expr} (h : Cell e) : Tabulated canonical e := by
  induction h with
  | letter hc => exact tabulated_letter hc
  | integer hds => exact tabulated_integer hds
  | matrix hne _ ih => exact tabulated_matrix hne ih

/-- A matrix is parsed back from its rendering, unless it nests too deeply. -/
theorem parse_render_matrix {rows : List (List Expr)} (hne : ∀ row ∈ rows, row ≠ [])
    (hcells : ∀ row ∈ rows, ∀ cell ∈ row, Cell cell) (canonical : Bool) :
    let t : Transcoder := {}
    let markup := (t.render (matrix rows) canonical).1
    (reading markup).2.tooDeep = false → (t.parse markup).1 = matrix rows := by
  intro t markup hdeep
  have h : Tabulated canonical (matrix rows) := (Cell.matrix hne hcells).tabulated
  rw [parse_eq]
  rcases h.legible.parse arranged with hd | hparse
  · exact absurd (hd.symm.trans hdeep) (by decide)
  · exact hparse

/-- Rows of different lengths, the last one of a single cell, which is a matrix without rows, and a
matrix of two rows inside. -/
def sampleMatrix : List (List Expr) :=
  [[.symbol "a", matrix [[.number "1", .symbol "b"], [.number "20"]]], [matrix []]]

theorem parse_render_sampleMatrix :
    (∀ row ∈ sampleMatrix, row ≠ []) ∧ (∀ row ∈ sampleMatrix, ∀ cell ∈ row, Cell cell) ∧
    let t : Transcoder := {}
    let markup := (t.render (matrix sampleMatrix) false).1
    markup = "\\begin\x7bpmatrix\x7da & \\begin\x7bpmatrix\x7d1 & b\\\\20\\end\x7bpmatrix\x7d\\\\" ++
        "\\begin\x7bpmatrix\x7d\\end\x7bpmatrix\x7d\\end\x7bpmatrix\x7d" ∧
      (reading markup).2.tooDeep = false ∧ (t.parse markup).1 = matrix sampleMatrix := by
  have hint : ∀ s : String, Numeral.Canonical s.toList → Cell (.number s) := by
    intro s hs
    rw [← String.ofList_toList (s := s)]
    exact .integer hs
  have hin : Cell (matrix [[.number "1", .symbol "b"], [.number "20"]]) := by
    refine .matrix (by simp) ?_
    simp only [List.mem_cons, List.not_mem_nil, or_false, forall_eq_or_imp, forall_eq]
    exact ⟨⟨hint "1" (by decide), .letter (c := 'b') rfl⟩, hint "20" (by decide)⟩
  have hne : ∀ row ∈ sampleMatrix, row ≠ [] := by simp [sampleMatrix]
  have hcells : ∀ row ∈ sampleMatrix, ∀ cell ∈ row, Cell cell := by
    simp only [sampleMatrix, List.mem_cons, List.not_mem_nil, or_false, forall_eq_or_imp, forall_eq]
    exact ⟨⟨.letter (c := 'a') rfl, hin⟩, .matrix (by simp) (by simp)⟩
  -- the markup and its depth are computed, and what is read of it is by the theorem
  obtain ⟨hmarkup, hdeep⟩ : (({} : Transcoder).render (matrix sampleMatrix) false).1 =
        "\\begin\x7bpmatrix\x7da & \\begin\x7bpmatrix\x7d1 & b\\\\20\\end\x7bpmatrix\x7d\\\\" ++
        "\\begin\x7bpmatrix\x7d\\end\x7bpmatrix\x7d\\end\x7bpmatrix\x7d" ∧
      (reading (({} : Transcoder).render (matrix sampleMatrix) false).1).2.tooDeep = false := by
    decide +kernel
  exact ⟨hne, hcells, hmarkup, hdeep, parse_render_matrix hne hcells false hdeep⟩

end Standard
end MathMarkup
