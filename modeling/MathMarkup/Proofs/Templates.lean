import Mathlib.Data.List.Chain
import Mathlib.Data.List.TakeWhile
import MathMarkup.Proofs.NeutralMarkup
import MathMarkup.Proofs.Rendering
import MathMarkup.Proofs.Respelling

/-!
# Templates in pieces

A template by itself comes apart into pieces: literal text, and arguments by their numbers. A hash
with a digit behind it is an argument unless a backslash stands right before it. Filling the
template writes the pieces one after the other, except where an argument ends in a backslash and
another placeholder comes right behind it: filling looks at what is written and not at the template,
and takes that hash for a literal one. So the arguments have no say in what a template means exactly
if no two placeholders stand side by side (`fill_eq_write`).
-/

namespace MathMarkup

open Lexer (toList_append joint joint_eq)

/-! ## Writing a fragment -/

/-- Nothing but spaces comes between fragments. -/
theorem count_append {c : Char} (hc : c ≠ ' ') (written fragment : String) :
    (append written fragment).toList.count c =
      written.toList.count c + fragment.toList.count c := by
  have hjoint : (joint written fragment).count c = 0 := by
    rcases joint_eq written fragment with h | ⟨h, -⟩
    · rw [h, List.count_nil]
    · rw [h]
      exact List.count_eq_zero.2 fun hm => hc (List.mem_singleton.1 hm)
  rw [toList_append, List.count_append, List.count_append, hjoint, Nat.zero_add]

/-- A fragment comes behind what is written, with a space between them at most. -/
theorem exists_append (written fragment : String) :
    ∃ gap, append written fragment = written ++ gap ++ fragment := by
  refine ⟨String.ofList (joint written fragment), String.toList_inj.1 ?_⟩
  rw [toList_append, String.toList_append, String.toList_append, String.toList_ofList,
    List.append_assoc]

/-- Nothing that is written is lost. -/
theorem append_ne_empty {written : String} (h : written ≠ "") (fragment : String) :
    append written fragment ≠ "" := by
  obtain ⟨gap, hgap⟩ := exists_append written fragment
  rw [hgap]
  simp [h]

namespace Template

/-! ## Pieces -/

/-- A piece of a template. -/
inductive Piece where
  | text (markup : String)
  /-- The place of the argument with a number. -/
  | slot (n : Nat)
  deriving DecidableEq, Repr

/-- What a piece is written as. -/
def Piece.markup (args : List String) : Piece → String
  | .text markup => markup
  | .slot n => argument args n

theorem Piece.markup_slot (args : List String) (n : Nat) :
    (Piece.slot n).markup args = argument args n :=
  rfl

/-- Literal text, if there is any. -/
def literal (cs : List Char) : List Piece :=
  if cs.isEmpty then [] else [.text (String.ofList cs)]

/-- The pieces of a template. -/
def pieces (template : List Char) : List Piece :=
  let text := template.takeWhile (· != '#')
  match _h : template.dropWhile (· != '#') with
  | [] => literal text
  | [_] => literal text ++ [.text "#"]
  | _ :: c :: rest =>
    match placeholder? c with
    | some n =>
      if text.getLast? = some '\\' then literal text ++ .text "#" :: pieces (c :: rest)
      else literal text ++ .slot n :: pieces rest
    | none => literal text ++ .text "#" :: pieces (c :: rest)
termination_by template.length
decreasing_by
  all_goals
    have := congrArg List.length _h
    have := (List.dropWhile_sublist (p := (· != '#')) (l := template)).length_le
    simp only [List.length_cons] at *
    omega

/-- Writes pieces behind some markup. -/
def write (args : List String) (written : String) (ps : List Piece) : String :=
  ps.foldl (fun written p => append written (p.markup args)) written

/-! ## Templates by their hashes -/

section Steps

variable {cs : List Char}

/-- The pieces go by what is behind the text up to a hash. -/
theorem pieces_eq (template : List Char) :
    pieces template =
      let text := template.takeWhile (· != '#')
      match template.dropWhile (· != '#') with
      | [] => literal text
      | [_] => literal text ++ [.text "#"]
      | _ :: c :: rest =>
        match placeholder? c with
        | some n =>
          if text.getLast? = some '\\' then literal text ++ .text "#" :: pieces (c :: rest)
          else literal text ++ .slot n :: pieces rest
        | none => literal text ++ .text "#" :: pieces (c :: rest) := by
  rw [pieces]
  split
  next heq => rw [heq]
  next heq => rw [heq]
  next heq => rw [heq]

/-- Text without a hash is one piece. -/
theorem pieces_text (h : '#' ∉ cs) : pieces cs = literal cs := by
  obtain ⟨ht, hd⟩ := takeWhile_of_not_hash h
  rw [pieces_eq, ht, hd]

theorem pieces_nil : pieces [] = [] :=
  pieces_text List.not_mem_nil

/-- A hash without a number behind it, or behind a backslash, is literal. -/
theorem pieces_literal (h : '#' ∉ cs) {rest : List Char}
    (hl : cs.getLast? = some '\\' ∨ rest.head?.bind placeholder? = none) :
    pieces (cs ++ '#' :: rest) = literal cs ++ .text "#" :: pieces rest := by
  -- the text up to the hash is cut off, so the cases of the definition are those of what is behind
  -- it
  obtain ⟨ht, hd⟩ := takeWhile_hash h rest
  rw [pieces_eq, ht, hd]
  cases rest with
  | nil =>
    dsimp only
    rw [pieces_nil]
  | cons c rest =>
    dsimp only
    cases hn : placeholder? c with
    | none => rfl
    | some n =>
      dsimp only
      rw [if_pos (hl.resolve_right fun hno => by
        rw [List.head?_cons, Option.bind_some, hn] at hno
        cases hno)]

/-- Any other hash is a placeholder. -/
theorem pieces_slot (h : '#' ∉ cs) (hl : cs.getLast? ≠ some '\\') {c : Char} {n : Nat}
    (hc : placeholder? c = some n) (rest : List Char) :
    pieces (cs ++ '#' :: c :: rest) = literal cs ++ .slot n :: pieces rest := by
  obtain ⟨ht, hd⟩ := takeWhile_hash h (c :: rest)
  rw [pieces_eq, ht, hd]
  dsimp only
  rw [hc]
  dsimp only
  rw [if_neg hl]

/-- A template is text, or there is text before its first hash and a shorter template behind it. -/
theorem pieces_induction {motive : List Char → Prop} (text : ∀ cs, '#' ∉ cs → motive cs)
    (literal : ∀ cs rest, '#' ∉ cs →
      (cs.getLast? = some '\\' ∨ rest.head?.bind placeholder? = none) →
      motive rest → motive (cs ++ '#' :: rest))
    (slot : ∀ cs c n rest, '#' ∉ cs → cs.getLast? ≠ some '\\' → placeholder? c = some n →
      motive (c :: rest) → motive rest → motive (cs ++ '#' :: c :: rest))
    (template : List Char) : motive template := by
  induction hn : template.length using Nat.strong_induction_on generalizing template with
  | _ n ih =>
    subst hn
    by_cases hm : '#' ∈ template
    · obtain ⟨cs, rest, rfl, hcs⟩ := List.eq_append_cons_of_mem hm
      -- on the length, as a placeholder takes two characters and the lemmas look at what is behind
      -- either
      have hshort : ∀ s, s <:+ rest → motive s := fun s hs => by
        refine ih s.length ?_ s rfl
        have := hs.length_le
        simp only [List.length_append, List.length_cons]
        omega
      by_cases hl : cs.getLast? = some '\\' ∨ rest.head?.bind placeholder? = none
      · exact literal cs rest hcs hl (hshort rest List.suffix_rfl)
      · rw [not_or] at hl
        obtain ⟨n, hn⟩ := Option.ne_none_iff_exists'.1 hl.2
        obtain ⟨c, hc, hp⟩ := Option.bind_eq_some_iff.1 hn
        obtain ⟨after, rfl⟩ := List.head?_eq_some_iff.1 hc
        exact slot cs c n after hcs hl.1 hp (hshort _ List.suffix_rfl)
          (hshort after (List.suffix_cons c after))
    · exact text template hm

/-- A hash that is escaped by what is written, or has no digit behind it, is filled as it is. -/
theorem fillFrom_literal (args : List String) (written : String) (h : '#' ∉ cs) {rest : List Char}
    (hl : escapesHash (append written (String.ofList cs)) = true ∨
      rest.head?.bind placeholder? = none) :
    fillFrom args written (cs ++ '#' :: rest) =
      fillFrom args ((append written (String.ofList cs)).push '#') rest := by
  -- as for the pieces: the cases of the definition are those of what is behind the hash
  obtain ⟨ht, hd⟩ := takeWhile_hash h rest
  rw [fillFrom_eq, ht, hd]
  cases rest with
  | nil =>
    dsimp only
    rw [fillFrom_text _ _ List.not_mem_nil, String.ofList_nil, append_empty]
  | cons c rest =>
    dsimp only
    cases hn : placeholder? c with
    | none => rfl
    | some n =>
      dsimp only
      rw [if_pos (hl.resolve_right fun hno => by
        rw [List.head?_cons, Option.bind_some, hn] at hno
        cases hno)]

end Steps

/-! ## Writing pieces -/

/-- What is written ends in what was appended last, if that was anything. -/
theorem escapesHash_append_of_ne {fragment : String} (h : fragment ≠ "") (written : String) :
    escapesHash (append written fragment) = escapesHash fragment := by
  obtain ⟨gap, hgap⟩ := exists_append written fragment
  have hne : fragment.toList ≠ [] := fun hnil => h (String.toList_inj.1 hnil)
  rw [hgap, escapesHash, escapesHash, String.toList_append, List.getLast?_append_of_ne_nil _ hne]

/-- A hash is appended without a space. -/
theorem append_hash (written : String) : append written "#" = written.push '#' := by
  rw [append, show extendsControlWord "#" = false from rfl, Bool.false_and,
    if_neg Bool.false_ne_true, ← String.append_singleton]
  rfl

/-- Behind a hash that was written, no placeholder is escaped. -/
theorem escapesHash_push_hash (written : String) : escapesHash (written.push '#') = false := by
  rw [← append_hash]
  exact escapesHash_append_of_ne (by decide) written

/-- Pieces in a row are written one after the other. -/
theorem write_append (args : List String) (written : String) (ps qs : List Piece) :
    write args written (ps ++ qs) = write args (write args written ps) qs :=
  List.foldl_append

/-- The first piece is written before the others. -/
theorem write_cons (args : List String) (written : String) (p : Piece) (ps : List Piece) :
    write args written (p :: ps) = write args (append written (p.markup args)) ps :=
  rfl

/-- Literal text is appended as it is, or not at all if there is none. -/
theorem write_literal (args : List String) (written : String) (cs : List Char) :
    write args written (literal cs) = append written (String.ofList cs) := by
  unfold literal
  split
  next h =>
    rw [List.isEmpty_iff.1 h, String.ofList_nil, append_empty]
    rfl
  next => rfl

/-- The markup of literal text is the text. -/
theorem flatMap_literal (args : List String) (cs : List Char) :
    ((literal cs).flatMap fun p => (p.markup args).toList) = cs := by
  unfold literal
  split
  next h =>
    exact (List.isEmpty_iff.1 h).symm
  next =>
    show (String.ofList cs).toList ++ [] = cs
    rw [String.toList_ofList, List.append_nil]

/-- A character other than the space is written as often as it occurs in the pieces. -/
theorem count_write {c : Char} (hc : c ≠ ' ') (args : List String) (written : String)
    (ps : List Piece) : (write args written ps).toList.count c =
      written.toList.count c + (ps.flatMap fun p => (p.markup args).toList).count c := by
  induction ps generalizing written with
  | nil => rfl
  | cons p ps ih =>
    rw [write_cons, ih, count_append hc, List.flatMap_cons, List.count_append, Nat.add_assoc]

/-! ## What the arguments may do -/

/-- An argument that ends in a backslash has no placeholder right behind it. -/
def Piece.Detached (args : List String) : Piece → Piece → Prop
  | .slot m, .slot _ => escapesHash (argument args m) = false
  | _, _ => True

/-- No placeholder is switched off. -/
abbrev Guarded (args : List String) (ps : List Piece) : Prop :=
  ps.IsChain (Piece.Detached args)

/-- Two pieces that are not both placeholders. -/
def Piece.Apart : Piece → Piece → Prop
  | .slot _, .slot _ => False
  | _, _ => True

/-- No two placeholders stand side by side. -/
abbrev Spaced (ps : List Piece) : Prop :=
  ps.IsChain Piece.Apart

instance (args : List String) : DecidableRel (Piece.Detached args)
  | .slot m, .slot _ => inferInstanceAs (Decidable (escapesHash (argument args m) = false))
  | .slot _, .text _ | .text _, _ => .isTrue trivial

instance : DecidableRel Piece.Apart
  | .slot _, .slot _ => .isFalse id
  | .slot _, .text _ | .text _, _ => .isTrue trivial

/-- Pieces that stand apart are detached, whatever the arguments. -/
theorem Piece.Apart.detached {p q : Piece} (h : p.Apart q) (args : List String) :
    p.Detached args q := by
  cases p with
  | text => trivial
  | slot =>
    cases q with
    | text => trivial
    | slot => exact h.elim

/-- An argument is detached from what comes next unless it escapes a placeholder there. -/
theorem Piece.detached_slot_iff {args : List String} {n : Nat} {p : Piece} :
    (Piece.slot n).Detached args p ↔
      (escapesHash (argument args n) = true → ∀ m, p ≠ .slot m) := by
  cases p with
  | text => exact iff_of_true trivial fun _ _ => Piece.noConfusion
  | slot m =>
    show escapesHash _ = false ↔ _
    rw [← Bool.not_eq_true]
    exact ⟨fun h ht => absurd ht h, fun h ht => h ht m rfl⟩

/-- Arguments that do not end in a backslash switch off nothing. -/
theorem guarded_of_arguments {args : List String}
    (h : ∀ a ∈ args, escapesHash a = false) (ps : List Piece) : Guarded args ps := by
  have hargument : ∀ n, escapesHash (argument args n) = false := by
    intro n
    unfold argument
    cases ha : args[n - 1]? with
    | none => rfl
    | some a => exact h a (List.mem_of_getElem? ha)
  induction ps with
  | nil => exact .nil
  | cons p ps ih =>
    refine List.isChain_cons.2 ⟨fun q _ => ?_, ih⟩
    cases p with
    | text => trivial
    | slot n => exact Piece.detached_slot_iff.2 fun ht => by rw [hargument] at ht; cases ht

/-- A piece of text makes no difference to which placeholders are neighbours. -/
theorem isChain_literal {R : Piece → Piece → Prop} (hr : ∀ s p, R (.text s) p) (cs : List Char)
    {ps : List Piece} : (literal cs ++ ps).IsChain R ↔ ps.IsChain R := by
  unfold literal
  split
  · rfl
  · rw [List.singleton_append, List.isChain_cons]
    exact and_iff_right fun p _ => hr _ p

/-- What comes behind a text is never in question. -/
theorem isChain_text {R : Piece → Piece → Prop} (hr : ∀ s p, R (.text s) p) (s : String)
    {ps : List Piece} : (Piece.text s :: ps).IsChain R ↔ ps.IsChain R := by
  rw [List.isChain_cons]
  exact and_iff_right fun p _ => hr s p

/-! ## Filling is writing the pieces -/

/-- What is written just before a placeholder that has no text in front of it. -/
theorem escapesHash_append_literal {written : String} {cs : List Char} {n : Nat} {ps : List Piece}
    (hl : cs.getLast? ≠ some '\\')
    (hw : escapesHash written = true → ∀ m, (literal cs ++ .slot n :: ps).head? ≠ some (.slot m)) :
    escapesHash (append written (String.ofList cs)) = false := by
  by_cases hcs : cs = []
  · subst hcs
    rw [String.ofList_nil, append_empty, ← Bool.not_eq_true]
    exact fun h => hw h n rfl
  · have hne : String.ofList cs ≠ "" := fun h => hcs (by simpa using congrArg String.toList h)
    rw [escapesHash_append_of_ne hne, escapesHash, String.toList_ofList]
    exact beq_eq_false_iff_ne.2 hl

/-- Text that ends in a backslash escapes the placeholder behind it. -/
theorem escapesHash_append_of_last {cs : List Char} (hl : cs.getLast? = some '\\')
    (written : String) : escapesHash (append written (String.ofList cs)) = true := by
  have hne : String.ofList cs ≠ "" := fun h => by
    rw [show cs = [] by simpa using congrArg String.toList h] at hl
    cases hl
  rw [escapesHash_append_of_ne hne, escapesHash, String.toList_ofList, hl]
  rfl

/-- Where no placeholder is switched off, a template is filled as its pieces say. What has been
written so far may end in a backslash if the template goes on with text. -/
theorem fillFrom_eq_write {args : List String} {template : List Char} {written : String}
    (hw : escapesHash written = true → ∀ n, (pieces template).head? ≠ some (.slot n))
    (hg : Guarded args (pieces template)) :
    fillFrom args written template = write args written (pieces template) := by
  have htext : ∀ s p, Piece.Detached args (.text s) p := fun _ _ => trivial
  induction template using pieces_induction generalizing written with
  | text cs hcs => rw [fillFrom_text _ _ hcs, pieces_text hcs, write_literal]
  | literal cs rest hcs hl ih =>
    have hlit := hl.imp_left fun hlast => escapesHash_append_of_last hlast written
    rw [pieces_literal hcs hl] at hg ⊢
    rw [fillFrom_literal _ _ hcs hlit, write_append, write_literal, write_cons, ← append_hash]
    refine ih (fun h => ?_) ((isChain_text htext "#").1 ((isChain_literal htext cs).1 hg))
    rw [append_hash, escapesHash_push_hash] at h
    cases h
  | slot cs c n rest hcs hl hp _ ih =>
    rw [pieces_slot hcs hl hp] at hg hw ⊢
    have hopen := escapesHash_append_literal hl hw
    obtain ⟨hnext, hg⟩ := List.isChain_cons.1 ((isChain_literal htext cs).1 hg)
    rw [fillFrom_placeholder _ _ hcs hp _ hopen, write_append, write_literal, write_cons]
    refine ih (fun h m hm => ?_) hg
    -- an empty argument leaves the end of the markup as it is, any other one is the new end
    by_cases hempty : argument args n = ""
    · rw [hempty, append_empty, hopen] at h
      cases h
    · rw [escapesHash_append_of_ne hempty] at h
      exact Piece.detached_slot_iff.1 (hnext _ hm) h m rfl

/-! ## Templates that every argument leaves as they are -/

/-- How many hashes there are in the text among some pieces. -/
def hashes (ps : List Piece) : Nat :=
  (ps.flatMap fun p => (p.markup []).toList).count '#'

/-- The hashes of pieces in a row. -/
theorem hashes_append (ps qs : List Piece) : hashes (ps ++ qs) = hashes ps + hashes qs := by
  rw [hashes, List.flatMap_append, List.count_append]
  rfl

/-- Literal text without a hash has no hash. -/
theorem hashes_literal {cs : List Char} (h : '#' ∉ cs) (ps : List Piece) :
    hashes (literal cs ++ ps) = hashes ps := by
  rw [hashes_append, hashes, flatMap_literal, List.count_eq_zero.2 h, Nat.zero_add]

theorem hashes_hash (ps : List Piece) : hashes (.text "#" :: ps) = 1 + hashes ps :=
  hashes_append [.text "#"] ps

theorem hashes_slot (n : Nat) (ps : List Piece) : hashes (.slot n :: ps) = hashes ps :=
  rfl

/-- A character that is read as text makes no hash literal. -/
theorem hashes_pieces_cons {c : Char} (hc : c ≠ '#') (hl : c ≠ '\\') (template : List Char) :
    hashes (pieces (c :: template)) = hashes (pieces template) := by
  have hcons : ∀ {cs : List Char}, '#' ∉ cs → '#' ∉ c :: cs := fun h hm =>
    (List.mem_cons.1 hm).elim (fun he => hc he.symm) h
  have hlast : ∀ cs : List Char, (c :: cs).getLast? = some '\\' ↔ cs.getLast? = some '\\' := by
    intro cs
    cases cs with
    | nil => simp [hl]
    | cons d ds => rw [List.getLast?_cons_cons]
  induction template using pieces_induction with
  | text cs hcs =>
    have htext := hashes_literal (hcons hcs) []
    have htext' := hashes_literal hcs []
    rw [List.append_nil] at htext htext'
    rw [pieces_text (hcons hcs), pieces_text hcs, htext, htext']
  | literal cs rest hcs hr _ =>
    rw [← List.cons_append, pieces_literal (hcons hcs) (hr.imp_left (hlast cs).2),
      pieces_literal hcs hr, hashes_literal (hcons hcs), hashes_literal hcs]
  | slot cs d n rest hcs hr hp _ _ =>
    rw [← List.cons_append, pieces_slot (hcons hcs) (mt (hlast cs).1 hr) hp,
      pieces_slot hcs hr hp, hashes_literal (hcons hcs), hashes_literal hcs]

/-- Arguments that switch off every placeholder right behind them. -/
def backslashes : List String :=
  List.replicate 9 "\\"

/-- The digits `1` to `9` stand for the arguments, each for the one of its value. -/
theorem placeholder?_eq_some_iff {c : Char} {n : Nat} :
    placeholder? c = some n ↔ c.toNat = n + 48 ∧ 1 ≤ n ∧ n ≤ 9 := by
  have hzero : '0'.toNat = 48 := rfl
  unfold placeholder?
  by_cases hc : '1' ≤ c ∧ c ≤ '9'
  · have hlow : 49 ≤ c.toNat := hc.1
    have hhigh : c.toNat ≤ 57 := hc.2
    rw [if_pos hc, Option.some_inj]
    omega
  · rw [if_neg hc]
    refine ⟨nofun, fun ⟨hn, hlow, hhigh⟩ => absurd ⟨?_, ?_⟩ hc⟩
    · show 49 ≤ c.toNat
      omega
    · show c.toNat ≤ 57
      omega

/-- No placeholder is a hash or a backslash, and the arguments are numbered from one to nine. -/
theorem of_placeholder? {c : Char} {n : Nat} (h : placeholder? c = some n) :
    c ≠ '#' ∧ c ≠ '\\' ∧ 1 ≤ n ∧ n ≤ 9 := by
  obtain ⟨hc, hlow, hhigh⟩ := placeholder?_eq_some_iff.1 h
  refine ⟨?_, ?_, hlow, hhigh⟩
  · rintro rfl
    have hhash : '#'.toNat = 35 := rfl
    omega
  · rintro rfl
    have hback : '\\'.toNat = 92 := rfl
    omega

/-- Each of the arguments that switch placeholders off is a backslash. -/
theorem argument_backslashes {c : Char} {n : Nat} (h : placeholder? c = some n) :
    argument backslashes n = "\\" := by
  obtain ⟨-, -, -, hn⟩ := of_placeholder? h
  rw [argument, backslashes, List.getElem?_replicate, if_pos (by omega)]
  rfl

/-- Backslashes for arguments write no hashes but the literal ones. -/
theorem count_markup_backslashes (ps : List Piece) :
    (ps.flatMap fun p => (p.markup backslashes).toList).count '#' = hashes ps := by
  rw [hashes, List.count_flatMap, List.count_flatMap]
  refine congrArg List.sum (List.map_congr_left fun p _ => ?_)
  cases p with
  | text => rfl
  | slot n =>
    show (argument backslashes n).toList.count '#' = 0
    rw [argument, backslashes, List.getElem?_replicate]
    split <;> rfl

/-- If every argument is a backslash, one of the placeholders is switched off: it comes right behind
another one, or behind a backslash that is written already. -/
def Blocked (written : String) (ps : List Piece) : Prop :=
  ¬ Spaced ps ∨ escapesHash written = true ∧ ∃ n, ps.head? = some (.slot n)

/-- Text stands apart from whatever comes next. -/
theorem apart_text (s : String) (p : Piece) : Piece.Apart (.text s) p :=
  trivial

/-- Literal text begins with no argument. -/
theorem head_literal {cs : List Char} (h : cs ≠ []) (ps : List Piece) (n : Nat) :
    (literal cs ++ ps).head? ≠ some (.slot n) := by
  unfold literal
  rw [if_neg (by rw [List.isEmpty_iff]; exact h)]
  exact fun h => Piece.noConfusion (Option.some.inj h)

/-- Literal text alone is not blocked. -/
theorem not_blocked_literal (written : String) (cs : List Char) :
    ¬ Blocked written (literal cs) := by
  rintro (h | ⟨-, n, hn⟩)
  · have hchain : (literal cs ++ []).IsChain Piece.Apart := (isChain_literal apart_text cs).2 .nil
    rw [List.append_nil] at hchain
    exact h hchain
  · unfold literal at hn
    split at hn <;> cases hn

/-- A placeholder that is blocked behind text has another placeholder right before it. -/
theorem not_spaced_of_blocked_text {written s : String} {cs : List Char} {ps : List Piece}
    (h : Blocked written (literal cs ++ .text s :: ps)) : ¬ Spaced ps := by
  rcases h with h | ⟨-, n, hn⟩
  · exact fun hs => h ((isChain_literal apart_text cs).2 ((isChain_text apart_text s).2 hs))
  · unfold literal at hn
    split at hn <;> cases hn

/-- A placeholder that is filled with a backslash leaves a later one to be switched off. -/
theorem Blocked.of_slot {written : String} {cs : List Char} {n : Nat} {ps : List Piece}
    (h : Blocked written (literal cs ++ .slot n :: ps))
    (hopen : escapesHash (append written (String.ofList cs)) = false) :
    Blocked "\\" ps := by
  rcases h with h | ⟨hw, m, hm⟩
  · by_cases hs : Spaced ps
    · refine Or.inr ⟨rfl, ?_⟩
      by_contra hno
      refine h ((isChain_literal apart_text cs).2 (List.isChain_cons.2 ⟨fun p hq => ?_, hs⟩))
      cases p with
      | text => trivial
      | slot m => exact absurd ⟨m, hq⟩ hno
    · exact Or.inl hs
  · by_cases hcs : cs = []
    · rw [hcs, String.ofList_nil, append_empty, hw] at hopen
      cases hopen
    · exact absurd hm (head_literal hcs _ m)

/-- What is written counts by its last character only. -/
theorem Blocked.congr {v w : String} {ps : List Piece} (h : Blocked v ps)
    (hw : escapesHash w = escapesHash v) : Blocked w ps := by
  unfold Blocked
  rw [hw]
  exact h

/-- A placeholder that is switched off leaves its hash behind. -/
theorem count_fillFrom_backslashes (template : List Char) (written : String) :
    written.toList.count '#' + hashes (pieces template) ≤
        (fillFrom backslashes written template).toList.count '#' ∧
      (Blocked written (pieces template) → written.toList.count '#' + hashes (pieces template) <
        (fillFrom backslashes written template).toList.count '#') := by
  have hwritten : ∀ {cs : List Char}, '#' ∉ cs → ∀ written : String,
      (append written (String.ofList cs)).toList.count '#' = written.toList.count '#' := by
    intro cs hcs written
    rw [count_append (by decide), String.toList_ofList, List.count_eq_zero.2 hcs, Nat.add_zero]
  have hhash : ∀ written : String,
      (written.push '#').toList.count '#' = written.toList.count '#' + 1 := by
    intro written
    rw [← append_hash, count_append (by decide)]
    rfl
  induction template using pieces_induction generalizing written with
  | text cs hcs =>
    have hnone := hashes_literal hcs []
    rw [List.append_nil] at hnone
    rw [fillFrom_text _ _ hcs, pieces_text hcs, hwritten hcs, hnone]
    exact ⟨Nat.le_refl _, fun h => absurd h (not_blocked_literal written cs)⟩
  | literal cs rest hcs hl ih =>
    have hlit := hl.imp_left fun hlast => escapesHash_append_of_last hlast written
    obtain ⟨hle, hlt⟩ := ih ((append written (String.ofList cs)).push '#')
    rw [hhash, hwritten hcs] at hle hlt
    rw [fillFrom_literal _ _ hcs hlit, pieces_literal hcs hl, hashes_literal hcs, hashes_hash]
    refine ⟨by omega, fun h => ?_⟩
    have := hlt (Or.inl (not_spaced_of_blocked_text h))
    omega
  | slot cs c n rest hcs hl hp ihc ih =>
    obtain ⟨hc, hback, -⟩ := of_placeholder? hp
    rw [pieces_slot hcs hl hp, hashes_literal hcs, hashes_slot]
    cases hopen : escapesHash (append written (String.ofList cs)) with
    | true =>
      -- the hash is written, and its digit is read as text
      have hle := (ihc ((append written (String.ofList cs)).push '#')).1
      rw [hhash, hwritten hcs, hashes_pieces_cons hc hback] at hle
      rw [fillFrom_literal _ _ hcs (Or.inl hopen)]
      exact ⟨by omega, fun _ => by omega⟩
    | false =>
      -- the backslash that is written here may switch off the next placeholder
      obtain ⟨hle, hlt⟩ := ih (append (append written (String.ofList cs)) "\\")
      rw [count_append (by decide), hwritten hcs, show "\\".toList.count '#' = 0 from rfl,
        Nat.add_zero] at hle hlt
      rw [fillFrom_placeholder _ _ hcs hp _ hopen, argument_backslashes hp]
      exact ⟨hle, fun h => hlt ((h.of_slot hopen).congr (escapesHash_append_of_ne (by decide) _))⟩

/-- If no argument escapes a placeholder, filling a template is writing its pieces. -/
theorem fill_eq_write_of_guarded {template : String} {args : List String}
    (hg : Guarded args (pieces template.toList)) :
    fill template args = write args "" (pieces template.toList) :=
  fillFrom_eq_write (fun h => absurd h (by decide)) hg

/-- A template has a meaning of its own, whatever the arguments are, exactly if no two placeholders
stand side by side. -/
theorem exists_write_iff (template : String) :
    (∃ ps, ∀ args, fill template args = write args "" ps) ↔ Spaced (pieces template.toList) := by
  constructor
  · rintro ⟨ps, hps⟩
    by_contra hs
    -- without arguments and with backslashes for arguments as many hashes would be written
    have hnone : (fill template []).toList.count '#' = hashes ps := by
      rw [hps, count_write (by decide)]
      exact Nat.zero_add _
    have hback : (fill template backslashes).toList.count '#' = hashes ps := by
      rw [hps, count_write (by decide), count_markup_backslashes]
      exact Nat.zero_add _
    rw [fill_eq_write_of_guarded (guarded_of_arguments (fun _ ha => absurd ha List.not_mem_nil) _),
      count_write (by decide)] at hnone
    have hmore : 0 + hashes (pieces template.toList) <
        (fill template backslashes).toList.count '#' :=
      (count_fillFrom_backslashes template.toList "").2 (Or.inl hs)
    have hwritten : 0 + hashes (pieces template.toList) = hashes ps := hnone
    omega
  · intro hs
    exact ⟨pieces template.toList, fun args =>
      fill_eq_write_of_guarded (hs.imp fun _ _ h => h.detached args)⟩

/-- A template is filled piece by piece, as it says by itself, unless an argument that ends in a
backslash comes right before another placeholder; and the only templates that the arguments can
change are those with two placeholders side by side. -/
theorem fill_eq_write (template : String) :
    (∀ args, Guarded args (pieces template.toList) →
        fill template args = write args "" (pieces template.toList)) ∧
      ((∃ ps, ∀ args, fill template args = write args "" ps) ↔
        Spaced (pieces template.toList)) :=
  ⟨fun _ => fill_eq_write_of_guarded, exists_write_iff template⟩

/-- A hash behind a backslash is literal, and a hash in an argument is not read as one of the
template. -/
theorem fill_eq_write_adjacent :
    pieces "\\#1#1#2".toList = [.text "\\", .text "#", .text "1", .slot 1, .slot 2] ∧
      Guarded ["a#2", "b"] (pieces "\\#1#1#2".toList) ∧
      fill "\\#1#1#2" ["a#2", "b"] = "\\#1a#2b" := by
  have hg : Guarded ["a#2", "b"] (pieces "\\#1#1#2".toList) := by decide +kernel
  refine ⟨by decide +kernel, hg, ?_⟩
  rw [(fill_eq_write "\\#1#1#2").1 _ hg]
  decide +kernel

/-- So no way to read templates by themselves says how they are filled: in `#1#2` a first argument
that ends in a backslash switches off the second placeholder. -/
theorem not_exists_read : ¬ ∃ read : String → List Piece, ∀ template args,
    fill template args = write args "" (read template) := by
  rintro ⟨read, hread⟩
  have hspaced := (exists_write_iff "#1#2").1 ⟨read "#1#2", hread "#1#2"⟩
  exact absurd hspaced (by decide +kernel)

/-! ## Which placeholders are filled -/

/-- A template has the placeholder with a number. -/
def Mentions (n : Nat) (template : List Char) : Prop :=
  ∃ before c after, template = before ++ '#' :: c :: after ∧ placeholder? c = some n

/-- A template has the placeholder with a number, and not right behind a backslash. -/
def Opens (n : Nat) (template : List Char) : Prop :=
  ∃ before c after, template = before ++ '#' :: c :: after ∧ placeholder? c = some n ∧
    before.getLast? ≠ some '\\'

/-- A placeholder that is open is mentioned. -/
theorem Opens.mentions {n : Nat} {template : List Char} (h : Opens n template) :
    Mentions n template := by
  obtain ⟨before, c, after, ht, hc, -⟩ := h
  exact ⟨before, c, after, ht, hc⟩

/-- Whether a text ends in a backslash is seen by what is before other characters. -/
theorem getLast?_append_cons {c : Char} (hc : c ≠ '\\') (cs before : List Char) :
    (cs ++ c :: before).getLast? = some '\\' ↔ before.getLast? = some '\\' := by
  rw [List.getLast?_append_of_ne_nil _ (List.cons_ne_nil _ _)]
  cases before with
  | nil => simp [hc]
  | cons d ds => rw [List.getLast?_cons_cons]

/-- A hash of some text is its first one or stands behind that. -/
theorem eq_or_of_append_hash {cs rest before after : List Char} (hcs : '#' ∉ cs)
    (h : cs ++ '#' :: rest = before ++ '#' :: after) :
    (before = cs ∧ rest = after) ∨
      ∃ between, before = cs ++ '#' :: between ∧ rest = between ++ '#' :: after := by
  rcases List.append_eq_append_iff.1 h with ⟨ds, rfl, hds⟩ | ⟨ds, rfl, hds⟩
  · cases ds with
    | nil => exact Or.inl ⟨List.append_nil cs, (List.cons.inj hds).2⟩
    | cons d ds =>
      obtain ⟨rfl, hrest⟩ := List.cons.inj hds
      exact Or.inr ⟨ds, rfl, hrest⟩
  · cases ds with
    | nil => exact Or.inl ⟨(List.append_nil before).symm, (List.cons.inj hds).2.symm⟩
    | cons d ds =>
      obtain ⟨rfl, -⟩ := List.cons.inj hds
      exact absurd (List.mem_append_right _ List.mem_cons_self) hcs

/-- Literal text holds no argument. -/
theorem slot_not_mem_literal (n : Nat) (cs : List Char) : Piece.slot n ∉ literal cs := by
  unfold literal
  split
  · exact List.not_mem_nil
  · exact fun h => Piece.noConfusion (List.mem_singleton.1 h)

/-- A placeholder is an argument unless it is right behind a backslash. -/
theorem slot_mem_pieces_iff {n : Nat} {template : List Char} :
    .slot n ∈ pieces template ↔ Opens n template := by
  induction template using pieces_induction with
  | text cs hcs =>
    rw [pieces_text hcs]
    refine iff_of_false (slot_not_mem_literal n cs) ?_
    rintro ⟨before, c, after, rfl, -⟩
    exact hcs (List.mem_append_right before List.mem_cons_self)
  | literal cs rest hcs hl ih =>
    rw [pieces_literal hcs hl, List.mem_append, or_iff_right (slot_not_mem_literal n cs),
      List.mem_cons, or_iff_right (fun h => Piece.noConfusion h), ih]
    constructor
    · rintro ⟨before, c, after, rfl, hc, hb⟩
      refine ⟨cs ++ '#' :: before, c, after, by simp, hc, ?_⟩
      exact mt (getLast?_append_cons (by decide) cs before).1 hb
    · -- the hash of the placeholder is the one that the template was cut at, or it comes later
      rintro ⟨before, c, after, ht, hc, hb⟩
      rcases eq_or_of_append_hash hcs ht with ⟨rfl, rfl⟩ | ⟨between, rfl, rfl⟩
      · refine absurd (hl.resolve_left hb) ?_
        rw [List.head?_cons, Option.bind_some, hc]
        exact Option.some_ne_none n
      · exact ⟨between, c, after, rfl, hc, mt (getLast?_append_cons (by decide) cs between).2 hb⟩
  | slot cs d m rest hcs hl hp _ ih =>
    obtain ⟨hhash, hback, -⟩ := of_placeholder? hp
    rw [pieces_slot hcs hl hp, List.mem_append, or_iff_right (slot_not_mem_literal n cs),
      List.mem_cons, ih]
    constructor
    · rintro (h | ⟨before, c, after, rfl, hc, hb⟩)
      · cases h
        exact ⟨cs, d, rest, rfl, hp, hl⟩
      · refine ⟨cs ++ '#' :: d :: before, c, after, by simp, hc, ?_⟩
        rw [ne_eq, getLast?_append_cons (by decide), ← List.nil_append (d :: before),
          getLast?_append_cons hback]
        exact hb
    · rintro ⟨before, c, after, ht, hc, hb⟩
      rcases eq_or_of_append_hash hcs ht with ⟨rfl, hrest⟩ | ⟨between, rfl, hrest⟩
      · obtain ⟨rfl, rfl⟩ := List.cons.inj hrest
        rw [hp] at hc
        exact Or.inl (congrArg Piece.slot (Option.some.inj hc).symm)
      · cases between with
        | nil => exact absurd (List.cons.inj hrest).1 hhash
        | cons e between =>
          obtain ⟨rfl, rfl⟩ := List.cons.inj hrest
          rw [ne_eq, getLast?_append_cons (by decide), ← List.nil_append (d :: between),
            getLast?_append_cons hback] at hb
          exact Or.inr ⟨between, c, after, rfl, hc, hb⟩

end Template
end MathMarkup
