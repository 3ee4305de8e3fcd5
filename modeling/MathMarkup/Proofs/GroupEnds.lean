import MathMarkup.Proofs.Containment

/-!
# Where a group ends

`Parser.group` leaves the cursor behind the brace that closes the group, and cuts numbers at most in
the group itself, wherever what begins in the group also ends there (`Parser.group_ends`). It does
so at every state over the tokens of a markup and at every depth: the readers inside are contained
(`Nested.contained_atDepth`), and the standard lexicon has only rows of tokens that close what they
open (`Lexicon.harmless_standard`).

An environment that is not ended takes the closing brace for an error in its last cell and goes on
to the end of the input, so that a group does not end at its brace whatever it holds
(`Parser.exists_group_passed_over`).
-/

namespace MathMarkup

namespace Lexicon

theorem harmlessRows_standard : Index.standard.latest.all (fun e =>
    decide (Token.Harmless e.trigger) && e.role.close?.all fun close =>
      decide (Token.Harmless close)) = true := by
  decide +kernel

theorem harmless_standard : Index.standard.Harmless :=
  have hrows := Index.forall_rows_of_all harmlessRows_standard
  ⟨orderly_standard, fun e he => (hrows e he).1, fun e he => (hrows e he).2⟩

end Lexicon

namespace Parser

open MathMarkup.Reading

variable {ix : Index} {inner : Nested} {n : Nat}

theorem group_of_openGroup {p : Parser} {t : Token} {ts : List Token} (hahead : p.ahead = t :: ts)
    (hk : t.kind = .openGroup) :
    group inner p = (some (braceGroup inner p).1, (braceGroup inner p).2) := by
  rw [group, peek_bind_apply, hahead]
  dsimp only [List.head?_cons]
  rw [if_pos hk]
  rfl

/-- A group in which what begins also ends is passed up to its closing brace. -/
theorem passes_group (hi : inner.Contained ix n) {p : Parser} (hp : p.AtLevel n)
    {t : Token} {ts rest : List Token} (hahead : p.ahead = t :: (ts ++ rest))
    (hk : t.kind = .openGroup) (hcoherent : Coherent p.ahead) (hin : Enclosed ix [0] ts) :
    ∃ e q passed, group inner p = (some e, q) ∧ q.ahead = rest ∧
      q.behind = passed.reverse ++ p.behind ∧ Token.Cuts (t :: ts) passed := by
  rw [hahead] at hcoherent
  obtain rfl := hcoherent.1.eq_leftBrace hk
  have hend : (braceGroup inner p).2.ahead = rest :=
    (inside_braceGroup hi hp hahead (inside_of_enclosed hcoherent.2 hin)).eq_rest
  have hpassing := (tracks_braceGroup hi.tracks).toPassing
  obtain ⟨passed, hpass⟩ := hpassing.passes p hp
  -- the same tokens come last before and after, so the cuts were made in the group
  have hcuts : Token.Cuts (Lexer.leftBrace :: ts) (passed ++ []) :=
    hpass.cuts (hpassing.conserves p hp) hahead hend
  rw [List.append_nil] at hcuts
  exact ⟨_, _, passed, group_of_openGroup hahead hk, hend, hpass.behind, hcuts⟩

/-- At every state over the tokens of a markup, cut or not, a group in which what begins also ends
is read up to the brace that closes it: nothing behind that brace is passed or changed, and what is
passed are the tokens of the group, but for numbers cut in it. -/
theorem group_ends (markup : String) (n : Nat) (p : Parser) (t : Token) (ts : List Token)
    (hp : p.AtLevel n) (htokens : Token.Cuts (ofTokens (Token.scan markup)).ahead p.tokens)
    (hahead : p.ahead = t :: ts) (hk : t.kind = .openGroup)
    (hin : Enclosed Index.standard [0] (ts.take (groupSpan 0 ts).1)) :
    ∃ e q passed, group (Nested.atDepth Index.standard n) p = (some e, q) ∧
      q.ahead = ts.drop (groupSpan 0 ts).1 ∧ q.behind = passed.reverse ++ p.behind ∧
      Token.Cuts (t :: ts.take (groupSpan 0 ts).1) passed := by
  -- the lexer writes coherent tokens, and they stay so without their spacing and after cuts
  have hcoherent : Coherent p.ahead :=
    (((coherent_scan markup).dropSpacing none).of_cuts htokens).of_append
  refine passes_group (Nested.contained_atDepth Lexicon.harmless_standard n) hp ?_ hk hcoherent hin
  rw [List.take_append_drop]
  exact hahead

/-- A matrix, a fraction whose operands are the digits of one number, and a text in a group that is
itself behind a letter. -/
theorem group_ends_matrix :
    let markup := "x\x7b\\begin\x7bmatrix\x7da\\end\x7bmatrix\x7d\\frac12\\text\x7bb\x7d\x7dc"
    let p := (ofTokens (Token.scan markup)).advance 1
    let ts := p.ahead.tail
    groupSpan 0 ts = (26, true) ∧
    ∃ e q passed, group (Nested.atDepth Index.standard Nested.maxDepth) p = (some e, q) ∧
      q.ahead = ts.drop (groupSpan 0 ts).1 ∧ q.behind = passed.reverse ++ p.behind ∧
      Token.Cuts (⟨"\x7b", .openGroup⟩ :: ts.take (groupSpan 0 ts).1) passed := by
  intro markup p ts
  have htokens : p.tokens = (ofTokens (Token.scan markup)).ahead := tokens_advance 1 _
  exact ⟨by decide +kernel, group_ends markup Nested.maxDepth p _ ts ⟨rfl, Nat.le_refl _⟩
    (htokens ▸ .refl) (by decide +kernel) rfl (by decide +kernel)⟩

/-- But what a group holds may pass its closing brace: a matrix that is not ended takes that brace
and whatever comes behind it for errors in its last cell. -/
theorem exists_group_passed_over : ¬ ∀ (markup : String) (n : Nat) (p : Parser) (t : Token)
    (ts : List Token) (length : Nat), p.AtLevel n →
    Token.Cuts (ofTokens (Token.scan markup)).ahead p.tokens →
    p.ahead = t :: ts → t.kind = .openGroup → groupSpan 0 ts = (length, true) →
    ∃ e q passed, group (Nested.atDepth Index.standard n) p = (some e, q) ∧
      q.ahead = ts.drop length ∧ q.behind = passed.reverse ++ p.behind ∧
      Token.Cuts (t :: ts.take length) passed := by
  intro hall
  let p := ofTokens (Token.scan "\x7b\\begin\x7bmatrix\x7da\x7db")
  obtain ⟨e, q, passed, hgroup, hahead, -, -⟩ := hall _ Nested.maxDepth p ⟨"\x7b", .openGroup⟩
    p.ahead.tail 11 ⟨rfl, Nat.le_refl _⟩ .refl (by decide +kernel) rfl (by decide +kernel)
  have hread : (group (Nested.atDepth Index.standard Nested.maxDepth) p).2.ahead = [] := by
    decide +kernel
  have hrest : p.ahead.tail.drop 11 ≠ [] := by decide +kernel
  rw [hgroup] at hread
  exact hrest (hahead.symm.trans hread)

end Parser
end MathMarkup
