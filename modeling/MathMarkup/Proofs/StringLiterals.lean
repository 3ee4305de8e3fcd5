import MathMarkup.Proofs.StandardRoundTrip

/-!
# String literals in markup

A string literal is the argument of a text command. The renderer escapes braces and backslashes, so
the lexer finds the brace that closes the argument where the renderer put it (`splitText_escaped`),
and the parser undoes the escapes (`unescapeText_escaped`). In between the parser drops spacing, and
it goes by the raw text of a token alone: the text `~` is dropped like the tie that it looks like.
No other string is changed (`parse_render_string`).
-/

namespace MathMarkup
namespace Literal

open MathMarkup.Lexer MathMarkup.Parser MathMarkup.Reading MathMarkup.Nested

/-! ## Escaping -/

/-- What the renderer writes for a character. -/
def escapeChar (c : Char) : List Char :=
  if c = '{' then ['\\', '{']
  else if c = '}' then ['\\', '}']
  else if c = '\\' then "\\textbackslash\x7b\x7d".toList
  else [c]

/-- What the renderer writes for a text. -/
def escaped (cs : List Char) : List Char :=
  cs.flatMap escapeChar

theorem toList_escapeText (s : String) : (Renderer.escapeText s).toList = escaped s.toList := by
  have hchar : ∀ c : Char, (if c == '{' then "\\\x7b" else if c == '}' then "\\\x7d"
      else if c == '\\' then "\\textbackslash\x7b\x7d" else String.ofList [c]).toList =
      escapeChar c := by
    intro c
    simp only [beq_iff_eq, escapeChar]
    split
    · rfl
    split
    · rfl
    split
    · rfl
    · exact String.toList_ofList
  unfold Renderer.escapeText escaped
  generalize s.toList = cs
  induction cs with
  | nil => rfl
  | cons c cs ih =>
    rw [List.map_cons, String.join_cons, String.toList_append, hchar, ih, List.flatMap_cons]

theorem splitText_plain {c : Char} (hl : c ≠ '{') (hr : c ≠ '}') (hb : c ≠ '\\') (cs : List Char) :
    splitText 0 false (c :: cs) = (c :: (splitText 0 false cs).1, (splitText 0 false cs).2) := by
  rw [splitText]
  simp only [Bool.false_eq_true, if_false, beq_eq_false_iff_ne.2 hl, beq_eq_false_iff_ne.2 hr,
    beq_eq_false_iff_ne.2 hb]

/-- The text ends at the brace after it: its own braces are escaped, or balanced. -/
theorem splitText_escaped (cs rest : List Char) :
    splitText 0 false (escaped cs ++ '}' :: rest) = (escaped cs, '}' :: rest) := by
  -- on the characters, each of which is escaped by what is skipped as a whole
  induction cs with
  | nil => rfl
  | cons c cs ih =>
    rw [show escaped (c :: cs) = escapeChar c ++ escaped cs from List.flatMap_cons,
      List.append_assoc, escapeChar]
    split
    · show ('\\' :: '{' :: (splitText 0 false (escaped cs ++ '}' :: rest)).1,
        (splitText 0 false (escaped cs ++ '}' :: rest)).2) = _
      rw [ih]
      rfl
    split
    · show ('\\' :: '}' :: (splitText 0 false (escaped cs ++ '}' :: rest)).1,
        (splitText 0 false (escaped cs ++ '}' :: rest)).2) = _
      rw [ih]
      rfl
    split
    next =>
      show ("\\textbackslash\x7b\x7d".toList ++ (splitText 0 false (escaped cs ++ '}' :: rest)).1,
        (splitText 0 false (escaped cs ++ '}' :: rest)).2) = _
      rw [ih]
    next hl hr hb =>
      rw [List.cons_append, List.nil_append, splitText_plain hl hr hb, ih]
      rfl

theorem unescapeText_escaped (cs : List Char) : unescapeText (escaped cs) = cs := by
  -- on the characters, by the four ways in which one is escaped
  induction cs with
  | nil => rw [escaped, List.flatMap_nil, unescapeText]
  | cons c cs ih =>
    rw [show escaped (c :: cs) = escapeChar c ++ escaped cs from List.flatMap_cons, escapeChar]
    split
    next hc =>
      rw [List.cons_append, unescapeText, if_pos rfl]
      show '{' :: unescapeText (escaped cs) = _
      rw [ih, hc]
    split
    next hc =>
      rw [List.cons_append, unescapeText, if_pos rfl]
      show '}' :: unescapeText (escaped cs) = _
      rw [ih, hc]
    split
    next hc =>
      rw [show "\\textbackslash\x7b\x7d".toList = '\\' :: "textbackslash\x7b\x7d".toList from rfl,
        List.cons_append, unescapeText, if_pos rfl]
      show '\\' :: unescapeText (escaped cs) = _
      rw [ih, hc]
    next hb =>
      rw [List.cons_append, List.nil_append, unescapeText, if_neg hb, ih]

/-- Only the tie is written like spacing. -/
theorem escaped_mem_spacing {cs : List Char} (h : String.ofList (escaped cs) ∈ spacing) :
    cs = ['~'] := by
  have hall : ∀ w ∈ spacing, escaped (unescapeText w.toList) = w.toList →
      unescapeText w.toList = ['~'] := by
    decide +kernel
  have hcs := hall _ h
  rw [String.toList_ofList, unescapeText_escaped] at hcs
  exact hcs rfl

/-! ## Tokens -/

/-- The tokens of a text command with its argument; between adjoining braces there is no token. -/
def textTokens (content : Option String) : List Token :=
  ⟨"\\text", .command⟩ :: leftBrace :: (content.toList.map (⟨·, .text⟩) ++ [rightBrace])

/-- The argument of a text command as the lexer leaves it. -/
def content? (cs : List Char) : Option String :=
  if cs = [] then none else some (String.ofList cs)

theorem scan_text (cs : List Char) :
    Token.scan ("\\text" ++ Name.braced (String.ofList (escaped cs))) =
      textTokens (content? (escaped cs)) := by
  have hchars : ("\\text" ++ Name.braced (String.ofList (escaped cs))).toList =
      "\\text".toList ++ '{' :: (escaped cs ++ ['}']) := by
    simp only [Name.braced, String.toList_append, String.toList_ofList, List.append_assoc]
    rfl
  have hclose : scanFrom .math ['}'] = [rightBrace] := by
    rw [scanFrom_of_next (t := rightBrace) rfl, scanFrom_nil]
  -- there is a token for the text only if the text is not empty
  have hinner : scanFrom .textOpen (escaped cs ++ ['}']) =
      (content? (escaped cs)).toList.map (⟨·, .text⟩) ++ [rightBrace] := by
    have hsplit := splitText_escaped cs []
    cases he : escaped cs with
    | nil =>
      rw [List.nil_append, scanFrom_of_next (t := rightBrace) rfl, scanFrom_nil]
      rfl
    | cons d ds =>
      rw [he] at hsplit
      have hnext : next? .textOpen (d :: ds ++ ['}']) =
          some (⟨String.ofList (d :: ds), .text⟩, .math, ['}']) := by
        unfold next?
        rw [if_pos rfl, hsplit]
      rw [scanFrom_of_next hnext, hclose]
      rfl
  have hcommand : next? .math ("\\text".toList ++ '{' :: (escaped cs ++ ['}'])) =
      some (⟨"\\text", .command⟩, .textCommand, '{' :: (escaped cs ++ ['}'])) := rfl
  have hopen : next? .textCommand ('{' :: (escaped cs ++ ['}'])) =
      some (leftBrace, .textOpen, escaped cs ++ ['}']) := rfl
  rw [Token.scan, hchars, scanFrom_of_next hcommand, scanFrom_of_next hopen, hinner]
  rfl

/-- The parser keeps the tokens, except for a text that reads like spacing. -/
theorem ofTokens_textTokens (content : Option String) :
    ofTokens (textTokens content) =
      ⟨[], textTokens (content.filter (!spacing.contains ·)), [], 0, 0, false⟩ := by
  cases content with
  | none => rfl
  | some x =>
    -- no number comes before, so a thin space groups nothing
    have hdrop : dropSpacing (some leftBrace) [⟨x, .text⟩, rightBrace] =
        if spacing.contains x then [rightBrace] else [⟨x, .text⟩, rightBrace] := by
      rw [dropSpacing, show isNumber (some leftBrace) = false from rfl, Bool.and_false,
        Bool.false_and, Bool.not_false, Bool.and_true]
      rfl
    rw [ofTokens, textTokens]
    show Parser.mk [] (⟨"\\text", .command⟩ :: leftBrace ::
      dropSpacing (some leftBrace) [⟨x, .text⟩, rightBrace]) [] 0 0 false = _
    rw [hdrop]
    cases hx : spacing.contains x <;> simp only [Option.filter, hx] <;> rfl

/-! ## Reading -/

/-- A text command with its argument is a string literal. -/
theorem text_apply (content : Option String) (behind : List Token) (depth deepest : Nat) :
    text ⟨behind, textTokens content, [], depth, deepest, false⟩ =
      (.string (String.ofList (unescapeText (content.getD "").toList)),
        ⟨(textTokens content).reverse ++ behind, [], [], depth, deepest, false⟩) := by
  cases content <;> rfl

/-- What a primary expression reads up to the end of the input, an expression reads two levels
above it. -/
theorem expression_of_primary {ix : Index} (ha : ix.Arranged) {n : Nat} {m : Precedence}
    {p q : Parser} {e : Expr} (hdepth : p.depth + 2 ≤ maxDepth) (htoo : p.tooDeep = false)
    (h : primary ix (atDepth ix n) m p.enter.enter = (some e, q)) (hend : q.ahead = []) :
    (atDepth ix (n + 2)).expression m p = (some e, q.leave.leave) := by
  have hroom : ∀ (step : Reading (Option Expr)) (p : Parser), p.tooDeep = false →
      p.depth < maxDepth → deeper step p = ((step p.enter).1, (step p.enter).2.leave) := by
    intro step p htoo hlt
    rw [deeper_apply, htoo, if_neg Bool.false_ne_true, if_neg (Nat.not_le.2 hlt)]
  have hprimary : (atDepth ix (n + 1)).primary m p.enter = (some e, q.leave) := by
    show deeper (primary ix (atDepth ix n) m) p.enter = _
    rw [hroom _ p.enter htoo (by show p.depth + 1 < maxDepth; omega), h]
  have hoperation : operation ix (atDepth ix (n + 1)) m p.enter = (some e, q.leave) := by
    rw [operation, Reading.bind_apply, hprimary]
    show (suffixes ix (atDepth ix (n + 1)) m e >>= fun x => pure (some x)) q.leave = _
    rw [Reading.bind_apply, suffixes_of_ahead_nil ha _ _ (show q.leave.ahead = [] from hend),
      Reading.pure_apply]
  show deeper (operation ix (atDepth ix (n + 1)) m) p = _
  rw [hroom _ p htoo (by omega), hoperation]

/-- What a primary expression reads up to the end of the input is the result of the parse. -/
theorem parseAll_of_primary {ix : Index} (ha : ix.Arranged) {p q : Parser} {e : Expr}
    (hdepth : p.depth = 0) (htoo : p.tooDeep = false)
    (h : primary ix (atDepth ix 254) .loosest p.enter.enter = (some e, q)) (hend : q.ahead = [])
    (hdeep : q.tooDeep = false) : (parseAll ix p).1 = e := by
  have hfirst := expression_of_primary ha (by rw [hdepth]; decide) htoo h hend
  rw [parseAll_of_expression hfirst hend hdeep]

theorem primary_textTokens (ix : Index) (inner : Nested) (content : Option String)
    (behind : List Token) (depth deepest : Nat) :
    primary ix inner .loosest ⟨behind, textTokens content, [], depth, deepest, false⟩ =
      (some (.string (String.ofList (unescapeText (content.getD "").toList))),
        ⟨(textTokens content).reverse ++ behind, [], [], depth, deepest, false⟩) := by
  have hfrom : primaryFrom ix inner .loosest ⟨"\\text", .command⟩ =
      text >>= fun e => pure (some e) := rfl
  rw [Parser.primary, Reading.peek_bind_apply]
  show primaryFrom ix inner .loosest ⟨"\\text", .command⟩ _ = _
  rw [hfrom, Reading.bind_apply, text_apply, Reading.pure_apply]

/-! ## The round trip -/

/-- The parser gets to see a text unless it is a tie. -/
theorem filter_content? (s : String) :
    ((content? (escaped s.toList)).filter (!spacing.contains ·)).getD "" =
      if s = "~" then "" else String.ofList (escaped s.toList) := by
  by_cases hs : s = "~"
  · subst hs
    decide
  have hsees : ¬ spacing.contains (String.ofList (escaped s.toList)) = true := by
    intro hx
    have hcs := escaped_mem_spacing (List.contains_iff_mem.1 hx)
    exact hs (String.toList_inj.1 hcs)
  rw [if_neg hs, content?]
  split
  next hnil =>
    rw [hnil]
    rfl
  next => rw [Option.filter_some, if_pos (by rw [Bool.eq_false_iff.2 hsees]; rfl), Option.getD_some]

/-- What a string literal is parsed back as from its rendering. A text that is nothing but a tie
gets lost: the parser takes it for spacing. -/
theorem parse_render_string (s : String) (canonical : Bool) :
    let t : Transcoder := {}
    (t.parse (t.render (.string s) canonical).1).1 = .string (if s = "~" then "" else s) := by
  intro t
  have hrender : (t.render (.string s) canonical).1 =
      "\\text" ++ Name.braced (String.ofList (escaped s.toList)) := by
    show ((Standard.renderer canonical).render (.string s) 0 []).1 = _
    rw [Renderer.renders_string _ s 0, ← toList_escapeText, String.ofList_toList]
    rfl
  rw [hrender, Standard.parse_eq, Standard.reading, scan_text, ofTokens_textTokens]
  show Prod.fst (parseAll Index.standard _) = _
  rw [parseAll_of_primary Standard.arranged rfl rfl (primary_textTokens _ _ _ _ _ _) rfl rfl,
    filter_content?]
  split
  · rw [show "".toList = [] from rfl, unescapeText]
  · rw [String.toList_ofList, unescapeText_escaped, String.ofList_toList]

/-- So not every string literal comes back. -/
theorem exists_parse_render_string_ne : ¬ ∀ s : String,
    let t : Transcoder := {}
    (t.parse (t.render (.string s) true).1).1 = .string s := by
  intro h
  have htie : (({} : Transcoder).parse (({} : Transcoder).render (.string "~") true).1).1 ≠
      .string "~" := by
    decide +kernel
  exact htie (h "~")

end Literal
end MathMarkup
