import MathMarkup.Proofs.NameSpelling
import MathMarkup.Proofs.NeutralMarkup

/-!
# Names are read back

A regular name is decoded as itself from its markup (`Composite.decode_encode`). Its scripts are
written as parts with commas between them, and each of them is read as what it was. A typeface is
written around the scripts too, and where there is none the whole name is set upright if it has
several units; the reader counts the same units.

A word that is written as one sign is the exception. It is read back as the sign, and a sign is no
name that could be written like that (`encode_decode_word_iff`).
-/

namespace MathMarkup
namespace Name

open MathMarkup.Lexer

/-! ## Parts and scripts -/

/-- What a part is read as. -/
def Part.parts (p : Part) : Parts :=
  { base := String.ofList p.base
    accents := p.accents.map (·.name)
    typefaces := p.typefaces.map (·.name) }

theorem lettered_of_word {cs : List Char} (h : Word cs) {P : Parts}
    (hP : P.base = String.ofList cs) : P.Lettered := by
  obtain ⟨c, rest, rfl⟩ := List.exists_cons_of_ne_nil h.ne_nil
  exact ⟨c, by rw [hP, String.toList_ofList]; rfl, h.letters c List.mem_cons_self⟩

/-- A script spells its parts. -/
theorem Part.Script.spells {p : Part} (h : p.Script) : ∃ ts, Spells p.markup ts p.parts := by
  have haccents : ({ base := String.ofList p.base } : Parts).withAccents p.accents =
      { base := String.ofList p.base, accents := p.accents.map (·.name) } := rfl
  rcases h.base with ⟨hw, -⟩ | ⟨hd, hfaces⟩
  · obtain ⟨ts, hbase, -⟩ := spells_baseMarkup hw
    obtain ⟨ts', haccented, -⟩ := hbase.accents h.accents
    obtain ⟨ts'', hspells, -⟩ := haccented.typefaces h.typefaces
      (lettered_of_word hw (show _ = String.ofList p.base from rfl))
    exact ⟨ts'', hspells⟩
  · have hbase := spells_digits hd
    rw [← baseMarkup_digits hd] at hbase
    obtain ⟨ts', haccented, -⟩ := hbase.accents h.accents
    have hmarkup : p.markup = p.accents.foldl Accent.apply (baseMarkup p.base) := by
      rw [Part.markup, hfaces]
      rfl
    have hparts : p.parts =
        ({ base := baseMarkup p.base } : Parts).withAccents p.accents := by
      rw [Part.parts, hfaces, baseMarkup_digits hd]
      rfl
    rw [hmarkup, hparts]
    exact ⟨ts', haccented⟩

theorem toList_join (mark : String) (words : List String) :
    (String.join (words.map (mark ++ ·))).toList =
      words.flatMap fun w => mark.toList ++ w.toList := by
  induction words with
  | nil => rfl
  | cons w words ih =>
    rw [List.map_cons, String.join_cons, String.toList_append, String.toList_append, ih,
      List.flatMap_cons]

/-- The name of some parts in words. -/
theorem Parts.toList_name (P : Parts) : P.name.toList =
    P.base.toList ++ wordsBehind P.accents ++ wordsBehind P.typefaces ++
      P.above.flatMap (fun w => '_' :: '_' :: w.toList) ++ wordsBehind P.below := by
  rw [Parts.name, List.map_append, String.join_append]
  simp only [String.toList_append, toList_join, List.append_assoc]
  rfl

/-- The parts of a name have its text as their name. -/
theorem Part.name_parts (p : Part) : p.parts.name = String.ofList p.text := by
  refine String.toList_inj.1 ?_
  rw [Parts.toList_name, String.toList_ofList, Part.text]
  show (String.ofList p.base).toList ++ _ ++ _ ++ [] ++ [] = _
  rw [String.toList_ofList, List.append_nil, List.append_nil]
  rfl

/-- The tokens of scripts behind a mark. -/
def scriptTokens (mark : String) (ps : List Part) : List Token :=
  ⟨mark, .char⟩ ::
    (leftBrace :: [comma].intercalate (ps.map fun p => Token.scan p.markup) ++ [rightBrace])

section Scripts

variable {ps : List Part} (hps : ∀ p ∈ ps, p.Script)
include hps

theorem spells_scan {p : Part} (hp : p ∈ ps) : Spells p.markup (Token.scan p.markup) p.parts := by
  obtain ⟨ts, h⟩ := (hps p hp).spells
  rw [h.scans.scan_eq]
  exact h

theorem whole_of_mem_pieces {ts : List Token}
    (hts : ts ∈ ps.map fun p => Token.scan p.markup) : Whole 0 ts := by
  obtain ⟨p, hp, rfl⟩ := List.mem_map.1 hts
  exact (spells_scan hps hp).whole

theorem scans_intercalate :
    Scans (",".intercalate (ps.map Part.markup))
      ([comma].intercalate (ps.map fun p => Token.scan p.markup)) := by
  have hcomma : Detached "," [comma] :=
    detached_lone (c := ',') (by decide) (by decide)
  exact Scans.intercalate hcomma (stops_of_all rfl) (by decide) fun p hp =>
    (spells_scan hps hp).scans

/-- Scripts between braces scan to their tokens. -/
theorem scans_scriptTokens {mark : String} (hmark : Scans mark [⟨mark, .char⟩]) :
    Scans (mark ++ braced (",".intercalate (ps.map Part.markup))) (scriptTokens mark ps) := by
  refine hmark.append (scans_intercalate hps).braced ?_
  rw [braced, String.append_assoc]
  exact stops_braced _

theorem whole_scriptTokens {mark : String} (hmark : mark ≠ ",") :
    Whole 0 (scriptTokens mark ps) := by
  have hmarkWhole : Whole 0 [⟨mark, .char⟩] :=
    whole_token TokenKind.noConfusion TokenKind.noConfusion fun h => absurd h hmark
  exact hmarkWhole.append (whole_intercalate fun ts hts => whole_of_mem_pieces hps hts).braced

/-- The braces around scripts are found again. -/
theorem argument?_scripts (us : List Token) :
    argument? (leftBrace :: [comma].intercalate (ps.map fun p => Token.scan p.markup) ++
      [rightBrace] ++ us) =
        some ([comma].intercalate (ps.map fun p => Token.scan p.markup), us) := by
  have hwhole := whole_intercalate fun ts hts => whole_of_mem_pieces hps hts
  rw [List.append_assoc, List.singleton_append]
  exact hwhole.splitClose? us

/-- Each script is read as its part of the name. -/
theorem names?_scripts (hne : ps ≠ []) :
    names? ([comma].intercalate (ps.map fun p => Token.scan p.markup)) =
      some (ps.map fun p => String.ofList p.text) := by
  rw [names?, splitCommas_intercalate (by simpa using hne) fun ts hts =>
    whole_of_mem_pieces hps hts]
  refine mapM_eq_some_iff.2 ?_
  rw [List.map_map, List.map_map]
  refine List.map_congr_left fun p hp => ?_
  rw [Function.comp_apply, Function.comp_apply, (spells_scan hps hp).parts, Option.map_some,
    p.name_parts]

/-- No list of scripts is taken for a prime: its only script would have a base that begins with a
backslash. -/
theorem primeName?_scripts (hne : ps ≠ []) :
    primeName? ([comma].intercalate (ps.map fun p => Token.scan p.markup)) = none := by
  have hbackslash : ∀ t : Token, t.raw = "\\prime" ∨ t.raw = "\\doubleprime" →
      ∀ P ∈ body? {} [t], P.base.toList.head? = some '\\' := by
    rintro ⟨raw, kind⟩ (h | h) <;> cases h <;> cases kind <;> decide +kernel
  have hpieces : (ps.map fun p => Token.scan p.markup) ≠ [] := by simpa using hne
  have hcut := splitCommas_intercalate hpieces fun ts hts => whole_of_mem_pieces hps hts
  -- a single token would be a single script, whose base begins with a letter or digit
  have hother : ∀ t, [comma].intercalate (ps.map fun p => Token.scan p.markup) = [t] →
      ¬ (t.raw = "\\prime" ∨ t.raw = "\\doubleprime") := by
    intro t ht hraw
    have hcomma : t.raw ≠ "," := by
      intro h
      rw [h] at hraw
      exact absurd hraw (by decide)
    have hsingle : splitCommas 0 [t] = [[t]] := by
      rw [splitCommas, if_neg fun h => hcomma h.2.2]
      rfl
    rw [ht, hsingle] at hcut
    obtain ⟨p, hp, hscan⟩ := List.mem_map.1 (hcut ▸ List.mem_cons_self : [t] ∈ _)
    have hparts := (spells_scan hps hp).parts
    rw [hscan] at hparts
    have hhead := hbackslash t hraw p.parts hparts
    obtain ⟨hbase, hascii⟩ := (hps p hp).ascii
    obtain ⟨c, cs, hc⟩ := List.exists_cons_of_ne_nil hbase
    rw [Part.parts, String.toList_ofList, hc] at hhead
    have := hascii c (hc ▸ List.mem_cons_self)
    rw [Option.some.inj hhead] at this
    exact absurd this (by decide)
  unfold primeName?
  split
  next t ht =>
    rw [if_neg fun h => hother t ht (Or.inl h), if_neg fun h => hother t ht (Or.inr h)]
  next => rfl

end Scripts

/-- Scripts behind a name, given what a body makes of them. -/
theorem Spells.scripts {s : String} {ts : List Token} {P Q : Parts} (h : Spells s ts P)
    {ps : List Part} (hps : ∀ p ∈ ps, p.Script) {mark : Char}
    (hmark : Scans (String.ofList [mark]) [⟨String.ofList [mark], .char⟩]) (hstops : Stops [mark])
    (hcomma : String.ofList [mark] ≠ ",") (hnil : ps = [] → Q = P)
    (hbody : ps ≠ [] → ∀ us, body? P (scriptTokens (String.ofList [mark]) ps ++ us) = body? Q us) :
    ∃ ts', Spells (addScripts (String.ofList [mark]) (ps.map Part.markup) s) ts' Q ∧
      (Leads ts P → Leads ts' Q) := by
  by_cases hne : ps = []
  · rw [hne, hnil hne]
    exact ⟨ts, h, id⟩
  · have hmarkup : addScripts (String.ofList [mark]) (ps.map Part.markup) s =
        s ++ (String.ofList [mark] ++ braced (",".intercalate (ps.map Part.markup))) := by
      rw [addScripts, if_neg (by simpa using hne), String.append_assoc]
    refine ⟨ts ++ scriptTokens (String.ofList [mark]) ps, ⟨?_, ?_, fun us => ?_⟩,
      fun hl => hl.append (List.cons_ne_nil _ _)⟩
    · rw [hmarkup]
      refine h.scans.append (scans_scriptTokens hps hmark) fun c hc => hstops c ?_
      rw [String.toList_append, String.toList_ofList] at hc
      exact hc
    · exact h.whole.append (whole_scriptTokens hps hcomma)
    · rw [List.append_assoc, h.body, hbody hne]

/-- The parts with more superscripts and more subscripts. -/
def Parts.withAbove (P : Parts) (ps : List Part) : Parts :=
  { P with above := P.above ++ ps.map fun p => String.ofList p.text }
def Parts.withBelow (P : Parts) (ps : List Part) : Parts :=
  { P with below := P.below ++ ps.map fun p => String.ofList p.text }

/-- Superscripts are spelled behind what they are above. -/
theorem Spells.above {s : String} {ts : List Token} {P : Parts} (h : Spells s ts P)
    {ps : List Part} (hps : ∀ p ∈ ps, p.Script) :
    ∃ ts', Spells (addScripts "^" (ps.map Part.markup) s) ts' (P.withAbove ps) ∧
      (Leads ts P → Leads ts' (P.withAbove ps)) := by
  refine h.scripts hps scans_caret (stops_of_all (by decide)) (by decide) (fun hnil => ?_)
    fun hne us => ?_
  · rw [hnil, Parts.withAbove, List.map_nil, List.append_nil]
  · rw [scriptTokens, List.cons_append]
    show body? P (⟨"^", .char⟩ :: _) = _
    rw [body?_superscript (argument?_scripts hps us), primeName?_scripts hps hne,
      names?_scripts hps hne]
    rfl

/-- Subscripts are spelled behind what they are below. -/
theorem Spells.below {s : String} {ts : List Token} {P : Parts} (h : Spells s ts P)
    {ps : List Part} (hps : ∀ p ∈ ps, p.Script) :
    ∃ ts', Spells (addScripts "_" (ps.map Part.markup) s) ts' (P.withBelow ps) ∧
      (Leads ts P → Leads ts' (P.withBelow ps)) := by
  refine h.scripts hps scans_underscore (stops_of_all (by decide)) (by decide) (fun hnil => ?_)
    fun hne us => ?_
  · rw [hnil, Parts.withBelow, List.map_nil, List.append_nil]
  · rw [scriptTokens, List.cons_append]
    show body? P (⟨"_", .char⟩ :: _) = _
    rw [body?_subscript (argument?_scripts hps us), names?_scripts hps hne]
    rfl

/-! ## Names -/

/-- What a name is read as. -/
def Composite.parts (n : Composite) : Parts :=
  { n.part.parts with
    above := n.above.map fun p => String.ofList p.text
    below := n.below.map fun p => String.ofList p.text }

/-- A name with scripts has its text as its name. -/
theorem Composite.name_parts (n : Composite) : n.parts.name = String.ofList n.text := by
  refine String.toList_inj.1 ?_
  rw [Parts.toList_name, String.toList_ofList, Composite.text, Part.text]
  simp only [Composite.parts, Part.parts, String.toList_ofList, wordsBehind, List.flatMap_map]

/-- The markup of a regular name spells it. -/
theorem Composite.Regular.spells {n : Composite} (h : n.Regular) :
    ∃ ts, Spells n.markup ts n.parts ∧ Leads ts n.parts := by
  have hP : ({ n.parts with typefaces := [] } : Parts).Lettered := lettered_of_word h.base rfl
  obtain ⟨ts, hbase, hl⟩ := spells_baseMarkup h.base
  obtain ⟨ts₁, haccented, hl₁⟩ := hbase.accents h.part.accents
  obtain ⟨ts₂, habove, hl₂⟩ := haccented.above h.above
  obtain ⟨ts₃, hbelow, hl₃⟩ := habove.below h.below
  have hbody : Spells n.body ts₃ { n.parts with typefaces := [] } := hbelow
  have hleads : Leads ts₃ { n.parts with typefaces := [] } := hl₃ (hl₂ (hl₁ hl))
  unfold Composite.markup
  -- without a typeface the body stands alone, and it is set upright if it has more than one unit
  cases hfaces : n.part.typefaces with
  | nil =>
    have hparts : n.parts = { n.parts with typefaces := [] } := by
      rw [Composite.parts, Part.parts, hfaces]
      rfl
    rw [hparts, List.isEmpty_nil, if_pos rfl]
    show ∃ ts, Spells (if 1 < Token.countUnits (Token.scan n.body) then _ else n.body) ts _ ∧ _
    rw [hbody.scans.scan_eq]
    split
    next hunits =>
      exact ⟨_, hbody.upright hunits⟩
    next => exact ⟨ts₃, hbody, hleads⟩
  | cons t faces =>
    obtain ⟨ts₄, hspells, hl₄⟩ := hbody.typefaces h.part.typefaces hP
    have hparts : n.parts =
        ({ n.parts with typefaces := [] } : Parts).withTypefaces n.part.typefaces := rfl
    rw [hparts, ← hfaces, if_neg (by rw [hfaces]; exact Bool.false_ne_true)]
    exact ⟨ts₄, hspells, hl₄ (Or.inr (by rw [hfaces]; exact List.cons_ne_nil t faces))⟩

/-- A regular name is decoded back from its markup. -/
theorem Composite.decode_encode {n : Composite} (h : n.Regular) :
    decode (encode (String.ofList n.text) .auto) = some (String.ofList n.text) := by
  obtain ⟨ts, hspells, hl⟩ := h.spells
  have hne : n.parts.name ≠ "" := by
    intro heq
    have := congrArg String.toList heq
    rw [n.name_parts, String.toList_ofList, n.text_eq, Part.text] at this
    simp only [String.toList_empty, List.append_eq_nil_iff] at this
    exact h.base.ne_nil this.1.1.1
  rw [Composite.encode_text h, hspells.decode hl hne, n.name_parts]

/-- A bold letter under a hat, with a vector above and a number below. -/
def sampleName : Composite where
  part := ⟨['x'], [⟨"hat", "\\hat", .wrap⟩], [⟨"bold", "\\mathbf"⟩]⟩
  above := [⟨['a'], [⟨"vec", "\\vec", .wrap⟩], []⟩]
  below := [⟨['1'], [], []⟩]

theorem Composite.decode_encode_sampleName :
    sampleName.Regular ∧ String.ofList sampleName.text = "x_hat_bold__a_vec_1" ∧
      encode "x_hat_bold__a_vec_1" .auto =
        "\\mathbf\x7b\\hat\x7bx\x7d^\x7b\\vec\x7ba\x7d\x7d_\x7b1\x7d\x7d" ∧
      decode (encode "x_hat_bold__a_vec_1" .auto) = some "x_hat_bold__a_vec_1" := by
  have hregular : sampleName.Regular := by decide
  have htext : String.ofList sampleName.text = "x_hat_bold__a_vec_1" := by decide
  refine ⟨hregular, htext, by decide +kernel, ?_⟩
  rw [← htext]
  exact Composite.decode_encode hregular

/-! ## Words -/

/-- The words that are written as a sign which is then read as a name of its own. The signs of the
other words for signs are read as no name. -/
def signWords : List String := ["plus", "minus", "hash"]

/-- A word that stands for no sign is read back. -/
theorem decode_encode_word {n : String} (hn : Word n.toList) (hs : symbolWords.lookup n = none) :
    decode (encode n .auto) = some n := by
  cases hd : digitWords.lookup n with
  | none =>
    have hregular : Composite.Regular ⟨⟨n.toList, [], []⟩, [], []⟩ := by
      refine ⟨⟨nofun, nofun, ?_, ?_⟩, hn, nofun, nofun⟩
      · rw [String.ofList_toList]
        exact hs
      · rw [String.ofList_toList]
        exact hd
    have htext : String.ofList (Composite.text ⟨⟨n.toList, [], []⟩, [], []⟩) = n := by
      simp [Composite.text, Part.text, wordsBehind]
    have hback := Composite.decode_encode hregular
    rwa [htext] at hback
  | some digit =>
    -- a word for a digit is none that a regular name may have, but by itself it is just a word
    have hall : ∀ w ∈ digitWords, decode (encode w.1 .auto) = some w.1 := by decide +kernel
    exact hall (n, digit) (mem_of_lookup hd)

theorem decode_encode_symbolWords : ∀ w ∈ symbolWords, ∀ d ∈ decode (encode w.1 .auto),
    encode d .auto ≠ encode w.1 .auto ∧ d ≠ w.1 ∧ w.1 ∈ signWords := by
  decide +kernel

/-- Where a word is decoded at all, encoding the result gives the same markup exactly if the word
has come back, and it has unless it is one of three that are written as a sign. -/
theorem encode_decode_word_iff {n d : String} (hn : Word n.toList)
    (hd : decode (encode n .auto) = some d) :
    (encode d .auto = encode n .auto ↔ d = n) ∧ (d = n ↔ n ∉ signWords) := by
  cases hs : symbolWords.lookup n with
  | none =>
    have hdn : d = n := Option.some.inj (hd.symm.trans (decode_encode_word hn hs))
    have hnot : n ∉ signWords := fun hm => by
      have hall : ∀ w ∈ signWords, symbolWords.lookup w ≠ none := by decide
      exact hall n hm hs
    exact ⟨iff_of_true (by rw [hdn]) hdn, iff_of_true hdn hnot⟩
  | some sign =>
    obtain ⟨hmarkup, hne, hm⟩ := decode_encode_symbolWords (n, sign) (mem_of_lookup hs) d hd
    exact ⟨iff_of_false hmarkup hne, iff_of_false hne (not_not.2 hm)⟩

/-- A word for a digit comes back, and a word for a sign does not. -/
theorem encode_decode_word_one :
    Word "one".toList ∧ decode (encode "one" .auto) = some "one" ∧ "one" ∉ signWords ∧
      Word "plus".toList ∧ decode (encode "plus" .auto) = some "+" ∧
      encode "+" .auto ≠ encode "plus" .auto := by
  have hone : decode (encode "one" .auto) = some "one" := by decide +kernel
  have hplus : decode (encode "plus" .auto) = some "+" := by decide +kernel
  refine ⟨by decide, hone, (encode_decode_word_iff (by decide) hone).2.1 rfl, by decide, hplus,
    fun h => ?_⟩
  exact absurd ((encode_decode_word_iff (by decide) hplus).1.1 h) (by decide)

/-- So encoding what was decoded does not always give the same markup: `+` is written upright. -/
theorem exists_encode_decode_word_ne : ¬ ∀ n d : String, Word n.toList →
    decode (encode n .auto) = some d → encode d .auto = encode n .auto := by
  intro h
  have hplus := h "plus" "+" (by decide) (by decide +kernel)
  exact absurd hplus (by decide +kernel)

end Name
end MathMarkup
