import MathMarkup.Expr.Wire
import MathMarkup.TriggerMap.ByteTrie

/-!
# Expressions come back from the wire

An expression that is written as JSON is read back as it was, of any depth, under four conditions
(`Expr.Wirable`). A bare name must not look like a string literal and must not be empty. A number
must not look like a double, since a double is written and read in layouts of its own. The entries
of a table must be in the order of their keys' bytes, since the fields of an object are. And an
annotation must not stand right around another, since only one is written.

Objects keep their fields in the order of code points. That is the order of the bytes
(`bytes_lt_iff`), as UTF-8 was made to have it: a character is told apart from a later one at the
first byte where their encodings differ, and no encoding begins another.
-/

namespace MathMarkup

/-! ## Code points and bytes -/

namespace TriggerMap

theorem bytes_eq_flatMap (s : String) : bytes s = s.toList.flatMap String.utf8EncodeChar := by
  have h : s.toByteArray = s.toList.utf8Encode := by
    rw [← String.toByteArray_ofList, String.ofList_toList]
  rw [bytes, h, List.utf8Encode, List.data_toByteArray]

/-- The encoding of a character comes before that of a later one, whatever follows. -/
theorem utf8EncodeChar_lt {c d : Char} (h : c < d) (us vs : List UInt8) :
    String.utf8EncodeChar c ++ us < String.utf8EncodeChar d ++ vs := by
  have hlt : c.val.toNat < d.val.toNat := UInt32.lt_iff_toNat_lt.1 (Char.lt_def.1 h)
  have hd : d.val.toNat < 1114112 := by
    rcases d.valid with hv | hv
    · exact Nat.lt_trans hv (by decide)
    · exact hv.2
  -- code points are numbers in base 64 with up to four digits
  have hthird : ∀ k, k / 4096 = k / 64 / 64 := fun k => by omega
  have hfourth : ∀ k, k / 262144 = k / 64 / 64 / 64 := fun k => by omega
  unfold String.utf8EncodeChar
  generalize c.val.toNat = m at hlt
  generalize d.val.toNat = n at hlt hd
  dsimp only
  -- the number of bytes grows with the code point, and the first byte says it
  repeat' split
  all_goals
    simp only [List.cons_append, List.nil_append, List.cons_lt_cons_iff, UInt8.lt_iff_toNat_lt,
      ← UInt8.toNat_inj, UInt8.toNat_ofNat', hthird, hfourth]
    omega

/-- Texts are ordered as their bytes are. -/
theorem bytes_lt_of_lt {s t : String} (h : s < t) : bytes s < bytes t := by
  have h : s.toList < t.toList := h
  rw [bytes_eq_flatMap, bytes_eq_flatMap]
  generalize s.toList = cs at h
  generalize t.toList = ds at h
  -- on the characters: the first two that differ decide, and so do their bytes
  induction cs generalizing ds with
  | nil =>
    cases ds with
    | nil => exact absurd h (List.lt_irrefl [])
    | cons d ds =>
      have hne : String.utf8EncodeChar d ≠ [] := by
        intro hnil
        have := String.length_utf8EncodeChar d
        rw [hnil] at this
        exact absurd this.symm (Nat.ne_of_gt (Char.utf8Size_pos d))
      obtain ⟨u, us, hu⟩ := List.exists_cons_of_ne_nil hne
      rw [List.flatMap_nil, List.flatMap_cons, hu]
      exact List.nil_lt_cons u _
  | cons c cs ih =>
    cases ds with
    | nil => exact absurd h (List.not_lt_nil _)
    | cons d ds =>
      rw [List.flatMap_cons, List.flatMap_cons]
      rcases List.cons_lt_cons_iff.1 h with hlt | ⟨rfl, hlt⟩
      · exact utf8EncodeChar_lt hlt _ _
      · exact List.append_left_lt (ih ds hlt)

/-- The order of bytes is the order of code points. -/
theorem bytes_lt_iff {s t : String} : bytes s < bytes t ↔ s < t := by
  refine ⟨fun h => ?_, bytes_lt_of_lt⟩
  by_cases hlt : s < t
  · exact hlt
  by_cases hgt : t < s
  · exact absurd h (List.lt_asymm (bytes_lt_of_lt hgt))
  · rw [String.le_antisymm (String.not_lt.1 hgt) (String.not_lt.1 hlt)] at h
    exact absurd h (List.lt_irrefl _)

end TriggerMap

/-! ## Objects -/

namespace Json

/-- A field whose key comes after all others goes to the end. -/
theorem setField_last {key : String} {fields : List (String × Json)}
    (h : ∀ f ∈ fields, f.1 < key) (value : Json) :
    setField key value fields = fields ++ [(key, value)] := by
  induction fields with
  | nil => rfl
  | cons f fields ih =>
    have hf := h f List.mem_cons_self
    have hrest := ih fun g hg => h g (List.mem_cons_of_mem f hg)
    unfold setField
    rw [if_neg (String.lt_asymm hf), if_neg, hrest]
    · rfl
    · rintro rfl
      exact String.lt_irrefl _ hf

/-- Fields in the order of their keys stay as they are. -/
theorem object_of_sorted {fields : List (String × Json)}
    (h : fields.Pairwise fun f g => f.1 < g.1) : object fields = .obj fields := by
  -- the fields already there come before those that are still to be set
  suffices hfold : ∀ sorted, (sorted ++ fields).Pairwise (fun f g => f.1 < g.1) →
      fields.foldl (fun fs f => setField f.1 f.2 fs) sorted = sorted ++ fields by
    rw [object, hfold [] h, List.nil_append]
  induction fields with
  | nil => exact fun sorted _ => (List.append_nil sorted).symm
  | cons f fields ih =>
    intro sorted hs
    have hlast : ∀ g ∈ sorted, g.1 < f.1 := fun g hg =>
      (List.pairwise_append.1 hs).2.2 g hg f List.mem_cons_self
    rw [List.foldl_cons, setField_last hlast, ih (List.pairwise_cons.1 h).2]
    · rw [List.append_assoc]
      rfl
    · rw [List.append_assoc]
      exact hs

end Json

namespace Expr

/-! ## Atoms -/

/-- A name that is not empty and is no text in single quotes. -/
structure BareName (name : String) : Prop where
  ne_empty : name ≠ ""
  unquoted : ¬ (2 ≤ name.length ∧ name.toList.head? = some '\'' ∧
    name.toList.getLast? = some '\'')

instance (name : String) : Decidable (BareName name) :=
  decidable_of_iff (name ≠ "" ∧ ¬ (2 ≤ name.length ∧ name.toList.head? = some '\'' ∧
    name.toList.getLast? = some '\'')) ⟨fun h => ⟨h.1, h.2⟩, fun h => ⟨h.1, h.2⟩⟩

/-- A bare name is read as a symbol. -/
theorem ofBareString_of_bareName {name : String} (h : BareName name) :
    ofBareString name = .ok (.symbol name) := by
  -- a name that is quoted at both ends would be read as a string
  have hnone : unquote? name = none := by
    unfold unquote?
    split
    next rest heq =>
      rw [if_neg]
      intro hlast
      rw [beq_iff_eq] at hlast
      refine h.unquoted ⟨?_, by rw [heq]; rfl, ?_⟩
      · cases rest with
        | nil => exact absurd hlast (by simp)
        | cons c cs =>
          rw [← String.length_toList, heq, List.length_cons, List.length_cons]
          omega
      · cases rest with
        | nil => exact absurd hlast (by simp)
        | cons c cs =>
          rw [heq, List.getLast?_cons_cons]
          exact hlast
    next => rfl
  have hempty : name.isEmpty = false := by
    rw [← Bool.not_eq_true, String.isEmpty_iff]
    exact h.ne_empty
  unfold ofBareString
  rw [hnone, hempty]
  rfl

/-- What is quoted is unquoted again. -/
theorem unquote?_quote (value : String) : unquote? (quote value) = some value := by
  have hl : (quote value).toList = '\'' :: (value.toList ++ ['\'']) := by
    simp [quote]
  unfold unquote?
  rw [hl]
  show (if (value.toList ++ ['\'']).getLast? == some '\'' then
    some (String.ofList (value.toList ++ ['\'']).dropLast) else none) = _
  rw [List.getLast?_concat, List.dropLast_concat, if_pos (beq_self_eq_true _),
    String.ofList_toList]

/-- A quoted string is read as the string. -/
theorem ofBareString_quote (value : String) : ofBareString (quote value) = .ok (.string value) := by
  rw [ofBareString, unquote?_quote]

/-! ## Numbers -/

/-- The decimal digits of a number have its value. -/
theorem digitsValue_repr (n : Nat) : digitsValue n.repr.toList = n := by
  have h := @Nat.ofDigitChars_toDigits 10 n (by decide) (by decide)
  rw [Nat.toList_repr, digitsValue]
  rw [Nat.ofDigitChars] at h
  simp only [Nat.mul_comm 10] at h
  exact h

theorem all_isDigit_repr (n : Nat) : n.repr.toList.all Char.isDigit = true := by
  rw [Nat.toList_repr, List.all_eq_true]
  exact fun c hc => Nat.isDigit_of_mem_toDigits (by decide) (by decide) hc

theorem repr_ne_nil (n : Nat) : n.repr.toList ≠ [] := by
  rw [Nat.toList_repr]
  exact Nat.toDigits_ne_nil

/-- Digits are read as their value, unless another text is its plain form. -/
theorem canonicalInt?_digits {text : String} {ds : List Char} (ht : text.toList = ds)
    (hne : ds ≠ []) (hd : ds.all Char.isDigit = true) :
    canonicalInt? text =
      if toString (digitsValue ds : Int) == text then some (digitsValue ds : Int) else none := by
  unfold canonicalInt?
  rw [ht]
  obtain ⟨c, cs, rfl⟩ := List.exists_cons_of_ne_nil hne
  split
  next negative ds heq =>
    split at heq
    next hc =>
      rw [(List.cons.inj hc).1] at hd
      exact absurd hd (by simp)
    next =>
      obtain ⟨rfl, rfl⟩ := Prod.mk.inj heq
      rw [if_neg (by rw [hd]; exact Bool.false_ne_true)]
      rfl

/-- Digits behind a minus sign are read as the negated value, unless its plain form is another. -/
theorem canonicalInt?_minus {text : String} {ds : List Char} (ht : text.toList = '-' :: ds)
    (hne : ds ≠ []) (hd : ds.all Char.isDigit = true) :
    canonicalInt? text =
      if toString (-(digitsValue ds : Int)) == text then some (-(digitsValue ds : Int)) else none := by
  unfold canonicalInt?
  rw [ht]
  obtain ⟨c, cs, rfl⟩ := List.exists_cons_of_ne_nil hne
  show (if ((c :: cs).isEmpty || !(c :: cs).all Char.isDigit) = true then none else _) = _
  rw [if_neg (by rw [hd]; exact Bool.false_ne_true)]
  rfl

/-- The decimal form of an integer is read as the integer. -/
theorem canonicalInt?_toString (n : Int) : canonicalInt? (toString n) = some n := by
  cases n with
  | ofNat m =>
    have ht : (toString (Int.ofNat m)).toList = m.repr.toList := rfl
    rw [canonicalInt?_digits ht (repr_ne_nil m) (all_isDigit_repr m), digitsValue_repr]
    exact if_pos (beq_self_eq_true _)
  | negSucc m =>
    have ht : (toString (Int.negSucc m)).toList = '-' :: (m + 1).repr.toList := by
      show ("-" ++ (m + 1).repr).toList = _
      rw [String.toList_append]
      rfl
    rw [canonicalInt?_minus ht (repr_ne_nil _) (all_isDigit_repr _), digitsValue_repr]
    exact if_pos (beq_self_eq_true _)

theorem toString_of_canonicalInt? {text : String} {n : Int} (h : canonicalInt? text = some n) :
    toString n = text := by
  unfold canonicalInt? at h
  split at h
  split at h
  · exact absurd h (by simp)
  · obtain ⟨heq, hn⟩ := Option.ite_none_right_eq_some.1 h
    rw [← Option.some.inj hn]
    exact beq_iff_eq.1 heq

/-- A text that is the decimal form of a signed 64-bit integer, or is not what the double that it is
read as prints as. -/
def NumberKept (text : String) : Prop :=
  (∃ n : Int, Json.fitsSigned n = true ∧ text = toString n) ∨
    ∀ x, plainDouble? text = some x → Layout.plain.write x ≠ text

theorem ofJson_num (text : String) :
    ofJson (Json.object [("num", .str text)]) = .ok (.number text) :=
  rfl

/-- A number that is kept is read back as the text that it was written from. -/
theorem ofJson_numberToJson {text : String} (h : NumberKept text) :
    ofJson (numberToJson text) = .ok (.number text) := by
  unfold numberToJson
  dsimp only
  -- a number is written as a double only if that prints back as the same text
  have hdouble : (∀ x, plainDouble? text = some x → Layout.plain.write x ≠ text) →
      ofJson (numberToJson.asDouble text (Json.object [("num", .str text)])) =
        .ok (.number text) := by
    intro hne
    unfold numberToJson.asDouble
    split
    next x hx =>
      rw [if_neg (by rw [beq_iff_eq]; exact hne x hx)]
      exact ofJson_num text
    next => exact ofJson_num text
  rcases h with ⟨n, hfits, rfl⟩ | hne
  · rw [canonicalInt?_toString]
    dsimp only
    rw [if_pos hfits]
    rfl
  · split
    next n hn =>
      -- an integer is written as one only where it fits into 64 bits
      by_cases hfits : Json.fitsSigned n = true
      · rw [if_pos hfits, ← toString_of_canonicalInt? hn]
        rfl
      · rw [if_neg hfits]
        exact hdouble hne
    next => exact hdouble hne

/-! ## Expressions -/

/-- An expression that comes back from the wire. What stands under an annotation is written with its
kind, so only its parts have to be told apart. -/
inductive Wirable : Expr → Prop where
  | number {text : String} (h : NumberKept text) : Wirable (.number text)
  | string (value : String) : Wirable (.string value)
  | symbol {name : String} (h : BareName name) : Wirable (.symbol name)
  | apply {head : String} {operands : List Expr} (hh : BareName head)
      (ho : ∀ o ∈ operands, Wirable o) : Wirable (.apply head operands)
  | table {entries : List (String × Expr)}
      (hk : entries.Pairwise fun a b => TriggerMap.bytes a.1 < TriggerMap.bytes b.1)
      (hv : ∀ a ∈ entries, Wirable a.2) : Wirable (.table entries)
  | annotatedNumber (markup text : String) : Wirable (.annotated markup (.number text))
  | annotatedSymbol (markup : String) {name : String} (h : name ≠ "") :
      Wirable (.annotated markup (.symbol name))
  | annotated (markup : String) {e : Expr} (h : Wirable e) (hb : e.markup? = none) :
      Wirable (.annotated markup e)

/-- Operands are read back one by one. -/
theorem ofJsonAll_toJsonAll {operands : List Expr}
    (h : ∀ o ∈ operands, ofJson o.toJson = .ok o) : ofJsonAll (toJsonAll operands) = .ok operands := by
  induction operands with
  | nil => rfl
  | cons o os ih =>
    have hrest := ih fun p hp => h p (List.mem_cons_of_mem o hp)
    show (ofJson o.toJson >>= fun e => ofJsonAll (toJsonAll os) >>= fun es => pure (e :: es)) = _
    rw [h o List.mem_cons_self, hrest]
    rfl

/-- The values of a table are read back one by one. -/
theorem ofJsonFields_toJsonEntries {entries : List (String × Expr)}
    (h : ∀ a ∈ entries, ofJson a.2.toJson = .ok a.2) :
    ofJsonFields (toJsonEntries entries) = .ok entries := by
  induction entries with
  | nil => rfl
  | cons a as ih =>
    have hrest := ih fun b hb => h b (List.mem_cons_of_mem a hb)
    show (ofJson a.2.toJson >>= fun e => ofJsonFields (toJsonEntries as) >>= fun es =>
      pure ((a.1, e) :: es)) = _
    rw [h a List.mem_cons_self, hrest]
    rfl

theorem toJsonEntries_eq_map (entries : List (String × Expr)) :
    toJsonEntries entries = entries.map fun a => (a.1, a.2.toJson) := by
  induction entries with
  | nil => rfl
  | cons a as ih => exact congrArg (List.cons _) ih

/-- The entries of a table in the order of their keys are the fields of its object. -/
theorem object_toJsonEntries {entries : List (String × Expr)}
    (h : entries.Pairwise fun a b => TriggerMap.bytes a.1 < TriggerMap.bytes b.1) :
    Json.object (toJsonEntries entries) = .obj (toJsonEntries entries) := by
  refine Json.object_of_sorted ?_
  rw [toJsonEntries_eq_map, List.pairwise_map]
  exact h.imp fun hlt => TriggerMap.bytes_lt_iff.1 hlt

/-- An array is read back as an application of its head. -/
theorem ofArray_apply {head : String} {operands : List Expr} (hh : BareName head)
    (ho : ∀ o ∈ operands, ofJson o.toJson = .ok o) :
    ofArray (.str head :: toJsonAll operands) = .ok (.apply head operands) := by
  show (ofBareString head >>= fun e => ofJsonAll (toJsonAll operands) >>= fun es =>
    pure (ofItems (.str head) e es)) = _
  rw [ofBareString_of_bareName hh, ofJsonAll_toJsonAll ho]
  rfl

/-- An annotation is written before fields whose names come after it. -/
theorem object_latex_first {key : String} (h : "latex" < key) (v : Json) (markup : String) :
    Json.object [(key, v), ("latex", .str markup)] = .obj [("latex", .str markup), (key, v)] := by
  show Json.obj (Json.setField "latex" (.str markup) [(key, v)]) = _
  rw [Json.setField, if_pos h]

/-- No key of an expression comes behind that of its markup. -/
theorem object_latex_last {key : String} (h : key < "latex") (v : Json) (markup : String) :
    Json.object [(key, v), ("latex", .str markup)] = .obj [(key, v), ("latex", .str markup)] := by
  refine Json.object_of_sorted (List.pairwise_pair.2 ?_)
  exact h

theorem ofJson_annotated_number (markup text : String) :
    ofJson (annotatedToJson markup (.number text)) = .ok (.annotated markup (.number text)) := by
  rw [annotatedToJson, object_latex_first (by decide)]
  rfl

theorem ofJson_annotated_string (markup value : String) :
    ofJson (annotatedToJson markup (.string value)) = .ok (.annotated markup (.string value)) := by
  rw [annotatedToJson, object_latex_first (by decide)]
  rfl

theorem ofJson_annotated_symbol (markup : String) {name : String} (h : name ≠ "") :
    ofJson (annotatedToJson markup (.symbol name)) = .ok (.annotated markup (.symbol name)) := by
  have hempty : ¬ name.isEmpty = true := by
    rw [String.isEmpty_iff]
    exact h
  rw [annotatedToJson, object_latex_first (by decide)]
  show ((if name.isEmpty = true then Except.error WireError.emptySymbol else .ok (.symbol name)) >>=
    withAnnotation (some (.str markup))) = _
  rw [if_neg hempty]
  rfl

/-- An application comes back under an annotation if it comes back alone. -/
theorem ofJson_annotated_apply (markup : String) {head : String} {operands : List Expr}
    (h : ofJson (toJson (.apply head operands)) = .ok (.apply head operands)) :
    ofJson (annotatedToJson markup (.apply head operands)) =
      .ok (.annotated markup (.apply head operands)) := by
  have harray : ofArray (.str head :: toJsonAll operands) = .ok (.apply head operands) := h
  rw [annotatedToJson, object_latex_last (by decide)]
  show (ofArray (.str head :: toJsonAll operands) >>= withAnnotation (some (.str markup))) = _
  rw [harray]
  rfl

/-- So does a table. -/
theorem ofJson_annotated_table (markup : String) {entries : List (String × Expr)}
    (hk : entries.Pairwise fun a b => TriggerMap.bytes a.1 < TriggerMap.bytes b.1)
    (h : ofJson (toJson (.table entries)) = .ok (.table entries)) :
    ofJson (annotatedToJson markup (.table entries)) = .ok (.annotated markup (.table entries)) := by
  rw [toJson, object_toJsonEntries hk] at h
  have hfields : ((ofJsonFields (toJsonEntries entries)).map Expr.table >>= withAnnotation none) =
      .ok (.table entries) := h
  rw [annotatedToJson, object_latex_last (by decide), object_toJsonEntries hk]
  show ((ofJsonFields (toJsonEntries entries)).map Expr.table >>=
    withAnnotation (some (.str markup))) = _
  cases hf : (ofJsonFields (toJsonEntries entries)).map Expr.table with
  | error err =>
    rw [hf] at hfields
    have hfields : Except.error err = Except.ok (Expr.table entries) := hfields
    exact absurd hfields (by simp)
  | ok e =>
    rw [hf] at hfields
    rw [show e = .table entries from Except.ok.inj hfields]
    rfl

/-- Every expression that can be told apart on the wire is read back as it was written. -/
theorem ofJson_toJson {e : Expr} (h : Wirable e) : ofJson e.toJson = .ok e := by
  induction h with
  | number h => exact ofJson_numberToJson h
  | string value => exact ofBareString_quote value
  | symbol h => exact ofBareString_of_bareName h
  | apply hh _ ih => exact ofArray_apply hh ih
  | table hk _ ih =>
    rw [toJson, object_toJsonEntries hk]
    show ((ofJsonFields (toJsonEntries _)).map Expr.table >>= withAnnotation none) = _
    rw [ofJsonFields_toJsonEntries ih]
    rfl
  | annotatedNumber markup text => exact ofJson_annotated_number markup text
  | annotatedSymbol markup hne => exact ofJson_annotated_symbol markup hne
  | annotated markup h hb ih =>
    cases h with
    | number => exact ofJson_annotated_number markup _
    | string => exact ofJson_annotated_string markup _
    | symbol hn => exact ofJson_annotated_symbol markup hn.ne_empty
    | apply => exact ofJson_annotated_apply markup ih
    | table hk => exact ofJson_annotated_table markup hk ih
    | annotatedNumber | annotatedSymbol | annotated => exact absurd hb (by simp [markup?])

/-- Tables, applications, annotations, names with quotes, and a number of each kind. -/
def sampleMessage : Expr :=
  .annotated "f(x)" (.apply "Equal" [
    .annotated "f" (.symbol "'f'"),
    .table [("", .number "-9223372036854775808"), ("Z", .number "0.10"),
      ("a", .annotated "1.5" (.number "1.5")), ("é", .apply "g" [.string "'", .symbol "x'"])],
    .annotated "" (.table [("num", .annotated "2" (.apply "List" []))])])

theorem ofJson_toJson_sampleMessage :
    Wirable sampleMessage ∧ ofJson sampleMessage.toJson = .ok sampleMessage := by
  have hbare : ∀ {name : String}, name ≠ "" ∧ name.toList.head? ≠ some '\'' → BareName name :=
    fun h => ⟨h.1, fun hq => h.2 hq.2.1⟩
  -- the double for it prints without the last zero, so the text is kept instead
  have hlong : NumberKept "0.10" := by
    have hprint : (plainDouble? "0.10").all fun x => Layout.plain.write x != "0.10" := by
      decide +kernel
    exact Or.inr fun x hx => bne_iff_ne.1 ((Option.all_eq_true _ _).1 hprint x hx)
  have hkeyed : Wirable (.table [("", .number "-9223372036854775808"), ("Z", .number "0.10"),
      ("a", .annotated "1.5" (.number "1.5")), ("é", .apply "g" [.string "'", .symbol "x'"])]) := by
    refine .table (by decide) ?_
    simp only [List.forall_mem_cons]
    refine ⟨.number (Or.inl ⟨-9223372036854775808, rfl, rfl⟩), .number hlong,
      .annotatedNumber _ _, .apply (hbare (by decide)) ?_, by simp⟩
    simp only [List.forall_mem_cons]
    exact ⟨.string _, .symbol (hbare (by decide)), by simp⟩
  have hnested : Wirable (.table [("num", .annotated "2" (.apply "List" []))]) := by
    refine .table (by decide) ?_
    simp only [List.forall_mem_cons]
    exact ⟨.annotated _ (.apply (hbare (by decide)) (by simp)) rfl, by simp⟩
  have h : Wirable sampleMessage := by
    refine .annotated _ (.apply (hbare (by decide)) ?_) rfl
    simp only [List.forall_mem_cons]
    exact ⟨.annotatedSymbol _ (by decide), hkeyed, .annotated _ hnested rfl, by simp⟩
  exact ⟨h, ofJson_toJson h⟩

end Expr
end MathMarkup
