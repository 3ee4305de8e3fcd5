import MathMarkup.Proofs.Braces
import MathMarkup.Proofs.Progress

/-!
# How far a name goes

A name takes some tokens at the start and leaves the rest. What it takes settles everything: the
same name is read from these tokens whatever stands after them, and their braces match, so nothing
that follows belongs to a group of the name (`identifier?_extent`).

The readers below a name have this property too (`TakesWhole`), each for the braces that are open
where it begins. It comes from the groups: a group ends at the brace that closes it, and a single
token ends by itself. What is in a group is read from its contents alone, so how that comes out has
no part in where the name ends (`TakesWhole.bind`).
-/

namespace MathMarkup.Name

/-- What the reader takes from the start of the tokens closes all of `depth` open braces, and it
takes the same from them before any other tokens. -/
def TakesWhole {α : Type} (depth : Nat) (read : List Token → Option (α × List Token))
    (ts : List Token) : Prop :=
  ∀ a rest, read ts = some (a, rest) →
    ∃ taken, ts = taken ++ rest ∧ Token.openAfter depth taken = some 0 ∧
      ∀ us, read (taken ++ us) = some (a, us)

section

variable {α β : Type} {depth d : Nat} {read : List Token → Option (α × List Token)}
variable {ts : List Token} {t : Token}

/-- A reader that takes nothing. -/
theorem takesWhole_nothing (a : α) (ts : List Token) :
    TakesWhole 0 (fun us => some (a, us)) ts := by
  intro b rest h
  obtain ⟨rfl, rfl⟩ := Prod.mk.inj (Option.some.inj h)
  exact ⟨[], rfl, rfl, fun us => rfl⟩

/-- What is made of the result has no part in where the reader ends. -/
theorem TakesWhole.bind (h : TakesWhole depth read ts) (f : α → Option β) :
    TakesWhole depth (fun us => read us >>= fun r => (f r.1).map (·, r.2)) ts := by
  intro b rest hread
  obtain ⟨⟨a, after⟩, ha, hb⟩ := Option.bind_eq_some_iff.1 hread
  obtain ⟨b', hf, heq⟩ := Option.map_eq_some_iff.1 hb
  obtain ⟨rfl, rfl⟩ := Prod.mk.inj heq
  obtain ⟨taken, rfl, hopen, htaken⟩ := h a after ha
  refine ⟨taken, rfl, hopen, ?_⟩
  intro us
  show (read (taken ++ us) >>= fun r => (f r.1).map (·, r.2)) = some (b', us)
  rw [htaken]
  show (f a).map (·, us) = some (b', us)
  rw [hf]
  rfl

/-- One more token, which leads from some open braces to those that the reader begins with. -/
theorem TakesWhole.cons {read' : List Token → Option (α × List Token)}
    (h : TakesWhole d read ts)
    (hopen : ∀ us, Token.openAfter depth (t :: us) = Token.openAfter d us)
    (hread : ∀ us, read' (t :: us) = read us) : TakesWhole depth read' (t :: ts) := by
  intro a rest hr
  rw [hread] at hr
  obtain ⟨taken, rfl, hclosed, htaken⟩ := h a rest hr
  refine ⟨t :: taken, rfl, ?_, ?_⟩
  · rw [hopen]
    exact hclosed
  · intro us
    rw [List.cons_append, hread]
    exact htaken us

/-- A reader that gives nothing takes nothing. -/
theorem takesWhole_of_none (h : read ts = none) : TakesWhole depth read ts := by
  intro a rest hr
  rw [h] at hr
  cases hr

end

/-! ## Groups and arguments -/

theorem takesWhole_splitClose? (depth : Nat) (ts : List Token) :
    TakesWhole (depth + 1) (splitClose? depth) ts := by
  induction ts generalizing depth with
  | nil => exact takesWhole_of_none rfl
  | cons t ts ih =>
    obtain ⟨raw, kind⟩ := t
    -- the rest of the group is taken from some depth, and the token leads to that depth
    have hcons : ∀ d,
        (∀ us, Token.openAfter (depth + 1) (⟨raw, kind⟩ :: us) = Token.openAfter (d + 1) us) →
        (∀ us, splitClose? depth (⟨raw, kind⟩ :: us) =
          (splitClose? d us).map fun r => (⟨raw, kind⟩ :: r.1, r.2)) →
        TakesWhole (depth + 1) (splitClose? depth) (⟨raw, kind⟩ :: ts) := by
      intro d hopen hsplit
      refine ((ih d).bind fun body => some (⟨raw, kind⟩ :: body)).cons hopen ?_
      intro us
      rw [hsplit]
      cases splitClose? d us <;> rfl
    cases kind with
    | closeGroup =>
      cases depth with
      | zero => exact (takesWhole_nothing [] ts).cons (fun us => rfl) fun us => rfl
      | succ d => exact hcons d (fun us => rfl) fun us => rfl
    | openGroup => exact hcons (depth + 1) (fun us => rfl) fun us => rfl
    | command | number | text | char => exact hcons depth (fun us => rfl) fun us => rfl

theorem takesWhole_argument? (ts : List Token) : TakesWhole 0 argument? ts := by
  cases ts with
  | nil => exact takesWhole_of_none rfl
  | cons t ts =>
    obtain ⟨raw, kind⟩ := t
    cases kind with
    | openGroup => exact (takesWhole_splitClose? 0 ts).cons (fun us => rfl) fun us => rfl
    | closeGroup => exact takesWhole_of_none rfl
    | command | number | text | char =>
      exact (takesWhole_nothing [_] ts).cons (fun us => rfl) fun us => rfl

theorem takesWhole_group? (ts : List Token) : TakesWhole 0 group? ts := by
  cases ts with
  | nil => exact takesWhole_of_none rfl
  | cons t ts =>
    obtain ⟨raw, kind⟩ := t
    cases kind with
    | openGroup => exact (takesWhole_splitClose? 0 ts).cons (fun us => rfl) fun us => rfl
    | closeGroup | command | number | text | char => exact takesWhole_of_none rfl

/-! ## Names -/

/-- A name is a token that is a name by itself, or a command with the argument that it calls for. -/
theorem takesWhole_readIdentifier? (ts : List Token) : TakesWhole 0 readIdentifier? ts := by
  cases ts with
  | nil => exact takesWhole_of_none rfl
  | cons t ts =>
    obtain ⟨raw, kind⟩ := t
    -- what a token calls for hangs on the token alone, so the rest of the tokens may be anything
    cases kind with
    | char =>
      refine ((takesWhole_nothing () ts).bind fun _ => charName? raw).cons (fun us => rfl) ?_
      intro us
      rfl
    | command =>
      cases hsymbol : symbolOfCommand? raw with
      | some symbol =>
        refine (takesWhole_nothing symbol.name ts).cons (fun us => rfl) ?_
        intro us
        simp only [readIdentifier?, hsymbol]
      | none =>
        cases haccent : accentOfCommand? raw with
        | some accent =>
          refine ((takesWhole_argument? ts).bind fun inner => (body? {} inner).map fun parts =>
            { parts with accents := parts.accents ++ [accent.name] }.name).cons (fun us => rfl) ?_
          intro us
          simp only [readIdentifier?, hsymbol, haccent]
          refine bind_congr fun r => ?_
          cases body? {} r.1 <;> rfl
        | none =>
          cases hface : isTypeface raw with
          | true =>
            refine ((takesWhole_group? ts).bind fun inner =>
              (styled? raw inner (body? {} inner)).map Parts.name).cons (fun us => rfl) ?_
            intro us
            simp only [readIdentifier?, hsymbol, haccent, hface]
            refine bind_congr fun r => ?_
            cases styled? raw r.1 (body? {} r.1) <;> rfl
          | false =>
            refine takesWhole_of_none ?_
            simp only [readIdentifier?, hsymbol, haccent, hface]
    | number | text | openGroup | closeGroup => exact takesWhole_of_none rfl

/-- What is taken by a name stands apart from the tokens after it. -/
theorem exists_of_identifier? {ts : List Token} {name : String} {length : Nat}
    (h : identifier? ts = some (name, length)) :
    ∃ taken rest, ts = taken ++ rest ∧ length = taken.length ∧ Token.Balanced taken ∧
      ∀ us, readIdentifier? (taken ++ us) = some (name, us) := by
  obtain ⟨⟨name', rest⟩, hread, heq⟩ := Option.map_eq_some_iff.1 h
  obtain ⟨rfl, rfl⟩ := Prod.mk.inj heq
  obtain ⟨taken, rfl, hbalanced, htaken⟩ := takesWhole_readIdentifier? ts name' rest hread
  refine ⟨taken, rest, rfl, ?_, hbalanced, htaken⟩
  simp only [List.length_append]
  omega

/-- A name takes whole groups. -/
theorem balanced_of_identifier? {ts : List Token} {name : String} {length : Nat}
    (h : identifier? ts = some (name, length)) : Token.Balanced (ts.take length) := by
  obtain ⟨taken, rest, rfl, rfl, hbalanced, -⟩ := exists_of_identifier? h
  rw [List.take_left]
  exact hbalanced

/-- A name takes at least one token and at most all. The tokens that it takes match in their braces,
and the name is read from them whatever comes after. -/
theorem identifier?_extent {ts : List Token} {name : String} {length : Nat}
    (h : identifier? ts = some (name, length)) :
    1 ≤ length ∧ length ≤ ts.length ∧ Token.Balanced (ts.take length) ∧
      ∀ us, identifier? (ts.take length ++ us) = some (name, length) := by
  have hpos := Parser.identifier?_eq_some h
  have hbalanced := balanced_of_identifier? h
  obtain ⟨taken, rest, rfl, rfl, -, htaken⟩ := exists_of_identifier? h
  refine ⟨hpos, ?_, hbalanced, ?_⟩
  · simp only [List.length_append]
    omega
  · intro us
    rw [List.take_left, identifier?, htaken, Option.map_some, List.length_append,
      Nat.add_sub_cancel]

/-- A name with scripts in its argument ends at the brace that closes the argument, though another
closing brace and a further group follow. -/
theorem identifier?_extent_scripts :
    let ts := Token.scan "\\mathrm\x7b\\vec\x7bx\x7d_\x7bi,\\hat j\x7d\x7d\x7d\x7by\x7d"
    identifier? ts = some ("x_vec_i_j_hat", 14) ∧ Token.Balanced (ts.take 14) ∧
      ∀ us, identifier? (ts.take 14 ++ us) = some ("x_vec_i_j_hat", 14) := by
  intro ts
  have h : identifier? ts = some ("x_vec_i_j_hat", 14) := by decide +kernel
  obtain ⟨-, -, hbalanced, hextent⟩ := identifier?_extent h
  exact ⟨h, hbalanced, hextent⟩

end MathMarkup.Name
