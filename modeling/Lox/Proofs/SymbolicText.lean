import Lox.Proofs.TokenText
import Lox.Syntax.Text

/-! S-expressions, whose text tells what they are, and the S-expressions that trees are written as. -/

namespace Lox

/-- Tokens in nested parentheses. -/
inductive Sexp where
  | atom (kind : TokenKind)
  | list (items : List Sexp)

namespace Sexp

mutual

def text : Sexp → List Char
  | atom kind => kind.spelled
  | list items => '(' :: (inner items ++ [')'])

/-- Items with a space between any two. -/
def inner : List Sexp → List Char
  | [] => []
  | item :: rest => item.text ++ behind rest

/-- Items with a space in front of each. -/
def behind : List Sexp → List Char
  | [] => []
  | item :: rest => ' ' :: (item.text ++ behind rest)

end

@[simp] theorem text_atom (kind : TokenKind) : (atom kind).text = kind.spelled := rfl

@[simp] theorem text_list_cons (item : Sexp) (rest : List Sexp) :
    (list (item :: rest)).text = '(' :: (item.text ++ (behind rest ++ [')'])) := by
  simp only [text, inner, List.append_assoc]

@[simp] theorem behind_nil : behind [] = [] := rfl

@[simp] theorem behind_cons (item : Sexp) (rest : List Sexp) :
    behind (item :: rest) = ' ' :: (item.text ++ behind rest) := rfl

mutual

/-- The atoms can be read, and none of them is a parenthesis. -/
inductive Legible : Sexp → Prop where
  | atom {kind : TokenKind} (legible : kind.Legible) (finite : kind.isFinite)
      (inner : kind ≠ .symbol .leftParen ∧ kind ≠ .symbol .rightParen) : Legible (.atom kind)
  | list {items : List Sexp} (legible : AllLegible items) : Legible (.list items)

inductive AllLegible : List Sexp → Prop where
  | nil : AllLegible []
  | cons {item : Sexp} {rest : List Sexp} (first : Legible item) (later : AllLegible rest) :
      AllLegible (item :: rest)

end

section
variable (atoms : TokenKind → Prop)

mutual

/-- All atoms are as described. -/
inductive Of : Sexp → Prop where
  | atom {kind : TokenKind} (holds : atoms kind) : Of (.atom kind)
  | list {items : List Sexp} (each : AllOf items) : Of (.list items)

inductive AllOf : List Sexp → Prop where
  | nil : AllOf []
  | cons {item : Sexp} {rest : List Sexp} (first : Of item) (later : AllOf rest) :
      AllOf (item :: rest)

end
end

section
variable {atoms : TokenKind → Prop}

theorem allOf_iff {items : List Sexp} : AllOf atoms items ↔ ∀ item ∈ items, Of atoms item := by
  induction items with
  | nil => exact ⟨fun _ => nofun, fun _ => .nil⟩
  | cons item items ih =>
    rw [List.forall_mem_cons, ← ih]
    exact ⟨fun | .cons first later => ⟨first, later⟩, fun ⟨first, later⟩ => .cons first later⟩

theorem Of.among {items : List Sexp} {kind : TokenKind} (written : Of atoms (.list items))
    (member : .atom kind ∈ items) : atoms kind := by
  cases written with
  | list each =>
    cases allOf_iff.mp each _ member with
    | atom holds => exact holds

theorem AllOf.append {items others : List Sexp} (each : AllOf atoms items)
    (each' : AllOf atoms others) : AllOf atoms (items ++ others) :=
  allOf_iff.mpr (List.forall_mem_append.mpr ⟨allOf_iff.mp each, allOf_iff.mp each'⟩)

end

/-- Kinds that can be read, other than the parentheses. -/
structure Atomic (kind : TokenKind) : Prop where
  legible : kind.Legible
  finite : kind.isFinite
  inner : kind ≠ .symbol .leftParen ∧ kind ≠ .symbol .rightParen

theorem Atomic.of_other {kind : TokenKind} (legible : kind.Legible) (finite : kind.isFinite)
    (other : ∀ sign, kind ≠ .symbol sign) : Atomic kind :=
  ⟨legible, finite, other _, other _⟩

mutual

theorem Of.legible : ∀ {item : Sexp}, Of Atomic item → Legible item
  | _, .atom holds => .atom holds.legible holds.finite holds.inner
  | _, .list each => .list each.legible

theorem AllOf.legible : ∀ {items : List Sexp}, AllOf Atomic items → AllLegible items
  | _, .nil => .nil
  | _, .cons first later => .cons first.legible later.legible

end

/-- What is read first of a text. -/
def opening (chars : List Char) : Option Content := (Cut.ofChars? chars).map Cut.content

theorem opening_atom {kind : TokenKind} (legible : kind.Legible) (finite : kind.isFinite)
    {rest : List Char} (delimited : Cut.Delimited rest) :
    opening (kind.spelled ++ rest) = some (.token kind) := by
  rw [opening, Cut.ofChars?_spelled legible finite delimited]
  rfl

theorem delimited_behind (items : List Sexp) (rest : List Char) :
    Cut.Delimited (behind items ++ ')' :: rest) := by
  intro char first
  cases items <;> cases first <;> decide

theorem opening_list (items : List Sexp) (rest : List Char) :
    opening ((list items).text ++ rest) = some (.token (.symbol .leftParen)) := rfl

theorem opening_text {item : Sexp} (legible : item.Legible) {rest : List Char}
    (delimited : Cut.Delimited rest) : ∃ kind, opening (item.text ++ rest) = some (.token kind) ∧
      kind ≠ .symbol .rightParen := by
  cases legible with
  | atom legible finite inner => exact ⟨_, opening_atom legible finite delimited, inner.2⟩
  | list legible => exact ⟨_, opening_list _ rest, nofun⟩

mutual

/-- The text of a legible S-expression tells what it is and where it ends. -/
theorem text_append : ∀ {first second : Sexp}, first.Legible → second.Legible →
    ∀ {rest others : List Char}, Cut.Delimited rest → Cut.Delimited others →
      first.text ++ rest = second.text ++ others → first = second ∧ rest = others
  | .atom _, .atom _, .atom legible finite _, .atom legible' finite' _, rest, others, ends, ends',
      same => by
    have cut := Cut.ofChars?_spelled legible finite ends
    rw [text, text] at same
    rw [same, Cut.ofChars?_spelled legible' finite' ends'] at cut
    cases cut
    exact ⟨rfl, rfl⟩
  | .atom _, .list items, .atom legible finite inner, _, rest, others, ends, ends', same => by
    have opened := opening_atom legible finite ends
    rw [text] at same
    rw [same, opening_list items others] at opened
    cases opened
    exact absurd rfl inner.1
  | .list items, .atom _, _, .atom legible finite inner, rest, others, ends, ends', same => by
    have opened := opening_list items rest
    rw [same, text, opening_atom legible finite ends'] at opened
    cases opened
    exact absurd rfl inner.1
  | .list _, .list _, .list legible, .list legible', rest, others, ends, ends', same => by
    simp only [text, List.cons_append, List.append_assoc, List.nil_append, List.cons.injEq,
      true_and] at same
    obtain ⟨rfl, rfl⟩ := inner_append legible legible' same
    exact ⟨rfl, rfl⟩

theorem inner_append : ∀ {items others : List Sexp}, AllLegible items → AllLegible others →
    ∀ {rest more : List Char}, inner items ++ ')' :: rest = inner others ++ ')' :: more →
      items = others ∧ rest = more
  | [], [], _, _, rest, more, same => ⟨rfl, (List.cons.inj same).2⟩
  | [], item :: others, _, .cons legible _, rest, more, same => by
    obtain ⟨kind, opened, other⟩ := opening_text legible (delimited_behind others more)
    rw [inner, inner, List.append_assoc] at same
    rw [← same] at opened
    cases opened
    exact absurd rfl other
  | item :: items, [], .cons legible _, _, rest, more, same => by
    obtain ⟨kind, opened, other⟩ := opening_text legible (delimited_behind items rest)
    rw [inner, inner, List.append_assoc] at same
    rw [same] at opened
    cases opened
    exact absurd rfl other
  | item :: items, item' :: others, .cons legible later, .cons legible' later', rest, more, same => by
    rw [inner, inner, List.append_assoc, List.append_assoc] at same
    obtain ⟨rfl, further⟩ := text_append legible legible' (delimited_behind _ rest)
      (delimited_behind _ more) same
    obtain ⟨rfl, rfl⟩ := behind_append later later' further
    exact ⟨rfl, rfl⟩

theorem behind_append : ∀ {items others : List Sexp}, AllLegible items → AllLegible others →
    ∀ {rest more : List Char}, behind items ++ ')' :: rest = behind others ++ ')' :: more →
      items = others ∧ rest = more
  | [], [], _, _, rest, more, same => ⟨rfl, (List.cons.inj same).2⟩
  | [], item :: others, _, _, rest, more, same => by
    cases same
  | item :: items, [], _, _, rest, more, same => by
    cases same
  | item :: items, item' :: others, .cons legible later, .cons legible' later', rest, more, same => by
    simp only [behind, List.cons_append, List.append_assoc, List.cons.injEq, true_and] at same
    obtain ⟨rfl, further⟩ := text_append legible legible' (delimited_behind _ rest)
      (delimited_behind _ more) same
    obtain ⟨rfl, rfl⟩ := behind_append later later' further
    exact ⟨rfl, rfl⟩

end

/-- S-expressions on a line each. -/
def lines : List Sexp → List Char
  | [] => []
  | item :: rest => item.text ++ '\n' :: lines rest

theorem delimited_line (rest : List Char) : Cut.Delimited ('\n' :: rest) := by
  intro char first
  cases first
  decide

theorem line_ne_nil {item : Sexp} (legible : item.Legible) (rest : List Char) :
    item.text ++ '\n' :: rest ≠ [] := by
  obtain ⟨kind, opened, -⟩ := opening_text legible (delimited_line rest)
  intro nothing
  rw [nothing] at opened
  cases opened

theorem lines_injective : ∀ {items others : List Sexp}, AllLegible items → AllLegible others →
    lines items = lines others → items = others
  | [], [], _, _, _ => rfl
  | [], _ :: _, _, .cons legible _, same => absurd same.symm (line_ne_nil legible _)
  | _ :: _, [], .cons legible _, _, same => absurd same (line_ne_nil legible _)
  | item :: items, item' :: others, .cons legible later, .cons legible' later', same => by
    obtain ⟨rfl, further⟩ := text_append legible legible' (delimited_line _) (delimited_line _) same
    rw [lines_injective later later' (List.cons.inj further).2]

end Sexp
end Lox
