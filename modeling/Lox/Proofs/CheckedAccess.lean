import Lox.Interner
import Lox.Proofs.SourcePieces
import Mathlib.Data.List.Basic

/-! What a program may reach that keeps its data in flat memory. A text is cut at byte offsets, and a
name stands for the text that it was given out for. To reach for anything else ends the program. -/

namespace Lox

namespace Flat

/-- What was reached for that is not there. A counter is out of reach when it would not fit its width.
Something may also be used up, names or memory, which no bound on a single source rules out. -/
inductive Panic where
  | slice | token | node | list | name | scope | counter | crowded
  deriving DecidableEq, Repr

abbrev Checked := Except Panic

def demand {α : Type} (panic : Panic) : Option α → Checked α
  | some value => .ok value
  | none => .error panic

/-- A count that is kept in so many values must be less than their number. -/
def fits (bound count : Nat) : Checked Nat :=
  if count ≤ bound then .ok count else .error .counter

/-- The text in front of a byte offset, and the text behind it. No offset lies within a character. -/
def cut? : List Char → Nat → Option (List Char × List Char)
  | [], offset => if offset = 0 then some ([], []) else none
  | char :: text, offset =>
    if offset = 0 then some ([], char :: text)
    else if char.utf8Size ≤ offset then
      (cut? text (offset - char.utf8Size)).map fun (front, back) => (char :: front, back)
    else none

def front (text : List Char) (stop : Nat) : Checked (List Char) :=
  return (← demand .slice (cut? text stop)).1

def behind (text : List Char) (start : Nat) : Checked (List Char) :=
  return (← demand .slice (cut? text start)).2

def slice (text : List Char) (start stop : Nat) : Checked (List Char) := do
  if start ≤ stop then front (← behind text start) (stop - start) else throw .slice

theorem fits_ok {bound count : Nat} (small : count ≤ bound) : fits bound count = .ok count :=
  if_pos small

theorem width_cons (char : Char) (text : List Char) :
    Piece.width (char :: text) = char.utf8Size + Piece.width text := by
  rw [← List.singleton_append, Piece.width_append]
  simp [Piece.width]

theorem cut?_append (first second : List Char) :
    cut? (first ++ second) (Piece.width first) = some (first, second) := by
  induction first with
  | nil => cases second <;> rfl
  | cons char first ih =>
    have positive := char.utf8Size_pos
    rw [width_cons, List.cons_append, cut?, if_neg (by omega), if_pos (Nat.le_add_right _ _),
      Nat.add_sub_cancel_left, ih]
    rfl

theorem front_append (first second : List Char) :
    front (first ++ second) (Piece.width first) = .ok first := by
  rw [front, cut?_append]
  rfl

theorem behind_append (first second : List Char) :
    behind (first ++ second) (Piece.width first) = .ok second := by
  rw [behind, cut?_append]
  rfl

theorem slice_append (first second third : List Char) :
    slice (first ++ (second ++ third)) (Piece.width first)
      (Piece.width first + Piece.width second) = .ok second := by
  rw [slice, if_pos (Nat.le_add_right _ _), behind_append, Nat.add_sub_cancel_left]
  exact front_append second third

end Flat

namespace Interner

/-- The name is the one that the text was given. -/
structure Gave (interner : Interner) (name : Name) (text : String) : Prop where
  known : text ∈ interner.strings
  named : name = interner.name text

/-- All that the first interner gave out is as it was. -/
def GrowsTo (first second : Interner) : Prop := first.strings <+: second.strings

variable {first second third interner : Interner} {name : Name} {text : String}

theorem GrowsTo.refl (interner : Interner) : interner.GrowsTo interner := List.prefix_refl _

theorem GrowsTo.trans (grows : first.GrowsTo second) (further : second.GrowsTo third) :
    first.GrowsTo third :=
  List.IsPrefix.trans grows further

theorem add_grows (interner : Interner) (text : String) : interner.GrowsTo (interner.add text) := by
  unfold add
  split
  · exact .refl interner
  · exact List.prefix_append _ _

theorem Gave.mono (gave : first.Gave name text) (grows : first.GrowsTo second) :
    second.Gave name text := by
  obtain ⟨known, rfl⟩ := gave
  obtain ⟨more, same⟩ := grows
  have inside : text ∈ first.inShard (shard text) := by simpa [inShard] using known
  refine ⟨same ▸ List.mem_append_left more known, ?_⟩
  simp only [Interner.name, inShard, ← same, List.filter_append]
  exact congrArg (Name.mk (shard text)) (List.idxOf_append_of_mem inside).symm

theorem Gave.lookup (gave : interner.Gave name text) : interner.lookup? name = some text := by
  obtain ⟨known, rfl⟩ := gave
  have inside : text ∈ interner.inShard (shard text) := by simpa [inShard] using known
  exact List.getElem?_idxOf inside

/-- A name stands for one text. -/
theorem Gave.text_eq {other : String} (gave : interner.Gave name text)
    (again : interner.Gave name other) : text = other := by
  have same := gave.lookup.symm.trans again.lookup
  exact Option.some.inj same

/-- A new text comes last in its shard. -/
theorem add_gave (interner : Interner) (text : String) :
    (interner.add text).Gave (interner.name text) text := by
  unfold add
  split
  next known => exact ⟨by simpa using known, rfl⟩
  next fresh =>
    have outside : text ∉ interner.inShard (shard text) := by simpa [inShard] using fresh
    have last : inShard ⟨interner.strings ++ [text]⟩ (shard text) =
        interner.inShard (shard text) ++ [text] := by simp [inShard]
    refine ⟨by simp, congrArg (Name.mk (shard text)) ?_⟩
    rw [last, List.idxOf_append_of_notMem outside, List.idxOf_of_notMem outside,
      List.idxOf_cons_self, Nat.add_zero]

end Interner

namespace Flat

/-- The greatest index that the part of a name within its shard has room for. -/
def maxIndex : Nat := Nat.pow 2 28 - 1

abbrev Naming := StateT Interner Checked

/-- The name of a text. One that is new needs room for another name. -/
def intern (text : String) : Naming Name := fun interner =>
  if text ∈ interner.strings then .ok (interner.name text, interner)
  else if (interner.name text).index ≤ maxIndex then .ok (interner.intern text)
  else .error .crowded

def lookup (interner : Interner) (name : Name) : Checked String :=
  demand .name (interner.lookup? name)

theorem lookup_gave {interner : Interner} {name : Name} {text : String}
    (gave : interner.Gave name text) : lookup interner name = .ok text := by
  rw [lookup, gave.lookup]
  rfl

/-- The result has a property, unless something has been used up. -/
def Delivers {α : Type} (result : Checked α) (property : α → Prop) : Prop :=
  result = .error .crowded ∨ ∃ value, result = .ok value ∧ property value

/-- So has the result of a run that gives out names; and names given out before stay as they are. -/
def Issues {α : Type} (run : Naming α) (interner : Interner) (property : α → Interner → Prop) :
    Prop :=
  Delivers (run interner) fun issued => interner.GrowsTo issued.2 ∧ property issued.1 issued.2

namespace Issues

variable {α β : Type} {interner : Interner} {property : α → Interner → Prop}

theorem pure {value : α} (holds : property value interner) :
    Issues (Pure.pure value) interner property :=
  .inr ⟨(value, interner), rfl, .refl interner, holds⟩

theorem bind {run : Naming α} {next : α → Naming β} {later : β → Interner → Prop}
    (issues : Issues run interner property)
    (goesOn : ∀ value after, interner.GrowsTo after → property value after →
      Issues (next value) after later) : Issues (run >>= next) interner later := by
  rcases issues with crowded | ⟨⟨value, after⟩, ran, grows, holds⟩
  · refine .inl ?_
    simp only [Bind.bind, StateT.bind, crowded]
    rfl
  · have continued : (run >>= next) interner = next value after := by
      simp only [Bind.bind, StateT.bind, ran]
      rfl
    unfold Issues
    rw [continued]
    rcases goesOn value after grows holds with crowded | ⟨issued, ran, further, holds⟩
    · exact .inl crowded
    · exact .inr ⟨issued, ran, grows.trans further, holds⟩

/-- An access gives out no names. -/
theorem reach {result : Checked α} {value : α} {next : α → Naming β} {later : β → Interner → Prop}
    (ok : result = .ok value) (goesOn : Issues (next value) interner later) :
    Issues ((liftM result : Naming α) >>= next) interner later := by
  subst ok
  exact goesOn

end Issues

theorem intern_issues (text : String) (interner : Interner) :
    Issues (intern text) interner fun name after => after.Gave name text := by
  unfold Issues intern
  split
  next known => exact .inr ⟨_, rfl, .refl interner, known, rfl⟩
  next =>
    split
    · exact .inr ⟨_, rfl, interner.add_grows text, interner.add_gave text⟩
    · exact .inl rfl

end Flat
end Lox
