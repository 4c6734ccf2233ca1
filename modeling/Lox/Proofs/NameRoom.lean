import Mathlib.Data.List.Nodup
import Mathlib.Data.List.Perm.Subperm
import Lox.Proofs.FlatSessions

/-! Room for names. What a source asks names for does not depend on the names that are in use, so
that it finds room wherever it finds room among more names. -/

namespace Lox

namespace Interner

/-- The first interner has given out names for some of the texts of the second one, which has not
outgrown what a name can tell apart. -/
structure Under (fewer more : Interner) : Prop where
  distinct : fewer.strings.Nodup
  within : fewer.strings ⊆ more.strings
  room : ∀ index, (more.inShard index).length ≤ Flat.maxIndex + 1

variable {fewer more : Interner}

theorem mem_inShard {interner : Interner} {text : String} {index : Nat} :
    text ∈ interner.inShard index ↔ text ∈ interner.strings ∧ shard text = index := by
  simp [inShard]

theorem add_known {interner : Interner} {text : String} (known : text ∈ interner.strings) :
    interner.add text = interner := by
  simp [add, known]

theorem add_fresh {interner : Interner} {text : String} (fresh : text ∉ interner.strings) :
    interner.add text = ⟨interner.strings ++ [text]⟩ := by
  simp [add, fresh]

/-- The index of a new text is the number of texts in its shard. -/
theorem name_fresh {interner : Interner} {text : String} (fresh : text ∉ interner.strings) :
    (interner.name text).index = (interner.inShard (shard text)).length :=
  List.idxOf_of_notMem fun inside => fresh (mem_inShard.mp inside).1

/-- Where each text is there once, what is found under a name got that name. -/
theorem Gave.of_lookup {interner : Interner} {name : Name} {text : String}
    (distinct : interner.strings.Nodup) (found : interner.lookup? name = some text) :
    interner.Gave name text := by
  obtain ⟨within, rfl⟩ := List.getElem?_eq_some_iff.mp found
  obtain ⟨known, shard⟩ := mem_inShard.mp (List.getElem_mem within)
  have own : (interner.inShard name.shard).Nodup := distinct.filter _
  refine ⟨known, ?_⟩
  rw [Interner.name, shard, own.idxOf_getElem]

theorem inShard_append (strings : List String) (text : String) (index : Nat) :
    inShard ⟨strings ++ [text]⟩ index =
      inShard ⟨strings⟩ index ++ if shard text = index then [text] else [] := by
  simp [inShard, List.filter_append, List.filter_cons]

/-- A new text that the second interner has room for fits where there are fewer. -/
theorem Under.fits (under : Under fewer more) {text : String} (fresh : text ∉ fewer.strings)
    (known : text ∈ more.strings) : (fewer.name text).index ≤ Flat.maxIndex := by
  have distinct : (text :: fewer.inShard (shard text)).Nodup := by
    refine List.nodup_cons.mpr ⟨fun inside => fresh (mem_inShard.mp inside).1, ?_⟩
    exact under.distinct.filter _
  have within : text :: fewer.inShard (shard text) ⊆ more.inShard (shard text) := by
    refine List.cons_subset.mpr ⟨mem_inShard.mpr ⟨known, rfl⟩, fun other inside => ?_⟩
    obtain ⟨there, same⟩ := mem_inShard.mp inside
    exact mem_inShard.mpr ⟨under.within there, same⟩
  have fewer' := (List.subperm_of_subset distinct within).length_le
  have room := under.room (shard text)
  rw [name_fresh fresh]
  rw [List.length_cons] at fewer'
  omega

theorem Under.add (under : Under fewer more) {text : String} (known : text ∈ more.strings) :
    Under (fewer.add text) more := by
  by_cases inside : text ∈ fewer.strings
  · rwa [add_known inside]
  · rw [add_fresh inside]
    refine ⟨?_, ?_, under.room⟩
    · exact List.Nodup.append under.distinct (List.nodup_singleton text) (by simpa using inside)
    · exact List.append_subset.mpr ⟨under.within, by simpa using known⟩

/-- The second interner gives out a name, as long as there is room. -/
theorem Under.grow (under : Under fewer more) {text : String}
    (room : text ∉ more.strings → (more.name text).index ≤ Flat.maxIndex) :
    Under fewer (more.add text) := by
  by_cases inside : text ∈ more.strings
  · rwa [add_known inside]
  · rw [add_fresh inside]
    refine ⟨under.distinct, fun other known => List.mem_append_left _ (under.within known), ?_⟩
    intro index
    have before := under.room index
    rw [inShard_append, List.length_append]
    split
    next same =>
      subst same
      have last := room inside
      rw [name_fresh inside] at last
      exact Nat.succ_le_succ last
    next => exact before

end Interner

namespace Flat

open Interner

variable {α β γ δ : Type}

theorem bind_eq_ok {run : Naming α} {next : α → Naming β} {interner : Interner}
    {out : β × Interner} : (run >>= next) interner = .ok out ↔
      ∃ value middle, run interner = .ok (value, middle) ∧ next value middle = .ok out := by
  simp only [bind, StateT.bind]
  cases run interner with
  | error panic => simp [Except.bind]
  | ok given =>
    obtain ⟨value, middle⟩ := given
    simp [Except.bind]

/-- Where the first of two runs finds room, the second does among fewer names. -/
def Follows (run : Naming α) (other : Naming β) : Prop :=
  ∀ (fewer more after : Interner) (value : α), Under fewer more → run more = .ok (value, after) →
    ∃ value' after', other fewer = .ok (value', after') ∧ Under after' after

namespace Follows

theorem pure (value : α) (value' : β) : Follows (Pure.pure value) (Pure.pure value') := by
  intro fewer more after given under ran
  obtain ⟨-, rfl⟩ := Prod.mk.inj (Except.ok.inj ran)
  exact ⟨value', fewer, rfl, under⟩

theorem bind {run : Naming α} {other : Naming β} {next : α → Naming γ} {next' : β → Naming δ}
    (first : Follows run other) (goesOn : ∀ value value', Follows (next value) (next' value')) :
    Follows (run >>= next) (other >>= next') := by
  intro fewer more after given under ran
  obtain ⟨value, middle, ran, rest⟩ := bind_eq_ok.mp ran
  obtain ⟨value', middle', ran', under⟩ := first _ _ _ _ under ran
  obtain ⟨last, after', rest', under⟩ := goesOn value value' _ _ _ _ under rest
  exact ⟨last, after', bind_eq_ok.mpr ⟨value', middle', ran', rest'⟩, under⟩

/-- What both reach for is there for both. -/
theorem reach (result : Checked α) {next : α → Naming γ} {next' : α → Naming δ}
    (goesOn : ∀ value, Follows (next value) (next' value)) :
    Follows ((liftM result : Naming α) >>= next) ((liftM result : Naming α) >>= next') := by
  cases result with
  | error panic =>
    intro fewer more after given under ran
    cases ran
  | ok value => exact goesOn value

theorem intern (text : String) : Follows (intern text) (intern text) := by
  intro fewer more after name under ran
  have known : text ∈ after.strings ∧ Under fewer after := by
    unfold Flat.intern at ran
    split at ran
    next known =>
      obtain ⟨-, rfl⟩ := Prod.mk.inj (Except.ok.inj ran)
      exact ⟨known, under⟩
    next fresh =>
      split at ran
      next room =>
        obtain ⟨-, rfl⟩ := Prod.mk.inj (Except.ok.inj ran)
        exact ⟨(more.add_gave text).known, under.grow fun _ => room⟩
      next => cases ran
  obtain ⟨known, under⟩ := known
  unfold Flat.intern
  split
  next => exact ⟨_, _, rfl, under⟩
  next fresh =>
    rw [if_pos (under.fits fresh known)]
    exact ⟨_, _, rfl, under.add known⟩

end Follows

theorem convert_follows (lexeme : List Char) (kind : TokenKind) :
    Follows (convert lexeme kind) (convert lexeme kind) := by
  cases kind with
  | symbol | number | keyword | eof => exact .pure _ _
  | identifier name => exact (Follows.intern _).bind fun _ _ => .pure _ _
  | string contents => exact .reach _ fun _ => (Follows.intern _).bind fun _ _ => .pure _ _

theorem addPiece_follows (content : Content) (lexeme : List Char) (line : Nat) (span : Span)
    (lexed lexed' : Lexed) :
    Follows (addPiece content lexeme line span lexed) (addPiece content lexeme line span lexed') := by
  cases content with
  | blank | fault => exact .pure _ _
  | token kind =>
    refine (convert_follows lexeme kind).bind fun _ _ => ?_
    exact (Follows.intern _).bind fun _ _ => .pure _ _

theorem scanFrom_follows (lexed lexed' : Lexed) (offset line : Nat) (text : List Char) :
    Follows (scanFrom lexed offset line text) (scanFrom lexed' offset line text) := by
  generalize size : text.length = length
  induction length using Nat.strongRecOn generalizing lexed lexed' offset line text with
  | ind length ih =>
    cases text with
    | nil =>
      rw [scanFrom, scanFrom]
      exact .pure _ _
    | cons first text =>
      rw [scanFrom, scanFrom]
      refine .reach _ fun stop => .reach _ fun lexeme => .reach _ fun line => .reach _ fun span => ?_
      refine (addPiece_follows _ _ _ _ lexed lexed').bind fun lexed lexed' => .reach _ fun rest => ?_
      split
      next shorter =>
        have fewer : rest.length < length := by
          rw [← size]
          exact Nat.lt_succ_of_le shorter
        exact ih rest.length fewer lexed lexed' _ _ rest rfl
      next =>
        intro fewer more after given under ran
        cases ran

theorem scan_follows (source : List Char) : Follows (scan source) (scan source) := by
  refine (scanFrom_follows _ _ 0 1 source).bind fun _ _ => .reach _ fun _ => .pure _ _

theorem reach_eq_ok {result : Checked α} {next : α → Naming β} {interner : Interner}
    {out : β × Interner} : ((liftM result : Naming α) >>= next) interner = .ok out ↔
      ∃ value, result = .ok value ∧ next value interner = .ok out := by
  cases result with
  | error panic => exact ⟨nofun, nofun⟩
  | ok value => exact ⟨fun ran => ⟨value, rfl, ran⟩, fun ⟨_, same, ran⟩ => Except.ok.inj same ▸ ran⟩

theorem le_of_fits {bound count value : Nat} (ok : fits bound count = .ok value) : count ≤ bound := by
  unfold fits at ok
  split at ok
  next small => exact small
  next => cases ok

/-- A scan that comes to an end has counted all lines. -/
theorem scanFrom_lines {lexed : Lexed} {interner : Interner} {out : (Lexed × Nat) × Interner}
    (passed text : List Char) (offsets : Piece.width (passed ++ text) ≤ Span.maxOffset)
    (before : 1 + Piece.newlines passed ≤ Span.maxOffset)
    (ran : scanFrom lexed (Piece.width passed) (1 + Piece.newlines passed) text interner = .ok out) :
    1 + Piece.newlines (passed ++ text) ≤ Span.maxOffset := by
  generalize size : text.length = length
  induction length using Nat.strongRecOn generalizing interner lexed passed text with
  | ind length ih =>
    cases text with
    | nil => rwa [List.append_nil]
    | cons first text =>
      obtain ⟨split, -, -⟩ := Cut.ofText_from first text
      have shorter := Cut.ofText_rest_length first text
      have ends := pieceEnd_eq first text
      rw [scanFrom] at ran
      generalize Cut.ofText first text = cut at *
      obtain ⟨content, lexeme, rest⟩ := cut
      simp only at *
      rw [ends] at ran
      obtain ⟨stop, same, ran⟩ := reach_eq_ok.mp ran
      obtain rfl := Except.ok.inj same
      rw [split, front_append] at ran
      obtain ⟨cut, same, ran⟩ := reach_eq_ok.mp ran
      obtain rfl := Except.ok.inj same
      have text' : passed ++ first :: text = passed ++ lexeme ++ rest := by
        rw [split, List.append_assoc]
      rw [text'] at offsets ⊢
      have within := offsets
      rw [Piece.width_append, Piece.width_append] at within
      -- Each line break takes a byte, so those of one piece are too few to wrap around.
      have lines := Piece.newlines_le_width lexeme
      rw [Nat.mod_eq_of_lt (by omega : Piece.newlines lexeme < Span.maxOffset + 1)] at ran
      obtain ⟨line, counted, ran⟩ := reach_eq_ok.mp ran
      have below := le_of_fits counted
      rw [fits_ok below] at counted
      obtain rfl := Except.ok.inj counted
      obtain ⟨span, -, ran⟩ := reach_eq_ok.mp ran
      obtain ⟨lexed, middle, -, ran⟩ := bind_eq_ok.mp ran
      rw [behind_append] at ran
      obtain ⟨rest, same, ran⟩ := reach_eq_ok.mp ran
      obtain rfl := Except.ok.inj same
      rw [dif_pos shorter, Nat.add_assoc, ← Piece.newlines_append, ← Piece.width_append] at ran
      have fewer : rest.length < length := by
        rw [← size]
        exact Nat.lt_succ_of_le shorter
      rw [Nat.add_assoc, ← Piece.newlines_append] at below
      exact ih rest.length fewer (passed ++ lexeme) rest offsets below ran rfl

/-- A source that is scanned to its end is not too long. -/
theorem scan_counts {source : List Char} {interner : Interner} {out : Lexed × Interner}
    (ran : scan source interner = .ok out) : Countable source := by
  obtain ⟨scanned, middle, lines, ran⟩ := bind_eq_ok.mp ran
  obtain ⟨stop, counted, -⟩ := reach_eq_ok.mp ran
  have offsets := le_of_fits counted
  exact ⟨offsets, scanFrom_lines [] source offsets (by decide) lines⟩

/-- What could be loaded is loaded as well where fewer names are in use. -/
theorem load_follows {source : String} {fewer more after : Interner} {loaded : Loaded}
    (under : Under fewer more) (ran : load source more = .ok (loaded, after)) :
    loaded.Reads after source ∧ more.GrowsTo after ∧
      ∃ loaded' after', load source fewer = .ok (loaded', after') ∧ loaded'.Reads after' source ∧
        fewer.GrowsTo after' ∧ Under after' after := by
  cases scanned : scan source.toList more with
  | error panic =>
    rw [load, scanned] at ran
    cases ran
  | ok out =>
    obtain ⟨lexed, middle⟩ := out
    have small := scan_counts scanned
    obtain ⟨lexed', after', scanned', under⟩ := scan_follows source.toList _ _ _ _ under scanned
    rcases scan_issues small more with crowded | ⟨_, scanned'', grows, items, errors⟩
    · cases scanned.symm.trans crowded
    rcases scan_issues small fewer with crowded | ⟨_, again, grows', items', errors'⟩
    · cases scanned'.symm.trans crowded
    obtain rfl := Except.ok.inj (scanned.symm.trans scanned'')
    obtain rfl := Except.ok.inj (scanned'.symm.trans again)
    obtain ⟨own, ran', reads⟩ := load_scanned small scanned items errors
    obtain ⟨loaded', ran'', reads'⟩ := load_scanned small scanned' items' errors'
    obtain ⟨rfl, rfl⟩ := Prod.mk.inj (Except.ok.inj (ran.symm.trans ran'))
    exact ⟨reads, grows, loaded', after', ran'', reads', grows', under⟩

end Flat
end Lox
