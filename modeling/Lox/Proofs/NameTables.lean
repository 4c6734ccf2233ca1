import Mathlib.Algebra.BigOperators.Fin
import Mathlib.Algebra.Order.BigOperators.Group.Finset
import Mathlib.Data.Finset.Card
import Mathlib.Data.Nat.Bitwise
import Lox.Proofs.NameRoom

/-! An interner as the tables that it keeps. Each of sixteen shards numbers strings of its own, and
keeps them in the order of their numbers so that names can be read back. A name is packed into
thirty-two bits. As long as there is room, the tables give out the names that the interner does. -/

namespace Lox

/-- A name in thirty-two bits: the upper four are the shard, the others the index in it. -/
structure Handle where
  raw : UInt32
  deriving DecidableEq, Repr

namespace Handle

/-- The name of the empty string. -/
def empty : Handle := ⟨0⟩

def maxIndex : UInt32 := 0x0FFFFFFF

def make (shard index : UInt32) : Handle := ⟨shard <<< 28 ||| index⟩

theorem toNat_upper (raw : UInt32) : (raw >>> 28).toNat = raw.toNat / 2 ^ 28 := by
  rw [UInt32.toNat_shiftRight]
  simp [Nat.shiftRight_eq_div_pow]

theorem toNat_lower (raw : UInt32) : (raw &&& maxIndex).toNat = raw.toNat % 2 ^ 28 := by
  rw [UInt32.toNat_and]
  exact Nat.and_two_pow_sub_one_eq_mod _ 28

def shard (handle : Handle) : Fin Name.shards :=
  ⟨(handle.raw >>> 28).toNat, by
    have small := handle.raw.toNat_lt
    rw [toNat_upper, Name.shards]
    omega⟩

def index (handle : Handle) : Nat := (handle.raw &&& maxIndex).toNat

def name (handle : Handle) : Name := ⟨handle.shard, handle.index⟩

@[simp] theorem name_index (handle : Handle) : handle.name.index = handle.index := rfl

/-- A name that fits is packed without loss. -/
def ofName (name : Name) : Handle := ⟨name.raw.toUInt32⟩

theorem raw_name (handle : Handle) : handle.name.raw = handle.raw.toNat := by
  simp only [Name.raw, name, shard, index, toNat_upper, toNat_lower, Nat.pow_eq]
  omega

@[simp] theorem ofName_name (handle : Handle) : ofName handle.name = handle := by
  simp [ofName, raw_name]

variable {name : Name} (shard : name.shard < Name.shards) (index : name.index ≤ Flat.maxIndex)

include shard index in
theorem toNat_ofName : (ofName name).raw.toNat = name.raw := by
  have small : name.raw < 2 ^ 32 := by
    simp only [Name.shards, Flat.maxIndex, Nat.pow_eq] at shard index
    simp only [Name.raw, Nat.pow_eq]
    omega
  exact UInt32.toNat_ofNat_of_lt' small

include shard index in
theorem name_ofName : (ofName name).name = name := by
  have packed := toNat_ofName shard index
  obtain ⟨upper, lower⟩ := name
  simp only [Name.shards, Flat.maxIndex, Name.raw, Nat.pow_eq] at shard index packed
  simp only [Handle.name, Handle.shard, Handle.index, toNat_upper, toNat_lower, packed]
  congr 1 <;> omega

theorem make_eq {upper lower : Nat} (shard : upper < Name.shards) (index : lower ≤ Flat.maxIndex) :
    make upper.toUInt32 lower.toUInt32 = ofName ⟨upper, lower⟩ := by
  have packed : (ofName ⟨upper, lower⟩).raw.toNat = Name.raw ⟨upper, lower⟩ :=
    toNat_ofName shard index
  simp only [Name.shards, Flat.maxIndex, Name.raw, Nat.pow_eq] at shard index packed
  have upper' : upper.toUInt32.toNat = upper :=
    UInt32.toNat_ofNat_of_lt' (by simp only [UInt32.size]; omega)
  have lower' : lower.toUInt32.toNat = lower :=
    UInt32.toNat_ofNat_of_lt' (by simp only [UInt32.size]; omega)
  have shifted : (upper.toUInt32 <<< 28).toNat = upper <<< 28 := by
    rw [UInt32.toNat_shiftLeft, upper']
    simp only [UInt32.toNat_ofNat, Nat.shiftLeft_eq, Nat.reduceMod, Nat.reducePow]
    omega
  have below : lower < 2 ^ 28 := by omega
  refine congrArg Handle.mk (UInt32.toNat_inj.mp ?_)
  rw [UInt32.toNat_or, shifted, lower', ← Nat.shiftLeft_add_eq_or_of_lt below, Nat.shiftLeft_eq]
  exact packed.symm

example : make 12 1 = ⟨0xC0000001⟩ ∧ (make 12 1).name = ⟨12, 1⟩ := by decide

end Handle

/-- The strings of a shard, and the index of each. -/
structure NameTable where
  indices : List (String × UInt32)
  strings : Array String

/-- A table numbers texts in the order in which they stand. -/
structure NameTable.Numbers (table : NameTable) (texts : List String) : Prop where
  strings : table.strings.toList = texts
  indices : ∀ text, table.indices.lookup text =
    if text ∈ texts then some (texts.idxOf text).toUInt32 else none

theorem NameTable.Numbers.push {table : NameTable} {texts : List String} {text : String}
    (numbers : table.Numbers texts) (fresh : text ∉ texts) :
    Numbers ⟨(text, texts.length.toUInt32) :: table.indices, table.strings.push text⟩
      (texts ++ [text]) := by
  refine ⟨by rw [Array.toList_push, numbers.strings], fun other => ?_⟩
  rw [List.lookup_cons]
  by_cases same : other = text
  · subst same
    simp [List.idxOf_append_of_notMem fresh]
  · have differs : (other == text) = false := beq_false_of_ne same
    rw [differs]
    refine (numbers.indices other).trans ?_
    by_cases inside : other ∈ texts
    · simp [inside, List.idxOf_append_of_mem inside]
    · simp [inside, same]

/-- A shard that has no room for another string, with how many it has. -/
structure Overflow where
  shard : Nat
  count : Nat
  deriving DecidableEq, Repr

/-- The tables of all shards, and the number of strings in them. -/
structure NameTables where
  shards : Vector NameTable Name.shards
  count : UInt64

namespace NameTables

/-- The first eight bytes as one number, as far as it fits. -/
def hash (text : String) : UInt32 :=
  (text.toUTF8.toList.take 8).foldl (fun hash byte => hash * 31 + byte.toUInt32) 0

def home (text : String) : Fin Name.shards :=
  ⟨(hash text).toNat % Name.shards, Nat.mod_lt _ (by decide)⟩

/-- The index that comes after so many, if it fits a name. -/
def index? (count : Nat) : Option UInt32 :=
  if count ≤ Handle.maxIndex.toNat then some count.toUInt32 else none

/-- The name of a string, which may be new. -/
def tryIntern (text : String) (tables : NameTables) : Except Overflow Handle × NameTables :=
  let shard := home text
  let table := tables.shards[shard]
  match table.indices.lookup text with
  | some index => (.ok (.make shard.val.toUInt32 index), tables)
  | none =>
    match index? table.strings.size with
    | some index =>
      let longer := ⟨(text, index) :: table.indices, table.strings.push text⟩
      (.ok (.make shard.val.toUInt32 index), ⟨tables.shards.set shard longer, tables.count + 1⟩)
    | none => (.error ⟨shard, table.strings.size⟩, tables)

/-- The string behind a name. To reach for one that is not there is an error. -/
def lookup (handle : Handle) (tables : NameTables) : Flat.Checked String :=
  Flat.demand .name tables.shards[handle.shard].strings[handle.index]?

/-- Nothing but the empty string. -/
def bare : NameTables :=
  ⟨(Vector.replicate Name.shards ⟨[], #[]⟩).set 0 ⟨[("", 0)], #[""]⟩, 1⟩

/-- The strings that are interned from the start, next to the empty one. -/
def words : List String :=
  let keywords : List Keyword :=
    [.andWord, .classWord, .elseWord, .falseWord, .forWord, .funWord, .ifWord, .nilWord, .orWord,
      .printWord, .returnWord, .superWord, .thisWord, .trueWord, .varWord, .whileWord, .breakWord,
      .continueWord]
  keywords.map Keyword.spelling ++ [Native.clock.name]

/-- A hash that drops what does not fit stays the same as far as the shard goes. -/
theorem home_val (text : String) : (home text).val = Interner.shard text := by
  have fold : ∀ (bytes : List UInt8) (hash : UInt32) (sum : Nat),
      hash.toNat % Name.shards = sum % Name.shards →
      (bytes.foldl (fun hash byte => hash * 31 + byte.toUInt32) hash).toNat % Name.shards =
        bytes.foldl (fun hash byte => hash * 31 + byte.toNat) sum % Name.shards := by
    intro bytes
    induction bytes with
    | nil => exact fun _ _ same => same
    | cons byte bytes ih =>
      intro hash sum same
      refine ih _ _ ?_
      simp only [Name.shards, UInt32.toNat_add, UInt32.toNat_mul, UInt32.toNat_ofNat,
        UInt8.toNat_toUInt32] at same ⊢
      omega
  exact fold _ 0 0 rfl

/-- A new string goes to the end of its shard. -/
theorem inShard_add {interner : Interner} {text : String} (fresh : text ∉ interner.strings)
    (shard : Fin Name.shards) : (interner.add text).inShard shard =
      interner.inShard shard ++ if home text = shard then [text] else [] := by
  rw [Interner.add_fresh fresh, Interner.inShard_append]
  simp only [Fin.ext_iff, home_val]

theorem length_eq_sum (strings : List String) :
    strings.length = ∑ shard : Fin Name.shards, (Interner.inShard ⟨strings⟩ shard).length := by
  induction strings using List.reverseRecOn with
  | nil => simp [Interner.inShard]
  | append_singleton strings text ih =>
    have own : ∀ shard : Fin Name.shards, Interner.shard text = shard ↔ home text = shard :=
      fun shard => by rw [Fin.ext_iff, home_val]
    simp only [Interner.inShard_append, List.length_append, Finset.sum_add_distrib, ← ih, own,
      apply_ite List.length, List.length_singleton, List.length_nil, Finset.sum_ite_eq,
      Finset.mem_univ, if_true]

theorem name_ofName {interner : Interner} {text : String}
    (room : (interner.name text).index ≤ Flat.maxIndex) :
    (Handle.ofName (interner.name text)).name = interner.name text := by
  have shard := (home text).isLt
  rw [home_val] at shard
  exact Handle.name_ofName shard room

/-- The tables hold the strings of an interner. -/
structure Hold (tables : NameTables) (interner : Interner) : Prop where
  distinct : interner.strings.Nodup
  room : ∀ shard : Fin Name.shards, (interner.inShard shard).length ≤ Flat.maxIndex + 1
  numbers : ∀ shard : Fin Name.shards, tables.shards[shard].Numbers (interner.inShard shard)
  count : tables.count.toNat = interner.strings.length

variable {tables : NameTables} {interner : Interner}

namespace Hold

theorem lookup (hold : tables.Hold interner) (handle : Handle) :
    tables.lookup handle = Flat.lookup interner handle.name := by
  unfold NameTables.lookup Flat.lookup Interner.lookup?
  rw [← Array.getElem?_toList, (hold.numbers _).strings]
  rfl

theorem length_le (hold : tables.Hold interner) : interner.strings.length ≤ 2 ^ 32 := by
  rw [length_eq_sum]
  refine (Finset.sum_le_card_nsmul _ _ _ fun shard _ => hold.room shard).trans ?_
  rw [Finset.card_univ, Fintype.card_fin]
  decide

theorem size_table (hold : tables.Hold interner) (text : String) :
    tables.shards[home text].strings.size = (interner.inShard (Interner.shard text)).length := by
  rw [← Array.length_toList, (hold.numbers _).strings, home_val]

theorem lookup_table (hold : tables.Hold interner) (text : String) :
    tables.shards[home text].indices.lookup text =
      if text ∈ interner.strings then some (interner.name text).index.toUInt32 else none := by
  rw [(hold.numbers _).indices, home_val]
  simp only [Interner.mem_inShard, and_true]
  rfl

theorem index_le (hold : tables.Hold interner) {text : String} (known : text ∈ interner.strings) :
    (interner.name text).index ≤ Flat.maxIndex := by
  have below : (interner.name text).index < (interner.inShard (Interner.shard text)).length :=
    List.idxOf_lt_length_iff.mpr (Interner.mem_inShard.mpr ⟨known, rfl⟩)
  have room := hold.room (home text)
  rw [home_val] at room
  omega

theorem push (hold : tables.Hold interner) {text : String} (fresh : text ∉ interner.strings)
    (room : (interner.name text).index ≤ Flat.maxIndex) :
    Hold ⟨tables.shards.set (home text)
        ⟨(text, (interner.name text).index.toUInt32) :: tables.shards[home text].indices,
          tables.shards[home text].strings.push text⟩, tables.count + 1⟩
      (interner.add text) := by
  have small := hold.length_le
  have last := Interner.name_fresh fresh
  refine ⟨?_, fun shard => ?_, fun shard => ?_, ?_⟩
  · rw [Interner.add_fresh fresh]
    exact hold.distinct.append (List.nodup_singleton text) (by simpa using fresh)
  · have before := hold.room shard
    rw [inShard_add fresh, List.length_append]
    split
    next same =>
      subst same
      rw [home_val, ← last]
      exact Nat.succ_le_succ room
    next => exact before
  · rw [inShard_add fresh]
    split
    next same =>
      subst same
      have outside : text ∉ interner.inShard (home text) :=
        fun inside => fresh (Interner.mem_inShard.mp inside).1
      simpa [last, home_val] using (hold.numbers (home text)).push outside
    next differs =>
      simpa [Vector.getElem_set, Fin.val_ne_of_ne differs] using hold.numbers shard
  · rw [Interner.add_fresh fresh, List.length_append, List.length_singleton, ← hold.count]
    rw [← hold.count] at small
    rw [UInt64.toNat_add]
    exact Nat.mod_eq_of_lt (by simp only [UInt64.toNat_one]; omega)

/-- What comes of interning a string. -/
inductive Answers (tables : NameTables) (interner : Interner) (text : String) :
    Except Overflow Handle × NameTables → Prop where
  | known (known : text ∈ interner.strings) :
    Answers tables interner text (.ok (.ofName (interner.name text)), tables)
  | fresh {after : NameTables} (fresh : text ∉ interner.strings)
    (room : (interner.name text).index ≤ Flat.maxIndex) (hold : after.Hold (interner.add text)) :
    Answers tables interner text (.ok (.ofName (interner.name text)), after)
  | full (fresh : text ∉ interner.strings) (full : Flat.maxIndex < (interner.name text).index) :
    Answers tables interner text (.error ⟨home text, (interner.name text).index⟩, tables)

theorem answers (hold : tables.Hold interner) (text : String) :
    Answers tables interner text (tables.tryIntern text) := by
  have shard : (home text).val < Name.shards := (home text).isLt
  have named : (⟨home text, (interner.name text).index⟩ : Name) = interner.name text :=
    congrArg (Name.mk · _) (home_val text)
  unfold tryIntern
  simp only [hold.lookup_table]
  by_cases known : text ∈ interner.strings
  · simp only [known, if_true]
    rw [Handle.make_eq shard (hold.index_le known), named]
    exact .known known
  · simp only [known, if_false, hold.size_table, ← Interner.name_fresh known, index?]
    by_cases room : (interner.name text).index ≤ Flat.maxIndex
    · have within : (interner.name text).index ≤ Handle.maxIndex.toNat := room
      simp only [within, if_true]
      rw [Handle.make_eq shard room, named]
      exact .fresh known room (hold.push known room)
    · have beyond : ¬(interner.name text).index ≤ Handle.maxIndex.toNat := room
      simp only [beyond, if_false]
      exact .full known (Nat.lt_of_not_le room)

end Hold
end NameTables

/-- What may be asked of an interner. -/
inductive NameRequest where
  | intern (text : String)
  | lookup (handle : Handle)

/-- Tables, and beside them the names that they gave out so far, as they were asked for. -/
structure Register where
  tables : NameTables
  given : List (String × Handle)

namespace Register

def note (register : Register) (text : String) : Except Overflow Handle × NameTables → Register
  | (.ok handle, tables) => ⟨tables, register.given ++ [(text, handle)]⟩
  | (.error _, tables) => ⟨tables, register.given⟩

def perform (register : Register) : NameRequest → Register
  | .intern text => register.note text (register.tables.tryIntern text)
  | .lookup _ => register

def bare : Register := ⟨.bare, [("", .empty)]⟩

def start : Register := (NameTables.words.map .intern).foldl perform bare

/-- What becomes of a fresh interner. -/
def ofRequests (requests : List NameRequest) : Register := requests.foldl perform start

/-- All strings that were named. -/
def texts (register : Register) : List String := register.given.map Prod.fst

/-- What becomes of an interner that names the same strings. -/
def replay (register : Register) (interner : Interner) : Interner :=
  register.texts.foldl Interner.add interner

/-- What was given out are the names of an interner. In each shard they first came in its order. -/
def Lists (given : List (String × Handle)) (interner : Interner) : Prop :=
  ∀ shard : Fin Name.shards, given.eraseDups.filter (·.2.shard = shard) =
    (interner.inShard shard).map fun text => (text, .ofName (interner.name text))

variable {register : Register} {tables : NameTables} {interner : Interner} {text : String}
  {given : List (String × Handle)}

theorem Lists.mem (lists : Lists given interner) (hold : tables.Hold interner) {handle : Handle} :
    (text, handle) ∈ given ↔ interner.Gave handle.name text := by
  have listed : (text, handle) ∈ given.eraseDups.filter (·.2.shard = handle.shard) ↔
      (text, handle) ∈ given := by simp
  rw [← listed, lists]
  simp only [List.mem_map, Prod.mk.injEq, Interner.mem_inShard]
  constructor
  · rintro ⟨text, ⟨known, -⟩, rfl, rfl⟩
    exact ⟨known, NameTables.name_ofName (hold.index_le known)⟩
  · rintro ⟨known, named⟩
    refine ⟨text, ⟨known, ?_⟩, rfl, ?_⟩
    · exact (congrArg Name.shard named).symm
    · rw [← named, Handle.ofName_name]

/-- A name that is given out once more changes nothing, and a new one comes last. -/
theorem Lists.add (lists : Lists given interner) (hold : tables.Hold interner)
    (room : (interner.name text).index ≤ Flat.maxIndex) :
    Lists (given ++ [(text, .ofName (interner.name text))]) (interner.add text) := by
  intro shard
  have member : (text, Handle.ofName (interner.name text)) ∈ given ↔ _ := lists.mem hold
  rw [NameTables.name_ofName room] at member
  rw [List.eraseDups_append]
  by_cases known : text ∈ interner.strings
  · have inside := member.mpr ⟨known, rfl⟩
    rw [Interner.add_known known, ← lists]
    simp [List.removeAll, inside]
  · have outside : (text, Handle.ofName (interner.name text)) ∉ given :=
      fun inside => known (member.mp inside).known
    -- The handles that were given out are those of the longer interner too.
    have names : ∀ other ∈ interner.inShard shard,
        (other, Handle.ofName (interner.name other)) =
          (other, Handle.ofName ((interner.add text).name other)) := by
      intro other inside
      have gave : interner.Gave (interner.name other) other :=
        ⟨(Interner.mem_inShard.mp inside).1, rfl⟩
      rw [(gave.mono (interner.add_grows text)).named]
    have last := (interner.add_gave text).named
    have place : (Handle.ofName (interner.name text)).shard = NameTables.home text := by
      have named := congrArg Name.shard (NameTables.name_ofName room)
      exact Fin.ext (named.trans (NameTables.home_val text).symm)
    have alone : ([(text, Handle.ofName (interner.name text))].removeAll given).eraseDups =
        [(text, .ofName (interner.name text))] := by
      simp [List.removeAll, outside, List.eraseDups_cons]
    rw [alone, List.filter_append, lists, List.map_congr_left names,
      NameTables.inShard_add known, List.map_append]
    refine congrArg (_ ++ ·) ?_
    by_cases same : NameTables.home text = shard
    · simp [← last, place, same]
    · simp [place, same]

/-- A register keeps all names that the interner gives out when it starts from these strings. -/
structure Follows (register : Register) (interner : Interner) : Prop where
  hold : register.tables.Hold (register.replay interner)
  lists : Lists register.given (register.replay interner)

namespace Follows

theorem note (follows : register.Follows interner) (text : String) :
    (register.note text (register.tables.tryIntern text)).Follows interner := by
  have replay : ∀ (tables : NameTables) (handle : Handle),
      (register.note text (.ok handle, tables)).replay interner =
        (register.replay interner).add text := by
    intro tables handle
    simp [Register.note, Register.replay, texts]
  have answers := follows.hold.answers text
  generalize register.tables.tryIntern text = outcome at answers ⊢
  cases answers with
  | known known =>
    have lists := follows.lists.add follows.hold (follows.hold.index_le known)
    refine ⟨?_, replay _ _ ▸ lists⟩
    rw [replay, Interner.add_known known]
    exact follows.hold
  | fresh fresh room hold =>
    have lists := follows.lists.add follows.hold room
    exact ⟨replay _ _ ▸ hold, replay _ _ ▸ lists⟩
  | full => exact follows

theorem perform (follows : register.Follows interner) (request : NameRequest) :
    (register.perform request).Follows interner := by
  cases request with
  | lookup handle => exact follows
  | intern text => exact follows.note text

theorem performAll (follows : register.Follows interner) (requests : List NameRequest) :
    (requests.foldl Register.perform register).Follows interner := by
  induction requests generalizing register with
  | nil => exact follows
  | cons request requests ih => exact ih (follows.perform request)

/-- What strings a shard has in common with others does not matter. -/
theorem congr {other : Interner} (follows : register.Follows interner)
    (shards : ∀ shard : Fin Name.shards,
      (register.replay interner).inShard shard = (register.replay other).inShard shard)
    (distinct : (register.replay other).strings.Nodup)
    (length : (register.replay interner).strings.length = (register.replay other).strings.length) :
    register.Follows other := by
  have names : (register.replay interner).name = (register.replay other).name := by
    funext text
    have same := shards (NameTables.home text)
    rw [NameTables.home_val] at same
    simp only [Interner.name, same]
  obtain ⟨⟨-, room, numbers, count⟩, lists⟩ := follows
  refine ⟨⟨distinct, ?_, ?_, count.trans length⟩, ?_⟩
  · exact fun shard => shards shard ▸ room shard
  · exact fun shard => shards shard ▸ numbers shard
  · exact fun shard => names ▸ shards shard ▸ lists shard

end Follows

theorem bare_follows : bare.Follows ⟨[]⟩ := by
  have none : NameTable.Numbers ⟨[], #[]⟩ [] := ⟨rfl, fun _ => rfl⟩
  have replay : bare.replay ⟨[]⟩ = ⟨[""]⟩ := rfl
  have home : Interner.shard "" = 0 := by simp [Interner.shard]
  have shards : ∀ shard : Fin Name.shards,
      Interner.inShard ⟨[""]⟩ shard = if 0 = shard.val then [""] else [] := by
    intro shard
    by_cases same : 0 = shard.val <;> simp [Interner.inShard, home, same]
  have named : Handle.ofName (Interner.name ⟨[""]⟩ "") = .empty := by
    simp [Interner.name, home, Interner.inShard, Handle.ofName, Name.raw, Handle.empty]
  have first : Handle.empty.shard.val = 0 := rfl
  refine ⟨⟨List.nodup_singleton _, fun shard => ?_, fun shard => ?_, rfl⟩, fun shard => ?_⟩
  · exact (List.length_filter_le _ _).trans (by decide)
  · rw [replay, shards]
    split
    next same => simpa [bare, NameTables.bare, ← same] using none.push List.not_mem_nil
    next differs => simpa [bare, NameTables.bare, Vector.getElem_set, differs] using none
  · rw [replay, shards]
    by_cases same : 0 = shard.val
    · simp [bare, List.eraseDups_cons, first, Fin.ext_iff, same, named]
    · simp [bare, List.eraseDups_cons, first, Fin.ext_iff, same]

/-- Names that were given out stay written down. -/
theorem given_kept (requests : List NameRequest) :
    register.given <+: (requests.foldl perform register).given := by
  induction requests generalizing register with
  | nil => exact List.prefix_refl _
  | cons request requests ih =>
    refine List.IsPrefix.trans ?_ ih
    cases request with
    | lookup handle => exact List.prefix_refl _
    | intern text =>
      show _ <+: (register.note text (register.tables.tryIntern text)).given
      rcases register.tables.tryIntern text with ⟨_ | handle, tables⟩
      · exact List.prefix_refl _
      · exact List.prefix_append _ _

theorem ofRequests_append (before after : List NameRequest) :
    ofRequests (before ++ after) = after.foldl perform (ofRequests before) :=
  List.foldl_append

/-- The strings that go to one shard. -/
def housed (texts : List String) (shard : Fin Name.shards) : Finset String :=
  texts.toFinset.filter (NameTables.home · = shard)

/-- The shards have room for all these strings. -/
def Fits (texts : List String) : Prop :=
  ∀ shard, (housed texts shard).card ≤ Handle.maxIndex.toNat + 1

@[simp] theorem mem_housed {texts : List String} {shard : Fin Name.shards} :
    text ∈ housed texts shard ↔ text ∈ texts ∧ NameTables.home text = shard := by
  simp [housed]

/-- The strings that are to be interned. -/
def asked : List NameRequest → List String
  | [] => []
  | .intern text :: requests => text :: asked requests
  | .lookup _ :: requests => asked requests

theorem Fits.mono {texts more : List String} (fits : Fits more) (within : texts ⊆ more) :
    Fits texts := by
  intro shard
  refine (Finset.card_le_card fun text inside => ?_).trans (fits shard)
  obtain ⟨inside, home⟩ := mem_housed.mp inside
  exact mem_housed.mpr ⟨within inside, home⟩

theorem texts_note (register : Register) (text : String) (handle : Handle) (tables : NameTables) :
    (register.note text (.ok handle, tables)).texts = register.texts ++ [text] := by
  simp [note, texts]

namespace Follows

variable (follows : register.Follows interner)

include follows

theorem mem_texts : text ∈ register.texts ↔ text ∈ (register.replay interner).strings := by
  have mem := @follows.lists.mem _ _ text _ follows.hold
  simp only [texts, List.mem_map, Prod.exists, exists_and_right, exists_eq_right]
  constructor
  · rintro ⟨handle, given⟩
    exact (mem.mp given).known
  · intro known
    refine ⟨.ofName ((register.replay interner).name text), mem.mpr ⟨known, ?_⟩⟩
    exact NameTables.name_ofName (follows.hold.index_le known)

theorem card_housed (shard : Fin Name.shards) :
    (housed register.texts shard).card = ((register.replay interner).inShard shard).length := by
  have distinct : ((register.replay interner).inShard shard).Nodup :=
    follows.hold.distinct.filter _
  rw [← List.toFinset_card_of_nodup distinct]
  congr 1
  ext text
  simp [follows.mem_texts, Interner.mem_inShard, Fin.ext_iff, NameTables.home_val]

theorem size : register.tables.count.toNat = register.texts.toFinset.card := by
  rw [follows.hold.count, ← List.toFinset_card_of_nodup follows.hold.distinct]
  congr 1
  ext text
  simp [follows.mem_texts]

theorem fits : Fits register.texts := by
  intro shard
  rw [follows.card_housed]
  exact follows.hold.room shard

/-- A string is interned if the shards have room for it. -/
theorem interns (text : String) : (∃ handle, (register.tables.tryIntern text).1 = .ok handle) ↔
    Fits (register.texts ++ [text]) := by
  have noted := follows.note text
  have answers := follows.hold.answers text
  generalize register.tables.tryIntern text = outcome at answers noted ⊢
  cases answers with
  | known => exact ⟨fun _ => texts_note _ _ _ _ ▸ noted.fits, fun _ => ⟨_, rfl⟩⟩
  | fresh => exact ⟨fun _ => texts_note _ _ _ _ ▸ noted.fits, fun _ => ⟨_, rfl⟩⟩
  | full fresh full =>
    refine ⟨nofun, fun fits => absurd (fits (NameTables.home text)) (Nat.not_le_of_lt ?_)⟩
    have outside : text ∉ housed register.texts (NameTables.home text) := by
      simp [follows.mem_texts, fresh]
    have split : housed (register.texts ++ [text]) (NameTables.home text) =
        insert text (housed register.texts (NameTables.home text)) := by
      ext other
      simp only [mem_housed, List.mem_append, List.mem_singleton, Finset.mem_insert]
      grind
    rw [split, Finset.card_insert_of_notMem outside, follows.card_housed, NameTables.home_val,
      ← Interner.name_fresh fresh]
    exact Nat.succ_lt_succ full

theorem unread {handle : Handle} (absent : handle ∉ register.given.map Prod.snd) :
    register.tables.lookup handle = .error .name := by
  rw [follows.hold.lookup]
  cases found : (register.replay interner).lookup? handle.name with
  | none => rw [Flat.lookup, found]; rfl
  | some text =>
    have gave := Interner.Gave.of_lookup follows.hold.distinct found
    have given := (follows.lists.mem follows.hold).mpr gave
    exact absurd (List.mem_map_of_mem given) absent

end Follows

/-- Within the room that there is, every string that is to be interned is named. -/
theorem Follows.texts_asked (follows : register.Follows interner) (requests : List NameRequest)
    (fits : Fits (register.texts ++ asked requests)) :
    (requests.foldl Register.perform register).texts = register.texts ++ asked requests := by
  induction requests generalizing register with
  | nil => exact (List.append_nil _).symm
  | cons request requests ih =>
    cases request with
    | lookup handle => exact ih follows fits
    | intern text =>
      rw [asked, List.append_cons] at fits ⊢
      obtain ⟨handle, answered⟩ :=
        (follows.interns text).mpr (fits.mono (List.subset_append_left _ _))
      have noted := follows.note text
      rw [List.foldl_cons, Register.perform]
      generalize register.tables.tryIntern text = outcome at answered noted ⊢
      obtain ⟨_, tables⟩ := outcome
      obtain rfl := answered
      rw [← texts_note register text handle tables] at fits ⊢
      exact ih noted fits

theorem asked_intern (texts : List String) : asked (texts.map .intern) = texts := by
  induction texts with
  | nil => rfl
  | cons text texts ih => rw [List.map_cons, asked, ih]

theorem texts_start : start.texts = "" :: NameTables.words := by
  have texts := Follows.texts_asked bare_follows (NameTables.words.map .intern)
  rw [asked_intern] at texts
  -- One shard would have room for all words together.
  exact texts fun shard => (Finset.card_filter_le _ _).trans
    ((List.toFinset_card_le _).trans (by decide))

/-- It does not matter in what order the words of the different shards come. -/
theorem words_alike :
    let own := ("" :: NameTables.words).foldl Interner.add ⟨[]⟩
    let known := ("" :: NameTables.words).foldl Interner.add Interner.fresh
    (∀ shard : Fin Name.shards, own.inShard shard = known.inShard shard) ∧ known.strings.Nodup ∧
      own.strings.length = known.strings.length := by
  decide +kernel

theorem start_follows : start.Follows Interner.fresh := by
  have own : start.Follows ⟨[]⟩ := Follows.performAll bare_follows (NameTables.words.map .intern)
  have replay (interner : Interner) :
      start.replay interner = ("" :: NameTables.words).foldl Interner.add interner := by
    rw [Register.replay, texts_start]
  obtain ⟨shards, distinct, length⟩ := words_alike
  rw [← replay, ← replay] at length
  simp only [← replay] at shards distinct
  exact own.congr shards distinct length

theorem ofRequests_follows (requests : List NameRequest) :
    (ofRequests requests).Follows Interner.fresh :=
  Follows.performAll start_follows requests

/-- The indices of a shard were given out in their order, and none was left out. -/
theorem Follows.ordered (follows : register.Follows interner) (shard : Fin Name.shards) :
    let first := register.given.eraseDups.filter (·.2.shard = shard)
    first.map (·.2.index) = List.range first.length := by
  have distinct : ((register.replay interner).inShard shard).Nodup :=
    follows.hold.distinct.filter _
  show List.map _ (List.filter _ _) = _
  rw [follows.lists, List.map_map, List.length_map]
  have places : ∀ text ∈ (register.replay interner).inShard shard,
      (Handle.ofName ((register.replay interner).name text)).index =
        ((register.replay interner).inShard shard).idxOf text := by
    intro text inside
    obtain ⟨known, own⟩ := Interner.mem_inShard.mp inside
    rw [← Handle.name_index, NameTables.name_ofName (follows.hold.index_le known), Interner.name,
      own]
  refine (List.map_congr_left places).trans (List.ext_getElem (by simp) fun place within _ => ?_)
  rw [List.getElem_map, List.getElem_range, distinct.idxOf_getElem]

/-- What can be said of the names that were given out, at the time or later. They are those of an
interner that was asked for the same. -/
structure Serves (earlier later : Register) (interner : Interner) : Prop where
  distinct : ∀ text handle other handle', (text, handle) ∈ earlier.given →
    (other, handle') ∈ later.given → (handle = handle' ↔ text = other)
  again : ∀ text handle, (text, handle) ∈ earlier.given →
    (later.tables.tryIntern text).1 = .ok handle
  read : ∀ text handle, (text, handle) ∈ earlier.given → later.tables.lookup handle = .ok text
  unread : ∀ handle ∉ earlier.given.map Prod.snd, earlier.tables.lookup handle = .error .name
  ordered : ∀ shard,
    let first := earlier.given.eraseDups.filter (·.2.shard = shard)
    first.map (·.2.index) = List.range first.length
  counted : earlier.tables.count.toNat = earlier.texts.toFinset.card
  interns : ∀ text, (∃ handle, (earlier.tables.tryIntern text).1 = .ok handle) ↔
    Fits (earlier.texts ++ [text])
  names : ∀ text handle, (text, handle) ∈ earlier.given →
    handle.name = (earlier.replay interner).name text
  reads : ∀ handle, earlier.tables.lookup handle =
    Flat.lookup (earlier.replay interner) handle.name
  size : earlier.tables.count.toNat = (earlier.replay interner).size

theorem Follows.serves {later : Register} (follows : register.Follows interner)
    (further : later.Follows interner) (kept : register.given <+: later.given) :
    register.Serves later interner := by
  have gave : ∀ {text handle}, (text, handle) ∈ register.given →
      (register.replay interner).Gave handle.name text := (follows.lists.mem follows.hold).mp
  have gave' : ∀ {text handle}, (text, handle) ∈ later.given →
      (later.replay interner).Gave handle.name text := (further.lists.mem further.hold).mp
  refine ⟨?_, ?_, ?_, fun _ => follows.unread, follows.ordered, follows.size, follows.interns, ?_,
    follows.hold.lookup, follows.hold.count⟩
  · intro text handle other handle' given given'
    have first := gave' (kept.subset given)
    have second := gave' given'
    constructor
    · rintro rfl
      exact first.text_eq second
    · rintro rfl
      rw [← handle.ofName_name, first.named, ← second.named, handle'.ofName_name]
  · intro text handle given
    have answers := further.hold.answers text
    obtain ⟨known, named⟩ := gave' (kept.subset given)
    generalize later.tables.tryIntern text = outcome at answers ⊢
    cases answers with
    | known => rw [← named, handle.ofName_name]
    | fresh fresh => exact absurd known fresh
    | full fresh => exact absurd known fresh
  · intro text handle given
    rw [further.hold.lookup]
    exact Flat.lookup_gave (gave' (kept.subset given))
  · exact fun text handle given => (gave given).named

/-- The names that are given out never change, whatever else is asked for. -/
theorem names_are_stable (before after : List NameRequest) :
    (ofRequests before).Serves (ofRequests (before ++ after)) Interner.fresh ∧
      ("", .empty) ∈ (ofRequests before).given ∧
      (Fits ("" :: NameTables.words ++ asked before) →
        (ofRequests before).texts = "" :: NameTables.words ++ asked before) := by
  refine ⟨Follows.serves (ofRequests_follows before) (ofRequests_follows _) ?_, ?_, ?_⟩
  · rw [ofRequests_append]
    exact given_kept after
  · exact (given_kept before).subset ((given_kept _).subset (List.mem_singleton_self _))
  · rw [← texts_start]
    exact Follows.texts_asked start_follows before

end Register
end Lox
