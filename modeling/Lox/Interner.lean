import Lox.Token.Kind
import Lox.Value

/-!
Names for strings. A string keeps the name it got when it was first interned.
Names are dealt out in sixteen shards, and a string's first bytes say in which;
within its shard a string is numbered in order of arrival.
-/

namespace Lox

structure Name where
  shard : Nat
  index : Nat
  deriving DecidableEq, Repr

namespace Name

def shards : Nat := 16

/-- The name as one number, twenty-eight bits of which are the index. -/
def raw (name : Name) : Nat := name.shard * Nat.pow 2 28 + name.index

end Name

/-- The strings in order of arrival, each of them once. -/
structure Interner where
  strings : List String

namespace Interner

/-- Only the first eight bytes count. -/
def shard (text : String) : Nat :=
  (text.toUTF8.toList.take 8).foldl (fun hash byte => hash * 31 + byte.toNat) 0 % Name.shards

/-- The strings of one shard. -/
def inShard (interner : Interner) (index : Nat) : List String :=
  interner.strings.filter fun text => shard text == index

def name (interner : Interner) (text : String) : Name :=
  ⟨shard text, (interner.inShard (shard text)).idxOf text⟩

def add (interner : Interner) (text : String) : Interner :=
  if interner.strings.contains text then interner else ⟨interner.strings ++ [text]⟩

def intern (interner : Interner) (text : String) : Name × Interner :=
  (interner.name text, interner.add text)

/-- The empty string comes first; then the reserved words and the native
functions. -/
def fresh : Interner :=
  ("" :: Keyword.all.map Keyword.spelling ++ Native.all.map Native.name).foldl add ⟨[]⟩

/-- The string behind a name that was given out. -/
def lookup? (interner : Interner) (name : Name) : Option String :=
  (interner.inShard name.shard)[name.index]?

def size (interner : Interner) : Nat := interner.strings.length

/-- Whether there is nothing but the empty string. -/
def isEmpty (interner : Interner) : Bool := interner.size ≤ 1

end Interner
end Lox
