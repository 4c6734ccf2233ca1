/-!
Half-open ranges of byte offsets into a source text. A span that runs backwards
can be written down but covers nothing.
-/

namespace Lox

structure Span where
  start : Nat
  stop : Nat
  deriving DecidableEq, Repr, Inhabited

namespace Span

/-- The empty span at one offset. -/
def point (offset : Nat) : Span := ⟨offset, offset⟩

/-- The span of things that stand nowhere. -/
def nowhere : Span := ⟨0, 0⟩

/-- How many bytes the span covers, unless it runs backwards. -/
def length? (span : Span) : Option Nat :=
  if span.start ≤ span.stop then some (span.stop - span.start) else none

def isEmpty (span : Span) : Bool := span.start == span.stop

/-- The least span that covers both. -/
def merge (first second : Span) : Span :=
  ⟨min first.start second.start, max first.stop second.stop⟩

def text (span : Span) : String := s!"{span.start}..{span.stop}"

/-- The greatest offset a span may hold: offsets are thirty-two bits wide. -/
def maxOffset : Nat := 4294967295

/-- Why a pair of offsets is no span. -/
inductive RangeError where
  | startTooLarge (offset : Nat)
  | endTooLarge (offset : Nat)
  deriving DecidableEq, Repr

def RangeError.message : RangeError → String
  | .startTooLarge offset => s!"span start {offset} exceeds u32::MAX"
  | .endTooLarge offset => s!"span end {offset} exceeds u32::MAX"

/-- Both ends have to fit; the start is looked at first. -/
def ofRange (start stop : Nat) : Except RangeError Span :=
  if maxOffset < start then .error (.startTooLarge start)
  else if maxOffset < stop then .error (.endTooLarge stop)
  else .ok ⟨start, stop⟩

end Span
end Lox
