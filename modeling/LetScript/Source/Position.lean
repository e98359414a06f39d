/-!
# Positions in a source

A position names a byte of a source by its offset and the source by its file name. Offsets are
bytes of the UTF-8 form, counted from zero, and stay below 2³²: a larger offset is recorded as
the largest one that fits. A span is a half-open range of bytes, given by its two ends.
-/

namespace LetScript

/-- The byte at `offset` in the source called `file`. -/
structure Position where
  offset : Nat
  file : String
deriving DecidableEq, Repr

namespace Position

/-- The largest offset that is recorded. -/
def maxOffset : Nat := 4294967295

/-- The position of byte `offset`, held at the largest offset when it lies beyond. -/
def atOffset (offset : Nat) (file : String) : Position :=
  ⟨min offset maxOffset, file⟩

/-- The position of what stands in no source. -/
def null : Position := ⟨0, "<null>"⟩

@[simp] theorem file_atOffset (offset : Nat) (file : String) :
    (Position.atOffset offset file).file = file :=
  rfl

/-- Offsets of sources below the limit are recorded as they are. -/
theorem offset_atOffset {offset : Nat} (h : offset ≤ maxOffset) (file : String) :
    (Position.atOffset offset file).offset = offset :=
  Nat.min_eq_left h

end Position

/-- The bytes from `start` up to, and not including, `stop`. -/
structure Span where
  start : Position
  stop : Position
deriving DecidableEq, Repr

namespace Span

/-- The span of what stands in no source. -/
def null : Span := ⟨.null, .null⟩

/-- The `length` bytes from `offset` on. -/
def ofLength (offset length : Nat) (file : String) : Span :=
  ⟨.atOffset offset file, .atOffset (offset + length) file⟩

end Span

end LetScript
