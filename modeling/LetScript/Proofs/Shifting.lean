import LetScript.Proofs.Boundaries
import LetScript.Proofs.Layout

/-!
# A source that starts further on

Separators before a source move everything that is read from it further on and change nothing else.
Offsets are recorded up to the largest one that fits, so what comes to stand beyond it is recorded
there, and several places may share the position of that offset.
-/

namespace LetScript

/-- The position `count` bytes further on, held at the largest offset when it lies beyond. -/
def Position.shift (count : Nat) (position : Position) : Position :=
  .atOffset (position.offset + count) position.file

/-- Moves everything `count` bytes further on. -/
def Relocation.shift (count : Nat) : Relocation := .ofPosition (Position.shift count)

/-- Holding an offset at the largest one comes to the same before and after moving it. -/
theorem Position.shift_atOffset (count offset : Nat) (file : String) :
    (Position.atOffset offset file).shift count = .atOffset (offset + count) file := by
  simp only [shift, atOffset, Position.mk.injEq, and_true]
  omega

/-- The source after `count` times the same character. -/
def padded (blank : Char) (count : Nat) (source : String) : String :=
  String.ofList (List.replicate count blank) ++ source

section Padded

variable {blank : Char} {byte : UInt8} {count : Nat} {source : String} {file : Option String}

theorem encode_padded (hblank : String.utf8EncodeChar blank = [byte]) :
    Utf8.encode (padded blank count source) = List.replicate count byte ++ Utf8.encode source := by
  rw [padded, Utf8.encode_append, Utf8.encode_ofList]
  congr 1
  induction count with
  | zero => rfl
  | succ count ih => rw [List.replicate_succ, List.flatMap_cons, ih, hblank]; rfl

theorem utf8ByteSize_padded (hblank : String.utf8EncodeChar blank = [byte]) :
    (padded blank count source).utf8ByteSize = count + source.utf8ByteSize := by
  rw [← Utf8.length_encode, encode_padded hblank, List.length_append, List.length_replicate,
    Utf8.length_encode]

/-- After the separators there is the source itself, further on. -/
theorem content_padded (hblank : String.utf8EncodeChar blank = [byte])
    (hseparator : isSeparator byte) :
    (Lexer.ofString (padded blank count source) file).content =
      (Lexer.ofString source file).content.map (Token.relocate (.shift count)) := by
  have hrest : (Lexer.ofString (padded blank count source) file).rest =
      List.replicate count byte ++ Utf8.encode source := encode_padded hblank
  have hskip : (Lexer.ofString (padded blank count source) file).skip count =
      (Lexer.ofString source file).moved count := by
    simp [Lexer.skip, Lexer.ofString, Lexer.moved, encode_padded hblank]
  rw [Lexer.content_of_separators (by simpa using fun _ => hseparator) hrest, List.length_replicate,
    hskip, Lexer.content_moved fun offset _ => Position.shift_atOffset count offset _]
  rfl

theorem finish_padded (hblank : String.utf8EncodeChar blank = [byte]) :
    (Lexer.ofString (padded blank count source) file).finish =
      (Lexer.ofString source file).finish.shift count := by
  rw [Lexer.finish, Lexer.finish, Position.shift_atOffset]
  simp [Lexer.toEnd, Lexer.skip, Lexer.ofString, encode_padded hblank, Nat.add_comm]

/-- The attempts to read the source are the same, further on. -/
theorem sourceAttempts_padded (hblank : String.utf8EncodeChar blank = [byte])
    (hseparator : isSeparator byte) :
    sourceAttempts (padded blank count source) file =
      (sourceAttempts source file).map (Attempt.relocate (.shift count)) := by
  have hcursor : Cursor.ofString (padded blank count source) file =
      (Cursor.ofString source file).relocate (.shift count) := by
    rw [Cursor.ofString, Cursor.ofLexer, content_padded hblank hseparator, finish_padded hblank,
      Cursor.ofString, Cursor.ofLexer, Cursor.ofTokens_relocate]
    rfl
  rw [sourceAttempts, hcursor, attempts_relocate, sourceAttempts]

theorem diagnostics_padded (hblank : String.utf8EncodeChar blank = [byte])
    (hseparator : isSeparator byte) :
    (parse (padded blank count source) file).2 =
      (parse source file).2.map (Diagnostic.relocate (.shift count)) := by
  rw [parse, sourceAttempts_padded hblank hseparator]
  exact Attempt.diagnostics_relocate _ _

end Padded

end LetScript
