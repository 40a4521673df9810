import BareC.Host.Log
import BareC.Proofs.Output.Emission
import Mathlib.Algebra.GroupWithZero.Nat

/-!
# What is cut off a log line

The pieces of a line are clipped one by one, each to what the ones before have left of the buffer,
and no character or piece is kept together. What comes of it is the line that they make, clipped
once (`Log.foldl_append`): a piece that is cut off has filled the buffer, so that nothing of the
pieces behind it is written, and the last byte is left for the line end (`Log.writeLine_clips`).

The proof is an induction on the pieces with what has been written so far general: one piece more,
clipped to the room that is left, is the clipping of one piece more. The byte by byte description of
the buffer comes last and is read off that.

What the pieces contain is not looked at. A piece may hold a line end or a zero of its own, and a
reader of the log would then take it for the end of the line.
-/

namespace BareC.Log

/-- Puts a line together in its buffer. The pieces are written into all of it but the last byte, and
the line end behind them. -/
def fillLine? (buffer : Array UInt8) (pieces : List Bytes) : Option (Nat × Array UInt8) :=
  if buffer.isEmpty then some (0, buffer)
  else do
    let room := buffer.size - 1
    let (length, body) ← Region.appendAll? pieces 0 (buffer.extract 0 room)
    let buffer ← Region.copy? [newline] length (length + 1)
      (body ++ buffer.extract room buffer.size)
    return (length + 1, buffer)

/-- A piece behind a clipped line is clipped with it. -/
theorem append_take (room : Nat) (line piece : Bytes) :
    append room (line.take room) piece = (line ++ piece).take room := by
  rw [append, List.take_append, List.length_take]
  congr 1
  rw [List.take_eq_take_iff]
  omega

/-- Of a line it is the whole that is clipped. -/
theorem foldl_append (room : Nat) (pieces : List Bytes) (line : Bytes) :
    pieces.foldl (append room) (line.take room) = (line ++ pieces.flatten).take room := by
  induction pieces generalizing line with
  | nil => rw [List.foldl_nil, List.flatten_nil, List.append_nil]
  | cons piece pieces ih =>
    rw [List.foldl_cons, append_take, ih, List.flatten_cons, List.append_assoc]

/-- The line of some pieces where there is room for so many bytes and the line end. -/
def clipped (room : Nat) (pieces : List Bytes) : Bytes :=
  pieces.flatten.take room ++ [newline]

/-- A clipped line is as long as its pieces, up to the room, with the zero behind it. -/
theorem length_clipped (room : Nat) (pieces : List Bytes) :
    (clipped room pieces).length = min (pieces.map List.length).sum room + 1 := by
  rw [clipped, List.length_append, List.length_take, List.length_flatten, List.length_singleton,
    Nat.min_comm]

/-- The bytes of a clipped line: those of its pieces, then the zero. -/
theorem getElem?_clipped (room : Nat) (pieces : List Bytes) (i : Nat) :
    (clipped room pieces)[i]? =
      let count := min (pieces.map List.length).sum room
      if i < count then pieces.flatten[i]? else if i = count then some newline else none := by
  have taken : (pieces.flatten.take room).length = min (pieces.map List.length).sum room := by
    rw [List.length_take, List.length_flatten, Nat.min_comm]
  rw [clipped, List.getElem?_append, taken]
  dsimp only
  split
  next inside => rw [List.getElem?_take_of_lt (by omega)]
  next => grind

/-- Behind a piece that is cut off, nothing of what follows is left. -/
theorem clipped_of_cut {room : Nat} {before : List Bytes} {piece : Bytes}
    (cut : room < ((before ++ [piece]).map List.length).sum) (behind : List Bytes) :
    clipped room (before ++ piece :: behind) = clipped room (before ++ [piece]) := by
  rw [← List.length_flatten] at cut
  rw [clipped, clipped, List.append_cons before, List.flatten_append,
    List.take_append_of_le_length (Nat.le_of_lt cut)]

/-! ## Lines in a buffer -/

/-- Nothing is written to an empty buffer. -/
theorem writeLine_of_isEmpty {buffer : Array UInt8} (empty : buffer.isEmpty) (pieces : List Bytes) :
    writeLine buffer pieces = (0, buffer) :=
  if_pos empty

section NonEmpty

variable {buffer : Array UInt8} (nonempty : ¬ buffer.isEmpty) (pieces : List Bytes)
include nonempty

/-- A line is what its pieces make, clipped so that there is room for the line end. -/
theorem writeLine_eq :
    writeLine buffer pieces =
      ((clipped (buffer.size - 1) pieces).length,
        overwritten (clipped (buffer.size - 1) pieces) buffer) := by
  have line :
      pieces.foldl (append (buffer.size - 1)) [] = pieces.flatten.take (buffer.size - 1) := by
    simpa using foldl_append (buffer.size - 1) pieces []
  rw [writeLine, if_neg nonempty, line]
  rfl

/-- In the buffer itself, every piece and the line end are written into parts that it has. -/
theorem fillLine?_eq : fillLine? buffer pieces = some (writeLine buffer pieces) := by
  have size : 0 < buffer.size := Nat.pos_of_ne_zero (mt Array.isEmpty_iff_size_eq_zero.mpr nonempty)
  let front := pieces.flatten.take (buffer.size - 1)
  have front_le : front.length ≤ buffer.size - 1 := List.length_take_le ..
  have filled : Region.appendAll? pieces 0 (buffer.extract 0 (buffer.size - 1)) =
      some (front.length, overwritten front (buffer.extract 0 (buffer.size - 1))) := by
    have run := Region.appendAll?_emitInto pieces [] (buffer.extract 0 (buffer.size - 1))
    rwa [emitInto_nil, List.nil_append, emitInto_eq, Array.size_extract, Nat.min_eq_left (by omega),
      Nat.sub_zero] at run
  have ended : Region.copy? [newline] front.length (front.length + 1) (overwritten front buffer) =
      some (overwritten (front ++ [newline]) buffer) :=
    Region.copy?_overwritten (by rw [List.length_singleton]; omega)
  rw [fillLine?, if_neg nonempty]
  dsimp only
  rw [filled, Option.bind_eq_bind, Option.bind_some]
  dsimp only
  rw [overwritten_extract_append front_le (by omega), ended, writeLine_eq nonempty, clipped,
    List.length_append]
  rfl

/-- The bytes of the buffer behind a line: those of its pieces, the zero, and behind it what was
there. -/
theorem getElem?_writeLine (i : Nat) :
    (writeLine buffer pieces).2[i]? =
      let count := min (pieces.map List.length).sum (buffer.size - 1)
      if i < count then pieces.flatten[i]? else if i = count then some newline else buffer[i]? := by
  rw [writeLine_eq nonempty]
  dsimp only
  rw [getElem?_overwritten_eq, getElem?_clipped, length_clipped]
  grind

/-- If of a piece fewer bytes are written than it has, nothing is written of what comes behind it.
-/
theorem writeLine_of_cut {before : List Bytes} {piece : Bytes}
    (cut : (writeLine buffer (before ++ [piece])).1 < (writeLine buffer before).1 + piece.length)
    (behind : List Bytes) :
    writeLine buffer (before ++ piece :: behind) = writeLine buffer (before ++ [piece]) := by
  have all := writeLine_eq nonempty
  have total :
      ((before ++ [piece]).map List.length).sum = (before.map List.length).sum + piece.length := by
    rw [List.map_append, List.sum_append, List.map_singleton, List.sum_singleton]
  rw [all, all, length_clipped, length_clipped] at cut
  -- A piece for which there is room adds all its bytes to the line.
  have long : buffer.size - 1 < ((before ++ [piece]).map List.length).sum := by omega
  rw [all, all, clipped_of_cut long]

end NonEmpty

/-- Every piece of a line and the line end are written into parts that the buffer has. Nothing is
written if it is empty. Otherwise the line has all the bytes of its pieces or, if there are more,
all but one that the buffer has, and they are the first ones of the pieces together. A line end is
behind them, and then the buffer is as it was. If of some piece fewer bytes are written than it has,
the line is the same whatever comes behind this piece. -/
theorem writeLine_clips (buffer : Array UInt8) (pieces : List Bytes) :
    fillLine? buffer pieces = some (writeLine buffer pieces) ∧
      (writeLine buffer pieces).2.size = buffer.size ∧
      (buffer.size = 0 → writeLine buffer pieces = (0, buffer)) ∧
      (0 < buffer.size →
        let count := min (pieces.map List.length).sum (buffer.size - 1)
        (writeLine buffer pieces).1 = count + 1 ∧
          ∀ i, (writeLine buffer pieces).2[i]? =
            if i < count then pieces.flatten[i]? else if i = count then some newline
              else buffer[i]?) ∧
      ∀ before piece, (writeLine buffer (before ++ [piece])).1 <
        (writeLine buffer before).1 + piece.length →
        ∀ behind, writeLine buffer (before ++ piece :: behind) =
          writeLine buffer (before ++ [piece]) := by
  by_cases nonempty : buffer.isEmpty
  case pos =>
    have zero : buffer.size = 0 := Array.isEmpty_iff_size_eq_zero.mp nonempty
    have all := writeLine_of_isEmpty nonempty
    refine ⟨?_,
      by rw [all], fun _ => all _, by omega, fun before piece _ behind => by rw [all, all]⟩
    rw [fillLine?, if_pos nonempty, all]
  case neg =>
    have nonzero : buffer.size ≠ 0 := mt Array.isEmpty_iff_size_eq_zero.mpr nonempty
    refine ⟨fillLine?_eq nonempty pieces, ?size, fun zero =>
      absurd zero nonzero, fun _ => ⟨?length, ?bytes⟩, ?cut⟩
    case size =>
      rw [writeLine_eq nonempty]
      exact size_overwritten (by rw [length_clipped]; omega)
    case length =>
      rw [writeLine_eq nonempty]
      exact length_clipped ..
    case bytes => exact getElem?_writeLine nonempty pieces
    case cut => exact fun _ _ cut behind => writeLine_of_cut nonempty cut behind

-- A character of two bytes is cut in the middle.
example : writeLine #[0, 0, 0, 0] [[97], [98, 0xc3, 0xa4], [99]] = (4, #[97, 98, 0xc3, 10]) := by
  decide

end BareC.Log
