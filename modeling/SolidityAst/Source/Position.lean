import SolidityAst.Text.Utf8

/-!
Lines and columns of byte offsets.

A line index holds where the lines of a source start. The position of an offset is the line it lies
on, found by binary search, and the number of characters before it on that line.
-/
namespace SolidityAst.Source

open Text

/-- A place in a source: a line, from one, and a column in characters, from zero. -/
structure Position where
  line : Nat
  column : Nat
  deriving DecidableEq, Repr, Inhabited

structure Location where
  start : Position
  finish : Position
  deriving DecidableEq, Repr, Inhabited

structure LineIndex where
  source : Bytes
  starts : Array Nat

/-- The offsets just after the line feeds of `bs`, which starts at `offset`. -/
def startsAfter (offset : Nat) : Bytes → List Nat
  | [] => []
  | b :: bs =>
    if b = 0x0A then (offset + 1) :: startsAfter (offset + 1) bs else startsAfter (offset + 1) bs

def LineIndex.ofSource (source : Bytes) : LineIndex :=
  ⟨source, (0 :: startsAfter 0 source).toArray⟩

/-- The least place in `lo … hi` from which on `p` holds, for a `p` that stays true once it is; `hi`
when there is none below it. -/
def searchFirst (p : Nat → Bool) (lo hi : Nat) : Nat :=
  if lo < hi then
    let mid := (lo + hi) / 2
    if p mid then searchFirst p lo mid else searchFirst p (mid + 1) hi
  else lo
termination_by hi - lo

namespace LineIndex

/-- The number, from zero, of the line on which an offset lies. -/
def lineOf (index : LineIndex) (offset : Nat) : Nat :=
  searchFirst (fun i => offset < index.starts.getD i 0) 0 index.starts.size - 1

/-- The position of an offset; one outside the source is moved to its nearest end. -/
def position (index : LineIndex) (offset : Int) : Position :=
  let offset := min offset.toNat index.source.length
  let line := index.lineOf offset
  let start := index.starts.getD line 0
  ⟨line + 1, (Utf8.decode ((index.source.drop start).take (offset - start))).length⟩

def location (index : LineIndex) (start finish : Int) : Location :=
  ⟨index.position start, index.position finish⟩

end LineIndex

end SolidityAst.Source
