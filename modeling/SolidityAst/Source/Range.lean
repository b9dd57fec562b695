import SolidityAst.Text.Fields
import SolidityAst.Text.Numeral

/-!
Source ranges as the compiler writes them: `start:length:file`.
-/
namespace SolidityAst.Source

open Text

structure Range where
  start : Nat
  length : Nat
  deriving DecidableEq, Repr

namespace Range

/-- Reads the first two fields of `start:length:…`. Both are numerals that are not negative and fit
in 64 bits; whatever follows them does not matter. -/
def parse? (s : String) : Option Range :=
  match fields ':' s with
  | first :: second :: _ =>
    match Numeral.decimal first, Numeral.decimal second with
    | .value start, .value length =>
      if 0 ≤ start && 0 ≤ length then some ⟨start.toNat, length.toNat⟩ else none
    | _, _ => none
  | _ => none

/-- The two numbers that a text gives and whether it is one of a range; any other text gives zeros. -/
def numbers (s : String) : Nat × Nat × Bool :=
  match parse? s with
  | some r => (r.start, r.length, true)
  | none => (0, 0, false)

/-- The offset at which a range ends, in 64-bit arithmetic. -/
def stop (r : Range) : Int := Int.bmod (r.start + r.length) Word.size

end Range

end SolidityAst.Source
