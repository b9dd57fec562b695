import SolidityAst.Console.Palette
import SolidityAst.Text.Double
import SolidityAst.Text.Duration
import SolidityAst.Text.Fields

/-!
The progress bar.

A bar counts the files that are done and those that failed. It is drawn only when it is live, that is
on a terminal; then each drawing clears the line first. The share that is done and the time that is
left are computed in double precision.
-/
namespace SolidityAst.Console

open Text

structure Bar where
  description : String
  total : Int
  live : Bool
  current : Int
  failed : Int
  deriving DecidableEq, Repr

namespace Bar

def new (description : String) (total : Int) (live : Bool) : Bar := ⟨description, total, live, 0, 0⟩

def clear : String := "\x1b[2K\x0d"

def width : Nat := 40

/-- The share that is done, at most one. An empty bar is done. -/
def share (b : Bar) : Float :=
  if 0 < b.total then
    let share := Float.ofInt b.current / Float.ofInt b.total
    if share > 1 then 1 else share
  else 1

def drawing (share : Float) : String :=
  let filled := (Float.ofNat width * share).toUInt64.toNat
  repeated filled "=" ++ if filled < width then ">" ++ repeated (width - filled - 1) "." else ""

def inUnits (unit : Int) (d : Duration) : Float :=
  Float.ofInt (d.nanoseconds.tdiv unit)
    + Float.ofInt (d.nanoseconds.tmod unit) / Float.ofInt unit

def second : Int := 1000000000

/-- The time that is left at the rate so far, in whole seconds; none while nothing is known. -/
def remaining (b : Bar) (elapsed : Duration) : Duration :=
  let rate := Float.ofInt b.current / inUnits second elapsed
  if rate > 0 then
    ⟨(Double.wholePart (Float.ofInt (b.total - b.current) / rate) * second).bmod Word.size⟩
  else ⟨0⟩

/-- A number of at least two characters, filled with zeros after the sign. -/
def twoDigits (n : Int) : String :=
  if 0 ≤ n && n < 10 then "0" ++ toString n else toString n

def minutesSeconds (d : Duration) : String :=
  twoDigits (Double.wholePart (inUnits (60 * second) d)) ++ "m"
    ++ twoDigits ((Double.wholePart (inUnits second d)).tmod 60) ++ "s"

def render (p : Palette) (elapsed : Duration) (b : Bar) : String :=
  let share := b.share
  let color := if share ≥ 1 then p.green else p.cyan
  let failColor := if 0 < b.failed then p.red else p.green
  clear ++ b.description ++ " " ++ color ++ "[" ++ drawing share ++ "]" ++ p.reset
    ++ s!" {Double.nearest (share * 100)}% | {b.current}/{b.total} | ETA: "
    ++ minutesSeconds (b.remaining elapsed)
    ++ " | Failed: " ++ failColor ++ toString b.failed ++ p.reset

def increment (b : Bar) (failed : Bool) : Bar :=
  { b with current := b.current + 1, failed := if failed then b.failed + 1 else b.failed }

def redraw (p : Palette) (elapsed : Duration) (b : Bar) : String :=
  if b.live then b.render p elapsed else ""

def message (p : Palette) (elapsed : Duration) (b : Bar) (text : String) : String :=
  (if b.live then clear else "") ++ line text ++ b.redraw p elapsed

def finish (p : Palette) (elapsed : Duration) (b : Bar) : String :=
  if b.live then clear ++ line (b.render p elapsed) else ""

end Bar

end SolidityAst.Console
