import SolidityAst.Text.Fields
import SolidityAst.Text.Numeral

/-!
Compiler versions as they are written: texts of dot-separated components.

Versions are compared by their first three components, read as decimal integers. A version may be
written with a leading `v` or a comparator; `normalize` removes them.
-/
namespace SolidityAst.Solc.Version

open Text

/-- The value of one component: a malformed one counts as zero, one past 64 bits as the bound. -/
def component (s : String) : Int := (Numeral.decimal s).nearestOr 0

/-- The first three components; a missing one counts as zero. -/
def triple (v : String) : Int × Int × Int :=
  let parts := (fields '.' v).map component
  (parts.getD 0 0, parts.getD 1 0, parts.getD 2 0)

/-- The order of versions: lexicographic on the three components. -/
def cmp (v w : String) : Ordering :=
  let (a, b, c) := triple v
  let (x, y, z) := triple w
  (compare a x).then ((compare b y).then (compare c z))

/-- Whether `v` is a later version than `w`. -/
def later (v w : String) : Bool := cmp v w == .gt

/-- The comparators that may stand before a version, in the order in which they are dropped. -/
def comparators : List String := ["^", ">=", "<=", ">", "<", "~", "="]

/-- The version without surrounding blanks, a leading `v` and leading comparators, each once. -/
def normalize (v : String) : String :=
  let bare := dropStart ['v'] (trimChars v.toList)
  String.ofList (trimChars (comparators.foldl (fun cs p => dropStart p.toList cs) bare))

/-- The first version that can be told to stop after parsing. -/
def stopAfterSince : String := "0.8.0"

/-- Whether a compiler of this version can be told to stop after parsing. An unknown version is
taken to be recent. -/
def supportsStopAfter (v : String) : Bool :=
  let v := normalize v
  v == "" || cmp v stopAfterSince != .lt

end SolidityAst.Solc.Version
