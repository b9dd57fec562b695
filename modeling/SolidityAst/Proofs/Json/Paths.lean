import SolidityAst.Assoc
import SolidityAst.Json.Value

/-!
Paths into JSON values, and induction over the values inside a value.
-/
namespace SolidityAst.Json

/-- What passes from the values directly inside a container to the container holds of every value. -/
@[elab_as_elim]
theorem induction {P : Json → Prop} (null : P .null) (bool : ∀ b, P (.bool b))
    (number : ∀ literal, P (.number literal)) (string : ∀ s, P (.string s))
    (array : ∀ items, (∀ v ∈ items, P v) → P (.array items))
    (object : ∀ members, (∀ m ∈ members, P m.2) → P (.object members)) (v : Json) : P v :=
  @Json.rec P (fun items => ∀ v ∈ items, P v) (fun members => ∀ m ∈ members, P m.2) (fun m => P m.2)
    null bool number string array object
    (fun _ h => nomatch h) (fun _ _ hv hvs => List.forall_mem_cons.mpr ⟨hv, hvs⟩)
    (fun _ h => nomatch h) (fun _ _ hm hms => List.forall_mem_cons.mpr ⟨hm, hms⟩)
    (fun _ _ hv => hv) v

/-- A step from a container to a value directly inside it. -/
inductive Step where
  | item (place : Nat)
  | member (key : String)
  deriving DecidableEq, Repr

/-- The value to which a step leads. -/
def child? : Json → Step → Option Json
  | .array items, .item place => items[place]?
  | .object members, .member key => Assoc.find? key members
  | _, _ => none

/-- The value at the end of a path. -/
def get? : Json → List Step → Option Json
  | v, [] => some v
  | v, step :: path => (v.child? step).bind fun w => w.get? path

theorem get?_append (v : Json) (path more : List Step) :
    v.get? (path ++ more) = (v.get? path).bind fun w => w.get? more := by
  induction path generalizing v with
  | nil => rfl
  | cons step path ih =>
    rw [List.cons_append, get?, get?, Option.bind_assoc]
    simp only [ih]

end SolidityAst.Json
