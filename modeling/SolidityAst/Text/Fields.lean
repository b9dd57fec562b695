/-!
Texts as fields between separators.

`splitOn` always gives one field more than there are separators, `joinWith` is its inverse.
-/
namespace SolidityAst.Text

/-- The fields between the separators `sep`. A text without the separator is one field. -/
def splitOn (sep : Char) : List Char → List (List Char)
  | [] => [[]]
  | c :: cs =>
    if c = sep then [] :: splitOn sep cs
    else
      match splitOn sep cs with
      | [] => [[c]]
      | f :: fs => (c :: f) :: fs

def joinWith (sep : Char) : List (List Char) → List Char
  | [] => []
  | [f] => f
  | f :: g :: fs => f ++ sep :: joinWith sep (g :: fs)

def fields (sep : Char) (s : String) : List String :=
  (splitOn sep s.toList).map String.ofList

/-- What follows `p`, if the text starts with it. -/
def afterStart? : (p cs : List Char) → Option (List Char)
  | [], cs => some cs
  | _ :: _, [] => none
  | p :: ps, c :: cs => if p = c then afterStart? ps cs else none

/-- The text without `p` at its start, if it is there. -/
def dropStart (p cs : List Char) : List Char := (afterStart? p cs).getD cs

/-- What precedes `p`, if the text ends with it. -/
def beforeEnd? (p cs : List Char) : Option (List Char) :=
  (afterStart? p.reverse cs.reverse).map List.reverse

/-- Whether the string ends with `p`. -/
def endsWith (s p : String) : Bool := (beforeEnd? p.toList s.toList).isSome

/-- Whether the string starts with `p`. -/
def startsWith (s p : String) : Bool := (afterStart? p.toList s.toList).isSome

def firstLine (s : String) : String := String.ofList (s.toList.takeWhile (· != '\n'))

def line (s : String) : String := s ++ "\n"

/-- The text repeated `n` times. -/
def repeated (n : Nat) (s : String) : String := String.join (List.replicate n s)

/-- The text followed by spaces up to `width` characters. -/
def padRight (width : Nat) (s : String) : String := s ++ repeated (width - s.length) " "

end SolidityAst.Text
