/-!
Colours of the console.
-/
namespace SolidityAst.Console

structure Palette where
  reset : String
  red : String
  green : String
  yellow : String
  cyan : String
  gray : String
  bold : String
  deriving DecidableEq, Repr

def Palette.plain : Palette := ⟨"", "", "", "", "", "", ""⟩

def Palette.ansi : Palette :=
  ⟨"\x1b[0m", "\x1b[31m", "\x1b[32m", "\x1b[33m", "\x1b[36m", "\x1b[37m", "\x1b[1m"⟩

/-- The palette for a stream: a terminal is coloured unless the variable that forbids it has a value. -/
def Palette.of (terminal : Bool) (noColor : String) : Palette :=
  if noColor = "" && terminal then ansi else plain

end SolidityAst.Console
