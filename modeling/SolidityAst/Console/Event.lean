import SolidityAst.Text.Template

/-!
What a run says.

A run gives a list of events: text for standard output, text for standard error, and messages for the
log. Where a message goes depends on its level and on whether the log is verbose.
-/
namespace SolidityAst.Console

open Text

inductive Level where
  | debug
  | info
  /-- Like `info`, but never shown on the console. -/
  | fileInfo
  | warn
  | error
  deriving DecidableEq, Repr

def Level.tag : Level → String
  | debug => "[DEBUG] "
  | info => "[INFO] "
  | fileInfo => "[INFO] "
  | warn => "[WARN] "
  | error => "[ERROR] "

inductive Event where
  | out (text : String)
  | err (text : String)
  | log (level : Level) (message : String)
  deriving DecidableEq, Repr

/-- A log message with its tag; it ends with a line feed. -/
def entry (level : Level) (message : String) : String :=
  level.tag ++ if message.toList.getLast? = some '\n' then message else message ++ "\n"

namespace Event

def say (level : Level) (template : String) (values : List Template.Value) : Event :=
  log level (filled template values)

def toOut : Event → String
  | out text => text
  | log .info message => entry .info message
  | _ => ""

def toErr (verbose : Bool) : Event → String
  | err text => text
  | log .debug message => if verbose then entry .debug message else ""
  | log .warn message => entry .warn message
  | log .error message => entry .error message
  | _ => ""

def toFile : Event → String
  | log level message => entry level message
  | _ => ""

end Event

def stdout (events : List Event) : String := String.join (events.map Event.toOut)

def stderr (verbose : Bool) (events : List Event) : String :=
  String.join (events.map (Event.toErr verbose))

def logFile (events : List Event) : String := String.join (events.map Event.toFile)

end SolidityAst.Console
