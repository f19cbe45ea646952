import LittleMan.Text

/-!
# Log messages

Messages with a level. A log leaves out what is below its least level.
-/

namespace LittleMan.Log

inductive Level
  | debug
  | info
  | warn
  | error
deriving DecidableEq

namespace Level

def rank : Level → Nat
  | debug => 0
  | info => 1
  | warn => 2
  | error => 3

def atLeast (level least : Level) : Bool := least.rank ≤ level.rank

def name : Level → String
  | debug => "DEBUG"
  | info => "INFO"
  | warn => "WARN"
  | error => "ERROR"

def tag (level : Level) : String := "[" ++ Text.padRight 5 level.name ++ "] "

/-- The terminal codes that start a message of a level in colour: dim cyan, plain, bold yellow and
bold red. -/
def colour : Level → String
  | debug => "\x1b[0m\x1b[2m\x1b[36m"
  | info => "\x1b[0m"
  | warn => "\x1b[0m\x1b[1m\x1b[33m"
  | error => "\x1b[0m\x1b[1m\x1b[31m"

end Level

structure Style where
  /-- The least level that is not left out. -/
  least : Level := .info
  coloured : Bool := false

/-- A message as it is written, which is nothing if its level is left out. -/
def entry (style : Style) (level : Level) (message : String) : String :=
  if level.atLeast style.least then
    if style.coloured then level.colour ++ level.tag ++ message ++ "\n\x1b[0m"
    else level.tag ++ message ++ "\n"
  else ""

end LittleMan.Log
