import TerminalRelay.Notice
import TerminalRelay.Text.Lossy
import TerminalRelay.Text.Quoted

/-!
The log of a run: its lines, and which of them are shown.
-/

namespace TerminalRelay

structure LogLine where
  level : Level
  -- the part of the relay that speaks
  origin : String
  text : String
deriving DecidableEq, Repr

namespace LogLine

def render (line : LogLine) : String :=
  line.level.name ++ " " ++ line.origin ++ ": " ++ line.text ++ "\n"

-- A message and what is known about it, by name
def detailed (message : String) (details : List (String × String)) : String :=
  " ".intercalate (message :: details.map fun (name, value) => name ++ "=" ++ value)

end LogLine

namespace Notice

def origin : Notice → String
  | unknownDirective _ | malformedWindowSize _ | resizeRequested _ => "ptyrelay::keyboard"
  | _ => "ptyrelay::output"

def details : Notice → List (String × String)
  | sequenceTooLong length => [("len", toString length)]
  | unhandledSequence raw => [("sequence", Quoted.quote (Lossy.decode raw))]
  | forwardOnFullLine => []
  | deletePastEnd count remaining =>
    [("count", toString count), ("remaining", toString remaining)]
  | unknownDirective byte => [("byte", toString byte.toNat)]
  | malformedWindowSize field => [("field", Lossy.decode field)]
  | resizeRequested size => [("rows", toString size.rows), ("cols", toString size.cols)]

def logLine (notice : Notice) : LogLine where
  level := notice.level
  origin := notice.origin
  text := LogLine.detailed notice.message notice.details

end Notice

-- The graver a level, the smaller its rank
def Level.rank : Level → Nat
  | error => 1
  | warn => 2
  | info => 3
  | debug => 4

-- Lines of an origin that begins like this are shown up to a rank
structure LogRule where
  origin : String
  limit : Nat
deriving DecidableEq, Repr

abbrev LogFilter := List LogRule

namespace LogFilter

def levels : List (String × Nat) :=
  [("off", 0), ("0", 0), ("error", 1), ("1", 1), ("warn", 2), ("2", 2), ("info", 3), ("3", 3),
    ("debug", 4), ("4", 4), ("trace", 5), ("5", 5)]

def limit? (level : String) : Option Nat :=
  levels.lookup level.toLower

-- A level for all origins, an origin whose lines are all shown, or an origin with its level
def rule? (text : String) : Option LogRule :=
  match text.splitOn "=" with
  | [single] =>
    match limit? single with
    | some limit => some { origin := "", limit }
    | none => some { origin := single, limit := 5 }
  | [origin, level] => (limit? level).map fun limit => { origin, limit }
  | _ => none

-- Rules with commas between them; without any, errors are shown
def parse (text : String) : LogFilter :=
  match ((text.splitOn ",").filter (· ≠ "")).filterMap rule? with
  | [] => [{ origin := "", limit := 1 }]
  | rules => rules

-- Of two rules that apply, the one with the longer origin, or else the later
def stricter (chosen : Option LogRule) (rule : LogRule) : Option LogRule :=
  match chosen with
  | some known => if known.origin.length ≤ rule.origin.length then some rule else chosen
  | none => some rule

def shows (filter : LogFilter) (line : LogLine) : Bool :=
  match (filter.filter fun rule => line.origin.startsWith rule.origin).foldl stricter none with
  | some rule => line.level.rank ≤ rule.limit
  | none => false

end LogFilter

end TerminalRelay
