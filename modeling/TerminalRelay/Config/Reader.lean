import TerminalRelay.Config
import TerminalRelay.Json.Printer
import TerminalRelay.Json.Skip

/-!
Settings as a JSON document: an object whose known fields are settings, or a list of the settings in
order. Missing ones take their defaults, unknown fields are passed over. The first problem met from
the left is the one that is told.
-/

namespace TerminalRelay

open Json

-- The settings a document names
structure Settings where
  lineCapacity : Option Nat := none
  escapeCapacity : Option Nat := none
  debugCapacity : Option Nat := none
  forwardToViewers : Option Bool := none
deriving DecidableEq, Repr

inductive Setting where
  | lineCapacity
  | escapeCapacity
  | debugCapacity
  | forwardToViewers
deriving DecidableEq, Repr

def Setting.all : List Setting :=
  [lineCapacity, escapeCapacity, debugCapacity, forwardToViewers]

def Setting.key : Setting → String
  | lineCapacity => "line_capacity"
  | escapeCapacity => "escape_capacity"
  | debugCapacity => "debug_capacity"
  | forwardToViewers => "forward_to_viewers"

def Setting.ofKey? (key : List Char) : Option Setting :=
  all.find? fun setting => setting.key.toList = key

-- What is wrong with a value of another type. A scalar has to be read to its end first, and may
-- turn out to be no JSON at all
def wrongType (text : List Char) : Problem :=
  let after {α : Type} : Except Problem α → Problem
    | .ok _ => .mismatch
    | .error problem => problem
  match text with
  | [] => .unfinished
  | c :: rest =>
    if c = 'n' then after (readName ['u', 'l', 'l'] rest)
    else if c = 't' then after (readName ['r', 'u', 'e'] rest)
    else if c = 'f' then after (readName ['a', 'l', 's', 'e'] rest)
    else if c = '"' then after (readString rest)
    else if c = '-' ∨ c.isDigit then after (readNumber (c :: rest))
    else if c = '[' ∨ c = '\x7b' then .mismatch
    else .malformed

def readCapacity (text : List Char) : Except Problem (Nat × List Char) :=
  match dropBlanks text with
  | c :: rest =>
    if c = '-' ∨ c.isDigit then
      match readNumber (c :: rest) with
      | .ok (some value, rest) => .ok (value, rest)
      | .ok (none, _) => .error .mismatch
      | .error problem => .error problem
    else .error (wrongType (c :: rest))
  | [] => .error .unfinished

def readTruth (text : List Char) : Except Problem (Bool × List Char) :=
  match dropBlanks text with
  | c :: rest =>
    if c = 't' then (readName ['r', 'u', 'e'] rest).map fun rest => (true, rest)
    else if c = 'f' then (readName ['a', 'l', 's', 'e'] rest).map fun rest => (false, rest)
    else .error (wrongType (c :: rest))
  | [] => .error .unfinished

namespace Settings

def toConfig (settings : Settings) : Config :=
  let usual : Config := {}
  { lineCapacity := settings.lineCapacity.getD usual.lineCapacity
    escapeCapacity := settings.escapeCapacity.getD usual.escapeCapacity
    debugCapacity := settings.debugCapacity.getD usual.debugCapacity
    forwardToViewers := settings.forwardToViewers.getD usual.forwardToViewers }

def names (settings : Settings) : Setting → Bool
  | .lineCapacity => settings.lineCapacity.isSome
  | .escapeCapacity => settings.escapeCapacity.isSome
  | .debugCapacity => settings.debugCapacity.isSome
  | .forwardToViewers => settings.forwardToViewers.isSome

-- Takes over the value that stands here
def readValue (settings : Settings) (setting : Setting) (text : List Char) :
    Except Problem (Settings × List Char) :=
  match setting with
  | .lineCapacity =>
    (readCapacity text).map fun (value, rest) => ({ settings with lineCapacity := value }, rest)
  | .escapeCapacity =>
    (readCapacity text).map fun (value, rest) => ({ settings with escapeCapacity := value }, rest)
  | .debugCapacity =>
    (readCapacity text).map fun (value, rest) => ({ settings with debugCapacity := value }, rest)
  | .forwardToViewers =>
    (readTruth text).map fun (value, rest) => ({ settings with forwardToViewers := value }, rest)

def afterColon (text : List Char) : Except Problem (List Char) :=
  match dropBlanks text with
  | ':' :: rest => .ok rest
  | [] => .error .unfinished
  | _ => .error .malformed

-- A key that has been read, and its value. That a setting is named twice is told before its second
-- value is looked at
def readField (settings : Settings) (key : List Char) (text : List Char) :
    Except Problem (Settings × List Char) :=
  match Setting.ofKey? key with
  | some setting =>
    if settings.names setting then .error .mismatch
    else (afterColon text).bind (settings.readValue setting)
  | none => ((afterColon text).bind skipValue).map fun rest => (settings, rest)

-- The fields of an object from its first key on; `fuel` bounds their number
def readFieldsWithin : (fuel : Nat) → Settings → List Char →
    Except Problem (Settings × List Char)
  | 0, _, _ => .error .unfinished
  | fuel + 1, settings, text => do
    match dropBlanks text with
    | '"' :: rest =>
      let (key, rest) ← readString rest
      let (settings, rest) ← settings.readField key rest
      match dropBlanks rest with
      | ',' :: rest => readFieldsWithin fuel settings rest
      | '\x7d' :: rest => .ok (settings, rest)
      | [] => .error .unfinished
      | _ => .error .malformed
    | [] => .error .unfinished
    | _ => .error .malformed

-- The rest of an object whose opening brace has been read
def readObject (text : List Char) : Except Problem (Settings × List Char) :=
  match dropBlanks text with
  | '\x7d' :: rest => .ok ({}, rest)
  | rest => readFieldsWithin (rest.length + 1) {} rest

-- Values for these settings in order, as many as there are; `first` tells that none has been read
def readItems (settings : Settings) (first : Bool) :
    List Setting → List Char → Except Problem (Settings × List Char)
  | remaining, text =>
    match remaining, dropBlanks text with
    | _, ']' :: rest => .ok (settings, rest)
    | _, [] => .error .unfinished
    | [], _ => .error .malformed
    | setting :: remaining, rest => do
      let value ←
        if first then .ok rest
        else match rest with
          | ',' :: rest =>
            match dropBlanks rest with
            | ']' :: _ => .error .malformed
            | [] => .error .unfinished
            | rest => .ok rest
          | _ => .error .malformed
      let (settings, rest) ← settings.readValue setting value
      readItems settings false remaining rest

end Settings

namespace Config

def readDocument (text : List Char) : Except Problem (Settings × List Char) :=
  match dropBlanks text with
  | '\x7b' :: rest => Settings.readObject rest
  | '[' :: rest => Settings.readItems {} true Setting.all rest
  | rest => .error (wrongType rest)

-- Nothing but blanks may follow the document
def parseChars (text : List Char) : Except Problem Config := do
  let (settings, rest) ← readDocument text
  match dropBlanks rest with
  | [] => return settings.toConfig
  | _ => .error .malformed

def parse (text : String) : Except Problem Config :=
  parseChars text.toList

def toJson (config : Config) : Json :=
  .object
    [("line_capacity", .number config.lineCapacity),
      ("escape_capacity", .number config.escapeCapacity),
      ("debug_capacity", .number config.debugCapacity),
      ("forward_to_viewers", .bool config.forwardToViewers)]

def print (config : Config) : String :=
  config.toJson.compact

end Config

end TerminalRelay
