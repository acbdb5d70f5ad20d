import TerminalRelay.Byte

/-!
The command language of the child's shell: simple commands with quoting, variables and
redirections, joined by `;`, `&`, `&&` and `||`.
-/

namespace TerminalRelay.Host.Shell

-- A word is text and variables one after the other, each between quotes or not
inductive Part where
  | text (bytes : Bytes) (quoted : Bool)
  | variable (name : Bytes) (quoted : Bool)
deriving DecidableEq, Repr

abbrev Word := List Part

inductive Token where
  | word (word : Word)
  -- a descriptor to redirect, with whether it is read from
  | redirect (descriptor : Nat) (reads : Bool)
  -- what joins a command to the one after it
  | joint (symbol : Bytes)
deriving DecidableEq, Repr

inductive Mode where
  | plain
  | single
  | double
  | escaped (quoted : Bool)
  | dollar (quoted : Bool)
  | name (quoted : Bool) (read : Bytes)
  | braces (quoted : Bool) (read : Bytes)
  -- one symbol of an operator that may be doubled
  | doubling (symbol : UInt8)
  | comment
deriving DecidableEq, Repr

structure Lexer where
  mode : Mode := .plain
  tokens : List Token := []
  -- the word begun, its last part first
  word : Option Word := none

namespace Lexer

def isNameByte (byte : UInt8) : Bool :=
  Byte.isDigit byte || (0x41 ≤ byte && byte ≤ 0x5a) || (0x61 ≤ byte && byte ≤ 0x7a) ||
    byte == '_'.toUInt8

-- Variables whose name is one mark
def isSpecial (byte : UInt8) : Bool :=
  byte == '$'.toUInt8 || byte == '?'.toUInt8 || byte == '#'.toUInt8 || Byte.isDigit byte

def add (lexer : Lexer) (part : Part) : Lexer :=
  let word := lexer.word.getD []
  { lexer with word := some <| match part, word with
      | .text new quoted, .text old before :: rest =>
        if quoted = before then .text (old ++ new) quoted :: rest else part :: word
      | _, _ => part :: word }

def endWord (lexer : Lexer) : Lexer :=
  match lexer.word with
  | none => lexer
  | some word => { lexer with word := none, tokens := lexer.tokens ++ [.word word.reverse] }

def emit (lexer : Lexer) (token : Token) : Lexer :=
  { lexer.endWord with tokens := lexer.endWord.tokens ++ [token] }

-- A single digit right before a redirection is its descriptor
def redirect (lexer : Lexer) (reads : Bool) : Lexer :=
  match lexer.word with
  | some [.text [digit] false] =>
    if Byte.isDigit digit then
      { lexer with word := none }.emit (.redirect (Byte.digitValue digit) reads)
    else lexer.emit (.redirect (if reads then 0 else 1) reads)
  | _ => lexer.emit (.redirect (if reads then 0 else 1) reads)

def plain (lexer : Lexer) (byte : UInt8) : Lexer :=
  let lexer := { lexer with mode := .plain }
  if byte = Byte.space ∨ byte = Byte.tab then lexer.endWord
  else if byte = Byte.newline ∨ byte = ';'.toUInt8 then lexer.emit (.joint [';'.toUInt8])
  else if byte = '&'.toUInt8 ∨ byte = '|'.toUInt8 then
    { lexer.endWord with mode := .doubling byte }
  else if byte = '<'.toUInt8 then lexer.redirect true
  else if byte = '>'.toUInt8 then lexer.redirect false
  else if byte = '\''.toUInt8 then { lexer.add (.text [] true) with mode := .single }
  else if byte = '"'.toUInt8 then { lexer.add (.text [] true) with mode := .double }
  else if byte = Byte.backslash then { lexer with mode := .escaped false }
  else if byte = '$'.toUInt8 then { lexer with mode := .dollar false }
  else if byte = '#'.toUInt8 ∧ lexer.word.isNone then { lexer with mode := .comment }
  else lexer.add (.text [byte] false)

def double (lexer : Lexer) (byte : UInt8) : Lexer :=
  let lexer := { lexer with mode := .double }
  if byte = '"'.toUInt8 then { lexer with mode := .plain }
  else if byte = Byte.backslash then { lexer with mode := .escaped true }
  else if byte = '$'.toUInt8 then { lexer with mode := .dollar true }
  else lexer.add (.text [byte] true)

-- Reads a byte outside or inside double quotes
def outer (lexer : Lexer) (quoted : Bool) (byte : UInt8) : Lexer :=
  if quoted then lexer.double byte else lexer.plain byte

def outerMode (quoted : Bool) : Mode :=
  if quoted then .double else .plain

-- Inside double quotes a backslash guards only what has a meaning there
def escaped (lexer : Lexer) (quoted : Bool) (byte : UInt8) : Lexer :=
  let lexer := { lexer with mode := outerMode quoted }
  if byte = Byte.newline then lexer
  else if ¬ quoted then lexer.add (.text [byte] true)
  else if byte = '"'.toUInt8 ∨ byte = Byte.backslash ∨ byte = '$'.toUInt8 ∨ byte = 0x60 then
    lexer.add (.text [byte] true)
  else lexer.add (.text [Byte.backslash, byte] true)

def step (lexer : Lexer) (byte : UInt8) : Lexer :=
  match lexer.mode with
  | .plain => lexer.plain byte
  | .single =>
    if byte = '\''.toUInt8 then { lexer with mode := .plain } else lexer.add (.text [byte] true)
  | .double => lexer.double byte
  | .escaped quoted => lexer.escaped quoted byte
  | .dollar quoted =>
    if byte = '\x7b'.toUInt8 then { lexer with mode := .braces quoted [] }
    else if isSpecial byte then
      { lexer.add (.variable [byte] quoted) with mode := outerMode quoted }
    else if isNameByte byte then { lexer with mode := .name quoted [byte] }
    else (lexer.add (.text ['$'.toUInt8] quoted)).outer quoted byte
  | .name quoted read =>
    if isNameByte byte then { lexer with mode := .name quoted (read ++ [byte]) }
    else (lexer.add (.variable read quoted)).outer quoted byte
  | .braces quoted read =>
    if byte = '\x7d'.toUInt8 then
      { lexer.add (.variable read quoted) with mode := outerMode quoted }
    else { lexer with mode := .braces quoted (read ++ [byte]) }
  | .doubling symbol =>
    if byte = symbol then { lexer.emit (.joint [symbol, symbol]) with mode := .plain }
    else (lexer.emit (.joint [symbol])).plain byte
  | .comment => if byte = Byte.newline then lexer.plain byte else lexer

-- The end of the script ends whatever was begun
def finish (lexer : Lexer) : List Token :=
  let lexer := match lexer.mode with
    | .dollar quoted => lexer.add (.text ['$'.toUInt8] quoted)
    | .name quoted read => lexer.add (.variable read quoted)
    | .doubling symbol => lexer.emit (.joint [symbol])
    | .escaped _ => lexer.add (.text [Byte.backslash] true)
    | _ => lexer
  lexer.endWord.tokens

def scan (script : Bytes) : List Token :=
  (script.foldl step {}).finish

end Lexer

structure Redirection where
  descriptor : Nat
  reads : Bool
  target : Word
deriving DecidableEq, Repr

-- When a command runs, by how the one before it ended
inductive Condition where
  | always
  | onSuccess
  | onFailure
deriving DecidableEq, Repr

-- What becomes of a command once it runs: it is waited for, or not, or feeds the next one
inductive Ending where
  | awaited
  | background
  | piped
deriving DecidableEq, Repr

structure Command where
  condition : Condition
  words : List Word := []
  redirections : List Redirection := []
  ending : Ending := .awaited
deriving DecidableEq, Repr

namespace Command

def isEmpty (command : Command) : Bool :=
  command.words.isEmpty && command.redirections.isEmpty

def take (command : Command) (word : Word) : Command :=
  { command with words := command.words ++ [word] }

def redirect (command : Command) (descriptor : Nat) (reads : Bool) (target : Word) : Command :=
  let redirection : Redirection := { descriptor, reads, target }
  { command with redirections := command.redirections ++ [redirection] }

-- A command as it stands at the symbol after it, and the condition for the next
def close (command : Command) (symbol : Bytes) : Command × Condition :=
  if symbol = Bytes.ofText "&&" then (command, .onSuccess)
  else if symbol = Bytes.ofText "||" then (command, .onFailure)
  else if symbol = Bytes.ofText "&" then ({ command with ending := .background }, .always)
  else if symbol = Bytes.ofText "|" then ({ command with ending := .piped }, .always)
  else (command, .always)

-- Commands from the tokens, with the one that is being read. Standard output and errors are one
-- terminal, so that to copy one descriptor to another changes nothing.
def gather (current : Command) : List Token → List Command
  | [] => [current]
  | .word word :: rest => gather (current.take word) rest
  | .redirect descriptor reads :: .word target :: rest =>
    gather (current.redirect descriptor reads target) rest
  | .redirect _ _ :: .joint _ :: .word _ :: rest => gather current rest
  | .redirect _ _ :: rest => gather current rest
  | .joint symbol :: rest =>
    let (closed, condition) := current.close symbol
    closed :: gather { condition } rest

def parse (script : Bytes) : List Command :=
  (gather { condition := .always } (Lexer.scan script)).filter fun command => !command.isEmpty

end Command

end TerminalRelay.Host.Shell
