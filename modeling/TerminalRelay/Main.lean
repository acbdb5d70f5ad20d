import TerminalRelay.Bridge.Run
import TerminalRelay.CommandLine
import TerminalRelay.Encode

/-!
The program: it reads the command line, fetches the input, and puts down what a run leaves behind.
A run is a pure function, so where one of its files turns out not to take what it left, it is run
again with that known.
-/

namespace TerminalRelay.Main

open CommandLine

def faultOf : IO.Error → Fault
  | .noFileOrDirectory _ _ _ => .noSuchFile
  | .permissionDenied _ _ _ => .accessDenied
  | .resourceExhausted _ _ _ => .noSpace
  | .inappropriateType _ code _ => if code = 21 then .isDirectory else .inNoDirectory
  | error => { kind := .other, detail := some error.toString }

def attempt {α : Type} (action : IO α) : IO (Except Fault α) := do
  match ← action.toBaseIO with
  | .ok value => return .ok value
  | .error error => return .error (faultOf error)

partial def readAll (stream : IO.FS.Stream) (read : ByteArray) : IO ByteArray := do
  let piece ← stream.read 4096
  if piece.isEmpty then return read else readAll stream (read ++ piece)

def standardInput : IO (Except Fault Bytes) := do
  return (← attempt (readAll (← IO.getStdin) .empty)).map fun bytes => bytes.toList

def sourceOf (file : Option String) : IO Source := do
  match file with
  | none =>
    match ← standardInput with
    | .ok bytes => return .content bytes
    | .error fault => return .unreadable fault
  | some path =>
    match ← attempt (IO.FS.Handle.mk path .read) with
    | .error fault => return .unopened path fault
    | .ok handle =>
      match ← attempt handle.readBinToEnd with
      | .ok bytes => return .content bytes.toList
      | .error fault => return .unreadable fault

def written (bytes : Bytes) : ByteArray :=
  ⟨bytes.toArray⟩

-- Standard output is taken to accept everything until it fails
def leave (exitOn : Device → Exit) : IO UInt32 := do
  let stdout ← IO.getStdout
  let exit := exitOn .accepting
  let exit ← match ← attempt (do stdout.write (written exit.stdout); stdout.flush) with
    | .ok _ => pure exit
    | .error _ => pure (exitOn .full)
  IO.eprint exit.stderr
  return exit.code.toUInt32

def openLog (path : String) : IO (LogPlace × Option IO.FS.Handle) := do
  match Host.openForWriting path with
  | .ok .full => return ({ path, opening := .ok .full }, none)
  | _ =>
    match ← attempt (IO.FS.Handle.mk path .append) with
    | .ok handle => return ({ path, opening := .ok .accepting }, some handle)
    | .error fault => return ({ path, opening := .error fault }, none)

-- A log is only opened once all before it has gone well
def openLogIf (wanted : Bool) (path : Option String) :
    IO (Option (LogPlace × Option IO.FS.Handle)) :=
  if wanted then path.mapM openLog else return none

def isOpen (log : Option (LogPlace × Option IO.FS.Handle)) : Bool :=
  log.all fun log => log.1.opening.toBool

def keepLog (log : Option (LogPlace × Option IO.FS.Handle)) (appended : Option Bytes) :
    IO Unit := do
  match log, appended with
  | some (_, some handle), some bytes => handle.write (written bytes)
  | _, _ => return ()

-- Where the dump went, once there is one to put down
def keepDump (path : Option String) (text : String) : IO DumpPlace := do
  match path with
  | some path =>
    match ← attempt (IO.FS.writeFile path text) with
    | .ok _ => return { path }
    | .error fault => return { path, fault := some fault }
  | none =>
    let (handle, path) ← IO.FS.createTempFile
    handle.putStr text
    return { path := path.toString }

def runBridge (options : BridgeOptions) : IO UInt32 := do
  let sized := (WindowSize.parse options.size).toBool
  let plain ← openLogIf sized options.plainLog
  let raw ← openLogIf (sized && isOpen plain) options.rawLog
  let bridge : Bridge :=
    { command := options.command
      keystrokes := ← standardInput
      size := options.size
      term := options.term
      lineCapacity := options.lineCapacity
      forward := options.forward
      plainLog := plain.map (·.1)
      rawLog := raw.map (·.1)
      dump := { path := options.dump.getD "" }
      logLevel := options.logLevel }
  let bridge ← match bridge.run.dumps.getLast? with
    | some dump => pure { bridge with dump := ← keepDump options.dump dump.text }
    | none => pure bridge
  let code ← leave fun stdout => ({ bridge with stdout }).run.exit
  keepLog plain bridge.run.plainLog
  keepLog raw bridge.run.rawLog
  return code

def run : Invocation → IO UInt32
  | .replay file style lineCapacity => do
    let source ← sourceOf file
    leave fun stdout => Replay.command source style lineCapacity stdout
  | .encode file => do
    let source ← sourceOf file
    leave fun stdout => Encode.command source stdout
  | .bridge options => runBridge options

end TerminalRelay.Main

def main (arguments : List String) : IO UInt32 := do
  match TerminalRelay.CommandLine.read arguments with
  | .ok invocation => TerminalRelay.Main.run invocation
  | .error error =>
    IO.eprintln ("error: " ++ error.message)
    return 2
