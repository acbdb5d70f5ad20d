import TerminalRelay.Command

/-!
The file tree of the machine, as far as a path given to the relay can tell its parts apart: the
usual directories, the devices that swallow or refuse everything, and nothing else.
-/

namespace TerminalRelay.Host

inductive Node where
  | directory
  | nullDevice
  | fullDevice
  | absent
  -- below something that is no directory
  | misplaced
deriving DecidableEq, Repr

def directories : List (List String) :=
  [[], ["bin"], ["dev"], ["etc"], ["home"], ["lib"], ["opt"], ["proc"], ["root"], ["run"], ["sbin"],
    ["sys"], ["tmp"], ["usr"], ["usr", "bin"], ["usr", "lib"], ["usr", "local"],
    ["usr", "local", "bin"], ["usr", "sbin"], ["usr", "share"], ["var"], ["var", "log"],
    ["var", "tmp"]]

def devices : List (List String × Node) :=
  [(["dev", "null"], .nullDevice), (["dev", "full"], .fullDevice)]

-- The names on the way to a path from the root
def components (path : String) : List String :=
  (path.splitOn "/").filter fun name => name ≠ "" ∧ name ≠ "."

def nodeAt (names : List String) : Node :=
  match devices.find? fun device => device.1.isPrefixOf names with
  | some (device, node) => if device.length = names.length then node else .misplaced
  | none => if directories.contains names then .directory else .absent

-- A path that ends in a slash can only be a directory's
def Node.asDirectory : Node → Node
  | .nullDevice | .fullDevice => .misplaced
  | node => node

-- An empty path names nothing, and in the directory the relay runs in there is nothing
def Node.ofPath (path : String) : Node :=
  if path.startsWith "/" then
    let node := nodeAt (components path)
    if path.endsWith "/" then node.asDirectory else node
  else if path ≠ "" ∧ components path = [] then .directory
  else .absent

-- Whether a new file could be made at the path
def creatable (path : String) : Bool :=
  let parent := (components path).dropLast
  Node.ofPath path == .absent && path ≠ "" && !path.endsWith "/" &&
    if path.startsWith "/" then directories.contains parent else parent.isEmpty

-- Opening a file that is written from its end on, and made where there is none
def openForWriting (path : String) : Except Fault Device :=
  match Node.ofPath path with
  | .directory => .error .isDirectory
  | .nullDevice => .ok .accepting
  | .fullDevice => .ok .full
  | .misplaced => .error .inNoDirectory
  | .absent => if creatable path then .ok .accepting else .error .noSuchFile

-- A directory can be opened, but not read
def sourceAt (path : String) : Source :=
  match Node.ofPath path with
  | .directory => .unreadable .isDirectory
  | .nullDevice | .fullDevice => .content []
  | .misplaced => .unopened path .inNoDirectory
  | .absent => .unopened path .noSuchFile

end TerminalRelay.Host
