/-!
The few terminal modes that the relay follows, and the size of the viewer's window.
-/

namespace TerminalRelay

structure WindowSize where
  rows : Nat
  cols : Nat
deriving DecidableEq, Repr

-- The screen and the cursor keys as the child last set them, the window as the viewer last set it
structure Modes where
  altScreen : Bool := false
  appCursor : Bool := false
  window : Option WindowSize := none
deriving DecidableEq, Repr

end TerminalRelay
