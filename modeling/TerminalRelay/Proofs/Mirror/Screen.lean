import TerminalRelay.Proofs.Mirror.Reading
import TerminalRelay.Proofs.Mirror.Pieces
import TerminalRelay.Proofs.Terminal.Modes

namespace TerminalRelay

open Transport (dataOf markersOf)

-- Which screen a viewer is on who meets this marker
def Marker.screen (alternate : Bool) : Marker → Bool
  | primary => false
  | .alternate => true
  | _ => alternate

-- Which screen a viewer is on who follows the markers
def Marker.followed (alternate : Bool) (markers : List Marker) : Bool :=
  markers.foldl screen alternate

@[simp] theorem Marker.followed_nil (alternate : Bool) : followed alternate [] = alternate := rfl

theorem Marker.followed_append (alternate : Bool) (left right : List Marker) :
    followed alternate (left ++ right) = followed (followed alternate left) right :=
  List.foldl_append

-- The markers of a switch lead to the screen it switches to, wherever they are met.
theorem ScreenMode.followed_markers (mode : ScreenMode) (on alternate : Bool) :
    Marker.followed alternate (mode.markers on) = on := by
  cases mode <;> cases on <;> rfl

namespace Report

-- What a report shows tells of every switch of screens that it makes, and of no other.
def Truthful (report : Report) : Prop :=
  ∀ modes : Modes, (report.edit.modes modes).altScreen =
    Marker.followed modes.altScreen (markersOf report.shown)

theorem truthful_of_data {report : Report} (bytes : Bytes)
    (hshown : report.shown = bytes.map .data)
    (hedit : ∀ modes, (report.edit.modes modes).altScreen = modes.altScreen) :
    report.Truthful := by
  intro modes
  rw [hedit, hshown, Transport.markersOf_data, Marker.followed_nil]

theorem Truthful.join {report : Report} (h : report.Truthful) (bytes : Bytes)
    (notice : Option Notice) :
    (Report.join { shown := bytes.map .data, notice } report).Truthful := by
  intro modes
  have hmarkers : markersOf (Report.join { shown := bytes.map .data, notice } report).shown =
      markersOf report.shown := by
    rw [Report.join, Transport.markersOf_append, Transport.markersOf_data, List.nil_append]
  rw [hmarkers]
  exact h modes

end Report

theorem Edit.altScreen_ofText (byte : UInt8) (modes : Modes) :
    ((Edit.ofText byte).modes modes).altScreen = modes.altScreen := by
  unfold Edit.ofText
  split
  · rfl
  · split <;> rfl

namespace Reader

variable {capacity : Nat}

theorem truthful_readText (byte : UInt8) : (readText byte).2.Truthful :=
  Report.truthful_of_data [byte] rfl (Edit.altScreen_ofText byte)

theorem truthful_action (raw : Bytes) (action : Action) :
    Report.Truthful { shown := shownAction raw action, edit := .act action } := by
  cases action with
  | altScreen mode on =>
      intro modes
      rw [shownAction, Transport.markersOf_marker, ScreenMode.followed_markers]
      rfl
  | appCursor on => exact Report.truthful_of_data raw rfl fun _ => rfl
  | eraseToEnd => exact Report.truthful_of_data raw rfl fun _ => rfl
  | cursorUp count => exact Report.truthful_of_data raw rfl fun _ => rfl
  | cursorForward count => exact Report.truthful_of_data raw rfl fun _ => rfl
  | deleteChars count => exact Report.truthful_of_data raw rfl fun _ => rfl

theorem truthful_silent : Report.Truthful {} :=
  Report.truthful_of_data [] rfl fun _ => rfl

theorem truthful_readScanned (raw : Bytes) (byte : UInt8) (scan : Scan) :
    (readScanned raw byte scan).2.Truthful := by
  cases scan with
  | pending => exact truthful_silent
  | title => exact truthful_silent
  | known action => exact truthful_action raw action
  | unknown =>
      dsimp only [readScanned]
      split <;> exact Report.truthful_of_data raw rfl fun _ => rfl
  | aborted =>
      exact Report.truthful_of_data raw rfl (Edit.altScreen_ofText byte)

theorem truthful_readOverlong (held : Bytes) (byte : UInt8) :
    (readOverlong held byte).2.Truthful := by
  unfold readOverlong
  split
  · exact Report.truthful_of_data [byte] rfl fun _ => rfl
  split
  · exact Report.truthful_of_data [byte] rfl fun _ => rfl
  split
  · exact truthful_silent
  · exact truthful_readText byte

theorem truthful_readHeld (held : Bytes) (byte : UInt8) :
    (readHeld capacity held byte).2.Truthful := by
  unfold readHeld
  split
  · exact Report.truthful_of_data held rfl fun _ => rfl
  split
  · exact truthful_readScanned _ _ _
  · exact (truthful_readOverlong held byte).join held _

theorem truthful_read (reader : Reader) (byte : UInt8) :
    (reader.read capacity byte).2.Truthful := by
  unfold read
  split
  · exact Report.truthful_of_data (reader.withheld ++ [byte]) rfl fun _ => rfl
  split
  · split
    · exact truthful_silent
    · exact Report.truthful_of_data [byte] rfl fun _ => rfl
  split
  · split
    · exact truthful_silent
    · exact Report.truthful_of_data (reader.withheld ++ [byte]) rfl fun _ => rfl
  split
  · split
    · exact truthful_silent
    · exact truthful_readText byte
  · exact truthful_readHeld _ _
  · split <;> exact truthful_silent
  · split
    · exact truthful_silent
    · exact truthful_readHeld _ _
  · exact truthful_readOverlong _ _

-- The screen that the terminal comes to is the one that a viewer is led to.
theorem altScreen_modesAfter (reader : Reader) (bytes : Bytes) (modes : Modes) :
    (Report.modesAfter modes (reader.reports capacity bytes)).altScreen =
      Marker.followed modes.altScreen (markersOf (reader.shown capacity bytes)) := by
  induction bytes generalizing reader modes with
  | nil => rfl
  | cons byte rest ih =>
      have hread : ((reader.read capacity byte).2.edit.modes modes).altScreen =
          Marker.followed modes.altScreen (markersOf (reader.read capacity byte).2.shown) :=
        truthful_read reader byte modes
      have hrest :=
        ih (reader.read capacity byte).1 ((reader.read capacity byte).2.edit.modes modes)
      rw [hread] at hrest
      simp only [shown, reports_cons, List.flatMap_cons, Transport.markersOf_append,
        Marker.followed_append]
      exact hrest

end Reader

end TerminalRelay
