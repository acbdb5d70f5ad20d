import TerminalRelay.Bridge.Basic
import TerminalRelay.Bridge.Relay
import TerminalRelay.Bridge.Run
import TerminalRelay.Byte
import TerminalRelay.ByteRing.Basic
import TerminalRelay.Command
import TerminalRelay.CommandLine
import TerminalRelay.Config
import TerminalRelay.Config.Reader
import TerminalRelay.Encode
import TerminalRelay.ErrorReport
import TerminalRelay.Failure
import TerminalRelay.Host.Child
import TerminalRelay.Host.LineDiscipline
import TerminalRelay.Host.Machine
import TerminalRelay.Host.Path
import TerminalRelay.Host.Printf
import TerminalRelay.Host.Shell.Basic
import TerminalRelay.Host.Shell.Grammar
import TerminalRelay.Host.Shell.Run
import TerminalRelay.Host.Shell.Signal
import TerminalRelay.Host.Utility
import TerminalRelay.Journal
import TerminalRelay.Json.Basic
import TerminalRelay.Json.Number
import TerminalRelay.Json.Printer
import TerminalRelay.Json.Scanner
import TerminalRelay.Json.Skip
import TerminalRelay.Keys
import TerminalRelay.Main
import TerminalRelay.Modes
import TerminalRelay.Notice
import TerminalRelay.Proofs.Bridge.Halts
import TerminalRelay.Proofs.Byte
import TerminalRelay.Proofs.ByteRing.Content
import TerminalRelay.Proofs.ByteRing.Refinement
import TerminalRelay.Proofs.Checked.Keys
import TerminalRelay.Proofs.Checked.Output
import TerminalRelay.Proofs.Checked.Ring
import TerminalRelay.Proofs.Checked.Session
import TerminalRelay.Proofs.Checked.Terminal
import TerminalRelay.Proofs.Checked.Word
import TerminalRelay.Proofs.Config.Document
import TerminalRelay.Proofs.Config.RoundTrip
import TerminalRelay.Proofs.Config.Settings
import TerminalRelay.Proofs.Editor.Basic
import TerminalRelay.Proofs.Editor.Line
import TerminalRelay.Proofs.Editor.Reading
import TerminalRelay.Proofs.Json.Document
import TerminalRelay.Proofs.Json.Grammar
import TerminalRelay.Proofs.Json.Lexical
import TerminalRelay.Proofs.Json.Skipped
import TerminalRelay.Proofs.Json.WellFormed
import TerminalRelay.Proofs.Keys.Batches
import TerminalRelay.Proofs.Keys.Chunks
import TerminalRelay.Proofs.Keys.Consumed
import TerminalRelay.Proofs.Keys.Grammar
import TerminalRelay.Proofs.Keys.Losses
import TerminalRelay.Proofs.Keys.Reachable
import TerminalRelay.Proofs.Keys.Reading
import TerminalRelay.Proofs.Keys.Sending
import TerminalRelay.Proofs.Keys.Step
import TerminalRelay.Proofs.Mirror.Basic
import TerminalRelay.Proofs.Mirror.Calls
import TerminalRelay.Proofs.Mirror.Exact
import TerminalRelay.Proofs.Mirror.Pieces
import TerminalRelay.Proofs.Mirror.Reading
import TerminalRelay.Proofs.Mirror.Screen
import TerminalRelay.Proofs.Mirror.Silent
import TerminalRelay.Proofs.Mirror.Stream
import TerminalRelay.Proofs.Replay.Lines
import TerminalRelay.Proofs.Replay.Rebuild
import TerminalRelay.Proofs.Sequence.Grammar
import TerminalRelay.Proofs.Sequence.Open
import TerminalRelay.Proofs.Sequence.Recognition
import TerminalRelay.Proofs.Sequence.Table
import TerminalRelay.Proofs.Session.Dump
import TerminalRelay.Proofs.Session.Reachable
import TerminalRelay.Proofs.Session.Recording
import TerminalRelay.Proofs.Session.Reset
import TerminalRelay.Proofs.Session.Resizes
import TerminalRelay.Proofs.Session.Sides
import TerminalRelay.Proofs.Session.Watch
import TerminalRelay.Proofs.Terminal.Abreast
import TerminalRelay.Proofs.Terminal.Alike
import TerminalRelay.Proofs.Terminal.Backspaces
import TerminalRelay.Proofs.Terminal.Chunks
import TerminalRelay.Proofs.Terminal.Collecting
import TerminalRelay.Proofs.Terminal.Counts
import TerminalRelay.Proofs.Terminal.Edits
import TerminalRelay.Proofs.Terminal.Held
import TerminalRelay.Proofs.Terminal.LineEnd
import TerminalRelay.Proofs.Terminal.Lines
import TerminalRelay.Proofs.Terminal.Modes
import TerminalRelay.Proofs.Terminal.Newlines
import TerminalRelay.Proofs.Terminal.Observers
import TerminalRelay.Proofs.Terminal.Overflow
import TerminalRelay.Proofs.Terminal.Page
import TerminalRelay.Proofs.Terminal.PlainText
import TerminalRelay.Proofs.Terminal.RawLog
import TerminalRelay.Proofs.Terminal.Reachable
import TerminalRelay.Proofs.Terminal.Reader
import TerminalRelay.Proofs.Terminal.Recent
import TerminalRelay.Proofs.Terminal.Run
import TerminalRelay.Proofs.Terminal.Step
import TerminalRelay.Proofs.Terminal.Stores
import TerminalRelay.Proofs.Terminal.Titles
import TerminalRelay.Proofs.Terminal.Turns
import TerminalRelay.Proofs.TerminalSize
import TerminalRelay.Proofs.Text.Lossy
import TerminalRelay.Proofs.Tracked.Account
import TerminalRelay.Proofs.Tracked.Basic
import TerminalRelay.Proofs.Tracked.Follows
import TerminalRelay.Proofs.Tracked.Once
import TerminalRelay.Proofs.Transport.Exact
import TerminalRelay.Proofs.Transport.RoundTrip
import TerminalRelay.Proofs.Unhandled.Basic
import TerminalRelay.Proofs.Unhandled.Exact
import TerminalRelay.Proofs.Unhandled.Printable
import TerminalRelay.Proofs.Unhandled.Reading
import TerminalRelay.Proofs.Unhandled.Recorded
import TerminalRelay.Proofs.Writer.Exact
import TerminalRelay.Proofs.Writer.Faults
import TerminalRelay.Proofs.Writer.Gentle
import TerminalRelay.Proofs.Writer.Partial
import TerminalRelay.Replay
import TerminalRelay.Sequence
import TerminalRelay.Session.Basic
import TerminalRelay.Session.Operation
import TerminalRelay.Session.Snapshot
import TerminalRelay.Terminal.Basic
import TerminalRelay.Terminal.Feed
import TerminalRelay.Terminal.Line
import TerminalRelay.TerminalSize
import TerminalRelay.Text.Lossy
import TerminalRelay.Text.Quoted
import TerminalRelay.Transport
import TerminalRelay.Unhandled
import TerminalRelay.Writer
