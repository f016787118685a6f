import StackHeap.CommandLine
import StackHeap.Store.Consistency
import StackHeap.Visualizer.Draw
import StackHeap.Proofs.Number.Rounding
import StackHeap.Proofs.Number.Shortest
import StackHeap.Proofs.Address.Fresh
import StackHeap.Proofs.Address.Rounded
import StackHeap.Proofs.Store.Balance
import StackHeap.Proofs.Store.Cascade
import StackHeap.Proofs.Store.Operation
import StackHeap.Proofs.Store.Slots
import StackHeap.Proofs.Store.Sound
import StackHeap.Proofs.Store.Outcome
import StackHeap.Proofs.Store.Settled
import StackHeap.Proofs.Typing.Checked
import StackHeap.Proofs.Store.Typed
import StackHeap.Proofs.Session.Plan
import StackHeap.Proofs.Store.Exact
import StackHeap.Proofs.Session.Invariants
import StackHeap.Proofs.Store.Separation
import StackHeap.Proofs.Session.Scopes
import StackHeap.Proofs.Command.Lexing
import StackHeap.Proofs.Command.Slices
import StackHeap.Proofs.Command.Tiling
import StackHeap.Proofs.Command.Splitting
import StackHeap.Proofs.Command.Commas
import StackHeap.Proofs.Command.Readers
import StackHeap.Proofs.Command.Lines
import StackHeap.Proofs.Number.Numerals
import StackHeap.Proofs.Address.Distinct
import StackHeap.Proofs.Typing.Literals
import StackHeap.Proofs.Typing.Grammar
import StackHeap.Proofs.Session.Tokens
import StackHeap.Proofs.Command.Quoting
import StackHeap.Proofs.Command.Sides
import StackHeap.Proofs.Session.Assigning
import StackHeap.Proofs.Session.Quoted
import StackHeap.Proofs.Store.Collection
import StackHeap.Proofs.Store.Moves
import StackHeap.Proofs.Store.Structure
import StackHeap.Proofs.Store.Addresses
import StackHeap.Proofs.Store.Locality
import StackHeap.Proofs.Session.Locality
import StackHeap.Proofs.Visualizer.Consistency
import StackHeap.Proofs.Session.SelfAssignment
import StackHeap.Proofs.Store.Initialising
import StackHeap.Proofs.Session.Initialising
import StackHeap.Proofs.Store.Commuting
import StackHeap.Proofs.Session.Commuting
import StackHeap.Proofs.Command.Sections
import StackHeap.Proofs.Command.Kinds
import StackHeap.Proofs.Typing.Integers
import StackHeap.Proofs.Typing.Widening
import StackHeap.Proofs.Text.Unambiguous
import StackHeap.Proofs.Text.Escape
import StackHeap.Proofs.Number.Layout
import StackHeap.Proofs.Snapshot.Places
import StackHeap.Proofs.Snapshot.Legible
import StackHeap.Proofs.Store.Named
import StackHeap.Proofs.Session.Names
import StackHeap.Proofs.Session.Endings
import StackHeap.Proofs.Session.Collection
import StackHeap.Proofs.Session.Snapshots
import StackHeap.Proofs.History
import StackHeap.Proofs.Visualizer.Browsing
import StackHeap.Proofs.Visualizer.Editing
import StackHeap.Proofs.Store.Recount
import StackHeap.Proofs.Text.Clear
import StackHeap.Proofs.Command.Messages
import StackHeap.Proofs.Typing.Messages
import StackHeap.Proofs.Typing.Displayed
import StackHeap.Proofs.Store.Messages
import StackHeap.Proofs.Session.Messages
import StackHeap.Proofs.Visualizer.Drawing
import StackHeap.Proofs.Visualizer.Cursor
import StackHeap.Proofs.CommandLine
