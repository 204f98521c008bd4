import Tacit.Machine.Basic
import Tacit.Proofs.Run.Context
import Tacit.Proofs.Run.Restored
import Tacit.Proofs.Run.StackEffect
import Tacit.Proofs.Array.Alike
import Tacit.Proofs.Array.Each
import Tacit.Proofs.Derive.Undone
import Tacit.Proofs.Run.Undone
import Tacit.Proofs.Array.Boxed
import Tacit.Proofs.Run.Formatted
import Tacit.Proofs.Array.Leading
import Tacit.Proofs.Run.Frame
import Tacit.Proofs.Run.Limits
import Tacit.Proofs.Run.Raise
import Tacit.Proofs.Derive.Pairs
import Tacit.Proofs.Run.Nested
import Tacit.Proofs.Run.Process
import Tacit.Proofs.Run.Ending
import Tacit.Proofs.Array.Results
import Tacit.Proofs.Derive.Arrays
import Tacit.Proofs.Run.Arrays
import Tacit.Proofs.Derive.Involution
import Tacit.Proofs.Run.Involution
import Tacit.Proofs.Run.Quotation
import Tacit.Proofs.Array.Structural
import Tacit.Proofs.Host.RoundTrip
import Tacit.Proofs.Run.Written
import Tacit.Proofs.Run.HandedBack
import Tacit.Proofs.Run.Cut
import Tacit.Proofs.Array.Swapped
import Tacit.Proofs.Run.Factored
import Tacit.Proofs.Array.Equality
import Tacit.Proofs.Array.Runs
import Tacit.Proofs.Array.Windows
import Tacit.Proofs.Template.Pieces
import Tacit.Proofs.Template.Source
import Tacit.Proofs.Template.Mismatch
import Tacit.Proofs.Array.Axes
import Tacit.Proofs.Run.Measured
import Tacit.Proofs.Run.Counted
import Tacit.Proofs.Run.Grouped
import Tacit.Proofs.Run.Folded
import Tacit.Proofs.Run.Summed
import Tacit.Proofs.Array.Join
import Tacit.Proofs.Array.Rotation
import Tacit.Proofs.Array.Transposition
import Tacit.Proofs.Array.EqualRows
import Tacit.Proofs.Array.Stacked
