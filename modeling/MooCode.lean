import MooCode.Inspect
import MooCode.Machine.Call
import MooCode.Main
import MooCode.Proofs.Checked
import MooCode.Proofs.Slices
import MooCode.Proofs.Eager
import MooCode.Proofs.Schedules
import MooCode.Proofs.Output
import MooCode.Proofs.Lines
import MooCode.Proofs.Session
import MooCode.Proofs.Command
import MooCode.Proofs.Capacity
import MooCode.Proofs.LifeCycle
import MooCode.Proofs.Queue
import MooCode.Proofs.Suspension
import MooCode.Proofs.Abort
import MooCode.Proofs.Searches
import MooCode.Proofs.Straight
import MooCode.Proofs.Loops
import MooCode.Proofs.Utf8
import MooCode.Proofs.Spelling
import MooCode.Proofs.Fifo
import MooCode.Proofs.Ideal
import MooCode.Proofs.Arithmetic
import MooCode.Proofs.Relocation
import MooCode.Proofs.Sequence
import MooCode.Proofs.Inline
import MooCode.Proofs.Carryover
import MooCode.Proofs.Delivery
import MooCode.Proofs.Numeral
import MooCode.Proofs.Waiting
import MooCode.Proofs.Faults
import MooCode.Proofs.ControlFlow
import MooCode.Proofs.Locality
import MooCode.Proofs.Listing
import MooCode.Proofs.Integers
import MooCode.Proofs.Reversal
import MooCode.Proofs.RoundTrip
import MooCode.Proofs.StandardInput
import MooCode.Proofs.Mailbox
import MooCode.Proofs.Messages
import MooCode.Proofs.Markers
import MooCode.Proofs.Files
import MooCode.Proofs.Journal
