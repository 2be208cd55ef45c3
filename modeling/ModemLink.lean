import ModemLink.At.Command
import ModemLink.Line.Flow
import ModemLink.Line.Wiring
import ModemLink.Notification.Inbox
import ModemLink.Reply.Field
import ModemLink.Reply.Terminator
import ModemLink.Ring.Lemmas
import ModemLink.Settings
import ModemLink.Time.Timer
import ModemLink.Bench.Step
import ModemLink.Proofs.Journal
import ModemLink.Proofs.Phases
import ModemLink.Proofs.Resync
import ModemLink.Proofs.Lines
import ModemLink.Proofs.Tracking
import ModemLink.Proofs.Discarding
import ModemLink.Proofs.Conservation
import ModemLink.Proofs.Operations
import ModemLink.Proofs.Surroundings
import ModemLink.Proofs.Traces
import ModemLink.Proofs.Histories
import ModemLink.Proofs.Waiting
import ModemLink.Proofs.Slot
import ModemLink.Proofs.Replies
import ModemLink.Proofs.Readiness
import ModemLink.Proofs.Calls
import ModemLink.Proofs.Ledger
import ModemLink.Proofs.Writes
import ModemLink.Proofs.Board
import ModemLink.Proofs.Terminators
import ModemLink.Proofs.Reading
import ModemLink.Proofs.Worlds
import ModemLink.Proofs.Losses
import ModemLink.Proofs.CommandLines
import ModemLink.Proofs.Dispatch
import ModemLink.Proofs.Restoring
import ModemLink.Proofs.Dormancy
import ModemLink.Proofs.Handshake
import ModemLink.Proofs.Queue
import ModemLink.Proofs.Attempts
import ModemLink.Proofs.Revoking
import ModemLink.Proofs.Patience
import ModemLink.Proofs.Directory
import ModemLink.Proofs.Slices
import ModemLink.Proofs.Fields
import ModemLink.Proofs.Backoff
import ModemLink.Proofs.Catching
import ModemLink.Proofs.Registration
import ModemLink.Proofs.LineErrors
import ModemLink.Proofs.Seeking
