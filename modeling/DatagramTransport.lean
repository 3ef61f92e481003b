import DatagramTransport.EndPoint
import DatagramTransport.Proofs.Attendance
import DatagramTransport.Proofs.Backoff
import DatagramTransport.Proofs.Batches
import DatagramTransport.Proofs.Condensing
import DatagramTransport.Proofs.Distribution
import DatagramTransport.Proofs.Envelope
import DatagramTransport.Proofs.Gaps
import DatagramTransport.Proofs.Guarantees
import DatagramTransport.Proofs.Interleaving
import DatagramTransport.Proofs.Isolation
import DatagramTransport.Proofs.Journal
import DatagramTransport.Proofs.Layout
import DatagramTransport.Proofs.Limits
import DatagramTransport.Proofs.Listing
import DatagramTransport.Proofs.Login
import DatagramTransport.Proofs.Memory
import DatagramTransport.Proofs.Misjudgement
import DatagramTransport.Proofs.Mixture
import DatagramTransport.Proofs.Outbox
import DatagramTransport.Proofs.Parting
import DatagramTransport.Proofs.Pings
import DatagramTransport.Proofs.Progress
import DatagramTransport.Proofs.Rebuff
import DatagramTransport.Proofs.Receipts
import DatagramTransport.Proofs.Repetition
import DatagramTransport.Proofs.Reply
import DatagramTransport.Proofs.Report
import DatagramTransport.Proofs.Resending
import DatagramTransport.Proofs.Room
import DatagramTransport.Proofs.Sampling
import DatagramTransport.Proofs.Seniority
import DatagramTransport.Proofs.Sequence
import DatagramTransport.Proofs.Spelling
import DatagramTransport.Proofs.Turns
import DatagramTransport.Proofs.Welcome
