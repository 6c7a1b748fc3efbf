import Croc.Lib.Machine
import Croc.Lib.Simulation
import Croc.Lib.Rendezvous
import Croc.Lib.Mutex
import Croc.Lib.Bytes
import Croc.Lib.Proc
import Croc.Lib.Path
import Croc.Lib.Pieces
import Croc.Lib.Tally
import Croc.Lib.Segments
import Croc.Lib.Utf8
import Croc.Lib.Interleave
import Croc.Lib.Journal
import Croc.Lib.Fifo
import Croc.Lib.Json
import Croc.Failure
import Croc.Proto.CrocRaw
import Croc.Proto.Stream
import Croc.Proto.ReadTask
import Croc.Proto.WriteTask
import Croc.Proto.CrocEnc
import Croc.Proto.CrocMsg
import Croc.Proto.MessageJson
import Croc.Proto.Wire
import Croc.Proto.Pipe
import Croc.Relay.Negotiate
import Croc.Relay.Establish
import Croc.Relay.Server
import Croc.Relay.Steps
import Croc.Relay.Handshake
import Croc.Relay.Runs
import Croc.Relay.Rooms
import Croc.Relay.Pairing
import Croc.Relay.Atomic
import Croc.Relay.Attended
import Croc.Relay.Password
import Croc.Relay.Deadlock
import Croc.Relay.Live
import Croc.Relay.Rendezvous
import Croc.Relay.Belonging
import Croc.Relay.Isolation
import Croc.Relay.Bridge
import Croc.Relay.Turns
import Croc.Relay.Keepalive
import Croc.Relay.Client
import Croc.Relay.Channels
import Croc.Relay.Handover
import Croc.Relay.Blocking
import Croc.Relay.Agreement
import Croc.Relay.DeadSender
import Croc.Relay.Banner
import Croc.Relay.Dispatch
import Croc.Session.Order
import Croc.Session.Panics
import Croc.Session.Malformed
import Croc.Session.Paths
import Croc.Session.Receive
import Croc.Session.ChunkPlan
import Croc.Session.Writer
import Croc.Session.FileLoop
import Croc.Session.Mirrored
import Croc.Session.Secret
import Croc.Session.Crossing
import Croc.Session.Consent
import Croc.Session.Completed
import Croc.Session.Reassembly
import Croc.Session.Agreement
import Croc.Session.Moves
import Croc.Session.Delivery
import Croc.Session.Link
import Croc.Session.Settling
import Croc.Session.Wiretap
import Croc.Session.Wired
import Croc.Session.Bridged
import Croc.Session.SameKey
import Croc.Session.Disclosure
import Croc.Session.Provenance
import Croc.Session.Total
import Croc.Session.Integrity
import Croc.Session.Folders
import Croc.Session.Accepted
