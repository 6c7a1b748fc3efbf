import Croc.Proto.Stream
import Croc.Session.Held
import Croc.Session.Pair

/-! One file on its way: `send_file`, the tasks that encrypt its chunks and send them, the frames on
the data connection, and the tasks that write the chunks to the destination file. -/
namespace Croc
open Lib

/-- Two sessions and the frames between them. Payloads on the wire are whole frames. -/
structure Transfer (X : External) where
  sender : Session X
  receiver : Session X
  wire : List DataFrame

/-- The bytes of the source file, which do not change, and the destination file. -/
structure Route where
  source : Bytes
  dest : ℕ
  loc : Location

namespace Transfer
open Session
variable {X : External}

inductive Event where
  /-- `send_file` hands its next chunk to the reader task. -/
  | hand
  /-- The reader task seeks to the offset of its next chunk, and reads it. -/
  | read (id : ℕ)
  | encrypt (k : ℕ) (nonce : Block 12)
  /-- Any of the frames is read next, and is handed to the writer. -/
  | deliver (k : ℕ)
  /-- A writer task writes all of its chunk. -/
  | write (k : ℕ)
  deriving DecidableEq

/-- What `read_exact` finds. -/
def readJob (r : Route) (job : FileChunkInfo) : Bytes :=
  (r.source.drop job.chunkOffset).take job.chunkSize

/-- What `OwnedSender::write` puts on the wire. -/
def framed (frame : DataFrame) : Option DataFrame :=
  (OwnedSender.write frame.payload ⟨[], false⟩).toOption.map fun channel =>
    { frame with payload := MpscCrocProto.writeTask channel [] }

/-- What the receiver reads from the wire. -/
def unframed (frame : DataFrame) : Option DataFrame :=
  (CrocProto.read frame.payload).1.toOption.map fun payload => { frame with payload := payload }

/-- How much of a chunk there is to write. -/
def chunkLength (X : External) (job : WriteJob) : ℕ :=
  match openChunk X job.enc job.frame.payload with
  | .ok (_, data) => data.length
  | .error _ => 0

def stepSender (M : Meeting) (p : Transfer X) (t : Task) : Option (Transfer X) :=
  (stepTask M.senderWorld M.sender p.sender t).map fun s => { p with sender := s }

def step (M : Meeting) (r : Route) (p : Transfer X) : Event → Option (Transfer X)
  | .hand =>
    match p.sender.phase with
    | .sending _ (_ :: _) => p.stepSender M .tick
    | _ => none
  | .read id => do
    let reader ← p.sender.readers[id]?
    let job ← reader.queue.head?
    p.stepSender M (.read id (readJob r job))
  | .encrypt k nonce => (stepTask M.senderWorld M.sender p.sender (.encrypt k nonce)).map fun s =>
      { p with
        sender := s
        wire := p.wire ++ (s.dataSent.drop p.sender.dataSent.length).filterMap framed }
  | .deliver k => do
    let frame ← p.wire[k]?
    let frame ← unframed frame
    let receiver ← Session.step M.receiverWorld M.receiver p.receiver (.chunk frame)
    return { p with receiver := receiver, wire := p.wire.eraseIdx k }
  | .write k => do
    let job ← p.receiver.writers[k]?
    let receiver ← stepTask M.receiverWorld M.receiver p.receiver (.write k (chunkLength X job))
    return { p with receiver := receiver }

/-- A file that is sent, from `p` on. -/
def machine (M : Meeting) (r : Route) (p : Transfer X) : Machine (Transfer X) Event where
  init := p
  step := step M r

/-- The number of chunks. -/
def chunkCount (r : Route) : ℕ := pieceCount tcpBufferSize r.source.length

/-- The bytes of a chunk. -/
def chunk (r : Route) (j : ℕ) : Bytes := piece tcpBufferSize r.source j

/-- `send_file` has opened the source, the receive loop has created the destination file, and
nothing is under way. -/
structure Starts (r : Route) (enc : EncryptedSession) (id : ℕ) (p : Transfer X) : Prop where
  jobs : ∃ file, p.sender.phase = .sending ⟨id, enc⟩ (chunkPlan file r.source.length)
  reader : p.sender.readers[id]? = some ⟨enc, [], false⟩
  queues : ∀ reader ∈ p.sender.readers, reader.queue = []
  encrypting : p.sender.encrypting = []
  wire : p.wire = []
  loop : ∃ total, p.receiver.phase = .chunks r.dest r.loc total []
  rw : ∃ rw, p.receiver.rw = some rw ∧ rw.enc = enc
  writers : p.receiver.writers = []
  created : p.receiver.disk r.loc = List.replicate r.source.length 0

/-- Every chunk has been read, sent and handed to the writer, and all tasks have ended. -/
structure Settled (p : Transfer X) : Prop where
  jobs : p.sender.phase.jobs = []
  queues : ∀ reader ∈ p.sender.readers, reader.queue = []
  encrypting : p.sender.encrypting = []
  wire : p.wire = []
  writers : p.receiver.writers = []

end Transfer
end Croc
