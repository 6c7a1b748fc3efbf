import Croc.Lib.Proc
import Croc.Session.Fs

/-! What a client session is given, what surrounds it, and its state. -/
namespace Croc
open Lib

inductive ClientState where
  | keyExchange | ipExchange | fileInfoTransfare | fileTransfare | fileTransfared
  deriving DecidableEq, Repr

/-- The place of a state in the protocol. -/
def ClientState.rank : ClientState → ℕ
  | .keyExchange => 0
  | .ipExchange => 1
  | .fileInfoTransfare => 2
  | .fileTransfare => 3
  | .fileTransfared => 4

/-- What `ClientSession::new` and `process_client` are given. -/
structure Setup where
  relayPorts : List String
  sharedSecret : String
  isSender : Bool
  externalIp : String
  files : Option FilesInformation
  deriving DecidableEq

/-- `self.shared_secret[5..]`, which panics unless byte five starts a character. -/
def Setup.secretTail (c : Setup) : Except Halt Bytes :=
  let bs := asBytes c.sharedSecret
  if 5 ≤ bs.length ∧ bs[5]?.all (fun b => b < 128 ∨ 192 ≤ b) then .ok (bs.drop 5)
  else .error (.panic .secretSlice)

/-- The answers of the operating system. The first argument is the number of calls before. -/
structure Os where
  cwd : Location
  currentDir : ℕ → Bool
  canonicalize : ℕ → String → Option Location
  pathExists : ℕ → Location → Bool
  createDir : ℕ → Location → Bool
  /-- The place that a path given to `File::create` leads to. -/
  locate : ℕ → String → Location
  create : ℕ → Location → Bool
  setLen : ℕ → Location → ℕ → Bool
  /-- `File::open` and the length in the metadata. -/
  openLen : ℕ → String → Option ℕ

/-- What surrounds a session: connections, randomness, the user, the file system. The number in
`seed`, `salt` and `sendError` is that of the messages sent before, in `confirm` that of the
questions asked before. -/
structure World where
  connectError : Option Error
  seed : ℕ → ℕ
  salt : ℕ → Block 8
  sendError : ℕ → Option Error
  confirm : ℕ → Option Bool
  overflowChecks : Bool
  os : Os
  disk : Location → Bytes

/-- A question to the user. -/
inductive Prompt where
  | receive (items : ℕ) (bytes : Int64)
  | overwrite (path : Location)
  deriving DecidableEq

/-- A call that creates, or truncates, something for an entry. -/
inductive FsOp where
  | createFile (file : FileInfo) (loc : Location)
  | createDir (file : FileInfo) (loc : Location)
  deriving DecidableEq

def FsOp.location : FsOp → Location
  | .createFile _ loc => loc
  | .createDir _ loc => loc

def FsOp.entry : FsOp → FileInfo
  | .createFile file _ => file
  | .createDir file _ => file

/-- Where `process_client` is: waiting for a message, handing chunks to a reader task, about to
request a file, waiting for the chunks of a file (with the frames that it has counted), or over. -/
inductive Phase where
  | recv
  | sending (rw : FsInterface) (jobs : List FileChunkInfo)
  | nextFile (index : ℕ)
  | chunks (index : ℕ) (loc : Location) (total : ℤ) (got : List DataFrame)
  | ended (result : Except Halt Unit)

/-- A `ClientSession` in `process_client`, with its tasks, its channels and what it has done. -/
structure Session (X : External) where
  state : ClientState
  encryptedSession : Option EncryptedSession
  key : Option X.Pake
  peerExternalIp : Option String
  filesToReceive : Option FilesInformation
  rw : Option FsInterface
  phase : Phase
  sent : List Message
  prompts : List Prompt
  calls : ℕ
  ops : List FsOp
  dests : List Location
  readers : List ReaderTask
  encrypting : List EncryptJob
  dataSent : List DataFrame
  dataClosed : Bool
  writers : List WriteJob
  written : List Written
  disk : Location → Bytes

namespace Session
variable {X : External}

/-- `ClientSession::new`, before anything is sent. -/
def new (W : World) : Session X where
  state := .keyExchange
  encryptedSession := none
  key := none
  peerExternalIp := none
  filesToReceive := none
  rw := none
  phase := .recv
  sent := []
  prompts := []
  calls := 0
  ops := []
  dests := []
  readers := []
  encrypting := []
  dataSent := []
  dataClosed := false
  writers := []
  written := []
  disk := W.disk

/-- The list that the receive loop goes through. -/
def toReceive (s : Session X) : Option (List FileInfo) :=
  s.filesToReceive.bind FilesInformation.filesToTransfare

/-- A writer task puts bytes into its file. -/
def putChunk (s : Session X) (job : WriteJob) (offset : ℕ) (data : Bytes) : Session X :=
  { s with
    disk := Function.update s.disk job.loc (writeAt 0 (s.disk job.loc) offset data)
    written := s.written ++ [⟨job.dest, job.frame.origin, offset, data⟩] }

end Session
end Croc
