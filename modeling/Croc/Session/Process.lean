import Croc.Lib.Machine
import Croc.Session.State

/-! `process_client`: its handlers, its loops, and the machine of one session with its tasks. -/
namespace Croc
open Lib

namespace Session
variable {X : External}

abbrev Proc (X : External) (α : Type) := EStateM Halt (Session X) α

/-- Events of the tasks of one session. `tick` is the next step of `process_client` itself. -/
inductive Task where
  | tick
  /-- A reader task reads the chunk at the head of its queue. -/
  | read (id : ℕ) (data : Bytes)
  /-- A reader task returns with an error. -/
  | readFailed (id : ℕ)
  /-- A spawned task encrypts its chunk and sends it. -/
  | encrypt (k : ℕ) (nonce : Block 12)
  /-- A spawned task cannot send its chunk. -/
  | encryptFailed (k : ℕ)
  /-- A writer task decrypts its frame, and `done` bytes of the chunk reach the file. The step is
  when they do: `write_all` returns before that, and a write that fails is reported to the next task
  of the file. -/
  | write (k : ℕ) (done : ℕ)
  deriving DecidableEq

/-- What happens to a session: a message of the peer, a failing read, a frame on the data
connection, the end of the data connection, or a step of its own tasks. -/
inductive Event where
  | message (m : Message)
  | recvFailed (e : Error)
  | chunk (frame : DataFrame)
  | dataClosed
  | task (t : Task)
  deriving DecidableEq

section Handlers
variable (W : World) (c : Setup)

/-- `Message::send`, which fails as the surroundings say. -/
def send (m : Message) : Proc X Unit := do
  let s ← get
  match W.sendError s.sent.length with
  | none => modify fun s => { s with sent := s.sent ++ [m] }
  | some e => throw (.err e)

/-- The number of a call of the operating system. -/
def osCall : Proc X ℕ := do
  let s ← get
  modify fun s => { s with calls := s.calls + 1 }
  return s.calls

/-- A call of the operating system that may fail. -/
def osTry (ok : ℕ → Bool) : Proc X Unit := do
  let n ← osCall
  if ok n then pure () else throw (.err .io)

/-- `Confirm::prompt`; `e` is what a failing prompt becomes. -/
def ask (e : Error) (question : Prompt) : Proc X Bool := do
  let s ← get
  modify fun s => { s with prompts := s.prompts ++ [question] }
  lift (orErr e (W.confirm s.prompts.length))

def pakeMessage (key : X.Pake) (bytes2 : Bytes) : Message :=
  .pake ⟨asBytes (X.keyToJson (X.pubPake key)), bytes2⟩

/-- The sender's half of `process_key_exchange`: it answers with its key and returns the salt. -/
def answerKey (msg : PakeMessage) : Proc X (Block 8) := do
  let s ← get
  if msg.bytes2 ≠ asBytes "siec" then throw (.err .curveNotSupported)
  let pw ← lift c.secretTail
  let text ← lift (orErr .utf8 (fromUtf8 msg.bytes))
  let q ← lift (orErr .json (X.keyFromJson text))
  let key ← lift (orPake
    (X.update (X.newPake .reciever (some pw) (W.seed s.sent.length)) q))
  let salt := W.salt s.sent.length
  modify fun s => { s with key := some key }
  send W (pakeMessage key salt.toList)
  return salt

/-- The receiver's half of `process_key_exchange`: it takes the answer and returns its salt. -/
def takeKey (msg : PakeMessage) : Proc X (Block 8) := do
  let s ← get
  match s.key with
  | none => throw (.err .curveNotInitialized)
  | some key =>
    let q ← lift (orErr .json (X.keyFromSlice msg.bytes))
    let key ← lift (orPake (X.update key q))
    modify fun s => { s with key := some key }
    lift (orErr .sliceLength (tryInto 8 msg.bytes2))

/-- `self.key.as_ref().unwrap().k.unwrap()` -/
def sessionKey (s : Session X) : Except Halt (Block 32) :=
  match s.key.bind X.pakeKey with
  | some k => .ok k
  | none => .error (.panic .keyUnwrap)

/-- The part of `process_key_exchange` that differs between the ends. -/
def agreeKey (msg : PakeMessage) : Proc X (Block 8) :=
  if c.isSender then answerKey W c msg else takeKey msg

/-- The rest of `process_key_exchange`. -/
def enterSession (salt : Block 8) : Proc X Unit := do
  let s ← get
  let key ← lift (sessionKey s)
  let enc : EncryptedSession := ⟨AesEncryptor.new X key (some salt) salt⟩
  modify fun s => { s with encryptedSession := some enc }
  if c.isSender then pure () else send W (.externalIP ⟨c.externalIp⟩)
  modify fun s => { s with state := .ipExchange }

def processKeyExchange (msg : PakeMessage) : Proc X Unit := do
  let salt ← agreeKey W c msg
  enterSession W c salt

/-- `start_fs_task` with the session that the key exchange has left. -/
def startFsTask : Proc X Unit :=
  modify fun s =>
    match s.encryptedSession with
    | some enc =>
      { s with rw := some ⟨s.readers.length, enc⟩, readers := s.readers ++ [⟨enc, [], false⟩] }
    | none => s

def processIpExchange (msg : ExternalIPMessage) : Proc X Unit := do
  let s ← get
  if s.state ≠ .ipExchange then throw (.err .invalidState)
  if c.isSender then send W (.externalIP ⟨c.externalIp⟩) else pure ()
  modify fun s =>
    { s with peerExternalIp := some msg.externalIp, state := .fileInfoTransfare }

/-- `FileInfo::create_folder` -/
def createFolder (file : FileInfo) : Proc X Unit := do
  let n ← osCall
  let path ← lift (orErr .io (W.os.canonicalize n file.remoteFolder))
  osTry W.os.currentDir
  if ¬ W.os.cwd <+: path then
    match path.text with
    | some text => throw (.err (.traversalError text))
    | none => throw (.panic .pathUnwrap)
  let n ← osCall
  if W.os.pathExists n path then
    let yes ← ask W .prompt (.overwrite path)
    if yes then pure () else throw (.err .overwriteDenide)
  modify fun s => { s with ops := s.ops ++ [.createDir file path] }
  osTry fun n => W.os.createDir n path

/-- `FilesInformation::create_empty_folders` -/
def createEmptyFolders (files : FilesInformation) : Proc X Unit :=
  forEach (createFolder W) (files.emptyFoldersToTransfare.getD [])

def processFilesInfo (files : FilesInformation) : Proc X Unit := do
  if c.isSender then throw (.panic .assertReceiver)
  let s ← get
  if s.state ≠ .fileInfoTransfare then throw (.err .invalidState)
  modify fun s => { s with filesToReceive := some files }
  let total ← lift (orErr .join (files.totalSize W.overflowChecks))
  let confirmed ← ask W .join (.receive files.totalItems total)
  if ¬ confirmed then
    send W (.typeError ⟨"refusing files"⟩)
    throw (.err .transfareDenied)
  createEmptyFolders W files
  if files.filesToTransfare.isNone then
    send W .finished
    modify fun s => { s with state := .fileTransfared }
  else modify fun s => { s with state := .fileTransfare }

/-- `send_file` up to its loop: the chunks that it hands to the reader task. -/
def sendFile (msg : RemoteFileRequest) (files : FilesInformation) :
    Proc X (List FileChunkInfo) := do
  let s ← get
  if ¬ c.isSender then throw (.panic .assertSender)
  if s.state ≠ .fileTransfare then throw (.panic .assertFileTransfare)
  match files.filesToTransfare with
  | none => return []
  | some list =>
    let index := msg.filesToTransferCurrentNum.toUInt64.toNat
    match list[index]? with
    | none => throw (.panic .fileIndex)
    | some currentFile =>
      let n ← osCall
      let size ← lift (orErr .io
        (W.os.openLen n (Path.join currentFile.sourceFolder currentFile.name)))
      return chunkPlan index size

/-- The part of the message loop after the `match`: the sender offers its files, the receiver
enters its file loop. -/
def afterMessage : Proc X Phase := do
  let s ← get
  if c.isSender then
    if s.state = .fileInfoTransfare then
      match c.files with
      | none => throw (.panic .filesUnwrap)
      | some files =>
        send W (.filesInfo files)
        modify fun s => { s with state := .fileTransfare }
    return .recv
  else if s.state = .fileTransfare then
    match s.toReceive with
    | none => throw (.panic .receiveUnwrap)
    | some _ =>
      modify fun s => { s with dests := [] }
      return .nextFile 0
  else return .recv

/-- One round of the message loop. -/
def onMessage : Message → Proc X Phase
  | .pake msg => do
    processKeyExchange W c msg
    startFsTask
    afterMessage W c
  | .externalIP msg => do
    processIpExchange W c msg
    afterMessage W c
  | .finished => do
    send W .finished
    return .ended (.ok ())
  | .filesInfo files => do
    processFilesInfo W c files
    afterMessage W c
  | .typeRecipientReady msg => do
    let s ← get
    match s.rw with
    | none => throw (.panic .todoSendWithoutKey)
    | some rw =>
      match c.files with
      | none => throw (.panic .filesUnwrap)
      | some files =>
        let jobs ← sendFile W c msg files
        return .sending rw jobs
  | .typeError _ => throw (.panic .todoTypeError)

/-- `send_file` hands over one chunk. -/
def handChunk (rw : FsInterface) (job : FileChunkInfo) : Proc X Unit := do
  let s ← get
  if s.readers[rw.id]?.all ReaderTask.ended then throw (.err .channelClosed)
  modify fun s =>
    { s with readers := s.readers.modify rw.id fun r => { r with queue := r.queue ++ [job] } }

/-- `Message::TypeRecipientReady` as the receive loop fills it in. -/
def fileRequest (index : ℕ) : Message := .typeRecipientReady ⟨[], Int64.ofNat index, ""⟩

/-- `File::create`, which truncates, and `set_len`. -/
def createFile (file : FileInfo) (loc : Location) : Proc X Unit := do
  modify fun s => { s with ops := s.ops ++ [.createFile file loc] }
  osTry fun n => W.os.create n loc
  modify fun s =>
    { s with disk := Function.update s.disk loc [], dests := s.dests ++ [loc] }
  let size := file.size.toUInt64.toNat
  osTry fun n => W.os.setLen n loc size
  modify fun s => { s with disk := Function.update s.disk loc (List.replicate size 0) }

/-- The head of the file loop: create the next file and request it, or finish. -/
def requestFile (index : ℕ) : Proc X Phase := do
  let s ← get
  match s.toReceive.bind (·[index]?) with
  | none =>
    send W .finished
    return .recv
  | some file =>
    let n ← osCall
    let loc := W.os.locate n (Path.join file.remoteFolder file.name)
    createFile W file loc
    send W (fileRequest index)
    return .chunks index loc (totalChunks file) []

/-- The next step of `process_client` where it does not wait for the peer. -/
def proceed (s : Session X) : Option (Proc X Phase) :=
  match s.phase with
  | .recv | .ended _ => none
  | .sending rw jobs =>
    match jobs with
    | [] => some (afterMessage W c)
    | job :: jobs => some do
      handChunk rw job
      return .sending rw jobs
  | .nextFile index => some (requestFile W index)
  | .chunks index _ total got =>
    if total ≤ got.length ∨ s.dataClosed then some (return .nextFile (index + 1)) else none

/-- The receive loop takes a frame and hands it to a writer task. -/
def takeChunk (index : ℕ) (loc : Location) (total : ℤ) (got : List DataFrame)
    (frame : DataFrame) : Proc X Phase := do
  let s ← get
  match s.rw with
  | none => throw (.panic .receiveWithoutKey)
  | some rw =>
    modify fun s => { s with writers := s.writers ++ [⟨rw.enc, index, loc, frame⟩] }
    return .chunks index loc total (got ++ [frame])

/-- `process_client` up to its message loop. -/
def start : Proc X Phase := do
  let _ ← lift (orErr .noRelayPort c.relayPorts.head?)
  if (asBytes c.sharedSecret).length < 5 then throw (.panic .secretSlice)
  match W.connectError with
  | some e => throw (.err e)
  | none => pure ()
  if c.isSender then pure ()
  else
    let pw ← lift c.secretTail
    let key := X.newPake .sender (some pw) (W.seed 0)
    modify fun s => { s with key := some key }
    send W (pakeMessage key (asBytes "siec"))
  return .recv

end Handlers

/-- Run a part of `process_client`; an error or a panic ends it. -/
def run (x : Proc X Phase) (s : Session X) : Session X :=
  match x s with
  | .ok phase t => { t with phase := phase }
  | .error h t => { t with phase := .ended (.error h) }

/-- A step of the tasks that the session has started. -/
def stepTask (W : World) (c : Setup) (s : Session X) : Task → Option (Session X)
  | .tick => (proceed W c s).map fun x => run x s
  | .read id data =>
    match s.readers[id]? with
    | some ⟨enc, job :: queue, false⟩ =>
      if data.length = job.chunkSize then
        some { s with
          readers := s.readers.set id ⟨enc, queue, false⟩
          encrypting := s.encrypting ++ [⟨enc, job.file, chunkBuffer job.chunkOffset data⟩] }
      else none
    | _ => none
  | .readFailed id =>
    match s.readers[id]? with
    | some ⟨enc, _ :: _, false⟩ =>
      some { s with readers := s.readers.set id ⟨enc, [], true⟩ }
    | _ => none
  | .encrypt k nonce => (s.encrypting[k]?).map fun job =>
      let s := { s with encrypting := s.encrypting.eraseIdx k }
      match job.enc.write X nonce job.buffer with
      | .ok payload => { s with dataSent := s.dataSent ++ [⟨payload, some job.file⟩] }
      | .error _ => s
  | .encryptFailed k =>
    (s.encrypting[k]?).map fun _ => { s with encrypting := s.encrypting.eraseIdx k }
  | .write k done => (s.writers[k]?).map fun job =>
      let s := { s with writers := s.writers.eraseIdx k }
      match openChunk X job.enc job.frame.payload with
      | .ok (offset, data) => s.putChunk job offset (data.take done)
      | .error _ => s

def step (W : World) (c : Setup) (s : Session X) : Event → Option (Session X)
  | .message m =>
    match s.phase with
    | .recv => some (run (onMessage W c m) s)
    | _ => none
  | .recvFailed e =>
    match s.phase with
    | .recv => some { s with phase := .ended (.error (.err e)) }
    | _ => none
  | .chunk frame =>
    match s.phase with
    | .chunks index loc total got =>
      if (got.length : ℤ) < total ∧ ¬ s.dataClosed then
        some (run (takeChunk index loc total got frame) s)
      else none
    | _ => none
  | .dataClosed => some { s with dataClosed := true }
  | .task t => stepTask W c s t

def init (X : External) (W : World) (c : Setup) : Session X := run (start W c) (new W)

/-- One session: `process_client` and its tasks, with an arbitrary peer. -/
def machine (X : External) (W : World) (c : Setup) : Machine (Session X) Event where
  init := init X W c
  step := step W c

end Session
end Croc
