import Croc.Session.Opening

/-! The two ends of an honest session in the file loop: one supplies chunks, the other collects
them. -/
namespace Croc
open Lib

/-- A chunk that fits in the buffer, at an offset of eight bytes. -/
def FileChunkInfo.Small (job : FileChunkInfo) : Prop :=
  job.chunkSize ≤ tcpBufferSize ∧ job.chunkOffset < 256 ^ 8

theorem small_of_mem_chunkPlan {file size : ℕ} (hsize : size < 2 ^ 63) {job : FileChunkInfo}
    (h : job ∈ chunkPlan file size) : job.Small := by
  obtain ⟨k, hk, rfl⟩ := List.mem_map.mp h
  have hlt : k * tcpBufferSize < size := (lt_pieceCount (by decide)).mp (List.mem_range.mp hk)
  refine ⟨?_, by dsimp only; omega⟩
  dsimp only
  split <;> omega

/-- A frame that can be opened. -/
def DataFrame.Opens (X : External) (enc : EncryptedSession) (frame : DataFrame) : Prop :=
  ∃ chunk, openChunk X enc frame.payload = .ok chunk

/-- A chunk of a file with its offset in front. -/
def IsPacked (buffer : Bytes) : Prop :=
  ∃ offset chunk, offset < 256 ^ 8 ∧ chunk.length ≤ tcpBufferSize ∧
    buffer = chunkBuffer offset chunk

/-- A chunk can be sealed, and the other end opens it. -/
theorem IsPacked.exists_sealed {X : External} (hX : X.DecryptInverts) (hW : X.WritesShort)
    {buffer : Bytes} (h : IsPacked buffer) (enc : EncryptedSession) (nonce : Block 12) :
    ∃ payload, enc.write X nonce buffer = .ok payload ∧
      ∀ origin, DataFrame.Opens X enc ⟨payload, origin⟩ := by
  obtain ⟨offset, chunk, hoff, hlen, rfl⟩ := h
  have hshort : (chunkBuffer offset chunk).length < 2 ^ 32 := by
    rw [chunkBuffer, List.length_append, leBytes_length]
    unfold tcpBufferSize at hlen
    omega
  obtain ⟨payload, hw, -⟩ := enc.exists_write hW nonce hshort
  have hdec := AesEncryptor.decrypt_encrypt hX hw
  exact ⟨payload, hw, fun _ => ⟨_, openChunk_of_decrypt hoff hdec⟩⟩

namespace Session
variable {X : External} {W : World} {c : Setup} {s t : Session X} {enc : EncryptedSession}

/-- Where a sender is in the file loop. -/
inductive Serving (enc : EncryptedSession) : Phase → Prop
  | recv : Serving enc .recv
  | sending (jobs : List FileChunkInfo) (h : ∀ job ∈ jobs, job.Small) :
    Serving enc (.sending ⟨0, enc⟩ jobs)
  | ended : Serving enc (.ended (.ok ()))

/-- A sender in the file loop, with one reader task. -/
structure Supplies (enc : EncryptedSession) (s : Session X) : Prop where
  state : s.state = .fileTransfare
  rw : s.rw = some ⟨0, enc⟩
  phase : Serving enc s.phase
  reader : ∃ queue, s.readers = [⟨enc, queue, false⟩] ∧ ∀ job ∈ queue, job.Small
  encrypting : ∀ job ∈ s.encrypting, job.enc = enc ∧ IsPacked job.buffer
  writers : s.writers = []
  opens : ∀ frame ∈ s.dataSent, frame.Opens X enc

/-- The sender passes chunks on, and loses none. -/
structure Passes (s t : Session X) : Prop where
  sent : t.sent = s.sent
  ended : t.phase = .ended (.ok ()) ↔ s.phase = .ended (.ok ())
  moved : ∃ l, t.dataSent = s.dataSent ++ l ∧ t.held + origins l = s.held

theorem Passes.of_held (hs : t.sent = s.sent)
    (ho : t.phase = .ended (.ok ()) ↔ s.phase = .ended (.ok ())) (hd : t.dataSent = s.dataSent)
    (hh : t.held = s.held) : Passes s t :=
  ⟨hs, ho, [], by rw [hd, List.append_nil], by rw [origins_nil, add_zero, hh]⟩

theorem held_of_reader {queue jobs : List FileChunkInfo}
    (hr : s.readers = [⟨enc, queue, false⟩]) (hj : s.phase.jobs = jobs) :
    s.held = sources jobs + sources queue + s.sealing := by
  unfold held queued
  rw [hr, hj]
  simp

/-- The loop of `send_file` hands its chunks over and goes back to the messages. -/
theorem Supplies.tick (h : Supplies enc s) (hs : c.isSender = true)
    (he : stepTask W c s .tick = some t) : Supplies enc t ∧ Passes s t := by
  obtain ⟨queue, hr, hqueue⟩ := h.reader
  have hph := h.phase
  obtain ⟨x, hx, rfl⟩ := Option.map_eq_some_iff.mp he
  rcases proceed_cases hx with ⟨rw, hp, rfl⟩ | ⟨rw, job, jobs, hp, rfl⟩ | ⟨_, hp, -⟩ |
    ⟨_, _, _, _, hp, -⟩
  · rw [run_eq_of_post (afterMessage_sender_ok hs h.state)]
    refine ⟨⟨h.state, h.rw, .recv, h.reader, h.encrypting, h.writers, h.opens⟩,
      .of_held rfl (by simp [hp]) rfl ?_⟩
    have hjobs : s.phase.jobs = [] := by rw [hp]; rfl
    rw [held_of_reader hr hjobs]
    exact held_of_reader hr rfl
  · rw [hp] at hph
    cases hph with
    | sending _ hsmall =>
      rw [List.forall_mem_cons] at hsmall
      have hrun : run (do handChunk ⟨0, enc⟩ job; return .sending ⟨0, enc⟩ jobs) s =
          { s with
            readers := [⟨enc, queue ++ [job], false⟩]
            phase := .sending ⟨0, enc⟩ jobs } := by
        apply run_eq_of_post (t := { s with readers := [⟨enc, queue ++ [job], false⟩] })
        exact post_bind.mpr ((handChunk_ok job hr).mono (fun _ t ht => ⟨rfl, ht⟩) fun _ _ hf => hf)
      rw [hrun]
      refine ⟨⟨h.state, h.rw, .sending jobs hsmall.2, ⟨_, rfl, ?_⟩, h.encrypting, h.writers,
        h.opens⟩, .of_held rfl (by simp [hp]) rfl ?_⟩
      · rw [List.forall_mem_append, List.forall_mem_singleton]
        exact ⟨hqueue, hsmall.1⟩
      · have hjobs : s.phase.jobs = job :: jobs := by rw [hp]; rfl
        have hone : sources [job] = {some job.file} := rfl
        rw [held_of_reader hr hjobs, sources_cons, add_comm {some job.file},
          add_assoc (sources jobs), ← hone, add_comm (sources [job]), ← sources_append]
        exact held_of_reader rfl rfl
  · rw [hp] at hph
    cases hph
  · rw [hp] at hph
    cases hph

/-- The reader task reads a chunk. -/
theorem Supplies.read (h : Supplies enc s) {id : ℕ} {data : Bytes}
    (he : stepTask W c s (.read id data) = some t) : Supplies enc t ∧ Passes s t := by
  obtain ⟨queue, hr, hqueue⟩ := h.reader
  cases id with
  | succ id => simp [stepTask, hr] at he
  | zero =>
    cases queue with
    | nil => simp [stepTask, hr] at he
    | cons job queue =>
      rw [List.forall_mem_cons] at hqueue
      by_cases hd : data.length = job.chunkSize
      · have ht : t = { s with
            readers := [⟨enc, queue, false⟩]
            encrypting :=
              s.encrypting ++ [⟨enc, job.file, chunkBuffer job.chunkOffset data⟩] } := by
          simpa [stepTask, hr, hd, eq_comm] using he
        have hread : t.readers = [⟨enc, queue, false⟩] := by rw [ht]
        have hjobs : t.phase.jobs = s.phase.jobs := by rw [ht]
        have hsealing : t.sealing = s.sealing + {some job.file} := by
          rw [ht, sealing, List.map_append, ← Multiset.coe_add]
          rfl
        have hheld : t.held = s.held := by
          rw [held_of_reader hread hjobs, held_of_reader hr rfl, hsealing, sources_cons]
          abel
        subst ht
        refine ⟨⟨h.state, h.rw, h.phase, ⟨queue, rfl, hqueue.2⟩, ?_, h.writers, h.opens⟩,
          .of_held rfl Iff.rfl rfl hheld⟩
        rw [List.forall_mem_append, List.forall_mem_singleton]
        exact ⟨h.encrypting, rfl, job.chunkOffset, data, hqueue.1.2, hd.trans_le hqueue.1.1, rfl⟩
      · simp [stepTask, hr, hd] at he

/-- A spawned task seals its chunk and sends it. -/
theorem Supplies.encrypt (hX : X.DecryptInverts) (hW : X.WritesShort) (h : Supplies enc s) {k : ℕ}
    {nonce : Block 12} (he : stepTask W c s (.encrypt k nonce) = some t) :
    Supplies enc t ∧ Passes s t := by
  obtain ⟨job, hjob, rfl⟩ := Option.map_eq_some_iff.mp he
  obtain ⟨rfl, hchunk⟩ := h.encrypting job (List.mem_of_getElem? hjob)
  obtain ⟨payload, hw, hopens⟩ := hchunk.exists_sealed hX hW job.enc nonce
  simp only [hw]
  refine ⟨⟨h.state, h.rw, h.phase, h.reader, fun job' hj =>
    h.encrypting job' (List.mem_of_mem_eraseIdx hj), h.writers, ?_⟩, rfl, Iff.rfl, _, rfl, ?_⟩
  · rw [List.forall_mem_append, List.forall_mem_singleton]
    exact ⟨h.opens, hopens _⟩
  · conv_rhs =>
      rw [held, sealing_eraseIdx hjob, ← Multiset.singleton_add, add_comm {some job.file},
        ← add_assoc]
    rfl

/-- The sender and its tasks pass every chunk on. -/
theorem Supplies.task (hX : X.DecryptInverts) (hW : X.WritesShort) (h : Supplies enc s)
    (hs : c.isSender = true) {e : Task} (hok : e.Succeeds) (he : stepTask W c s e = some t) :
    Supplies enc t ∧ Passes s t := by
  cases e with
  | tick => exact h.tick hs he
  | read => exact h.read he
  | readFailed => exact hok.elim
  | encrypt => exact h.encrypt hX hW he
  | encryptFailed => exact hok.elim
  | write => simp [stepTask, h.writers] at he

/-- The loop of `send_file` does not wait. -/
theorem sending_progress {rw : FsInterface} {jobs : List FileChunkInfo}
    (hp : s.phase = .sending rw jobs) : (stepTask W c s .tick).isSome := by
  cases jobs <;> simp [stepTask, proceed, hp]

/-- A sender that still has chunks has something to do. -/
theorem Supplies.progress (h : Supplies enc s) (hheld : s.held ≠ 0) :
    ∃ e, e.Succeeds ∧ (stepTask W c s e).isSome := by
  obtain ⟨queue, hr, -⟩ := h.reader
  cases hp : s.phase with
  | sending rw jobs => exact ⟨.tick, trivial, sending_progress hp⟩
  | recv | nextFile | chunks | ended =>
    have hjobs : s.phase.jobs = [] := by rw [hp]; rfl
    cases queue with
    | cons job queue =>
      exact ⟨.read 0 (List.replicate job.chunkSize 0), trivial, by simp [stepTask, hr]⟩
    | nil =>
      cases henc : s.encrypting with
      | cons job jobs =>
        exact ⟨.encrypt 0 (External.padBlock 12 []), trivial, by simp [stepTask, henc]⟩
      | nil =>
        rw [held_of_reader hr hjobs, sealing, henc] at hheld
        exact absurd rfl hheld

/-- A request adds the chunks of its file. -/
theorem Supplies.request {files : FilesInformation} {list : List FileInfo} {file : FileInfo}
    {i size : ℕ} (h : Supplies enc s) (hp : s.phase = .recv) (hs : c.isSender = true)
    (hf : c.files = some files) (hl : files.filesToTransfare = some list) (hi : i < 2 ^ 63)
    (hfile : list[i]? = some file)
    (hsize : ∀ n, W.os.openLen n (Path.join file.sourceFolder file.name) = some size)
    (hlt : size < 2 ^ 63) (ht : run (onMessage W c (fileRequest i)) s = t) :
    Supplies enc t ∧ t.sent = s.sent ∧ t.dataSent = s.dataSent ∧ t.phase ≠ .ended (.ok ()) ∧
      t.held = s.held + Multiset.replicate (pieceCount tcpBufferSize size) (some i) := by
  obtain ⟨queue, hr, -⟩ := h.reader
  have hjobs : s.phase.jobs = [] := by rw [hp]; rfl
  have hrun := run_eq_of_post (onRequest_ok hs h.state h.rw hf hl hi hfile hsize)
  have hplan : t.phase.jobs = chunkPlan i size := by rw [← ht, hrun, Phase.jobs_sending]
  obtain rfl := hrun.symm.trans ht
  refine ⟨⟨h.state, h.rw, .sending _ fun job hjob => small_of_mem_chunkPlan hlt hjob, h.reader,
    h.encrypting, h.writers, h.opens⟩, rfl, rfl, by simp, ?_⟩
  rw [held_of_reader hr hjobs, sources_nil, zero_add, add_comm (sources queue + _),
    ← sources_chunkPlan, ← add_assoc]
  exact held_of_reader hr hplan

/-- `Finished` ends the session of a sender. -/
theorem Supplies.finished (hsend : ∀ n, W.sendError n = none) (h : Supplies enc s)
    (hp : s.phase = .recv) (ht : run (onMessage W c .finished) s = t) :
    Supplies enc t ∧ t.sent = s.sent ++ [.finished] ∧ t.dataSent = s.dataSent ∧
      t.phase = .ended (.ok ()) ∧ t.held = s.held := by
  obtain ⟨queue, hr, -⟩ := h.reader
  have hjobs : s.phase.jobs = [] := by rw [hp]; rfl
  rw [run_eq_of_post (onFinished_ok hsend)] at ht
  subst ht
  refine ⟨⟨h.state, h.rw, .ended, h.reader, h.encrypting, h.writers, h.opens⟩, rfl, rfl, rfl, ?_⟩
  rw [held_of_reader hr hjobs]
  exact held_of_reader hr rfl

/-- A receiver in the file loop; what it has been given opens. -/
structure Collects (enc : EncryptedSession) (list : List FileInfo) (s : Session X) : Prop where
  rw : s.rw = some ⟨0, enc⟩
  files : s.toReceive = some list
  readers : ∀ r ∈ s.readers, r.queue = []
  encrypting : s.encrypting = []
  dataClosed : s.dataClosed = false
  opens : ∀ job ∈ s.writers, job.enc = enc ∧ job.frame.Opens X enc

section Collecting
variable {list : List FileInfo}

/-- Of the tasks of a receiver only the writer tasks move, and they leave its loop alone. -/
theorem Collects.task (h : Collects enc list s) {e : Task} (hne : e ≠ .tick) (hok : e.Succeeds)
    (he : stepTask W c s e = some t) :
    Collects enc list t ∧ t.phase = s.phase ∧ t.sent = s.sent := by
  cases e with
  | tick => exact absurd rfl hne
  | read id data => simp [stepTask_read_none h.readers] at he
  | readFailed => exact hok.elim
  | encrypt => simp [stepTask, h.encrypting] at he
  | encryptFailed => exact hok.elim
  | write k done =>
    have hopens : ∀ job ∈ s.writers.eraseIdx k, job.enc = enc ∧ job.frame.Opens X enc :=
      fun job hjob => h.opens job (List.mem_of_mem_eraseIdx hjob)
    have hkeep : ∀ written disk, Collects enc list
        { s with writers := s.writers.eraseIdx k, written := written, disk := disk } :=
      fun _ _ => ⟨h.rw, h.files, h.readers, h.encrypting, h.dataClosed, hopens⟩
    obtain ⟨job, -, rfl⟩ := Option.map_eq_some_iff.mp he
    dsimp only
    split
    · exact ⟨hkeep _ _, rfl, rfl⟩
    · exact ⟨hkeep _ _, rfl, rfl⟩

/-- The next file is requested. -/
theorem Collects.ask (hsend : ∀ n, W.sendError n = none)
    (hcreate : ∀ n loc, W.os.create n loc = true)
    (hlen : ∀ n loc size, W.os.setLen n loc size = true) (h : Collects enc list s) {i : ℕ}
    {file : FileInfo} (hfile : list[i]? = some file) (ht : run (requestFile W i) s = t) :
    Collects enc list t ∧ t.sent = s.sent ++ [fileRequest i] ∧
      ∃ loc, t.phase = .chunks i loc (totalChunks file) [] := by
  have hnext : s.toReceive.bind (·[i]?) = some file := by rw [h.files, Option.bind_some, hfile]
  obtain ⟨p, u, hu, loc, disk, rfl, rfl⟩ | ⟨-, -, -, hf⟩ :=
    run_cases (requestFile_ok hsend hnext hcreate hlen)
  · obtain rfl := hu.symm.trans ht
    exact ⟨⟨h.rw, h.files, h.readers, h.encrypting, h.dataClosed, h.opens⟩, rfl, loc, rfl⟩
  · exact hf.elim

/-- After the last file the receiver says so. -/
theorem Collects.finish (hsend : ∀ n, W.sendError n = none) (h : Collects enc list s)
    (ht : run (requestFile W list.length) s = t) :
    Collects enc list t ∧ t.sent = s.sent ++ [.finished] ∧ t.phase = .recv := by
  have hnone : s.toReceive.bind (·[list.length]?) = none := by
    rw [h.files, Option.bind_some, List.getElem?_eq_none le_rfl]
  obtain rfl := (run_eq_of_post (requestFile_last hsend hnone)).symm.trans ht
  exact ⟨⟨h.rw, h.files, h.readers, h.encrypting, h.dataClosed, h.opens⟩, rfl, rfl⟩

/-- A frame is counted. -/
theorem Collects.take (h : Collects enc list s) {i : ℕ} {loc : Location} {total : ℤ}
    {got : List DataFrame} {frame : DataFrame} (ho : frame.Opens X enc)
    (ht : run (takeChunk i loc total got frame) s = t) :
    Collects enc list t ∧ t.sent = s.sent ∧ t.phase = .chunks i loc total (got ++ [frame]) := by
  obtain rfl := (run_eq_of_post (takeChunk_ok h.rw i loc total got frame)).symm.trans ht
  refine ⟨⟨h.rw, h.files, h.readers, h.encrypting, h.dataClosed, ?_⟩, rfl, rfl⟩
  rw [List.forall_mem_append, List.forall_mem_singleton]
  exact ⟨h.opens, rfl, ho⟩

theorem Collects.finished (hsend : ∀ n, W.sendError n = none) (h : Collects enc list s)
    (ht : run (onMessage W c .finished) s = t) :
    Collects enc list t ∧ t.sent = s.sent ++ [.finished] ∧ t.phase = .ended (.ok ()) := by
  obtain rfl := (run_eq_of_post (onFinished_ok hsend)).symm.trans ht
  exact ⟨⟨h.rw, h.files, h.readers, h.encrypting, h.dataClosed, h.opens⟩, rfl, rfl⟩

/-- The loop moves on to another place without doing anything. -/
theorem Collects.move (h : Collects enc list s) (p : Phase) :
    Collects enc list { s with phase := p } :=
  ⟨h.rw, h.files, h.readers, h.encrypting, h.dataClosed, h.opens⟩

end Collecting
end Session
end Croc
