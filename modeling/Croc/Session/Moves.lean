import Croc.Session.Agreement

/-! An honest session after the offer, step by step, and the work that each step takes off. -/
namespace Croc
open Lib
namespace Pair
open Session
variable {X : External} {M : Meeting} {p p' : Pair X} {enc : EncryptedSession}
  {files : FilesInformation} {list : List FileInfo} {hello : List Message} {q : ℕ}
  {seen : List (ℕ × DataFrame)}

/-- What the steps of an honest session do. -/
inductive Move (M : Meeting) (enc : EncryptedSession) (list : List FileInfo)
    (hello : List Message) (p : Pair X) : Event → Pair X → Prop
  /-- All chunks of a file have been handed over. -/
  | back (hp : p.sender.phase = .sending ⟨0, enc⟩ []) :
      Move M enc list hello p (.sender .tick) { p with sender := { p.sender with phase := .recv } }
  | hand {job : FileChunkInfo} {jobs queue : List FileChunkInfo}
      (hp : p.sender.phase = .sending ⟨0, enc⟩ (job :: jobs))
      (hr : p.sender.readers = [⟨enc, queue, false⟩]) :
      Move M enc list hello p (.sender .tick) { p with sender := { p.sender with
        readers := [⟨enc, queue ++ [job], false⟩]
        phase := .sending ⟨0, enc⟩ jobs } }
  | read {job : FileChunkInfo} {queue : List FileChunkInfo} {data : Bytes}
      (hr : p.sender.readers = [⟨enc, job :: queue, false⟩]) (hd : data.length = job.chunkSize) :
      Move M enc list hello p (.sender (.read 0 data)) { p with sender := { p.sender with
        readers := [⟨enc, queue, false⟩]
        encrypting := p.sender.encrypting ++
          [⟨enc, job.file, chunkBuffer job.chunkOffset data⟩] } }
  | encrypt {k : ℕ} {nonce : Block 12} {job : EncryptJob} {payload : Bytes}
      (hjob : p.sender.encrypting[k]? = some job)
      (hw : enc.write X nonce job.buffer = .ok payload) :
      Move M enc list hello p (.sender (.encrypt k nonce)) { p with
        sender := { p.sender with
          encrypting := p.sender.encrypting.eraseIdx k
          dataSent := p.sender.dataSent ++ [⟨payload, some job.file⟩] }
        inFlight := p.inFlight ++ [⟨payload, some job.file⟩] }
  | request {i : ℕ} {file : FileInfo} (hp : p.sender.phase = .recv) (hfile : list[i]? = some file)
      (hm : p.receiver.sent[p.toSender]? = some (fileRequest i))
      (ht : p.toSender = hello.length + i) :
      Move M enc list hello p .toSender { p with
        sender := { p.sender with
          calls := p.sender.calls + 1
          phase := .sending ⟨0, enc⟩ (chunkPlan i file.size.toInt.toNat) }
        toSender := p.toSender + 1 }
  | last (hp : p.sender.phase = .recv) (hm : p.receiver.sent[p.toSender]? = some .finished)
      (ht : p.toSender = hello.length + list.length) :
      Move M enc list hello p .toSender { p with
        sender := { p.sender with
          sent := p.sender.sent ++ [.finished]
          phase := .ended (.ok ()) }
        toSender := p.toSender + 1 }
  | create {i : ℕ} {file : FileInfo} {loc : Location} (hp : p.receiver.phase = .nextFile i)
      (hfile : list[i]? = some file)
      (hloc : loc = M.receiverWorld.os.locate p.receiver.calls
        (Path.join file.remoteFolder file.name))
      (hd : p.toSender ≤ p.receiver.sent.length) :
      Move M enc list hello p (.receiver .tick) { p with receiver := { p.receiver with
        sent := p.receiver.sent ++ [fileRequest i]
        ops := p.receiver.ops ++ [.createFile file loc]
        calls := p.receiver.calls + 3
        dests := p.receiver.dests ++ [loc]
        disk := Function.update p.receiver.disk loc (List.replicate file.size.toUInt64.toNat 0)
        phase := .chunks i loc (totalChunks file) [] } }
  | finish (hp : p.receiver.phase = .nextFile list.length) :
      Move M enc list hello p (.receiver .tick) { p with receiver := { p.receiver with
        sent := p.receiver.sent ++ [.finished]
        phase := .recv } }
  | leave {i : ℕ} {loc : Location} {total : ℤ} {got : List DataFrame}
      (hp : p.receiver.phase = .chunks i loc total got) :
      Move M enc list hello p (.receiver .tick) { p with receiver := { p.receiver with
        phase := .nextFile (i + 1) } }
  | write {k done : ℕ} {job : WriteJob} {offset : ℕ} {data : Bytes}
      (hjob : p.receiver.writers[k]? = some job)
      (ho : openChunk X job.enc job.frame.payload = .ok (offset, data)) :
      Move M enc list hello p (.receiver (.write k done)) { p with
        receiver := { p.receiver with writers := p.receiver.writers.eraseIdx k }.putChunk job offset
          (data.take done) }
  | deliver {k i : ℕ} {frame : DataFrame} {loc : Location} {total : ℤ} {got : List DataFrame}
      (hp : p.receiver.phase = .chunks i loc total got) (hk : p.inFlight[k]? = some frame)
      (ho : frame.origin = some i) :
      Move M enc list hello p (.deliver k) { p with
        receiver := { p.receiver with
          writers := p.receiver.writers ++ [⟨enc, i, loc, frame⟩]
          phase := .chunks i loc total (got ++ [frame]) }
        inFlight := p.inFlight.eraseIdx k }
  | answer (hp : p.receiver.phase = .recv)
      (hm : p.sender.sent[p.toReceiver]? = some .finished) :
      Move M enc list hello p .toReceiver { p with
        receiver := { p.receiver with
          sent := p.receiver.sent ++ [.finished]
          phase := .ended (.ok ()) }
        toReceiver := p.toReceiver + 1 }

section Inversion

/-- What the sender hears after its offer, and when. -/
theorem Serves.hears_cases (h : Serves enc list hello q p seen) {m : Message}
    (hm : p.receiver.sent[p.toSender]? = some m) (hp : p.sender.phase = .recv) :
    (∃ i < list.length, m = fileRequest i ∧ p.toSender = hello.length + i) ∨
      m = .finished ∧ p.toSender = hello.length + list.length := by
  cases h.talk with
  | next r hr ha | chunks r _ _ _ hr ha =>
    have hm' := hm
    rw [ha.said, ha.toSender] at hm'
    obtain ⟨hlt, rfl⟩ | ⟨-, hend⟩ := next_of_said ha.taken hm'
    · exact Or.inl ⟨q, hlt.trans_le ha.within, rfl, ha.toSender⟩
    · simp at hend
  | asked hr ha =>
    have hm' := hm
    rw [ha.said, ha.toSender] at hm'
    obtain ⟨hlt, rfl⟩ | ⟨rfl, hend⟩ := next_of_said ha.taken hm'
    · exact Or.inl ⟨q, hlt, rfl, ha.toSender⟩
    · exact Or.inr ⟨(Option.some.inj hend).symm, ha.toSender⟩
  | answered _ ha | returned _ ha => exact absurd (hp.symm.trans ha.ended) (by simp)

/-- The receiver hears only that the sender has finished. -/
theorem Serves.answered_of_hears (h : Serves enc list hello q p seen) {m : Message}
    (hm : p.sender.sent[p.toReceiver]? = some m) : m = .finished := by
  have hlt := (List.getElem?_eq_some_iff.mp hm).1
  cases h.talk with
  | next _ _ ha | chunks _ _ _ _ _ ha | asked _ ha =>
    exact absurd hlt (by rw [ha.toReceiver]; exact Nat.lt_irrefl _)
  | answered _ _ hnext => exact Option.some.inj (hm.symm.trans hnext)
  | returned _ _ hlen => omega

theorem Asking.delivered {n r : ℕ} (h : Asking n hello q r [] p) :
    p.toSender ≤ p.receiver.sent.length := by
  have htaken := h.taken
  rw [h.toSender, h.said, Pair.said, List.append_nil, List.length_append, List.length_map,
    List.length_range]
  omega

theorem Serves.move_tick (h : Serves enc list hello q p seen) {s : Session X}
    (he : p.stepSender M (.task .tick) = some s) : Move M enc list hello p (.sender .tick)
      { p with
        sender := s
        inFlight := p.inFlight ++ s.dataSent.drop p.sender.dataSent.length } := by
  obtain ⟨queue, hr, -⟩ := h.supplies.reader
  have hph := h.supplies.phase
  obtain ⟨x, hx, rfl⟩ := Option.map_eq_some_iff.mp he
  rcases proceed_cases hx with ⟨rw, hp, rfl⟩ | ⟨rw, job, jobs, hp, rfl⟩ | ⟨_, hp, -⟩ |
    ⟨_, _, _, _, hp, -⟩
  · rw [run_eq_of_post (afterMessage_sender_ok M.isSender h.supplies.state)]
    rw [hp] at hph
    cases hph
    simpa using Move.back hp
  · rw [hp] at hph
    cases hph
    rw [run_eq_of_post (x := do handChunk ⟨0, enc⟩ job; return .sending ⟨0, enc⟩ jobs)
      (post_bind.mpr ((handChunk_ok job hr).mono (fun _ t ht => ⟨rfl, ht⟩) fun _ _ hf => hf))]
    simpa using Move.hand hp hr
  · rw [hp] at hph
    cases hph
  · rw [hp] at hph
    cases hph

theorem Serves.move_sender (hX : X.DecryptInverts) (hW : X.WritesShort)
    (h : Serves enc list hello q p seen) {t : Task} {s : Session X} (hok : t.Succeeds)
    (he : p.stepSender M (.task t) = some s) : Move M enc list hello p (.sender t)
      { p with
        sender := s
        inFlight := p.inFlight ++ s.dataSent.drop p.sender.dataSent.length } := by
  obtain ⟨queue, hr, -⟩ := h.supplies.reader
  cases t with
  | tick => exact h.move_tick he
  | read id data =>
    have he : stepTask M.senderWorld M.sender p.sender (.read id data) = some s := he
    cases id with
    | succ id => simp [stepTask, hr] at he
    | zero =>
      cases queue with
      | nil => simp [stepTask, hr] at he
      | cons job queue =>
        by_cases hd : data.length = job.chunkSize
        · simp only [stepTask, hr, List.getElem?_cons_zero, if_pos hd] at he
          obtain rfl := Option.some.inj he
          simpa using Move.read hr hd
        · simp [stepTask, hr, hd] at he
  | readFailed => exact hok.elim
  | encrypt k nonce =>
    -- a chunk can be sealed, so its task does not end without a frame
    obtain ⟨job, hjob, rfl⟩ := Option.map_eq_some_iff.mp he
    obtain ⟨rfl, hchunk⟩ := h.supplies.encrypting job (List.mem_of_getElem? hjob)
    obtain ⟨payload, hw, -⟩ := hchunk.exists_sealed hX hW job.enc nonce
    simpa [hw] using Move.encrypt hjob hw
  | encryptFailed => exact hok.elim
  | write => simp [stepSender, Session.step, stepTask, h.supplies.writers] at he

section Messages
variable (hM : M.Honest files list)
include hM

theorem Serves.move_toSender (h : Serves enc list hello q p seen) {m : Message} {s : Session X}
    (hm : p.receiver.sent[p.toSender]? = some m) (he : p.stepSender M (.message m) = some s) :
    Move M enc list hello p .toSender { p with sender := s, toSender := p.toSender + 1 } := by
  obtain ⟨hp, rfl⟩ := message_of_step he
  rcases h.hears_cases hm hp with ⟨i, hi, rfl, ht⟩ | ⟨rfl, ht⟩
  · have hfits := M.fits files hM.offer list hM.lists
    have hfile : list[i]? = some list[i] := List.getElem?_eq_getElem hi
    obtain ⟨-, hlen⟩ := hM.sizes _ (List.getElem_mem hi)
    rw [run_eq_of_post (onRequest_ok M.isSender h.supplies.state h.supplies.rw hM.offer hM.lists
      (by omega) hfile hlen)]
    exact .request hp hfile hm ht
  · rw [run_eq_of_post (onFinished_ok hM.sends.1)]
    exact .last hp hm ht

theorem Serves.move_toReceiver (h : Serves enc list hello q p seen) {m : Message} {r : Session X}
    (hm : p.sender.sent[p.toReceiver]? = some m) (he : p.stepReceiver M (.message m) = some r) :
    Move M enc list hello p .toReceiver
      { p with receiver := r, toReceiver := p.toReceiver + 1 } := by
  obtain ⟨hp, rfl⟩ := message_of_step he
  obtain rfl := h.answered_of_hears hm
  rw [run_eq_of_post (onFinished_ok hM.sends.2)]
  exact .answer hp hm

/-- The receiver creates the next file, or says that it was the last one. -/
theorem Serves.move_next (h : Serves enc list hello q p seen) {i : ℕ}
    (hp : p.receiver.phase = .nextFile i) : Move M enc list hello p (.receiver .tick)
      { p with receiver := run (requestFile M.receiverWorld i) p.receiver } := by
  have ha := h.talk.of_next hp
  rcases Nat.lt_or_eq_of_le ha.within with hlt | rfl
  · have hfile : list[i]? = some list[i] := List.getElem?_eq_getElem hlt
    have hnext : p.receiver.toReceive.bind (·[i]?) = some list[i] := by
      rw [h.collects.files, Option.bind_some, hfile]
    rcases run_cases ((requestFile_spec i).and
        (requestFile_ok hM.sends.2 hnext hM.creates.1 hM.creates.2)) with
      ⟨ph, t, hrun, ⟨hnone, -⟩ | ⟨file, loc, hfile', hloc, rfl, rfl⟩, -⟩ | ⟨-, -, -, -, hf⟩
    · simp [hnext] at hnone
    · obtain rfl := Option.some.inj (hnext.symm.trans hfile')
      rw [hrun]
      exact .create hp hfile hloc ha.delivered
    · exact hf.elim
  · have hnone : p.receiver.toReceive.bind (·[list.length]?) = none := by
      rw [h.collects.files, Option.bind_some, List.getElem?_eq_none le_rfl]
    rw [run_eq_of_post (requestFile_last hM.sends.2 hnone)]
    exact .finish hp

theorem Serves.move_receiver (h : Serves enc list hello q p seen) {t : Task} {r : Session X}
    (hok : t.Succeeds) (he : p.stepReceiver M (.task t) = some r) :
    Move M enc list hello p (.receiver t) { p with receiver := r } := by
  by_cases ht : t = .tick
  · subst ht
    obtain ⟨x, hx, rfl⟩ := Option.map_eq_some_iff.mp he
    rcases proceed_cases hx with ⟨rw, hp, -⟩ | ⟨rw, job, jobs, hp, -⟩ | ⟨i, hp, rfl⟩ |
      ⟨i, loc, total, got, hp, -, rfl⟩
    · exact (h.talk.not_sending _ _ hp).elim
    · exact (h.talk.not_sending _ _ hp).elim
    · exact h.move_next hM hp
    · exact .leave hp
  · cases t with
    | tick => exact absurd rfl ht
    | read id data =>
      have := stepTask_read_none (W := M.receiverWorld) (c := M.receiver) h.collects.readers id data
      simp [stepReceiver, Session.step, this] at he
    | readFailed => exact hok.elim
    | encrypt => simp [stepReceiver, Session.step, stepTask, h.collects.encrypting] at he
    | encryptFailed => exact hok.elim
    | write k done =>
      obtain ⟨job, hjob, rfl⟩ := Option.map_eq_some_iff.mp he
      obtain ⟨rfl, ⟨offset, data⟩, ho⟩ := h.collects.opens job (List.mem_of_getElem? hjob)
      simp only [ho]
      exact .write hjob ho

end Messages

/-- A frame that arrives is one of the file that the receiver waits for. -/
theorem Serves.move_deliver (h : Serves enc list hello q p seen) {k : ℕ} {frame : DataFrame}
    {r : Session X} (hk : p.inFlight[k]? = some frame)
    (he : p.stepReceiver M (.chunk frame) = some r) : Move M enc list hello p (.deliver k)
      { p with receiver := r, inFlight := p.inFlight.eraseIdx k } := by
  obtain ⟨i, loc, total, got, hp, -, -, rfl⟩ := chunk_of_step he
  have hbal := h.balance
  rw [hp] at hbal
  have hout : p.outstanding =
      frame.origin ::ₘ (p.sender.held + origins (p.inFlight.eraseIdx k)) := by
    unfold outstanding origins
    rw [coe_map_eraseIdx DataFrame.origin hk, Multiset.add_cons]
  rw [run_eq_of_post (takeChunk_ok h.collects.rw i loc total got frame)]
  exact .deliver hp hk (hbal.take hout).1

/-- Every step of an honest session after the offer is one of the moves. -/
theorem Serves.move (hX : X.DecryptInverts) (hW : X.WritesShort) (hM : M.Honest files list)
    (h : Serves enc list hello q p seen) {e : Event} (hok : Smooth p e)
    (he : Pair.step M p e = some p') : Move M enc list hello p e p' := by
  cases e with
  | sender t =>
    obtain ⟨s, hs, rfl⟩ := Option.map_eq_some_iff.mp he
    exact h.move_sender hX hW hok hs
  | receiver t =>
    obtain ⟨r, hr, rfl⟩ := Option.map_eq_some_iff.mp he
    exact h.move_receiver hM hok hr
  | toSender =>
    obtain ⟨m, hm, he⟩ := Option.bind_eq_some_iff.mp he
    obtain ⟨s, hs, rfl⟩ := Option.map_eq_some_iff.mp he
    exact h.move_toSender hM hm hs
  | toReceiver =>
    obtain ⟨m, hm, he⟩ := Option.bind_eq_some_iff.mp he
    obtain ⟨r, hr, rfl⟩ := Option.map_eq_some_iff.mp he
    exact h.move_toReceiver hM hm hr
  | deliver k =>
    obtain ⟨frame, hk, he⟩ := Option.bind_eq_some_iff.mp he
    obtain ⟨r, hr, rfl⟩ := Option.map_eq_some_iff.mp he
    exact h.move_deliver hk hr
  | _ => exact hok.elim

end Inversion

section Work

/-- The steps that a message to the sender still costs: a request brings each chunk of its file, and
a way back to the messages. -/
def requestWork (list : List FileInfo) : Message → ℕ
  | .typeRecipientReady msg => 5 * chunksOf list msg.filesToTransferCurrentNum.toUInt64.toNat + 2
  | _ => 0

/-- The steps that files cost: five for each chunk and four for each file. -/
def filesWork (list : List FileInfo) : ℕ :=
  (list.map fun file => 5 * pieceCount tcpBufferSize file.size.toInt.toNat + 4).sum

/-- The steps of a sender, with those of the chunks that it is about to hand over. -/
def sendingWork : Phase → ℕ
  | .recv => 1
  | .sending _ jobs => 5 * jobs.length + 2
  | .nextFile _ | .chunks .. | .ended _ => 0

/-- The steps of a receiver, with those of the files that it has yet to request. -/
def receivingWork (list : List FileInfo) : Phase → ℕ
  | .nextFile i => filesWork (list.drop i) + 2
  | .chunks i .. => filesWork (list.drop (i + 1)) + 3
  | .recv => 1
  | .sending .. | .ended _ => 0

/-- The steps that are left in an honest session. A chunk costs one step for each task on its
way. -/
def work (list : List FileInfo) (p : Pair X) : ℕ :=
  sendingWork p.sender.phase + (p.sender.readers.map fun r => 4 * r.queue.length).sum +
    3 * p.sender.encrypting.length + 2 * p.inFlight.length + p.receiver.writers.length +
    ((p.receiver.sent.drop p.toSender).map (requestWork list)).sum +
    receivingWork list p.receiver.phase

theorem requestWork_fileRequest {i : ℕ} (hi : i < 2 ^ 63) :
    requestWork list (fileRequest i) = 5 * chunksOf list i + 2 := by
  have hmod : i % 18446744073709551616 = i := Nat.mod_eq_of_lt (by omega)
  simp [requestWork, fileRequest, hmod]

theorem filesWork_drop {i : ℕ} {file : FileInfo} (h : list[i]? = some file) :
    filesWork (list.drop i) = 5 * chunksOf list i + 4 + filesWork (list.drop (i + 1)) := by
  obtain ⟨hlt, rfl⟩ := List.getElem?_eq_some_iff.mp h
  rw [List.drop_eq_getElem_cons hlt, filesWork, List.map_cons, List.sum_cons, chunksOf, h]
  rfl

/-- A message that is taken up is no longer to come. -/
theorem sum_drop_of_getElem? {m : Message} {sent : List Message} {n : ℕ}
    (h : sent[n]? = some m) : ((sent.drop n).map (requestWork list)).sum =
      requestWork list m + ((sent.drop (n + 1)).map (requestWork list)).sum := by
  obtain ⟨hlt, rfl⟩ := List.getElem?_eq_some_iff.mp h
  rw [List.drop_eq_getElem_cons hlt, List.map_cons, List.sum_cons]

/-- `Finished` asks the sender for no chunk. -/
theorem sum_drop_finished (sent : List Message) (n : ℕ) :
    (((sent ++ [Message.finished]).drop n).map (requestWork list)).sum =
      ((sent.drop n).map (requestWork list)).sum := by
  rw [List.drop_append, List.map_append, List.sum_append]
  cases n - sent.length <;> simp [requestWork]

/-- Where no work is left, no task has a chunk. -/
theorem drained_of_work (h : work list p = 0) : (∀ reader ∈ p.sender.readers, reader.queue = []) ∧
    p.sender.encrypting = [] ∧ p.inFlight = [] := by
  simp only [work, Nat.add_eq_zero_iff] at h
  obtain ⟨⟨⟨⟨⟨⟨-, hqueues⟩, hencrypting⟩, hflight⟩, -⟩, -⟩, -⟩ := h
  refine ⟨fun reader hr => ?_, ?_, ?_⟩
  · have := List.sum_eq_zero_iff.mp hqueues _ (List.mem_map_of_mem hr)
    exact List.eq_nil_of_length_eq_zero (by omega)
  · exact List.eq_nil_of_length_eq_zero (by omega)
  · exact List.eq_nil_of_length_eq_zero (by omega)

/-- Every step of an honest session takes off one unit of work. -/
theorem Move.work_eq (hfits : list.length < 2 ^ 63) {e : Event} (h : Move M enc list hello p e p') :
    work list p = work list p' + 1 := by
  cases h with
  | back hp =>
    simp only [work, hp, sendingWork, List.length_nil]
    omega
  | hand hp hr =>
    simp only [work, hp, hr, sendingWork, List.length_cons, List.length_append, List.length_nil,
      List.map_cons, List.map_nil, List.sum_cons, List.sum_nil]
    omega
  | read hr =>
    simp only [work, hr, List.length_cons, List.length_append, List.length_nil, List.map_cons,
      List.map_nil, List.sum_cons, List.sum_nil]
    omega
  | encrypt hjob =>
    have hlt := (List.getElem?_eq_some_iff.mp hjob).1
    simp only [work, List.length_eraseIdx_of_lt hlt, List.length_append, List.length_cons,
      List.length_nil]
    omega
  | @request i file hp hfile hm =>
    have hlt := (List.getElem?_eq_some_iff.mp hfile).1
    have hchunks : chunksOf list i = pieceCount tcpBufferSize file.size.toInt.toNat := by
      rw [chunksOf, hfile, Option.elim_some]
    simp only [work, hp, sendingWork, chunkPlan_length, sum_drop_of_getElem? hm,
      requestWork_fileRequest (hlt.trans hfits), hchunks]
    omega
  | last hp hm =>
    simp only [work, hp, sendingWork, sum_drop_of_getElem? hm, requestWork]
    omega
  | create hp hfile hloc hd =>
    have hlt := (List.getElem?_eq_some_iff.mp hfile).1
    simp only [work, hp, receivingWork, filesWork_drop hfile, List.drop_append_of_le_length hd,
      List.map_append, List.sum_append, List.map_cons, List.map_nil, List.sum_cons, List.sum_nil,
      requestWork_fileRequest (hlt.trans hfits)]
    omega
  | finish hp =>
    simp only [work, hp, receivingWork, sum_drop_finished, List.drop_length]
    simp [filesWork]
  | leave hp =>
    simp only [work, hp, receivingWork]
    omega
  | write hjob =>
    have hlt := (List.getElem?_eq_some_iff.mp hjob).1
    simp only [work, putChunk, List.length_eraseIdx_of_lt hlt]
    omega
  | deliver hp hk =>
    have hlt := (List.getElem?_eq_some_iff.mp hk).1
    simp only [work, hp, receivingWork, List.length_eraseIdx_of_lt hlt, List.length_append,
      List.length_cons, List.length_nil]
    omega
  | answer hp =>
    simp only [work, hp, receivingWork, sum_drop_finished]

end Work

section Runs

/-- Both ends have returned without an error, and all chunks are written. -/
structure Returned (p : Pair X) : Prop where
  sender : p.sender.phase = .ended (.ok ())
  receiver : p.receiver.phase = .ended (.ok ())
  writers : p.receiver.writers = []

/-- An honest session after the offer. A sender that has returned has heard everything. -/
def Proceeds (enc : EncryptedSession) (list : List FileInfo) (hello : List Message) (p : Pair X) :
    Prop :=
  (∃ q seen, Serves enc list hello q p seen) ∧
    (p.sender.phase = .ended (.ok ()) → hello.length + list.length < p.toSender)

theorem Serves.said_of_returned (h : Serves enc list hello q p seen)
    (hp : p.receiver.phase = .ended (.ok ())) :
    p.receiver.sent = said hello list.length [.finished, .finished] := by
  cases h.talk with
  | returned _ ha => exact ha.said
  | next _ hp' | chunks _ _ _ _ hp' | asked hp' | answered hp' => simp [hp] at hp'

/-- After the requests a receiver has said only that it has finished. -/
theorem mem_drop_said {n k : ℕ} {m : Message} (hk : hello.length + n ≤ k)
    (hm : m ∈ (said hello n [.finished, .finished]).drop k) : m = .finished := by
  have hlen : (hello ++ (List.range n).map fileRequest).length = hello.length + n := by
    rw [List.length_append, List.length_map, List.length_range]
  rw [said, List.drop_append, List.drop_eq_nil_of_le (by omega), List.nil_append] at hm
  simpa using List.mem_of_mem_drop hm

theorem Proceeds.step (hX : X.DecryptInverts) (hW : X.WritesShort) (hM : M.Honest files list)
    (h : Proceeds enc list hello p) {e : Event} (hok : Smooth p e)
    (he : Pair.step M p e = some p') :
    Proceeds enc list hello p' ∧ Move M enc list hello p e p' := by
  obtain ⟨⟨q, seen, hs⟩, hheard⟩ := h
  have hmove := hs.move hX hW hM hok he
  obtain ⟨q', hs'⟩ := hs.step hX hW hM hok he
  refine ⟨⟨⟨q', _, hs'⟩, ?_⟩, hmove⟩
  cases hmove with
  | back | hand | request => simp
  | last _ _ ht =>
    intro _
    simp only [ht]
    omega
  | read | encrypt | create | finish | leave | write | deliver | answer => exact hheard

/-- A session that has settled has returned, and has nothing left to do. -/
theorem Proceeds.settled (h : Proceeds enc list hello p) (hstuck : ¬ GoesOn M p) :
    Returned p ∧ work list p = 0 := by
  obtain ⟨⟨q, seen, hs⟩, hheard⟩ := h
  obtain ⟨hsend, hrecv⟩ := hs.progress.resolve_left hstuck
  have hwriters : p.receiver.writers = [] := by
    cases hw : p.receiver.writers with
    | nil => rfl
    | cons job jobs =>
      exact absurd (goesOn_receiver (t := .write 0 0) trivial (by simp [stepTask, hw])) hstuck
  obtain ⟨queue, hr, -⟩ := hs.supplies.reader
  have hjobs : p.sender.phase.jobs = [] := by rw [hsend]; rfl
  have hzero := congrArg Multiset.card (hs.balance.outside (by simp [hrecv]))
  rw [outstanding, held_of_reader hr hjobs] at hzero
  obtain ⟨hqueue, hencrypting, hflight⟩ :
      queue = [] ∧ p.sender.encrypting = [] ∧ p.inFlight = [] := by
    simpa [sources, sealing, origins] using hzero
  have hasked : ((p.receiver.sent.drop p.toSender).map (requestWork list)).sum = 0 := by
    refine List.sum_eq_zero fun w hw => ?_
    obtain ⟨m, hm, rfl⟩ := List.mem_map.mp hw
    rw [hs.said_of_returned hrecv] at hm
    obtain rfl : m = .finished := mem_drop_said (hheard hsend).le hm
    rfl
  refine ⟨⟨hsend, hrecv, hwriters⟩, ?_⟩
  simp only [work, hsend, hrecv, hr, hqueue, hencrypting, hflight, hwriters, hasked]
  rfl

variable {x : Exchange X M}

theorem proceeds_afterOffer (hM : M.Honest files list) {total : Int64}
    (htotal : files.totalSize M.receiverWorld.overflowChecks = some total) :
    Proceeds x.enc list x.keyedReceiver.sent (x.afterOffer files) := by
  refine ⟨⟨0, [], serves_afterOffer hM htotal⟩, fun hp => ?_⟩
  simp [Exchange.afterOffer, Exchange.offeringSender, Exchange.keyedSender, withKey,
    Session.new] at hp

theorem work_afterOffer (hM : M.Honest files list) {total : Int64}
    (htotal : files.totalSize M.receiverWorld.overflowChecks = some total) :
    work list (x.afterOffer files) = filesWork list + 3 := by
  obtain ⟨-, hp, hsent⟩ := collects_afterOffer (x := x) hM htotal
  have hwriters : (x.afterOffer files).receiver.writers = [] :=
    (onMessage_settles (W := M.receiverWorld) (c := M.receiver) _).writers
  simp only [work, hp, hsent, hwriters, receivingWork, List.drop_zero]
  simp [Exchange.afterOffer, Exchange.offeringSender, Exchange.keyedSender,
    Exchange.keyedReceiver, Exchange.startingReceiver, withKey, Session.new, sendingWork]
  omega

theorem opening_quiet (h : x.Opening files p) :
    p.sender.Quiet ∧ p.receiver.Quiet ∧ p.inFlight = [] := by
  cases h with
  | started => exact ⟨new_quiet _, x.startingReceiver_quiet, rfl⟩
  | answered => exact ⟨x.keyedSender_quiet, x.startingReceiver_quiet, rfl⟩
  | agreed => exact ⟨x.keyedSender_quiet, x.keyedReceiver_quiet, rfl⟩
  | offered => exact ⟨x.offeringSender_quiet files, x.keyedReceiver_quiet, rfl⟩
  | introduced => exact ⟨x.offeringSender_quiet files, x.waitingReceiver_quiet, rfl⟩

/-- Before the offer only messages travel. -/
theorem opening_message (h : x.Opening files p) {e : Event} (hok : Smooth p e)
    (he : Pair.step M p e = some p') : e = .toSender ∨ e = .toReceiver := by
  obtain ⟨hs, hr, hf⟩ := opening_quiet h
  exact (quiet_step hs hr hf hok he).imp And.left And.left

theorem opening_delivers (h : x.Opening files p) {e : Event} (hok : Smooth p e)
    (he : Pair.step M p e = some p') :
    p'.toSender + p'.toReceiver = p.toSender + p.toReceiver + 1 := by
  rcases opening_message h hok he with rfl | rfl
  · obtain ⟨m, -, he⟩ := Option.bind_eq_some_iff.mp he
    obtain ⟨s, -, rfl⟩ := Option.map_eq_some_iff.mp he
    exact Nat.add_right_comm ..
  · obtain ⟨m, -, he⟩ := Option.bind_eq_some_iff.mp he
    obtain ⟨r, -, rfl⟩ := Option.map_eq_some_iff.mp he
    rfl

theorem opening_lt (h : x.Opening files p) : p.toSender + p.toReceiver < 5 := by
  cases h <;> dsimp only <;> omega

/-- The number of steps of a run. -/
def countStep (n : ℕ) (_ : Pair X) (_ : Event) (_ : Pair X) : ℕ := n + 1

/-- The account of an honest session: the steps so far and those that are left. -/
def Account (x : Exchange X M) (files : FilesInformation) (list : List FileInfo) (p : Pair X)
    (n : ℕ) : Prop :=
  (x.Opening files p ∧ n = p.toSender + p.toReceiver) ∨
    Proceeds x.enc list x.keyedReceiver.sent p ∧ n + work list p = filesWork list + 8

theorem Account.step (hJ : X.KeyJsonRoundTrip) (hX : X.DecryptInverts) (hW : X.WritesShort)
    (hM : M.Honest files list) {total : Int64}
    (htotal : files.totalSize M.receiverWorld.overflowChecks = some total) {n : ℕ}
    (h : Account x files list p n) {e : Event} (hok : Smooth p e)
    (he : Pair.step M p e = some p') : Account x files list p' (n + 1) := by
  have hfits := M.fits files hM.offer list hM.lists
  rcases h with ⟨hopen, rfl⟩ | ⟨hproceeds, hwork⟩
  · have hcount := opening_delivers hopen hok he
    rcases hopen.step hJ hM hok he with hopen' | rfl
    · exact Or.inl ⟨hopen', hcount.symm⟩
    · refine Or.inr ⟨proceeds_afterOffer hM htotal, ?_⟩
      rw [work_afterOffer hM htotal, ← hcount]
      exact Nat.add_comm 5 _
  · obtain ⟨hproceeds', hmove⟩ := hproceeds.step hX hW hM hok he
    refine Or.inr ⟨hproceeds', ?_⟩
    have := hmove.work_eq hfits
    omega

/-- An honest session takes the same number of steps however it is scheduled: eight, four for each
file, and five for each chunk. When they are done, and only then, nothing is left to do, and both
ends have returned. -/
theorem honest_steps (hJ : X.KeyJsonRoundTrip) (hK : X.KeysAgree) (hX : X.DecryptInverts)
    (hW : X.WritesShort) (hM : M.Honest files list) (hsplits : M.sender.Splits)
    (hsum : M.receiverWorld.overflowChecks = true →
      (list.map fun file => file.size.toInt).sum < 2 ^ 63) {n : ℕ}
    (h : ((machine X M).observe 0 countStep).ReachableBy (fun y e => Smooth y.1 e) (p, n)) :
    n ≤ filesWork list + 8 ∧ (n = filesWork list + 8 ↔ ¬ GoesOn M p) ∧
      (n = filesWork list + 8 → Returned p) := by
  obtain ⟨pw, hpw⟩ := Setup.splits_iff.mp hsplits
  obtain ⟨x⟩ := exists_exchange hK hM.secret hpw
  obtain ⟨total, htotal⟩ := Option.isSome_iff_exists.mp ((totalSize_isSome_iff hM _).mpr hsum)
  have haccount : Account x files list p n :=
    h.invariant (P := fun y => Account x files list y.1 y.2) (Or.inl ⟨x.opening_init hM, rfl⟩)
      fun y e y' _ h hok he => by
        obtain ⟨hstep, hnote⟩ := Machine.observe_step.mp he
        rw [hnote]
        exact h.step hJ hX hW hM htotal hok hstep
  rcases haccount with ⟨hopen, rfl⟩ | ⟨hproceeds, hwork⟩
  · have hlt := opening_lt hopen
    have hgoes : GoesOn M p := by
      obtain ⟨e, p', hok, he⟩ := hopen.progress hJ hM
      exact ⟨e, hok, by rw [he]; rfl⟩
    exact ⟨by omega, ⟨fun hn => by omega, fun hstuck => absurd hgoes hstuck⟩, fun hn => by omega⟩
  · have hstuck : n = filesWork list + 8 → ¬ GoesOn M p := by
      rintro hn ⟨e, hok, he⟩
      obtain ⟨p', he⟩ := Option.isSome_iff_exists.mp he
      have := (hproceeds.step hX hW hM hok he).2.work_eq (M.fits files hM.offer list hM.lists)
      omega
    refine ⟨by omega, ⟨hstuck, fun h => ?_⟩, fun hn => (hproceeds.settled (hstuck hn)).1⟩
    have := (hproceeds.settled h).2
    omega

instance : ∀ t : Task, Decidable t.Succeeds
  | .readFailed _ | .encryptFailed _ => inferInstanceAs (Decidable False)
  | .tick | .read .. | .encrypt .. | .write .. => inferInstanceAs (Decidable True)

instance (p : Pair X) : ∀ e, Decidable (Smooth p e)
  | .sender t | .receiver t => inferInstanceAs (Decidable t.Succeeds)
  | .toSender | .toReceiver | .deliver _ => inferInstanceAs (Decidable True)
  | .senderRecvFailed _ | .receiverRecvFailed _ | .lose _ | .keepalive | .dataClosed =>
    inferInstanceAs (Decidable False)

/-- A file of one chunk, from its request to the next one. -/
def oneChunk (data : Bytes) : List Event :=
  [.receiver .tick, .toSender, .sender .tick, .sender .tick, .sender (.read 0 data),
    .sender (.encrypt 0 (External.padBlock 12 [])), .deliver 0, .receiver (.write 0 data.length),
    .receiver .tick]

/-- The run in which two files of five bytes are sent, one after the other. -/
def twoFilesRun : List Event :=
  [.toSender, .toReceiver, .toSender, .toReceiver, .toReceiver] ++ oneChunk (asBytes "hello") ++
    oneChunk (asBytes "world") ++ [.receiver .tick, .toSender, .toReceiver]

theorem twoFiles_steps : ∃ p, ((machine .transparent (sharing "12345abc")).observe 0
    countStep).ReachableBy (fun y e => Smooth y.1 e) (p, 26) ∧ ¬ GoesOn (sharing "12345abc") p ∧
      Returned p := by
  obtain ⟨⟨p, n⟩, hp, hn⟩ := Machine.ReachableBy.exists_of_exec
    (M := (machine .transparent (sharing "12345abc")).observe 0 countStep)
    (fun y e => Smooth y.1 e) (fun y => y.2 == 26) twoFilesRun (by decide +kernel)
  obtain rfl : n = 26 := by simpa using hn
  obtain ⟨-, hstuck, hreturned⟩ := honest_steps External.transparent_keyJson
    External.transparent_keysAgree External.transparent_decryptInverts
    External.transparent_writesShort (sharing_honest "12345abc")
    (Setup.splits_iff.mpr ⟨asBytes "abc", by decide +kernel⟩) (fun h => absurd h (by decide)) hp
  have hall : 26 = filesWork twoFiles + 8 := by decide +kernel
  exact ⟨p, hp, hstuck.mp hall, hreturned hall⟩

end Runs
end Pair
end Croc
