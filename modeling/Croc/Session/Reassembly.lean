import Croc.Session.Transfer

/-! A file that has been transferred is its source, in whatever order its chunks have travelled. -/
namespace Croc
open Lib
namespace Transfer
open Session
variable {X : External} {M : Meeting} {r : Route} {enc : EncryptedSession} {id : ℕ}
  {p p' : Transfer X}

/-- The `j`-th chunk, as `send_file` plans it. -/
def IsPlanned (r : Route) (j : ℕ) (job : FileChunkInfo) : Prop :=
  job.chunkOffset = j * tcpBufferSize ∧ job.chunkSize = (chunk r j).length

/-- The `j`-th chunk with its offset in front. -/
def buffer (r : Route) (j : ℕ) : Bytes := chunkBuffer (j * tcpBufferSize) (chunk r j)

/-- The `j`-th chunk, sealed. -/
def IsSealed (X : External) (r : Route) (enc : EncryptedSession) (j : ℕ) (payload : Bytes) : Prop :=
  enc.encryptor.decrypt X payload = .ok (buffer r j)

/-- A frame with the `j`-th chunk. -/
def IsFramed (X : External) (r : Route) (enc : EncryptedSession) (j : ℕ) (f : DataFrame) : Prop :=
  ∃ payload, IsSealed X r enc j payload ∧ payload.length < 2 ^ 32 ∧ f.payload = frame payload

/-- Where the `j`-th chunk is. -/
inductive Somewhere (r : Route) (enc : EncryptedSession) (id : ℕ) (p : Transfer X) (j : ℕ) :
    Prop where
  | planned (job : FileChunkInfo) (h : job ∈ p.sender.phase.jobs) (hj : IsPlanned r j job)
  | queued (reader : ReaderTask) (hr : p.sender.readers[id]? = some reader) (job : FileChunkInfo)
      (h : job ∈ reader.queue) (hj : IsPlanned r j job)
  | encrypting (job : EncryptJob) (h : job ∈ p.sender.encrypting) (hj : job.buffer = buffer r j)
  | wire (f : DataFrame) (h : f ∈ p.wire) (hj : IsFramed X r enc j f)
  | writing (job : WriteJob) (h : job ∈ p.receiver.writers)
      (hj : IsSealed X r enc j job.frame.payload)
  | written (h : StandsAt (p.receiver.disk r.loc) (j * tcpBufferSize) (chunk r j))

/-- The tasks of the sender have chunks of the file only. -/
structure Sends (r : Route) (enc : EncryptedSession) (id : ℕ) (s : Session X) : Prop where
  phase : ∃ jobs, s.phase = .sending ⟨id, enc⟩ jobs ∧
    ∀ job ∈ jobs, ∃ j < chunkCount r, IsPlanned r j job
  reader : ∃ queue, s.readers[id]? = some ⟨enc, queue, false⟩ ∧
    ∀ job ∈ queue, ∃ j < chunkCount r, IsPlanned r j job
  others : ∀ i reader, i ≠ id → s.readers[i]? = some reader → reader.queue = []
  encrypting : ∀ job ∈ s.encrypting, job.enc = enc ∧ ∃ j < chunkCount r, job.buffer = buffer r j

/-- The receiver writes chunks of the file only, and the file has its size. -/
structure Receives (r : Route) (enc : EncryptedSession) (s : Session X) : Prop where
  loop : ∃ total got, s.phase = .chunks r.dest r.loc total got
  rw : ∃ rw, s.rw = some rw ∧ rw.enc = enc
  writers : ∀ job ∈ s.writers, job.enc = enc ∧ job.loc = r.loc ∧
    ∃ j < chunkCount r, IsSealed X r enc j job.frame.payload
  length : (s.disk r.loc).length = r.source.length

/-- The invariant: every chunk of the file is somewhere, and there is nothing else. -/
structure Underway (r : Route) (enc : EncryptedSession) (id : ℕ) (p : Transfer X) : Prop where
  sends : Sends r enc id p.sender
  wire : ∀ f ∈ p.wire, ∃ j < chunkCount r, IsFramed X r enc j f
  receives : Receives r enc p.receiver
  covered : ∀ j < chunkCount r, Somewhere r enc id p j

section Chunks

theorem isPlanned_chunkPlan {file j : ℕ} (hj : j < chunkCount r) :
    ∃ job ∈ chunkPlan file r.source.length, IsPlanned r j job := by
  refine ⟨_, List.mem_map.mpr ⟨j, List.mem_range.mpr hj, rfl⟩, rfl, ?_⟩
  have hlt : j * tcpBufferSize < r.source.length := (lt_pieceCount (by decide)).mp hj
  dsimp only
  rw [chunk, length_piece]
  split <;> omega

theorem exists_of_mem_chunkPlan {file : ℕ} {job : FileChunkInfo}
    (h : job ∈ chunkPlan file r.source.length) : ∃ j < chunkCount r, IsPlanned r j job := by
  obtain ⟨j, hj, rfl⟩ := List.mem_map.mp h
  have hj : j < chunkCount r := List.mem_range.mp hj
  have hlt : j * tcpBufferSize < r.source.length := (lt_pieceCount (by decide)).mp hj
  refine ⟨j, hj, rfl, ?_⟩
  dsimp only
  rw [chunk, length_piece]
  split <;> omega

/-- What is read for a planned chunk is the chunk. -/
theorem IsPlanned.readJob {j : ℕ} {job : FileChunkInfo} (h : IsPlanned r j job) :
    readJob r job = chunk r j := by
  rw [Transfer.readJob, h.1, h.2, chunk, piece, List.length_take, ← List.take_eq_take_min]

theorem buffer_length (j : ℕ) : (buffer r j).length < 2 ^ 17 := by
  have hle : (chunk r j).length ≤ tcpBufferSize := by
    rw [chunk, length_piece]
    exact Nat.min_le_left ..
  rw [buffer, chunkBuffer, List.length_append, leBytes_length]
  unfold tcpBufferSize at hle
  omega

/-- A chunk can always be sealed, and the other end opens it. -/
theorem exists_sealed (hX : X.DecryptInverts) (hW : X.WritesShort) (nonce : Block 12) (j : ℕ) :
    ∃ payload, enc.write X nonce (buffer r j) = .ok payload ∧ IsSealed X r enc j payload ∧
      payload.length < 2 ^ 32 := by
  have hlen := buffer_length (r := r) j
  obtain ⟨payload, hw, hl⟩ := enc.exists_write hW nonce
    (show (buffer r j).length < 2 ^ 32 by omega)
  exact ⟨payload, hw, AesEncryptor.decrypt_encrypt hX hw, by omega⟩

theorem framed_eq {payload : Bytes} (h : payload.length < 2 ^ 32) (origin : Option ℕ) :
    framed ⟨payload, origin⟩ = some ⟨frame payload, origin⟩ := by
  have hw : CrocProto.write payload = .ok (frame payload) := CrocProto.write_eq_ok.mpr ⟨h, rfl⟩
  simp [framed, OwnedSender.write, hw, bind, Except.bind, Channel.send, Except.toOption,
    MpscCrocProto.writeTask]

theorem unframed_eq {f : DataFrame} {payload : Bytes} (h : payload.length < 2 ^ 32)
    (hf : f.payload = frame payload) : unframed f = some { f with payload := payload } := by
  have hr : CrocProto.read (frame payload) = (.ok payload, []) := by
    simpa using CrocProto.read_frame h []
  rw [unframed, hf, hr]
  rfl

/-- The offset of a chunk fits in its eight bytes. -/
theorem IsSealed.openChunk {j : ℕ} {payload : Bytes} (h : IsSealed X r enc j payload)
    (hj : j < chunkCount r) (hlen : r.source.length < 2 ^ 63) :
    openChunk X enc payload = .ok (j * tcpBufferSize, chunk r j) := by
  have hlt : j * tcpBufferSize < r.source.length := (lt_pieceCount (by decide)).mp hj
  exact openChunk_of_decrypt (by omega) h

end Chunks

section Steps

theorem getElem?_eraseIdx_or {α : Type} {l : List α} {k : ℕ} {a b : α} (ha : l[k]? = some a)
    (hb : b ∈ l) : b = a ∨ b ∈ l.eraseIdx k := by
  obtain ⟨n, hn⟩ := List.getElem?_of_mem hb
  by_cases hk : n = k
  · subst hk
    exact Or.inl (Option.some.inj (hn.symm.trans ha))
  · exact Or.inr (List.mem_eraseIdx_iff_getElem?.mpr ⟨n, hk, hn⟩)

theorem hand_eq {W : World} {c : Setup} {s t : Session X} (h : Sends r enc id s)
    {rw : FsInterface} {job : FileChunkInfo} {jobs : List FileChunkInfo}
    (hp : s.phase = .sending rw (job :: jobs)) (he : stepTask W c s .tick = some t) :
    t = { s with
      readers := s.readers.modify id fun r => { r with queue := r.queue ++ [job] }
      phase := .sending ⟨id, enc⟩ jobs } := by
  obtain ⟨jobs', hp', -⟩ := h.phase
  obtain ⟨rfl, rfl⟩ := Phase.sending.inj (hp.symm.trans hp')
  obtain ⟨queue, hq, -⟩ := h.reader
  obtain ⟨x, hx, rfl⟩ := Option.map_eq_some_iff.mp he
  rcases proceed_cases hx with ⟨_, hp', -⟩ | ⟨_, _, _, hp', rfl⟩ | ⟨_, hp', -⟩ |
    ⟨_, _, _, _, hp', -⟩
  · simp [hp] at hp'
  · obtain ⟨rfl, heq⟩ := Phase.sending.inj (hp.symm.trans hp')
    obtain ⟨rfl, rfl⟩ := List.cons.inj heq
    apply run_of_post (I := fun t => t = { s with
      readers := s.readers.modify id fun r => { r with queue := r.queue ++ [job] }
      phase := .sending ⟨id, enc⟩ jobs })
    simp [handChunk, post_ite, hq]
  · simp [hp] at hp'
  · simp [hp] at hp'

/-- `send_file` moves a chunk to the channel of the reader task. -/
theorem Underway.hand (h : Underway r enc id p) (he : step M r p .hand = some p') :
    Underway r enc id p' := by
  simp only [step] at he
  split at he
  next rw job jobs hp =>
    obtain ⟨s, hs, rfl⟩ := Option.map_eq_some_iff.mp he
    obtain rfl := hand_eq h.sends hp hs
    obtain ⟨⟨jobs', hp', hplan⟩, ⟨queue, hq, hqueue⟩, hothers, henc⟩ := h.sends
    obtain ⟨rfl, rfl⟩ := Phase.sending.inj (hp.symm.trans hp')
    rw [List.forall_mem_cons] at hplan
    have hnew : (p.sender.readers.modify id fun x => { x with queue := x.queue ++ [job] })[id]? =
        some ⟨enc, queue ++ [job], false⟩ := by simp [hq]
    refine ⟨⟨⟨jobs, rfl, hplan.2⟩, ⟨_, hnew, ?_⟩, ?_, henc⟩, h.wire, h.receives, ?_⟩
    · rw [List.forall_mem_append, List.forall_mem_singleton]
      exact ⟨hqueue, hplan.1⟩
    · intro i reader hi hr
      exact hothers i reader hi ((List.getElem?_modify_ne _ _ hi.symm).symm.trans hr)
    · intro j hj
      rcases h.covered j hj with ⟨job', hjob', hj'⟩ | ⟨reader, hr, job', hjob', hj'⟩ |
        ⟨job', hjob', hj'⟩ | ⟨f, hf, hj'⟩ | ⟨job', hjob', hj'⟩ | hw
      · rw [hp] at hjob'
        rcases List.mem_cons.mp hjob' with rfl | hjob'
        · exact .queued _ hnew _ (List.mem_append_right _ (List.mem_singleton_self _)) hj'
        · exact .planned job' hjob' hj'
      · obtain rfl := Option.some.inj (hq.symm.trans hr)
        exact .queued _ hnew _ (List.mem_append_left _ hjob') hj'
      · exact .encrypting job' hjob' hj'
      · exact .wire f hf hj'
      · exact .writing job' hjob' hj'
      · exact .written hw
  · simp at he

/-- The reader task reads a chunk and starts a task that encrypts it. -/
theorem Underway.read (h : Underway r enc id p) {i : ℕ} (he : step M r p (.read i) = some p') :
    Underway r enc id p' := by
  obtain ⟨⟨jobs, hp, hplan⟩, ⟨queue, hq, hqueue⟩, hothers, henc⟩ := h.sends
  simp only [step, bind, Option.bind_eq_some_iff] at he
  obtain ⟨reader, hr, job, hjob, he⟩ := he
  obtain ⟨s, hs, rfl⟩ := Option.map_eq_some_iff.mp he
  have hi : i = id := by
    by_contra hne
    simp [hothers i reader hne hr] at hjob
  subst hi
  obtain rfl := Option.some.inj (hq.symm.trans hr)
  obtain ⟨queue, rfl⟩ : ∃ tail, queue = job :: tail := by
    cases queue <;> simp_all
  rw [List.forall_mem_cons] at hqueue
  obtain ⟨⟨j, hj, hjob⟩, hqueue⟩ := hqueue
  simp only [stepTask, hq, hjob.readJob, if_pos hjob.2.symm] at hs
  obtain rfl := Option.some.inj hs
  have hlt : i < p.sender.readers.length := (List.getElem?_eq_some_iff.mp hq).1
  have hnew : (p.sender.readers.set i ⟨enc, queue, false⟩)[i]? = some ⟨enc, queue, false⟩ := by
    simp [hlt]
  refine ⟨⟨⟨jobs, hp, hplan⟩, ⟨_, hnew, hqueue⟩, ?_, ?_⟩, h.wire, h.receives, ?_⟩
  · intro k reader hk hr'
    exact hothers k reader hk ((List.getElem?_set_ne hk.symm).symm.trans hr')
  · rw [List.forall_mem_append, List.forall_mem_singleton]
    exact ⟨henc, rfl, j, hj, by rw [hjob.1]; rfl⟩
  · intro j' hj'
    rcases h.covered j' hj' with ⟨job', hjob', hj''⟩ | ⟨reader, hr', job', hjob', hj''⟩ |
      ⟨job', hjob', hj''⟩ | ⟨f, hf, hj''⟩ | ⟨job', hjob', hj''⟩ | hw
    · exact .planned job' hjob' hj''
    · obtain rfl := Option.some.inj (hq.symm.trans hr')
      rcases List.mem_cons.mp hjob' with rfl | hjob'
      · have heq : j = j' := Nat.eq_of_mul_eq_mul_right (by decide) (hjob.1.symm.trans hj''.1)
        subst heq
        refine .encrypting _ (List.mem_append_right _ (List.mem_singleton_self _)) ?_
        rw [hjob.1]
        rfl
      · exact .queued _ hnew job' hjob' hj''
    · exact .encrypting job' (List.mem_append_left _ hjob') hj''
    · exact .wire f hf hj''
    · exact .writing job' hjob' hj''
    · exact .written hw

/-- A spawned task seals a chunk and sends it. -/
theorem Underway.encrypt (hX : X.DecryptInverts) (hW : X.WritesShort) (h : Underway r enc id p)
    {k : ℕ} {nonce : Block 12} (he : step M r p (.encrypt k nonce) = some p') :
    Underway r enc id p' := by
  obtain ⟨s, hs, rfl⟩ := Option.map_eq_some_iff.mp he
  obtain ⟨job, hk, hs⟩ := Option.map_eq_some_iff.mp hs
  obtain ⟨hjenc, j, hj, hbuf⟩ := h.sends.encrypting job (List.mem_of_getElem? hk)
  obtain ⟨payload, hwrite, hsealed, hlen⟩ : ∃ payload,
      enc.write X nonce (buffer r j) = .ok payload ∧
      IsSealed X r enc j payload ∧ payload.length < 2 ^ 32 := exists_sealed hX hW nonce j
  rw [← hbuf, ← hjenc] at hwrite
  simp only [hwrite] at hs
  subst hs
  have hnew (f : DataFrame) :
      (p.sender.dataSent ++ [f]).drop p.sender.dataSent.length = [f] := List.drop_left
  have hframed : IsFramed X r enc j ⟨frame payload, some job.file⟩ := ⟨payload, hsealed, hlen, rfl⟩
  simp only [hnew, List.filterMap_cons, framed_eq hlen, List.filterMap_nil]
  obtain ⟨hphase, hreader, hothers, henc⟩ := h.sends
  refine ⟨⟨hphase, hreader, hothers, fun job' h' => henc job' (List.mem_of_mem_eraseIdx h')⟩, ?_,
    h.receives, ?_⟩
  · rw [List.forall_mem_append, List.forall_mem_singleton]
    exact ⟨h.wire, j, hj, hframed⟩
  · intro j' hj'
    rcases h.covered j' hj' with ⟨job', hjob', hj''⟩ | ⟨reader, hr', job', hjob', hj''⟩ |
      ⟨job', hjob', hj''⟩ | ⟨f, hf, hj''⟩ | ⟨job', hjob', hj''⟩ | hw
    · exact .planned job' hjob' hj''
    · exact .queued reader hr' job' hjob' hj''
    · rcases getElem?_eraseIdx_or hk hjob' with rfl | hjob'
      · have hsealed' : IsSealed X r enc j' payload := by
          rw [IsSealed, hsealed, ← hbuf, hj'']
        have hframed' : IsFramed X r enc j' ⟨frame payload, some job'.file⟩ :=
          ⟨payload, hsealed', hlen, rfl⟩
        exact .wire _ (List.mem_append_right _ (List.mem_singleton_self _)) hframed'
      · exact .encrypting job' hjob' hj''
    · exact .wire f (List.mem_append_left _ hf) hj''
    · exact .writing job' hjob' hj''
    · exact .written hw

/-- A frame is read and handed to a writer task. -/
theorem Underway.deliver (h : Underway r enc id p) {k : ℕ}
    (he : step M r p (.deliver k) = some p') : Underway r enc id p' := by
  simp only [step, bind, Option.bind_eq_some_iff] at he
  obtain ⟨f, hk, f', hf', s, hs, he⟩ := he
  obtain rfl := Option.some.inj he
  obtain ⟨j, hj, payload, hsealed, hlen, hpayload⟩ := h.wire f (List.mem_of_getElem? hk)
  obtain rfl := Option.some.inj ((unframed_eq hlen hpayload).symm.trans hf')
  obtain ⟨⟨total, got, hp⟩, ⟨rw, hrw, rfl⟩, hwriters, hlength⟩ := h.receives
  obtain rfl : s = { p.receiver with
      writers := p.receiver.writers ++ [⟨rw.enc, r.dest, r.loc, { f with payload := payload }⟩]
      phase := .chunks r.dest r.loc total (got ++ [{ f with payload := payload }]) } := by
    simp only [Session.step, hp] at hs
    split at hs
    · obtain rfl := Option.some.inj hs
      apply run_of_post (I := fun s => s = _)
      apply (takeChunk_spec r.dest r.loc total got _).mono
      · rintro ph t ⟨rfl, rw', hrw', rfl⟩
        obtain rfl := Option.some.inj (hrw.symm.trans hrw')
        rfl
      · rintro e t ⟨-, hnone, -⟩
        simp [hnone] at hrw
    · simp at hs
  refine ⟨h.sends, fun f' hf' => h.wire f' (List.mem_of_mem_eraseIdx hf'),
    ⟨⟨total, _, rfl⟩, ⟨rw, hrw, rfl⟩, ?_, hlength⟩, ?_⟩
  · rw [List.forall_mem_append, List.forall_mem_singleton]
    exact ⟨hwriters, rfl, rfl, j, hj, hsealed⟩
  · intro j' hj'
    rcases h.covered j' hj' with ⟨job', hjob', hj''⟩ | ⟨reader, hr', job', hjob', hj''⟩ |
      ⟨job', hjob', hj''⟩ | ⟨f', hf', hj''⟩ | ⟨job', hjob', hj''⟩ | hw
    · exact .planned job' hjob' hj''
    · exact .queued reader hr' job' hjob' hj''
    · exact .encrypting job' hjob' hj''
    · rcases getElem?_eraseIdx_or hk hf' with rfl | hf'
      · obtain ⟨payload', hsealed', hlen', hpayload'⟩ := hj''
        have heq := Option.some.inj
          ((unframed_eq hlen' hpayload').symm.trans (unframed_eq hlen hpayload))
        obtain rfl : payload' = payload := congrArg DataFrame.payload heq
        exact .writing _ (List.mem_append_right _ (List.mem_singleton_self _)) hsealed'
      · exact .wire f' hf' hj''
    · exact .writing job' (List.mem_append_left _ hjob') hj''
    · exact .written hw

/-- A writer task puts its chunk in place, and leaves the others where they are. -/
theorem Underway.write (hlen : r.source.length < 2 ^ 63) (h : Underway r enc id p) {k : ℕ}
    (he : step M r p (.write k) = some p') : Underway r enc id p' := by
  simp only [step, bind, Option.bind_eq_some_iff] at he
  obtain ⟨job, hk, s, hs, he⟩ := he
  obtain rfl := Option.some.inj he
  obtain ⟨hloop, hrw, hwriters, hlength⟩ := h.receives
  obtain ⟨rfl, hloc, j, hj, hsealed⟩ := hwriters job (List.mem_of_getElem? hk)
  have hopen := hsealed.openChunk hj hlen
  have hs' : s = Session.putChunk { p.receiver with writers := p.receiver.writers.eraseIdx k } job
      (j * tcpBufferSize) (chunk r j) := by
    simpa [stepTask, hk, chunkLength, hopen, eq_comm] using hs
  subst hs'
  have hfit : j * tcpBufferSize + (chunk r j).length ≤ (p.receiver.disk r.loc).length := by
    rw [hlength]
    exact piece_fits ((lt_pieceCount (by decide)).mp hj)
  refine ⟨h.sends, h.wire, ⟨hloop, hrw, ?_, ?_⟩, ?_⟩
  · exact fun job' h' => hwriters job' (List.mem_of_mem_eraseIdx h')
  · simp only [Session.putChunk, hloc, Function.update_self]
    rw [length_writeAt hfit, hlength]
  · have hself : StandsAt (writeAt 0 (p.receiver.disk r.loc) (j * tcpBufferSize) (chunk r j))
        (j * tcpBufferSize) (chunk r j) := standsAt_writeAt hfit
    intro j' hj'
    rcases h.covered j' hj' with ⟨job', hjob', hj''⟩ | ⟨reader, hr', job', hjob', hj''⟩ |
      ⟨job', hjob', hj''⟩ | ⟨f', hf', hj''⟩ | ⟨job', hjob', hj''⟩ | hw
    · exact .planned job' hjob' hj''
    · exact .queued reader hr' job' hjob' hj''
    · exact .encrypting job' hjob' hj''
    · exact .wire f' hf' hj''
    · rcases getElem?_eraseIdx_or hk hjob' with rfl | hjob'
      · have hopen' := hj''.openChunk hj' hlen
        have hoff : j * tcpBufferSize = j' * tcpBufferSize :=
          congrArg Prod.fst (Except.ok.inj (hopen.symm.trans hopen'))
        obtain rfl : j = j' := Nat.eq_of_mul_eq_mul_right (by decide) hoff
        refine .written ?_
        simpa [Session.putChunk, hloc] using hself
      · exact .writing job' hjob' hj''
    · refine .written ?_
      simp only [Session.putChunk, hloc, Function.update_self]
      by_cases hne : j' = j
      · subst hne
        exact hself
      · exact hw.writeAt_of_disjoint hfit (pieces_disjoint hne)

theorem Underway.step (hX : X.DecryptInverts) (hW : X.WritesShort)
    (hlen : r.source.length < 2 ^ 63) (h : Underway r enc id p) {e : Event}
    (he : step M r p e = some p') : Underway r enc id p' := by
  cases e with
  | hand => exact h.hand he
  | read i => exact h.read he
  | encrypt k nonce => exact h.encrypt hX hW he
  | deliver k => exact h.deliver he
  | write k => exact h.write hlen he

theorem Starts.underway (h : Starts r enc id p) : Underway r enc id p where
  sends := by
    obtain ⟨file, hp⟩ := h.jobs
    refine ⟨⟨_, hp, fun job hjob => exists_of_mem_chunkPlan hjob⟩, ⟨[], h.reader, by simp⟩, ?_, ?_⟩
    · exact fun i reader _ hr => h.queues reader (List.mem_of_getElem? hr)
    · simp [h.encrypting]
  wire := by simp [h.wire]
  receives := by
    obtain ⟨total, hloop⟩ := h.loop
    exact ⟨⟨total, [], hloop⟩, h.rw, by simp [h.writers], by rw [h.created, List.length_replicate]⟩
  covered j hj := by
    obtain ⟨file, hp⟩ := h.jobs
    obtain ⟨job, hjob, hplanned⟩ : ∃ job ∈ chunkPlan file r.source.length, IsPlanned r j job :=
      isPlanned_chunkPlan hj
    exact .planned job (by rw [hp, Phase.jobs_sending]; exact hjob) hplanned

/-- A transfer starts when the sender has taken a request, and the receiver has created the file of
the announced size. -/
theorem starts_of_request {s q : Session X} {msg : RemoteFileRequest} {index : ℕ}
    {jobs : List FileChunkInfo} {total : ℤ}
    (hs : (run (onMessage M.senderWorld M.sender (.typeRecipientReady msg)) s).phase =
      .sending ⟨id, enc⟩ jobs)
    (hopen : ∀ path size, M.senderWorld.os.openLen s.calls path = some size →
      size = r.source.length)
    (hfiles : ∀ files ∈ M.sender.files, files.filesToTransfare ≠ none)
    (hreader : s.readers[id]? = some ⟨enc, [], false⟩) (hqueues : ∀ x ∈ s.readers, x.queue = [])
    (henc : s.encrypting = [])
    (hq : (run (requestFile M.receiverWorld index) q).phase = .chunks r.dest r.loc total [])
    (hsize : ∀ file, q.toReceive.bind (·[index]?) = some file →
      file.size.toUInt64.toNat = r.source.length)
    (hrw : ∃ rw, q.rw = some rw ∧ rw.enc = enc) (hwriters : q.writers = []) :
    Starts r enc id ⟨run (onMessage M.senderWorld M.sender (.typeRecipientReady msg)) s,
      run (requestFile M.receiverWorld index) q, []⟩ := by
  rcases run_cases (onRequest_spec (W := M.senderWorld) (c := M.sender) (s := s) msg) with
    ⟨p, t, hrun, rw, files, jobs', -, hf, rfl, -, -, hplan⟩ | ⟨h, t, hrun, -⟩
  · rcases hplan with ⟨hnone, -⟩ | ⟨list, file, size, -, -, hlen, rfl, rfl⟩
    · exact absurd hnone (hfiles files hf)
    · obtain rfl := hopen _ _ hlen
      rw [hrun] at hs ⊢
      obtain ⟨rfl, -⟩ := Phase.sending.inj hs
      rcases run_cases (requestFile_spec (W := M.receiverWorld) (s := q) index) with
        ⟨p, t, hrun', ⟨-, rfl, -⟩ | ⟨file', loc, hfile, -, rfl, rfl⟩⟩ | ⟨h, t, hrun', -⟩
      · simp [hrun'] at hq
      · rw [hrun'] at hq ⊢
        obtain ⟨-, hloc, htotal, -⟩ := Phase.chunks.inj hq
        refine ⟨⟨_, rfl⟩, hreader, hqueues, henc, rfl, ⟨_, hq⟩, hrw, hwriters, ?_⟩
        simp [hloc, hsize file' hfile]
      · simp [hrun'] at hq
  · simp [hrun] at hs

end Steps

/-- However the tasks are scheduled and the frames arrive, the destination file of a transfer that
has settled is the source file. -/
theorem settled_reassembles (hX : X.DecryptInverts) (hW : X.WritesShort)
    (hlen : r.source.length < 2 ^ 63) {p₀ : Transfer X} (h₀ : Starts r enc id p₀)
    (hp : (machine M r p₀).Reachable p) (hdone : Settled p) :
    p.receiver.disk r.loc = r.source := by
  have h : Underway r enc id p := hp.invariant (P := Underway r enc id) h₀.underway
    fun _ _ _ _ h he => h.step hX hW hlen he
  have hw : 0 < tcpBufferSize := by decide
  apply eq_of_pieces hw h.receives.length
  intro j hj
  rcases h.covered j hj with ⟨job, hjob, -⟩ | ⟨reader, hr, job, hjob, -⟩ | ⟨job, hjob, -⟩ |
    ⟨f, hf, -⟩ | ⟨job, hjob, -⟩ | hw
  · simp [hdone.jobs] at hjob
  · simp [hdone.queues reader (List.mem_of_getElem? hr)] at hjob
  · simp [hdone.encrypting] at hjob
  · simp [hdone.wire] at hf
  · simp [hdone.writers] at hjob
  · exact hw

section Example

def helloSession : EncryptedSession := ⟨⟨External.padBlock 32 [], External.padBlock 8 []⟩⟩

theorem hello_fits : ∀ files ∈ (Setup.sender "12345abc" []).files,
    ∀ list ∈ files.filesToTransfare, list.length < 2 ^ 63 := by
  simp [Setup.sender, FilesInformation.plain]

def helloMeeting : Meeting :=
  .calm (.plain [] 5) (.sender "12345abc" []) (.receiver "12345abc") (Setup.sender_isSender _ _)
    (Setup.receiver_isSender _) hello_fits

/-- A sender that hands over the chunks of a file, with one reader task. -/
def handing (jobs queue : List FileChunkInfo) (encrypting : List EncryptJob)
    (dataSent : List DataFrame) : Session .transparent :=
  { Session.new (.calm (.plain [] 5)) with
    phase := .sending ⟨0, helloSession⟩ jobs
    readers := [⟨helloSession, queue, false⟩]
    encrypting := encrypting
    dataSent := dataSent }

/-- A receiver in the loop of the file. -/
def counting (total : ℤ) (got : List DataFrame) (writers : List WriteJob) (written : List Written)
    (disk : Location → Bytes) : Session .transparent :=
  { Session.new (.calm (.plain [] 5)) with
    phase := .chunks 0 [[97]] total got
    rw := some ⟨0, helloSession⟩
    writers := writers
    written := written
    disk := disk }

/-- What a chunk is sealed to. -/
def sealedFrame (job : EncryptJob) : DataFrame :=
  ⟨(External.padBlock 12 []).toList ++ (job.buffer ++ List.replicate 16 0), some job.file⟩

variable {r : Route} {q : Session .transparent} {s : Session .transparent} {wire : List DataFrame}
  {jobs queue : List FileChunkInfo} {encrypting : List EncryptJob} {dataSent got : List DataFrame}
  {writers : List WriteJob} {written : List Written} {disk : Location → Bytes} {total : ℤ}

theorem step_hand {job : FileChunkInfo} :
    step helloMeeting r ⟨handing (job :: jobs) queue encrypting dataSent, q, wire⟩ .hand =
      some ⟨handing jobs (queue ++ [job]) encrypting dataSent, q, wire⟩ := rfl

theorem step_read {job : FileChunkInfo} (hlen : (readJob r job).length = job.chunkSize) :
    step helloMeeting r ⟨handing jobs (job :: queue) encrypting dataSent, q, wire⟩ (.read 0) =
      some ⟨handing jobs queue
        (encrypting ++ [⟨helloSession, job.file, chunkBuffer job.chunkOffset (readJob r job)⟩])
        dataSent, q, wire⟩ := by
  simp [step, stepSender, handing, stepTask, hlen]

theorem step_encrypt {k : ℕ} {job : EncryptJob} (hjob : encrypting[k]? = some job)
    (henc : job.enc = helloSession) (hlen : job.buffer.length + 28 < 2 ^ 32) :
    step helloMeeting r ⟨handing jobs queue encrypting dataSent, q, wire⟩
        (.encrypt k (External.padBlock 12 [])) =
      some ⟨handing jobs queue (encrypting.eraseIdx k) (dataSent ++ [sealedFrame job]), q,
        wire ++ [⟨frame (sealedFrame job).payload, some job.file⟩]⟩ := by
  have hwrite : job.enc.write .transparent (External.padBlock 12 []) job.buffer =
      .ok (sealedFrame job).payload := by
    rw [henc]
    rfl
  have hshort : (sealedFrame job).payload.length < 2 ^ 32 := by
    simp only [sealedFrame, List.length_append, List.length_replicate, List.Vector.toList_length]
    omega
  simp [step, handing, stepTask, hjob, hwrite, framed_eq hshort]
  rfl

theorem step_deliver {k : ℕ} {payload : Bytes} {origin : Option ℕ}
    (hframe : wire[k]? = some ⟨frame payload, origin⟩) (hlen : payload.length < 2 ^ 32)
    (hcount : (got.length : ℤ) < total) :
    step helloMeeting r ⟨s, counting total got writers written disk, wire⟩ (.deliver k) =
      some ⟨s, counting total (got ++ [⟨payload, origin⟩])
        (writers ++ [⟨helloSession, 0, [[97]], ⟨payload, origin⟩⟩]) written disk,
        wire.eraseIdx k⟩ := by
  have hframed : unframed ⟨frame payload, origin⟩ = some ⟨payload, origin⟩ :=
    unframed_eq hlen rfl
  have hstep : Session.step helloMeeting.receiverWorld helloMeeting.receiver
      (counting total got writers written disk) (.chunk ⟨payload, origin⟩) =
      some (counting total (got ++ [⟨payload, origin⟩])
        (writers ++ [⟨helloSession, 0, [[97]], ⟨payload, origin⟩⟩]) written disk) :=
    if_pos ⟨hcount, nofun⟩
  simp [step, hframe, hframed, hstep]

theorem step_write {k : ℕ} {job : WriteJob} {offset : ℕ} {data : Bytes}
    (hjob : writers[k]? = some job)
    (hopen : openChunk .transparent job.enc job.frame.payload = .ok (offset, data)) :
    step helloMeeting r ⟨s, counting total got writers written disk, wire⟩ (.write k) =
      some ⟨s, counting total got (writers.eraseIdx k)
        (written ++ [⟨job.dest, job.frame.origin, offset, data⟩])
        (Function.update disk job.loc (writeAt 0 (disk job.loc) offset data)), wire⟩ := by
  simp [step, counting, stepTask, hjob, hopen, chunkLength, putChunk]

section TwoChunks
variable {source : Bytes} {job : FileChunkInfo}

abbrev routeOf (source : Bytes) : Route := ⟨source, 0, [[97]]⟩

/-- The sender has opened a file, and the receiver has created it. -/
def opened (source : Bytes) : Transfer .transparent :=
  ⟨handing (chunkPlan 0 source.length) [] [] [],
    counting 2 [] [] [] fun _ => List.replicate source.length 0, []⟩

theorem opened_starts (source : Bytes) :
    Starts (routeOf source) helloSession 0 (opened source) where
  jobs := ⟨0, rfl⟩
  reader := rfl
  queues := by simp [opened, handing]
  encrypting := rfl
  wire := rfl
  loop := ⟨2, rfl⟩
  rw := ⟨_, rfl, rfl⟩
  writers := rfl
  created := rfl

/-- The job that encrypts the chunk of a plan. -/
def encryptJob (source : Bytes) (job : FileChunkInfo) : EncryptJob :=
  ⟨helloSession, job.file, chunkBuffer job.chunkOffset (readJob (routeOf source) job)⟩

/-- A job that the tasks can take to the end. -/
structure Fits (source : Bytes) (job : FileChunkInfo) : Prop where
  read : (readJob (routeOf source) job).length = job.chunkSize
  short : job.chunkSize + 36 < 2 ^ 32
  offset : job.chunkOffset < 256 ^ 8

theorem Fits.buffer_short (h : Fits source job) :
    (encryptJob source job).buffer.length + 28 < 2 ^ 32 := by
  have := h.short
  simp only [encryptJob, chunkBuffer, List.length_append, leBytes_length, h.read]
  omega

theorem Fits.frame_short (h : Fits source job) :
    (sealedFrame (encryptJob source job)).payload.length < 2 ^ 32 := by
  have := h.buffer_short
  simp only [sealedFrame, List.length_append, List.length_replicate, List.Vector.toList_length]
  omega

theorem Fits.opens (h : Fits source job) :
    openChunk .transparent helloSession (sealedFrame (encryptJob source job)).payload =
      .ok (job.chunkOffset, readJob (routeOf source) job) := by
  have hsealed : helloSession.encryptor.encrypt .transparent (External.padBlock 12 [])
      (encryptJob source job).buffer = .ok (sealedFrame (encryptJob source job)).payload := rfl
  apply openChunk_of_decrypt h.offset
  exact AesEncryptor.decrypt_encrypt External.transparent_decryptInverts hsealed

theorem reach {M : Meeting} {p₀ p p' : Transfer .transparent} {e : Event}
    (h : (machine M r p₀).Reachable p) (he : step M r p e = some p') :
    (machine M r p₀).Reachable p' := h.step he

/-- Two chunks are handed over in their order; the second one is encrypted, delivered and written
before the first one. -/
theorem reachable_crossed {first second : FileChunkInfo}
    (hplan : chunkPlan 0 source.length = [first, second]) (hfirst : Fits source first)
    (hsecond : Fits source second) :
    ∃ p, (machine helloMeeting (routeOf source) (opened source)).Reachable p ∧ Settled p ∧
      p.receiver.written.map Written.offset = [second.chunkOffset, first.chunkOffset] := by
  have hopened : opened source = ⟨handing [first, second] [] [] [],
      counting 2 [] [] [] fun _ => List.replicate source.length 0, []⟩ := by
    rw [opened, hplan]
  have h0 : (machine helloMeeting (routeOf source) (opened source)).Reachable (opened source) :=
    .init
  rw [hopened] at h0 ⊢
  have h1 := reach h0 step_hand
  have h2 := reach h1 step_hand
  have h3 := reach h2 (step_read hfirst.read)
  have h4 := reach h3 (step_read hsecond.read)
  have h5 := reach h4 (step_encrypt (k := 1) rfl rfl hsecond.buffer_short)
  have h6 := reach h5 (step_encrypt (k := 0) rfl rfl hfirst.buffer_short)
  have h7 := reach h6 (step_deliver (k := 0) rfl hsecond.frame_short (by decide))
  have h8 := reach h7 (step_deliver (k := 0) rfl hfirst.frame_short (by simp))
  have h9 := reach h8 (step_write (k := 0) rfl hsecond.opens)
  have h10 := reach h9 (step_write (k := 0) rfl hfirst.opens)
  exact ⟨_, h10, ⟨rfl, by simp [handing], rfl, rfl, rfl⟩, rfl⟩

end TwoChunks

/-- A file of one byte more than a chunk. -/
def longFile : Bytes := List.replicate tcpBufferSize 1 ++ [2]

theorem longFile_length : longFile.length = 65537 := by
  rw [longFile, List.length_append, List.length_replicate]
  rfl

/-- The second chunk of the file is on the disk before the first one, and the file is complete when
both are. -/
theorem long_reassembled : ∃ p,
    (machine helloMeeting (routeOf longFile) (opened longFile)).Reachable p ∧ Settled p ∧
    p.receiver.written.map Written.offset = [65536, 0] ∧ p.receiver.disk [[97]] = longFile := by
  have hplan : chunkPlan 0 longFile.length = [⟨0, 65536, 0⟩, ⟨0, 1, 65536⟩] := by
    rw [longFile_length]
    decide
  have hfits : ∀ size offset, offset + size ≤ 65537 → Fits longFile ⟨0, size, offset⟩ := by
    intro size offset hle
    refine ⟨?_, show size + 36 < 2 ^ 32 by omega, show offset < 256 ^ 8 by omega⟩
    rw [readJob, List.length_take, List.length_drop, longFile_length]
    exact min_eq_left (show size ≤ 65537 - offset by omega)
  obtain ⟨p, hp, hdone, hwritten⟩ := reachable_crossed hplan (hfits _ _ (by decide))
    (hfits _ _ (by decide))
  have hlen : longFile.length < 2 ^ 63 := by
    rw [longFile_length]
    decide
  exact ⟨p, hp, hdone, hwritten, settled_reassembles External.transparent_decryptInverts
    External.transparent_writesShort hlen (opened_starts longFile) hp hdone⟩

end Example
end Transfer
end Croc
