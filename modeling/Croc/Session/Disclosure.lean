import Croc.Session.Held
import Croc.Session.Keyed
import Croc.Session.Panics
import Croc.Session.Sent

/-! What a sender gives away, whatever its peer says: chunks of the files that it has offered, each
for a request, and nothing in clear. -/
namespace Croc
open Lib
namespace Session
variable {X : External} {W : World} {c : Setup} {s t : Session X}

/-- The chunks that the requests of a run have planned, in order. -/
def notePlanned (planned : List FileChunkInfo) (s : Session X) (_ : Event) (t : Session X) :
    List FileChunkInfo :=
  match s.phase with
  | .recv => planned ++ t.phase.jobs
  | _ => planned

/-- A session with the chunks that it has been asked for. -/
def planning (X : External) (W : World) (c : Setup) :
    Machine (Session X × List FileChunkInfo) Event :=
  (machine X W c).observe [] notePlanned

/-- A chunk of a file of the offer, which had this length when it was opened. -/
def Offered (W : World) (c : Setup) (job : FileChunkInfo) : Prop :=
  ∃ files list file n size, c.files = some files ∧ files.filesToTransfare = some list ∧
    list[job.file]? = some file ∧
    W.os.openLen n (Path.join file.sourceFolder file.name) = some size ∧
    job ∈ chunkPlan job.file size

/-- The files have been offered. -/
def Announced (c : Setup) (s : Session X) : Prop :=
  ∃ files, c.files = some files ∧ .filesInfo files ∈ s.sent

/-- The frame is the chunk, sealed under a key from the secret. -/
def Seals (X : External) (c : Setup) (job : FileChunkInfo) (frame : DataFrame) : Prop :=
  frame.origin = some job.file ∧ ∃ enc nonce data, Keyed X c enc ∧ data.length = job.chunkSize ∧
    enc.write X nonce (chunkBuffer job.chunkOffset data) = .ok frame.payload

/-- The task has read the chunk. -/
def HasRead (job : FileChunkInfo) (e : EncryptJob) : Prop :=
  e.file = job.file ∧ ∃ data, data.length = job.chunkSize ∧
    e.buffer = chunkBuffer job.chunkOffset data

/-- What a sender has done to its surroundings. -/
structure Discloses (W : World) (c : Setup) (s : Session X) (planned : List FileChunkInfo) :
    Prop where
  /-- Nothing is created, asked or written. -/
  untouched : s.ops = [] ∧ s.prompts = [] ∧ s.disk = W.disk
  /-- What is planned has been offered. -/
  offered : ∀ job ∈ planned, Offered W c job
  announced : planned ≠ [] → Announced c s
  /-- Every frame is the sealed chunk of a plan, and no planned chunk is sent twice. -/
  sealed : ∃ used : List FileChunkInfo, (used : Multiset FileChunkInfo) ≤ planned ∧
    List.Forall₂ (Seals X c) used s.dataSent

section Chunks
variable {planned used reading : List FileChunkInfo}

/-- The chunks that wait for a reader task. -/
def waiting (s : Session X) : Multiset FileChunkInfo :=
  (s.readers.map fun r => (r.queue : Multiset FileChunkInfo)).sum

/-- Where the planned chunks are: some have been sent, some are being sealed, some wait for a
reader task, some are still to be handed to one, and some have been dropped. -/
structure OnTheWay (c : Setup) (planned used reading : List FileChunkInfo) (s : Session X) :
    Prop where
  sent : List.Forall₂ (Seals X c) used s.dataSent
  read : List.Forall₂ HasRead reading s.encrypting
  within : (used : Multiset FileChunkInfo) + reading + s.waiting + s.phase.jobs ≤
    (planned : Multiset FileChunkInfo)

/-- A step that moves no chunk, and may leave those that were still to be handed over. -/
theorem OnTheWay.of_same (h : OnTheWay c planned used reading s)
    (hd : t.dataSent = s.dataSent) (he : t.encrypting = s.encrypting)
    (hw : t.waiting ≤ s.waiting) (hj : t.phase.jobs = s.phase.jobs ∨ t.phase.jobs = []) :
    OnTheWay c planned used reading t := by
  refine ⟨hd ▸ h.sent, he ▸ h.read, le_trans ?_ h.within⟩
  refine add_le_add (add_le_add le_rfl hw) ?_
  rcases hj with hj | hj
  · rw [hj]
  · rw [hj]
    exact Multiset.zero_le _

theorem waiting_eq (h : t.readers = s.readers) : t.waiting = s.waiting := by
  unfold waiting
  rw [h]

/-- Replacing the queue of a reader task. -/
theorem waiting_set {id : ℕ} {r : ReaderTask} (hr : s.readers[id]? = some r) (r' : ReaderTask)
    (ht : t.readers = s.readers.set id r') :
    t.waiting + r.queue = s.waiting + (r'.queue : Multiset FileChunkInfo) := by
  unfold waiting
  rw [ht]
  exact sum_map_set (fun r : ReaderTask => (r.queue : Multiset FileChunkInfo)) hr r'

/-- A message plans chunks, and moves none. -/
theorem OnTheWay.message (h : OnTheWay c planned used reading s) (hp : s.phase = .recv)
    (m : Message) : OnTheWay c (planned ++ (run (onMessage W c m) s).phase.jobs)
      used reading (run (onMessage W c m) s) := by
  have hset := onMessage_settles (W := W) (c := c) (s := s) m
  have hwait : (run (onMessage W c m) s).waiting = s.waiting := by
    rcases hset.readers with hr | ⟨enc, hr⟩
    · exact waiting_eq hr
    · unfold waiting
      rw [hr, List.map_append, List.sum_append]
      exact add_zero _
  have hjobs : s.phase.jobs = [] := by rw [hp]; rfl
  have hwithin := h.within
  rw [hjobs, Multiset.coe_nil, add_zero] at hwithin
  refine ⟨hset.dataSent ▸ h.sent, hset.encrypting ▸ h.read, ?_⟩
  rw [hwait, ← Multiset.coe_add]
  exact add_le_add_left hwithin _

theorem OnTheWay.proceed (h : OnTheWay c planned used reading s) {x : Proc X Phase}
    (hx : Session.proceed W c s = some x) : OnTheWay c planned used reading (run x s) := by
  rcases proceed_cases hx with ⟨rw, hp, rfl⟩ | ⟨rw, job, jobs, hp, rfl⟩ | ⟨index, hp, rfl⟩ |
    ⟨index, loc, total, got, hp, -, rfl⟩
  · apply run_of_post
    apply afterMessage_spec.mono
    · rintro p t (⟨rfl, rfl, -⟩ | ⟨rfl, -, -, files, -, rfl⟩ | ⟨rfl, -, -, -, rfl⟩)
      · exact h.of_same rfl rfl le_rfl (Or.inr rfl)
      · exact h.of_same rfl rfl le_rfl (Or.inr rfl)
      · exact h.of_same rfl rfl le_rfl (Or.inr rfl)
    · rintro e t ⟨rfl, -⟩
      exact h.of_same rfl rfl le_rfl (Or.inr rfl)
  · apply run_handChunk
    · refine ⟨h.sent, h.read, le_trans ?_ h.within⟩
      -- the chunk moves from the loop to the reader task, if there is one
      have hjobs : (s.phase.jobs : Multiset FileChunkInfo) = {job} + (jobs : Multiset _) := by
        rw [hp]
        rfl
      have hmove : ∀ u : Session X, u.readers = s.readers.modify rw.id
          (fun r => { r with queue := r.queue ++ [job] }) → u.waiting ≤ s.waiting + {job} := by
        intro u hu
        cases hr : s.readers[rw.id]? with
        | none =>
          rw [List.modify_eq_self (List.getElem?_eq_none_iff.mp hr)] at hu
          rw [waiting_eq hu]
          exact Multiset.le_add_right _ _
        | some r =>
          rw [modify_eq_set_of_some hr] at hu
          have hsum := waiting_set hr _ hu
          rw [← Multiset.coe_add, ← add_assoc, add_right_comm] at hsum
          exact (add_right_cancel hsum).le
      rw [hjobs, ← add_assoc]
      refine add_le_add ?_ le_rfl
      rw [add_assoc _ s.waiting]
      exact add_le_add le_rfl (hmove _ rfl)
    · exact fun e => h.of_same rfl rfl le_rfl (Or.inr rfl)
  · apply run_of_post
    apply (requestFile_spec index).mono
    · rintro p t (⟨-, rfl, rfl⟩ | ⟨file, loc, -, -, rfl, rfl⟩)
      · exact h.of_same rfl rfl le_rfl (Or.inr rfl)
      · exact h.of_same rfl rfl le_rfl (Or.inr rfl)
    · rintro e t ⟨-, rfl | ⟨file, -, n, disk, dests, rfl⟩⟩
      · exact h.of_same rfl rfl le_rfl (Or.inr rfl)
      · exact h.of_same rfl rfl le_rfl (Or.inr rfl)
  · exact h.of_same rfl rfl le_rfl (Or.inr rfl)

/-- The tasks pass chunks on: a reader task reads one, a spawned task seals one and sends it. -/
theorem OnTheWay.background (h : OnTheWay c planned used reading s) (hk : HoldsKeys c s) {e : Task}
    (he : Background s e t) : ∃ used' reading', OnTheWay c planned used' reading' t := by
  cases he with
  | @read id data enc job queue hr hd =>
    refine ⟨used, reading ++ [job], h.sent, matched_concat h.read ⟨rfl, data, hd, rfl⟩,
      le_trans (le_of_eq ?_) h.within⟩
    have hsum := waiting_set hr ⟨enc, queue, false⟩ (t := { s with
      readers := s.readers.set id ⟨enc, queue, false⟩
      encrypting := s.encrypting ++ [⟨enc, job.file, chunkBuffer job.chunkOffset data⟩] }) rfl
    rw [← Multiset.cons_coe, ← Multiset.singleton_add, ← add_assoc] at hsum
    rw [← add_right_cancel hsum, ← Multiset.coe_add]
    show (used : Multiset FileChunkInfo) + (reading + {job}) + _ + _ = _
    abel
  | @readFailed id enc job queue hr =>
    have hsum := waiting_set hr ⟨enc, [], true⟩
      (t := { s with readers := s.readers.set id ⟨enc, [], true⟩ }) rfl
    refine ⟨used, reading, h.of_same rfl rfl ?_ (Or.inl rfl)⟩
    rw [← add_zero s.waiting]
    exact hsum ▸ Multiset.le_add_right _ _
  | @encrypt k nonce job payload hjob hp =>
    obtain ⟨chunk, hchunk, hfile, data, hlen, hbuffer⟩ := exists_matched h.read hjob
    have hkey : Keyed X c job.enc := hk.encrypting job (List.mem_of_getElem? hjob)
    refine ⟨used ++ [chunk], reading.eraseIdx k, matched_concat h.sent ?_,
      matched_eraseIdx h.read k, le_trans (le_of_eq ?_) h.within⟩
    · exact ⟨congrArg some hfile, job.enc, nonce, data, hkey, hlen, hbuffer ▸ hp⟩
    · have hsplit := coe_map_eraseIdx id hchunk
      rw [List.map_id, List.map_id, id, ← Multiset.singleton_add] at hsplit
      rw [hsplit, ← Multiset.coe_add]
      show (used : Multiset FileChunkInfo) + {chunk} + _ + s.waiting + _ = _
      abel
  | @unsent _ k job hjob =>
    obtain ⟨chunk, hchunk, -⟩ := exists_matched h.read hjob
    refine ⟨used, reading.eraseIdx k, h.sent, matched_eraseIdx h.read k,
      le_trans ?_ h.within⟩
    refine add_le_add (add_le_add (add_le_add le_rfl ?_) le_rfl) le_rfl
    exact (List.eraseIdx_sublist reading k).subperm
  | write => exact ⟨used, reading, h.of_same rfl rfl le_rfl (Or.inl rfl)⟩
  | unopened => exact ⟨used, reading, h.of_same rfl rfl le_rfl (Or.inl rfl)⟩

theorem notePlanned_of_idle (hp : s.phase ≠ .recv) (e : Event) :
    notePlanned planned s e t = planned := by
  unfold notePlanned
  split
  next hrecv => exact absurd hrecv hp
  · rfl

theorem notePlanned_of_nil (hj : t.phase.jobs = []) (e : Event) :
    notePlanned planned s e t = planned := by
  unfold notePlanned
  split
  · rw [hj, List.append_nil]
  · rfl

theorem notePlanned_of_same (hp : t.phase = s.phase) (e : Event) :
    notePlanned planned s e t = planned := by
  by_cases hrecv : s.phase = .recv
  · exact notePlanned_of_nil (by rw [hp, hrecv]; rfl) e
  · exact notePlanned_of_idle hrecv e

/-- No step makes a chunk appear that has not been planned. -/
theorem OnTheWay.step (h : OnTheWay c planned used reading s) (hk : HoldsKeys c s) {e : Event}
    (he : Session.step W c s e = some t) :
    ∃ used' reading', OnTheWay c (notePlanned planned s e t) used' reading' t := by
  rcases step_cases he with ⟨m, rfl, hp, rfl⟩ | ⟨err, rfl, hp, rfl⟩ |
    ⟨frame, index, loc, total, got, rfl, hp, -, -, rfl⟩ | ⟨rfl, rfl⟩ | ⟨x, rfl, hx, rfl⟩ |
    ⟨t', rfl, ht, he⟩
  · have hnew : notePlanned planned s (.message m) (run (onMessage W c m) s) =
        planned ++ (run (onMessage W c m) s).phase.jobs := by
      unfold notePlanned
      rw [hp]
    rw [hnew]
    exact ⟨used, reading, h.message hp m⟩
  · rw [notePlanned_of_nil rfl]
    exact ⟨used, reading, h.of_same rfl rfl le_rfl (Or.inr rfl)⟩
  · rw [notePlanned_of_idle (by rw [hp]; simp)]
    refine ⟨used, reading, ?_⟩
    apply run_of_post
    apply (takeChunk_spec index loc total got frame).mono
    · rintro p u ⟨rfl, rw, -, rfl⟩
      exact h.of_same rfl rfl le_rfl (Or.inr rfl)
    · rintro e u ⟨-, -, rfl⟩
      exact h.of_same rfl rfl le_rfl (Or.inr rfl)
  · have hsame : notePlanned planned s .dataClosed { s with dataClosed := true } = planned :=
      notePlanned_of_same rfl .dataClosed
    rw [hsame]
    exact ⟨used, reading, h.of_same rfl rfl le_rfl (Or.inl rfl)⟩
  · have hp : s.phase ≠ .recv := fun hp => by simp [Session.proceed, hp] at hx
    rw [notePlanned_of_idle hp]
    exact ⟨used, reading, h.proceed hx⟩
  · have hback := background_of_stepTask ht he
    have hphase : t.phase = s.phase := by
      obtain ⟨_, _, _, _, _, _, rfl⟩ := stepTask_background ht he
      rfl
    rw [notePlanned_of_same hphase]
    exact h.background hk hback

end Chunks

section Surroundings

theorem Announced.mono (h : Announced c s) {l : List Message} (hl : t.sent = s.sent ++ l) :
    Announced c t := by
  obtain ⟨files, hf, hmem⟩ := h
  exact ⟨files, hf, hl ▸ List.mem_append_left l hmem⟩

/-- What a sender leaves alone, and that it has offered its files where it sends them. -/
structure Reticent (W : World) (c : Setup) (s : Session X) : Prop where
  ops : s.ops = []
  prompts : s.prompts = []
  writers : s.writers = []
  disk : s.disk = W.disk
  outside : ¬ InLoop s.phase
  announced : s.state = .fileTransfare → Announced c s

theorem Reticent.of_same (h : Reticent W c s) (ho : t.ops = s.ops) (hq : t.prompts = s.prompts)
    (hw : t.writers = s.writers) (hd : t.disk = s.disk) (hout : ¬ InLoop t.phase)
    (hst : t.state = s.state ∨ t.state ≠ .fileTransfare) {l : List Message}
    (hl : t.sent = s.sent ++ l) : Reticent W c t where
  ops := ho.trans h.ops
  prompts := hq.trans h.prompts
  writers := hw.trans h.writers
  disk := hd.trans h.disk
  outside := hout
  announced hft := by
    rcases hst with hst | hne
    · exact (h.announced (hst ▸ hft)).mono hl
    · exact absurd hft hne

theorem afterMessage_reticent (hs : c.isSender = true) (h : Reticent W c s) :
    Reticent W c (run (afterMessage W c) s) := by
  apply run_of_post
  apply afterMessage_spec.mono
  · rintro p t (⟨rfl, rfl, -⟩ | ⟨rfl, -, -, files, hf, rfl⟩ | ⟨-, hs', -⟩)
    · exact h.of_same rfl rfl rfl rfl (by simp [InLoop]) (Or.inl rfl) (List.append_nil _).symm
    · exact ⟨h.ops, h.prompts, h.writers, h.disk, by simp [InLoop],
        fun _ => ⟨files, hf, List.mem_append_right _ (List.mem_singleton_self _)⟩⟩
    · simp [hs] at hs'
  · rintro e t ⟨rfl, -⟩
    exact h.of_same rfl rfl rfl rfl (by simp [InLoop]) (Or.inl rfl) (List.append_nil _).symm

theorem onMessage_reticent (hs : c.isSender = true) (h : Reticent W c s) (m : Message) :
    Reticent W c (run (onMessage W c m) s) := by
  cases m with
  | pake msg =>
    apply run_of_post
    apply (onPake_spec msg).mono
    · rintro p t ⟨rfl, key, enc, m, -, -, rfl⟩
      exact h.of_same rfl rfl rfl rfl (by simp [InLoop]) (Or.inr (by simp)) rfl
    · rintro e t ⟨-, k, enc, l, -, rfl⟩
      exact h.of_same rfl rfl rfl rfl (by simp [InLoop]) (Or.inl rfl) rfl
  | externalIP msg =>
    apply run_of_post
    apply (onExternalIP_spec msg).mono
    · rintro p t ⟨rfl, -, ⟨hs', -⟩ | ⟨-, files, hf, rfl⟩⟩
      · simp [hs] at hs'
      · exact ⟨h.ops, h.prompts, h.writers, h.disk, by simp [InLoop],
          fun _ => ⟨files, hf, by simp⟩⟩
    · rintro e t ⟨-, ⟨rfl, -⟩ | ⟨-, -, rfl⟩⟩
      · exact h.of_same rfl rfl rfl rfl (by simp [InLoop]) (Or.inl rfl) (List.append_nil _).symm
      · exact h.of_same rfl rfl rfl rfl (by simp [InLoop]) (Or.inr (by simp)) rfl
  | filesInfo files =>
    rw [onFilesInfo_sender hs]
    exact h.of_same rfl rfl rfl rfl (by simp [InLoop]) (Or.inl rfl) (List.append_nil _).symm
  | typeRecipientReady msg =>
    apply run_of_post
    apply (onRequest_spec msg).mono
    · rintro p t ⟨rw, files, jobs, -, -, rfl, -, -, ⟨-, -, rfl⟩ | ⟨-, -, -, -, -, -, -, rfl⟩⟩
      · exact h.of_same rfl rfl rfl rfl (by simp [InLoop]) (Or.inl rfl) (List.append_nil _).symm
      · exact h.of_same rfl rfl rfl rfl (by simp [InLoop]) (Or.inl rfl) (List.append_nil _).symm
    · rintro e t ⟨-, n, rfl⟩
      exact h.of_same rfl rfl rfl rfl (by simp [InLoop]) (Or.inl rfl) (List.append_nil _).symm
  | typeError msg =>
    exact h.of_same rfl rfl rfl rfl id (Or.inl rfl) (List.append_nil _).symm
  | finished =>
    apply run_finished
    · exact h.of_same rfl rfl rfl rfl (by simp [InLoop]) (Or.inl rfl) rfl
    · exact fun e =>
        h.of_same rfl rfl rfl rfl (by simp [InLoop]) (Or.inl rfl) (List.append_nil _).symm

/-- Whatever happens to a sender, it only talks. -/
theorem step_reticent (hs : c.isSender = true) (h : Reticent W c s) {e : Event}
    (he : step W c s e = some t) : Reticent W c t := by
  rcases step_cases he with ⟨m, rfl, -, rfl⟩ | ⟨err, rfl, -, rfl⟩ |
    ⟨frame, index, loc, total, got, rfl, hp, -, -, rfl⟩ | ⟨rfl, rfl⟩ | ⟨x, rfl, hx, rfl⟩ |
    ⟨t', rfl, ht, he⟩
  · exact onMessage_reticent hs h m
  · exact h.of_same rfl rfl rfl rfl (by simp [InLoop]) (Or.inl rfl) (List.append_nil _).symm
  · exact absurd (by simp [hp, InLoop]) h.outside
  · exact h.of_same rfl rfl rfl rfl h.outside (Or.inl rfl) (List.append_nil _).symm
  · rcases proceed_cases hx with ⟨rw, -, rfl⟩ | ⟨rw, job, jobs, -, rfl⟩ | ⟨index, hp, -⟩ |
      ⟨index, loc, total, got, hp, -, -⟩
    · exact afterMessage_reticent hs h
    · apply run_handChunk
      · exact h.of_same rfl rfl rfl rfl (by simp [InLoop]) (Or.inl rfl) (List.append_nil _).symm
      · exact fun e =>
          h.of_same rfl rfl rfl rfl (by simp [InLoop]) (Or.inl rfl) (List.append_nil _).symm
    · exact absurd (by simp [hp, InLoop]) h.outside
    · exact absurd (by simp [hp, InLoop]) h.outside
  · cases background_of_stepTask ht he with
    | read | readFailed | encrypt | unsent =>
      exact h.of_same rfl rfl rfl rfl h.outside (Or.inl rfl) (List.append_nil _).symm
    | write hjob => simp [h.writers] at hjob
    | unopened hjob => simp [h.writers] at hjob

theorem init_reticent : Reticent W c (init X W c) := by
  apply run_of_post
  apply start_spec.mono
  · rintro p t ⟨rfl, ⟨-, rfl⟩ | ⟨-, key, msg, rfl⟩⟩
    · exact ⟨rfl, rfl, rfl, rfl, by simp [InLoop], by simp [new]⟩
    · exact ⟨rfl, rfl, rfl, rfl, by simp [InLoop], by simp [new]⟩
  · rintro e t ⟨-, k, rfl⟩
    exact ⟨rfl, rfl, rfl, rfl, by simp [InLoop], by simp [new]⟩

/-- What a message plans is chunks of a file that has been offered. -/
theorem offered_of_message (m : Message) {job : FileChunkInfo}
    (hjob : job ∈ (run (onMessage W c m) s).phase.jobs) :
    Offered W c job ∧ s.state = .fileTransfare := by
  by_cases hm : ∀ msg, m ≠ .typeRecipientReady msg
  · rw [(onMessage_settles m).jobs hm] at hjob
    cases hjob
  obtain ⟨msg, rfl⟩ : ∃ msg, m = .typeRecipientReady msg := by simpa using hm
  rcases run_cases (onRequest_spec (W := W) (c := c) (s := s) msg) with
    ⟨p, t, ht, rw, files, jobs, -, hfiles, rfl, -, hst, h⟩ | ⟨e, t, ht, -⟩
  · rw [ht] at hjob
    rcases h with ⟨-, rfl, -⟩ | ⟨list, file, size, hlist, hfile, hsize, rfl, -⟩
    · cases hjob
    · have hindex := file_of_mem_chunkPlan hjob
      exact ⟨⟨files, list, file, s.calls, size, hfiles, hlist, hindex ▸ hfile, hsize,
        hindex ▸ hjob⟩, hst⟩
  · rw [ht] at hjob
    cases hjob

/-- Where a session waits for messages, only a message plans chunks. -/
theorem planned_of_step (hp : s.phase = .recv) {e : Event} (he : step W c s e = some t)
    {job : FileChunkInfo} (hjob : job ∈ t.phase.jobs) :
    Offered W c job ∧ s.state = .fileTransfare := by
  have hnone : t.phase = s.phase → job ∉ t.phase.jobs := by
    intro ht
    rw [ht, hp]
    exact List.not_mem_nil
  rcases step_cases he with ⟨m, rfl, -, rfl⟩ | ⟨err, rfl, -, rfl⟩ |
    ⟨frame, index, loc, total, got, rfl, hp', -⟩ | ⟨rfl, rfl⟩ | ⟨x, rfl, hx, rfl⟩ |
    ⟨t', rfl, ht, he⟩
  · exact offered_of_message m hjob
  · cases hjob
  · simp [hp] at hp'
  · exact absurd hjob (hnone rfl)
  · simp [proceed, hp] at hx
  · obtain ⟨_, _, _, _, _, _, rfl⟩ := stepTask_background ht he
    exact absurd hjob (hnone rfl)

end Surroundings

section Sender

/-- What a sender has done, and the chunks that are still on their way. -/
structure Accounts (W : World) (c : Setup) (s : Session X) (planned : List FileChunkInfo) :
    Prop where
  keys : HoldsKeys c s
  reticent : Reticent W c s
  offered : ∀ job ∈ planned, Offered W c job
  announced : planned ≠ [] → Announced c s
  chunks : ∃ used reading, OnTheWay c planned used reading s

theorem Accounts.discloses {planned : List FileChunkInfo} (h : Accounts W c s planned) :
    Discloses W c s planned := by
  obtain ⟨used, reading, hway⟩ := h.chunks
  refine ⟨⟨h.reticent.ops, h.reticent.prompts, h.reticent.disk⟩, h.offered, h.announced, used,
    le_trans ?_ hway.within, hway.sent⟩
  rw [add_assoc, add_assoc]
  exact Multiset.le_add_right _ _

theorem step_accounts (hs : c.isSender = true) {planned : List FileChunkInfo}
    (h : Accounts W c s planned) {e : Event} (he : step W c s e = some t) :
    Accounts W c t (notePlanned planned s e t) := by
  obtain ⟨used, reading, hway⟩ := h.chunks
  obtain ⟨l, hl, -⟩ := (step_logged he).sent
  -- what is new has been planned by a message, and only after the offer
  have hnew : ∀ job ∈ notePlanned planned s e t,
      job ∈ planned ∨ Offered W c job ∧ s.state = .fileTransfare := by
    intro job hjob
    by_cases hp : s.phase = .recv
    · have hnote : notePlanned planned s e t = planned ++ t.phase.jobs := by
        unfold notePlanned
        rw [hp]
      rw [hnote] at hjob
      exact (List.mem_append.mp hjob).imp_right (planned_of_step hp he)
    · rw [notePlanned_of_idle hp] at hjob
      exact Or.inl hjob
  refine ⟨step_holdsKeys h.keys he, step_reticent hs h.reticent he, fun job hjob => ?_,
    fun hne => ?_, hway.step h.keys he⟩
  · exact (hnew job hjob).elim (h.offered job) And.left
  · obtain ⟨job, hjob⟩ := List.exists_mem_of_ne_nil _ hne
    rcases hnew job hjob with hold | ⟨-, hst⟩
    · exact (h.announced (List.ne_nil_of_mem hold)).mono hl
    · exact (h.reticent.announced hst).mono hl

theorem init_accounts : Accounts W c (init X W c) [] := by
  refine ⟨init_holdsKeys, init_reticent, List.forall_mem_nil _, fun h => absurd rfl h, [], [], ?_⟩
  have hnew : ∀ u : Session X, u.dataSent = [] → u.encrypting = [] → u.readers = [] →
      u.phase.jobs = [] → OnTheWay c [] [] [] u := by
    intro u hd he hr hj
    refine ⟨hd ▸ .nil, he ▸ .nil, ?_⟩
    unfold waiting
    rw [hr, hj]
    exact le_rfl
  apply run_of_post
  apply start_spec.mono
  · rintro p t ⟨rfl, ⟨-, rfl⟩ | ⟨-, key, msg, rfl⟩⟩
    · exact hnew _ rfl rfl rfl rfl
    · exact hnew _ rfl rfl rfl rfl
  · rintro e t ⟨-, k, rfl⟩
    exact hnew _ rfl rfl rfl rfl

/-- Whatever its peer says and however its tasks take turns, a sender touches nothing and gives
away only chunks of files that it has offered, once for each time they are asked for and sealed
under keys from its secret. -/
theorem reachable_discloses (hs : c.isSender = true) {planned : List FileChunkInfo}
    (h : (planning X W c).Reachable (s, planned)) : Discloses W c s planned := by
  have hacc : Accounts W c s planned := by
    apply h.invariant (P := fun p => Accounts W c p.1 p.2) init_accounts
    intro p e p' _ hp he
    obtain ⟨hstep, hnote⟩ := Machine.observe_step.mp he
    rw [hnote]
    exact step_accounts hs hp hstep
  exact hacc.discloses

/-- A sender of one file of five bytes that is asked for it twice, and has sent it once. -/
theorem asked_twice_discloses : ∃ s planned,
    (planning .transparent (.calm (.plain [] 5))
      (.sender "12345abc" [.plain "a" "" 5])).Reachable (s, planned) ∧
    Discloses (.calm (.plain [] 5)) (.sender "12345abc" [.plain "a" "" 5]) s planned ∧
    planned = [⟨0, 5, 0⟩, ⟨0, 5, 0⟩] ∧ s.dataSent.length = 1 := by
  obtain ⟨⟨s, planned⟩, h, htest⟩ := Machine.ReachableBy.exists_of_exec
    (M := planning .transparent (.calm (.plain [] 5)) (.sender "12345abc" [.plain "a" "" 5]))
    (fun _ _ => True)
    (fun p => p.2 == [⟨0, 5, 0⟩, ⟨0, 5, 0⟩] && p.1.dataSent.length == 1)
    (receiverHello ++ [.message (fileRequest 0), .task .tick, .task .tick,
      .task (.read 0 (asBytes "hello")), .task (.encrypt 0 (External.padBlock 12 [])),
      .message (fileRequest 0)]) (by decide +kernel)
  obtain ⟨hplanned, hlen⟩ := (Bool.and_eq_true _ _).mp htest
  exact ⟨s, planned, h, reachable_discloses rfl h, by simpa using hplanned, by simpa using hlen⟩

end Sender
end Session
end Croc
