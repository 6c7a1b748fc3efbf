import Mathlib.Data.Multiset.Replicate
import Mathlib.Algebra.Order.Group.Multiset
import Croc.Lib.Tally
import Croc.Session.Spec

/-! The chunks that a session still has to send, by the source files they come from. -/
namespace Croc
open Lib

/-- The chunks that are still to be handed to the reader task. -/
def Phase.jobs : Phase → List FileChunkInfo
  | .sending _ jobs => jobs
  | .recv | .nextFile _ | .chunks .. | .ended _ => []

@[simp] theorem Phase.jobs_sending (rw : FsInterface) (jobs : List FileChunkInfo) :
    (Phase.sending rw jobs).jobs = jobs := rfl

/-- The source files of chunks to read. -/
def sources (jobs : List FileChunkInfo) : Multiset (Option ℕ) :=
  Multiset.ofList (jobs.map fun job => some job.file)

/-- The source files of frames. -/
def origins (frames : List DataFrame) : Multiset (Option ℕ) :=
  Multiset.ofList (frames.map DataFrame.origin)

@[simp] theorem sources_nil : sources [] = 0 := rfl

@[simp] theorem origins_nil : origins [] = 0 := rfl

theorem sources_cons (job : FileChunkInfo) (jobs : List FileChunkInfo) :
    sources (job :: jobs) = {some job.file} + sources jobs := rfl

theorem sources_append (jobs jobs' : List FileChunkInfo) :
    sources (jobs ++ jobs') = sources jobs + sources jobs' := by
  unfold sources
  rw [List.map_append, ← Multiset.coe_add]

theorem origins_append (frames frames' : List DataFrame) :
    origins (frames ++ frames') = origins frames + origins frames' := by
  unfold origins
  rw [List.map_append, ← Multiset.coe_add]

theorem sources_chunkPlan (file size : ℕ) :
    sources (chunkPlan file size) =
      Multiset.replicate (pieceCount tcpBufferSize size) (some file) := by
  refine Multiset.eq_replicate.mpr ⟨?_, fun o ho => ?_⟩
  · rw [sources, Multiset.coe_card, List.length_map, chunkPlan_length]
  · obtain ⟨job, hjob, rfl⟩ := List.mem_map.mp (Multiset.mem_coe.mp ho)
    rw [file_of_mem_chunkPlan hjob]

namespace Session
variable {X : External} {W : World} {c : Setup} {s t : Session X}

/-- The source files of the chunks that wait for a reader task. -/
def queued (s : Session X) : Multiset (Option ℕ) :=
  (s.readers.map fun r => sources r.queue).sum

/-- The source files of the chunks that wait to be encrypted. -/
def sealing (s : Session X) : Multiset (Option ℕ) :=
  Multiset.ofList (s.encrypting.map fun job => some job.file)

/-- The source files of the chunks that a session has yet to send. -/
def held (s : Session X) : Multiset (Option ℕ) :=
  sources s.phase.jobs + s.queued + s.sealing

theorem Settles.queued {m : Message} (h : Settles m s t) : t.queued = s.queued := by
  unfold Session.queued
  rcases h.readers with hr | ⟨enc, hr⟩
  · rw [hr]
  · rw [hr, List.map_append, List.sum_append]
    simp

/-- Only a request leaves chunks to be handed over. -/
theorem Settles.jobs {m : Message} (h : Settles m s t)
    (hm : ∀ msg, m ≠ .typeRecipientReady msg) : t.phase.jobs = [] := by
  cases h.landing with
  | recv h => rw [h]; rfl
  | sending msg h => exact absurd h (hm msg)
  | loop h => rw [h]; rfl
  | ended r h => rw [h]; rfl

theorem sealing_of_aside (h : Aside s t) : t.sealing = s.sealing := by
  unfold sealing
  rw [h.encrypting]

/-- A session that plans no chunks holds those that it held before, at most. -/
theorem held_le_of_aside (h : Aside s t) (hq : t.queued = s.queued) (hj : t.phase.jobs = []) :
    t.held ≤ s.held := by
  unfold held
  rw [hj, hq, sealing_of_aside h, sources_nil]
  exact add_le_add_left (add_le_add_left (Multiset.zero_le _) _) _

/-- A request moves no chunk either, but plans those of the file as it is on opening. -/
theorem onRequest_held (hp : s.phase = .recv) (msg : RemoteFileRequest) :
    (run (onMessage W c (.typeRecipientReady msg)) s).held = s.held ∨
      ∃ files list file size, c.files = some files ∧ files.filesToTransfare = some list ∧
        list[msg.filesToTransferCurrentNum.toUInt64.toNat]? = some file ∧
        W.os.openLen s.calls (Path.join file.sourceFolder file.name) = some size ∧
        (run (onMessage W c (.typeRecipientReady msg)) s).held = s.held +
          Multiset.replicate (pieceCount tcpBufferSize size)
            (some msg.filesToTransferCurrentNum.toUInt64.toNat) := by
  have hun := onMessage_settles (W := W) (c := c) (s := s) (.typeRecipientReady msg)
  have hheld : s.held = s.queued + s.sealing := by
    unfold held
    rw [hp]
    exact congrArg (· + s.sealing) (zero_add _)
  have hplan : ∀ jobs : List FileChunkInfo,
      (run (onMessage W c (.typeRecipientReady msg)) s).phase.jobs = jobs →
      (run (onMessage W c (.typeRecipientReady msg)) s).held = s.held + sources jobs := by
    intro jobs hjobs
    rw [hheld, held, hjobs, hun.queued, sealing_of_aside hun.toAside]
    abel
  rcases run_cases (onRequest_spec (W := W) (c := c) (s := s) msg) with
    ⟨p, t, ht, rw, files, jobs, -, hfiles, rfl, -, -, h⟩ | ⟨h, t, ht, -⟩
  · have hjobs := hplan jobs (by rw [ht]; rfl)
    rcases h with ⟨-, rfl, -⟩ | ⟨list, file, size, hlist, hfile, hsize, rfl, -⟩
    · exact Or.inl (hjobs.trans (add_zero _))
    · refine Or.inr ⟨files, list, file, size, hfiles, hlist, hfile, hsize, ?_⟩
      rw [hjobs, sources_chunkPlan]
  · exact Or.inl ((hplan [] (by rw [ht]; rfl)).trans (add_zero _))

/-- No other message gives a session a chunk to send. -/
theorem onMessage_held {m : Message} (hm : ∀ msg, m ≠ .typeRecipientReady msg) :
    (run (onMessage W c m) s).held ≤ s.held := by
  have hun := onMessage_settles (W := W) (c := c) (s := s) m
  exact held_le_of_aside hun.toAside hun.queued (hun.jobs hm)

section Tasks

/-- The reader task takes the chunk that it is handed. -/
theorem handChunk_queued (id : ℕ) (job : FileChunkInfo)
    (ht : t.readers = s.readers.modify id fun r => { r with queue := r.queue ++ [job] }) :
    t.queued ≤ {some job.file} + s.queued := by
  unfold queued
  rw [ht]
  cases hr : s.readers[id]? with
  | none =>
    rw [List.modify_eq_self (List.getElem?_eq_none_iff.mp hr)]
    exact Multiset.le_add_left _ _
  | some r =>
    rw [modify_eq_set_of_some hr]
    have hsum := sum_map_set (fun r : ReaderTask => sources r.queue) hr
      { r with queue := r.queue ++ [job] }
    simp only [sources_append] at hsum
    have hjob : sources [job] = {some job.file} := rfl
    rw [hjob, ← add_assoc, add_right_comm] at hsum
    rw [add_right_cancel hsum, add_comm]

theorem proceed_held {x : Proc X Phase} (hx : proceed W c s = some x) :
    Aside s (run x s) ∧ (run x s).held ≤ s.held := by
  have hquiet : ∀ u : Session X, Aside s u → u.readers = s.readers → u.phase.jobs = [] →
      Aside s u ∧ u.held ≤ s.held :=
    fun u hu hq hj => ⟨hu, held_le_of_aside hu (by unfold queued; rw [hq]) hj⟩
  rcases proceed_cases hx with ⟨rw, hp, rfl⟩ | ⟨rw, job, jobs, hp, rfl⟩ | ⟨index, hp, rfl⟩ |
    ⟨index, loc, total, got, hp, -, rfl⟩
  · apply run_of_post (I := fun u => Aside s u ∧ u.held ≤ s.held)
    apply afterMessage_spec.mono
    · rintro p t (⟨rfl, rfl, -⟩ | ⟨rfl, -, -, files, -, rfl⟩ | ⟨rfl, -, -, -, rfl⟩)
      · exact hquiet _ ⟨rfl, rfl, rfl, rfl, rfl⟩ rfl rfl
      · exact hquiet _ ⟨rfl, rfl, rfl, rfl, rfl⟩ rfl rfl
      · exact hquiet _ ⟨rfl, rfl, rfl, rfl, rfl⟩ rfl rfl
    · rintro h t ⟨rfl, -⟩
      exact hquiet _ ⟨rfl, rfl, rfl, rfl, rfl⟩ rfl rfl
  · apply run_handChunk (I := fun u => Aside s u ∧ u.held ≤ s.held)
    · refine ⟨⟨rfl, rfl, rfl, rfl, rfl⟩, ?_⟩
      have hq := handChunk_queued (s := s) (t := { s with
        readers := s.readers.modify rw.id fun r => { r with queue := r.queue ++ [job] } })
        rw.id job rfl
      have hs : s.held = sources jobs + ({some job.file} + s.queued) + s.sealing := by
        unfold held
        rw [hp]
        simp only [Phase.jobs, sources_cons]
        abel
      rw [hs]
      exact add_le_add_left (add_le_add_right hq _) _
    · exact fun e => hquiet _ ⟨rfl, rfl, rfl, rfl, rfl⟩ rfl rfl
  · apply run_of_post (I := fun u => Aside s u ∧ u.held ≤ s.held)
    apply (requestFile_spec index).mono
    · rintro p t (⟨-, rfl, rfl⟩ | ⟨file, loc, -, -, rfl, rfl⟩)
      · exact hquiet _ ⟨rfl, rfl, rfl, rfl, rfl⟩ rfl rfl
      · exact hquiet _ ⟨rfl, rfl, rfl, rfl, rfl⟩ rfl rfl
    · rintro h t ⟨-, rfl | ⟨file, -, n, disk, dests, rfl⟩⟩
      · exact hquiet _ ⟨rfl, rfl, rfl, rfl, rfl⟩ rfl rfl
      · exact hquiet _ ⟨rfl, rfl, rfl, rfl, rfl⟩ rfl rfl
  · exact hquiet _ ⟨rfl, rfl, rfl, rfl, rfl⟩ rfl rfl

/-- A reader task moves the chunk at the head of its queue on, or drops its queue. -/
theorem queued_set {id : ℕ} {enc : EncryptedSession} {job : FileChunkInfo}
    {queue : List FileChunkInfo} (hr : s.readers[id]? = some ⟨enc, job :: queue, false⟩)
    (r : ReaderTask) (ht : t.readers = s.readers.set id r) :
    t.queued + ({some job.file} + sources queue) = s.queued + sources r.queue := by
  unfold queued
  rw [ht]
  exact sum_map_set (fun r : ReaderTask => sources r.queue) hr r

theorem held_le (hp : t.phase = s.phase) {new : Multiset (Option ℕ)}
    (h : t.queued + t.sealing + new ≤ s.queued + s.sealing) : t.held + new ≤ s.held := by
  unfold held
  rw [hp, add_assoc (sources s.phase.jobs), add_assoc (sources s.phase.jobs),
    add_assoc (sources s.phase.jobs)]
  exact add_le_add_right h _

/-- A spawned task takes its chunk out of those that wait. -/
theorem sealing_eraseIdx {k : ℕ} {job : EncryptJob} (hjob : s.encrypting[k]? = some job) :
    s.sealing = some job.file ::ₘ
      Multiset.ofList ((s.encrypting.eraseIdx k).map fun job => some job.file) :=
  coe_map_eraseIdx (fun job : EncryptJob => some job.file) hjob

/-- The other tasks pass chunks on, or lose them, up to the data connection. -/
theorem stepTask_held {e : Task} (hne : e ≠ .tick) (he : stepTask W c s e = some t) :
    ∃ l, t.dataSent = s.dataSent ++ l ∧ t.held + origins l ≤ s.held := by
  cases background_of_stepTask hne he with
  | @read id data enc job queue hr hd =>
    refine ⟨[], by simp, held_le (by rfl) ?_⟩
    have hq := queued_set hr (t := { s with
      readers := s.readers.set id ⟨enc, queue, false⟩
      encrypting := s.encrypting ++ [⟨enc, job.file, chunkBuffer job.chunkOffset data⟩] })
      ⟨enc, queue, false⟩ rfl
    rw [← add_assoc] at hq
    rw [← add_right_cancel hq, origins_nil]
    apply le_of_eq
    unfold sealing
    rw [List.map_append, ← Multiset.coe_add, add_zero, ← add_assoc, add_right_comm]
    rfl
  | @readFailed id enc job queue hr =>
    refine ⟨[], by simp, held_le (by rfl) ?_⟩
    have hq := queued_set hr (t := { s with readers := s.readers.set id ⟨enc, [], true⟩ })
      ⟨enc, [], true⟩ rfl
    rw [sources_nil, add_zero] at hq
    rw [← hq, origins_nil, add_zero]
    exact add_le_add_left (Multiset.le_add_right _ _) _
  | @encrypt k nonce job payload hjob hp =>
    refine ⟨[⟨payload, some job.file⟩], rfl, held_le (by rfl) ?_⟩
    rw [sealing_eraseIdx hjob, ← Multiset.singleton_add, add_comm {some job.file}, ← add_assoc]
    exact le_rfl
  | @unsent _ k job hjob =>
    refine ⟨[], by simp, held_le (by rfl) ?_⟩
    rw [sealing_eraseIdx hjob, origins_nil, add_zero]
    exact add_le_add_right (Multiset.le_cons_self _ _) _
  | write => exact ⟨[], by simp [putChunk], held_le (by rfl) (add_zero _).le⟩
  | unopened => exact ⟨[], by simp, held_le (by rfl) (add_zero _).le⟩

/-- Only a request gives a session chunks to send; every other step passes chunks on, or loses
them. -/
theorem step_held {e : Event} (hreq : ∀ msg, e ≠ .message (.typeRecipientReady msg))
    (he : step W c s e = some t) :
    ∃ l, t.dataSent = s.dataSent ++ l ∧ t.held + origins l ≤ s.held := by
  have hkeep : t.dataSent = s.dataSent → t.held ≤ s.held →
      ∃ l, t.dataSent = s.dataSent ++ l ∧ t.held + origins l ≤ s.held :=
    fun hd hh => ⟨[], by rw [hd, List.append_nil], by rw [origins_nil, add_zero]; exact hh⟩
  rcases step_cases he with ⟨m, rfl, -, rfl⟩ | ⟨err, rfl, hp, rfl⟩ |
    ⟨frame, index, loc, total, got, rfl, hp, -, -, rfl⟩ | ⟨rfl, rfl⟩ | ⟨x, rfl, hx, rfl⟩ |
    ⟨t', rfl, ht, he⟩
  · exact hkeep (onMessage_settles m).dataSent
      (onMessage_held fun msg hm => hreq msg (congrArg Event.message hm))
  · refine hkeep rfl ?_
    unfold held
    rw [hp]
    exact le_rfl
  · apply run_of_post (I := fun t : Session X =>
      ∃ l, t.dataSent = s.dataSent ++ l ∧ t.held + origins l ≤ s.held)
    apply (takeChunk_spec index loc total got frame).mono
    · rintro p t ⟨rfl, rw, -, rfl⟩
      refine ⟨[], by simp, ?_⟩
      unfold held
      rw [hp]
      exact (add_zero _).le
    · rintro h t ⟨-, -, rfl⟩
      refine ⟨[], by simp, ?_⟩
      unfold held
      rw [hp]
      exact (add_zero _).le
  · exact hkeep rfl le_rfl
  · exact hkeep (proceed_held hx).1.dataSent (proceed_held hx).2
  · exact stepTask_held ht he

end Tasks
end Session
end Croc
