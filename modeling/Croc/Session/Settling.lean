import Croc.Session.Held

/-! A session whose peer has fallen silent comes to rest, whatever the peer has said before: it
waits for the peer or is over, and its tasks have nothing left to do. -/
namespace Croc
open Lib
namespace Session
variable {X : External} {W : World} {c : Setup} {s t : Session X}

/-- Nothing happens but what the session and its tasks do. -/
def Alone (_ : Session X) (e : Event) : Prop := ∃ t, e = .task t

/-- It waits for a message or for a chunk, or it is over. -/
def Waits (s : Session X) : Prop :=
  match s.phase with
  | .recv | .ended _ => True
  | .chunks _ _ total got => (got.length : ℤ) < total ∧ s.dataClosed = false
  | .sending .. | .nextFile _ => False

/-- The session waits, and no task has anything to do. -/
structure Settled (s : Session X) : Prop where
  waits : Waits s
  readers : ∀ r ∈ s.readers, r.ended = false → r.queue = []
  encrypting : s.encrypting = []
  writers : s.writers = []

/-- What `process_client` can do by itself, with `n` files to receive. A chunk costs three steps
more when it has been handed over. -/
def ownWork (n : ℕ) : Phase → ℕ
  | .recv | .ended _ => 0
  | .sending _ jobs => 4 * jobs.length + 2 * n + 2
  | .nextFile i => 2 * (n - i) + 1
  | .chunks i .. => 2 * (n - (i + 1)) + 2

/-- What the session and its tasks can do while the peer is silent. -/
def quietWork (s : Session X) : ℕ :=
  ownWork (s.toReceive.elim 0 List.length) s.phase +
    3 * (s.readers.map fun r => r.queue.length).sum + 2 * s.encrypting.length + s.writers.length

section Work

/-- A step of `process_client` that gives its tasks nothing to do. -/
theorem quietWork_lt (hr : t.readers = s.readers) (he : t.encrypting = s.encrypting)
    (hw : t.writers = s.writers) (hf : t.toReceive = s.toReceive)
    (hlt : ownWork (s.toReceive.elim 0 List.length) t.phase <
      ownWork (s.toReceive.elim 0 List.length) s.phase) : quietWork t < quietWork s := by
  unfold quietWork
  rw [hr, he, hw, hf]
  omega

/-- What a reader task has to do, when one of them is given a new queue. -/
theorem queues_set {id : ℕ} {r : ReaderTask} (hr : s.readers[id]? = some r) (r' : ReaderTask) :
    ((s.readers.set id r').map fun r => r.queue.length).sum + r.queue.length =
      (s.readers.map fun r => r.queue.length).sum + r'.queue.length :=
  sum_map_set (fun r : ReaderTask => r.queue.length) hr r'

/-- A chunk is queued for a reader task, if there is one. -/
theorem queues_modify (id : ℕ) (job : FileChunkInfo) :
    ((s.readers.modify id fun r => { r with queue := r.queue ++ [job] }).map
      fun r => r.queue.length).sum ≤ (s.readers.map fun r => r.queue.length).sum + 1 := by
  cases hr : s.readers[id]? with
  | none =>
    rw [List.modify_eq_self (List.getElem?_eq_none_iff.mp hr)]
    exact Nat.le_succ _
  | some r =>
    have hsum := queues_set hr { r with queue := r.queue ++ [job] }
    rw [modify_eq_set_of_some hr]
    rw [List.length_append, List.length_singleton] at hsum
    omega

theorem proceed_quietWork {x : Proc X Phase} (hx : proceed W c s = some x) :
    quietWork (run x s) < quietWork s := by
  rcases proceed_cases hx with ⟨rw, hp, rfl⟩ | ⟨rw, job, jobs, hp, rfl⟩ | ⟨i, hp, rfl⟩ |
    ⟨i, loc, total, got, hp, -, rfl⟩
  · apply run_of_post (I := fun u => quietWork u < quietWork s)
    apply afterMessage_spec.mono
    · rintro p t (⟨rfl, rfl, -⟩ | ⟨rfl, -, -, files, -, rfl⟩ | ⟨rfl, -, -, -, rfl⟩) <;>
        exact quietWork_lt rfl rfl rfl rfl (by simp [ownWork, hp])
    · rintro h t ⟨rfl, -⟩
      exact quietWork_lt rfl rfl rfl rfl (by simp [ownWork, hp])
  · apply run_handChunk (I := fun u => quietWork u < quietWork s)
    · have hsum := queues_modify (s := s) rw.id job
      simp only [quietWork, toReceive, ownWork, hp, List.length_cons]
      omega
    · exact fun e => quietWork_lt rfl rfl rfl rfl (by simp [ownWork, hp])
  · apply run_of_post (I := fun u => quietWork u < quietWork s)
    apply (requestFile_spec i).mono
    · rintro p t (⟨-, rfl, rfl⟩ | ⟨file, loc, hfile, -, rfl, rfl⟩)
      · exact quietWork_lt rfl rfl rfl rfl (by simp [ownWork, hp])
      · refine quietWork_lt rfl rfl rfl rfl ?_
        obtain ⟨list, hlist, hget⟩ := Option.bind_eq_some_iff.mp hfile
        obtain ⟨hlt, -⟩ := List.getElem?_eq_some_iff.mp hget
        simp only [ownWork, hp, hlist, Option.elim_some]
        omega
    · rintro h t ⟨-, rfl | ⟨file, -, n, disk, dests, rfl⟩⟩ <;>
        exact quietWork_lt rfl rfl rfl rfl (by simp [ownWork, hp])
  · have hrun : run (pure (.nextFile (i + 1))) s = { s with phase := .nextFile (i + 1) } := rfl
    exact quietWork_lt rfl rfl rfl rfl (by simp [hrun, ownWork, hp])

/-- Every step of a session and its tasks takes something off. -/
theorem stepTask_quietWork {e : Task} (he : stepTask W c s e = some t) :
    quietWork t < quietWork s := by
  by_cases htick : e = .tick
  · subst htick
    obtain ⟨x, hx, rfl⟩ := Option.map_eq_some_iff.mp he
    exact proceed_quietWork hx
  · cases background_of_stepTask htick he with
    | @read id data enc job queue hr hd =>
      have hsum := queues_set hr ⟨enc, queue, false⟩
      simp only [quietWork, toReceive, List.length_append, List.length_cons,
        List.length_nil] at hsum ⊢
      omega
    | @readFailed id enc job queue hr =>
      have hsum := queues_set hr ⟨enc, [], true⟩
      simp only [quietWork, toReceive, List.length_cons, List.length_nil] at hsum ⊢
      omega
    | @encrypt k nonce job payload hjob hp =>
      have hlt := (List.getElem?_eq_some_iff.mp hjob).1
      simp only [quietWork, toReceive, List.length_eraseIdx_of_lt hlt]
      omega
    | @unsent _ k job hjob =>
      have hlt := (List.getElem?_eq_some_iff.mp hjob).1
      simp only [quietWork, toReceive, List.length_eraseIdx_of_lt hlt]
      omega
    | @write k done job offset data hjob ho =>
      have hlt := (List.getElem?_eq_some_iff.mp hjob).1
      simp only [quietWork, toReceive, putChunk, List.length_eraseIdx_of_lt hlt]
      omega
    | @unopened k done job hjob =>
      have hlt := (List.getElem?_eq_some_iff.mp hjob).1
      simp only [quietWork, toReceive, List.length_eraseIdx_of_lt hlt]
      omega

end Work

/-- `process_client` goes on where it does not wait. -/
theorem exists_tick (h : ¬ Waits s) : ∃ t, stepTask W c s .tick = some t := by
  suffices hx : ∃ x, proceed W c s = some x by
    obtain ⟨x, hx⟩ := hx
    exact ⟨_, Option.map_eq_some_iff.mpr ⟨x, hx, rfl⟩⟩
  unfold Waits at h
  cases hp : s.phase with
  | recv | ended r => simp [hp] at h
  | sending rw jobs => cases jobs <;> simp [proceed, hp]
  | nextFile i => simp [proceed, hp]
  | chunks i loc total got =>
    have hgo : total ≤ got.length ∨ s.dataClosed = true := by
      by_contra hwait
      rw [not_or, not_le] at hwait
      exact h (by simpa [hp] using hwait)
    simp [proceed, hp, hgo]

/-- Where something is left to do, some task does it. -/
theorem exists_task (h : ¬ Settled s) : ∃ e t, stepTask W c s e = some t := by
  by_cases hwaits : Waits s
  swap
  · exact ⟨.tick, exists_tick hwaits⟩
  by_cases hencrypting : s.encrypting = []
  swap
  · obtain ⟨job, jobs, hjobs⟩ := List.exists_cons_of_ne_nil hencrypting
    exact ⟨.encrypt 0 (External.padBlock 12 []), Option.isSome_iff_exists.mp
      (by simp [stepTask, hjobs])⟩
  by_cases hwriters : s.writers = []
  swap
  · obtain ⟨job, jobs, hjobs⟩ := List.exists_cons_of_ne_nil hwriters
    exact ⟨.write 0 0, Option.isSome_iff_exists.mp (by simp [stepTask, hjobs])⟩
  obtain ⟨r, hr, hended, hqueue⟩ : ∃ r ∈ s.readers, r.ended = false ∧ r.queue ≠ [] := by
    by_contra hall
    exact h ⟨hwaits, fun r hr hended => by_contra fun hq => hall ⟨r, hr, hended, hq⟩, hencrypting,
      hwriters⟩
  obtain ⟨id, hid⟩ := List.getElem?_of_mem hr
  obtain ⟨job, queue, hqueue⟩ := List.exists_cons_of_ne_nil hqueue
  obtain ⟨enc, _, _⟩ := r
  subst hended hqueue
  exact ⟨.read id (List.replicate job.chunkSize 0), Option.isSome_iff_exists.mp
    (by simp [stepTask, hid])⟩

/-- A session that its peer leaves alone comes to rest, whatever it has been told and sent before,
and however its tasks take turns: no request and no offer keeps it busy for ever. -/
theorem settles (s : Session X) : (machine X W c).Inevitable Alone Settled s := by
  apply Machine.inevitable_of_measure (I := fun _ => True) quietWork
  · intro s _ hnot
    obtain ⟨e, t, he⟩ := exists_task (W := W) (c := c) hnot
    exact ⟨.task e, t, ⟨e, rfl⟩, he⟩
  · rintro s _ t - ⟨e, rfl⟩ he
    exact Or.inr ⟨trivial, stepTask_quietWork he⟩
  · trivial

end Session
end Croc
