import Croc.Session.FileLoop
import Croc.Session.Provenance

/-! The file loop against the session that it is a part of. Whatever a session goes through, with
any peer, its files, its writer tasks and the file that it is at are those of a run of the loop. -/
namespace Croc
open Lib

section Extend
namespace Receiving
variable {X : External} {seeks : Location → ℕ → Bool} {disk : Location → Bytes}
  {entries more : List Destination} {frames unread : List Bytes} {s s' : Receiving}
  {e : ReceivingEvent} {closed : Bool}

/-- With more entries and more frames to come. -/
def extend (s : Receiving) (more : List Destination) (unread : List Bytes) : Receiving :=
  { s with entries := s.entries ++ more, frames := s.frames ++ unread }

/-- A step that more entries do not change, nor more frames unless the connection is closed: every
file gets its length, and none is left before its end. -/
def Steady (closed : Bool) (s : Receiving) : ReceivingEvent → Prop
  | .create => ∀ d ∈ s.entries.head?, d.opens = true
  | .leave => closed = true ∨ ∀ d n, s.current = some (d, n) → totalChunks d.file ≤ n
  | .take | .run .. => True

theorem Steady.close (h : Steady closed s e) : Steady true s e := by
  cases e with
  | create => exact h
  | leave => exact .inl rfl
  | take => trivial
  | run k answer => trivial

theorem Steady.extend (h : Steady closed s e) (he : s.step X seeks e = some s')
    (more : List Destination) (unread : List Bytes) : Steady closed (s.extend more unread) e := by
  cases e with
  | create =>
    obtain ⟨d, rest, -, hentries, -⟩ := step_create.mp he
    intro d' hd'
    apply h d'
    simpa [Receiving.extend, hentries] using hd'
  | leave => exact h
  | take => trivial
  | run k answer => trivial

theorem Steady.step_extend (h : Steady closed s e) (he : s.step X seeks e = some s')
    (hunread : closed = true → unread = []) :
    (s.extend more unread).step X seeks e = some (s'.extend more unread) := by
  cases e with
  | create =>
    obtain ⟨d, rest, hcurrent, hentries, rfl⟩ := step_create.mp he
    have ho : d.opens = true := h d (by simp [hentries])
    refine step_create.mpr ⟨d, rest ++ more, hcurrent, ?_, ?_⟩
    · rw [Receiving.extend, hentries, List.cons_append]
    · simp only [Receiving.extend, Receiving.create, ho, if_true]
  | take =>
    obtain ⟨d, amount, payload, rest, hcurrent, hframes, hlt, rfl⟩ := step_take.mp he
    refine step_take.mpr ⟨d, amount, payload, rest ++ unread, hcurrent, ?_, hlt, rfl⟩
    rw [Receiving.extend, hframes, List.cons_append]
  | leave =>
    obtain ⟨d, amount, hcurrent, hdone, rfl⟩ := step_leave.mp he
    refine step_leave.mpr ⟨d, amount, hcurrent, ?_, rfl⟩
    rcases h with hclosed | hall
    · rw [Receiving.extend, hunread hclosed, List.append_nil]
      exact hdone
    · exact .inl (hall d amount hcurrent)
  | run k answer =>
    obtain ⟨task, htask, rfl⟩ := Option.map_eq_some_iff.mp he
    exact Option.map_eq_some_iff.mpr ⟨task, htask, rfl⟩

/-- A run with steady steps is one whatever comes after it. -/
theorem reachable_extend
    (hs : (machine X seeks disk entries frames).ReachableBy (Steady closed) s)
    (more : List Destination) (unread : List Bytes) (hunread : closed = true → unread = []) :
    (machine X seeks disk (entries ++ more) (frames ++ unread)).ReachableBy (Steady closed)
      (s.extend more unread) :=
  hs.invariant (P := fun s => (machine X seeks disk (entries ++ more)
      (frames ++ unread)).ReachableBy (Steady closed) (s.extend more unread)) .init
    fun _ _ _ _ h hok he => h.step (hok.extend he more unread) (hok.step_extend he hunread)

end Receiving
end Extend

section Mirrors
open Session
variable {X : External} {W : World} {c : Setup} {seeks : Location → ℕ → Bool} {t t' : Session X}
  {r : Receiving} {d : Destination}

/-- The receive loop of a session and its writer tasks are where `r` has them. -/
structure Mirrors (t : Session X) (r : Receiving) : Prop where
  disk : t.disk = r.disk
  tasks : t.writers.map WriteJob.task = r.tasks
  current : ∀ index loc total got, t.phase = .chunks index loc total got →
    ∃ d, r.current = some (d, got.length) ∧ d.loc = loc ∧ totalChunks d.file = total ∧
      ∀ rw, t.rw = some rw → d.enc = rw.enc

/-- A step of the session that leaves its files and tasks alone, and waits for no chunk. -/
theorem Mirrors.aside (h : Mirrors t r) (hd : t'.disk = t.disk) (hw : t'.writers = t.writers)
    (hp : ∀ i loc total got, t'.phase ≠ .chunks i loc total got) : Mirrors t' r where
  disk := hd.trans h.disk
  tasks := by rw [hw, h.tasks]
  current i loc total got hphase := absurd hphase (hp i loc total got)

/-- The file of an entry is created, as in `Receiving.create`. -/
def Makes (t t' : Session X) (d : Destination) : Prop :=
  t'.disk = Function.update t.disk d.loc
    (if d.opens then List.replicate d.file.fileLength 0 else [])

theorem Mirrors.create (h : Mirrors t r) (hmakes : Makes t t' d) (hw : t'.writers = t.writers)
    (rest : List Destination) (hp : ∀ i loc total got, t'.phase = .chunks i loc total got →
      d.opens = true ∧ loc = d.loc ∧ total = totalChunks d.file ∧ got = [] ∧
        ∀ rw, t'.rw = some rw → d.enc = rw.enc) : Mirrors t' (r.create d rest) where
  disk := by rw [hmakes, Receiving.create_disk, h.disk]
  tasks := by rw [hw, h.tasks]; rfl
  current i loc total got hphase := by
    obtain ⟨ho, rfl, rfl, rfl, henc⟩ := hp i loc total got hphase
    exact ⟨d, if_pos ho, rfl, rfl, henc⟩

/-- A frame is taken for the current file. -/
theorem Mirrors.take (h : Mirrors t r) {index : ℕ} {loc : Location} {total : ℤ}
    {got : List DataFrame} (ht : t.phase = .chunks index loc total got) {rw : FsInterface}
    (hrw : t.rw = some rw) (frame : DataFrame) (hd : r.current = some (d, got.length))
    (rest : List Bytes) : Mirrors { t with
      writers := t.writers ++ [⟨rw.enc, index, loc, frame⟩]
      phase := .chunks index loc total (got ++ [frame]) }
      (r.take d got.length frame.payload rest) := by
  obtain ⟨d', hcurrent, hloc, htotal, henc⟩ := h.current _ _ _ _ ht
  obtain rfl : d' = d := (Prod.mk.inj (Option.some.inj (hcurrent.symm.trans hd))).1
  refine ⟨h.disk, ?_, fun i loc' total' got' hphase => ?_⟩
  · simp [Receiving.take, ← h.tasks, WriteJob.task, Destination.task, henc rw hrw, hloc]
  · obtain ⟨rfl, rfl, rfl, rfl⟩ := Phase.chunks.inj hphase
    exact ⟨d', by rw [List.length_append]; rfl, hloc, htotal, henc⟩

/-- A writer task of the session that opens its frame, and can seek to the offset or writes
nothing. -/
def Seekable (seeks : Location → ℕ → Bool) (t : Session X) : Event → Prop
  | .task (.write k done) => ∀ job offset data, t.writers[k]? = some job →
      openChunk X job.enc job.frame.payload = .ok (offset, data) →
      done = 0 ∨ offset < 2 ^ 63 ∧ seeks job.loc offset = true
  | _ => True

/-- A task of the session writes what the task of the loop writes. -/
theorem Mirrors.write (h : Mirrors t r) {k done : ℕ}
    (hok : Seekable seeks t (.task (.write k done)))
    (hstep : stepTask W c t (.write k done) = some t') :
    ∃ task, r.tasks[k]? = some task ∧ Mirrors t' (r.run X seeks k task ⟨done, true⟩) := by
  obtain ⟨job, hjob, rfl⟩ := Option.map_eq_some_iff.mp hstep
  have htask : r.tasks[k]? = some job.task := by
    rw [← h.tasks, List.getElem?_map, hjob, Option.map_some]
  have htasks : (t.writers.eraseIdx k).map WriteJob.task = r.tasks.eraseIdx k := by
    rw [← h.tasks, List.eraseIdx_map]
  refine ⟨job.task, htask, ?_⟩
  cases hopen : openChunk X job.enc job.frame.payload with
  | error e =>
    have hdata : (runWriter X seeks job.task ⟨done, true⟩).data = [] :=
      runWriter_data_of_error hopen
    refine ⟨?_, htasks, h.current⟩
    simp [WriterRun.writeTo, hdata, writeAt, h.disk]
  | ok chunk =>
    obtain ⟨offset, data⟩ := chunk
    have hchunk : openChunk X job.task.enc job.task.payload = .ok (offset, data) := hopen
    refine ⟨?_, htasks, h.current⟩
    rw [Receiving.run_disk, WriterRun.writeTo, runWriter_of_openChunk hchunk]
    simp only [putChunk, h.disk]
    rcases hok job offset data hjob hopen with rfl | ⟨hlt, hseeks⟩
    · split
      · simp [writeAt, WriteJob.task]
      · simp [WriteJob.task]
    · have hseek : ¬ (2 ^ 63 ≤ offset ∨ seeks job.task.loc offset = false) := by
        simp only [not_or, not_le, Bool.not_eq_false]
        exact ⟨hlt, hseeks⟩
      rw [if_neg hseek, if_neg (by simp)]
      rfl

/-- A file is created, and gets its length or not; std refuses to set one of 2^63 or more. -/
theorem createFile_makes (hlen : ∀ n loc size, W.os.setLen n loc size = true → size < 2 ^ 63)
    (enc : EncryptedSession) (file : FileInfo) (loc : Location) :
    Post (createFile W file loc) t
      (fun _ u => (u.writers = t.writers ∧ u.dataClosed = t.dataClosed ∧ u.rw = t.rw) ∧
        Destination.opens ⟨file, loc, enc, true⟩ = true ∧ Makes t u ⟨file, loc, enc, true⟩)
      (fun _ u => (u.writers = t.writers ∧ u.dataClosed = t.dataClosed) ∧
        (u.disk = t.disk ∨ Makes t u ⟨file, loc, enc, false⟩)) := by
  simp only [createFile, post_bind, post_modify, post_osTry, Function.update_idem]
  refine ⟨fun _ => ⟨fun hset => ⟨⟨trivial, trivial, trivial⟩, ?_⟩, fun _ => ?_⟩, fun _ => ?_⟩
  · obtain ⟨hsize, hfile⟩ := FileInfo.fileLength_eq (hlen _ _ _ hset)
    have ho : Destination.opens ⟨file, loc, enc, true⟩ = true := by
      simpa [Destination.opens] using hsize
    exact ⟨ho, by simp only [Makes, ho, if_true, hfile]⟩
  · exact ⟨⟨trivial, trivial⟩, .inr (by simp [Makes, Destination.opens])⟩
  · exact ⟨⟨trivial, trivial⟩, .inl trivial⟩

/-- The head of the file loop ends the list, or creates a file. -/
theorem requestFile_makes (hlen : ∀ n loc size, W.os.setLen n loc size = true → size < 2 ^ 63)
    (enc : EncryptedSession) (index : ℕ) :
    Post (requestFile W index) t
      (fun p u => (u.writers = t.writers ∧ u.dataClosed = t.dataClosed ∧ u.rw = t.rw) ∧
        (p = .recv ∧ u.disk = t.disk ∨ ∃ d : Destination, d.enc = enc ∧ d.opens = true ∧
          Makes t u d ∧ p = .chunks index d.loc (totalChunks d.file) []))
      (fun _ u => (u.writers = t.writers ∧ u.dataClosed = t.dataClosed) ∧
        (u.disk = t.disk ∨ ∃ d : Destination, d.enc = enc ∧ Makes t u d)) := by
  unfold requestFile
  rw [post_bind, post_get]
  cases t.toReceive.bind (·[index]?) with
  | none =>
    rw [post_bind, post_send]
    exact ⟨fun _ => ⟨⟨rfl, rfl, rfl⟩, .inl ⟨rfl, rfl⟩⟩, fun _ _ => ⟨⟨rfl, rfl⟩, .inl rfl⟩⟩
  | some file =>
    simp only [post_bind, post_osCall]
    apply (createFile_makes hlen enc file _).mono
    · rintro _ u ⟨⟨hw, hc, hrw⟩, ho, hmakes⟩
      rw [post_send]
      exact ⟨fun _ => ⟨⟨hw, hc, hrw⟩, .inr ⟨_, rfl, ho, hmakes, rfl⟩⟩,
        fun _ _ => ⟨⟨hw, hc⟩, .inr ⟨_, rfl, hmakes⟩⟩⟩
    · rintro _ u ⟨haside, hdisk⟩
      exact ⟨haside, hdisk.imp_right fun hmakes => ⟨_, rfl, hmakes⟩⟩

/-- `process_client` goes on, and does not wait for a chunk. -/
def Between (t : Session X) : Prop :=
  (∀ i loc total got, t.phase ≠ .chunks i loc total got) ∧ ∀ result, t.phase ≠ .ended result

/-- The session mirrors a run of the loop that has taken all of its frames. While `process_client`
goes on, more may follow. -/
structure MirrorsRun (W : World) (seeks : Location → ℕ → Bool) (entries : List Destination)
    (frames : List Bytes) (t : Session X) (r : Receiving) : Prop where
  mirrors : Mirrors t r
  spent : r.entries = [] ∧ r.frames = []
  reach : (Receiving.machine X seeks W.disk entries frames).Reachable r
  steady : (∀ result, t.phase ≠ .ended result) →
    (Receiving.machine X seeks W.disk entries frames).ReachableBy (Receiving.Steady t.dataClosed) r
  between : Between t → r.current = none

section Run
variable {entries : List Destination} {frames : List Bytes}

/-- A step that neither creates a file nor takes a frame. -/
theorem MirrorsRun.aside (h : MirrorsRun W seeks entries frames t r) (hd : t'.disk = t.disk)
    (hw : t'.writers = t.writers) (hc : t'.dataClosed = t.dataClosed)
    (hp : ∀ i loc total got, t'.phase ≠ .chunks i loc total got)
    (hgo : (∃ result, t'.phase = .ended result) ∨ Between t) :
    MirrorsRun W seeks entries frames t' r := by
  refine ⟨h.mirrors.aside hd hw hp, h.spent, h.reach, fun hon => ?_, fun hon => ?_⟩
  · rcases hgo with ⟨result, hend⟩ | hgo
    · exact absurd hend (hon result)
    · exact hc ▸ h.steady hgo.2
  · rcases hgo with ⟨result, hend⟩ | hgo
    · exact absurd hend (hon.2 result)
    · exact h.between hgo

/-- A step that leaves `process_client` where it is. -/
theorem MirrorsRun.beside (h : MirrorsRun W seeks entries frames t r) (hmirrors : Mirrors t' r)
    (hp : t'.phase = t.phase) (hc : t'.dataClosed = t.dataClosed) :
    MirrorsRun W seeks entries frames t' r := by
  refine ⟨hmirrors, h.spent, h.reach, fun hon => ?_, fun hon => h.between ?_⟩
  · rw [hp] at hon
    exact hc ▸ h.steady hon
  · rwa [Between, ← hp]

/-- The loop creates the file that the session has created, and goes on with it or ends. -/
theorem MirrorsRun.create (h : MirrorsRun W seeks entries frames t r) (hb : Between t)
    (hmakes : Makes t t' d) (hw : t'.writers = t.writers) (hc : t'.dataClosed = t.dataClosed)
    (hp : (∃ result, t'.phase = .ended result) ∨ d.opens = true ∧
      (∃ index, t'.phase = .chunks index d.loc (totalChunks d.file) []) ∧
      ∀ rw, t'.rw = some rw → d.enc = rw.enc) :
    MirrorsRun W seeks (entries ++ [d]) frames t' (r.create d []) := by
  have hmore : (Receiving.machine X seeks W.disk (entries ++ [d]) frames).ReachableBy
      (Receiving.Steady t.dataClosed) (r.extend [d] []) := by
    simpa using Receiving.reachable_extend (h.steady hb.2) [d] [] fun _ => rfl
  have hentries : (r.extend [d] []).entries = [d] := by
    rw [Receiving.extend, h.spent.1, List.nil_append]
  have hstep : (r.extend [d] []).step X seeks .create = some (r.create d []) := by
    refine Receiving.step_create.mpr ⟨d, [], h.between hb, hentries, ?_⟩
    simp only [Receiving.create, Receiving.extend, List.append_nil]
  refine ⟨h.mirrors.create hmakes hw [] fun i loc total got hphase => ?_, ⟨ite_self _, h.spent.2⟩,
    hmore.reachable.step (e := .create) hstep, fun hon => ?_, fun hon => ?_⟩
  · rcases hp with ⟨result, hend⟩ | ⟨ho, ⟨index, hchunks⟩, henc⟩
    · exact absurd (hend.symm.trans hphase) Phase.noConfusion
    · obtain ⟨-, rfl, rfl, rfl⟩ := Phase.chunks.inj (hchunks.symm.trans hphase)
      exact ⟨ho, rfl, rfl, rfl, henc⟩
  · rcases hp with ⟨result, hend⟩ | ⟨ho, -, -⟩
    · exact absurd hend (hon result)
    · rw [hc]
      refine hmore.step (e := .create) (fun d' hd' => ?_) hstep
      rw [hentries, List.head?_cons, Option.mem_some_iff] at hd'
      exact hd' ▸ ho
  · rcases hp with ⟨result, hend⟩ | ⟨-, ⟨index, hchunks⟩, -⟩
    · exact absurd hend (hon.2 result)
    · exact absurd hchunks (hon.1 _ _ _ _)

/-- The loop takes the frame that the session has been sent. -/
theorem MirrorsRun.take (h : MirrorsRun W seeks entries frames t r) {index : ℕ} {loc : Location}
    {total : ℤ} {got : List DataFrame} (ht : t.phase = .chunks index loc total got)
    (hlt : (got.length : ℤ) < total) (hopen : t.dataClosed = false) {rw : FsInterface}
    (hrw : t.rw = some rw) (frame : DataFrame) :
    ∃ r', MirrorsRun W seeks entries (frames ++ [frame.payload]) { t with
      writers := t.writers ++ [⟨rw.enc, index, loc, frame⟩]
      phase := .chunks index loc total (got ++ [frame]) } r' := by
  obtain ⟨d, hcurrent, -, htotal, -⟩ := h.mirrors.current _ _ _ _ ht
  have hmore : (Receiving.machine X seeks W.disk entries (frames ++ [frame.payload])).ReachableBy
      (Receiving.Steady t.dataClosed) (r.extend [] [frame.payload]) := by
    have hon : ∀ result, t.phase ≠ .ended result := by simp [ht]
    simpa using Receiving.reachable_extend (h.steady hon) [] [frame.payload] (by simp [hopen])
  have hframes : (r.extend [] [frame.payload]).frames = [frame.payload] := by
    rw [Receiving.extend, h.spent.2, List.nil_append]
  have hstep : (r.extend [] [frame.payload]).step X seeks .take =
      some (r.take d got.length frame.payload []) := by
    refine Receiving.step_take.mpr ⟨d, got.length, frame.payload, [], hcurrent, hframes, ?_, ?_⟩
    · rwa [htotal]
    · simp only [Receiving.take, Receiving.extend, List.append_nil]
  refine ⟨_, h.mirrors.take ht hrw frame hcurrent [], ⟨h.spent.1, rfl⟩,
    hmore.reachable.step (e := .take) hstep, fun _ => hmore.step (e := .take) trivial hstep,
    fun hon => ?_⟩
  exact absurd rfl (hon.1 _ _ _ _)

/-- The loop leaves the file that the session is done with. -/
theorem MirrorsRun.leave (h : MirrorsRun W seeks entries frames t r) {index : ℕ} {loc : Location}
    {total : ℤ} {got : List DataFrame} (ht : t.phase = .chunks index loc total got)
    (hdone : total ≤ got.length ∨ t.dataClosed = true) (n : ℕ) :
    MirrorsRun W seeks entries frames { t with phase := .nextFile n } r.leave := by
  obtain ⟨d, hcurrent, -, htotal, -⟩ := h.mirrors.current _ _ _ _ ht
  have hsteady : Receiving.Steady t.dataClosed r .leave := by
    refine hdone.symm.imp_right fun hdone d' n' hd' => ?_
    obtain ⟨rfl, rfl⟩ := Prod.mk.inj (Option.some.inj (hcurrent.symm.trans hd'))
    rwa [htotal]
  have hstep : r.step X seeks .leave = some r.leave :=
    Receiving.step_leave.mpr ⟨d, got.length, hcurrent, .inr h.spent.2, rfl⟩
  have hon : ∀ result, t.phase ≠ .ended result := by simp [ht]
  refine ⟨⟨h.mirrors.disk, h.mirrors.tasks, by simp⟩, h.spent, h.reach.step (e := .leave) hstep,
    fun _ => (h.steady hon).step (e := .leave) hsteady hstep, fun _ => rfl⟩

/-- The loop's task runs with the session's. -/
theorem MirrorsRun.write (h : MirrorsRun W seeks entries frames t r) {k done : ℕ}
    (hok : Seekable seeks t (.task (.write k done)))
    (hstep : stepTask W c t (.write k done) = some t') :
    ∃ r', MirrorsRun W seeks entries frames t' r' := by
  obtain ⟨task, htask, hmirrors⟩ := h.mirrors.write hok hstep
  obtain ⟨hphase, hclosed⟩ : t'.phase = t.phase ∧ t'.dataClosed = t.dataClosed := by
    cases background_of_stepTask (by simp) hstep with
    | unsent | write | unopened => exact ⟨rfl, rfl⟩
  have hrun : r.step X seeks (.run k ⟨done, true⟩) = some (r.run X seeks k task ⟨done, true⟩) :=
    Option.map_eq_some_iff.mpr ⟨task, htask, rfl⟩
  refine ⟨_, hmirrors, h.spent, h.reach.step (e := .run k ⟨done, true⟩) hrun, fun hon => ?_,
    fun hon => h.between ?_⟩
  · rw [hphase] at hon
    exact hclosed ▸ (h.steady hon).step (e := .run k ⟨done, true⟩) trivial hrun
  · rwa [Between, ← hphase]

theorem MirrorsRun.tick (hlen : ∀ n loc size, W.os.setLen n loc size = true → size < 2 ^ 63)
    (h : MirrorsRun W seeks entries frames t r) {x : Proc X Phase}
    (hx : proceed W c t = some x) :
    ∃ entries' r', MirrorsRun W seeks entries' frames (Session.run x t) r' := by
  rcases proceed_cases hx with ⟨rw, hp, rfl⟩ | ⟨rw, job, jobs, hp, rfl⟩ | ⟨index, hp, rfl⟩ |
    ⟨index, loc, total, got, hp, hdone, rfl⟩
  · have hb : Between t := by simp [Between, hp]
    refine ⟨entries, r, ?_⟩
    apply run_of_post (I := fun u => MirrorsRun W seeks entries frames u r)
    apply afterMessage_spec.mono
    · rintro p u (⟨rfl, rfl, -⟩ | ⟨rfl, -, -, files, -, rfl⟩ | ⟨rfl, -, -, -, rfl⟩)
      · exact h.aside rfl rfl rfl (by simp) (.inr hb)
      · exact h.aside rfl rfl rfl (by simp) (.inr hb)
      · exact h.aside rfl rfl rfl (by simp) (.inr hb)
    · rintro e u ⟨rfl, -⟩
      exact h.aside rfl rfl rfl (by simp) (.inr hb)
  · have hb : Between t := by simp [Between, hp]
    refine ⟨entries, r, ?_⟩
    apply run_handChunk (I := fun u => MirrorsRun W seeks entries frames u r)
    · exact h.aside rfl rfl rfl (by simp) (.inr hb)
    · exact fun e => h.aside rfl rfl rfl (by simp) (.inr hb)
  · have hb : Between t := by simp [Between, hp]
    obtain ⟨enc, henc⟩ : ∃ enc : EncryptedSession, ∀ rw, t.rw = some rw → enc = rw.enc := by
      cases t.rw with
      | none => exact ⟨⟨⟨External.padBlock 32 [], External.padBlock 8 []⟩⟩, by simp⟩
      | some rw => exact ⟨rw.enc, by simp⟩
    apply run_of_post (I := fun u => ∃ entries' r', MirrorsRun W seeks entries' frames u r')
    apply (requestFile_makes hlen enc index).mono
    · rintro p u ⟨⟨hw, hc, hrw⟩, ⟨rfl, hd⟩ | ⟨d, rfl, ho, hmakes, rfl⟩⟩
      · exact ⟨entries, r, h.aside hd hw hc (by simp) (.inr hb)⟩
      · refine ⟨_, _, h.create hb hmakes hw hc (.inr ⟨ho, ⟨index, rfl⟩, fun rw hr => ?_⟩)⟩
        exact henc rw (hrw.symm.trans hr)
    · rintro e u ⟨⟨hw, hc⟩, hd | ⟨d, -, hmakes⟩⟩
      · exact ⟨entries, r, h.aside hd hw hc (by simp) (.inl ⟨_, rfl⟩)⟩
      · exact ⟨_, _, h.create hb hmakes hw hc (.inl ⟨_, rfl⟩)⟩
  · exact ⟨entries, _, h.leave hp hdone (index + 1)⟩

theorem step_mirrorsRun (hlen : ∀ n loc size, W.os.setLen n loc size = true → size < 2 ^ 63)
    (h : MirrorsRun W seeks entries frames t r) {e : Event} (hok : Seekable seeks t e)
    (he : step W c t e = some t') :
    ∃ entries' frames' r', MirrorsRun W seeks entries' frames' t' r' := by
  rcases step_cases he with ⟨m, rfl, hp, rfl⟩ | ⟨err, rfl, hp, rfl⟩ |
    ⟨frame, index, loc, total, got, rfl, hp, hlt, hopen, rfl⟩ | ⟨rfl, rfl⟩ | ⟨x, rfl, hx, rfl⟩ |
    ⟨task, rfl, ht, he⟩
  · have hset := onMessage_settles (W := W) (c := c) (s := t) m
    exact ⟨entries, frames, r, h.aside (onMessage_disk m).1 hset.writers hset.dataClosed
      hset.not_chunks (.inr (by simp [Between, hp]))⟩
  · exact ⟨entries, frames, r, h.aside rfl rfl rfl (by simp) (.inl ⟨_, rfl⟩)⟩
  · apply run_of_post (I := fun u => ∃ entries' frames' r',
      MirrorsRun W seeks entries' frames' u r')
    apply (takeChunk_spec index loc total got frame).mono
    · rintro p u ⟨rfl, rw, hrw, rfl⟩
      exact ⟨entries, _, h.take hp hlt hopen hrw frame⟩
    · rintro e u ⟨-, -, rfl⟩
      exact ⟨entries, frames, r, h.aside rfl rfl rfl (by simp) (.inl ⟨_, rfl⟩)⟩
  · refine ⟨entries, frames, r, ⟨h.mirrors.disk, h.mirrors.tasks, h.mirrors.current⟩, h.spent,
      h.reach, fun hon => (h.steady hon).mono fun _ _ => Receiving.Steady.close, h.between⟩
  · obtain ⟨entries', r', h'⟩ := h.tick hlen hx
    exact ⟨entries', frames, r', h'⟩
  · cases task with
    | tick => exact absurd rfl ht
    | write k done => exact ⟨entries, frames, h.write hok he⟩
    | read | readFailed | encrypt | encryptFailed =>
      refine ⟨entries, frames, r, ?_⟩
      cases background_of_stepTask ht he <;>
        exact h.beside ⟨h.mirrors.disk, h.mirrors.tasks, h.mirrors.current⟩ rfl rfl

theorem init_mirrorsRun : MirrorsRun W seeks [] [] (init X W c)
    (Receiving.start W.disk [] []) := by
  apply run_of_post (I := fun u => MirrorsRun W seeks [] [] u (Receiving.start W.disk [] []))
  apply start_spec.mono
  · rintro p u ⟨rfl, ⟨-, rfl⟩ | ⟨-, key, msg, rfl⟩⟩
    · exact ⟨⟨rfl, rfl, by simp⟩, ⟨rfl, rfl⟩, .init, fun _ => .init, fun _ => rfl⟩
    · exact ⟨⟨rfl, rfl, by simp⟩, ⟨rfl, rfl⟩, .init, fun _ => .init, fun _ => rfl⟩
  · rintro e u ⟨-, k, rfl⟩
    exact ⟨⟨rfl, rfl, by simp⟩, ⟨rfl, rfl⟩, .init, fun _ => .init, fun _ => rfl⟩

/-- Whatever a session goes through, some entries and frames take the loop to the same files and
tasks. -/
theorem reachable_mirrored (hlen : ∀ n loc size, W.os.setLen n loc size = true → size < 2 ^ 63)
    (h : (Session.machine X W c).ReachableBy (Seekable seeks) t) :
    ∃ entries frames r, (Receiving.machine X seeks W.disk entries frames).Reachable r ∧
      Mirrors t r := by
  obtain ⟨entries, frames, r, hmirrors⟩ : ∃ entries frames r,
      MirrorsRun W seeks entries frames t r := by
    apply h.invariant (P := fun t => ∃ entries frames r, MirrorsRun W seeks entries frames t r)
      ⟨[], [], _, init_mirrorsRun⟩
    rintro t e t' - ⟨entries, frames, r, hmirrors⟩ hok he
    exact step_mirrorsRun hlen hmirrors hok he
  exact ⟨entries, frames, r, hmirrors.reach, hmirrors.mirrors⟩

end Run

end Mirrors

end Croc
