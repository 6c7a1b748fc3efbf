import Mathlib.Data.Finset.Card
import Croc.Session.Runs
import Croc.Session.Spec

/-! The file loop of a receiver: which behaviours of the data connection and of the writer tasks
make `Finished` mean that the files are there. -/
namespace Croc
open Lib
namespace Session
variable {X : External} {W : World} {c : Setup} {s t : Session X} {source : ℕ → Bytes}

/-- The part of a source file that a chunk carries. -/
abbrev chunkOf (source : ℕ → Bytes) (i j : ℕ) : Bytes := piece tcpBufferSize (source i) j

/-- The number of chunks of a source file. -/
abbrev chunkCount (source : ℕ → Bytes) (i : ℕ) : ℕ := pieceCount tcpBufferSize (source i).length

/-- A chunk has been written to its destination file. -/
def IsWritten (source : ℕ → Bytes) (s : Session X) (i j : ℕ) : Prop :=
  ∃ w ∈ s.written, w.dest = i ∧ w.offset = j * tcpBufferSize ∧ w.data = chunkOf source i j

/-- Every file of the list has had all the chunks of its announced size written, and holds what the
sender read for it. -/
def Complete (source : ℕ → Bytes) (s : Session X) : Prop :=
  ∀ i file, s.toReceive.bind (·[i]?) = some file →
    (∃ loc, s.dests[i]? = some loc ∧ s.disk loc = source i) ∧
    ∀ j : ℕ, (j : ℤ) < totalChunks file → IsWritten source s i j

/-- In every run of steps that meet `ok`, a receiver that has gone through its list finishes with
complete files, or returns an error and does not finish. -/
def FinishedIsComplete (X : External) (W : World) (c : Setup) (source : ℕ → Bytes)
    (ok : Session X → Event → Prop) : Prop :=
  ∀ s t i, (machine X W c).ReachableBy ok s → s.phase = .nextFile i →
    s.toReceive.bind (·[i]?) = none → ok s (.task .tick) → step W c s (.task .tick) = some t →
    (t.sent = s.sent ++ [.finished] ∧ Complete source t) ∨
      ((∃ e, t.phase = .ended (.error (.err e))) ∧ t.sent = s.sent)

/-- A frame that the session opens to a chunk of a source file. -/
def IsChunk (X : External) (source : ℕ → Bytes) (enc : EncryptedSession) (i j : ℕ)
    (frame : DataFrame) : Prop :=
  j < chunkCount source i ∧ enc.encryptor.decrypt X frame.payload =
    .ok (chunkBuffer (j * tcpBufferSize) (chunkOf source i j))

instance (enc : EncryptedSession) (i j : ℕ) (frame : DataFrame) :
    Decidable (IsChunk X source enc i j frame) :=
  inferInstanceAs (Decidable (_ ∧ _))

/-- The frame is a chunk of the file that is received, and has not been counted before. -/
def CountsNew (X : External) (source : ℕ → Bytes) (frame : DataFrame) :
    Phase → Option FsInterface → Prop
  | .chunks i _ _ got, some rw => ∃ j < chunkCount source i,
      IsChunk X source rw.enc i j frame ∧ ∀ g ∈ got, ¬ IsChunk X source rw.enc i j g
  | .chunks .., none => False
  | _, _ => True

instance (frame : DataFrame) : ∀ p rw, Decidable (CountsNew X source frame p rw)
  | .chunks i _ _ got, some rw => inferInstanceAs (Decidable (∃ j < chunkCount source i,
      IsChunk X source rw.enc i j frame ∧ ∀ g ∈ got, ¬ IsChunk X source rw.enc i j g))
  | .chunks .., none => inferInstanceAs (Decidable False)
  | .recv, _ | .sending .., _ | .nextFile _, _ | .ended _, _ => inferInstanceAs (Decidable True)

/-- An entry has the size of its source and a place of its own, and at the end of the list no
writer task is left. -/
def FitsEntry (W : World) (source : ℕ → Bytes) (s : Session X) (i : ℕ) : Option FileInfo → Prop
  | some file => file.size.toInt = (source i).length ∧
      W.os.locate s.calls (Path.join file.remoteFolder file.name) ∉ s.dests
  | none => s.writers = []

instance (i : ℕ) : ∀ file, Decidable (FitsEntry W source s i file)
  | some file => inferInstanceAs (Decidable (file.size.toInt = (source i).length ∧
      W.os.locate s.calls (Path.join file.remoteFolder file.name) ∉ s.dests))
  | none => inferInstanceAs (Decidable (s.writers = []))

/-- A file is left when all its frames have come, and the next entry fits. -/
def MovesOn (W : World) (source : ℕ → Bytes) (s : Session X) : Phase → Prop
  | .chunks _ _ total got => total ≤ got.length
  | .nextFile i => FitsEntry W source s i (s.toReceive.bind (·[i]?))
  | _ => True

instance : ∀ p, Decidable (MovesOn W source s p)
  | .chunks _ _ total got => inferInstanceAs (Decidable (total ≤ got.length))
  | .nextFile i =>
      inferInstanceAs (Decidable (FitsEntry W source s i (s.toReceive.bind (·[i]?))))
  | .recv | .sending .. | .ended _ => inferInstanceAs (Decidable True)

/-- All of the chunk reaches the file. -/
def WritesAll (X : External) (done : ℕ) (next : Option WriteJob) : Prop :=
  ∀ job ∈ next, ∀ chunk ∈ (openChunk X job.enc job.frame.payload).toOption, chunk.2.length ≤ done

instance (done : ℕ) (next : Option WriteJob) : Decidable (WritesAll X done next) :=
  inferInstanceAs (Decidable (∀ job ∈ next, ∀ chunk ∈
    (openChunk X job.enc job.frame.payload).toOption, chunk.2.length ≤ done))

/-- The frames of a file are its chunks, each counted once; no file is left before all its frames
have come; the files have the announced sizes and places of their own; writes succeed, and none
is under way when the receiver finishes. -/
def Undisturbed (X : External) (W : World) (source : ℕ → Bytes) (s : Session X) : Event → Prop
  | .chunk frame => CountsNew X source frame s.phase s.rw
  | .task .tick => MovesOn W source s s.phase
  | .task (.write k done) => WritesAll X done s.writers[k]?
  | _ => True

instance : ∀ e, Decidable (Undisturbed X W source s e)
  | .chunk frame => inferInstanceAs (Decidable (CountsNew X source frame s.phase s.rw))
  | .task .tick => inferInstanceAs (Decidable (MovesOn W source s s.phase))
  | .task (.write k done) => inferInstanceAs (Decidable (WritesAll X done s.writers[k]?))
  | .message _ | .recvFailed _ | .dataClosed | .task (.read ..) | .task (.readFailed _)
  | .task (.encrypt ..) | .task (.encryptFailed _) => inferInstanceAs (Decidable True)

/-- A chunk stands in its file, and has been written there. -/
def Placed (source : ℕ → Bytes) (s : Session X) (i j : ℕ) : Prop :=
  (∃ loc, s.dests[i]? = some loc ∧
    StandsAt (s.disk loc) (j * tcpBufferSize) (chunkOf source i j)) ∧ IsWritten source s i j

/-- A chunk has been handed to a writer task, or is in place. -/
def InHand (X : External) (source : ℕ → Bytes) (s : Session X) (i j : ℕ) : Prop :=
  (∃ job ∈ s.writers, job.dest = i ∧ IsChunk X source job.enc i j job.frame) ∨
    Placed source s i j

/-- The destination files of a loop and the writer tasks on them. -/
structure Filling (X : External) (source : ℕ → Bytes) (s : Session X) : Prop where
  nodup : s.dests.Nodup
  sizes : ∀ i < s.dests.length, ∃ file, s.toReceive.bind (·[i]?) = some file ∧
    file.size.toInt = (source i).length
  lengths : ∀ i loc, s.dests[i]? = some loc → (s.disk loc).length = (source i).length
  jobs : ∀ job ∈ s.writers, s.dests[job.dest]? = some job.loc ∧
    ∃ j, IsChunk X source job.enc job.dest j job.frame

/-- Different chunks of a file have been counted, as many as there are frames. -/
def Counted (X : External) (source : ℕ → Bytes) (s : Session X) (k : ℕ) (got : List DataFrame) :
    Prop :=
  ∃ js : List ℕ, js.length = got.length ∧ js.Nodup ∧ ∀ j ∈ js, j < chunkCount source k ∧
    InHand X source s k j ∧ ∃ rw, s.rw = some rw ∧ ∃ g ∈ got, IsChunk X source rw.enc k j g

/-- The invariant of a receiver. -/
def OnCourse (X : External) (source : ℕ → Bytes) (s : Session X) : Prop :=
  match s.phase with
  | .recv | .sending .. => s.writers = []
  | .nextFile k => Filling X source s ∧ s.dests.length = k ∧
    ∀ i < k, ∀ j < chunkCount source i, InHand X source s i j
  | .chunks k loc total got => Filling X source s ∧ s.dests.length = k + 1 ∧
    s.dests[k]? = some loc ∧ total = chunkCount source k ∧
    (∀ i < k, ∀ j < chunkCount source i, InHand X source s i j) ∧ Counted X source s k got
  | .ended _ => True

theorem totalChunks_of_size {file : FileInfo} {n : ℕ} (h : file.size.toInt = n) :
    totalChunks file = pieceCount tcpBufferSize n := by
  rw [totalChunks, h, divCeil_eq_pieceCount]

theorem toNat_of_size {size : Int64} {n : ℕ} (h : size.toInt = n) : size.toUInt64.toNat = n := by
  have hle : (0 : Int64) ≤ size := Int64.le_iff_toInt_le.mpr (by rw [h]; simp)
  rw [Int64.toNat_toUInt64_of_le hle, ← Int64.toNat_toInt, h, Int.toNat_natCast]

theorem offset_lt {size : Int64} {n j : ℕ} (h : size.toInt = n)
    (hj : j < pieceCount tcpBufferSize n) : j * tcpBufferSize < 256 ^ 8 := by
  have hlt := size.toInt_lt
  have hj' := (lt_pieceCount (by decide)).mp hj
  rw [h] at hlt
  omega

/-- What a writer task finds in a chunk. -/
theorem IsChunk.openChunk {enc : EncryptedSession} {i j : ℕ} {frame : DataFrame}
    {size : Int64} (h : IsChunk X source enc i j frame) (hs : size.toInt = (source i).length) :
    openChunk X enc frame.payload = .ok (j * tcpBufferSize, chunkOf source i j) :=
  openChunk_of_decrypt (offset_lt hs h.1) h.2

/-- As many different numbers below a bound as the bound are all of them. -/
theorem mem_of_all_counted {n : ℕ} {js : List ℕ} (hd : js.Nodup) (hlt : ∀ j ∈ js, j < n)
    (hlen : n ≤ js.length) {j : ℕ} (hj : j < n) : j ∈ js := by
  have hsub : js.toFinset ⊆ Finset.range n := by
    intro j hj
    exact Finset.mem_range.mpr (hlt j (List.mem_toFinset.mp hj))
  have hcard : (Finset.range n).card ≤ js.toFinset.card := by
    rw [Finset.card_range, List.toFinset_card_of_nodup hd]
    exact hlen
  have := Finset.eq_of_subset_of_card_le hsub hcard
  rw [← List.mem_toFinset, this]
  exact Finset.mem_range.mpr hj

section Frames

theorem IsWritten.mono {i j : ℕ} (h : IsWritten source s i j)
    (hw : ∀ w ∈ s.written, w ∈ t.written) : IsWritten source t i j := by
  obtain ⟨w, hmem, hw'⟩ := h
  exact ⟨w, hw w hmem, hw'⟩

theorem InHand.mono {i j : ℕ} (h : InHand X source s i j)
    (hjobs : ∀ job ∈ s.writers, job ∈ t.writers) (hw : ∀ w ∈ s.written, w ∈ t.written)
    (hd : ∀ loc, s.dests[i]? = some loc → t.dests[i]? = some loc ∧ t.disk loc = s.disk loc) :
    InHand X source t i j := by
  rcases h with ⟨job, hjob, h⟩ | ⟨⟨loc, hloc, hs⟩, h⟩
  · exact Or.inl ⟨job, hjobs job hjob, h⟩
  · obtain ⟨hloc', hdisk⟩ := hd loc hloc
    exact Or.inr ⟨⟨loc, hloc', by rw [hdisk]; exact hs⟩, h.mono hw⟩

theorem Filling.of_same (h : Filling X source s) (hd : t.dests = s.dests)
    (hf : t.filesToReceive = s.filesToReceive) (hdisk : t.disk = s.disk)
    (hw : t.writers = s.writers) : Filling X source t where
  nodup := hd ▸ h.nodup
  sizes i hi := by
    rw [toReceive, hf]
    exact h.sizes i (hd ▸ hi)
  lengths i loc hloc := by
    rw [hdisk]
    exact h.lengths i loc (hd ▸ hloc)
  jobs job hjob := by
    rw [hd]
    exact h.jobs job (hw ▸ hjob)

/-- Steps that do not touch the files or the writer tasks keep a receiver on course. -/
theorem OnCourse.of_same (h : OnCourse X source s) (hp : t.phase = s.phase) (hrw : t.rw = s.rw)
    (hd : t.dests = s.dests) (hf : t.filesToReceive = s.filesToReceive) (hdisk : t.disk = s.disk)
    (hw : t.writers = s.writers) (hwr : t.written = s.written) : OnCourse X source t := by
  have hhand : ∀ i j, InHand X source s i j → InHand X source t i j := by
    intro i j hij
    apply hij.mono (by simp [hw]) (by simp [hwr])
    intro loc hloc
    rw [hd, hdisk]
    exact ⟨hloc, rfl⟩
  unfold OnCourse at h ⊢
  rw [hp]
  cases hphase : s.phase with
  | recv =>
    rw [hphase] at h
    exact hw.trans h
  | sending rw jobs =>
    rw [hphase] at h
    exact hw.trans h
  | ended r => trivial
  | nextFile k =>
    rw [hphase] at h
    obtain ⟨hfill, hk, hall⟩ := h
    exact ⟨hfill.of_same hd hf hdisk hw, hd ▸ hk, fun i hi j hj => hhand i j (hall i hi j hj)⟩
  | chunks k loc total got =>
    rw [hphase] at h
    obtain ⟨hfill, hk, hloc, htotal, hall, js, hlen, hnd, hjs⟩ := h
    refine ⟨hfill.of_same hd hf hdisk hw, hd ▸ hk, hd ▸ hloc, htotal,
      fun i hi j hj => hhand i j (hall i hi j hj), js, hlen, hnd, fun j hj => ?_⟩
    obtain ⟨hlt, hhandj, hrwj⟩ := hjs j hj
    exact ⟨hlt, hhand k j hhandj, hrw ▸ hrwj⟩

end Frames

section Writing

theorem eq_of_getElem?_nodup {dests : List Location} (hd : dests.Nodup) {i k : ℕ} {loc : Location}
    (hi : dests[i]? = some loc) (hk : dests[k]? = some loc) : i = k := by
  obtain ⟨hi', hi⟩ := List.getElem?_eq_some_iff.mp hi
  obtain ⟨hk', hk⟩ := List.getElem?_eq_some_iff.mp hk
  exact (List.Nodup.getElem_inj_iff hd).mp (hi.trans hk.symm)

/-- A writer task puts a chunk in place and leaves the others there. -/
theorem putChunk_placed (h : Filling X source s) {job : WriteJob}
    (hloc : s.dests[job.dest]? = some job.loc) {j : ℕ} (hj : j < chunkCount source job.dest) :
    Placed source (s.putChunk job (j * tcpBufferSize) (chunkOf source job.dest j)) job.dest j ∧
      ∀ i k, Placed source s i k →
        Placed source (s.putChunk job (j * tcpBufferSize) (chunkOf source job.dest j)) i k := by
  have hfit : j * tcpBufferSize + (chunkOf source job.dest j).length ≤ (s.disk job.loc).length := by
    rw [h.lengths _ _ hloc]
    exact piece_fits ((lt_pieceCount (by decide)).mp hj)
  have hself : StandsAt (writeAt 0 (s.disk job.loc) (j * tcpBufferSize)
      (chunkOf source job.dest j)) (j * tcpBufferSize) (chunkOf source job.dest j) :=
    standsAt_writeAt hfit
  constructor
  · refine ⟨⟨job.loc, hloc, ?_⟩, _, List.mem_append_right _ (List.mem_singleton_self _),
      rfl, rfl, rfl⟩
    simpa [putChunk] using hself
  · rintro i k ⟨⟨loc, hi, hs⟩, hw⟩
    refine ⟨⟨loc, hi, ?_⟩, hw.mono fun w hw => List.mem_append_left _ hw⟩
    by_cases hl : loc = job.loc
    · subst hl
      obtain rfl := eq_of_getElem?_nodup h.nodup hi hloc
      simp only [putChunk, Function.update_self]
      by_cases hk : k = j
      · subst hk
        exact hself
      · exact hs.writeAt_of_disjoint hfit (pieces_disjoint hk)
    · simpa [putChunk, Function.update_of_ne hl] using hs

theorem Filling.putChunk (h : Filling X source s) {job : WriteJob}
    (hloc : s.dests[job.dest]? = some job.loc) {j : ℕ} (hj : j < chunkCount source job.dest)
    {writers : List WriteJob} (hsub : ∀ job ∈ writers, job ∈ s.writers) :
    Filling X source (Session.putChunk { s with writers := writers } job (j * tcpBufferSize)
      (chunkOf source job.dest j)) where
  nodup := h.nodup
  sizes := h.sizes
  lengths i loc hi := by
    by_cases hl : loc = job.loc
    · subst hl
      simp only [Session.putChunk, Function.update_self]
      rw [length_writeAt, h.lengths _ _ hi]
      rw [h.lengths _ _ hloc]
      exact piece_fits ((lt_pieceCount (by decide)).mp hj)
    · simpa [Session.putChunk, Function.update_of_ne hl] using h.lengths i loc hi
  jobs job' hjob' := h.jobs job' (hsub job' hjob')

/-- The end of a writer task keeps what is in hand. -/
theorem write_keeps (h : Filling X source s) {k done : ℕ}
    (hok : Undisturbed X W source s (.task (.write k done)))
    (he : stepTask W c s (.write k done) = some t) :
    Filling X source t ∧ (∀ i j, InHand X source s i j → InHand X source t i j) ∧
      t.phase = s.phase ∧ t.dests = s.dests ∧ t.rw = s.rw := by
  obtain ⟨job, hjob, rfl⟩ := Option.map_eq_some_iff.mp he
  have hmem : job ∈ s.writers := List.mem_of_getElem? hjob
  obtain ⟨hloc, j, hj⟩ := h.jobs job hmem
  obtain ⟨hlt, -⟩ := List.getElem?_eq_some_iff.mp hloc
  obtain ⟨file, -, hsize⟩ := h.sizes job.dest hlt
  have hopen := hj.openChunk hsize
  have hdone : WritesAll X done (some job) := hjob ▸ hok
  have hdone := hdone job rfl
  rw [hopen] at hdone
  have htake : (chunkOf source job.dest j).take done = chunkOf source job.dest j :=
    List.take_of_length_le (hdone _ rfl)
  have hsub : ∀ job' ∈ s.writers.eraseIdx k, job' ∈ s.writers :=
    fun job' h' => List.mem_of_mem_eraseIdx h'
  simp only [hopen, htake]
  refine ⟨h.putChunk hloc hj.1 hsub, ?_, rfl, rfl, rfl⟩
  obtain ⟨hself, hkeep⟩ := putChunk_placed h hloc hj.1
  rintro i j' (⟨job', hjob', hi, hj'⟩ | hp)
  · by_cases heq : job' = job
    · subst heq
      subst hi
      have hopen' := hj'.openChunk hsize
      rw [hopen] at hopen'
      have hoff : j * tcpBufferSize = j' * tcpBufferSize := by
        have := congrArg Prod.fst (Except.ok.inj hopen')
        exact this
      obtain rfl : j = j' := Nat.eq_of_mul_eq_mul_right (by decide) hoff
      exact Or.inr hself
    · obtain ⟨n, hn⟩ := List.getElem?_of_mem hjob'
      refine Or.inl ⟨job', ?_, hi, hj'⟩
      refine List.mem_eraseIdx_iff_getElem?.mpr ⟨n, ?_, hn⟩
      rintro rfl
      exact heq (Option.some.inj (hn.symm.trans hjob))
  · exact Or.inr (hkeep i j' hp)

end Writing

section Loop

/-- A chunk that has not come before is counted and handed to a writer task. -/
theorem takeChunk_onCourse {k : ℕ} {loc : Location} {total : ℤ} {got : List DataFrame}
    {frame : DataFrame} (h : OnCourse X source s) (hp : s.phase = .chunks k loc total got)
    (hok : Undisturbed X W source s (.chunk frame)) :
    OnCourse X source (run (takeChunk k loc total got frame) s) := by
  have hcounts : CountsNew X source frame (.chunks k loc total got) s.rw := hp ▸ hok
  obtain ⟨rw, j, hrw, hj, hnew⟩ : ∃ rw j, s.rw = some rw ∧ IsChunk X source rw.enc k j frame ∧
      ∀ g ∈ got, ¬ IsChunk X source rw.enc k j g := by
    cases hrw : s.rw with
    | none => exact (hrw ▸ hcounts : CountsNew X source frame (.chunks k loc total got) none).elim
    | some rw =>
      rw [hrw] at hcounts
      obtain ⟨j, -, hj⟩ := hcounts
      exact ⟨rw, j, rfl, hj⟩
  unfold OnCourse at h
  rw [hp] at h
  obtain ⟨hfill, hk, hloc, htotal, hall, js, hlen, hnd, hjs⟩ := h
  apply run_of_post
  apply (takeChunk_spec k loc total got frame).mono
  · rintro p t ⟨rfl, rw', hrw', rfl⟩
    obtain rfl : rw = rw' := Option.some.inj (hrw.symm.trans hrw')
    have hhand : ∀ i j, InHand X source s i j → InHand X source { s with
        writers := s.writers ++ [⟨rw.enc, k, loc, frame⟩]
        phase := .chunks k loc total (got ++ [frame]) } i j := by
      intro i j hij
      exact hij.mono (fun job hjob => List.mem_append_left _ hjob) (fun _ hw => hw)
        fun loc hloc => ⟨hloc, rfl⟩
    refine ⟨⟨hfill.nodup, hfill.sizes, hfill.lengths, ?_⟩, hk, hloc, htotal,
      fun i hi j hj => hhand i j (hall i hi j hj), j :: js, ?_, ?_, ?_⟩
    · intro job hjob
      rcases List.mem_append.mp hjob with hjob | hjob
      · exact hfill.jobs job hjob
      · rw [List.mem_singleton.mp hjob]
        exact ⟨hloc, j, hj⟩
    · simp [hlen]
    · refine List.nodup_cons.mpr ⟨fun hmem => ?_, hnd⟩
      obtain ⟨-, -, rw', hrw', g, hg, hgj⟩ := hjs j hmem
      obtain rfl : rw = rw' := Option.some.inj (hrw.symm.trans hrw')
      exact hnew g hg hgj
    · intro i hi
      rcases List.mem_cons.mp hi with rfl | hi
      · refine ⟨hj.1, Or.inl ⟨_, List.mem_append_right _ (List.mem_singleton_self _), rfl, hj⟩,
          rw, hrw, frame, List.mem_append_right _ (List.mem_singleton_self _), hj⟩
      · obtain ⟨hlt, hhandi, rw', hrw', g, hg, hgi⟩ := hjs i hi
        exact ⟨hlt, hhand k i hhandi, rw', hrw', g, List.mem_append_left _ hg, hgi⟩
  · rintro h t ⟨-, hnone, -⟩
    simp [hrw] at hnone

/-- A file that is left with all its frames has all its chunks in hand. -/
theorem leaveFile_onCourse {k : ℕ} {loc : Location} {total : ℤ} {got : List DataFrame}
    (h : OnCourse X source s) (hp : s.phase = .chunks k loc total got)
    (hall : total ≤ got.length) : OnCourse X source { s with phase := .nextFile (k + 1) } := by
  unfold OnCourse at h
  rw [hp] at h
  obtain ⟨hfill, hk, hloc, rfl, hprev, js, hlen, hnd, hjs⟩ := h
  have hcount : chunkCount source k ≤ js.length := by
    rw [hlen]
    exact_mod_cast hall
  have hhand : ∀ i j, InHand X source s i j →
      InHand X source { s with phase := .nextFile (k + 1) } i j := by
    intro i j hij
    exact hij.mono (fun _ hjob => hjob) (fun _ hw => hw) fun loc hloc => ⟨hloc, rfl⟩
  refine ⟨hfill.of_same rfl rfl rfl rfl, hk, fun i hi j hj => hhand i j ?_⟩
  rcases Nat.lt_succ_iff_lt_or_eq.mp hi with hi | rfl
  · exact hprev i hi j hj
  · exact (hjs j (mem_of_all_counted hnd (fun j hj => (hjs j hj).1) hcount hj)).2.1

theorem getElem?_concat_of_some {dests : List Location} {i : ℕ} {loc : Location}
    (h : dests[i]? = some loc) (new : Location) : (dests ++ [new])[i]? = some loc := by
  obtain ⟨hlt, -⟩ := List.getElem?_eq_some_iff.mp h
  rw [List.getElem?_append_left hlt]
  exact h

theorem getElem?_concat_cases {dests : List Location} {i : ℕ} {loc new : Location}
    (h : (dests ++ [new])[i]? = some loc) :
    dests[i]? = some loc ∨ (i = dests.length ∧ loc = new) := by
  obtain ⟨hlt, -⟩ := List.getElem?_eq_some_iff.mp h
  rw [List.length_append, List.length_singleton] at hlt
  rcases Nat.lt_succ_iff_lt_or_eq.mp hlt with hlt | rfl
  · rw [List.getElem?_append_left hlt] at h
    exact Or.inl h
  · rw [List.getElem?_concat_length] at h
    exact Or.inr ⟨rfl, (Option.some.inj h).symm⟩

/-- A new file has a place of its own and the size of its source. -/
theorem Filling.create (h : Filling X source s) {file : FileInfo} {loc : Location}
    (hf : s.toReceive.bind (·[s.dests.length]?) = some file)
    (hsize : file.size.toInt = (source s.dests.length).length) (hfresh : loc ∉ s.dests)
    (htd : t.dests = s.dests ++ [loc]) (htf : t.filesToReceive = s.filesToReceive)
    (htw : t.writers = s.writers) (htk : t.disk =
      Function.update s.disk loc (List.replicate file.size.toUInt64.toNat 0)) :
    Filling X source t where
  nodup := by
    rw [htd, List.nodup_append]
    exact ⟨h.nodup, List.nodup_singleton loc, fun a ha b hb hab =>
      hfresh (List.mem_singleton.mp hb ▸ hab ▸ ha)⟩
  sizes i hi := by
    rw [toReceive, htf]
    rw [htd, List.length_append, List.length_singleton] at hi
    rcases Nat.lt_succ_iff_lt_or_eq.mp hi with hi | rfl
    · exact h.sizes i hi
    · exact ⟨file, hf, hsize⟩
  lengths i loc' hi := by
    rw [htk]
    rw [htd] at hi
    rcases getElem?_concat_cases hi with hold | ⟨rfl, rfl⟩
    · have hne : loc' ≠ loc := fun heq => hfresh (heq ▸ List.mem_of_getElem? hold)
      rw [Function.update_of_ne hne]
      exact h.lengths i loc' hold
    · rw [Function.update_self, List.length_replicate, toNat_of_size hsize]
  jobs job hjob := by
    obtain ⟨hloc, hj⟩ := h.jobs job (htw ▸ hjob)
    rw [htd]
    exact ⟨getElem?_concat_of_some hloc loc, hj⟩

/-- The next file gets a place of its own, and no chunk of it is counted yet. -/
theorem requestFile_onCourse {k : ℕ} (h : OnCourse X source s) (hp : s.phase = .nextFile k)
    (hok : Undisturbed X W source s (.task .tick)) :
    OnCourse X source (run (requestFile W k) s) := by
  have hmoves : MovesOn W source s (.nextFile k) := hp ▸ hok
  have hnext : FitsEntry W source s k (s.toReceive.bind (·[k]?)) := hmoves
  unfold OnCourse at h
  rw [hp] at h
  obtain ⟨hfill, rfl, hall⟩ := h
  apply run_of_post
  apply (requestFile_spec s.dests.length).mono
  · rintro p t (⟨hnone, rfl, rfl⟩ | ⟨file, loc, hf, rfl, rfl, rfl⟩)
    · rw [hnone] at hnext
      exact hnext
    · rw [hf] at hnext
      obtain ⟨hsize, hfresh⟩ := hnext
      refine ⟨hfill.create hf hsize hfresh rfl rfl rfl rfl, by simp, List.getElem?_concat_length,
        totalChunks_of_size hsize, fun i hi j hj => ?_, [], rfl, List.nodup_nil, by simp⟩
      refine (hall i hi j hj).mono (fun _ hjob => hjob) (fun _ hw => hw) fun loc hloc => ?_
      refine ⟨getElem?_concat_of_some hloc _, Function.update_of_ne ?_ _ _⟩
      rintro rfl
      exact hfresh (List.mem_of_getElem? hloc)
  · exact fun h t _ => trivial

end Loop

section Messages

/-- A loop starts with no files and no writer tasks. -/
theorem startLoop_onCourse (hp : s.phase = .nextFile 0) (hd : s.dests = [])
    (hw : s.writers = []) : OnCourse X source s := by
  unfold OnCourse
  rw [hp]
  refine ⟨⟨by simp [hd], by simp [hd], by simp [hd], by simp [hw]⟩, by simp [hd], ?_⟩
  exact fun i hi => absurd hi (Nat.not_lt_zero i)

theorem afterMessage_onCourse (h : s.writers = []) :
    OnCourse X source (run (afterMessage W c) s) := by
  apply run_of_post
  apply afterMessage_spec.mono
  · rintro p t (⟨rfl, rfl, -⟩ | ⟨rfl, -, -, files, -, rfl⟩ | ⟨rfl, -, -, -, rfl⟩)
    · exact h
    · exact h
    · exact startLoop_onCourse rfl rfl h
  · exact fun _ _ _ => trivial

/-- A message leaves the writer tasks of a receiver alone. -/
theorem onMessage_onCourse (h : s.writers = []) (m : Message) :
    OnCourse X source (run (onMessage W c m) s) := by
  have hun := onMessage_settles (W := W) (c := c) (s := s) m
  have hw := hun.writers.trans h
  cases hun.landing with
  | recv hp =>
    unfold OnCourse
    rw [hp]
    exact hw
  | sending msg hm rw jobs hp =>
    unfold OnCourse
    rw [hp]
    exact hw
  | loop hp hd => exact startLoop_onCourse hp hd hw
  | ended r hp =>
    unfold OnCourse
    rw [hp]
    trivial

end Messages

section Steps

theorem proceed_onCourse (h : OnCourse X source s)
    (hok : Undisturbed X W source s (.task .tick)) {x : Proc X Phase}
    (hx : proceed W c s = some x) : OnCourse X source (run x s) := by
  rcases proceed_cases hx with ⟨rw, hp, rfl⟩ | ⟨rw, job, jobs, hp, rfl⟩ | ⟨index, hp, rfl⟩ |
    ⟨index, loc, total, got, hp, -, rfl⟩
  · unfold OnCourse at h
    rw [hp] at h
    exact afterMessage_onCourse h
  · unfold OnCourse at h
    rw [hp] at h
    apply run_handChunk
    · exact h
    · exact fun _ => trivial
  · exact requestFile_onCourse h hp hok
  · have htotal : MovesOn W source s (.chunks index loc total got) := hp ▸ hok
    exact leaveFile_onCourse h hp htotal

/-- The end of a writer task keeps a receiver on course. -/
theorem write_onCourse (h : OnCourse X source s) {k done : ℕ}
    (hok : Undisturbed X W source s (.task (.write k done)))
    (he : stepTask W c s (.write k done) = some t) : OnCourse X source t := by
  have hidle : s.writers ≠ [] := by
    obtain ⟨job, hjob, -⟩ := Option.map_eq_some_iff.mp he
    exact List.ne_nil_of_mem (List.mem_of_getElem? hjob)
  obtain ⟨readers, encrypting, dataSent, writers, written, disk, ht⟩ :=
    stepTask_background (by simp) he
  unfold OnCourse at h
  cases hp : s.phase with
  | recv =>
    rw [hp] at h
    exact absurd h hidle
  | sending rw jobs =>
    rw [hp] at h
    exact absurd h hidle
  | ended r =>
    have htp : t.phase = .ended r := by rw [ht]; exact hp
    unfold OnCourse
    rw [htp]
    trivial
  | nextFile i =>
    rw [hp] at h
    obtain ⟨hfill, hi, hall⟩ := h
    obtain ⟨hfill', hhand, htp, htd, -⟩ := write_keeps hfill hok he
    unfold OnCourse
    rw [htp, hp, htd]
    exact ⟨hfill', hi, fun i hi j hj => hhand i j (hall i hi j hj)⟩
  | chunks i loc total got =>
    rw [hp] at h
    obtain ⟨hfill, hi, hloc, htotal, hall, js, hlen, hnd, hjs⟩ := h
    obtain ⟨hfill', hhand, htp, htd, htrw⟩ := write_keeps hfill hok he
    unfold OnCourse
    rw [htp, hp, htd]
    refine ⟨hfill', hi, hloc, htotal, fun i hi j hj => hhand i j (hall i hi j hj), js, hlen, hnd,
      fun j hj => ?_⟩
    obtain ⟨hlt, hhandj, hrwj⟩ := hjs j hj
    exact ⟨hlt, hhand i j hhandj, htrw ▸ hrwj⟩

theorem stepTask_onCourse (h : OnCourse X source s) {e : Task} (hne : e ≠ .tick)
    (hok : Undisturbed X W source s (.task e)) (he : stepTask W c s e = some t) :
    OnCourse X source t := by
  cases background_of_stepTask hne he with
  | read => exact h.of_same rfl rfl rfl rfl rfl rfl rfl
  | readFailed => exact h.of_same rfl rfl rfl rfl rfl rfl rfl
  | encrypt => exact h.of_same rfl rfl rfl rfl rfl rfl rfl
  | unsent => exact h.of_same rfl rfl rfl rfl rfl rfl rfl
  | write => exact write_onCourse h hok he
  | unopened => exact write_onCourse h hok he

theorem step_onCourse (h : OnCourse X source s) {e : Event}
    (hok : Undisturbed X W source s e) (he : step W c s e = some t) : OnCourse X source t := by
  rcases step_cases he with ⟨m, rfl, hp, rfl⟩ | ⟨err, rfl, hp, rfl⟩ |
    ⟨frame, index, loc, total, got, rfl, hp, -, -, rfl⟩ | ⟨rfl, rfl⟩ | ⟨x, rfl, hx, rfl⟩ |
    ⟨t', rfl, ht, he⟩
  · unfold OnCourse at h
    rw [hp] at h
    exact onMessage_onCourse h m
  · exact trivial
  · exact takeChunk_onCourse h hp hok
  · exact h.of_same rfl rfl rfl rfl rfl rfl rfl
  · exact proceed_onCourse h hok hx
  · exact stepTask_onCourse h ht hok he

theorem init_onCourse : OnCourse X source (init X W c) := by
  apply run_of_post
  apply start_spec.mono
  · rintro p t ⟨rfl, ⟨-, rfl⟩ | ⟨-, key, msg, rfl⟩⟩
    · rfl
    · rfl
  · exact fun _ _ _ => trivial

end Steps

/-- When no writer task is left, what is in hand is in place. -/
theorem complete_of_filling (h : Filling X source s) (hw : s.writers = [])
    (hall : ∀ i < s.dests.length, ∀ j < chunkCount source i, InHand X source s i j)
    (hend : s.toReceive.bind (·[s.dests.length]?) = none) : Complete source s := by
  have hplaced : ∀ i < s.dests.length, ∀ j < chunkCount source i, Placed source s i j := by
    intro i hi j hj
    rcases hall i hi j hj with ⟨job, hjob, -⟩ | hp
    · simp [hw] at hjob
    · exact hp
  intro i file hf
  have hi : i < s.dests.length := by
    obtain ⟨list, hlist, hi⟩ := Option.bind_eq_some_iff.mp hf
    rw [hlist, Option.bind_some, List.getElem?_eq_none_iff] at hend
    obtain ⟨hlt, -⟩ := List.getElem?_eq_some_iff.mp hi
    omega
  obtain ⟨file', hf', hsize⟩ := h.sizes i hi
  obtain rfl : file = file' := Option.some.inj (hf.symm.trans hf')
  have hloc : s.dests[i]? = some s.dests[i] := List.getElem?_eq_getElem hi
  refine ⟨⟨s.dests[i], hloc, ?_⟩, fun j hj => ?_⟩
  · apply eq_of_pieces (show 0 < tcpBufferSize by decide) (h.lengths i _ hloc)
    intro j hj
    obtain ⟨⟨loc, hloc', hs⟩, -⟩ := hplaced i hi j hj
    obtain rfl : s.dests[i] = loc := Option.some.inj (hloc.symm.trans hloc')
    exact hs
  · rw [totalChunks_of_size hsize] at hj
    exact (hplaced i hi j (by exact_mod_cast hj)).2

section Evaluation
variable {ok : Session X → Event → Prop} [∀ s e, Decidable (ok s e)]

/-- A state in which the file loop is at the end of a list, and finishes in a state with `p`. -/
def finishes (W : World) (c : Setup) (ok : Session X → Event → Prop)
    [∀ s e, Decidable (ok s e)] (list : List FileInfo) (p : Session X → Bool) (s : Session X) :
    Bool :=
  (match s.phase with | .nextFile i => i == list.length | _ => false) &&
    s.toReceive == some list && ok s (.task .tick) &&
    (step W c s (.task .tick)).any fun t => t.sent != s.sent && p t

/-- What the evaluation of a run shows when finishing means complete. -/
theorem FinishedIsComplete.of_exec (h : FinishedIsComplete X W c source ok)
    (list : List FileInfo) {p : Session X → Bool} (es : List Event)
    (he : ((machine X W c).exec ok (init X W c) es).any (finishes W c ok list p) = true) :
    ∃ t : Session X, Message.finished ∈ t.sent ∧ Complete source t ∧ p t = true := by
  obtain ⟨s, hs, hp⟩ := Machine.ReachableBy.exists_of_exec (M := machine X W c) ok _ es he
  simp only [finishes, Bool.and_eq_true, beq_iff_eq, decide_eq_true_eq] at hp
  obtain ⟨⟨⟨hphase, hlist⟩, hok⟩, hstep⟩ := hp
  obtain ⟨t, ht, htp⟩ := (Option.any_eq_true _ _).mp hstep
  simp only [Bool.and_eq_true, bne_iff_ne] at htp
  split at hphase
  next i hi =>
    obtain rfl : i = list.length := by simpa using hphase
    rcases h s t _ hs hi (by simp [hlist]) hok ht with ⟨hsent, hc⟩ | ⟨-, hsame⟩
    · exact ⟨t, by simp [hsent], hc, htp.2⟩
    · exact absurd hsame htp.1
  · simp at hphase

end Evaluation

/-- In an undisturbed run, a receiver that finishes has received every file. -/
theorem undisturbed_finishedIsComplete (source : ℕ → Bytes) :
    FinishedIsComplete X W c source (Undisturbed X W source) := by
  intro s t i hreach hp hend hok he
  have h : OnCourse X source s := hreach.invariant (P := OnCourse X source) init_onCourse
    fun s e s' _ h hok he => step_onCourse h hok he
  unfold OnCourse at h
  rw [hp] at h
  obtain ⟨hfill, rfl, hall⟩ := h
  have hmoves : MovesOn W source s (.nextFile s.dests.length) := hp ▸ hok
  have hw : FitsEntry W source s _ (s.toReceive.bind (·[s.dests.length]?)) := hmoves
  rw [hend] at hw
  have hc := complete_of_filling hfill hw hall hend
  obtain ⟨x, hx, rfl⟩ := Option.map_eq_some_iff.mp he
  simp only [proceed, hp, Option.some.injEq] at hx
  subst hx
  apply run_of_post (I := fun t : Session X =>
    (t.sent = s.sent ++ [Message.finished] ∧ Complete source t) ∨
      ((∃ e, t.phase = .ended (.error (.err e))) ∧ t.sent = s.sent))
  apply (requestFile_spec s.dests.length).mono
  · rintro p t (⟨-, -, rfl⟩ | ⟨file, loc, hf, -⟩)
    · exact Or.inl ⟨rfl, hc⟩
    · simp [hend] at hf
  · rintro h t ⟨⟨e, rfl⟩, rfl | ⟨file, hf, -⟩⟩
    · exact Or.inr ⟨⟨e, rfl⟩, rfl⟩
    · simp [hend] at hf

/-- The sealed chunk of a file that holds "hello". -/
def helloFrame : DataFrame :=
  ⟨List.replicate 12 0 ++ chunkBuffer 0 (asBytes "hello") ++ asBytes "abc" ++ List.replicate 13 0,
    some 0⟩

theorem hello_isComplete : ∃ t : Session .transparent, Message.finished ∈ t.sent ∧
    Complete (fun _ => asBytes "hello") t ∧ (t.toReceive == some [.plain "a.txt" "./" 5]) = true :=
  (undisturbed_finishedIsComplete (X := .transparent) (W := .calm (.plain [[104]] 5))
    (c := .receiver "12345abc") fun _ => asBytes "hello").of_exec
      [.plain "a.txt" "./" 5] (senderHello [.plain "a.txt" "./" 5] ++
        [.task .tick, .chunk helloFrame, .task .tick, .task (.write 0 5)]) (by decide +kernel)

/-- A receiver whose data connection ends before the first frame finishes with an empty file. -/
theorem early_close_finishes :
    ¬ FinishedIsComplete .transparent (.calm (.plain [[104]] 5)) (.receiver "12345abc")
      (fun _ => asBytes "hello") fun _ _ => True := by
  intro h
  obtain ⟨t, -, hc, ht⟩ := h.of_exec [.plain "a.txt" "./" 5]
    (p := fun t => t.toReceive == some [.plain "a.txt" "./" 5] && t.written.isEmpty)
    (senderHello [.plain "a.txt" "./" 5] ++ [.task .tick, .dataClosed, .task .tick])
    (by decide +kernel)
  simp only [Bool.and_eq_true, beq_iff_eq, List.isEmpty_iff] at ht
  obtain ⟨-, hw⟩ := hc 0 (.plain "a.txt" "./" 5) (by rw [ht.1]; rfl)
  obtain ⟨w, hmem, -⟩ := hw 0 (by decide)
  simp [ht.2] at hmem

end Session
end Croc
