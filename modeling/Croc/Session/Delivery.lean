import Croc.Session.Moves
import Croc.Session.Reassembly
import Croc.Session.Receive

/-! What an honest session brings about: in every run each file arrives as the sender read it. -/
namespace Croc
open Lib

/-- The place of the `i`-th file. Three calls of the operating system are made for each file. -/
def Meeting.place (M : Meeting) (i : ℕ) (file : FileInfo) : Location :=
  M.receiverWorld.os.locate (3 * i) (Path.join file.remoteFolder file.name)

/-- The contents of the files on the list: they have the announced sizes, and no two files go to
one place. -/
structure Meeting.Holds (M : Meeting) (list : List FileInfo) (source : ℕ → Bytes) : Prop where
  sizes : ∀ (i : ℕ) (file : FileInfo), list[i]? = some file →
    file.size.toInt = (source i).length
  apart : ∀ i j file file', list[i]? = some file → list[j]? = some file' →
    M.place i file = M.place j file' → i = j

namespace Pair
open Session
variable {X : External} {M : Meeting} {p p' : Pair X} {enc : EncryptedSession}
  {files : FilesInformation} {list : List FileInfo} {hello : List Message} {source : ℕ → Bytes}

/-- The reader task finds what the source file holds. -/
def ReadsSource (source : ℕ → Bytes) (s : Session X) (id : ℕ) (data : Bytes) : Prop :=
  ∀ reader ∈ s.readers[id]?, ∀ job ∈ reader.queue.head?,
    data = ((source job.file).drop job.chunkOffset).take job.chunkSize

instance (s : Session X) (id : ℕ) (data : Bytes) : Decidable (ReadsSource source s id data) :=
  inferInstanceAs (Decidable (∀ reader ∈ s.readers[id]?, ∀ job ∈ reader.queue.head?,
    data = ((source job.file).drop job.chunkOffset).take job.chunkSize))

/-- Steps in which nothing fails, the readers find what the source files hold, and the writers
write all of their chunks. -/
def Faithful (source : ℕ → Bytes) (p : Pair X) : Event → Prop
  | .sender (.read id data) => ReadsSource source p.sender id data
  | .receiver (.write k done) => WritesAll X done p.receiver.writers[k]?
  | e => Smooth p e

theorem Faithful.smooth {e : Event} (h : Faithful source p e) : Smooth p e := by
  unfold Faithful at h
  split at h
  · trivial
  · trivial
  · exact h

/-- Both ends have returned, every file of the list is in its place, and nothing else on the disk
of the receiver has changed. -/
structure Delivered (M : Meeting) (source : ℕ → Bytes) (list : List FileInfo) (p : Pair X) : Prop
    extends Returned p where
  files : ∀ i file, list[i]? = some file → p.receiver.disk (M.place i file) = source i
  rest : ∀ loc, (∀ i file, list[i]? = some file → loc ≠ M.place i file) →
    p.receiver.disk loc = M.receiverWorld.disk loc

/-- A source file as the way of its chunks. -/
abbrev route (source : ℕ → Bytes) (i : ℕ) : Route := ⟨source i, i, []⟩

/-- A chunk of a file that is read next, and later. -/
def IsPart (source : ℕ → Bytes) (job : FileChunkInfo) : Prop :=
  ∃ j < chunkCount source job.file, Transfer.IsPlanned (route source job.file) j job

/-- The tasks of the sender, and the data connection, have chunks of the source files only. -/
structure Sends (source : ℕ → Bytes) (enc : EncryptedSession) (p : Pair X) : Prop where
  planned : ∀ job ∈ p.sender.phase.jobs, IsPart source job
  queued : ∀ reader ∈ p.sender.readers, ∀ job ∈ reader.queue, IsPart source job
  encrypting : ∀ job ∈ p.sender.encrypting, ∃ j < chunkCount source job.file,
    job.buffer = Transfer.buffer (route source job.file) j
  inFlight : ∀ frame ∈ p.inFlight, ∃ i j, frame.origin = some i ∧ IsChunk X source enc i j frame

/-- The number of files that a receiver has created. -/
def createdFiles (n : ℕ) : Phase → ℕ
  | .nextFile i => i
  | .chunks i .. => i + 1
  | .recv | .sending .. | .ended _ => n

/-- The files of the receiver are those of the list, in their places. -/
structure Fills (M : Meeting) (source : ℕ → Bytes) (list : List FileInfo) (r : Session X) :
    Prop where
  filling : Filling X source r
  created : r.dests.length = createdFiles list.length r.phase
  current : ∀ i loc total got, r.phase = .chunks i loc total got → r.dests[i]? = some loc
  calls : r.calls = 3 * r.dests.length
  places : ∀ i loc, r.dests[i]? = some loc → ∃ file, list[i]? = some file ∧ loc = M.place i file
  rest : ∀ loc ∉ r.dests, r.disk loc = M.receiverWorld.disk loc

/-- Where the `j`-th chunk of the `i`-th file is. -/
inductive OnItsWay (source : ℕ → Bytes) (enc : EncryptedSession) (p : Pair X) (i j : ℕ) : Prop
  | planned (job : FileChunkInfo) (h : job ∈ p.sender.phase.jobs) (hi : job.file = i)
      (hj : Transfer.IsPlanned (route source i) j job)
  | queued (reader : ReaderTask) (hr : reader ∈ p.sender.readers) (job : FileChunkInfo)
      (h : job ∈ reader.queue) (hi : job.file = i) (hj : Transfer.IsPlanned (route source i) j job)
  | encrypting (job : EncryptJob) (h : job ∈ p.sender.encrypting) (hi : job.file = i)
      (hj : job.buffer = Transfer.buffer (route source i) j)
  | inFlight (frame : DataFrame) (h : frame ∈ p.inFlight) (hi : frame.origin = some i)
      (hj : IsChunk X source enc i j frame)
  | inHand (h : InHand X source p.receiver i j)

/-- The invariant: every chunk of a file whose request the sender has taken up is on its way, and
nothing else is. -/
structure Conveys (M : Meeting) (source : ℕ → Bytes) (enc : EncryptedSession)
    (list : List FileInfo) (hello : List Message) (p : Pair X) : Prop where
  sends : Sends source enc p
  fills : Fills M source list p.receiver
  covered : ∀ i < list.length, hello.length + i < p.toSender → ∀ j < chunkCount source i,
    OnItsWay source enc p i j

section Sending

theorem isPart_of_plan {i : ℕ} {job : FileChunkInfo} (h : job ∈ chunkPlan i (source i).length) :
    IsPart source job := by
  obtain rfl := file_of_mem_chunkPlan h
  exact Transfer.exists_of_mem_chunkPlan (r := route source job.file) h

/-- `send_file` hands a chunk over to the reader task. -/
theorem Conveys.hand (h : Conveys M source enc list hello p) {job : FileChunkInfo}
    {jobs queue : List FileChunkInfo} (hp : p.sender.phase = .sending ⟨0, enc⟩ (job :: jobs))
    (hr : p.sender.readers = [⟨enc, queue, false⟩]) :
    Conveys M source enc list hello { p with sender := { p.sender with
      readers := [⟨enc, queue ++ [job], false⟩]
      phase := .sending ⟨0, enc⟩ jobs } } := by
  have hplanned := h.sends.planned
  have hqueued := h.sends.queued
  rw [hp, Phase.jobs_sending, List.forall_mem_cons] at hplanned
  rw [hr, List.forall_mem_singleton] at hqueued
  refine ⟨⟨hplanned.2, ?_, h.sends.encrypting, h.sends.inFlight⟩, h.fills,
    fun i hi hlt j hj => ?_⟩
  · rw [List.forall_mem_singleton, List.forall_mem_append, List.forall_mem_singleton]
    exact ⟨hqueued, hplanned.1⟩
  · rcases h.covered i hi hlt j hj with ⟨job', hjob', hi, hj⟩ | ⟨reader, hr', job', hjob', hi, hj⟩ |
      ⟨job', hjob', hi, hj⟩ | ⟨frame, hf, hi, hj⟩ | hhand
    · rw [hp] at hjob'
      rcases List.mem_cons.mp hjob' with rfl | hjob'
      · exact .queued _ (List.mem_singleton_self _) _
          (List.mem_append_right _ (List.mem_singleton_self _)) hi hj
      · exact .planned job' hjob' hi hj
    · obtain rfl := List.mem_singleton.mp (hr ▸ hr')
      exact .queued _ (List.mem_singleton_self _) _ (List.mem_append_left _ hjob') hi hj
    · exact .encrypting job' hjob' hi hj
    · exact .inFlight frame hf hi hj
    · exact .inHand hhand

/-- The reader task reads a chunk and starts a task that encrypts it. -/
theorem Conveys.read (h : Conveys M source enc list hello p) {job : FileChunkInfo}
    {queue : List FileChunkInfo} {data : Bytes}
    (hr : p.sender.readers = [⟨enc, job :: queue, false⟩])
    (hok : ReadsSource source p.sender 0 data) :
    Conveys M source enc list hello { p with sender := { p.sender with
      readers := [⟨enc, queue, false⟩]
      encrypting := p.sender.encrypting ++
        [⟨enc, job.file, chunkBuffer job.chunkOffset data⟩] } } := by
  have hqueued := h.sends.queued
  rw [hr, List.forall_mem_singleton, List.forall_mem_cons] at hqueued
  obtain ⟨⟨k, hk, hplanned⟩, hqueued⟩ := hqueued
  have hdata : data = chunkOf source job.file k :=
    (hok _ (by rw [hr]; rfl) job rfl).trans (hplanned.readJob (r := route source job.file))
  have hbuffer : chunkBuffer job.chunkOffset data =
      Transfer.buffer (route source job.file) k := by
    rw [hdata, hplanned.1]
    rfl
  refine ⟨⟨h.sends.planned, ?_, ?_, h.sends.inFlight⟩, h.fills, fun i hi hlt j hj => ?_⟩
  · rwa [List.forall_mem_singleton]
  · rw [List.forall_mem_append, List.forall_mem_singleton]
    exact ⟨h.sends.encrypting, k, hk, hbuffer⟩
  · rcases h.covered i hi hlt j hj with ⟨job', hjob', hi, hj⟩ | ⟨reader, hr', job', hjob', hi, hj⟩ |
      ⟨job', hjob', hi, hj⟩ | ⟨frame, hf, hi, hj⟩ | hhand
    · exact .planned job' hjob' hi hj
    · obtain rfl := List.mem_singleton.mp (hr ▸ hr')
      rcases List.mem_cons.mp hjob' with rfl | hjob'
      · subst hi
        obtain rfl : k = j :=
          Nat.eq_of_mul_eq_mul_right (by decide) (hplanned.1.symm.trans hj.1)
        exact .encrypting _ (List.mem_append_right _ (List.mem_singleton_self _)) rfl hbuffer
      · exact .queued _ (List.mem_singleton_self _) _ hjob' hi hj
    · exact .encrypting job' (List.mem_append_left _ hjob') hi hj
    · exact .inFlight frame hf hi hj
    · exact .inHand hhand

/-- A spawned task seals a chunk and sends it. -/
theorem Conveys.encrypt (hX : X.DecryptInverts) (h : Conveys M source enc list hello p) {k : ℕ}
    {nonce : Block 12} {job : EncryptJob} {payload : Bytes}
    (hjob : p.sender.encrypting[k]? = some job)
    (hw : enc.write X nonce job.buffer = .ok payload) :
    Conveys M source enc list hello { p with
      sender := { p.sender with
        encrypting := p.sender.encrypting.eraseIdx k
        dataSent := p.sender.dataSent ++ [⟨payload, some job.file⟩] }
      inFlight := p.inFlight ++ [⟨payload, some job.file⟩] } := by
  have hdec := AesEncryptor.decrypt_encrypt hX hw
  have hchunk : ∀ j < chunkCount source job.file,
      job.buffer = Transfer.buffer (route source job.file) j →
      IsChunk X source enc job.file j ⟨payload, some job.file⟩ :=
    fun j hj hb => ⟨hj, by rw [hdec, hb]; rfl⟩
  refine ⟨⟨h.sends.planned, h.sends.queued,
    fun job' h' => h.sends.encrypting job' (List.mem_of_mem_eraseIdx h'), ?_⟩, h.fills,
    fun i hi hlt j hj => ?_⟩
  · rw [List.forall_mem_append, List.forall_mem_singleton]
    obtain ⟨j, hj, hb⟩ := h.sends.encrypting job (List.mem_of_getElem? hjob)
    exact ⟨h.sends.inFlight, _, j, rfl, hchunk j hj hb⟩
  · rcases h.covered i hi hlt j hj with ⟨job', hjob', hi, hb⟩ | ⟨reader, hr', job', hjob', hi, hb⟩ |
      ⟨job', hjob', hi, hb⟩ | ⟨frame, hf, hi, hb⟩ | hhand
    · exact .planned job' hjob' hi hb
    · exact .queued reader hr' job' hjob' hi hb
    · rcases Transfer.getElem?_eraseIdx_or hjob hjob' with rfl | hjob'
      · subst hi
        exact .inFlight _ (List.mem_append_right _ (List.mem_singleton_self _)) rfl (hchunk j hj hb)
      · exact .encrypting job' hjob' hi hb
    · exact .inFlight frame (List.mem_append_left _ hf) hi hb
    · exact .inHand hhand

/-- The sender plans the chunks of the file that is requested. -/
theorem Conveys.request (h : Conveys M source enc list hello p) {i n : ℕ}
    (hp : p.sender.phase = .recv) (ht : p.toSender = hello.length + i)
    (hn : n = (source i).length) :
    Conveys M source enc list hello { p with
      sender := { p.sender with
        calls := p.sender.calls + 1
        phase := .sending ⟨0, enc⟩ (chunkPlan i n) }
      toSender := p.toSender + 1 } := by
  subst hn
  refine ⟨⟨fun job hjob => isPart_of_plan hjob, h.sends.queued, h.sends.encrypting,
    h.sends.inFlight⟩, h.fills, fun i' hi hlt j hj => ?_⟩
  have hlt : hello.length + i' < p.toSender + 1 := hlt
  rcases Nat.lt_or_eq_of_le (Nat.le_of_lt_succ hlt) with hlt | heq
  · rcases h.covered i' hi hlt j hj with ⟨job', hjob', hi, hb⟩ |
      ⟨reader, hr', job', hjob', hi, hb⟩ | ⟨job', hjob', hi, hb⟩ | ⟨frame, hf, hi, hb⟩ | hhand
    · rw [hp] at hjob'
      cases hjob'
    · exact .queued reader hr' job' hjob' hi hb
    · exact .encrypting job' hjob' hi hb
    · exact .inFlight frame hf hi hb
    · exact .inHand hhand
  · obtain rfl : i' = i := by omega
    obtain ⟨job, hjob, hplanned⟩ : ∃ job ∈ chunkPlan i' (source i').length,
        Transfer.IsPlanned (route source i') j job :=
      Transfer.isPlanned_chunkPlan (r := route source i') hj
    exact .planned job hjob (file_of_mem_chunkPlan hjob) hplanned

end Sending

section Filling

/-- The sender keeps its chunks, and the receiver its files. -/
theorem Conveys.keep (h : Conveys M source enc list hello p)
    (hjobs : p'.sender.phase.jobs = p.sender.phase.jobs)
    (hreaders : p'.sender.readers = p.sender.readers)
    (hencrypting : p'.sender.encrypting = p.sender.encrypting)
    (hflight : p'.inFlight = p.inFlight)
    (hasked : ∀ i < list.length, hello.length + i < p'.toSender → hello.length + i < p.toSender)
    (hfills : Fills M source list p'.receiver)
    (hhand : ∀ i j, InHand X source p.receiver i j → InHand X source p'.receiver i j) :
    Conveys M source enc list hello p' := by
  refine ⟨⟨by rw [hjobs]; exact h.sends.planned, by rw [hreaders]; exact h.sends.queued,
    by rw [hencrypting]; exact h.sends.encrypting, by rw [hflight]; exact h.sends.inFlight⟩,
    hfills, fun i hi hlt j hj => ?_⟩
  rcases h.covered i hi (hasked i hi hlt) j hj with ⟨job, hjob, hi, hb⟩ |
    ⟨reader, hr, job, hjob, hi, hb⟩ | ⟨job, hjob, hi, hb⟩ | ⟨frame, hf, hi, hb⟩ | hin
  · exact .planned job (hjobs ▸ hjob) hi hb
  · exact .queued reader (hreaders ▸ hr) job hjob hi hb
  · exact .encrypting job (hencrypting ▸ hjob) hi hb
  · exact .inFlight frame (hflight ▸ hf) hi hb
  · exact .inHand (hhand i j hin)

/-- The receiver goes on. -/
theorem Conveys.moveReceiver (h : Conveys M source enc list hello p) {r : Session X}
    (hfills : Fills M source list r)
    (hhand : ∀ i j, InHand X source p.receiver i j → InHand X source r i j) :
    Conveys M source enc list hello { p with receiver := r } :=
  h.keep rfl rfl rfl rfl (fun _ _ hlt => hlt) hfills hhand

/-- A receiver that only moves on keeps its files. -/
theorem Fills.of_same {r t : Session X} (h : Fills M source list r)
    (hd : t.dests = r.dests) (hf : t.filesToReceive = r.filesToReceive) (hdisk : t.disk = r.disk)
    (hw : t.writers = r.writers) (hc : t.calls = r.calls)
    (hcreated : createdFiles list.length t.phase = createdFiles list.length r.phase)
    (hphase : ∀ i loc total got, t.phase ≠ .chunks i loc total got) : Fills M source list t where
  filling := h.filling.of_same hd hf hdisk hw
  created := by rw [hd, hcreated, h.created]
  current i loc total got hp := absurd hp (hphase i loc total got)
  calls := by rw [hd, hc, h.calls]
  places := by rw [hd]; exact h.places
  rest := by rw [hd, hdisk]; exact h.rest

theorem inHand_of_same {s t : Session X} {i j : ℕ} (h : InHand X source s i j)
    (hd : t.dests = s.dests) (hdisk : t.disk = s.disk) (hw : t.writers = s.writers)
    (hwr : t.written = s.written) : InHand X source t i j :=
  h.mono (by simp [hw]) (by simp [hwr]) fun loc hloc => by rw [hd, hdisk]; exact ⟨hloc, rfl⟩

/-- The next file has a place of its own. -/
theorem Fills.create {r : Session X} (hs : M.Holds list source) (h : Fills M source list r)
    (hfiles : r.toReceive = some list) {i : ℕ} {file : FileInfo} {loc : Location}
    (hp : r.phase = .nextFile i) (hfile : list[i]? = some file)
    (hloc : loc = M.receiverWorld.os.locate r.calls (Path.join file.remoteFolder file.name)) :
    loc ∉ r.dests ∧ Fills M source list { r with
      sent := r.sent ++ [fileRequest i]
      ops := r.ops ++ [.createFile file loc]
      calls := r.calls + 3
      dests := r.dests ++ [loc]
      disk := Function.update r.disk loc (List.replicate file.size.toUInt64.toNat 0)
      phase := .chunks i loc (totalChunks file) [] } := by
  have hlen : r.dests.length = i := by
    rw [h.created, hp]
    rfl
  have hplace : loc = M.place i file := by rw [hloc, h.calls, hlen, Meeting.place]
  have hfresh : loc ∉ r.dests := by
    intro hmem
    obtain ⟨k, hk⟩ := List.getElem?_of_mem hmem
    obtain ⟨file', hfile', hloc'⟩ := h.places k loc hk
    have hki : k = i := hs.apart k i file' file hfile' hfile (hloc'.symm.trans hplace)
    have := (List.getElem?_eq_some_iff.mp hk).1
    omega
  have hnext : r.toReceive.bind (·[r.dests.length]?) = some file := by
    rw [hfiles, Option.bind_some, hlen, hfile]
  have hsize : file.size.toInt = (source r.dests.length).length := by
    rw [hlen]
    exact hs.sizes i file hfile
  refine ⟨hfresh, h.filling.create hnext hsize hfresh rfl rfl rfl rfl, ?_, ?_, ?_, ?_, ?_⟩
  · rw [List.length_append, hlen]
    rfl
  · intro i' loc' total' got' hp'
    obtain ⟨rfl, rfl, -, -⟩ := Phase.chunks.inj hp'
    rw [← hlen]
    exact List.getElem?_concat_length
  · rw [List.length_append, List.length_singleton, h.calls]
    rfl
  · intro k loc' hk
    rcases getElem?_concat_cases hk with hold | ⟨rfl, rfl⟩
    · exact h.places k loc' hold
    · exact ⟨file, hlen ▸ hfile, hlen ▸ hplace⟩
  · intro loc' hloc'
    rw [List.mem_append, List.mem_singleton, not_or] at hloc'
    exact (Function.update_of_ne hloc'.2 _ _).trans (h.rest loc' hloc'.1)

/-- A frame is counted and handed to a writer task. -/
theorem Conveys.deliver (h : Conveys M source enc list hello p) {k i : ℕ} {frame : DataFrame}
    {loc : Location} {total : ℤ} {got : List DataFrame}
    (hp : p.receiver.phase = .chunks i loc total got) (hk : p.inFlight[k]? = some frame)
    (ho : frame.origin = some i) : Conveys M source enc list hello { p with
      receiver := { p.receiver with
        writers := p.receiver.writers ++ [⟨enc, i, loc, frame⟩]
        phase := .chunks i loc total (got ++ [frame]) }
      inFlight := p.inFlight.eraseIdx k } := by
  have hloc := h.fills.current i loc total got hp
  have hchunk : ∃ j, IsChunk X source enc i j frame := by
    obtain ⟨i', j, ho', hj⟩ := h.sends.inFlight frame (List.mem_of_getElem? hk)
    obtain rfl := Option.some.inj (ho.symm.trans ho')
    exact ⟨j, hj⟩
  obtain ⟨hfilling, hcreated, -, hcalls, hplaces, hrest⟩ := h.fills
  refine ⟨⟨h.sends.planned, h.sends.queued, h.sends.encrypting,
    fun frame' h' => h.sends.inFlight frame' (List.mem_of_mem_eraseIdx h')⟩,
    ⟨⟨hfilling.nodup, hfilling.sizes, hfilling.lengths, ?_⟩, ?_, ?_, hcalls, hplaces, hrest⟩,
    fun i' hi hlt j hj => ?_⟩
  · rw [List.forall_mem_append, List.forall_mem_singleton]
    exact ⟨hfilling.jobs, hloc, hchunk⟩
  · rw [hp] at hcreated
    exact hcreated
  · intro i' loc' total' got' hp'
    obtain ⟨rfl, rfl, -, -⟩ := Phase.chunks.inj hp'
    exact hloc
  · rcases h.covered i' hi hlt j hj with ⟨job, hjob, hi, hb⟩ | ⟨reader, hr, job, hjob, hi, hb⟩ |
      ⟨job, hjob, hi, hb⟩ | ⟨frame', hf, hi, hb⟩ | hin
    · exact .planned job hjob hi hb
    · exact .queued reader hr job hjob hi hb
    · exact .encrypting job hjob hi hb
    · rcases Transfer.getElem?_eraseIdx_or hk hf with rfl | hf
      · obtain rfl := Option.some.inj (ho.symm.trans hi)
        exact .inHand (Or.inl ⟨_, List.mem_append_right _ (List.mem_singleton_self _), rfl, hb⟩)
      · exact .inFlight frame' hf hi hb
    · exact .inHand (hin.mono (fun _ hjob => List.mem_append_left _ hjob) (fun _ hw => hw)
        fun loc hloc => ⟨hloc, rfl⟩)

/-- A writer task puts a chunk in its place. -/
theorem Fills.write {r t : Session X} (h : Fills M source list r) {W : World} {c : Setup}
    {k done : ℕ} (hok : WritesAll X done r.writers[k]?)
    (he : stepTask W c r (.write k done) = some t) :
    Fills M source list t ∧ ∀ i j, InHand X source r i j → InHand X source t i j := by
  obtain ⟨hfilling, hhand, hphase, hdests, -⟩ := write_keeps (W := W) (c := c) h.filling hok he
  obtain ⟨job, hjob, ht⟩ := Option.map_eq_some_iff.mp he
  have hloc := (h.filling.jobs job (List.mem_of_getElem? hjob)).1
  refine ⟨⟨hfilling, by rw [hdests, hphase]; exact h.created,
    by rw [hdests, hphase]; exact h.current, ?_, by rw [hdests]; exact h.places, ?_⟩, hhand⟩
  · obtain ⟨_, _, _, _, _, _, rfl⟩ := stepTask_background (by simp) he
    exact h.calls
  · intro loc hmem
    rw [hdests] at hmem
    have hne : loc ≠ job.loc := fun heq => hmem (heq ▸ List.mem_of_getElem? hloc)
    rw [← h.rest loc hmem, ← ht]
    dsimp only
    split
    · exact Function.update_of_ne hne _ _
    · rfl

end Filling

/-- Every faithful step of an honest session keeps the invariant. -/
theorem Conveys.step (hX : X.DecryptInverts) (hs : M.Holds list source)
    (h : Conveys M source enc list hello p) (hfiles : p.receiver.toReceive = some list)
    {e : Event} (hok : Faithful source p e) (he : Pair.step M p e = some p')
    (hmove : Move M enc list hello p e p') : Conveys M source enc list hello p' := by
  cases hmove with
  | back hp =>
    exact h.keep (by rw [hp]; rfl) rfl rfl rfl (fun _ _ hlt => hlt) h.fills fun _ _ hin => hin
  | hand hp hr => exact h.hand hp hr
  | read hr => exact h.read hr hok
  | encrypt hjob hw => exact h.encrypt hX hjob hw
  | request hp hfile hm ht =>
    refine h.request hp ht ?_
    rw [hs.sizes _ _ hfile, Int.toNat_natCast]
  | last hp hm ht =>
    refine h.keep (by rw [hp]; rfl) rfl rfl rfl (fun i hi _ => ?_) h.fills fun _ _ hin => hin
    omega
  | @create i file loc hp hfile hloc =>
    obtain ⟨hfresh, hfills⟩ := h.fills.create hs hfiles hp hfile hloc
    refine h.moveReceiver hfills fun i j hin => ?_
    refine hin.mono (fun _ hjob => hjob) (fun _ hw => hw) fun loc' hloc' => ?_
    have hne : loc' ≠ loc := fun heq => hfresh (heq ▸ List.mem_of_getElem? hloc')
    exact ⟨getElem?_concat_of_some hloc' _, Function.update_of_ne hne _ _⟩
  | finish hp | leave hp =>
    exact h.moveReceiver
      (h.fills.of_same rfl rfl rfl rfl rfl (by simp [hp, createdFiles]) (by simp))
      fun i j hin => inHand_of_same hin rfl rfl rfl rfl
  | write hjob ho =>
    obtain ⟨r, hr, hp'⟩ := Option.map_eq_some_iff.mp he
    obtain ⟨hfills, hhand⟩ :=
      h.fills.write (W := M.receiverWorld) (c := M.receiver) hok hr
    rw [← hp']
    exact h.moveReceiver hfills hhand
  | deliver hp hk ho => exact h.deliver hp hk ho
  | answer hp =>
    exact h.keep rfl rfl rfl rfl (fun _ _ hlt => hlt)
      (h.fills.of_same rfl rfl rfl rfl rfl (by simp [hp, createdFiles]) (by simp))
      fun i j hin => inHand_of_same hin rfl rfl rfl rfl

section Runs

/-- Where nothing is left to do, the files are in their places. -/
theorem Conveys.delivered (h : Conveys M source enc list hello p)
    (hp : Proceeds enc list hello p) (hstuck : ¬ GoesOn M p) : Delivered M source list p := by
  obtain ⟨hreturned, hwork⟩ := hp.settled hstuck
  obtain ⟨hqueues, hencrypting, hflight⟩ := drained_of_work hwork
  have hasked := hp.2 hreturned.sender
  have hlen : p.receiver.dests.length = list.length := by
    rw [h.fills.created, hreturned.receiver]
    rfl
  have hplace : ∀ i file, list[i]? = some file → p.receiver.dests[i]? = some (M.place i file) := by
    intro i file hfile
    obtain ⟨hlt, -⟩ := List.getElem?_eq_some_iff.mp hfile
    have hget : p.receiver.dests[i]? = some _ := List.getElem?_eq_getElem (hlen ▸ hlt)
    obtain ⟨file', hfile', hloc⟩ := h.fills.places i _ hget
    obtain rfl := Option.some.inj (hfile.symm.trans hfile')
    rw [hget, hloc]
  refine ⟨hreturned, fun i file hfile => ?_, fun loc hloc => ?_⟩
  · obtain ⟨hlt, -⟩ := List.getElem?_eq_some_iff.mp hfile
    have hdest := hplace i file hfile
    apply eq_of_pieces (show 0 < tcpBufferSize by decide) (h.fills.filling.lengths i _ hdest)
    intro j hj
    rcases h.covered i hlt (by omega) j hj with ⟨job, hjob, -⟩ | ⟨reader, hr, job, hjob, -⟩ |
      ⟨job, hjob, -⟩ | ⟨frame, hf, -⟩ | ⟨job, hjob, -⟩ | ⟨⟨loc, hloc, hstands⟩, -⟩
    · rw [hreturned.sender] at hjob
      cases hjob
    · simp [hqueues reader hr] at hjob
    · simp [hencrypting] at hjob
    · simp [hflight] at hf
    · simp [hreturned.writers] at hjob
    · obtain rfl := Option.some.inj (hdest.symm.trans hloc)
      exact hstands
  · refine h.fills.rest loc fun hmem => ?_
    obtain ⟨k, hk⟩ := List.getElem?_of_mem hmem
    obtain ⟨file, hfile, heq⟩ := h.fills.places k loc hk
    exact hloc k file hfile heq

/-- Where something can happen, it can happen faithfully. -/
theorem Conveys.goesOn (h : Conveys M source enc list hello p)
    (hp : Proceeds enc list hello p) (hX : X.DecryptInverts) (hW : X.WritesShort)
    (hM : M.Honest files list) (hgoes : GoesOn M p) :
    ∃ e, Faithful source p e ∧ (Pair.step M p e).isSome := by
  obtain ⟨e, hok, hsome⟩ := hgoes
  obtain ⟨p', he⟩ := Option.isSome_iff_exists.mp hsome
  obtain ⟨-, hmove⟩ := hp.step hX hW hM hok he
  cases hmove with
  | @read job queue data hr hd =>
    have hqueued := h.sends.queued
    rw [hr, List.forall_mem_singleton, List.forall_mem_cons] at hqueued
    obtain ⟨⟨j, -, hj⟩, -⟩ := hqueued
    have hread : ((source job.file).drop job.chunkOffset).take job.chunkSize =
        chunkOf source job.file j := hj.readJob (r := route source job.file)
    refine ⟨.sender (.read 0 (chunkOf source job.file j)), ?_, ?_⟩
    · intro reader hreader job' hjob'
      rw [hr] at hreader
      obtain rfl := Option.some.inj hreader
      obtain rfl := Option.some.inj hjob'
      exact hread.symm
    · have hlen : (chunkOf source job.file j).length = job.chunkSize := hj.2.symm
      simp only [Pair.step, stepSender, Session.step, stepTask, hr, List.getElem?_cons_zero,
        if_pos hlen, Option.map_some, Option.isSome_some]
  | @write k done job offset data hjob ho =>
    refine ⟨.receiver (.write k data.length), ?_, ?_⟩
    · intro job' hjob' chunk hchunk
      obtain rfl := Option.some.inj (hjob.symm.trans hjob')
      rw [ho] at hchunk
      obtain rfl := Option.some.inj hchunk
      exact le_rfl
    · simp only [Pair.step, stepReceiver, Session.step, stepTask, hjob, Option.map_some,
        Option.isSome_some]
  | back | hand | encrypt | request | last | create | finish | leave | deliver | answer =>
    refine ⟨_, ?_, hsome⟩
    exact hok

variable {x : Exchange X M}

theorem conveys_afterOffer (hM : M.Honest files list) {total : Int64}
    (htotal : files.totalSize M.receiverWorld.overflowChecks = some total) :
    Conveys M source x.enc list x.keyedReceiver.sent (x.afterOffer files) := by
  have hrun := run_eq_of_post (onFilesInfo_ok (s := x.waitingReceiver) M.isReceiver rfl hM.lists
    hM.folders htotal hM.accepts)
  refine ⟨⟨?_, ?_, ?_, ?_⟩, ?_, fun i _ hlt => ?_⟩
  · exact List.forall_mem_nil _
  · exact List.forall_mem_singleton.mpr (List.forall_mem_nil _)
  · exact List.forall_mem_nil _
  · exact List.forall_mem_nil _
  · rw [Exchange.afterOffer, hrun]
    refine ⟨⟨List.nodup_nil, ?_, ?_, List.forall_mem_nil _⟩, rfl, ?_, rfl, ?_, fun _ _ => rfl⟩
    · exact fun i hi => absurd hi (Nat.not_lt_zero i)
    · exact fun i loc hloc => by simp at hloc
    · exact fun i loc total got hp => by simp at hp
    · exact fun i loc hloc => by simp at hloc
  · have hsent : x.keyedReceiver.sent.length = 2 := rfl
    have : x.keyedReceiver.sent.length + i < 2 := hlt
    omega

/-- Once the keys have been exchanged, nothing stands in the way of the files. -/
theorem inevitable_delivered (x : Exchange X M) (hJ : X.KeyJsonRoundTrip) (hX : X.DecryptInverts)
    (hW : X.WritesShort) (hM : M.Honest files list)
    (hsum : M.receiverWorld.overflowChecks = true →
      (list.map fun file => file.size.toInt).sum < 2 ^ 63) (hs : M.Holds list source) :
    (machine X M).Inevitable (Faithful source) (Delivered M source list) (init X M) := by
  obtain ⟨total, htotal⟩ := Option.isSome_iff_exists.mp ((totalSize_isSome_iff hM _).mpr hsum)
  have hopening : (machine X M).Inevitable (Faithful source) (· = x.afterOffer files)
      (init X M) := by
    apply Machine.inevitable_of_measure (I := x.Opening files)
      fun p => 5 - (p.toSender + p.toReceiver)
    · exact fun p hopen _ => by
        obtain ⟨e, p', hok, he⟩ := hopen.progress hJ hM
        refine ⟨e, p', ?_, he⟩
        rcases opening_message hopen hok he with rfl | rfl <;> exact hok
    · intro p e p' hopen hok he
      refine (hopen.step hJ hM hok.smooth he).symm.imp id fun hopen' => ⟨hopen', ?_⟩
      have := opening_delivers hopen hok.smooth he
      have := opening_lt hopen
      omega
    · exact x.opening_init hM
  refine hopening.trans ?_
  rintro _ rfl
  apply Machine.inevitable_of_measure (μ := work list) (I := fun p =>
    Proceeds x.enc list x.keyedReceiver.sent p ∧
      Conveys M source x.enc list x.keyedReceiver.sent p)
  · rintro p ⟨hp, hc⟩ hnot
    obtain ⟨e, hok, hsome⟩ := hc.goesOn hp hX hW hM
      (by_contra fun hstuck => hnot (hc.delivered hp hstuck))
    obtain ⟨p', he⟩ := Option.isSome_iff_exists.mp hsome
    exact ⟨e, p', hok, he⟩
  · rintro p e p' ⟨hp, hc⟩ hok he
    obtain ⟨hp', hmove⟩ := hp.step hX hW hM hok.smooth he
    obtain ⟨⟨q, seen, hserves⟩, -⟩ := hp
    have := hmove.work_eq (M.fits files hM.offer list hM.lists)
    exact Or.inr ⟨⟨hp', hc.step hX hs hserves.collects.files hok he hmove⟩, by omega⟩
  · exact ⟨proceeds_afterOffer hM htotal, conveys_afterOffer hM htotal⟩

/-- Every run of an honest session comes to its end with every file delivered: whatever the order
of its steps, the destination files are the source files, byte for byte. -/
theorem honest_delivers (hJ : X.KeyJsonRoundTrip) (hK : X.KeysAgree) (hX : X.DecryptInverts)
    (hW : X.WritesShort) (hM : M.Honest files list) (hsplits : M.sender.Splits)
    (hsum : M.receiverWorld.overflowChecks = true →
      (list.map fun file => file.size.toInt).sum < 2 ^ 63) (hs : M.Holds list source) :
    (machine X M).Inevitable (Faithful source) (Delivered M source list) (init X M) := by
  obtain ⟨pw, hpw⟩ := Setup.splits_iff.mp hsplits
  obtain ⟨x⟩ := exists_exchange hK hM.secret hpw
  exact inevitable_delivered x hJ hX hW hM hsum hs

/-- The contents of the two files. -/
def greetings (i : ℕ) : Bytes := asBytes (if i = 0 then "hello" else "world")

theorem greetings_held : (sharing "12345abc").Holds twoFiles greetings where
  sizes i file h := by
    have hlt := (List.getElem?_eq_some_iff.mp h).1
    have hi : i = 0 ∨ i = 1 := by
      have : i < 2 := hlt
      omega
    rcases hi with rfl | rfl
    · obtain rfl := Option.some.inj h
      decide +kernel
    · obtain rfl := Option.some.inj h
      decide +kernel
  apart i j file file' h h' hplace := by
    have hne : (sharing "12345abc").place 0 (.plain "a.txt" "./" 5) ≠
        (sharing "12345abc").place 1 (.plain "b.txt" "./" 5) := by decide +kernel
    have hi : i = 0 ∨ i = 1 := by
      have : i < 2 := (List.getElem?_eq_some_iff.mp h).1
      omega
    have hj : j = 0 ∨ j = 1 := by
      have : j < 2 := (List.getElem?_eq_some_iff.mp h').1
      omega
    rcases hi with rfl | rfl <;> rcases hj with rfl | rfl
    · rfl
    · obtain rfl := Option.some.inj h
      obtain rfl := Option.some.inj h'
      exact absurd hplace hne
    · obtain rfl := Option.some.inj h
      obtain rfl := Option.some.inj h'
      exact absurd hplace.symm hne
    · rfl

theorem twoFiles_delivered : (machine .transparent (sharing "12345abc")).Inevitable
    (Faithful greetings) (Delivered (sharing "12345abc") greetings twoFiles)
    (init .transparent (sharing "12345abc")) :=
  honest_delivers External.transparent_keyJson External.transparent_keysAgree
    External.transparent_decryptInverts External.transparent_writesShort
    (sharing_honest "12345abc") (Setup.splits_iff.mpr ⟨asBytes "abc", by decide +kernel⟩)
    (fun h => absurd h (by decide)) greetings_held

end Runs
end Pair
end Croc
