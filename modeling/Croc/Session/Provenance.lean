import Croc.Lib.Journal
import Croc.Session.Keyed
import Croc.Session.Runs

/-! Where the bytes on the disk come from. Whatever the peer says and sends, a session changes
nothing but the files that it creates, and puts nothing into them but what it could open of the
frames that it was sent. -/
namespace Croc
open Lib
namespace Session
variable {X : External} {W : World} {c : Setup} {s t : Session X}

/-- What a session does to its disk: a file is truncated and given a length, or a writer task
writes what it has opened. -/
inductive Deed where
  | created (loc : Location) (length : ℕ)
  | wrote (job : WriteJob) (offset : ℕ) (data : Bytes)

def Deed.entry : Deed → Entry Location UInt8
  | .created loc length => .reset loc length
  | .wrote job offset data => .put job.loc offset data

/-- The frames that a session has taken, each with the file that it was taken for, and what the
session has done to its disk, in order. -/
structure History where
  arrived : List (Location × DataFrame)
  deeds : List Deed

/-- The deed of a writer task, if it can open its frame. -/
def deedOf (X : External) (job : WriteJob) (done : ℕ) : List Deed :=
  match openChunk X job.enc job.frame.payload with
  | .ok (offset, data) => [.wrote job offset (data.take done)]
  | .error _ => []

/-- The files that a step has created. -/
def createdBy (s t : Session X) : List Deed :=
  (t.dests.drop s.dests.length).map fun loc => .created loc (t.disk loc).length

def noteDeeds (h : History) (s : Session X) (e : Event) (t : Session X) : History :=
  match e with
  | .chunk frame =>
    match s.phase with
    | .chunks _ loc _ _ => { h with arrived := h.arrived ++ [(loc, frame)] }
    | _ => h
  | .task .tick => { h with deeds := h.deeds ++ createdBy s t }
  | .task (.write k done) =>
    { h with deeds := h.deeds ++ (s.writers[k]?.toList.flatMap fun job => deedOf X job done) }
  | _ => h

/-- A session with what it has done to its disk. -/
def chronicled (X : External) (W : World) (c : Setup) : Machine (Session X × History) Event :=
  (machine X W c).observe ⟨[], []⟩ noteDeeds

/-- The bytes are part of what a frame holds that was taken for the file, opened with a key from
the secret. -/
def Received (X : External) (c : Setup) (h : History) (loc : Location) (offset : ℕ)
    (data : Bytes) : Prop :=
  ∃ frame, (loc, frame) ∈ h.arrived ∧ ∃ enc rest, Keyed X c enc ∧
    openChunk X enc frame.payload = .ok (offset, data ++ rest)

/-- Where everything on the disk comes from. -/
structure Provenance (W : World) (c : Setup) (s : Session X) (h : History) : Prop where
  /-- The disk is what the deeds have made of it. -/
  replayed : s.disk = replay 0 W.disk (h.deeds.map Deed.entry)
  /-- Nothing is changed but the files that are created. -/
  untouched : ∀ loc, (∀ file, .createFile file loc ∉ s.ops) → s.disk loc = W.disk loc
  /-- A byte was there before in a file that is not created, is a zero of a new length, or was
  received for its file and its place. -/
  bytes : ∀ loc i b, (s.disk loc)[i]? = some b →
    b = 0 ∨
    (∃ offset data, Received X c h loc offset data ∧ offset ≤ i ∧ data[i - offset]? = some b) ∨
    (∀ n, .created loc n ∉ h.deeds) ∧ (W.disk loc)[i]? = some b

/-- A file of the session that has been created. -/
def Created (h : History) (loc : Location) : Prop := ∃ n, .created loc n ∈ h.deeds

/-- The deeds of a session, and what they rest on. -/
structure Chronicle (W : World) (c : Setup) (s : Session X) (h : History) : Prop where
  keys : HoldsKeys c s
  replayed : s.disk = replay 0 W.disk (h.deeds.map Deed.entry)
  waits : ∀ i loc total got, s.phase = .chunks i loc total got → Created h loc
  writers : ∀ job ∈ s.writers, (job.loc, job.frame) ∈ h.arrived ∧ Created h job.loc
  created : ∀ loc n, .created loc n ∈ h.deeds → ∃ file, .createFile file loc ∈ s.ops
  wrote : ∀ job offset data, .wrote job offset data ∈ h.deeds →
    Created h job.loc ∧ Received X c h job.loc offset data

theorem Chronicle.provenance {h : History} (hc : Chronicle W c s h) : Provenance W c s h := by
  refine ⟨hc.replayed, fun loc hnone => ?_, fun loc i b hb => ?_⟩
  · have hdeed : ∀ n, .created loc n ∉ h.deeds := by
      intro n hn
      obtain ⟨file, hfile⟩ := hc.created loc n hn
      exact hnone file hfile
    rw [hc.replayed]
    apply replay_of_ne
    rintro e he rfl
    obtain ⟨deed, hmem, rfl⟩ := List.mem_map.mp he
    cases deed with
    | created loc n => exact hdeed n hmem
    | wrote job offset data =>
      obtain ⟨⟨n, hn⟩, -⟩ := hc.wrote job offset data hmem
      exact hdeed n hn
  · rw [hc.replayed] at hb
    rcases source_of_replay hb with hzero | ⟨offset, data, hput, hi⟩ | ⟨hnone, hat⟩
    · exact Or.inl hzero
    · obtain ⟨deed, hmem, heq⟩ := List.mem_map.mp hput
      cases deed with
      | created => simp [Deed.entry] at heq
      | wrote job o d =>
        obtain ⟨rfl, rfl, rfl⟩ : job.loc = loc ∧ o = offset ∧ d = data := by
          simpa [Deed.entry] using heq
        exact Or.inr (Or.inl ⟨o, d, (hc.wrote job o d hmem).2, hi⟩)
    · exact Or.inr (Or.inr ⟨fun n hn => hnone n (List.mem_map.mpr ⟨_, hn, rfl⟩), hat⟩)

section Steps
variable {h : History}

/-- A step that leaves the disk alone. -/
theorem Chronicle.of_same (hc : Chronicle W c s h) (hk : HoldsKeys c t) (hd : t.disk = s.disk)
    (ho : s.ops <+: t.ops) (hw : ∀ job ∈ t.writers, job ∈ s.writers)
    (hp : ∀ i loc total got, t.phase = .chunks i loc total got → Created h loc) :
    Chronicle W c t h where
  keys := hk
  replayed := hd.trans hc.replayed
  waits := hp
  writers job hjob := hc.writers job (hw job hjob)
  created loc n hn := by
    obtain ⟨file, hfile⟩ := hc.created loc n hn
    exact ⟨file, ho.subset hfile⟩
  wrote := hc.wrote

/-- A message leaves the disk alone: files are created in the file loop only. -/
theorem onMessage_disk (m : Message) :
    (run (onMessage W c m) s).disk = s.disk ∧ s.ops <+: (run (onMessage W c m) s).ops := by
  cases m with
  | pake msg =>
    apply run_of_post (I := fun t => t.disk = s.disk ∧ s.ops <+: t.ops)
    apply (onPake_spec msg).mono
    · rintro p t ⟨-, key, enc, m, -, -, rfl⟩
      exact ⟨rfl, List.prefix_rfl⟩
    · rintro e t ⟨-, k, enc, l, -, rfl⟩
      exact ⟨rfl, List.prefix_rfl⟩
  | externalIP msg =>
    apply run_of_post (I := fun t => t.disk = s.disk ∧ s.ops <+: t.ops)
    apply (onExternalIP_spec msg).mono
    · rintro p t ⟨-, -, ⟨-, rfl⟩ | ⟨-, files, -, rfl⟩⟩
      · exact ⟨rfl, List.prefix_rfl⟩
      · exact ⟨rfl, List.prefix_rfl⟩
    · rintro e t ⟨-, ⟨rfl, -⟩ | ⟨-, -, rfl⟩⟩
      · exact ⟨rfl, List.prefix_rfl⟩
      · exact ⟨rfl, List.prefix_rfl⟩
  | filesInfo files =>
    apply run_onFilesInfo (I := fun t => t.disk = s.disk ∧ s.ops <+: t.ops)
    · exact fun _ => ⟨rfl, List.prefix_rfl⟩
    · exact fun _ _ => ⟨rfl, List.prefix_rfl⟩
    · intro hs hst
      apply (onFilesInfo_spec hs hst files).mono
      · rintro p t ⟨u, ⟨n, q, l, -, rfl⟩, ⟨-, -, rfl⟩ | ⟨-, -, rfl⟩⟩
        · exact ⟨rfl, List.prefix_append _ _⟩
        · exact ⟨rfl, List.prefix_append _ _⟩
      · rintro e t ⟨-, u, l', ⟨n, q, l, -, rfl⟩, -, rfl⟩
        exact ⟨rfl, List.prefix_append _ _⟩
  | typeRecipientReady msg =>
    apply run_of_post (I := fun t => t.disk = s.disk ∧ s.ops <+: t.ops)
    apply (onRequest_spec msg).mono
    · rintro p t ⟨rw, files, jobs, -, -, -, -, -, ⟨-, -, rfl⟩ | ⟨-, -, -, -, -, -, -, rfl⟩⟩
      · exact ⟨rfl, List.prefix_rfl⟩
      · exact ⟨rfl, List.prefix_rfl⟩
    · rintro e t ⟨-, n, rfl⟩
      exact ⟨rfl, List.prefix_rfl⟩
  | typeError msg => exact ⟨rfl, List.prefix_rfl⟩
  | finished =>
    apply run_finished (I := fun t => t.disk = s.disk ∧ s.ops <+: t.ops)
    · exact ⟨rfl, List.prefix_rfl⟩
    · exact fun e => ⟨rfl, List.prefix_rfl⟩

/-- After a message no chunk is waited for yet. -/
theorem Settles.not_chunks {m : Message} (h : Settles m s t) (i : ℕ) (loc : Location) (total : ℤ)
    (got : List DataFrame) : t.phase ≠ .chunks i loc total got := by
  intro hp
  cases h.landing with
  | recv h => simp [h] at hp
  | sending msg hm rw jobs h => simp [h] at hp
  | loop h => simp [h] at hp
  | ended r h => simp [h] at hp

theorem Chronicle.message (hc : Chronicle W c s h) {m : Message}
    (hk : HoldsKeys c (run (onMessage W c m) s)) :
    Chronicle W c (run (onMessage W c m) s) h := by
  have hset := onMessage_settles (W := W) (c := c) (s := s) m
  obtain ⟨hdisk, hops⟩ := onMessage_disk (W := W) (c := c) (s := s) m
  exact hc.of_same hk hdisk hops (fun job hjob => hset.writers ▸ hjob)
    fun i loc total got hp => absurd hp (hset.not_chunks i loc total got)

theorem createdBy_of_same (hd : t.dests = s.dests ∨ t.dests = []) : createdBy s t = [] := by
  unfold createdBy
  rcases hd with hd | hd
  · rw [hd, List.drop_length, List.map_nil]
  · rw [hd, List.drop_nil, List.map_nil]

/-- What the file loop does to the disk: nothing, or it creates one file. -/
def Creates (s t : Session X) : Prop :=
  s.ops <+: t.ops ∧ (t.dests = s.dests ∧ t.disk = s.disk ∨
    ∃ file loc n, t.dests = s.dests ++ [loc] ∧ .createFile file loc ∈ t.ops ∧
      t.disk = Function.update s.disk loc (List.replicate n 0))

theorem Creates.nothing (ho : t.ops = s.ops) (hd : t.dests = s.dests) (hk : t.disk = s.disk) :
    Creates s t := ⟨ho ▸ List.prefix_rfl, Or.inl ⟨hd, hk⟩⟩

theorem Creates.subset (h : Creates s t) : s.dests ⊆ t.dests := by
  obtain ⟨-, ⟨hd, -⟩ | ⟨file, loc', n, hd, -⟩⟩ := h
  · rw [hd]
    exact List.Subset.refl _
  · rw [hd]
    exact List.subset_append_left _ _

/-- A place where a file has been created is left alone, or holds zeros now. -/
theorem Creates.of_mem (h : Creates s t) {loc : Location} (hloc : loc ∈ t.dests) :
    loc ∈ s.dests ∧ t.disk loc = s.disk loc ∨
      (∃ n, t.disk loc = List.replicate n 0) ∧ ∃ file, .createFile file loc ∈ t.ops := by
  obtain ⟨-, ⟨hd, hdisk⟩ | ⟨file, loc', n, hd, hop, hdisk⟩⟩ := h
  · exact .inl ⟨hd ▸ hloc, by rw [hdisk]⟩
  · by_cases heq : loc = loc'
    · subst heq
      exact .inr ⟨⟨n, by rw [hdisk, Function.update_self]⟩, file, hop⟩
    · rw [hd] at hloc
      have hold : loc ∈ s.dests := by simpa [heq] using hloc
      exact .inl ⟨hold, by rw [hdisk, Function.update_of_ne heq]⟩

/-- Every other place is left alone. -/
theorem Creates.of_notMem (h : Creates s t) {loc : Location} (hloc : loc ∉ t.dests) :
    loc ∉ s.dests ∧ t.disk loc = s.disk loc := by
  obtain ⟨-, ⟨hd, hdisk⟩ | ⟨file, loc', n, hd, -, hdisk⟩⟩ := h
  · exact ⟨hd ▸ hloc, by rw [hdisk]⟩
  · rw [hd, List.mem_append, not_or, List.mem_singleton] at hloc
    exact ⟨hloc.1, by rw [hdisk, Function.update_of_ne hloc.2]⟩

theorem createFile_creates (file : FileInfo) (loc : Location) :
    Post (createFile W file loc) s (fun _ t => Creates s t) (fun _ t => Creates s t) := by
  have hop : FsOp.createFile file loc ∈ s.ops ++ [.createFile file loc] :=
    List.mem_append_right _ (List.mem_singleton_self _)
  simp only [createFile, post_bind, post_modify, post_osTry, Function.update_idem]
  refine ⟨fun _ => ⟨fun _ => ?_, fun _ => ?_⟩, fun _ => ?_⟩
  · exact ⟨List.prefix_append _ _, Or.inr ⟨file, loc, _, rfl, hop, rfl⟩⟩
  · exact ⟨List.prefix_append _ _, Or.inr ⟨file, loc, 0, rfl, hop, rfl⟩⟩
  · exact ⟨List.prefix_append _ _, Or.inl ⟨rfl, rfl⟩⟩

theorem requestFile_creates (index : ℕ) :
    Post (requestFile W index) s (fun _ t => Creates s t) (fun _ t => Creates s t) := by
  unfold requestFile
  rw [post_bind, post_get]
  cases s.toReceive.bind (·[index]?) with
  | none =>
    rw [post_bind, post_send]
    exact ⟨fun _ => .nothing rfl rfl rfl, fun _ _ => .nothing rfl rfl rfl⟩
  | some file =>
    simp only [post_bind, post_osCall]
    apply (createFile_creates file _).mono _ fun _ _ ht => ht
    intro _ t ht
    rw [post_send]
    exact ⟨fun _ => ht, fun _ _ => ht⟩

/-- What is created is noted. -/
theorem Chronicle.creates (hc : Chronicle W c s h) (hk : HoldsKeys c t) (ht : Creates s t)
    (hw : t.writers = s.writers)
    (hp : ∀ i loc total got, t.phase = .chunks i loc total got →
      loc ∈ t.dests.drop s.dests.length) :
    Chronicle W c t { h with deeds := h.deeds ++ createdBy s t } := by
  have hmore : ∀ loc, Created h loc → Created { h with deeds := h.deeds ++ createdBy s t } loc :=
    fun loc ⟨n, hn⟩ => ⟨n, List.mem_append_left _ hn⟩
  have hnew : ∀ loc, loc ∈ t.dests.drop s.dests.length →
      Created { h with deeds := h.deeds ++ createdBy s t } loc := by
    exact fun loc hloc => ⟨_, List.mem_append_right _ (List.mem_map.mpr ⟨loc, hloc, rfl⟩)⟩
  obtain ⟨hops, hdisk⟩ := ht
  refine ⟨hk, ?_, fun i loc total got hphase => hnew loc (hp i loc total got hphase),
    fun job hjob => ?_, fun loc n hn => ?_, fun job offset data hdeed => ?_⟩
  · rw [List.map_append]
    rcases hdisk with ⟨hd, hdisk⟩ | ⟨file, loc, n, hd, -, hdisk⟩
    · rw [createdBy_of_same (Or.inl hd), List.map_nil, List.append_nil, hdisk]
      exact hc.replayed
    · have hby : createdBy s t = [.created loc n] := by
        simp [createdBy, hd, hdisk]
      rw [hby, hdisk, hc.replayed, List.map_singleton, replay_concat]
      rfl
  · rw [hw] at hjob
    exact ⟨(hc.writers job hjob).1, hmore _ (hc.writers job hjob).2⟩
  · rcases List.mem_append.mp hn with hn | hn
    · obtain ⟨file, hfile⟩ := hc.created loc n hn
      exact ⟨file, hops.subset hfile⟩
    · rcases hdisk with ⟨hd, -⟩ | ⟨file, loc', n', hd, hfile, hdisk⟩
      · rw [createdBy_of_same (Or.inl hd)] at hn
        cases hn
      · obtain ⟨rfl, -⟩ : loc = loc' ∧ n = n' := by
          simpa [createdBy, hd, hdisk] using hn
        exact ⟨file, hfile⟩
  · rcases List.mem_append.mp hdeed with hdeed | hdeed
    · obtain ⟨hloc, hrec⟩ := hc.wrote job offset data hdeed
      exact ⟨hmore _ hloc, hrec⟩
    · obtain ⟨loc, -, heq⟩ := List.mem_map.mp hdeed
      cases heq

/-- A step of `process_client` that creates nothing. -/
theorem Chronicle.idle (hc : Chronicle W c s h) (hk : HoldsKeys c t) (hd : t.disk = s.disk)
    (ho : t.ops = s.ops) (hw : t.writers = s.writers) (hdests : t.dests = s.dests ∨ t.dests = [])
    (hp : ∀ i loc total got, t.phase ≠ .chunks i loc total got) :
    Chronicle W c t { h with deeds := h.deeds ++ createdBy s t } := by
  rw [createdBy_of_same hdests, List.append_nil]
  exact hc.of_same hk hd (ho ▸ List.prefix_rfl) (fun job hjob => hw ▸ hjob)
    fun i loc total got hphase => absurd hphase (hp i loc total got)

theorem Chronicle.tick (hc : Chronicle W c s h) {x : Proc X Phase} (hx : proceed W c s = some x) :
    Chronicle W c (run x s) { h with deeds := h.deeds ++ createdBy s (run x s) } := by
  suffices hstep : HoldsKeys c (run x s) →
      Chronicle W c (run x s) { h with deeds := h.deeds ++ createdBy s (run x s) } from
    hstep (hc.keys.proceed hx)
  rcases proceed_cases hx with ⟨rw, -, rfl⟩ | ⟨rw, job, jobs, -, rfl⟩ | ⟨index, -, rfl⟩ |
    ⟨index, loc, total, got, -, -, rfl⟩
  · apply run_of_post (I := fun u => HoldsKeys c u →
      Chronicle W c u { h with deeds := h.deeds ++ createdBy s u })
    apply afterMessage_spec.mono
    · rintro p t (⟨rfl, rfl, -⟩ | ⟨rfl, -, -, files, -, rfl⟩ | ⟨rfl, -, -, -, rfl⟩) hk
      · exact hc.idle hk rfl rfl rfl (Or.inl rfl) (by simp)
      · exact hc.idle hk rfl rfl rfl (Or.inl rfl) (by simp)
      · exact hc.idle hk rfl rfl rfl (Or.inr rfl) (by simp)
    · rintro e t ⟨rfl, -⟩ hk
      exact hc.idle hk rfl rfl rfl (Or.inl rfl) (by simp)
  · apply run_handChunk (I := fun u => HoldsKeys c u →
      Chronicle W c u { h with deeds := h.deeds ++ createdBy s u })
    · exact fun hk => hc.idle hk rfl rfl rfl (Or.inl rfl) (by simp)
    · exact fun e hk => hc.idle hk rfl rfl rfl (Or.inl rfl) (by simp)
  · apply run_of_post (I := fun u => HoldsKeys c u →
      Chronicle W c u { h with deeds := h.deeds ++ createdBy s u })
    apply ((requestFile_spec index).and (requestFile_creates index)).mono
    · rintro p t ⟨⟨-, rfl, rfl⟩ | ⟨file, loc, -, -, rfl, rfl⟩, ht⟩ hk
      · exact hc.idle hk rfl rfl rfl (Or.inl rfl) (by simp)
      · refine hc.creates hk ht rfl fun i loc' total got hp => ?_
        obtain ⟨-, rfl, -⟩ : _ ∧ loc = loc' ∧ _ := by simpa using hp
        simp
    · rintro e t ⟨⟨-, rfl | ⟨file, -, n, disk, dests, rfl⟩⟩, ht⟩ hk
      · exact hc.idle hk rfl rfl rfl (Or.inl rfl) (by simp)
      · exact hc.creates hk ht rfl (by simp)
  · exact fun hk => hc.idle hk rfl rfl rfl (Or.inl rfl) (by simp [run, pure, EStateM.pure])

theorem Received.mono {h' : History} (hsub : h.arrived ⊆ h'.arrived) {loc : Location} {offset : ℕ}
    {data : Bytes} (hr : Received X c h loc offset data) : Received X c h' loc offset data := by
  obtain ⟨frame, hframe, hopens⟩ := hr
  exact ⟨frame, hsub hframe, hopens⟩

/-- The frame that is taken is for the file that has been created last. -/
theorem Chronicle.take (hc : Chronicle W c s h) {i : ℕ} {loc : Location} {total : ℤ}
    {got : List DataFrame} (hp : s.phase = .chunks i loc total got) (frame : DataFrame) :
    Chronicle W c (run (takeChunk i loc total got frame) s)
      { h with arrived := h.arrived ++ [(loc, frame)] } := by
  have hloc : Created h loc := hc.waits i loc total got hp
  have hsub : h.arrived ⊆ h.arrived ++ [(loc, frame)] := List.subset_append_left _ _
  have hlast : (loc, frame) ∈ h.arrived ++ [(loc, frame)] :=
    List.mem_append_right _ (List.mem_singleton_self _)
  have hwrote : ∀ job offset data, .wrote job offset data ∈ h.deeds → Created h job.loc ∧
      Received X c { h with arrived := h.arrived ++ [(loc, frame)] } job.loc offset data :=
    fun job offset data hdeed => (hc.wrote job offset data hdeed).imp_right (Received.mono hsub)
  have hwriters : ∀ job ∈ s.writers,
      (job.loc, job.frame) ∈ h.arrived ++ [(loc, frame)] ∧ Created h job.loc :=
    fun job hjob => (hc.writers job hjob).imp_left fun hframe => hsub hframe
  apply run_of_post
    (I := fun u => Chronicle W c u { h with arrived := h.arrived ++ [(loc, frame)] })
  apply (takeChunk_spec i loc total got frame).mono
  · rintro p t ⟨rfl, rw, hrw, rfl⟩
    refine ⟨⟨hc.keys.own, hc.keys.rw, hc.keys.readers, hc.keys.encrypting, ?_⟩, hc.replayed, ?_, ?_,
      hc.created, hwrote⟩
    · rw [List.forall_mem_append, List.forall_mem_singleton]
      exact ⟨hc.keys.writers, hc.keys.rw rw hrw⟩
    · intro i' loc' total' got' hphase
      obtain ⟨-, rfl, -⟩ : _ ∧ loc = loc' ∧ _ := by simpa using hphase
      exact hloc
    · rw [List.forall_mem_append, List.forall_mem_singleton]
      exact ⟨hwriters, hlast, hloc⟩
  · rintro e t ⟨-, -, rfl⟩
    exact ⟨hc.keys.of_same rfl rfl rfl rfl rfl, hc.replayed, by simp, hwriters, hc.created, hwrote⟩

/-- What a writer task writes it has opened. -/
theorem Chronicle.write (hc : Chronicle W c s h) {k done : ℕ} {job : WriteJob} {offset : ℕ}
    {data : Bytes} (hjob : s.writers[k]? = some job)
    (ho : openChunk X job.enc job.frame.payload = .ok (offset, data)) (hk : HoldsKeys c
      (({ s with writers := s.writers.eraseIdx k } : Session X).putChunk job offset
        (data.take done))) :
    Chronicle W c (({ s with writers := s.writers.eraseIdx k } : Session X).putChunk job offset
      (data.take done)) { h with deeds := h.deeds ++ [.wrote job offset (data.take done)] } := by
  have hmem := List.mem_of_getElem? hjob
  obtain ⟨hframe, n, hn⟩ := hc.writers job hmem
  have hmore : ∀ loc, Created h loc → Created
      { h with deeds := h.deeds ++ [.wrote job offset (data.take done)] } loc :=
    fun loc ⟨n, hn⟩ => ⟨n, List.mem_append_left _ hn⟩
  refine ⟨hk, ?_, fun i loc total got hp => hmore loc (hc.waits i loc total got hp),
    fun job' hjob' => ?_, fun loc n' hn' => ?_, fun job' offset' data' hdeed => ?_⟩
  · rw [List.map_append, List.map_singleton, replay_concat, ← hc.replayed]
    rfl
  · have hold := hc.writers job' (List.mem_of_mem_eraseIdx hjob')
    exact ⟨hold.1, hmore _ hold.2⟩
  · rcases List.mem_append.mp hn' with hn' | hn'
    · exact hc.created loc n' hn'
    · simp at hn'
  · rcases List.mem_append.mp hdeed with hdeed | hdeed
    · exact (hc.wrote job' offset' data' hdeed).imp_left (hmore _)
    · obtain ⟨rfl, rfl, rfl⟩ : job' = job ∧ offset' = offset ∧ data' = data.take done := by
        simpa using hdeed
      refine ⟨hmore _ ⟨n, hn⟩, job'.frame, hframe, job'.enc, data.drop done,
        hc.keys.writers job' hmem, ?_⟩
      rw [List.take_append_drop]
      exact ho

theorem Chronicle.background (hc : Chronicle W c s h) (hk : HoldsKeys c t) {e : Task}
    (hne : e ≠ .tick) (he : stepTask W c s e = some t) :
    Chronicle W c t (noteDeeds h s (.task e) t) := by
  cases e with
  | tick => exact absurd rfl hne
  | read | readFailed | encrypt | encryptFailed =>
    cases background_of_stepTask hne he <;>
      exact hc.of_same hk rfl List.prefix_rfl (fun _ hjob => hjob) hc.waits
  | write k done =>
    obtain ⟨job, hjob, rfl⟩ := Option.map_eq_some_iff.mp he
    have hnote : ∀ u, noteDeeds h s (.task (.write k done)) u =
        { h with deeds := h.deeds ++ deedOf X job done } := by
      simp [noteDeeds, hjob]
    rw [hnote]
    cases ho : openChunk X job.enc job.frame.payload with
    | ok chunk =>
      obtain ⟨offset, data⟩ := chunk
      simp only [deedOf, ho] at hk ⊢
      exact hc.write hjob ho hk
    | error err =>
      simp only [deedOf, ho, List.append_nil] at hk ⊢
      exact hc.of_same hk rfl List.prefix_rfl (fun _ h => List.mem_of_mem_eraseIdx h) hc.waits

theorem step_chronicle (hc : Chronicle W c s h) {e : Event} (he : step W c s e = some t) :
    Chronicle W c t (noteDeeds h s e t) := by
  have hkeys := step_holdsKeys hc.keys he
  rcases step_cases he with ⟨m, rfl, -, rfl⟩ | ⟨err, rfl, -, rfl⟩ |
    ⟨frame, index, loc, total, got, rfl, hp, -, -, rfl⟩ | ⟨rfl, rfl⟩ | ⟨x, rfl, hx, rfl⟩ |
    ⟨t', rfl, ht, he⟩
  · exact hc.message hkeys
  · exact hc.of_same hkeys rfl List.prefix_rfl (fun _ hjob => hjob) (by simp)
  · have hnote : ∀ u, noteDeeds h s (.chunk frame) u =
        { h with arrived := h.arrived ++ [(loc, frame)] } := by
      simp [noteDeeds, hp]
    rw [hnote]
    exact hc.take hp frame
  · exact hc.of_same hkeys rfl List.prefix_rfl (fun _ hjob => hjob) hc.waits
  · exact hc.tick hx
  · exact hc.background hkeys ht he

theorem init_chronicle : Chronicle W c (init X W c) ⟨[], []⟩ := by
  have hnew : ∀ u : Session X, HoldsKeys c u → u.disk = W.disk → u.writers = [] →
      (∀ i loc total got, u.phase ≠ .chunks i loc total got) → Chronicle W c u ⟨[], []⟩ := by
    intro u hk hd hw hp
    refine ⟨hk, hd, fun i loc total got h => absurd h (hp i loc total got), ?_, ?_, ?_⟩
    · rw [hw]
      exact List.forall_mem_nil _
    · exact fun _ _ h => absurd h List.not_mem_nil
    · exact fun _ _ _ h => absurd h List.not_mem_nil
  suffices hstart : HoldsKeys c (init X W c) → Chronicle W c (init X W c) ⟨[], []⟩ from
    hstart init_holdsKeys
  apply run_of_post (I := fun u => HoldsKeys c u → Chronicle W c u ⟨[], []⟩)
  apply start_spec.mono
  · rintro p t ⟨rfl, ⟨-, rfl⟩ | ⟨-, key, msg, rfl⟩⟩ hk
    · exact hnew _ hk rfl rfl (by simp)
    · exact hnew _ hk rfl rfl (by simp)
  · rintro e t ⟨-, k, rfl⟩ hk
    exact hnew _ hk rfl rfl (by simp)

/-- Whatever the peer says and sends, and however the tasks take turns, the disk is what the
session's deeds have made of it, and every byte that they have changed was received under a key
from the secret or is a zero. -/
theorem reachable_provenance (hr : (chronicled X W c).Reachable (s, h)) : Provenance W c s h := by
  have hc : Chronicle W c s h := by
    apply hr.invariant (P := fun p => Chronicle W c p.1 p.2) init_chronicle
    intro p e p' _ hp he
    obtain ⟨hstep, hnote⟩ := Machine.observe_step.mp he
    rw [hnote]
    exact step_chronicle hp hstep
  exact hc.provenance

/-- A chunk of five bytes for the start of a file, sealed with a tag. -/
def taggedChunk (tag : Bytes) : DataFrame :=
  ⟨List.replicate 12 0 ++ chunkBuffer 0 (asBytes "hello") ++ tag, none⟩

/-- A receiver is sent a chunk under another key for its first file, and one under its own key for
its second file. -/
def foreignRun : List Event :=
  senderHello [.plain "a" "" 5, .plain "b" "" 5] ++
    [.task .tick, .chunk (taggedChunk (List.replicate 16 0)), .task .tick, .task .tick,
      .chunk (taggedChunk (asBytes "abc" ++ List.replicate 13 0)), .task (.write 1 4),
      .task (.write 0 5)]

theorem foreign_provenance : ∃ s h,
    (chronicled .transparent (.calm (.plain [] 5)) (.receiver "12345abc")).Reachable (s, h) ∧
    Provenance (.calm (.plain [] 5)) (.receiver "12345abc") s h ∧ h.deeds.length = 3 ∧
    s.disk (Path.resolve [] "a") = List.replicate 5 0 ∧
    s.disk (Path.resolve [] "b") = asBytes "hell" ++ [0] := by
  obtain ⟨⟨s, h⟩, hr, htest⟩ := Machine.ReachableBy.exists_of_exec
    (M := chronicled .transparent (.calm (.plain [] 5)) (.receiver "12345abc"))
    (fun _ _ => True)
    (fun p => decide (p.2.deeds.length = 3 ∧ p.1.disk (Path.resolve [] "a") = List.replicate 5 0 ∧
      p.1.disk (Path.resolve [] "b") = asBytes "hell" ++ [0])) foreignRun (by decide +kernel)
  exact ⟨s, h, hr, reachable_provenance hr, of_decide_eq_true htest⟩

end Steps
end Session
end Croc
