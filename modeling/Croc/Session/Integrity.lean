import Croc.Session.Agreement
import Croc.Session.Crossing
import Croc.Session.Delivery
import Croc.Session.Panics
import Croc.Session.Provenance
import Croc.Session.SameKey
import Croc.Session.Writer

/-! What the files hold when something fails. Frames may get lost or come in any order, reads,
writes and sends may fail and connections may break: no wrong byte gets into a file. -/
namespace Croc
open Lib

namespace Pair
open Session
variable {X : External} {M : Meeting} {x : Exchange X M} {p p' : Pair X} {source : ℕ → Bytes}
  {i : ℕ} {loc : Location}

/-- A part of a file, with its place in front. -/
def IsExcerpt (file buffer : Bytes) : Prop :=
  ∃ offset chunk, buffer = chunkBuffer offset chunk ∧ chunk <+: file.drop offset

/-- What the frame opens to, if it does, is a part of the file that it was read from. -/
def Bears (X : External) (source : ℕ → Bytes) (enc : EncryptedSession) (frame : DataFrame) : Prop :=
  ∀ data, enc.encryptor.decrypt X frame.payload = .ok data →
    ∃ i, frame.origin = some i ∧ IsExcerpt (source i) data

/-- The reader tasks find what the source files hold, and the ends count alike. Anything may
fail. -/
def Truthful (M : Meeting) (source : ℕ → Bytes) (p : Pair X) : Event → Prop
  | .sender (.read id data) => ReadsSource source p.sender id data
  | e => Matching M p e

instance (M : Meeting) (p : Pair X) : ∀ m, Decidable (OpensAsAnnounced M p m)
  | .typeRecipientReady msg => inferInstanceAs (Decidable
      (msg.filesToTransferCurrentNum.toUInt64.toNat + 1 = M.list.length ∨
        ∀ file ∈ M.list[msg.filesToTransferCurrentNum.toUInt64.toNat]?,
          ∀ size ∈ M.senderWorld.os.openLen p.sender.calls
              (Path.join file.sourceFolder file.name),
            pieceCount tcpBufferSize size = 0 ∨
              (pieceCount tcpBufferSize size : ℤ) ≤ totalChunks file))
  | .pake _ | .externalIP _ | .filesInfo _ | .typeError _ | .finished =>
      inferInstanceAs (Decidable True)

instance (M : Meeting) : ∀ phase, Decidable (AtLast M phase)
  | .chunks i .. => inferInstanceAs (Decidable (i + 1 = M.list.length))
  | .recv | .sending .. | .nextFile _ | .ended _ => inferInstanceAs (Decidable True)

instance (M : Meeting) (source : ℕ → Bytes) (p : Pair X) : ∀ e, Decidable (Truthful M source p e)
  | .sender (.read id data) => inferInstanceAs (Decidable (ReadsSource source p.sender id data))
  | .toSender => inferInstanceAs
      (Decidable (∀ m ∈ p.receiver.sent[p.toSender]?, OpensAsAnnounced M p m))
  | .keepalive => inferInstanceAs (Decidable (AtLast M p.receiver.phase))
  | .sender .tick | .sender (.readFailed _) | .sender (.encrypt ..) | .sender (.encryptFailed _)
  | .sender (.write ..) | .receiver _ | .toReceiver | .senderRecvFailed _ | .receiverRecvFailed _
  | .deliver _ | .lose _ | .dataClosed => inferInstanceAs (Decidable True)

theorem Truthful.matching {e : Event} (h : Truthful M source p e) : Matching M p e := by
  unfold Truthful at h
  split at h
  · trivial
  · exact h

/-- The `i`-th file of the list has been created at a location. -/
def Goes (M : Meeting) (r : Session X) (i : ℕ) (loc : Location) : Prop :=
  ∃ file, M.list[i]? = some file ∧ .createFile file loc ∈ r.ops

/-- A location holds zeros, and bytes of the files that go there, each at its place. -/
def Filled (M : Meeting) (source : ℕ → Bytes) (r : Session X) (loc : Location) : Prop :=
  ∀ (k : ℕ) b, (r.disk loc)[k]? = some b → b = 0 ∨ ∃ i, Goes M r i loc ∧ (source i)[k]? = some b

/-- No wrong byte is on the disk of the receiver: `dests` are the places where it has created a
file. -/
structure Intact (M : Meeting) (source : ℕ → Bytes) (r : Session X) : Prop where
  untouched : ∀ loc ∉ r.dests, r.disk loc = M.receiverWorld.disk loc
  created : ∀ loc ∈ r.dests, ∃ file, .createFile file loc ∈ r.ops
  bytes : ∀ loc ∈ r.dests, Filled M source r loc

/-- A receiver that enters its file loop only once, and so has noted all the files that it has
created. -/
structure Noted (s : Session X) : Prop where
  early : s.state ≠ .fileTransfare → s.dests = []
  loop : InLoop s.phase → s.state = .fileTransfare
  serves : ∀ rw jobs, s.phase ≠ .sending rw jobs

/-- What waits for a chunk, or holds one, is for a file that has been created. -/
structure Kept (M : Meeting) (source : ℕ → Bytes) (enc : EncryptedSession) (r : Session X) : Prop
    extends Intact M source r where
  noted : Noted r
  waits : ∀ i loc total got, r.phase = .chunks i loc total got → loc ∈ r.dests ∧ Goes M r i loc
  jobs : ∀ job ∈ r.writers, job.loc ∈ r.dests ∧ Goes M r job.dest job.loc ∧
    Bears X source enc job.frame

/-- The invariant: what is encrypted and what is in flight are parts of the source files, and so is
what the receiver has taken. -/
structure Whole (x : Exchange X M) (source : ℕ → Bytes) (p : Pair X) : Prop where
  encrypting : ∀ job ∈ p.sender.encrypting, IsExcerpt (source job.file) job.buffer
  inFlight : ∀ frame ∈ p.inFlight, Bears X source x.enc frame
  kept : Kept M source x.enc p.receiver

section Frames
variable {enc : EncryptedSession} {frame : DataFrame}

theorem bears_of_write (hX : X.DecryptInverts) {nonce : Block 12} {buffer payload : Bytes} {i : ℕ}
    (hw : enc.write X nonce buffer = .ok payload) (h : IsExcerpt (source i) buffer) :
    Bears X source enc ⟨payload, some i⟩ := by
  intro data hdata
  obtain rfl := Except.ok.inj ((AesEncryptor.decrypt_encrypt hX hw).symm.trans hdata)
  exact ⟨i, rfl, h⟩

/-- A keepalive frame is too short to be opened. -/
theorem bears_keepalive : Bears X source enc keepaliveFrame := by
  intro data hdata
  have hshort : ¬ 12 ≤ keepaliveFrame.payload.length := by decide
  rw [AesEncryptor.decrypt, dif_neg hshort] at hdata
  cases hdata

/-- What is opened stands in the source file at the place that is found with it. -/
theorem Bears.opens (h : Bears X source enc frame) (hsource : ∀ i, (source i).length ≤ 2 ^ 64)
    {offset : ℕ} {data : Bytes} (ho : openChunk X enc frame.payload = .ok (offset, data)) :
    ∃ i, frame.origin = some i ∧
      ∀ k b, data[k]? = some b → (source i)[offset + k]? = some b := by
  obtain ⟨plain, hplain, -, rfl, rfl⟩ := openChunk_ok.mp ho
  obtain ⟨i, hi, offset, chunk, rfl, hchunk⟩ := h plain hplain
  have hlen : (leBytes 8 offset).length = 8 := leBytes_length 8 offset
  refine ⟨i, hi, fun k b hb => ?_⟩
  rw [chunkBuffer, List.drop_left' hlen] at hb
  have hat : (source i)[offset + k]? = some b := by
    obtain ⟨hk, rfl⟩ := List.getElem?_eq_some_iff.mp hb
    rw [← List.getElem?_drop]
    exact List.prefix_iff_getElem?.mp hchunk k hk
  have hlt : offset + k < (source i).length := (List.getElem?_eq_some_iff.mp hat).1
  have hoffset : offset < 256 ^ 8 := by
    have := hsource i
    omega
  rw [chunkBuffer, List.take_left' hlen, leNat_leBytes hoffset]
  exact hat

end Frames

section Sender
variable {W : World} {c : Setup} {s t : Session X} {enc : EncryptedSession}

theorem recvFailed_aside {err : Error} (he : Session.step W c s (.recvFailed err) = some t) :
    Aside s t := by
  simp only [Session.step] at he
  split at he
  · obtain rfl := Option.some.inj he
    exact ⟨rfl, rfl, rfl, rfl, rfl⟩
  · cases he

/-- The tasks of the sender pass on what the reader tasks have found. -/
theorem stepTask_excerpts (hX : X.DecryptInverts) {K : X.Pake → Prop}
    (hkeys : Uses K (· = enc) s)
    (h : ∀ job ∈ s.encrypting, IsExcerpt (source job.file) job.buffer) {e : Task}
    (hread : ∀ id data, e = .read id data → ReadsSource source s id data)
    (he : stepTask W c s e = some t) :
    (∀ job ∈ t.encrypting, IsExcerpt (source job.file) job.buffer) ∧
      ∀ frame ∈ t.dataSent.drop s.dataSent.length, Bears X source enc frame := by
  have herase : ∀ k, ∀ job ∈ s.encrypting.eraseIdx k, IsExcerpt (source job.file) job.buffer :=
    fun k job hjob => h job (List.mem_of_mem_eraseIdx hjob)
  have hnone : ∀ frame ∈ s.dataSent.drop s.dataSent.length, Bears X source enc frame := by
    rw [List.drop_length]
    exact List.forall_mem_nil _
  by_cases htick : e = .tick
  · subst htick
    obtain ⟨y, hy, rfl⟩ := Option.map_eq_some_iff.mp he
    obtain ⟨hencrypting, hdata, -⟩ := (proceed_held hy).1
    rw [hencrypting, hdata]
    exact ⟨h, hnone⟩
  cases background_of_stepTask htick he with
  | @read id data enc' job queue hr hd =>
    refine ⟨?_, hnone⟩
    rw [List.forall_mem_append, List.forall_mem_singleton]
    refine ⟨h, job.chunkOffset, data, rfl, ?_⟩
    rw [hread id data rfl _ hr job rfl]
    exact List.take_prefix _ _
  | readFailed => exact ⟨h, hnone⟩
  | @encrypt k nonce job payload hjob hp =>
    refine ⟨herase k, ?_⟩
    have hmem := List.mem_of_getElem? hjob
    rw [hkeys.encrypting job hmem] at hp
    rw [List.drop_left, List.forall_mem_singleton]
    exact bears_of_write hX hp (h job hmem)
  | unsent => exact ⟨herase _, hnone⟩
  | write => exact ⟨h, hnone⟩
  | unopened => exact ⟨h, hnone⟩

end Sender

section Noted
variable {W : World} {c : Setup} {s t : Session X}

theorem Noted.of_empty (hd : t.dests = []) (hp : Idle t.phase) : Noted t := by
  refine ⟨fun _ => hd, ?_, ?_⟩
  · rcases hp with h | ⟨r, h⟩ <;> simp [h, InLoop]
  · rcases hp with h | ⟨r, h⟩ <;> simp [h]

theorem Noted.of_loop (hst : t.state = .fileTransfare)
    (hp : ∀ rw jobs, t.phase ≠ .sending rw jobs) : Noted t :=
  ⟨fun h => absurd hst h, fun _ => hst, hp⟩

/-- A step that leaves the state and the places alone, and the file loop at most. -/
theorem Noted.idle (h : Noted s) (hst : t.state = s.state) (hd : t.dests = s.dests)
    (hp : Idle t.phase) : Noted t := by
  refine ⟨fun hne => hd.trans (h.early (hst ▸ hne)), ?_, ?_⟩
  · rcases hp with h | ⟨r, h⟩ <;> simp [h, InLoop]
  · rcases hp with h | ⟨r, h⟩ <;> simp [h]

/-- A message in its order leaves the places alone. -/
theorem Noted.message (h : Noted s) (hs : c.isSender = false) {m : Message}
    (hm : InOrder c s (.message m)) : Noted (run (onMessage W c m) s) ∧
      (run (onMessage W c m) s).dests = s.dests := by
  cases m with
  | pake msg =>
    have hst : s.state = .keyExchange := hm
    have hd : s.dests = [] := h.early (by simp [hst])
    apply run_of_post (I := fun t => Noted t ∧ t.dests = s.dests)
    apply (onPake_spec msg).mono
    · rintro p t ⟨rfl, key, enc, m, -, -, rfl⟩
      exact ⟨.of_empty hd (.inl rfl), rfl⟩
    · rintro e t ⟨-, k, enc, l, -, rfl⟩
      exact ⟨.of_empty hd (.inr ⟨_, rfl⟩), rfl⟩
  | externalIP msg =>
    apply run_of_post (I := fun t => Noted t ∧ t.dests = s.dests)
    apply (onExternalIP_spec msg).mono
    · rintro p t ⟨rfl, hst, ⟨-, rfl⟩ | ⟨hs', -⟩⟩
      · exact ⟨.of_empty (h.early (by simp [hst])) (.inl rfl), rfl⟩
      · simp [hs] at hs'
    · rintro e t ⟨-, ⟨rfl, -⟩ | ⟨-, hs', -⟩⟩
      · exact ⟨h.idle rfl rfl (.inr ⟨_, rfl⟩), rfl⟩
      · simp [hs] at hs'
  | filesInfo files =>
    apply run_onFilesInfo (I := fun t => Noted t ∧ t.dests = s.dests)
    · exact fun _ => ⟨h.idle rfl rfl (.inr ⟨_, rfl⟩), rfl⟩
    · exact fun _ _ => ⟨h.idle rfl rfl (.inr ⟨_, rfl⟩), rfl⟩
    · intro _ hst
      have hd : s.dests = [] := h.early (by simp [hst])
      apply (onFilesInfo_spec hs hst files).mono
      · rintro p t ⟨u, ⟨n, q, l, -, rfl⟩, ⟨rfl, -, rfl⟩ | ⟨rfl, -, rfl⟩⟩
        · exact ⟨.of_empty hd (.inl rfl), rfl⟩
        · exact ⟨.of_loop rfl (by simp), hd.symm⟩
      · rintro e t ⟨-, u, l', ⟨n, q, l, -, rfl⟩, -, rfl⟩
        exact ⟨.of_empty hd (.inr ⟨_, rfl⟩), rfl⟩
  | typeRecipientReady msg =>
    apply run_of_post (I := fun t => Noted t ∧ t.dests = s.dests)
    apply (onRequest_spec msg).mono
    · rintro p t ⟨rw, files, jobs, -, -, -, hs', -⟩
      simp [hs] at hs'
    · rintro e t ⟨-, n, rfl⟩
      exact ⟨h.idle rfl rfl (.inr ⟨_, rfl⟩), rfl⟩
  | typeError msg => exact ⟨h.idle rfl rfl (.inr ⟨_, rfl⟩), rfl⟩
  | finished =>
    apply run_finished (I := fun t => Noted t ∧ t.dests = s.dests)
    · exact ⟨h.idle rfl rfl (.inr ⟨_, rfl⟩), rfl⟩
    · exact fun e => ⟨h.idle rfl rfl (.inr ⟨_, rfl⟩), rfl⟩

end Noted

section Receiver
variable {enc : EncryptedSession} {r t : Session X}

theorem Goes.mono (h : Goes M r i loc) (hops : r.ops <+: t.ops) : Goes M t i loc := by
  obtain ⟨file, hfile, hop⟩ := h
  exact ⟨file, hfile, hops.subset hop⟩

theorem Filled.mono (h : Filled M source r loc) (hops : r.ops <+: t.ops)
    (hdisk : t.disk loc = r.disk loc) : Filled M source t loc := by
  intro k b hb
  rw [hdisk] at hb
  refine (h k b hb).imp_right ?_
  rintro ⟨i, hi, hat⟩
  exact ⟨i, hi.mono hops, hat⟩

/-- A new file holds zeros. -/
theorem filled_of_zeros {n : ℕ} (h : r.disk loc = List.replicate n 0) : Filled M source r loc := by
  intro k b hb
  rw [h] at hb
  exact Or.inl (List.eq_of_mem_replicate (List.mem_of_getElem? hb))

/-- A step that leaves the disk and the places of the chunks alone. -/
theorem Kept.of_same (h : Kept M source enc r) (hdisk : t.disk = r.disk) (hops : r.ops <+: t.ops)
    (hdests : t.dests = r.dests) (hw : ∀ job ∈ t.writers, job ∈ r.writers)
    (hp : ∀ i loc total got, t.phase = .chunks i loc total got →
      ∃ got', r.phase = .chunks i loc total got') (hn : Noted t) : Kept M source enc t where
  untouched loc hloc := by
    rw [hdests] at hloc
    rw [hdisk]
    exact h.untouched loc hloc
  created loc hloc := by
    obtain ⟨file, hfile⟩ := h.created loc (hdests ▸ hloc)
    exact ⟨file, hops.subset hfile⟩
  bytes loc hloc := (h.bytes loc (hdests ▸ hloc)).mono hops (by rw [hdisk])
  noted := hn
  waits i loc total got hphase := by
    obtain ⟨got', hphase⟩ := hp i loc total got hphase
    obtain ⟨hloc, hgoes⟩ := h.waits i loc total got' hphase
    exact ⟨hdests ▸ hloc, hgoes.mono hops⟩
  jobs job hjob := by
    obtain ⟨hloc, hgoes, hbears⟩ := h.jobs job (hw job hjob)
    exact ⟨hdests ▸ hloc, hgoes.mono hops, hbears⟩

/-- A file is created, if any, and holds zeros. -/
theorem Kept.creates (h : Kept M source enc r) (hc : Creates r t) (hw : t.writers = r.writers)
    (hp : ∀ i loc total got, t.phase = .chunks i loc total got → loc ∈ t.dests ∧ Goes M t i loc)
    (hn : Noted t) : Kept M source enc t where
  untouched loc hloc := by
    obtain ⟨hold, hdisk⟩ := hc.of_notMem hloc
    rw [hdisk]
    exact h.untouched loc hold
  created loc hloc := by
    rcases hc.of_mem hloc with ⟨hold, -⟩ | ⟨-, hop⟩
    · obtain ⟨file, hfile⟩ := h.created loc hold
      exact ⟨file, hc.1.subset hfile⟩
    · exact hop
  bytes loc hloc := by
    rcases hc.of_mem hloc with ⟨hold, hdisk⟩ | ⟨⟨n, hzeros⟩, -⟩
    · exact (h.bytes loc hold).mono hc.1 hdisk
    · exact filled_of_zeros hzeros
  noted := hn
  waits := hp
  jobs job hjob := by
    obtain ⟨hloc, hgoes, hbears⟩ := h.jobs job (hw ▸ hjob)
    exact ⟨hc.subset hloc, hgoes.mono hc.1, hbears⟩

/-- A write of bytes that stand in the source file at that place. -/
theorem Filled.write (h : Filled M source r loc) {job : WriteJob} {offset done : ℕ} {data : Bytes}
    (hgoes : Goes M r job.dest job.loc)
    (hat : ∀ k b, data[k]? = some b → (source job.dest)[offset + k]? = some b)
    (writers : List WriteJob) : Filled M source
      (({ r with writers := writers } : Session X).putChunk job offset (data.take done)) loc := by
  intro k b hb
  by_cases heq : loc = job.loc
  · subst heq
    simp only [putChunk, Function.update_self] at hb
    rcases getElem?_of_writeAt hb with hbefore | hzero | ⟨hle, hnew⟩
    · exact h k b hbefore
    · exact Or.inl hzero
    · refine Or.inr ⟨job.dest, hgoes, ?_⟩
      rw [List.getElem?_take] at hnew
      have hdata := hat (k - offset) b (Option.ite_none_right_eq_some.mp hnew).2
      rwa [Nat.add_sub_cancel' hle] at hdata
  · simp only [putChunk, Function.update_of_ne heq] at hb
    exact h k b hb

/-- A writer task writes a part of the source file that goes there. -/
theorem Kept.write (h : Kept M source enc r) (hsource : ∀ i, (source i).length ≤ 2 ^ 64)
    {k done offset : ℕ} {job : WriteJob} {data : Bytes} (hjob : r.writers[k]? = some job)
    (henc : job.enc = enc) (hfiled : ∀ i, job.frame.origin = some i → job.dest = i)
    (ho : openChunk X job.enc job.frame.payload = .ok (offset, data)) :
    Kept M source enc (({ r with writers := r.writers.eraseIdx k } : Session X).putChunk job offset
      (data.take done)) := by
  obtain ⟨hloc, hgoes, hbears⟩ := h.jobs job (List.mem_of_getElem? hjob)
  obtain ⟨i, hi, hat⟩ := hbears.opens hsource (henc ▸ ho)
  obtain rfl := hfiled i hi
  refine ⟨⟨fun loc hnone => ?_, h.created, fun loc hmem => (h.bytes loc hmem).write hgoes hat _⟩,
    ⟨h.noted.early, h.noted.loop, h.noted.serves⟩, h.waits,
    fun job' hjob' => h.jobs job' (List.mem_of_mem_eraseIdx hjob')⟩
  have hne : loc ≠ job.loc := by
    rintro rfl
    exact hnone hloc
  exact (Function.update_of_ne hne _ _).trans (h.untouched loc hnone)

/-- The receiver takes a frame for the file that it waits for. -/
theorem Kept.take (h : Kept M source enc r) {i : ℕ} {loc : Location} {total : ℤ}
    {got : List DataFrame} (hp : r.phase = .chunks i loc total got) {frame : DataFrame}
    (hframe : Bears X source enc frame) :
    Kept M source enc (run (takeChunk i loc total got frame) r) := by
  obtain ⟨hloc, hgoes⟩ := h.waits i loc total got hp
  have hst : r.state = .fileTransfare := h.noted.loop (by simp [hp, InLoop])
  apply run_of_post
  apply (takeChunk_spec i loc total got frame).mono
  · rintro p t ⟨rfl, rw, -, rfl⟩
    refine ⟨⟨h.untouched, h.created, h.bytes⟩, .of_loop hst (by simp),
      fun i' loc' total' got' hphase => ?_, ?_⟩
    · obtain ⟨rfl, rfl, -, -⟩ := Phase.chunks.inj hphase
      exact ⟨hloc, hgoes⟩
    · rw [List.forall_mem_append, List.forall_mem_singleton]
      exact ⟨h.jobs, hloc, hgoes, hframe⟩
  · rintro e t ⟨-, -, rfl⟩
    exact h.of_same rfl List.prefix_rfl rfl (fun _ hjob => hjob) (by simp)
      (.of_loop hst (by simp))

theorem Kept.message (h : Kept M source enc r) {W : World} {c : Setup} (hs : c.isSender = false)
    {m : Message} (hm : InOrder c r (.message m)) :
    Kept M source enc (run (onMessage W c m) r) := by
  have hset := onMessage_settles (W := W) (c := c) (s := r) m
  obtain ⟨hdisk, hops⟩ := onMessage_disk (W := W) (c := c) (s := r) m
  obtain ⟨hn, hdests⟩ := h.noted.message (W := W) hs hm
  exact h.of_same hdisk hops hdests (fun job hjob => hset.writers ▸ hjob)
    (fun i loc total got hp => absurd hp (hset.not_chunks i loc total got)) hn

/-- The receiver goes on by itself; `toReceive` is the list of the meeting. -/
theorem Kept.tick (h : Kept M source enc r) {W : World} {c : Setup}
    (hlist : ∀ list, r.toReceive = some list → M.list = list) {y : Proc X Phase}
    (hy : proceed W c r = some y) : Kept M source enc (run y r) := by
  rcases proceed_cases hy with ⟨rw, hp, -⟩ | ⟨rw, job, jobs, hp, -⟩ | ⟨index, hp, rfl⟩ |
    ⟨index, loc, total, got, hp, -, rfl⟩
  · exact absurd hp (h.noted.serves _ _)
  · exact absurd hp (h.noted.serves _ _)
  · have hst : r.state = .fileTransfare := h.noted.loop (by simp [hp, InLoop])
    apply run_of_post
    apply ((requestFile_spec index).and (requestFile_creates index)).mono
    · rintro p t ⟨⟨-, rfl, rfl⟩ | ⟨file, loc, hfile, -, rfl, rfl⟩, ht⟩
      · exact h.of_same rfl List.prefix_rfl rfl (fun _ hjob => hjob) (by simp)
          (.of_loop hst (by simp))
      · refine h.creates ht rfl (fun i' loc' total' got' hphase => ?_) (.of_loop hst (by simp))
        obtain ⟨rfl, rfl, -, -⟩ := Phase.chunks.inj hphase
        obtain ⟨list, hto, hget⟩ := Option.bind_eq_some_iff.mp hfile
        refine ⟨List.mem_append_right _ (List.mem_singleton_self _), file,
          by rw [hlist list hto]; exact hget, ?_⟩
        exact List.mem_append_right _ (List.mem_singleton_self _)
    · rintro e t ⟨⟨-, rfl | ⟨file, -, n, disk, dests, rfl⟩⟩, ht⟩
      · exact h.of_same rfl List.prefix_rfl rfl (fun _ hjob => hjob) (by simp)
          (.of_loop hst (by simp))
      · exact h.creates ht rfl (by simp) (.of_loop hst (by simp))
  · have hst : r.state = .fileTransfare := h.noted.loop (by simp [hp, InLoop])
    exact h.of_same rfl List.prefix_rfl rfl (fun _ hjob => hjob)
      (by simp [run, pure, EStateM.pure]) (.of_loop hst (by simp [run, pure, EStateM.pure]))

end Receiver

section Runs

/-- A step of the receiver other than a frame. -/
theorem Kept.receiver_step (h : Kept M source x.enc p.receiver)
    (hsource : ∀ i, (source i).length ≤ 2 ^ 64) (hkey : SameKey x p) (hc : Coupled M p)
    (hfiled : Filed p.receiver) {e : Session.Event} {r : Session X}
    (he : p.stepReceiver M e = some r) (horder : InOrder M.receiver p.receiver e)
    (hframe : ∀ frame, e = .chunk frame → Bears X source x.enc frame) :
    Kept M source x.enc r := by
  rcases step_cases he with ⟨m, rfl, -, rfl⟩ | ⟨err, rfl, -, rfl⟩ |
    ⟨frame, index, loc, total, got, rfl, hp, -, -, rfl⟩ | ⟨rfl, rfl⟩ | ⟨y, rfl, hy, rfl⟩ |
    ⟨t', rfl, ht, he⟩
  · exact h.message M.isReceiver horder
  · exact h.of_same rfl List.prefix_rfl rfl (fun _ hjob => hjob) (by simp)
      (h.noted.idle rfl rfl (.inr ⟨_, rfl⟩))
  · exact h.take hp (hframe frame rfl)
  · exact h.of_same rfl List.prefix_rfl rfl (fun _ hjob => hjob)
      (fun _ _ _ got hphase => ⟨got, hphase⟩)
      ⟨h.noted.early, h.noted.loop, h.noted.serves⟩
  · refine h.tick (fun list hto => ?_) hy
    obtain ⟨files, hfiles, hlist⟩ := Option.bind_eq_some_iff.mp hto
    exact Meeting.list_eq (hc.offered files hfiles) hlist
  · have hsame : ∀ {readers encrypting dataSent writers},
        (∀ job ∈ writers, job ∈ p.receiver.writers) →
        Kept M source x.enc { p.receiver with
          readers := readers, encrypting := encrypting
          dataSent := dataSent, writers := writers } :=
      fun hw => h.of_same rfl List.prefix_rfl rfl hw (fun _ _ _ got hg => ⟨got, hg⟩)
        ⟨h.noted.early, h.noted.loop, h.noted.serves⟩
    cases background_of_stepTask ht he with
    | read => exact hsame fun _ hjob => hjob
    | readFailed => exact hsame fun _ hjob => hjob
    | encrypt => exact hsame fun _ hjob => hjob
    | unsent => exact hsame fun _ hjob => hjob
    | write hjob ho =>
      have hmem := List.mem_of_getElem? hjob
      exact h.write hsource hjob (hkey.receiver.writers _ hmem) (hfiled.jobs _ hmem) ho
    | unopened => exact hsame fun _ hjob => List.mem_of_mem_eraseIdx hjob

/-- A step of the sender that leaves its tasks alone. -/
theorem Whole.aside (h : Whole x source p) (ha : Aside p.sender p'.sender)
    (hr : p'.receiver = p.receiver) (hf : p'.inFlight = p.inFlight) : Whole x source p' := by
  refine ⟨?_, hf ▸ h.inFlight, hr ▸ h.kept⟩
  rw [ha.encrypting]
  exact h.encrypting

/-- A step of the receiver; a frame may have left the connection. -/
theorem Whole.moveReceiver (h : Whole x source p) (hs : p'.sender = p.sender)
    (hf : ∀ frame ∈ p'.inFlight, frame ∈ p.inFlight) (hk : Kept M source x.enc p'.receiver) :
    Whole x source p' :=
  ⟨hs ▸ h.encrypting, fun frame hframe => h.inFlight frame (hf frame hframe), hk⟩

theorem Whole.step (hX : X.DecryptInverts) (hsource : ∀ i, (source i).length ≤ 2 ^ 64)
    (h : Whole x source p) (hkey : SameKey x p) (hc : Coupled M p) (hfiled : Filed p.receiver)
    {e : Event} (hok : Truthful M source p e) (he : Pair.step M p e = some p') :
    Whole x source p' := by
  have herase : ∀ k, ∀ frame ∈ p.inFlight.eraseIdx k, frame ∈ p.inFlight :=
    fun _ _ => List.mem_of_mem_eraseIdx
  have hgo : ∀ (e' : Session.Event) {r : Session X}, p.stepReceiver M e' = some r →
      InOrder M.receiver p.receiver e' →
      (∀ frame, e' = .chunk frame → Bears X source x.enc frame) → Kept M source x.enc r :=
    fun _ _ hr horder hframe => h.kept.receiver_step hsource hkey hc hfiled hr horder hframe
  cases e with
  | sender t =>
    obtain ⟨s, hs, rfl⟩ := Option.map_eq_some_iff.mp he
    obtain ⟨hencrypting, hsent⟩ := stepTask_excerpts hX hkey.sender h.encrypting
      (by rintro id data rfl; exact hok) hs
    refine ⟨hencrypting, ?_, h.kept⟩
    rw [List.forall_mem_append]
    exact ⟨h.inFlight, hsent⟩
  | receiver t =>
    obtain ⟨r, hr, rfl⟩ := Option.map_eq_some_iff.mp he
    exact h.moveReceiver rfl (fun _ hf => hf) (hgo _ hr trivial (by simp))
  | toSender =>
    obtain ⟨m, -, he⟩ := Option.bind_eq_some_iff.mp he
    obtain ⟨s, hs, rfl⟩ := Option.map_eq_some_iff.mp he
    obtain ⟨-, rfl⟩ := message_of_step hs
    exact h.aside (onMessage_settles m).toAside rfl rfl
  | toReceiver =>
    obtain ⟨m, hm, he⟩ := Option.bind_eq_some_iff.mp he
    obtain ⟨r, hr, rfl⟩ := Option.map_eq_some_iff.mp he
    exact h.moveReceiver rfl (fun _ hf => hf) (hgo _ hr (hc.toReceiver_inOrder hm) (by simp))
  | senderRecvFailed err =>
    obtain ⟨s, hs, rfl⟩ := Option.map_eq_some_iff.mp he
    exact h.aside (recvFailed_aside hs) rfl rfl
  | receiverRecvFailed err =>
    obtain ⟨r, hr, rfl⟩ := Option.map_eq_some_iff.mp he
    exact h.moveReceiver rfl (fun _ hf => hf) (hgo _ hr trivial (by simp))
  | deliver k =>
    obtain ⟨frame, hf, he⟩ := Option.bind_eq_some_iff.mp he
    obtain ⟨r, hr, rfl⟩ := Option.map_eq_some_iff.mp he
    refine h.moveReceiver rfl (herase k) (hgo _ hr trivial fun frame' heq => ?_)
    obtain rfl := Session.Event.chunk.inj heq
    exact h.inFlight _ (List.mem_of_getElem? hf)
  | lose k =>
    obtain ⟨frame, -, rfl⟩ := Option.map_eq_some_iff.mp he
    exact h.moveReceiver rfl (herase k) h.kept
  | keepalive =>
    obtain ⟨r, hr, rfl⟩ := Option.map_eq_some_iff.mp he
    refine h.moveReceiver rfl (fun _ hf => hf) (hgo _ hr trivial fun frame' heq => ?_)
    obtain rfl := Session.Event.chunk.inj heq
    exact bears_keepalive
  | dataClosed =>
    obtain rfl := Option.some.inj he
    exact h.moveReceiver rfl (fun _ hf => hf) (hgo .dataClosed rfl trivial (by simp))

/-- A receiver that has just been started has not touched its disk. -/
theorem receiver_started : (init X M).receiver.disk = M.receiverWorld.disk ∧
    (init X M).receiver.dests = [] ∧ (init X M).receiver.writers = [] ∧
    Idle (init X M).receiver.phase := by
  apply run_of_post (I := fun t : Session X => t.disk = M.receiverWorld.disk ∧ t.dests = [] ∧
    t.writers = [] ∧ Idle t.phase)
  apply start_spec.mono
  · rintro p t ⟨rfl, ⟨-, rfl⟩ | ⟨-, key, msg, rfl⟩⟩
    · exact ⟨rfl, rfl, rfl, .inl rfl⟩
    · exact ⟨rfl, rfl, rfl, .inl rfl⟩
  · rintro h t ⟨-, k, rfl⟩
    exact ⟨rfl, rfl, rfl, .inr ⟨_, rfl⟩⟩

theorem whole_init : Whole x source (init X M) := by
  have hsender : (Session.init X M.senderWorld M.sender).encrypting = [] := by
    apply run_of_post (I := fun t : Session X => t.encrypting = [])
    apply start_spec.mono
    · rintro p t ⟨-, ⟨-, rfl⟩ | ⟨-, key, msg, rfl⟩⟩ <;> rfl
    · rintro h t ⟨-, k, rfl⟩
      rfl
  refine ⟨?_, List.forall_mem_nil _, ?_⟩
  · simp [init, hsender]
  · obtain ⟨hdisk, hdests, hwriters, hp⟩ := receiver_started (X := X) (M := M)
    refine ⟨⟨fun _ _ => by rw [hdisk], ?_, ?_⟩, .of_empty hdests hp, ?_, ?_⟩
    · simp [hdests]
    · simp [hdests]
    · rcases hp with hp | ⟨e, hp⟩ <;> simp [hp]
    · simp [hwriters]

/-- Before its first message an end does not touch its disk. -/
theorem idle_disk {W : World} {c : Setup} {s t : Session X} (hidle : Idle s.phase)
    (hw : s.writers = []) {e : Session.Event} (he : Session.step W c s e = some t)
    (hmsg : ∀ m, e ≠ .message m) : t.disk = s.disk ∧ t.dests = s.dests ∧ t.writers = [] := by
  rcases step_cases he with ⟨m, rfl, -⟩ | ⟨err, rfl, -, rfl⟩ |
    ⟨frame, index, loc, total, got, rfl, hp, -⟩ | ⟨rfl, rfl⟩ | ⟨x, rfl, hx, -⟩ |
    ⟨t', rfl, ht, he⟩
  · exact absurd rfl (hmsg m)
  · exact ⟨rfl, rfl, hw⟩
  · rcases hidle with h | ⟨r, h⟩ <;> simp [hp] at h
  · exact ⟨rfl, rfl, hw⟩
  · rcases hidle with h | ⟨r, h⟩ <;> simp [proceed, h] at hx
  · cases background_of_stepTask ht he with
    | read => exact ⟨rfl, rfl, hw⟩
    | readFailed => exact ⟨rfl, rfl, hw⟩
    | encrypt => exact ⟨rfl, rfl, hw⟩
    | unsent => exact ⟨rfl, rfl, hw⟩
    | write hjob => simp [hw] at hjob
    | unopened hjob => simp [hw] at hjob

/-- Ends that say nothing leave the disk of the receiver alone. -/
theorem intact_of_mute (hsecret : M.sender.sharedSecret = M.receiver.sharedSecret)
    (hsplits : ¬ M.sender.Splits) (hreach : (machine X M).Reachable p) :
    Intact M source p.receiver := by
  have hmute : Mute p ∧ p.receiver.disk = M.receiverWorld.disk ∧ p.receiver.dests = [] ∧
      p.receiver.writers = [] := by
    obtain ⟨hdisk, hdests, hwriters, -⟩ := receiver_started (X := X) (M := M)
    refine hreach.invariant (P := fun p => Mute p ∧ p.receiver.disk = M.receiverWorld.disk ∧
      p.receiver.dests = [] ∧ p.receiver.writers = [])
      ⟨mute_init hsecret hsplits, hdisk, hdests, hwriters⟩ ?_
    rintro p e p' - ⟨hmute, hdisk, hdests, hwriters⟩ he
    refine ⟨hmute.step he, ?_⟩
    rcases step_ends he with ⟨-, -, -, -, hpr, -⟩ | ⟨e', r, hr, hpr, -, -, hmsg⟩ | ⟨-, hpr, -⟩
    · rw [hpr]
      exact ⟨hdisk, hdests, hwriters⟩
    · rcases hmsg with ⟨hmsg, -⟩ | ⟨m, -, hget, -⟩
      · obtain ⟨hd, hdests', hw⟩ := idle_disk hmute.receiver.2.2 hwriters hr hmsg
        rw [hpr]
        exact ⟨hd.trans hdisk, hdests'.trans hdests, hw⟩
      · simp [hmute.sender.2.1] at hget
    · rw [hpr]
      exact ⟨hdisk, hdests, hwriters⟩
  obtain ⟨-, hdisk, hdests, -⟩ := hmute
  exact ⟨fun _ _ => by rw [hdisk], by simp [hdests], by simp [hdests]⟩

/-- Whatever gets lost or fails between two ends that share a secret and count alike, and in
whatever order frames come, the receiver has changed nothing but the files that it created, and
these hold zeros and bytes of their source files at their places. -/
theorem truthful_intact (hJ : X.KeyJsonRoundTrip) (hK : X.KeysAgree) (hX : X.DecryptInverts)
    (hsecret : M.sender.sharedSecret = M.receiver.sharedSecret)
    (hsource : ∀ i, (source i).length ≤ 2 ^ 64)
    (hreach : (machine X M).ReachableBy (Truthful M source) p) : Intact M source p.receiver := by
  by_cases hsplits : M.sender.Splits
  · obtain ⟨pw, hpw⟩ := Setup.splits_iff.mp hsplits
    obtain ⟨x⟩ := exists_exchange hK hsecret hpw
    suffices h : Apart M p ∧ Whole x source p from h.2.kept.toIntact
    apply hreach.invariant (P := fun p => Apart M p ∧ Whole x source p) ⟨apart_init, whole_init⟩
    rintro p e p' hp ⟨hapart, hwhole⟩ hok he
    have hc := reachable_coupled hp
    exact ⟨hapart.step hc hok.matching he,
      hwhole.step hX hsource (reachable_sameKey hJ hp) hc hapart.filed hok he⟩
  · exact intact_of_mute hsecret hsplits hreach.reachable

/-- Of the first of two files three bytes are written, and the chunk of the second one gets lost. -/
def damagedRun : List Event :=
  [.toSender, .toReceiver, .toSender, .toReceiver, .toReceiver, .receiver .tick, .toSender,
    .sender .tick, .sender .tick, .sender (.read 0 (asBytes "hello")),
    .sender (.encrypt 0 ⟨List.replicate 12 0, rfl⟩), .deliver 0, .receiver (.write 0 3),
    .receiver .tick, .receiver .tick, .toSender, .sender .tick,
    .sender (.read 0 (asBytes "world")), .sender (.encrypt 0 ⟨List.replicate 12 0, rfl⟩), .lose 0,
    .dataClosed, .receiver .tick, .receiver .tick]

theorem damaged_intact : ∃ p, (machine .transparent (sharing "12345abc")).ReachableBy
      (Truthful (sharing "12345abc") greetings) p ∧
    Intact (sharing "12345abc") greetings p.receiver ∧
    p.receiver.dests = [Path.resolve [] "./a.txt", Path.resolve [] "./b.txt"] ∧
    p.receiver.disk (Path.resolve [] "./a.txt") = asBytes "hel" ++ [0, 0] ∧
    p.receiver.disk (Path.resolve [] "./b.txt") = List.replicate 5 0 := by
  obtain ⟨p, hp, htest⟩ := Machine.ReachableBy.exists_of_exec
    (M := machine .transparent (sharing "12345abc"))
    (Truthful (sharing "12345abc") greetings)
    (fun p => decide (
      p.receiver.dests = [Path.resolve [] "./a.txt", Path.resolve [] "./b.txt"] ∧
      p.receiver.disk (Path.resolve [] "./a.txt") = asBytes "hel" ++ [0, 0] ∧
      p.receiver.disk (Path.resolve [] "./b.txt") = List.replicate 5 0)) damagedRun
    (by decide +kernel)
  refine ⟨p, hp, truthful_intact External.transparent_keyJson External.transparent_keysAgree
    External.transparent_decryptInverts rfl (fun i => ?_) hp, of_decide_eq_true htest⟩
  have hlength : (greetings i).length ≤ 5 := by
    unfold greetings
    split <;> decide +kernel
  omega

end Runs
end Pair
end Croc
