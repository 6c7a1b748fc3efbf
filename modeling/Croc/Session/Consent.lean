import Croc.Session.Panics

/-! What the user of a receiver has agreed to. The session keeps the last offer only; the record of
a run keeps every offer that the user has agreed to, and what was done for it. -/
namespace Croc
open Lib
namespace Session
variable {X : External} {W : World} {c : Setup} {s t : Session X}

/-- An offer that the user has agreed to, how often the file loop has been entered for it, and how
often the receiver has sent `Finished` for it. -/
structure Consent where
  files : FilesInformation
  loops : ℕ
  finished : ℕ

/-- The offers that the user has agreed to, the newest first, and the file loops without one. -/
structure Record where
  consents : List Consent
  unasked : ℕ

namespace Record

def agree (r : Record) (files : FilesInformation) : Record :=
  { r with consents := ⟨files, 0, 0⟩ :: r.consents }

def enterLoop (r : Record) : Record :=
  match r.consents with
  | [] => { r with unasked := r.unasked + 1 }
  | a :: as => { r with consents := { a with loops := a.loops + 1 } :: as }

def finish (r : Record) (n : ℕ) : Record :=
  { r with consents := r.consents.modifyHead fun a => { a with finished := a.finished + n } }

end Record

instance : DecidablePred InLoop := fun p =>
  match p with
  | .nextFile _ | .chunks .. => isTrue trivial
  | .recv | .sending .. | .ended _ => isFalse id

/-- The step has asked whether to receive files, and the user has agreed. -/
def agreed (W : World) (s t : Session X) : Bool :=
  match t.prompts[s.prompts.length]? with
  | some (.receive ..) => W.confirm s.prompts.length == some true
  | _ => false

def noteOffer (W : World) (r : Record) (s : Session X) (e : Event) (t : Session X) : Record :=
  match e with
  | .message (.filesInfo files) => if agreed W s t then r.agree files else r
  | _ => r

def noteLoop (r : Record) (s t : Session X) : Record :=
  if InLoop t.phase ∧ ¬ InLoop s.phase then r.enterLoop else r

/-- The answer to a `Finished` of the peer is not sent for an offer. -/
def noteFinished (r : Record) (s : Session X) (e : Event) (t : Session X) : Record :=
  if e = .message .finished then r
  else r.finish ((t.sent.drop s.sent.length).count .finished)

/-- What a step from `s` to `t` adds to the record. -/
def noteConsent (W : World) (r : Record) (s : Session X) (e : Event) (t : Session X) : Record :=
  noteFinished (noteLoop (noteOffer W r s e t) s t) s e t

/-- A session with the record of its run. -/
def recorded (X : External) (W : World) (c : Setup) : Machine (Session X × Record) Event :=
  (machine X W c).observe ⟨[], 0⟩ (noteConsent W)

/-- The call is made for an entry of the offer. -/
def FsOp.OfferedIn (files : FilesInformation) : FsOp → Prop
  | .createFile file _ => file ∈ files.filesToTransfare.getD []
  | .createDir file _ => file ∈ files.emptyFoldersToTransfare.getD []

/-- Nothing happens without the consent of the user. -/
structure UserConsent (X : External) (W : World) (c : Setup) : Prop where
  /-- What is created or truncated belongs to an offer that the user has agreed to. -/
  offered : ∀ s r, (recorded X W c).Reachable (s, r) →
    ∀ op ∈ s.ops, ∃ a ∈ r.consents, FsOp.OfferedIn a.files op
  /-- The file loop is entered at most once for an offer, and never without one. -/
  once : ∀ s r, (recorded X W c).Reachable (s, r) →
    r.unasked = 0 ∧ ∀ a ∈ r.consents, a.loops ≤ 1
  /-- In `FileTransfare` there is a list to receive. -/
  stored : ∀ s, (machine X W c).Reachable s → s.state = .fileTransfare →
    ∃ files list, s.filesToReceive = some files ∧ files.filesToTransfare = some list

section Offer

/-- Every question comes after those asked before. -/
theorem createEmptyFolders_prompts (files : FilesInformation) :
    Post (createEmptyFolders W files) s (fun _ t => s.prompts <+: t.prompts)
      (fun _ t => s.prompts <+: t.prompts) := by
  apply post_forEach (I := fun t : Session X => s.prompts <+: t.prompts) _ List.prefix_rfl
  intro file _ t ht
  have hmore : ∀ q, s.prompts <+: t.prompts ++ [q] := fun q => ht.trans (List.prefix_append _ _)
  simp only [createFolder, post_bind, post_osCall, post_lift, post_osTry, post_ite, post_ask,
    post_throw, post_modify]
  refine ⟨fun path _ => ⟨fun _ => ⟨fun _ => ?_, fun _ => ⟨fun _ => ⟨fun yes _ => ⟨fun _ =>
    ⟨fun _ => ?_, fun _ => ?_⟩, fun _ => ?_⟩, ?_⟩, fun _ => ⟨fun _ => ?_, fun _ => ?_⟩⟩⟩,
    fun _ => ?_⟩, ?_⟩
  · cases path.text <;> exact ht
  · exact hmore _
  · exact hmore _
  · exact hmore _
  · exact fun _ => hmore _
  · exact ht
  · exact ht
  · exact ht
  · exact fun _ _ => ht

theorem agreed_of_prefix {items : ℕ} {bytes : Int64}
    (h : s.prompts ++ [.receive items bytes] <+: t.prompts)
    (hyes : W.confirm s.prompts.length = some true) : agreed W s t = true := by
  obtain ⟨more, hmore⟩ := h
  have hq : t.prompts[s.prompts.length]? = some (.receive items bytes) := by
    rw [← hmore, List.append_assoc, List.getElem?_append_right le_rfl, Nat.sub_self]
    rfl
  simp [agreed, hq, hyes]

theorem afterMessage_quietly :
    Post (afterMessage W c) s (fun _ t => t.prompts = s.prompts ∧ t.ops = s.ops)
      (fun _ t => t.prompts = s.prompts ∧ t.ops = s.ops) := by
  apply afterMessage_spec.mono
  · rintro p t (⟨-, rfl, -⟩ | ⟨-, -, -, files, -, rfl⟩ | ⟨-, -, -, -, rfl⟩) <;> exact ⟨rfl, rfl⟩
  · rintro h t ⟨rfl, -⟩
    exact ⟨rfl, rfl⟩

/-- Nothing is made for an offer before the user has agreed to it, and a receiver that goes on has
been told to. -/
theorem onFilesInfo_agreed (hs : c.isSender = false) (hst : s.state = .fileInfoTransfare)
    (files : FilesInformation) :
    Post (onMessage W c (.filesInfo files)) s (fun _ t => agreed W s t = true)
      (fun _ t => agreed W s t = true ∨ t.ops = s.ops) := by
  unfold onMessage
  simp only [processFilesInfo, post_bind, post_get, post_ite, post_lift, post_modify, post_ask,
    post_send, post_throw, orErr_eq_ok, orErr_eq_error]
  refine ⟨fun h => by simp [hs] at h, fun _ => ⟨fun h => absurd hst h, fun _ => ⟨fun total _ =>
    ⟨fun yes hyes => ⟨fun _ => ⟨fun _ => Or.inr trivial, fun e _ => Or.inr trivial⟩,
      fun hyes' => ?_⟩,
      fun _ => Or.inr trivial⟩, fun _ _ => Or.inr trivial⟩⟩⟩
  obtain rfl : yes = true := by simpa using hyes'
  have hmade : ∀ {u : Session X}, s.prompts ++ [.receive files.totalItems total] <+: u.prompts →
      agreed W s u = true := fun hu => agreed_of_prefix hu hyes
  have hafter : ∀ {u : Session X}, s.prompts ++ [.receive files.totalItems total] <+: u.prompts →
      Post (afterMessage W c) u (fun _ t => agreed W s t = true)
        (fun _ t => agreed W s t = true ∨ t.ops = s.ops) := by
    refine fun hu => afterMessage_quietly.mono (fun _ t ht => ?_) fun _ t ht => Or.inl ?_
    · exact hmade (ht.1 ▸ hu)
    · exact hmade (ht.1 ▸ hu)
  apply (createEmptyFolders_prompts files).mono
  · intro _ u hu
    exact ⟨fun _ => ⟨fun _ => hafter hu, fun _ _ => Or.inl (hmade hu)⟩, fun _ => hafter hu⟩
  · exact fun _ u hu => Or.inl (hmade hu)

end Offer

section Receiver

/-- What a message that is no acceptable offer does to a receiver: nothing is created, no file loop
is entered, and `Finished` is sent in answer to `Finished` only. -/
structure Declined (m : Message) (s t : Session X) : Prop where
  ops : t.ops = s.ops
  files : t.filesToReceive = s.filesToReceive
  phase : (t.phase = .recv ∧ t.state ≠ .fileTransfare) ∨
    ∃ r, t.phase = .ended r ∧ t.state = s.state
  sent : m ≠ .finished → ∃ l, t.sent = s.sent ++ l ∧ .finished ∉ l

theorem onMessage_declined (hs : c.isSender = false) (m : Message)
    (hm : ∀ files, m = .filesInfo files → s.state ≠ .fileInfoTransfare) :
    Declined m s (run (onMessage W c m) s) := by
  cases m with
  | pake msg =>
    apply run_of_post
    apply (onPake_spec msg).mono
    · rintro p t ⟨rfl, key, enc, m, -, ⟨hs', -⟩ | ⟨-, rfl⟩, rfl⟩
      · simp [hs] at hs'
      · exact ⟨rfl, rfl, Or.inl ⟨rfl, by simp⟩, fun _ => ⟨_, rfl, by simp⟩⟩
    · rintro h t ⟨-, k, enc, l, rfl | ⟨msg', rfl, -⟩, rfl⟩
      · exact ⟨rfl, rfl, Or.inr ⟨_, rfl, rfl⟩, fun _ => ⟨[], rfl, by simp⟩⟩
      · exact ⟨rfl, rfl, Or.inr ⟨_, rfl, rfl⟩, fun _ => ⟨_, rfl, by simp⟩⟩
  | externalIP msg =>
    apply run_of_post
    apply (onExternalIP_spec msg).mono
    · rintro p t ⟨rfl, -, ⟨-, rfl⟩ | ⟨hs', -⟩⟩
      · exact ⟨rfl, rfl, Or.inl ⟨rfl, by simp⟩, fun _ => ⟨[], by simp, by simp⟩⟩
      · simp [hs] at hs'
    · rintro h t ⟨-, ⟨rfl, -⟩ | ⟨-, hs', -⟩⟩
      · exact ⟨rfl, rfl, Or.inr ⟨_, rfl, rfl⟩, fun _ => ⟨[], by simp, by simp⟩⟩
      · simp [hs] at hs'
  | filesInfo files =>
    rw [onFilesInfo_invalid hs (hm files rfl)]
    exact ⟨rfl, rfl, Or.inr ⟨_, rfl, rfl⟩, fun _ => ⟨[], by simp, by simp⟩⟩
  | typeRecipientReady msg =>
    apply run_of_post
    apply (onRequest_spec msg).mono
    · rintro p t ⟨rw, files, jobs, -, -, -, hs', -⟩
      simp [hs] at hs'
    · rintro h t ⟨-, n, rfl⟩
      exact ⟨rfl, rfl, Or.inr ⟨_, rfl, rfl⟩, fun _ => ⟨[], by simp, by simp⟩⟩
  | typeError msg =>
    exact ⟨rfl, rfl, Or.inr ⟨_, rfl, rfl⟩, fun _ => ⟨[], (List.append_nil _).symm, by simp⟩⟩
  | finished =>
    apply run_finished
    · exact ⟨rfl, rfl, Or.inr ⟨_, rfl, rfl⟩, fun h => absurd rfl h⟩
    · exact fun e => ⟨rfl, rfl, Or.inr ⟨_, rfl, rfl⟩, fun h => absurd rfl h⟩

/-- What ties a receiver to the consent of its user. -/
structure Consented (s : Session X) (r : Record) : Prop where
  ops : ∀ op ∈ s.ops, ∃ a ∈ r.consents, FsOp.OfferedIn a.files op
  once : ∀ a ∈ r.consents, a.loops ≤ 1
  unasked : r.unasked = 0
  stored : s.state = .fileTransfare → ∃ a as list, r.consents = a :: as ∧
    s.filesToReceive = some a.files ∧ a.files.filesToTransfare = some list
  loop : InLoop s.phase → s.state = .fileTransfare
  waits : ∀ rw jobs, s.phase ≠ .sending rw jobs

/-- `Finished` sent for an offer is noted beside what has been agreed. -/
theorem Consented.finish {r : Record} (h : Consented s r) (n : ℕ) : Consented s (r.finish n) := by
  obtain ⟨_ | ⟨a, as⟩, unasked⟩ := r
  · exact h
  · obtain ⟨hops, honce, hun, hst, hloop, hw⟩ := h
    simp only [List.mem_cons, exists_eq_or_imp, forall_eq_or_imp] at hops honce
    refine ⟨?_, ?_, hun, fun hft => ?_, hloop, hw⟩
    · simpa [Record.finish] using hops
    · simpa [Record.finish] using honce
    · obtain ⟨b, bs, list, hb, hf, hl⟩ := hst hft
      obtain ⟨rfl, rfl⟩ := List.cons.inj hb
      exact ⟨_, _, list, rfl, hf, hl⟩

theorem Consented.noteFinished {r : Record} (h : Consented t r) (s : Session X) (e : Event) :
    Consented t (noteFinished r s e t) := by
  unfold Session.noteFinished
  split
  · exact h
  · exact h.finish _

/-- A step that creates nothing and enters no file loop. -/
theorem Consented.of_same {r : Record} (h : Consented s r) (hops : t.ops = s.ops)
    (hf : t.filesToReceive = s.filesToReceive)
    (hst : t.state = s.state ∨ t.state ≠ .fileTransfare)
    (hloop : InLoop t.phase → InLoop s.phase ∧ t.state = s.state)
    (hw : ∀ rw jobs, t.phase ≠ .sending rw jobs) : Consented t (noteLoop r s t) := by
  have hr : noteLoop r s t = r := if_neg fun hc => hc.2 (hloop hc.1).1
  rw [hr]
  refine ⟨by rw [hops]; exact h.ops, h.once, h.unasked, fun hft => ?_, fun hin => ?_, hw⟩
  · rw [hf]
    exact h.stored (hst.elim (fun hst => hst ▸ hft) fun hne => absurd hft hne)
  · rw [(hloop hin).2]
    exact h.loop (hloop hin).1

theorem Declined.consented {m : Message} {r : Record} (hd : Declined m s t) (h : Consented s r) :
    Consented t (noteLoop r s t) := by
  refine h.of_same hd.ops hd.files ?_ ?_ ?_
  · exact hd.phase.elim (fun hp => Or.inr hp.2) fun ⟨_, _, hst⟩ => Or.inl hst
  · rcases hd.phase with ⟨hp, -⟩ | ⟨r, hp, -⟩ <;> simp [hp, InLoop]
  · rcases hd.phase with ⟨hp, -⟩ | ⟨r, hp, -⟩ <;> simp [hp]

/-- What is made for an offer that has been agreed to. -/
theorem Consented.offer {r : Record} (h : Consented s r) {files : FilesInformation} {l : List FsOp}
    (hl : ∀ op ∈ l, MakesFolder W (files.emptyFoldersToTransfare.getD []) op) (loops : ℕ) :
    ∀ op ∈ s.ops ++ l, ∃ a ∈ (⟨files, loops, 0⟩ : Consent) :: r.consents,
      FsOp.OfferedIn a.files op := by
  intro op hop
  rcases List.mem_append.mp hop with hop | hop
  · obtain ⟨a, ha, ho⟩ := h.ops op hop
    exact ⟨a, List.mem_cons_of_mem _ ha, ho⟩
  · obtain ⟨file, hfile, n, path, rfl, -⟩ := hl op hop
    exact ⟨_, List.mem_cons_self .., hfile⟩

theorem onFilesInfo_consented (hs : c.isSender = false) {r : Record} (h : Consented s r)
    (hp : s.phase = .recv) (files : FilesInformation) :
    Consented (run (onMessage W c (.filesInfo files)) s)
      (noteLoop (noteOffer W r s (.message (.filesInfo files))
        (run (onMessage W c (.filesInfo files)) s)) s
        (run (onMessage W c (.filesInfo files)) s)) := by
  by_cases hst : s.state = .fileInfoTransfare
  · apply run_of_post (I := fun t => Consented t
      (noteLoop (noteOffer W r s (.message (.filesInfo files)) t) s t))
    apply ((onFilesInfo_spec hs hst files).and (onFilesInfo_agreed hs hst files)).mono
    · rintro p t ⟨⟨u, ⟨n, q, l, hl, rfl⟩, hland⟩, ha⟩
      have hn : noteOffer W r s (.message (.filesInfo files)) { t with phase := p } =
        r.agree files := if_pos ha
      rw [hn]
      rcases hland with ⟨rfl, hnone, rfl⟩ | ⟨rfl, hsome, rfl⟩
      · rw [noteLoop, if_neg (by simp [InLoop])]
        refine ⟨h.offer hl 0, ?_, h.unasked, by simp, by simp [InLoop], by simp⟩
        simpa [Record.agree] using h.once
      · rw [noteLoop, if_pos ⟨trivial, by simp [hp, InLoop]⟩]
        obtain ⟨list, hlist⟩ := Option.ne_none_iff_exists'.mp hsome
        refine ⟨h.offer hl 1, ?_, h.unasked, fun _ => ⟨_, _, list, rfl, rfl, hlist⟩,
          fun _ => rfl, by simp⟩
        simpa [Record.agree, Record.enterLoop] using h.once
    · rintro h' t ⟨⟨-, u, l', ⟨n, q, l, hl, rfl⟩, -, rfl⟩, ha⟩
      simp only [noteOffer]
      rw [noteLoop, if_neg (by simp [InLoop])]
      split
      · refine ⟨h.offer hl 0, ?_, h.unasked, by simp [hst], by simp [InLoop], by simp⟩
        simpa [Record.agree] using h.once
      next hna =>
        refine ⟨?_, h.once, h.unasked, by simp [hst], by simp [InLoop], by simp⟩
        have hops : s.ops ++ l = s.ops := ha.resolve_left hna
        exact fun op hop => h.ops op (hops ▸ hop)
  · have hd : Declined (.filesInfo files) s (run (onMessage W c (.filesInfo files)) s) :=
      onMessage_declined hs _ fun files' hf => by cases hf; exact hst
    rw [onFilesInfo_invalid hs hst] at hd ⊢
    have hna : agreed W s
        { s with phase := .ended (.error (.err .invalidState)) } = false := by simp [agreed]
    simp only [noteOffer, hna]
    exact hd.consented h

/-- The file loop creates the entries of the newest offer. -/
theorem Consented.create {r : Record} (h : Consented s r) (hst : s.state = .fileTransfare)
    {index : ℕ} {file : FileInfo} (hf : s.toReceive.bind (·[index]?) = some file)
    (loc : Location) : ∀ op ∈ s.ops ++ [.createFile file loc], ∃ a ∈ r.consents,
      FsOp.OfferedIn a.files op := by
  intro op hop
  rcases List.mem_append.mp hop with hop | hop
  · exact h.ops op hop
  · obtain rfl := List.mem_singleton.mp hop
    obtain ⟨a, as, list, hr, hfiles, hlist⟩ := h.stored hst
    have hfile : list[index]? = some file := by simpa [toReceive, hfiles, hlist] using hf
    refine ⟨a, hr ▸ List.mem_cons_self .., ?_⟩
    rw [FsOp.OfferedIn, hlist]
    exact List.mem_of_getElem? hfile

theorem requestFile_consented {r : Record} (h : Consented s r) {index : ℕ}
    (hp : s.phase = .nextFile index) :
    Consented (run (requestFile W index) s) (noteLoop r s (run (requestFile W index) s)) := by
  have hin : InLoop s.phase := by simp [hp, InLoop]
  have hst : s.state = .fileTransfare := h.loop hin
  have hkeep : noteLoop r s (run (requestFile W index) s) = r := if_neg fun hc => hc.2 hin
  rw [hkeep]
  apply run_of_post (I := fun t => Consented t r)
  apply (requestFile_spec index).mono
  · rintro p t (⟨-, rfl, rfl⟩ | ⟨file, loc, hf, -, rfl, rfl⟩)
    · exact ⟨h.ops, h.once, h.unasked, h.stored, by simp [InLoop], by simp⟩
    · exact ⟨h.create hst hf loc, h.once, h.unasked, h.stored, fun _ => hst, by simp⟩
  · rintro h' t ⟨-, rfl | ⟨file, hf, n, disk, dests, rfl⟩⟩
    · exact ⟨h.ops, h.once, h.unasked, h.stored, by simp [InLoop], by simp⟩
    · exact ⟨h.create hst hf _, h.once, h.unasked, h.stored, by simp [InLoop], by simp⟩

theorem proceed_consented {r : Record} (h : Consented s r) {x : Proc X Phase}
    (hx : proceed W c s = some x) : Consented (run x s) (noteLoop r s (run x s)) := by
  rcases proceed_cases hx with ⟨rw, hp, -⟩ | ⟨rw, job, jobs, hp, -⟩ | ⟨index, hp, rfl⟩ |
    ⟨index, loc, total, got, hp, -, rfl⟩
  · exact absurd hp (h.waits _ _)
  · exact absurd hp (h.waits _ _)
  · exact requestFile_consented h hp
  · have hin : InLoop s.phase := by simp [hp, InLoop]
    exact h.of_same rfl rfl (Or.inl rfl) (fun _ => ⟨hin, rfl⟩) (by simp [run, pure, EStateM.pure])

/-- Every step of a receiver keeps to what its user has agreed to. -/
theorem step_consented (hs : c.isSender = false) {r : Record} (h : Consented s r) {e : Event}
    (he : step W c s e = some t) : Consented t (noteConsent W r s e t) := by
  refine Consented.noteFinished ?_ s e
  rcases step_cases he with ⟨m, rfl, hp, rfl⟩ | ⟨err, rfl, -, rfl⟩ |
    ⟨frame, index, loc, total, got, rfl, hp, -, -, rfl⟩ | ⟨rfl, rfl⟩ | ⟨x, rfl, hx, rfl⟩ |
    ⟨t', rfl, ht, he⟩
  · cases m with
    | filesInfo files => exact onFilesInfo_consented hs h hp files
    | pake msg => exact (onMessage_declined hs _ (by simp)).consented h
    | externalIP msg => exact (onMessage_declined hs _ (by simp)).consented h
    | typeRecipientReady msg => exact (onMessage_declined hs _ (by simp)).consented h
    | typeError msg => exact (onMessage_declined hs _ (by simp)).consented h
    | finished => exact (onMessage_declined hs _ (by simp)).consented h
  · exact h.of_same rfl rfl (Or.inl rfl) (by simp [InLoop]) (by simp)
  · have hin : InLoop s.phase := by simp [hp, InLoop]
    apply run_of_post (I := fun t => Consented t (noteLoop r s t))
    apply (takeChunk_spec index loc total got frame).mono
    · rintro p t ⟨rfl, rw, -, rfl⟩
      exact h.of_same rfl rfl (Or.inl rfl) (fun _ => ⟨hin, rfl⟩) (by simp)
    · rintro h' t ⟨-, -, rfl⟩
      exact h.of_same rfl rfl (Or.inl rfl) (by simp [InLoop]) (by simp)
  · exact h.of_same rfl rfl (Or.inl rfl) (fun hin => ⟨hin, rfl⟩) h.waits
  · exact proceed_consented h hx
  · obtain ⟨readers, encrypting, dataSent, writers, written, disk, rfl⟩ := stepTask_background ht he
    exact h.of_same rfl rfl (Or.inl rfl) (fun hin => ⟨hin, rfl⟩) h.waits

theorem init_consented : Consented (init X W c) ⟨[], 0⟩ := by
  apply run_of_post (I := fun t => Consented t ⟨[], 0⟩)
  apply start_spec.mono
  · rintro p t ⟨rfl, ⟨-, rfl⟩ | ⟨-, key, msg, rfl⟩⟩ <;>
      exact ⟨by simp [new], by simp, rfl, by simp [new], by simp [InLoop], by simp⟩
  · rintro h t ⟨-, k, rfl⟩
    exact ⟨by simp [new], by simp, rfl, by simp [new], by simp [InLoop], by simp⟩

theorem reachable_consented (hs : c.isSender = false) {p : Session X × Record}
    (h : (recorded X W c).Reachable p) : Consented p.1 p.2 := by
  apply h.invariant (P := fun p => Consented p.1 p.2) init_consented
  intro p e p' _ hp he
  obtain ⟨hstep, hnote⟩ := Machine.observe_step.mp he
  rw [hnote]
  exact step_consented hs hp hstep

/-- A receiver does nothing without the consent of its user. -/
theorem receiver_userConsent (hs : c.isSender = false) : UserConsent X W c where
  offered _ _ h := (reachable_consented hs h).ops
  once s r h :=
    have hc : Consented s r := reachable_consented hs h
    ⟨hc.unasked, hc.once⟩
  stored s h hst := by
    obtain ⟨r, hr⟩ : ∃ r, (recorded X W c).Reachable (s, r) := h.exists_record
    obtain ⟨a, -, list, -, hf, hl⟩ := (reachable_consented hs hr).stored hst
    exact ⟨a.files, list, hf, hl⟩

theorem receiver_userConsent_plain :
    UserConsent .transparent (.calm (.plain [] 5)) (.receiver "12345abc") :=
  receiver_userConsent rfl

end Receiver
end Session
end Croc
