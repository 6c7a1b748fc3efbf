import Croc.Session.Consent
import Croc.Session.Sent

/-! What `Ok` says about a session. The message loop returns it for every `Finished` of the peer
that it can answer, wherever the session is. -/
namespace Croc
open Lib
namespace Session
variable {X : External} {W : World} {c : Setup} {s t : Session X} {r : Record}

/-- What an end has to have done before it may return `Ok`: the sender has exchanged keys and
addresses and has offered its files, the receiver has sent `Finished` for an offer that its user has
agreed to. -/
structure Completed (c : Setup) (s : Session X) (r : Record) : Prop where
  sender : c.isSender = true → s.encryptedSession.isSome ∧ s.peerExternalIp.isSome ∧
    ∃ files, c.files = some files ∧ .filesInfo files ∈ s.sent
  receiver : c.isSender = false → ∃ a ∈ r.consents, 0 < a.finished

/-- In every run of steps that meet `ok`, a session returns `Ok` only when it is completed, and
returns an error for a `Finished` that comes before. -/
structure OkMeansCompleted (X : External) (W : World) (c : Setup)
    (ok : Session X → Event → Prop) : Prop where
  completed : ∀ s r, (recorded X W c).ReachableBy (fun p e => ok p.1 e) (s, r) →
    s.phase = .ended (.ok ()) → Completed c s r
  early : ∀ s r t, (recorded X W c).ReachableBy (fun p e => ok p.1 e) (s, r) →
    ok s (.message .finished) → step W c s (.message .finished) = some t → ¬ Completed c s r →
      ∃ e, t.phase = .ended (.error (.err e))

/-- The last message of an end before it waits for `Finished`. -/
def SaidAll (c : Setup) (s : Session X) : Prop :=
  if c.isSender then ∃ files, .filesInfo files ∈ s.sent else .finished ∈ s.sent

/-- `Finished` comes to a sender that has offered its files, or to a receiver that has sent
`Finished`, unless the answer to it cannot be sent. -/
def InTurn (W : World) (c : Setup) (s : Session X) : Event → Prop
  | .message .finished => SaidAll c s ∨ W.sendError s.sent.length ≠ none
  | _ => True

section Ok

/-- `Finished` is answered, whatever has happened before. -/
theorem onFinished_spec :
    Post (onMessage W c .finished) s
      (fun p t => W.sendError s.sent.length = none ∧ p = .ended (.ok ()) ∧
        t = { s with sent := s.sent ++ [.finished] })
      (fun h t => ∃ e, W.sendError s.sent.length = some e ∧ h = .err e ∧ t = s) := by
  unfold onMessage
  rw [post_bind, post_send]
  exact ⟨fun hnone => ⟨hnone, rfl, rfl⟩, fun e herr => ⟨e, herr, rfl, rfl⟩⟩

theorem afterMessage_not_ok :
    (run (afterMessage W c) s).phase ≠ .ended (.ok ()) := by
  apply run_of_post (I := fun t => t.phase ≠ .ended (.ok ()))
  apply afterMessage_spec.mono
  · rintro p t (⟨rfl, -⟩ | ⟨rfl, -⟩ | ⟨rfl, -⟩) <;> simp
  · simp

theorem onMessage_not_ok {m : Message} (hm : m ≠ .finished) :
    (run (onMessage W c m) s).phase ≠ .ended (.ok ()) := by
  cases m with
  | pake msg =>
    apply run_of_post (I := fun t => t.phase ≠ .ended (.ok ()))
    exact (onPake_spec msg).mono (fun p t h => by simp [h.1]) (by simp)
  | externalIP msg =>
    apply run_of_post (I := fun t => t.phase ≠ .ended (.ok ()))
    exact (onExternalIP_spec msg).mono (fun p t h => by simp [h.1]) (by simp)
  | filesInfo files =>
    apply run_onFilesInfo (I := fun t => t.phase ≠ .ended (.ok ()))
    · simp
    · simp
    · intro hs hst
      apply (onFilesInfo_spec hs hst files).mono
      · rintro p t ⟨u, -, ⟨rfl, -⟩ | ⟨rfl, -⟩⟩ <;> simp
      · simp
  | typeRecipientReady msg =>
    apply run_of_post (I := fun t => t.phase ≠ .ended (.ok ()))
    apply (onRequest_spec msg).mono
    · rintro p t ⟨rw, files, jobs, -, -, rfl, -⟩
      simp
    · simp
  | typeError msg => exact fun h => by cases h
  | finished => exact absurd rfl hm

theorem proceed_not_ok {x : Proc X Phase} (hx : proceed W c s = some x) :
    (run x s).phase ≠ .ended (.ok ()) := by
  rcases proceed_cases hx with ⟨rw, -, rfl⟩ | ⟨rw, job, jobs, -, rfl⟩ | ⟨index, -, rfl⟩ |
    ⟨index, loc, total, got, -, -, rfl⟩
  · exact afterMessage_not_ok
  · apply run_handChunk (I := fun t => t.phase ≠ .ended (.ok ()))
    · simp
    · simp
  · apply run_of_post (I := fun t => t.phase ≠ .ended (.ok ()))
    apply (requestFile_spec index).mono
    · rintro p t (⟨-, rfl, -⟩ | ⟨file, loc, -, -, rfl, -⟩) <;> simp
    · simp
  · exact fun hp => by cases hp

theorem step_answer (he : step W c s (.message .finished) = some t) :
    s.phase = .recv ∧ ((W.sendError s.sent.length = none ∧
        t = { s with sent := s.sent ++ [.finished], phase := .ended (.ok ()) }) ∨
      ∃ e, W.sendError s.sent.length = some e ∧
        t = { s with phase := .ended (.error (.err e)) }) := by
  obtain ⟨hp, rfl⟩ := message_of_step he
  refine ⟨hp, ?_⟩
  rcases run_cases (onFinished_spec (W := W) (c := c) (s := s)) with
    ⟨p, u, hrun, hnone, rfl, rfl⟩ | ⟨h, u, hrun, e, herr, rfl, rfl⟩
  · exact Or.inl ⟨hnone, hrun⟩
  · exact Or.inr ⟨e, herr, hrun⟩

/-- Nothing but the answer to `Finished` returns `Ok`. -/
theorem step_ok {e : Event} (he : step W c s e = some t) (ht : t.phase = .ended (.ok ())) :
    s.phase = .ended (.ok ()) ∨
      (e = .message .finished ∧ W.sendError s.sent.length = none) := by
  rcases step_cases he with ⟨m, rfl, -, rfl⟩ | ⟨err, rfl, -, rfl⟩ |
    ⟨frame, index, loc, total, got, rfl, hp, -, -, rfl⟩ | ⟨rfl, rfl⟩ | ⟨x, rfl, hx, rfl⟩ |
    ⟨t', rfl, htick, he⟩
  · by_cases hm : m = .finished
    · subst hm
      rcases (step_answer he).2 with ⟨hnone, -⟩ | ⟨err, -, hrun⟩
      · exact Or.inr ⟨rfl, hnone⟩
      · simp [hrun] at ht
    · exact absurd ht (onMessage_not_ok hm)
  · simp at ht
  · refine absurd ht ?_
    apply run_of_post (I := fun t => t.phase ≠ .ended (.ok ()))
    exact (takeChunk_spec index loc total got frame).mono (fun p t h => by simp [h.1]) (by simp)
  · exact Or.inl ht
  · exact absurd ht (proceed_not_ok hx)
  · obtain ⟨readers, encrypting, dataSent, writers, written, disk, rfl⟩ :=
      stepTask_background htick he
    exact Or.inl ht

theorem step_error {e : Event} {h : Halt} (hp : s.phase = .ended (.error h))
    (he : step W c s e = some t) : t.phase = .ended (.error h) := by
  rcases step_cases he with ⟨m, -, hp', -⟩ | ⟨err, -, hp', -⟩ |
    ⟨frame, index, loc, total, got, -, hp', -⟩ | ⟨-, rfl⟩ | ⟨x, -, hx, -⟩ | ⟨t', -, htick, he⟩
  · simp [hp] at hp'
  · simp [hp] at hp'
  · simp [hp] at hp'
  · exact hp
  · simp [proceed, hp] at hx
  · obtain ⟨readers, encrypting, dataSent, writers, written, disk, rfl⟩ :=
      stepTask_background htick he
    exact hp

/-- What an end has sent stays sent. -/
theorem SaidAll.step {e : Event} (h : SaidAll c s) (he : step W c s e = some t) :
    SaidAll c t := by
  obtain ⟨l, hl, -⟩ := (step_logged he).sent
  unfold SaidAll at h ⊢
  rw [hl]
  split
  next hs =>
    obtain ⟨files, hf⟩ := (if_pos hs).mp h
    exact ⟨files, List.mem_append_left _ hf⟩
  next hs => exact List.mem_append_left _ ((if_neg hs).mp h)

end Ok

section Sender

/-- What a sender has done before it offers its files. -/
structure Offers (c : Setup) (s : Session X) : Prop where
  session : s.state ≠ .keyExchange → s.encryptedSession.isSome
  address : s.state ≠ .keyExchange → s.state ≠ .ipExchange → s.peerExternalIp.isSome
  offered : ∀ files, .filesInfo files ∈ s.sent →
    s.encryptedSession.isSome ∧ s.peerExternalIp.isSome ∧ c.files = some files

/-- A step that completes no exchange and offers nothing. -/
theorem Offers.of_same (h : Offers c s) (hst : t.state = s.state)
    (he : t.encryptedSession = s.encryptedSession) (ha : t.peerExternalIp = s.peerExternalIp)
    {l : List Message} (hl : t.sent = s.sent ++ l) (hno : ∀ files, .filesInfo files ∉ l) :
    Offers c t where
  session := by rw [hst, he]; exact h.session
  address := by rw [hst, ha]; exact h.address
  offered files hf := by
    rw [he, ha]
    rw [hl] at hf
    exact h.offered files ((List.mem_append.mp hf).resolve_right (hno files))

/-- The files are offered once keys and addresses have been exchanged. -/
theorem Offers.offer (h : Offers c s) {files : FilesInformation} (hf : c.files = some files)
    (hst : s.state ≠ .keyExchange) (he : t.encryptedSession = s.encryptedSession)
    (ha : t.peerExternalIp.isSome) {l : List Message} (hl : t.sent = s.sent ++ l)
    (hoff : ∀ files', .filesInfo files' ∈ l → files' = files) : Offers c t where
  session _ := he ▸ h.session hst
  address _ _ := ha
  offered files' hf' := by
    rw [hl] at hf'
    refine ⟨he ▸ h.session hst, ha, ?_⟩
    rcases List.mem_append.mp hf' with hold | hnew
    · exact (h.offered files' hold).2.2
    · rw [hoff files' hnew, hf]

theorem afterMessage_offers (h : Offers c s) :
    (∃ e, (run (afterMessage W c) s).phase = .ended (.error e)) ∨
      Offers c (run (afterMessage W c) s) := by
  apply run_of_post (I := fun t => (∃ e, t.phase = .ended (.error e)) ∨ Offers c t)
  apply afterMessage_spec.mono
  · rintro p t (⟨-, rfl, -⟩ | ⟨-, -, hst, files, hf, rfl⟩ | ⟨-, -, -, -, rfl⟩)
    · exact Or.inr (h.of_same rfl rfl rfl (List.append_nil _).symm (by simp))
    · have ha : s.peerExternalIp.isSome := h.address (by simp [hst]) (by simp [hst])
      exact Or.inr (h.offer hf (by simp [hst]) rfl ha rfl (by simp))
    · exact Or.inr (h.of_same rfl rfl rfl (List.append_nil _).symm (by simp))
  · exact fun _ _ _ => Or.inl ⟨_, rfl⟩

theorem onMessage_offers (hs : c.isSender = true) (h : Offers c s) (m : Message) :
    (∃ e, (run (onMessage W c m) s).phase = .ended (.error e)) ∨
      Offers c (run (onMessage W c m) s) := by
  cases m with
  | pake msg =>
    apply run_of_post (I := fun t => (∃ e, t.phase = .ended (.error e)) ∨ Offers c t)
    apply (onPake_spec msg).mono _ fun _ _ _ => Or.inl ⟨_, rfl⟩
    rintro p t ⟨rfl, key, enc, m, -, ⟨-, msg', rfl⟩ | ⟨hs', -⟩, rfl⟩
    · refine Or.inr ⟨fun _ => rfl, by simp, fun files hf => ⟨rfl, ?_⟩⟩
      have hf : .filesInfo files ∈ s.sent := by simpa using hf
      exact (h.offered files hf).2
    · simp [hs] at hs'
  | externalIP msg =>
    apply run_of_post (I := fun t => (∃ e, t.phase = .ended (.error e)) ∨ Offers c t)
    apply (onExternalIP_spec msg).mono _ fun _ _ _ => Or.inl ⟨_, rfl⟩
    rintro p t ⟨rfl, hst, ⟨hs', -⟩ | ⟨-, files, hf, rfl⟩⟩
    · simp [hs] at hs'
    · exact Or.inr (h.offer hf (by simp [hst]) rfl rfl rfl (by simp))
  | filesInfo files =>
    rw [onFilesInfo_sender hs]
    exact Or.inl ⟨_, rfl⟩
  | typeRecipientReady msg =>
    apply run_of_post (I := fun t => (∃ e, t.phase = .ended (.error e)) ∨ Offers c t)
    apply (onRequest_spec msg).mono _ fun _ _ _ => Or.inl ⟨_, rfl⟩
    rintro p t ⟨rw, files, jobs, -, -, rfl, -, -, ⟨-, -, rfl⟩ | ⟨-, -, -, -, -, -, -, rfl⟩⟩
    · exact Or.inr (h.of_same rfl rfl rfl (List.append_nil _).symm (by simp))
    · exact Or.inr (h.of_same rfl rfl rfl (List.append_nil _).symm (by simp))
  | typeError msg => exact Or.inl ⟨_, rfl⟩
  | finished =>
    apply run_finished (I := fun t => (∃ e, t.phase = .ended (.error e)) ∨ Offers c t)
    · exact Or.inr (h.of_same rfl rfl rfl rfl (by simp))
    · exact fun e => Or.inl ⟨_, rfl⟩

theorem proceed_offers (h : Offers c s) {x : Proc X Phase} (hx : proceed W c s = some x) :
    (∃ e, (run x s).phase = .ended (.error e)) ∨ Offers c (run x s) := by
  rcases proceed_cases hx with ⟨rw, -, rfl⟩ | ⟨rw, job, jobs, -, rfl⟩ | ⟨index, -, rfl⟩ |
    ⟨index, loc, total, got, -, -, rfl⟩
  · exact afterMessage_offers h
  · apply run_handChunk (I := fun t => (∃ e, t.phase = .ended (.error e)) ∨ Offers c t)
    · exact Or.inr (h.of_same rfl rfl rfl (List.append_nil _).symm (by simp))
    · exact fun e => Or.inl ⟨_, rfl⟩
  · apply run_of_post (I := fun t => (∃ e, t.phase = .ended (.error e)) ∨ Offers c t)
    apply (requestFile_spec index).mono _ fun _ _ _ => Or.inl ⟨_, rfl⟩
    rintro p t (⟨-, rfl, rfl⟩ | ⟨file, loc, -, -, rfl, rfl⟩)
    · exact Or.inr (h.of_same rfl rfl rfl rfl (by simp))
    · exact Or.inr (h.of_same rfl rfl rfl rfl (by simp [fileRequest]))
  · exact Or.inr (h.of_same rfl rfl rfl (List.append_nil _).symm (by simp))

/-- A sender that has not failed has offered its files in turn. -/
theorem step_offers (hs : c.isSender = true)
    (h : (∃ e, s.phase = .ended (.error e)) ∨ Offers c s) {e : Event}
    (he : step W c s e = some t) : (∃ e, t.phase = .ended (.error e)) ∨ Offers c t := by
  rcases h with ⟨h, hp⟩ | h
  · exact Or.inl ⟨h, step_error hp he⟩
  rcases step_cases he with ⟨m, rfl, -, rfl⟩ | ⟨err, rfl, -, rfl⟩ |
    ⟨frame, index, loc, total, got, rfl, hp, -, -, rfl⟩ | ⟨rfl, rfl⟩ | ⟨x, rfl, hx, rfl⟩ |
    ⟨t', rfl, htick, he⟩
  · exact onMessage_offers hs h m
  · exact Or.inl ⟨_, rfl⟩
  · apply run_of_post (I := fun t => (∃ e, t.phase = .ended (.error e)) ∨ Offers c t)
    apply (takeChunk_spec index loc total got frame).mono _ fun _ _ _ => Or.inl ⟨_, rfl⟩
    rintro p t ⟨-, rw, -, rfl⟩
    exact Or.inr (h.of_same rfl rfl rfl (List.append_nil _).symm (by simp))
  · exact Or.inr (h.of_same rfl rfl rfl (List.append_nil _).symm (by simp))
  · exact proceed_offers h hx
  · obtain ⟨readers, encrypting, dataSent, writers, written, disk, rfl⟩ :=
      stepTask_background htick he
    exact Or.inr (h.of_same rfl rfl rfl (List.append_nil _).symm (by simp))

theorem init_offers (hs : c.isSender = true) :
    (∃ e, (init X W c).phase = .ended (.error e)) ∨ Offers c (init X W c) := by
  apply run_of_post (I := fun t => (∃ e, t.phase = .ended (.error e)) ∨ Offers c t)
  apply start_spec.mono _ fun _ _ _ => Or.inl ⟨_, rfl⟩
  rintro p t ⟨-, ⟨-, rfl⟩ | ⟨hs', -⟩⟩
  · exact Or.inr ⟨by simp [new], by simp [new], by simp [new]⟩
  · simp [hs] at hs'

end Sender

section Receiver

/-- The receiver has sent `Finished` for an offer that its user has agreed to. -/
def Record.Finished (r : Record) : Prop := ∃ a ∈ r.consents, 0 < a.finished

theorem Record.Finished.noteOffer (h : r.Finished) (e : Event) :
    (noteOffer W r s e t).Finished := by
  obtain ⟨a, ha, hpos⟩ := h
  unfold Session.noteOffer
  split
  · split
    · exact ⟨a, List.mem_cons_of_mem _ ha, hpos⟩
    · exact ⟨a, ha, hpos⟩
  · exact ⟨a, ha, hpos⟩

theorem Record.Finished.noteLoop (h : r.Finished) : (noteLoop r s t).Finished := by
  unfold Session.noteLoop
  split
  · obtain ⟨_ | ⟨b, bs⟩, unasked⟩ := r
    · exact absurd h (by simp [Record.Finished])
    · simpa [Record.Finished, Record.enterLoop] using h
  · exact h

theorem Record.Finished.finish (h : r.Finished) (n : ℕ) : (r.finish n).Finished := by
  obtain ⟨_ | ⟨b, bs⟩, unasked⟩ := r
  · exact h
  · simp only [Record.Finished, Record.finish, List.modifyHead_cons, List.mem_cons,
      exists_eq_or_imp] at h ⊢
    exact h.imp_left fun hb => Nat.lt_add_right n hb

/-- What has been done for an offer stays done. -/
theorem Record.Finished.noteConsent (h : r.Finished) (e : Event) :
    (noteConsent W r s e t).Finished := by
  have hloop : (Session.noteLoop (Session.noteOffer W r s e t) s t).Finished :=
    (h.noteOffer e).noteLoop
  unfold Session.noteConsent noteFinished
  split
  · exact hloop
  · exact hloop.finish _

theorem Record.finished_of_finish {n : ℕ} (h : r.consents ≠ []) (hn : 0 < n) :
    (r.finish n).Finished := by
  obtain ⟨_ | ⟨b, bs⟩, unasked⟩ := r
  · exact absurd rfl h
  · exact ⟨_, List.mem_cons_self .., Nat.lt_of_lt_of_le hn (Nat.le_add_left n b.finished)⟩

theorem noteLoop_consents (h : r.consents ≠ []) : (noteLoop r s t).consents ≠ [] := by
  unfold noteLoop
  split
  · obtain ⟨_ | ⟨b, bs⟩, unasked⟩ := r
    · exact absurd rfl h
    · simp [Record.enterLoop]
  · exact h

theorem onFilesInfo_finished (hs : c.isSender = false) (hst : s.state = .fileInfoTransfare)
    {files : FilesInformation} {l : List Message}
    (hl : (run (onMessage W c (.filesInfo files)) s).sent = s.sent ++ l) (hfin : .finished ∈ l) :
    agreed W s (run (onMessage W c (.filesInfo files)) s) = true := by
  revert hl
  apply run_of_post (I := fun t => t.sent = s.sent ++ l → agreed W s t = true)
  apply ((onFilesInfo_spec hs hst files).and (onFilesInfo_agreed hs hst files)).mono
  · exact fun p t ht _ => ht.2
  · rintro h t ⟨⟨-, u, l', -, hl', rfl⟩, -⟩ hl
    obtain rfl : l' = l := List.append_cancel_left hl
    rcases hl' with rfl | ⟨msg, rfl⟩ <;> simp at hfin

theorem requestFile_finished (h : Consented s r) {index : ℕ} (hp : s.phase = .nextFile index) :
    r.consents ≠ [] := by
  obtain ⟨a, as, -, hr, -⟩ := h.stored (h.loop (by simp [hp, InLoop]))
  simp [hr]

/-- Where a receiver sends `Finished` by itself, there is an offer that its user has agreed to. -/
theorem consents_of_finished (hs : c.isSender = false) (h : Consented s r) {e : Event}
    (he : step W c s e = some t) (hne : e ≠ .message .finished) {l : List Message}
    (hl : t.sent = s.sent ++ l) (hfin : .finished ∈ l) :
    (noteLoop (noteOffer W r s e t) s t).consents ≠ [] := by
  apply noteLoop_consents
  have hquiet : t.sent ≠ s.sent := fun hsame => by
    have : l = [] := by simpa [hl] using hsame
    simp [this] at hfin
  rcases step_cases he with ⟨m, rfl, -, rfl⟩ | ⟨err, rfl, -, rfl⟩ |
    ⟨frame, index, loc, total, got, rfl, hp, -, -, rfl⟩ | ⟨rfl, rfl⟩ | ⟨x, rfl, hx, rfl⟩ |
    ⟨t', rfl, htick, he⟩
  · by_cases hm : ∀ files, m = .filesInfo files → s.state ≠ .fileInfoTransfare
    · obtain ⟨l', hl', hno⟩ := (onMessage_declined (W := W) hs m hm).sent (by simpa using hne)
      exact absurd hfin (List.append_cancel_left (hl'.symm.trans hl) ▸ hno)
    · push Not at hm
      obtain ⟨files, rfl, hst⟩ := hm
      simp [noteOffer, onFilesInfo_finished hs hst hl hfin, Record.agree]
  · exact absurd rfl hquiet
  · refine absurd ?_ hquiet
    apply run_of_post (I := fun t => t.sent = s.sent)
    apply (takeChunk_spec index loc total got frame).mono
    · rintro p t ⟨-, rw, -, rfl⟩
      rfl
    · rintro h' t ⟨-, -, rfl⟩
      rfl
  · exact absurd rfl hquiet
  · rcases proceed_cases hx with ⟨rw, hp, -⟩ | ⟨rw, job, jobs, hp, -⟩ | ⟨index, hp, -⟩ |
      ⟨index, loc, total, got, -, -, rfl⟩
    · exact absurd hp (h.waits _ _)
    · exact absurd hp (h.waits _ _)
    · exact requestFile_finished h hp
    · exact absurd rfl hquiet
  · obtain ⟨readers, encrypting, dataSent, writers, written, disk, rfl⟩ :=
      stepTask_background htick he
    exact absurd rfl hquiet

/-- A receiver that has said `Finished` has said it for an offer that its user has agreed to, while
the peer waits for it. -/
theorem step_finished (hs : c.isSender = false) (hcons : Consented s r)
    (h : .finished ∈ s.sent → r.Finished) {e : Event} (hok : InTurn W c s e)
    (he : step W c s e = some t) (hfin : .finished ∈ t.sent) :
    (noteConsent W r s e t).Finished := by
  obtain ⟨l, hl, -⟩ := (step_logged he).sent
  by_cases hold : .finished ∈ s.sent
  · exact (h hold).noteConsent e
  have hnew : .finished ∈ l := (List.mem_append.mp (hl ▸ hfin)).resolve_left hold
  have hne : e ≠ .message .finished := by
    rintro rfl
    rcases (step_answer he).2 with ⟨hnone, -⟩ | ⟨err, -, rfl⟩
    · exact absurd (hok.resolve_left (by simpa [SaidAll, hs] using hold)) (by simp [hnone])
    · exact hold hfin
  have hr := consents_of_finished hs hcons he hne hl hnew
  rw [noteConsent, noteFinished, if_neg hne]
  refine Record.finished_of_finish hr (List.count_pos_iff.mpr ?_)
  rw [hl, List.drop_left]
  exact hnew

end Receiver

section Runs

theorem init_not_ok : (init X W c).phase ≠ .ended (.ok ()) := by
  apply run_of_post (I := fun t => t.phase ≠ .ended (.ok ()))
  exact start_spec.mono (fun p t h => by simp [h.1]) (by simp)

theorem init_not_finished : .finished ∉ (init X W c).sent := by
  apply run_of_post (I := fun t => .finished ∉ t.sent)
  apply start_spec.mono
  · rintro p t ⟨-, ⟨-, rfl⟩ | ⟨-, key, msg, rfl⟩⟩ <;> simp [new]
  · rintro h t ⟨-, k, rfl⟩
    simp [new]

variable {p : Session X × Record}

/-- A session that has said all that it had to say has done all that it had to do. -/
theorem completed_of_saidAll
    (h : (recorded X W c).ReachableBy (fun p e => InTurn W c p.1 e) p)
    (hne : ∀ e, p.1.phase ≠ .ended (.error e)) (hall : SaidAll c p.1) : Completed c p.1 p.2 := by
  cases hs : c.isSender with
  | true =>
    have hoff : (∃ e, p.1.phase = .ended (.error e)) ∨ Offers c p.1 :=
      h.forget.invariant (P := fun s => (∃ e, s.phase = .ended (.error e)) ∨ Offers c s)
        (init_offers hs) fun _ _ _ _ hs' _ he => step_offers hs hs' he
    obtain ⟨files, hf⟩ := (if_pos hs).mp hall
    obtain ⟨henc, hip, hfiles⟩ := (hoff.resolve_left fun ⟨e, he⟩ => hne e he).offered files hf
    exact ⟨fun _ => ⟨henc, hip, files, hfiles, hf⟩, fun hs' => by simp [hs] at hs'⟩
  | false =>
    refine ⟨fun hs' => by simp [hs] at hs', fun _ => ?_⟩
    have hfin : .finished ∈ p.1.sent := by simpa [SaidAll, hs] using hall
    apply h.invariant (P := fun p => .finished ∈ p.1.sent → p.2.Finished) _ _ hfin
    · exact fun hinit => absurd hinit init_not_finished
    · intro p e p' hp hold hok he
      obtain ⟨hstep, hnote⟩ := Machine.observe_step.mp he
      rw [hnote]
      exact step_finished hs (reachable_consented hs hp.reachable) hold hok hstep

/-- While the peer waits for its turn to say `Finished`, `Ok` means that the session is
completed. -/
theorem inTurn_okMeansCompleted : OkMeansCompleted X W c (InTurn W c) where
  completed s r h hp := by
    refine completed_of_saidAll h (by simp [hp]) ?_
    apply h.forget.invariant (P := fun s => s.phase = .ended (.ok ()) → SaidAll c s) _ _ hp
    · exact fun hinit => absurd hinit init_not_ok
    · intro s e t _ hold hok he ht
      rcases step_ok he ht with hp | ⟨rfl, hnone⟩
      · exact (hold hp).step he
      · have hall : SaidAll c s := hok.resolve_right fun hne => hne hnone
        exact SaidAll.step (W := W) (e := .message .finished) hall he
  early s r t h hok he hnot := by
    obtain ⟨hp, ⟨hnone, -⟩ | ⟨e, -, rfl⟩⟩ := step_answer he
    · have hall : SaidAll c s := hok.resolve_right fun hne => hne hnone
      exact absurd (completed_of_saidAll h (by simp [hp]) hall) hnot
    · exact ⟨e, rfl⟩

def returnedOk : Phase → Bool
  | .ended (.ok ()) => true
  | _ => false

theorem eq_of_returnedOk {p : Phase} (h : returnedOk p = true) : p = .ended (.ok ()) := by
  unfold returnedOk at h
  split at h
  · rfl
  · cases h

/-- A sender that gets `Finished` as its first message returns `Ok`. -/
theorem first_finished_ok :
    ¬ OkMeansCompleted .transparent (.calm (.plain [] 5)) (.sender "12345abc" [])
      fun _ _ => True := by
  intro h
  obtain ⟨p, hp, hend⟩ := Machine.ReachableBy.exists_of_exec
    (M := recorded .transparent (.calm (.plain [] 5)) (.sender "12345abc" []))
    (fun _ _ => True) (fun p => returnedOk p.1.phase && p.1.encryptedSession.isNone)
    [.message .finished] (by decide +kernel)
  obtain ⟨s, r⟩ := p
  obtain ⟨hphase, hnone⟩ := Bool.and_eq_true_iff.mp hend
  have hsome : s.encryptedSession.isSome :=
    ((h.completed s r hp (eq_of_returnedOk hphase)).sender rfl).1
  rw [Option.isNone_iff_eq_none.mp hnone] at hsome
  cases hsome

end Runs
end Session
end Croc
