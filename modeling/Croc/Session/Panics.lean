import Croc.Session.Runs
import Croc.Session.Spec

/-! The panics of a session, and the messages of the peer that reach them. -/
namespace Croc
open Lib
namespace Session
variable {X : External} {W : World} {c : Setup} {s t : Session X}

def NeverPanics (X : External) (W : World) (c : Setup) (ok : Session X → Event → Prop) : Prop :=
  ∀ s, (machine X W c).ReachableBy ok s → ∀ p, s.phase ≠ .ended (.error (.panic p))

/-- Messages that an honest peer sends: no error report, no key that makes the update panic, no
offer to the sender, no folder that leads outside to a path that is not text, and only requests for
an entry of the list, to a sender that has offered it. -/
def Tame (W : World) (c : Setup) (s : Session X) : Event → Prop
  | .message (.typeError _) => False
  | .message (.pake msg) => ¬ UpdatePanics W c s msg
  | .message (.filesInfo files) => c.isSender = false ∧
    ∀ file ∈ files.emptyFoldersToTransfare.getD [], ∀ n path,
      W.os.canonicalize n file.remoteFolder = some path → W.os.cwd <+: path ∨ path.text ≠ none
  | .message (.typeRecipientReady msg) => c.isSender = true ∧ s.state = .fileTransfare ∧
    ∀ files list, c.files = some files → files.filesToTransfare = some list →
      msg.filesToTransferCurrentNum.toUInt64.toNat < list.length
  | _ => True

/-- Where the receive loop runs. -/
def InLoop : Phase → Prop
  | .nextFile _ | .chunks .. => True
  | _ => False

/-- What keeps the unwraps of a session safe. -/
structure Sound (c : Setup) (s : Session X) : Prop where
  rw : s.state ≠ .keyExchange → ∃ rw, s.rw = some rw
  files : c.isSender = false → s.state = .fileTransfare → ∃ list, s.toReceive = some list
  loop : InLoop s.phase → s.state = .fileTransfare
  calm : ∀ p, s.phase ≠ .ended (.error (.panic p))

/-- A step that leaves the fields of the invariant alone keeps it in a phase that does not panic. -/
theorem Sound.of_same (h : Sound c s) (hst : t.state = s.state) (hrw : t.rw = s.rw)
    (hf : t.filesToReceive = s.filesToReceive) (hloop : InLoop t.phase → t.state = .fileTransfare)
    (hcalm : ∀ p, t.phase ≠ .ended (.error (.panic p))) : Sound c t where
  rw hne := by rw [hrw]; exact h.rw (hst ▸ hne)
  files hs hft := by rw [toReceive, hf]; exact h.files hs (hst ▸ hft)
  loop := hloop
  calm := hcalm

theorem Sound.of_err (h : Sound c s) (hst : t.state = s.state) (hrw : t.rw = s.rw)
    (hf : t.filesToReceive = s.filesToReceive) (hp : ∃ e, t.phase = .ended (.error (.err e))) :
    Sound c t := by
  obtain ⟨e, hp⟩ := hp
  exact h.of_same hst hrw hf (by simp [hp, InLoop]) (by simp [hp])

theorem afterMessage_sound (h : Sound c s) (hfiles : c.isSender = true → c.files ≠ none) :
    Sound c (run (afterMessage W c) s) := by
  apply run_of_post
  apply afterMessage_spec.mono
  · rintro p t (⟨rfl, rfl, -⟩ | ⟨rfl, hs, hst, files, -, rfl⟩ | ⟨rfl, hs, hst, -, rfl⟩)
    · exact h.of_same rfl rfl rfl (by simp [InLoop]) (by simp)
    · refine ⟨fun _ => h.rw (by simp [hst]), fun hs' => by simp [hs] at hs', ?_, by simp⟩
      simp [InLoop]
    · exact h.of_same rfl rfl rfl (fun _ => hst) (by simp)
  · rintro h' t ⟨rfl, ⟨hs, hst, ⟨e, rfl⟩ | ⟨rfl, hnone⟩⟩ | ⟨hs, hst, rfl, hnone⟩⟩
    · exact h.of_err rfl rfl rfl ⟨e, rfl⟩
    · exact absurd hnone (hfiles hs)
    · obtain ⟨list, hl⟩ := h.files hs hst
      simp [hnone] at hl

theorem onPake_sound (hX : X.UpdateSetsKey) (htail : ∃ tail, c.secretTail = .ok tail)
    (h : Sound c s) {msg : PakeMessage} (hok : ¬ UpdatePanics W c s msg) :
    Sound c (run (onMessage W c (.pake msg)) s) := by
  apply run_of_post
  apply (onPake_spec msg).mono
  · rintro p t ⟨rfl, key, enc, m, -, -, rfl⟩
    exact ⟨fun _ => ⟨_, rfl⟩, by simp, by simp [InLoop], by simp⟩
  · rintro h' t ⟨hh, k, enc, l, -, rfl⟩
    rcases hh with ⟨e, rfl⟩ | ⟨-, hc⟩ | ⟨rfl, key, ⟨p, q, hu⟩, hk⟩ | ⟨-, hpanics⟩
    · exact h.of_err rfl rfl rfl ⟨e, rfl⟩
    · obtain ⟨tail, htail⟩ := htail
      simp [htail] at hc
    · have := hX p q key hu
      simp [hk] at this
    · exact absurd hpanics hok

/-- A key that makes the update panic takes the session down with it. -/
theorem onPake_panics {msg : PakeMessage} (h : UpdatePanics W c s msg) :
    (run (onMessage W c (.pake msg)) s).phase = .ended (.error (.panic .pakeUpdate)) := by
  apply run_of_post (I := fun t => t.phase = .ended (.error (.panic .pakeUpdate)))
  unfold UpdatePanics at h
  split at h
  next hs =>
    obtain ⟨hcurve, pw, text, q, hpw, htext, hq, hu⟩ := h
    simp [onMessage, processKeyExchange, agreeKey, answerKey, hs, hcurve, hpw, htext, hq, hu,
      PakeFailure.halt]
  next hs =>
    obtain ⟨key, q, hkey, hq, hu⟩ := h
    simp [onMessage, processKeyExchange, agreeKey, takeKey, hs, hkey, hq, hu, PakeFailure.halt]

theorem onExternalIP_sound (h : Sound c s) (hfiles : c.isSender = true → c.files ≠ none)
    (msg : ExternalIPMessage) : Sound c (run (onMessage W c (.externalIP msg)) s) := by
  apply run_of_post
  apply (onExternalIP_spec msg).mono
  · rintro p t ⟨rfl, hst, ⟨hs, rfl⟩ | ⟨hs, files, -, rfl⟩⟩
    · exact ⟨fun _ => h.rw (by simp [hst]), by simp, by simp [InLoop], by simp⟩
    · refine ⟨fun _ => h.rw (by simp [hst]), fun hs' => by simp [hs] at hs', ?_, by simp⟩
      simp [InLoop]
  · rintro h' t ⟨hh, ht⟩
    rcases hh with ⟨e, rfl⟩ | ⟨-, hs, hnone⟩
    · rcases ht with ⟨rfl, -⟩ | ⟨hst, -, rfl⟩
      · exact h.of_err rfl rfl rfl ⟨e, rfl⟩
      · exact ⟨fun _ => h.rw (by simp [hst]), by simp, by simp [InLoop], by simp⟩
    · exact absurd hnone (hfiles hs)

theorem onFilesInfo_sound (h : Sound c s) {files : FilesInformation}
    (ht : Tame W c s (.message (.filesInfo files))) :
    Sound c (run (onMessage W c (.filesInfo files)) s) := by
  obtain ⟨hs, hpath⟩ := ht
  by_cases hst : s.state = .fileInfoTransfare
  · apply run_of_post
    apply (onFilesInfo_spec hs hst files).mono
    · rintro p t ⟨u, ⟨n, q, l, -, rfl⟩, ⟨rfl, -, rfl⟩ | ⟨rfl, hsome, rfl⟩⟩
      · exact ⟨fun _ => h.rw (by simp [hst]), by simp, by simp [InLoop], by simp⟩
      · refine ⟨fun _ => h.rw (by simp [hst]), fun _ _ => ?_, fun _ => rfl, by simp⟩
        exact Option.ne_none_iff_exists'.mp hsome
    · rintro h' t ⟨hh, u, l', ⟨n, q, l, -, rfl⟩, -, rfl⟩
      rcases hh with ⟨e, rfl⟩ | ⟨-, file, hfile, m, path, hc, hout, hn⟩
      · refine ⟨fun _ => h.rw (by simp [hst]), fun _ hft => ?_, by simp [InLoop], by simp⟩
        simp [hst] at hft
      · exact ((hpath file hfile m path hc).elim hout fun hne => hne hn).elim
  · rw [onFilesInfo_invalid hs hst]
    exact h.of_err rfl rfl rfl ⟨_, rfl⟩

theorem onRequest_sound (h : Sound c s) (hfiles : c.isSender = true → c.files ≠ none)
    {msg : RemoteFileRequest} (ht : Tame W c s (.message (.typeRecipientReady msg))) :
    Sound c (run (onMessage W c (.typeRecipientReady msg)) s) := by
  obtain ⟨hs, hst, hindex⟩ := ht
  apply run_of_post
  apply (onRequest_spec msg).mono
  · rintro p t ⟨rw, files, jobs, -, -, rfl, -, -, ⟨-, -, rfl⟩ | ⟨-, -, -, -, -, -, -, rfl⟩⟩
    · exact h.of_same rfl rfl rfl (by simp [InLoop]) (by simp)
    · exact h.of_same rfl rfl rfl (by simp [InLoop]) (by simp)
  · rintro h' t ⟨hh, n, rfl⟩
    rcases hh with ⟨e, rfl⟩ | ⟨-, hrw⟩ | ⟨-, hnone⟩ | ⟨-, hs'⟩ | ⟨-, hst'⟩ |
      ⟨-, files, list, hf, hl, hle⟩
    · exact h.of_err rfl rfl rfl ⟨e, rfl⟩
    · obtain ⟨rw, hrw'⟩ := h.rw (by simp [hst])
      simp [hrw] at hrw'
    · exact absurd hnone (hfiles hs)
    · simp [hs] at hs'
    · exact absurd hst hst'
    · have := hindex files list hf hl
      omega

theorem proceed_sound (h : Sound c s) (hfiles : c.isSender = true → c.files ≠ none)
    {x : Proc X Phase} (hx : proceed W c s = some x) : Sound c (run x s) := by
  rcases proceed_cases hx with ⟨rw, -, rfl⟩ | ⟨rw, job, jobs, -, rfl⟩ | ⟨index, hp, rfl⟩ |
    ⟨index, loc, total, got, hp, -, rfl⟩
  · exact afterMessage_sound h hfiles
  · apply run_handChunk
    · exact h.of_same rfl rfl rfl (by simp [InLoop]) (by simp)
    · exact fun e => h.of_err rfl rfl rfl ⟨e, rfl⟩
  · have hst : s.state = .fileTransfare := h.loop (by simp [hp, InLoop])
    apply run_of_post
    apply (requestFile_spec index).mono
    · rintro p t (⟨-, rfl, rfl⟩ | ⟨file, loc, -, -, rfl, rfl⟩)
      · exact h.of_same rfl rfl rfl (by simp [InLoop]) (by simp)
      · exact h.of_same rfl rfl rfl (fun _ => hst) (by simp)
    · rintro h' t ⟨⟨e, rfl⟩, rfl | ⟨file, -, n, disk, dests, rfl⟩⟩
      · exact h.of_err rfl rfl rfl ⟨e, rfl⟩
      · exact h.of_err rfl rfl rfl ⟨e, rfl⟩
  · have hst : s.state = .fileTransfare := h.loop (by simp [hp, InLoop])
    exact h.of_same rfl rfl rfl (fun _ => hst) (by simp [run, pure, EStateM.pure])

theorem step_sound (hX : X.UpdateSetsKey) (htail : ∃ tail, c.secretTail = .ok tail)
    (hfiles : c.isSender = true → c.files ≠ none) (h : Sound c s) {e : Event}
    (hok : Tame W c s e) (he : step W c s e = some t) : Sound c t := by
  rcases step_cases he with ⟨m, rfl, -, rfl⟩ | ⟨err, rfl, -, rfl⟩ |
    ⟨frame, index, loc, total, got, rfl, hp, -, -, rfl⟩ | ⟨rfl, rfl⟩ | ⟨x, rfl, hx, rfl⟩ |
    ⟨t', rfl, ht, he⟩
  · cases m with
    | pake msg => exact onPake_sound hX htail h hok
    | externalIP msg => exact onExternalIP_sound h hfiles msg
    | filesInfo files => exact onFilesInfo_sound h hok
    | typeRecipientReady msg => exact onRequest_sound h hfiles hok
    | typeError msg => exact hok.elim
    | finished =>
      apply run_finished
      · exact h.of_same rfl rfl rfl (by simp [InLoop]) (by simp)
      · exact fun e => h.of_err rfl rfl rfl ⟨e, rfl⟩
  · exact h.of_err rfl rfl rfl ⟨err, rfl⟩
  · have hst : s.state = .fileTransfare := h.loop (by simp [hp, InLoop])
    apply run_of_post
    apply (takeChunk_spec index loc total got frame).mono
    · rintro p t ⟨rfl, rw, -, rfl⟩
      exact h.of_same rfl rfl rfl (fun _ => hst) (by simp)
    · rintro h' t ⟨-, hnone, -⟩
      obtain ⟨rw, hrw⟩ := h.rw (by simp [hst])
      simp [hnone] at hrw
  · exact h.of_same rfl rfl rfl h.loop h.calm
  · exact proceed_sound h hfiles hx
  · obtain ⟨readers, encrypting, dataSent, writers, written, disk, rfl⟩ := stepTask_background ht he
    exact h.of_same rfl rfl rfl h.loop h.calm

theorem init_sound (htail : ∃ tail, c.secretTail = .ok tail) : Sound c (init X W c) := by
  apply run_of_post
  apply start_spec.mono
  · rintro p t ⟨rfl, ⟨-, rfl⟩ | ⟨-, key, msg, rfl⟩⟩
    · exact ⟨by simp [new], by simp [new], by simp [InLoop], by simp⟩
    · exact ⟨by simp [new], by simp [new], by simp [InLoop], by simp⟩
  · rintro h t ⟨hh, k, rfl⟩
    rcases hh with ⟨e, rfl⟩ | ⟨-, hno⟩
    · exact ⟨by simp [new], by simp [new], by simp [InLoop], by simp⟩
    · obtain ⟨tail, htail⟩ := htail
      exact absurd htail (hno tail)

/-- A session with a secret that can be sliced never panics on the messages of a tame peer. -/
theorem tame_neverPanics (hX : X.UpdateSetsKey) (htail : ∃ tail, c.secretTail = .ok tail)
    (hfiles : c.isSender = true → c.files ≠ none) : NeverPanics X W c (Tame W c) := by
  intro s hs
  suffices Sound c s from this.calm
  exact hs.invariant (P := Sound c) (init_sound htail)
    fun s e s' _ h hok he => step_sound hX htail hfiles h hok he

theorem transparent_not_updatePanics (s : Session .transparent) (msg : PakeMessage) :
    ¬ UpdatePanics W c s msg := by
  unfold UpdatePanics
  split
  · rintro ⟨-, pw, text, q, -, -, -, hu⟩
    cases hu
  · rintro ⟨key, q, -, -, hu⟩
    cases hu

/-- A sender of two files. -/
def twoEntries : Setup := .sender "12345abc" [.plain "a.txt" "" 5, .plain "b.txt" "" 5]

/-- Requests for an entry of the list, once it has been offered, among messages that are no report
and no offer. -/
def Requests (s : Session X) : Event → Prop
  | .message (.typeError _) | .message (.filesInfo _) => False
  | .message (.typeRecipientReady msg) =>
    s.state = .fileTransfare ∧ msg.filesToTransferCurrentNum.toUInt64.toNat < 2
  | _ => True

instance (s : Session X) : ∀ e, Decidable (Requests s e)
  | .message (.typeError _) | .message (.filesInfo _) => inferInstanceAs (Decidable False)
  | .message (.typeRecipientReady msg) => inferInstanceAs (Decidable
      (s.state = .fileTransfare ∧ msg.filesToTransferCurrentNum.toUInt64.toNat < 2))
  | .message (.pake _) | .message (.externalIP _) | .message .finished | .recvFailed _ | .chunk _
  | .dataClosed | .task _ => inferInstanceAs (Decidable True)

theorem tame_of_requests {s : Session .transparent} {e : Event} (h : Requests s e) :
    Tame W twoEntries s e := by
  cases e with
  | message m =>
    cases m with
    | pake msg => exact transparent_not_updatePanics s msg
    | typeRecipientReady msg =>
      refine ⟨rfl, h.1, fun files list hfiles hlist => ?_⟩
      obtain rfl := Option.some.inj hfiles
      obtain rfl := Option.some.inj hlist
      exact h.2
    | typeError msg => exact h.elim
    | filesInfo files => exact h.elim
    | externalIP msg => trivial
    | finished => trivial
  | recvFailed e => trivial
  | chunk frame => trivial
  | dataClosed => trivial
  | task t => trivial

/-- A peer that asks for the second file, and for the first one when a chunk of it has been sent. -/
theorem tame_neverPanics_sender : ∃ s,
    (machine .transparent (.calm (.plain [] 5)) twoEntries).ReachableBy
      (Tame (.calm (.plain [] 5)) twoEntries) s ∧
    s.dataSent.length = 1 ∧ s.calls = 2 ∧ ∀ p, s.phase ≠ .ended (.error (.panic p)) := by
  obtain ⟨s, hs, htest⟩ := Machine.ReachableBy.exists_of_exec
    (M := machine .transparent (.calm (.plain [] 5)) twoEntries) Requests
    (fun s => s.dataSent.length == 1 && s.calls == 2)
    (receiverHello ++ [.message (fileRequest 1), .task .tick, .task .tick,
      .task (.read 0 (asBytes "hello")), .task (.encrypt 0 (External.padBlock 12 [])),
      .message (fileRequest 0)]) (by decide +kernel)
  obtain ⟨hsent, hcalls⟩ := (Bool.and_eq_true _ _).mp htest
  have htame : (machine .transparent (.calm (.plain [] 5)) twoEntries).ReachableBy
    (Tame (.calm (.plain [] 5)) twoEntries) s := hs.mono fun _ _ h => tame_of_requests h
  exact ⟨s, htame, by simpa using hsent, by simpa using hcalls,
    tame_neverPanics External.transparent_updateSetsKey ⟨_, rfl⟩
      (fun _ => by simp [twoEntries, Setup.sender]) s htame⟩

/-- An error report of the peer reaches a `todo!`. -/
theorem error_report_panics :
    ¬ NeverPanics .transparent (.calm (.plain [] 5)) (.sender "12345abc" []) fun _ _ => True := by
  intro h
  obtain ⟨s, hs, hp⟩ := Machine.ReachableBy.exists_of_exec
    (M := machine .transparent (.calm (.plain [] 5)) (.sender "12345abc" []))
    (fun _ _ => True) (fun s => match s.phase with
      | .ended (.error (.panic p)) => p == .todoTypeError
      | _ => false) [.message (.typeError ⟨"refusing files"⟩)] (by decide +kernel)
  split at hp
  next p hphase => exact h s hs p hphase
  · simp at hp

end Session
end Croc
