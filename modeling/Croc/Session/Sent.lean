import Croc.Session.Order

/-! What a step of a session may send, and the order in which a receiver asks for files. -/
namespace Croc
open Lib
namespace Session
variable {X : External} {W : World} {c : Setup} {s t : Session X}

/-- The messages that an event can make an end send. -/
def MaySend (c : Setup) (e : Event) : Message → Prop
  | .pake _ => c.isSender = true ∧ ∃ msg, e = .message (.pake msg)
  | .filesInfo files => c.isSender = true ∧ c.files = some files
  | .typeRecipientReady _ => e = .task .tick
  | .externalIP _ | .typeError _ | .finished => True

/-- What a step does to the messages sent and to the offer received. -/
structure Logged (c : Setup) (e : Event) (s t : Session X) : Prop where
  sent : ∃ l, t.sent = s.sent ++ l ∧ ∀ m ∈ l, MaySend c e m
  files : t.filesToReceive = s.filesToReceive ∨
    ∃ files, e = .message (.filesInfo files) ∧ t.filesToReceive = some files

theorem Logged.quiet {e : Event} (hs : t.sent = s.sent)
    (hf : t.filesToReceive = s.filesToReceive) : Logged c e s t :=
  ⟨⟨[], by simp [hs], by simp⟩, Or.inl hf⟩

theorem Logged.says {e : Event} {l : List Message} (hs : t.sent = s.sent ++ l)
    (hl : ∀ m ∈ l, MaySend c e m) (hf : t.filesToReceive = s.filesToReceive) :
    Logged c e s t :=
  ⟨⟨l, hs, hl⟩, Or.inl hf⟩

theorem afterMessage_logged {e : Event} : Logged c e s (run (afterMessage W c) s) := by
  apply run_of_post
  apply afterMessage_spec.mono
  · rintro p t (⟨-, rfl, -⟩ | ⟨-, hs, -, files, hf, rfl⟩ | ⟨-, -, -, -, rfl⟩)
    · exact Logged.quiet rfl rfl
    · exact Logged.says rfl (by simpa [MaySend] using ⟨hs, hf⟩) rfl
    · exact Logged.quiet rfl rfl
  · rintro h t ⟨rfl, -⟩
    exact Logged.quiet rfl rfl

theorem onFilesInfo_logged (files : FilesInformation) :
    Logged c (.message (.filesInfo files)) s (run (onMessage W c (.filesInfo files)) s) := by
  apply run_onFilesInfo
  · exact fun _ => Logged.quiet rfl rfl
  · exact fun _ _ => Logged.quiet rfl rfl
  · intro hs hst
    apply (onFilesInfo_spec hs hst files).mono
    · rintro p t ⟨u, ⟨n, q, l, -, rfl⟩, ⟨-, -, rfl⟩ | ⟨-, -, rfl⟩⟩
      · exact ⟨⟨[.finished], rfl, by simp [MaySend]⟩, Or.inr ⟨files, rfl, rfl⟩⟩
      · exact ⟨⟨[], by simp, by simp⟩, Or.inr ⟨files, rfl, rfl⟩⟩
    · rintro h t ⟨-, u, l', ⟨n, q, l, -, rfl⟩, hl', rfl⟩
      refine ⟨⟨l', rfl, ?_⟩, Or.inr ⟨files, rfl, rfl⟩⟩
      rcases hl' with rfl | ⟨msg, rfl⟩
      · simp
      · simp [MaySend]

theorem onMessage_logged (m : Message) :
    Logged c (.message m) s (run (onMessage W c m) s) := by
  cases m with
  | pake msg =>
    apply run_of_post
    apply (onPake_spec msg).mono
    · rintro p t ⟨-, key, enc, m, -, hm, rfl⟩
      refine Logged.says rfl ?_ rfl
      rcases hm with ⟨hs, msg, rfl⟩ | ⟨-, rfl⟩
      · simp [MaySend, hs]
      · simp [MaySend]
    · rintro h t ⟨-, k, enc, l, hl, rfl⟩
      refine Logged.says rfl ?_ rfl
      rcases hl with rfl | ⟨msg, rfl, hs⟩
      · simp
      · simp [MaySend, hs]
  | externalIP msg =>
    apply run_of_post
    apply (onExternalIP_spec msg).mono
    · rintro p t ⟨-, -, ⟨-, rfl⟩ | ⟨hs, files, hf, rfl⟩⟩
      · exact Logged.quiet rfl rfl
      · exact Logged.says rfl (by simp [MaySend, hs, hf]) rfl
    · rintro h t ⟨-, ⟨rfl, -⟩ | ⟨-, -, rfl⟩⟩
      · exact Logged.quiet rfl rfl
      · exact Logged.says rfl (by simp [MaySend]) rfl
  | filesInfo files => exact onFilesInfo_logged files
  | typeRecipientReady msg =>
    apply run_of_post
    apply (onRequest_spec msg).mono
    · rintro p t ⟨rw, files, jobs, -, -, -, -, -, ⟨-, -, rfl⟩ | ⟨-, -, -, -, -, -, -, rfl⟩⟩
      · exact Logged.quiet rfl rfl
      · exact Logged.quiet rfl rfl
    · rintro h t ⟨-, n, rfl⟩
      exact Logged.quiet rfl rfl
  | typeError msg => exact Logged.quiet rfl rfl
  | finished =>
    apply run_finished
    · exact Logged.says rfl (by simp [MaySend]) rfl
    · exact fun e => Logged.quiet rfl rfl

theorem proceed_logged {x : Proc X Phase} (hx : proceed W c s = some x) :
    Logged c (.task .tick) s (run x s) := by
  rcases proceed_cases hx with ⟨rw, -, rfl⟩ | ⟨rw, job, jobs, -, rfl⟩ | ⟨index, -, rfl⟩ |
    ⟨index, loc, total, got, -, -, rfl⟩
  · exact afterMessage_logged
  · apply run_handChunk
    · exact Logged.quiet rfl rfl
    · exact fun e => Logged.quiet rfl rfl
  · apply run_of_post
    apply (requestFile_spec index).mono
    · rintro p t (⟨-, -, rfl⟩ | ⟨file, loc, -, -, -, rfl⟩)
      · exact Logged.says rfl (by simp [MaySend]) rfl
      · exact Logged.says rfl (by simp [MaySend, fileRequest]) rfl
    · rintro h t ⟨-, rfl | ⟨file, -, n, disk, dests, rfl⟩⟩
      · exact Logged.quiet rfl rfl
      · exact Logged.quiet rfl rfl
  · exact Logged.quiet rfl rfl

theorem step_logged {e : Event} (h : step W c s e = some t) : Logged c e s t := by
  rcases step_cases h with ⟨m, rfl, -, rfl⟩ | ⟨err, rfl, -, rfl⟩ |
    ⟨frame, index, loc, total, got, rfl, -, -, -, rfl⟩ | ⟨rfl, rfl⟩ | ⟨x, rfl, hx, rfl⟩ |
    ⟨t', rfl, ht, h⟩
  · exact onMessage_logged m
  · exact Logged.quiet rfl rfl
  · apply run_of_post
    apply (takeChunk_spec index loc total got frame).mono
    · rintro p t ⟨-, rw, -, rfl⟩
      exact Logged.quiet rfl rfl
    · rintro h t ⟨-, -, rfl⟩
      exact Logged.quiet rfl rfl
  · exact Logged.quiet rfl rfl
  · exact proceed_logged hx
  · obtain ⟨readers, encrypting, dataSent, writers, written, disk, rfl⟩ := stepTask_background ht h
    exact Logged.quiet rfl rfl

section Requests

def isRequest : Message → Bool
  | .typeRecipientReady _ => true
  | _ => false

/-- The requests among the messages sent. -/
def requests (sent : List Message) : List Message := sent.filter isRequest

@[simp] theorem requests_append (l l' : List Message) :
    requests (l ++ l') = requests l ++ requests l' := List.filter_append ..

/-- The first `r` entries of the list have been requested, in order. -/
def Asked (s : Session X) (r : ℕ) : Prop :=
  requests s.sent = (List.range r).map fileRequest ∧
    (r = 0 ∨ ∃ list, s.toReceive = some list ∧ r ≤ list.length)

/-- How far a receiver has come with its requests, by where it is. -/
def AskedIn (s : Session X) (r : ℕ) : Phase → Prop
  | .recv => s.state ≠ .fileTransfare → r = 0
  | .sending .. => False
  | .nextFile i => s.state = .fileTransfare ∧ r = i
  | .chunks i _ total _ => s.state = .fileTransfare ∧ r = i + 1 ∧
      ∃ file, s.toReceive.bind (·[i]?) = some file ∧ total = totalChunks file
  | .ended _ => True

/-- A receiver asks for the entries of its list one by one, once. -/
def Asks (s : Session X) : Prop := ∃ r, Asked s r ∧ AskedIn s r s.phase

/-- What has been requested stays so while the list does. -/
theorem Asked.keep {r : ℕ} (h : Asked s r) (hs : requests t.sent = requests s.sent)
    (hf : t.filesToReceive = s.filesToReceive ∨ r = 0) : Asked t r := by
  refine ⟨hs.trans h.1, ?_⟩
  rcases hf with hf | hr
  · rw [toReceive, hf]
    exact h.2
  · exact Or.inl hr

/-- Only the next step of the file loop makes a receiver ask. -/
theorem requests_of_logged {e : Event} (h : Logged c e s t) (he : e ≠ .task .tick) :
    requests t.sent = requests s.sent := by
  obtain ⟨l, hl, hm⟩ := h.sent
  have hnone : requests l = [] := by
    refine List.filter_eq_nil_iff.mpr fun m hmem => ?_
    cases m with
    | typeRecipientReady msg => exact absurd (hm _ hmem) he
    | _ => simp [isRequest]
  rw [hl, requests_append, hnone, List.append_nil]

/-- A message to a receiver that has not come to its file loop. -/
theorem receiver_message_cases (hs : c.isSender = false) {m : Message}
    (hok : InOrder c s (.message m)) :
    (∃ (p : Phase) (t : Session X), run (onMessage W c m) s = { t with phase := p } ∧
      s.state ≠ .fileTransfare ∧
      ((p = .recv ∧ t.state ≠ .fileTransfare) ∨ (p = .nextFile 0 ∧ t.state = .fileTransfare))) ∨
    ∃ (r : Except Halt Unit) (t : Session X),
      run (onMessage W c m) s = { t with phase := .ended r } := by
  cases m with
  | pake msg =>
    have hst : s.state = .keyExchange := hok
    rcases run_cases (onPake_spec (W := W) (c := c) (s := s) msg) with
      ⟨p, t, ht, rfl, key, enc, m, -, -, rfl⟩ | ⟨h, t, ht, -⟩
    · exact Or.inl ⟨_, _, ht, by simp [hst], Or.inl ⟨rfl, by simp⟩⟩
    · exact Or.inr ⟨_, t, ht⟩
  | externalIP msg =>
    rcases run_cases (onExternalIP_spec (W := W) (c := c) (s := s) msg) with
      ⟨p, t, ht, rfl, hst, ⟨-, rfl⟩ | ⟨hs', -⟩⟩ | ⟨h, t, ht, -⟩
    · exact Or.inl ⟨_, _, ht, by simp [hst], Or.inl ⟨rfl, by simp⟩⟩
    · simp [hs] at hs'
    · exact Or.inr ⟨_, t, ht⟩
  | filesInfo files =>
    by_cases hst : s.state = .fileInfoTransfare
    · rcases run_cases (onFilesInfo_spec (W := W) hs hst files) with
        ⟨p, t, ht, u, -, ⟨rfl, -, rfl⟩ | ⟨rfl, -, rfl⟩⟩ | ⟨h, t, ht, -⟩
      · exact Or.inl ⟨_, _, ht, by simp [hst], Or.inl ⟨rfl, by simp⟩⟩
      · exact Or.inl ⟨_, _, ht, by simp [hst], Or.inr ⟨rfl, rfl⟩⟩
      · exact Or.inr ⟨_, t, ht⟩
    · exact Or.inr ⟨_, _, onFilesInfo_invalid hs hst files⟩
  | typeRecipientReady msg =>
    rcases run_cases (onRequest_spec (W := W) (c := c) (s := s) msg) with
      ⟨p, t, ht, rw, files, jobs, -, -, -, hs', -⟩ | ⟨h, t, ht, -⟩
    · simp [hs] at hs'
    · exact Or.inr ⟨_, t, ht⟩
  | typeError msg => exact Or.inr ⟨_, s, rfl⟩
  | finished =>
    have hpost : Post (onMessage W c .finished) s (fun p _ => p = .ended (.ok ()))
        fun _ _ => True := by
      unfold onMessage
      rw [post_bind, post_send]
      exact ⟨fun _ => rfl, fun _ _ => trivial⟩
    rcases run_cases hpost with ⟨p, t, ht, rfl⟩ | ⟨h, t, ht, -⟩
    · exact Or.inr ⟨_, t, ht⟩
    · exact Or.inr ⟨_, t, ht⟩

theorem onMessage_asks (hs : c.isSender = false) (h : Asks s) (hp : s.phase = .recv)
    {m : Message} (hok : InOrder c s (.message m)) : Asks (run (onMessage W c m) s) := by
  obtain ⟨r, hr, hin⟩ := h
  rw [hp] at hin
  have hin : s.state ≠ .fileTransfare → r = 0 := hin
  have hlog := onMessage_logged (W := W) (c := c) (s := s) m
  have hkeep : Asked (run (onMessage W c m) s) r := by
    refine hr.keep (requests_of_logged hlog (by simp)) ?_
    rcases hlog.files with hf | ⟨files, he, hf⟩
    · exact Or.inl hf
    · obtain rfl := Event.message.inj he
      by_cases hst : s.state = .fileInfoTransfare
      · exact Or.inr (hin (by simp [hst]))
      · exact Or.inl (by rw [onFilesInfo_invalid hs hst])
  refine ⟨r, hkeep, ?_⟩
  rcases receiver_message_cases (W := W) hs hok with ⟨p, t, ht, hst, ⟨rfl, -⟩ | ⟨rfl, hft⟩⟩ |
    ⟨res, t, ht⟩
  · rw [ht]
    exact fun _ => hin hst
  · rw [ht]
    exact ⟨hft, hin hst⟩
  · rw [ht]
    trivial

theorem requestFile_asks {i : ℕ} (h : Asks s) (hp : s.phase = .nextFile i) :
    Asks (run (requestFile W i) s) := by
  obtain ⟨r, hr, hin⟩ := h
  rw [hp] at hin
  obtain ⟨hst, rfl⟩ : s.state = .fileTransfare ∧ r = i := hin
  apply run_of_post
  apply (requestFile_spec r).mono
  · rintro p t (⟨-, rfl, rfl⟩ | ⟨file, loc, hf, -, rfl, rfl⟩)
    · exact ⟨r, hr.keep (by simp [requests, isRequest]) (Or.inl rfl), fun hne => absurd hst hne⟩
    · refine ⟨r + 1, ⟨?_, Or.inr ?_⟩, hst, rfl, file, hf, rfl⟩
      · rw [requests_append, hr.1, List.range_succ, List.map_append]
        rfl
      · obtain ⟨list, hl, hi⟩ := Option.bind_eq_some_iff.mp hf
        obtain ⟨hlt, -⟩ := List.getElem?_eq_some_iff.mp hi
        exact ⟨list, hl, hlt⟩
  · rintro h t ⟨-, rfl | ⟨file, -, n, disk, dests, rfl⟩⟩
    · exact ⟨r, hr.keep rfl (Or.inl rfl), trivial⟩
    · exact ⟨r, hr.keep rfl (Or.inl rfl), trivial⟩

/-- A receiver whose peer keeps the order asks for its files in order, once. -/
theorem step_asks (hs : c.isSender = false) (h : Asks s) {e : Event} (hok : InOrder c s e)
    (he : step W c s e = some t) : Asks t := by
  rcases step_cases he with ⟨m, rfl, hp, rfl⟩ | ⟨err, rfl, -, rfl⟩ |
    ⟨frame, index, loc, total, got, rfl, hp, -, -, rfl⟩ | ⟨rfl, rfl⟩ | ⟨x, rfl, hx, rfl⟩ |
    ⟨t', rfl, ht, he⟩
  · exact onMessage_asks hs h hp hok
  · obtain ⟨r, hr, -⟩ := h
    exact ⟨r, hr.keep rfl (Or.inl rfl), trivial⟩
  · obtain ⟨r, hr, hin⟩ := h
    rw [hp] at hin
    apply run_of_post
    apply (takeChunk_spec index loc total got frame).mono
    · rintro p t ⟨rfl, rw, -, rfl⟩
      exact ⟨r, hr.keep rfl (Or.inl rfl), hin⟩
    · rintro h t ⟨-, -, rfl⟩
      exact ⟨r, hr.keep rfl (Or.inl rfl), trivial⟩
  · obtain ⟨r, hr, hin⟩ := h
    exact ⟨r, hr.keep rfl (Or.inl rfl), hin⟩
  · rcases proceed_cases hx with ⟨rw, hp, rfl⟩ | ⟨rw, job, jobs, hp, rfl⟩ | ⟨index, hp, rfl⟩ |
      ⟨index, loc, total, got, hp, -, rfl⟩
    · obtain ⟨r, -, hin⟩ := h
      rw [hp] at hin
      exact hin.elim
    · obtain ⟨r, -, hin⟩ := h
      rw [hp] at hin
      exact hin.elim
    · exact requestFile_asks h hp
    · obtain ⟨r, hr, hin⟩ := h
      rw [hp] at hin
      exact ⟨r, hr.keep rfl (Or.inl rfl), hin.1, hin.2.1⟩
  · obtain ⟨readers, encrypting, dataSent, writers, written, disk, rfl⟩ := stepTask_background ht he
    obtain ⟨r, hr, hin⟩ := h
    exact ⟨r, hr.keep rfl (Or.inl rfl), hin⟩

end Requests
end Session
end Croc
