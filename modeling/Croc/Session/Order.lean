import Croc.Session.Runs
import Croc.Session.Spec

/-! The order of the session states: nothing but a second key message, or files offered to the
sender, can disturb it. -/
namespace Croc
open Lib Relation
namespace Session
variable {X : External} {W : World} {c : Setup} {s t : Session X}

/-- A message of the first three kinds in another state than its own; the sender has none for
FilesInfo. -/
def Misplaced (c : Setup) (s : Session X) : Message → Prop
  | .pake _ => s.state ≠ .keyExchange
  | .externalIP _ => s.state ≠ .ipExchange
  | .filesInfo _ => c.isSender = true ∨ s.state ≠ .fileInfoTransfare
  | _ => False

/-- A later state of a session: no step back, and no other key once there is one. -/
structure Ordered (s t : Session X) : Prop where
  forward : s.state.rank ≤ t.state.rank
  kept : s.state ≠ .keyExchange → t.key = s.key ∧ t.encryptedSession = s.encryptedSession

/-- Along every run of steps that meet `ok` the states are ordered, and a misplaced message ends
the session with an error and without an answer. -/
def KeepsOrder (X : External) (W : World) (c : Setup) (ok : Session X → Event → Prop) : Prop :=
  ∀ s t, (machine X W c).ReachableBy ok s → ReflTransGen ((machine X W c).Next ok) s t →
    Ordered s t ∧ ∀ m u, ok t (.message m) → Misplaced c t m →
      step W c t (.message m) = some u →
      (∃ e, u.phase = .ended (.error (.err e))) ∧ u.sent = t.sent

/-- No key message after the key exchange, and no files offered to the sender. -/
def InOrder (c : Setup) (s : Session X) : Event → Prop
  | .message (.pake _) => s.state = .keyExchange
  | .message (.filesInfo _) => c.isSender = false
  | _ => True

theorem Ordered.refl (s : Session X) : Ordered s s := ⟨le_rfl, fun _ => ⟨rfl, rfl⟩⟩

theorem ClientState.eq_keyExchange_of_rank {a b : ClientState} (h : a.rank ≤ b.rank)
    (hb : b = .keyExchange) : a = .keyExchange := by
  subst hb
  cases a <;> simp_all [ClientState.rank]

theorem Ordered.trans {u : Session X} (h : Ordered s t) (h' : Ordered t u) : Ordered s u := by
  refine ⟨h.forward.trans h'.forward, fun hs => ?_⟩
  have ht : t.state ≠ .keyExchange :=
    fun ht => hs (ClientState.eq_keyExchange_of_rank h.forward ht)
  exact ⟨(h'.kept ht).1.trans (h.kept hs).1, (h'.kept ht).2.trans (h.kept hs).2⟩

/-- A step that leaves the state and the key alone. -/
theorem Ordered.of_same (hst : t.state = s.state) (hk : t.key = s.key)
    (he : t.encryptedSession = s.encryptedSession) : Ordered s t :=
  ⟨by rw [hst], fun _ => ⟨hk, he⟩⟩

theorem onExternalIP_ordered (msg : ExternalIPMessage) :
    Ordered s (run (onMessage W c (.externalIP msg)) s) := by
  apply run_of_post
  apply (onExternalIP_spec msg).mono
  · rintro p t ⟨rfl, hst, ⟨-, rfl⟩ | ⟨-, files, -, rfl⟩⟩
    · exact ⟨by simp [hst, ClientState.rank], fun _ => ⟨rfl, rfl⟩⟩
    · exact ⟨by simp [hst, ClientState.rank], fun _ => ⟨rfl, rfl⟩⟩
  · rintro h t ⟨-, ⟨rfl, -⟩ | ⟨hst, -, rfl⟩⟩
    · exact Ordered.of_same rfl rfl rfl
    · exact ⟨by simp [hst, ClientState.rank], fun _ => ⟨rfl, rfl⟩⟩

theorem onFilesInfo_ordered (hs : c.isSender = false) (files : FilesInformation) :
    Ordered s (run (onMessage W c (.filesInfo files)) s) := by
  by_cases hst : s.state = .fileInfoTransfare
  · apply run_of_post
    apply (onFilesInfo_spec hs hst files).mono
    · rintro p t ⟨u, ⟨n, q, l, -, rfl⟩, ⟨-, -, rfl⟩ | ⟨-, -, rfl⟩⟩
      · exact ⟨by simp [hst, ClientState.rank], fun _ => ⟨rfl, rfl⟩⟩
      · exact ⟨by simp [hst, ClientState.rank], fun _ => ⟨rfl, rfl⟩⟩
    · rintro h t ⟨-, u, l', ⟨n, q, l, -, rfl⟩, -, rfl⟩
      exact Ordered.of_same rfl rfl rfl
  · rw [onFilesInfo_invalid hs hst]
    exact Ordered.of_same rfl rfl rfl

theorem onRequest_ordered (msg : RemoteFileRequest) :
    Ordered s (run (onMessage W c (.typeRecipientReady msg)) s) := by
  apply run_of_post
  apply (onRequest_spec msg).mono
  · rintro p t ⟨rw, files, jobs, -, -, -, -, -, ⟨-, -, rfl⟩ | ⟨-, -, -, -, -, -, -, rfl⟩⟩
    · exact Ordered.of_same rfl rfl rfl
    · exact Ordered.of_same rfl rfl rfl
  · rintro h t ⟨-, n, rfl⟩
    exact Ordered.of_same rfl rfl rfl

theorem afterMessage_ordered : Ordered s (run (afterMessage W c) s) := by
  apply run_of_post
  apply afterMessage_spec.mono
  · rintro p t (⟨-, rfl, -⟩ | ⟨-, -, hst, files, -, rfl⟩ | ⟨-, -, -, -, rfl⟩)
    · exact Ordered.of_same rfl rfl rfl
    · exact ⟨by simp [hst, ClientState.rank], fun _ => ⟨rfl, rfl⟩⟩
    · exact Ordered.of_same rfl rfl rfl
  · rintro h t ⟨rfl, -⟩
    exact Ordered.of_same rfl rfl rfl

theorem onMessage_ordered {m : Message} (h : InOrder c s (.message m)) :
    Ordered s (run (onMessage W c m) s) := by
  cases m with
  | pake msg =>
    have hst : s.state = .keyExchange := h
    exact ⟨by simp [hst, ClientState.rank], fun hne => absurd hst hne⟩
  | externalIP msg => exact onExternalIP_ordered msg
  | filesInfo files => exact onFilesInfo_ordered h files
  | typeRecipientReady msg => exact onRequest_ordered msg
  | typeError msg => exact Ordered.of_same rfl rfl rfl
  | finished =>
    apply run_finished
    · exact Ordered.of_same rfl rfl rfl
    · exact fun e => Ordered.of_same rfl rfl rfl

theorem proceed_ordered {x : Proc X Phase} (h : proceed W c s = some x) : Ordered s (run x s) := by
  rcases proceed_cases h with ⟨rw, -, rfl⟩ | ⟨rw, job, jobs, -, rfl⟩ | ⟨index, -, rfl⟩ |
    ⟨index, loc, total, got, -, -, rfl⟩
  · exact afterMessage_ordered
  · apply run_handChunk
    · exact Ordered.of_same rfl rfl rfl
    · exact fun e => Ordered.of_same rfl rfl rfl
  · apply run_of_post
    apply (requestFile_spec index).mono
    · rintro p t (⟨-, -, rfl⟩ | ⟨file, loc, -, -, -, rfl⟩)
      · exact Ordered.of_same rfl rfl rfl
      · exact Ordered.of_same rfl rfl rfl
    · rintro h t ⟨-, rfl | ⟨file, -, n, disk, dests, rfl⟩⟩
      · exact Ordered.of_same rfl rfl rfl
      · exact Ordered.of_same rfl rfl rfl
  · exact Ordered.of_same rfl rfl rfl

theorem step_ordered {e : Event} (hok : InOrder c s e) (h : step W c s e = some t) :
    Ordered s t := by
  rcases step_cases h with ⟨m, rfl, -, rfl⟩ | ⟨err, rfl, -, rfl⟩ |
    ⟨frame, index, loc, total, got, rfl, -, -, -, rfl⟩ | ⟨rfl, rfl⟩ | ⟨x, rfl, hx, rfl⟩ |
    ⟨t', rfl, ht, h⟩
  · exact onMessage_ordered hok
  · exact Ordered.of_same rfl rfl rfl
  · apply run_of_post
    apply (takeChunk_spec index loc total got frame).mono
    · rintro p t ⟨-, rw, -, rfl⟩
      exact Ordered.of_same rfl rfl rfl
    · rintro h t ⟨-, -, rfl⟩
      exact Ordered.of_same rfl rfl rfl
  · exact Ordered.of_same rfl rfl rfl
  · exact proceed_ordered hx
  · obtain ⟨readers, encrypting, dataSent, writers, written, disk, rfl⟩ := stepTask_background ht h
    exact Ordered.of_same rfl rfl rfl

theorem misplaced_rejected {m : Message} (hok : InOrder c s (.message m)) (hm : Misplaced c s m)
    (h : step W c s (.message m) = some t) :
    (∃ e, t.phase = .ended (.error (.err e))) ∧ t.sent = s.sent := by
  obtain ⟨-, rfl⟩ := message_of_step h
  cases m with
  | pake msg => exact absurd hok hm
  | externalIP msg =>
    have hst : s.state ≠ .ipExchange := hm
    apply run_of_post
      (I := fun t => (∃ e, t.phase = .ended (.error (.err e))) ∧ t.sent = s.sent)
    apply (onExternalIP_spec msg).mono
    · exact fun p t ⟨_, h, _⟩ => absurd h hst
    · rintro h t ⟨-, ⟨rfl, e, rfl⟩ | ⟨h, -⟩⟩
      · exact ⟨⟨e, rfl⟩, rfl⟩
      · exact absurd h hst
  | filesInfo files =>
    have hs : c.isSender = false := hok
    rcases hm with h | hst
    · simp [hs] at h
    · rw [onFilesInfo_invalid hs hst]
      exact ⟨⟨_, rfl⟩, rfl⟩
  | typeRecipientReady msg => exact hm.elim
  | typeError msg => exact hm.elim
  | finished => exact hm.elim

/-- In every run without a second key message and without files offered to the sender, the
states are ordered and misplaced messages are rejected. -/
theorem keepsOrder_inOrder (X : External) (W : World) (c : Setup) :
    KeepsOrder X W c (InOrder c) := by
  intro s t _ hrun
  constructor
  · induction hrun with
    | refl => exact Ordered.refl s
    | tail _ hn ih =>
      obtain ⟨e, hok, he⟩ := hn
      exact ih.trans (step_ordered hok he)
  · exact fun m u hok hm hu => misplaced_rejected hok hm hu

/-- A receiver that repeats its key message takes the sender from `FileTransfare` back to
`IpExchange`. -/
theorem second_key_disorders :
    ¬ KeepsOrder .transparent (.calm (.plain [] 5)) (.sender "12345abc" [])
      fun _ _ => True := by
  intro h
  obtain ⟨s, hs, hstep⟩ := Machine.ReachableBy.exists_of_exec
    (M := machine .transparent (.calm (.plain [] 5)) (.sender "12345abc" []))
    (fun _ _ => True) (fun s => (step (.calm (.plain [] 5)) (.sender "12345abc" []) s
      receiverKey).any fun t => decide (t.state.rank < s.state.rank))
    receiverHello (by decide +kernel)
  obtain ⟨t, ht, hlt⟩ := (Option.any_eq_true _ _).mp hstep
  have hst : s.state.rank ≤ t.state.rank :=
    (h s t hs (ReflTransGen.single ⟨receiverKey, trivial, ht⟩)).1.forward
  have : t.state.rank < s.state.rank := of_decide_eq_true hlt
  omega

end Session
end Croc
