import Croc.Lib.Utf8
import Croc.Relay.Client
import Croc.Session.Runs
import Croc.Session.Smooth

/-! Secrets that `RelayClient::connect` accepts, and the places where the two ends cut them: after
three bytes for the room, after five for the data connection and for the password. -/
namespace Croc
open Lib

/-- None of the slices of a secret panics: in `connect` itself, in `start_net_task` and the
`connect` that it makes, and in any run of an end of a session, in `process_client` or
`process_key_exchange`. -/
structure SlicesSafely (secret : String) : Prop where
  connect : ∀ p, Server.connectRoom secret ≠ .error (.panic p)
  net : ∀ sha256 p, (Server.Connection.data secret).room sha256 ≠ .error (.panic p)
  session : ∀ (X : External) (W : World) (c : Setup) (s : Session X), c.sharedSecret = secret →
    (Session.machine X W c).Reachable s → s.phase ≠ .ended (.error (.panic .secretSlice))

/-- The password can be cut off if the secret can be cut after five bytes. -/
theorem Setup.secretTail_iff {c : Setup} :
    (∃ tail, c.secretTail = .ok tail) ↔ CutsAt c.sharedSecret 5 := by
  unfold secretTail CutsAt StartsChar
  simp only [Option.all_eq_true, decide_eq_true_eq]
  split
  next h => exact iff_of_true ⟨_, rfl⟩ h
  next h => exact iff_of_false (by simp) h

namespace Server

theorem connectRoom_safe_iff {secret : String} (h : 4 ≤ (asBytes secret).length) :
    (∀ p, connectRoom secret ≠ .error (.panic p)) ↔ CutsAt secret 3 := by
  rw [← isSome_fromUtf8_take (by omega), connectRoom, if_neg (by omega)]
  cases fromUtf8 ((asBytes secret).take 3) with
  | none => simp
  | some room => simp

theorem lowerHex_ascii (bs : Bytes) : ∀ c ∈ (lowerHex bs).toList, c.toNat < 128 := by
  have hdigit : ∀ d < 16, (Nat.digitChar d).toNat < 128 := by decide
  intro c hc
  rw [lowerHex, String.toList_ofList] at hc
  obtain ⟨b, -, hb⟩ := List.mem_flatMap.mp hc
  have hlt : b.toNat < 256 := b.toNat_lt
  rcases List.mem_pair.mp hb with rfl | rfl
  · exact hdigit _ (by omega)
  · exact hdigit _ (by omega)

theorem length_lowerHex (bs : Bytes) : (lowerHex bs).toList.length = 2 * bs.length := by
  rw [lowerHex, String.toList_ofList, List.length_flatMap]
  simp [mul_comm]

theorem connectRoom_ascii {cs : List Char} (h : ∀ c ∈ cs, c.toNat < 128) (hlen : 4 ≤ cs.length) :
    ∀ p, connectRoom (String.ofList cs) ≠ .error (.panic p) := by
  have hbytes : 4 ≤ (asBytes (String.ofList cs)).length := by
    rwa [asBytes_of_ascii h, List.length_map]
  exact (connectRoom_safe_iff hbytes).mpr (cutsAt_of_ascii h (by omega))

/-- Six digits and a suffix. -/
theorem dataSecret_ascii (sha256 : Bytes → Block 32) {secret : String}
    (h : 5 ≤ (asBytes secret).length) :
    ∃ cs, dataSecret sha256 secret = .ok (String.ofList cs) ∧ (∀ c ∈ cs, c.toNat < 128) ∧
      cs.length = 8 := by
  have hhex := lowerHex_ascii (sha256 ((asBytes secret).drop 5)).toList
  have hlen := length_lowerHex (sha256 ((asBytes secret).drop 5)).toList
  rw [List.Vector.toList_length] at hlen
  refine ⟨(lowerHex (sha256 ((asBytes secret).drop 5)).toList).toList.take 6 ++ ['-', '1'], ?_,
    fun c hc => ?_, ?_⟩
  · rw [dataSecret, if_neg (by omega), String.ofList_append]
  · rcases List.mem_append.mp hc with hc | hc
    · exact hhex c (List.mem_of_mem_take hc)
    · have hends : ∀ c ∈ ['-', '1'], c.toNat < 128 := by simp
      exact hends c hc
  · rw [List.length_append, List.length_take, hlen]
    rfl

/-- The secret of a data connection is cut without a panic, if it can be made. -/
theorem data_room_safe_iff (sha256 : Bytes → Block 32) (secret : String) :
    (∀ p, (Connection.data secret).room sha256 ≠ .error (.panic p)) ↔
      5 ≤ (asBytes secret).length := by
  rw [Connection.room, Connection.secret]
  by_cases h : 5 ≤ (asBytes secret).length
  · obtain ⟨cs, hcs, hascii, hlen⟩ := dataSecret_ascii sha256 h
    rw [hcs]
    exact iff_of_true (connectRoom_ascii hascii (by omega)) h
  · refine iff_of_false (fun hsafe => ?_) h
    rw [dataSecret, if_pos (by omega)] at hsafe
    exact hsafe .secretSlice rfl

end Server

namespace Session
variable {X : External} {W : World} {c : Setup} {s : Session X}

/-- The session has not ended with the panic of a slice of the secret. -/
def Unsliced (s : Session X) : Prop := s.phase ≠ .ended (.error (.panic .secretSlice))

theorem onMessage_unsliced (htail : ∃ tail, c.secretTail = .ok tail) (m : Message) :
    Unsliced (run (onMessage W c m) s) := by
  cases m with
  | pake msg =>
    apply run_of_post
    apply (onPake_spec msg).mono
    · rintro p t ⟨rfl, -⟩
      simp [Unsliced]
    · rintro h t ⟨⟨e, rfl⟩ | ⟨-, hc⟩ | ⟨rfl, -⟩ | ⟨rfl, -⟩, -⟩
      · simp [Unsliced]
      · obtain ⟨tail, htail⟩ := htail
        simp [htail] at hc
      · simp [Unsliced]
      · simp [Unsliced]
  | externalIP msg =>
    apply run_of_post
    apply (onExternalIP_spec msg).mono
    · rintro p t ⟨rfl, -⟩
      simp [Unsliced]
    · rintro h t ⟨⟨e, rfl⟩ | ⟨rfl, -⟩, -⟩ <;> simp [Unsliced]
  | filesInfo files =>
    apply run_onFilesInfo
    · simp [Unsliced]
    · simp [Unsliced]
    · intro hs hst
      apply (onFilesInfo_spec hs hst files).mono
      · rintro p t ⟨u, -, ⟨rfl, -⟩ | ⟨rfl, -⟩⟩ <;> simp [Unsliced]
      · rintro h t ⟨⟨e, rfl⟩ | ⟨rfl, -⟩, -⟩ <;> simp [Unsliced]
  | typeRecipientReady msg =>
    apply run_of_post
    apply (onRequest_spec msg).mono
    · rintro p t ⟨rw, files, jobs, -, -, rfl, -⟩
      simp [Unsliced]
    · rintro h t ⟨⟨e, rfl⟩ | ⟨rfl, -⟩ | ⟨rfl, -⟩ | ⟨rfl, -⟩ | ⟨rfl, -⟩ | ⟨rfl, -⟩, -⟩ <;>
        simp [Unsliced]
  | typeError msg =>
    apply run_of_post
    unfold onMessage
    rw [post_throw]
    simp [Unsliced]
  | finished =>
    apply run_finished
    · simp [Unsliced]
    · simp [Unsliced]

theorem proceed_unsliced {x : Proc X Phase} (hx : proceed W c s = some x) :
    Unsliced (run x s) := by
  rcases proceed_cases hx with ⟨rw, -, rfl⟩ | ⟨rw, job, jobs, -, rfl⟩ | ⟨index, -, rfl⟩ |
    ⟨index, loc, total, got, -, -, rfl⟩
  · apply run_of_post
    apply afterMessage_spec.mono
    · rintro p t (⟨rfl, -⟩ | ⟨rfl, -⟩ | ⟨rfl, -⟩) <;> simp [Unsliced]
    · rintro h t ⟨-, ⟨-, -, ⟨e, rfl⟩ | ⟨rfl, -⟩⟩ | ⟨-, -, rfl, -⟩⟩ <;> simp [Unsliced]
  · apply run_handChunk
    · simp [Unsliced]
    · simp [Unsliced]
  · apply run_of_post
    apply (requestFile_spec index).mono
    · rintro p t (⟨-, rfl, -⟩ | ⟨file, loc, -, -, rfl, -⟩) <;> simp [Unsliced]
    · rintro h t ⟨⟨e, rfl⟩, -⟩
      simp [Unsliced]
  · simp [Unsliced, run, pure, EStateM.pure]

theorem step_unsliced (htail : ∃ tail, c.secretTail = .ok tail) (h : Unsliced s) {e : Event}
    {t : Session X} (he : step W c s e = some t) : Unsliced t := by
  rcases step_cases he with ⟨m, rfl, -, rfl⟩ | ⟨err, rfl, -, rfl⟩ |
    ⟨frame, index, loc, total, got, rfl, -, -, -, rfl⟩ | ⟨rfl, rfl⟩ | ⟨x, rfl, hx, rfl⟩ |
    ⟨t', rfl, ht, he⟩
  · exact onMessage_unsliced htail m
  · simp [Unsliced]
  · apply run_of_post
    apply (takeChunk_spec index loc total got frame).mono
    · rintro p t ⟨rfl, -⟩
      simp [Unsliced]
    · rintro h t ⟨rfl, -⟩
      simp [Unsliced]
  · exact h
  · exact proceed_unsliced hx
  · obtain ⟨readers, encrypting, dataSent, writers, written, disk, rfl⟩ := stepTask_background ht he
    exact h

theorem reachable_unsliced (htail : ∃ tail, c.secretTail = .ok tail)
    (hs : (machine X W c).Reachable s) : Unsliced s := by
  refine hs.invariant (P := Unsliced) ?_ fun s e s' _ h he => step_unsliced htail h he
  apply run_of_post
  apply start_spec.mono
  · rintro p t ⟨rfl, -⟩
    simp [Unsliced]
  · rintro h t ⟨⟨e, rfl⟩ | ⟨-, hno⟩, -⟩
    · simp [Unsliced]
    · obtain ⟨tail, htail⟩ := htail
      exact absurd htail (hno tail)

end Session

/-- A secret that is accepted is cut without a panic if and only if it can be cut after three bytes
and after five. -/
theorem slicesSafely_iff {secret : String} (h : 4 ≤ (asBytes secret).length) :
    SlicesSafely secret ↔ CutsAt secret 3 ∧ CutsAt secret 5 := by
  constructor
  · rintro ⟨hconnect, -, hsession⟩
    refine ⟨(Server.connectRoom_safe_iff h).mp hconnect, ?_⟩
    by_contra hcut
    have hpw : ∀ pw, (Setup.receiver secret).secretTail ≠ .ok pw := fun pw hpw =>
      hcut (Setup.secretTail_iff.mp ⟨pw, hpw⟩)
    exact hsession .transparent (.calm (.plain [] 5)) (.receiver secret) _ rfl
      Machine.Reachable.init (Session.start_receiver_panics rfl (by simp [Setup.receiver]) hpw rfl)
  · rintro ⟨h3, h5⟩
    refine ⟨(Server.connectRoom_safe_iff h).mpr h3,
      fun sha256 => (Server.data_room_safe_iff sha256 secret).mpr h5.1, ?_⟩
    rintro X W c s rfl hs
    exact Session.reachable_unsliced (Setup.secretTail_iff.mpr h5) hs

theorem longSecret_slicesSafely : SlicesSafely "12345abc" :=
  (slicesSafely_iff (by decide +kernel)).mpr (by decide +kernel)

/-- A secret of four bytes is accepted, and then cut behind its end. -/
theorem fourBytes_not_slicesSafely :
    (∃ room, Server.connectRoom "1234" = .ok room) ∧ ¬ SlicesSafely "1234" := by
  refine ⟨⟨"123", by decide +kernel⟩, fun h => ?_⟩
  exact h.net (fun _ => External.padBlock 32 []) .secretSlice (by decide +kernel)

end Croc
