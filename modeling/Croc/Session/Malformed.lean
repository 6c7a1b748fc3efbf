import Croc.Relay.Client
import Croc.Relay.Negotiate
import Croc.Session.FileLoop

/-! Frames that do not hold what their reader expects: payloads that no one has sealed, and sealed
texts that are too short for a chunk. -/
namespace Croc
open Lib

/-- AES-GCM opens the payload, a nonce and what was sealed with it, to a text. -/
def OpensTo (X : External) (enc : EncryptedSession) (payload plain : Bytes) : Prop :=
  ∃ (nonce : Block 12) (ciphertext : Bytes), payload = nonce.toList ++ ciphertext ∧
    X.aeadDecrypt enc.encryptor.cipher nonce ciphertext = some plain

def ValidCiphertext (X : External) (enc : EncryptedSession) (payload : Bytes) : Prop :=
  ∃ plain, OpensTo X enc payload plain

/-- The payload does not open to a text that can hold the offset of a chunk. -/
def NoChunk (X : External) (enc : EncryptedSession) (payload : Bytes) : Prop :=
  ∀ plain, OpensTo X enc payload plain → plain.length < 8

/-- The results of successive reads from a connection. -/
def EncryptedSession.readEach (X : External) (enc : EncryptedSession) :
    ℕ → Bytes → List (Except Halt Bytes)
  | 0, _ => []
  | n + 1, input => (enc.read X input).1 :: readEach X enc n (enc.read X input).2

/-- What every malformed frame leads to. `input` is what arrives on a control connection, `entries`
are those whose files the receive loop creates, and `chunks` the frames of the data connection from
the first one for them on. -/
structure MalformedIsError (cfg : Server.Config) (seeks : Location → ℕ → Bool)
    (enc : EncryptedSession) (disk : Location → Bytes) (entries : List Destination) (input : Bytes)
    (chunks : List Bytes) : Prop where
  session : ∀ (i : ℕ) payload, (CrocProto.readAll input)[i]? = some payload →
    ¬ ValidCiphertext cfg.ext enc payload →
    ∃ e, (enc.readEach cfg.ext (CrocProto.readAll input).length input)[i]? =
      some (Except.error (Halt.err e))
  /-- `negotiate_info` of the relay ends with an error, in place of the password and of the room. -/
  relay : ∀ payload ∈ CrocProto.readAll input, ¬ ValidCiphertext cfg.ext enc payload →
    ∀ t io c rest, CrocProto.read c.unread = (.ok payload, rest) →
    ∀ n, n = .passwordRead enc ∨ n = .roomRead enc →
    ∃ e c', Server.negotiate cfg t io c n = some (.stop (.error (.err e)), c')
  /-- That of the client does, in place of the info message and of the response. -/
  client : ∀ payload ∈ CrocProto.readAll input, ¬ ValidCiphertext cfg.ext enc payload →
    ∀ unread rest, CrocProto.read unread = (.ok payload, rest) →
    (∃ e, Server.Caller.hearInfo (enc.read cfg.ext unread).1 = .error (.err e)) ∧
    ∀ a : Server.Caller, ∃ e, a.hearResponse (enc.read cfg.ext unread).1 = .error (.err e)
  writer : ∀ s, (Receiving.machine cfg.ext seeks disk entries chunks).Reachable s →
    ∀ run ∈ s.runs, NoChunk cfg.ext run.task.enc run.task.payload →
    (∃ e, run.ending = .logged e) ∧ ∀ content, run.writeTo content = content

section Payload
variable {X : External} {enc : EncryptedSession} {payload plain : Bytes}

theorem opens_iff : OpensTo X enc payload plain ↔ enc.encryptor.decrypt X payload = .ok plain := by
  unfold AesEncryptor.decrypt
  constructor
  · rintro ⟨nonce, ciphertext, rfl, h⟩
    have hn : nonce.toList.length = 12 := nonce.toList_length
    rw [dif_pos (by rw [List.length_append]; omega)]
    simp only [List.take_left' hn, List.drop_left' hn]
    exact orErr_eq_ok.mpr h
  · intro h
    split at h
    next hlen =>
      exact ⟨⟨payload.take 12, by rw [List.length_take]; omega⟩, payload.drop 12,
        (List.take_append_drop 12 payload).symm, orErr_eq_ok.mp h⟩
    next => cases h

/-- What nobody has sealed fails to open, or is too short to be opened at all. -/
theorem decrypt_of_not_valid (h : ¬ ValidCiphertext X enc payload) :
    enc.encryptor.decrypt X payload =
      if 12 ≤ payload.length then .error (.err .aead) else .error (.panic .nonceSlice) := by
  cases hd : enc.encryptor.decrypt X payload with
  | ok plain => exact absurd ⟨plain, opens_iff.mpr hd⟩ h
  | error e =>
    unfold AesEncryptor.decrypt at hd
    split at hd
    next hlen => rw [if_pos hlen, (orErr_eq_error.mp hd).2]
    next hlen => rw [if_neg hlen, hd]

theorem not_valid_of_short (h : payload.length < 12) : ¬ ValidCiphertext X enc payload := by
  rintro ⟨plain, nonce, ciphertext, rfl, -⟩
  have hn : nonce.toList.length = 12 := nonce.toList_length
  rw [List.length_append] at h
  omega

/-- A frame is read and opened, and the reads go on behind it. -/
theorem EncryptedSession.readEach_eq {msgs : List Bytes} {input : Bytes}
    (h : CrocProto.readAll input = msgs) :
    enc.readEach X msgs.length input = msgs.map (enc.encryptor.decrypt X) := by
  induction msgs generalizing input with
  | nil => rfl
  | cons msg msgs ih =>
    cases hr : CrocProto.read input with
    | mk res rest =>
      cases res with
      | error e => simp [CrocProto.readAll_error hr] at h
      | ok msg' =>
        rw [CrocProto.readAll_ok hr] at h
        obtain ⟨rfl, hrest⟩ := List.cons.inj h
        have hread : enc.read X input = (enc.encryptor.decrypt X msg', rest) := by
          rw [EncryptedSession.read, hr]
        rw [List.length_cons, EncryptedSession.readEach, hread, ih hrest, List.map_cons]

end Payload

section Frames
variable {cfg : Server.Config} {seeks : Location → ℕ → Bool} {enc : EncryptedSession}
  {task : WriterTask} {answer : WriteAnswer} {payload : Bytes}

theorem read_of_not_valid (hlen : 12 ≤ payload.length)
    (hvalid : ¬ ValidCiphertext cfg.ext enc payload) {unread rest : Bytes}
    (hr : CrocProto.read unread = (.ok payload, rest)) :
    enc.read cfg.ext unread = (.error (.err .aead), rest) := by
  rw [EncryptedSession.read, hr]
  simp only [decrypt_of_not_valid hvalid, if_pos hlen]

/-- The relay's negotiation passes the error on. -/
theorem negotiate_of_not_valid (hlen : 12 ≤ payload.length)
    (hvalid : ¬ ValidCiphertext cfg.ext enc payload) {t : Server.ClientId} {io : Server.Io}
    {c : Server.Conn} {rest : Bytes} (hr : CrocProto.read c.unread = (.ok payload, rest))
    {n : Server.Nego} (hn : n = .passwordRead enc ∨ n = .roomRead enc) :
    ∃ e c', Server.negotiate cfg t io c n = some (.stop (.error (.err e)), c') := by
  have hread := read_of_not_valid hlen hvalid hr
  obtain ⟨e, c', hrecv⟩ : ∃ e c', Server.recv io c (enc.read cfg.ext) = (.error (.err e), c') := by
    unfold Server.recv
    split
    · exact ⟨.aead, _, by rw [hread]⟩
    · exact ⟨.io, _, rfl⟩
  rcases hn with rfl | rfl <;> exact ⟨e, c', by simp only [Server.negotiate, hrecv]⟩

/-- A task with a sealed text that is long enough, or with none, does not panic on a prefix. -/
theorem runWriter_of_noChunk (hlen : 12 ≤ task.payload.length)
    (hplain : ∀ plain, OpensTo cfg.ext task.enc task.payload plain → 8 ≤ plain.length)
    (h : NoChunk cfg.ext task.enc task.payload) :
    runWriter cfg.ext seeks task answer = ⟨task, .logged .aead, 0, []⟩ := by
  have hvalid : ¬ ValidCiphertext cfg.ext task.enc task.payload := fun ⟨plain, hopen⟩ =>
    absurd (h plain hopen) (Nat.not_lt.mpr (hplain plain hopen))
  simp only [runWriter, decrypt_of_not_valid hvalid, if_pos hlen]

/-- A task that is given no chunk and does not panic has been given a nonce, and nothing that
opens. -/
theorem long_of_logged (h : NoChunk cfg.ext task.enc task.payload → ∃ e,
    (runWriter cfg.ext seeks task answer).ending = .logged e) :
    12 ≤ task.payload.length ∧
      ∀ plain, OpensTo cfg.ext task.enc task.payload plain → 8 ≤ plain.length := by
  constructor
  · by_contra hshort
    have hvalid : ¬ ValidCiphertext cfg.ext task.enc task.payload :=
      not_valid_of_short (Nat.lt_of_not_le hshort)
    obtain ⟨e, he⟩ := h fun plain hopen => absurd ⟨plain, hopen⟩ hvalid
    simp [runWriter, decrypt_of_not_valid hvalid, hshort] at he
  · intro plain hopen
    by_contra hshort
    have hdecrypt := opens_iff.mp hopen
    obtain ⟨e, he⟩ := h fun plain' hopen' => by
      have heq := opens_iff.mp hopen'
      rw [hdecrypt] at heq
      exact Except.ok.inj heq ▸ Nat.lt_of_not_le hshort
    simp [runWriter, hdecrypt, Nat.lt_of_not_le hshort] at he

/-- Malformed frames end in errors if and only if each frame has the length of a nonce, and each
sealed text on the data connection that of an offset: both are cut off unchecked. -/
theorem malformedIsError_iff (cfg : Server.Config) (seeks : Location → ℕ → Bool)
    (enc : EncryptedSession) (disk : Location → Bytes) (entries : List Destination) (input : Bytes)
    (chunks : List Bytes) :
    MalformedIsError cfg seeks enc disk entries input chunks ↔
    (∀ payload ∈ CrocProto.readAll input, 12 ≤ payload.length) ∧
    ∀ x ∈ Receiving.handed entries chunks, 12 ≤ x.1.payload.length ∧
      ∀ plain, OpensTo cfg.ext x.1.enc x.1.payload plain → 8 ≤ plain.length := by
  constructor
  · refine fun h => ⟨fun payload hpayload => ?_, fun x hx => ?_⟩
    · obtain ⟨i, hi⟩ := List.mem_iff_getElem?.mp hpayload
      by_contra hshort
      have hvalid : ¬ ValidCiphertext cfg.ext enc payload :=
        not_valid_of_short (Nat.lt_of_not_le hshort)
      obtain ⟨e, he⟩ := h.session i payload hi hvalid
      rw [EncryptedSession.readEach_eq rfl, List.getElem?_map, hi, Option.map_some,
        decrypt_of_not_valid hvalid, if_neg hshort] at he
      simp at he
    · obtain ⟨d, hd, hloc⟩ := Receiving.exists_own hx
      obtain ⟨s, hs, hrun⟩ : ∃ s,
        (Receiving.machine cfg.ext seeks disk entries chunks).Reachable s ∧
        ⟨runWriter cfg.ext seeks x.1 ⟨0, true⟩, d.file.fileLength⟩ ∈ s.runs :=
        Receiving.exists_run hx hd hloc _
      exact long_of_logged fun hno => (h.writer s hs _ hrun (by rwa [runWriter_task])).1
  · rintro ⟨hlong, hchunks⟩
    refine ⟨fun i payload hi hvalid => ?_, fun payload hpayload hvalid t io c rest hr n hn => ?_,
      fun payload hpayload hvalid unread rest hr => ?_, fun s hs run hrun hno => ?_⟩
    · rw [EncryptedSession.readEach_eq rfl, List.getElem?_map, hi, Option.map_some,
        decrypt_of_not_valid hvalid, if_pos (hlong payload (List.mem_of_getElem? hi))]
      exact ⟨.aead, rfl⟩
    · exact negotiate_of_not_valid (hlong payload hpayload) hvalid hr hn
    · rw [read_of_not_valid (hlong payload hpayload) hvalid hr]
      exact ⟨⟨.aead, rfl⟩, fun a => ⟨.aead, rfl⟩⟩
    · obtain ⟨later, answer, hmem, heq, -⟩ := (Receiving.reachable_traced hs).runs run hrun
      obtain ⟨hlen, hplain⟩ := hchunks _ hmem
      rw [heq, runWriter_of_noChunk hlen hplain hno]
      exact ⟨⟨.aead, rfl⟩, fun content => rfl⟩

end Frames

section Example

/-- A relay that nobody has written to. -/
def silentConfig : Server.Config where
  ext := .transparent
  relay := ⟨"pass123", []⟩
  client _ := ⟨.main, [], none, 0, External.padBlock 8 [], fun _ => External.padBlock 12 []⟩

/-- A sealed text of three bytes. -/
def shortText : Bytes := List.replicate 12 0 ++ [1, 2, 3] ++ List.replicate 16 0

/-- A frame without a payload makes a read panic, a sealed text of three bytes a writer task. -/
theorem emptyFrame_panics :
    (zeroSession.read .transparent (frame [])).1 = .error (.panic .nonceSlice) ∧
    (∀ seeks loc answer,
      (runWriter .transparent seeks ⟨zeroSession, loc, shortText⟩ answer).ending =
        .panicked .offsetSlice) ∧
    ∀ seeks disk entries,
      ¬ MalformedIsError silentConfig seeks zeroSession disk entries (frame []) [] := by
  have hread : CrocProto.readAll (frame []) = [[]] := by
    have h := CrocProto.readAll_frame (show ([] : Bytes).length < 2 ^ 32 by decide) []
    rwa [List.append_nil, CrocProto.readAll_nil] at h
  refine ⟨by decide +kernel, fun seeks loc answer => ?_, fun seeks disk entries h => ?_⟩
  · have hopen : zeroSession.encryptor.decrypt .transparent shortText = .ok [1, 2, 3] := by
      decide +kernel
    simp [runWriter, hopen]
  · have hvalid : ¬ ValidCiphertext silentConfig.ext zeroSession [] :=
      not_valid_of_short (by decide)
    obtain ⟨e, he⟩ := h.session 0 [] (by rw [hread]; rfl) hvalid
    rw [EncryptedSession.readEach_eq rfl, hread] at he
    cases he

end Example
end Croc
