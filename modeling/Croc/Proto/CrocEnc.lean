import Croc.Crypto.Aes
import Croc.Proto.CrocRaw

/-! Encrypted messages over a framed connection. -/
namespace Croc
open Lib

structure EncryptedSession where
  encryptor : AesEncryptor
  deriving DecidableEq

namespace EncryptedSession
variable (X : External)

/-- `EncryptedSession::new` for `Role::Reciever`: the salt is the next frame of the connection. -/
def newReciever (sessionKey : Block 32) (rnd : Block 8) (input : Bytes) :
    Except Halt EncryptedSession × Bytes :=
  match CrocProto.read input with
  | (.error e, rest) => (.error e, rest)
  | (.ok salt, rest) =>
    ((orErr .sliceLength (tryInto 8 salt)).map fun salt =>
      ⟨AesEncryptor.new X sessionKey (some salt) rnd⟩, rest)

/-- `EncryptedSession::read`, with what is left on the stream. -/
def read (enc : EncryptedSession) (input : Bytes) : Except Halt Bytes × Bytes :=
  match CrocProto.read input with
  | (.error e, rest) => (.error e, rest)
  | (.ok data, rest) => (enc.encryptor.decrypt X data, rest)

/-- The payload that `EncryptedSession::write` hands to the connection. -/
def write (enc : EncryptedSession) (nonce : Block 12) (msg : Bytes) : Except Halt Bytes :=
  enc.encryptor.encrypt X nonce msg

variable {X}

theorem read_ok {enc : EncryptedSession} {input msg rest : Bytes}
    (h : enc.read X input = (.ok msg, rest)) :
    ∃ data, CrocProto.read input = (.ok data, rest) ∧ enc.encryptor.decrypt X data = .ok msg := by
  unfold read at h
  split at h
  · simp at h
  next data rest' hr =>
    obtain ⟨hd, rfl⟩ := Prod.mk.inj h
    exact ⟨data, hr, hd⟩

/-- A failing read is an error, or the panic on a frame shorter than the nonce. -/
theorem read_error {enc : EncryptedSession} {input rest : Bytes} {h : Halt}
    (hr : enc.read X input = (.error h, rest)) : (∃ e, h = .err e) ∨ h = .panic .nonceSlice := by
  unfold read at hr
  split at hr
  next hf =>
    obtain ⟨rfl, -⟩ : _ = h ∧ _ := by simpa using hr
    exact Or.inl (CrocProto.read_error hf)
  next data _ _ =>
    have hd := (Prod.mk.inj hr).1
    unfold AesEncryptor.decrypt at hd
    split at hd
    · exact Or.inl ⟨.aead, (orErr_eq_error.mp hd).2⟩
    · exact Or.inr (by simpa [eq_comm] using hd)

theorem newReciever_error {key : Block 32} {rnd : Block 8} {input rest : Bytes} {h : Halt}
    (hr : newReciever X key rnd input = (.error h, rest)) : ∃ e, h = .err e := by
  unfold newReciever at hr
  split at hr
  next hf =>
    obtain ⟨rfl, -⟩ : _ = h ∧ _ := by simpa using hr
    exact CrocProto.read_error hf
  next salt _ _ =>
    cases ht : tryInto 8 salt with
    | none => exact ⟨.sliceLength, by simpa [ht, Except.map, eq_comm] using (Prod.mk.inj hr).1⟩
    | some b => simp [ht, Except.map] at hr

/-- What is no longer than a frame can be written, with its nonce and its tag. -/
theorem exists_write (hX : X.WritesShort) (enc : EncryptedSession) (nonce : Block 12) {msg : Bytes}
    (hlen : msg.length < 2 ^ 32) :
    ∃ data, enc.write X nonce msg = .ok data ∧ data.length = msg.length + 28 := by
  obtain ⟨c, hc, hl⟩ := hX.aead enc.encryptor.cipher nonce hlen
  refine ⟨_, AesEncryptor.encrypt_ok.mpr ⟨c, hc, rfl⟩, ?_⟩
  rw [List.length_append, nonce.toList_length]
  omega

/-- A written message is the next one that the other end reads. -/
theorem read_write (hX : X.DecryptInverts) {enc : EncryptedSession} {nonce : Block 12}
    {msg out : Bytes} (h : enc.write X nonce msg = .ok out) (hlen : out.length < 2 ^ 32)
    (rest : Bytes) : enc.read X (frame out ++ rest) = (.ok msg, rest) := by
  rw [read, CrocProto.read_frame hlen]
  simp only [AesEncryptor.decrypt_encrypt hX h]

end EncryptedSession
end Croc
