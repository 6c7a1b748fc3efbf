import Croc.Failure
import Croc.Crypto.External

/-! The encryptor of a session: a derived key, its salt, and sealed messages with their nonce in
front. -/
namespace Croc
open Lib

/-- `cipher` is the key that the AES-GCM instance was made from. -/
structure AesEncryptor where
  cipher : Block 32
  salt : Block 8
  deriving DecidableEq

namespace AesEncryptor
variable (X : External)

/-- `rnd` is the salt that the thread's generator would fill in. -/
def new (sessionKey : Block 32) (salt : Option (Block 8)) (rnd : Block 8) : AesEncryptor :=
  let salt := salt.getD rnd
  ⟨X.pbkdf2 sessionKey salt 100, salt⟩

def encrypt (e : AesEncryptor) (nonce : Block 12) (data : Bytes) : Except Halt Bytes := do
  let ciphertext ← orErr .aead (X.aeadEncrypt e.cipher nonce data)
  return nonce.toList ++ ciphertext

/-- `&data[..12]` panics on a shorter slice. -/
def decrypt (e : AesEncryptor) (data : Bytes) : Except Halt Bytes :=
  if h : 12 ≤ data.length then
    orErr .aead (X.aeadDecrypt e.cipher ⟨data.take 12, by rw [List.length_take]; omega⟩
      (data.drop 12))
  else .error (.panic .nonceSlice)

variable {X}

theorem encrypt_ok {e : AesEncryptor} {nonce : Block 12} {data out : Bytes} :
    e.encrypt X nonce data = .ok out ↔
      ∃ c, X.aeadEncrypt e.cipher nonce data = some c ∧ out = nonce.toList ++ c := by
  simp only [encrypt, bind_eq_ok, orErr_eq_ok, pure, Except.pure, Except.ok.injEq]
  exact exists_congr fun c => and_congr_right fun _ => eq_comm

/-- The other end opens what was sealed under the same key. -/
theorem decrypt_encrypt (hX : X.DecryptInverts) {e : AesEncryptor} {nonce : Block 12}
    {data out : Bytes} (h : e.encrypt X nonce data = .ok out) : e.decrypt X out = .ok data := by
  obtain ⟨c, hc, rfl⟩ := encrypt_ok.mp h
  have hn : nonce.toList.length = 12 := nonce.toList_length
  have hle : 12 ≤ (nonce.toList ++ c).length := by rw [List.length_append]; omega
  have htake : (nonce.toList ++ c).take 12 = nonce.toList := List.take_left' hn
  have hdrop : (nonce.toList ++ c).drop 12 = c := List.drop_left' hn
  rw [decrypt, dif_pos hle]
  simp only [htake, hdrop]
  exact orErr_eq_ok.mpr (hX _ _ _ _ hc)

end AesEncryptor
end Croc
