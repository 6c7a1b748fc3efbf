import Croc.Failure

/-! What the program takes from `rust_pake`, `serde_json`, `pbkdf2` and `aes_gcm`. -/
namespace Croc
open Lib

inductive Role where
  | sender | reciever
  deriving DecidableEq, Repr

/-- The operations of the external crates. `seed` stands for the randomness that `Pake::new`
draws; a `none` is an `Err` of the crate. A key that reads well can still make `update` panic. -/
structure External where
  Pake : Type
  PubKey : Type
  newPake : Role → Option Bytes → (seed : ℕ) → Pake
  pubPake : Pake → PubKey
  update : Pake → PubKey → Except PakeFailure Pake
  pakeKey : Pake → Option (Block 32)
  keyToJson : PubKey → String
  keyFromJson : String → Option PubKey
  keyFromSlice : Bytes → Option PubKey
  listToJson : List String → String
  pbkdf2 : Block 32 → Block 8 → (rounds : ℕ) → Block 32
  aeadEncrypt : Block 32 → Block 12 → Bytes → Option Bytes
  aeadDecrypt : Block 32 → Block 12 → Bytes → Option Bytes

namespace External

/-- AES-GCM decrypts what it encrypted under the same key and nonce. -/
def DecryptInverts (X : External) : Prop :=
  ∀ k n m c, X.aeadEncrypt k n m = some c → X.aeadDecrypt k n c = some m

/-- A completed key exchange leaves a session key behind. -/
def UpdateSetsKey (X : External) : Prop :=
  ∀ p q p', X.update p q = .ok p' → (X.pakeKey p').isSome

/-- The public key of a fresh exchange survives its JSON text, read from a string or a slice. -/
def KeyJsonRoundTrip (X : External) : Prop :=
  ∀ q, X.keyFromJson (X.keyToJson q) = some q ∧ X.keyFromSlice (asBytes (X.keyToJson q)) = some q

/-- An exchange between ends with these passwords goes through, and leaves them with different
session keys. -/
def KeysDiffer (X : External) (pw pw' : Bytes) : Prop :=
  ∀ seed seed', ∃ p q k k',
    X.update (X.newPake .reciever (some pw) seed)
      (X.pubPake (X.newPake .sender (some pw') seed')) = .ok p ∧
    X.update (X.newPake .sender (some pw') seed') (X.pubPake p) = .ok q ∧
    X.pakeKey p = some k ∧ X.pakeKey q = some k' ∧ k ≠ k'

/-- An exchange between ends with one password goes through, and leaves them with one session
key. -/
def KeysAgree (X : External) : Prop :=
  ∀ pw seed seed', ∃ p q k,
    X.update (X.newPake .reciever (some pw) seed)
      (X.pubPake (X.newPake .sender (some pw) seed')) = .ok p ∧
    X.update (X.newPake .sender (some pw) seed') (X.pubPake p) = .ok q ∧
    X.pakeKey p = some k ∧ X.pakeKey q = some k

/-- The same of an exchange without a password. -/
def PlainKeysAgree (X : External) : Prop :=
  ∀ seed seed', ∃ p q k,
    X.update (X.newPake .reciever none seed) (X.pubPake (X.newPake .sender none seed')) = .ok p ∧
    X.update (X.newPake .sender none seed') (X.pubPake p) = .ok q ∧
    X.pakeKey p = some k ∧ X.pakeKey q = some k

/-- A sealed message is the sixteen bytes of its tag longer, what is no longer than a frame can
be sealed, and a public key is a short text. -/
structure WritesShort (X : External) : Prop where
  sealed_length : ∀ k n m c, X.aeadEncrypt k n m = some c → c.length = m.length + 16
  sealed : ∀ k n m, m.length < 2 ^ 32 → (X.aeadEncrypt k n m).isSome
  keyJson : ∀ q, (asBytes (X.keyToJson q)).length < 2 ^ 32

theorem WritesShort.aead {X : External} (h : X.WritesShort) (k : Block 32) (n : Block 12)
    {m : Bytes} (hm : m.length < 2 ^ 32) :
    ∃ c, X.aeadEncrypt k n m = some c ∧ c.length = m.length + 16 := by
  obtain ⟨c, hc⟩ := Option.isSome_iff_exists.mp (h.sealed k n m hm)
  exact ⟨c, hc, h.sealed_length k n m c hc⟩

/-- A block of `n` bytes made from the start of a byte string. -/
def padBlock (n : ℕ) (bs : Bytes) : Block n :=
  ⟨bs.take n ++ List.replicate (n - bs.length) 0, by
    rw [List.length_append, List.length_take, List.length_replicate]
    omega⟩

/-- A transparent instance: the session key is the padded password, a ciphertext is the plain
text followed by the first sixteen bytes of the key as its tag. -/
def transparent : External where
  Pake := Bytes × Bool
  PubKey := Unit
  newPake _ pw _ := (pw.getD [], false)
  pubPake _ := ()
  update p _ := .ok (p.1, true)
  pakeKey p := if p.2 then some (padBlock 32 p.1) else none
  keyToJson _ := "{}"
  keyFromJson s := if s = "{}" then some () else none
  keyFromSlice bs := if bs = asBytes "{}" then some () else none
  listToJson _ := "[]"
  pbkdf2 k _ _ := k
  aeadEncrypt k _ m := some (m ++ k.toList.take 16)
  aeadDecrypt k _ c :=
    if c.drop (c.length - 16) = k.toList.take 16 then some (c.take (c.length - 16)) else none

theorem transparent_decryptInverts : transparent.DecryptInverts := by
  intro k n m c h
  have h : m ++ k.toList.take 16 = c := Option.some.inj h
  have hk : (k.toList.take 16).length = 16 := by simp
  have hc : c.length - 16 = m.length := by rw [← h, List.length_append, hk]; omega
  have hdrop : c.drop m.length = k.toList.take 16 := by rw [← h, List.drop_left]
  have htake : c.take m.length = m := by rw [← h, List.take_left]
  simp only [transparent, hc, hdrop, htake, if_true]

theorem transparent_updateSetsKey : transparent.UpdateSetsKey := by
  intro p q p' h
  have h : (p.1, true) = p' := Except.ok.inj h
  simp [transparent, ← h]

theorem transparent_keyJson : transparent.KeyJsonRoundTrip := by
  intro q
  simp only [transparent, if_true]
  exact ⟨rfl, rfl⟩

theorem transparent_keysDiffer {pw pw' : Bytes} (h : padBlock 32 pw ≠ padBlock 32 pw') :
    transparent.KeysDiffer pw pw' :=
  fun _ _ => ⟨(pw, true), (pw', true), _, _, rfl, rfl, rfl, rfl, h⟩

theorem transparent_keysAgree : transparent.KeysAgree :=
  fun pw _ _ => ⟨(pw, true), (pw, true), _, rfl, rfl, rfl, rfl⟩

theorem transparent_plainKeysAgree : transparent.PlainKeysAgree :=
  fun _ _ => ⟨([], true), ([], true), _, rfl, rfl, rfl, rfl⟩

theorem transparent_writesShort : transparent.WritesShort where
  sealed_length k n m c h := by
    obtain rfl : m ++ k.toList.take 16 = c := Option.some.inj h
    simp
  sealed _ _ _ _ := rfl
  keyJson _ := by
    have : asBytes "{}" = [0x7b, 0x7d] := by decide +kernel
    simp [transparent, this]

end External
end Croc
