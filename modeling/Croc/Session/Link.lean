import Croc.Relay.Establish
import Croc.Session.Agreement
import Croc.Session.Order

/-! The keys that two ends agree on, with their relay and with each other, and what is carried under
them. -/
namespace Croc
open Lib Relation

namespace Pair
open Session
variable {X : External} {M : Meeting} {p p' : Pair X}

/-- Every step of a pair keeps the order of both its ends. -/
theorem Coupled.step_ordered (h : Coupled M p) {e : Event} (he : Pair.step M p e = some p') :
    Ordered p.sender p'.sender ∧ Ordered p.receiver p'.receiver := by
  rcases step_ends he with ⟨e', s, hs, hps, hpr, -, hts⟩ | ⟨e', r, hr, hpr, hps, -, htr⟩ |
    ⟨hps, hpr, -, -⟩
  · rw [hps, hpr]
    refine ⟨Session.step_ordered ?_ hs, .refl _⟩
    rcases hts with ⟨hmsg, -⟩ | ⟨m, rfl, hget, -⟩
    · cases e' with
      | message m => exact absurd rfl (hmsg m)
      | _ => trivial
    · exact h.toSender_inOrder hget
  · rw [hps, hpr]
    refine ⟨.refl _, Session.step_ordered ?_ hr⟩
    rcases htr with ⟨hmsg, -⟩ | ⟨m, rfl, hget, -⟩
    · cases e' with
      | message m => exact absurd rfl (hmsg m)
      | _ => trivial
    · exact h.toReceiver_inOrder hget
  · rw [hps, hpr]
    exact ⟨.refl _, .refl _⟩

/-- Both ends are through the key exchange, with linked sessions. -/
def Keyed (p : Pair X) : Prop :=
  p.sender.state ≠ .keyExchange ∧ p.receiver.state ≠ .keyExchange ∧
    ∃ enc enc', p.sender.encryptedSession = some enc ∧ p.receiver.encryptedSession = some enc' ∧
      Wire.Linked X enc enc'

/-- The agreements on a key: of a client with its relay, and of the two ends of a session. -/
structure KeyAgreement (X : External) (parse : String → Option Message) (M : Meeting) : Prop where
  relay : ∀ (seed seed' : ℕ) (salt rnd : Block 8), OpensAlike X seed seed' salt rnd
  /-- The texts of the messages come through, with the key and the salt in them. -/
  messages : Wire.CarriesMessages parse
  /-- Every run in which nothing around the ends fails comes to linked sessions. -/
  peers : (machine X M).Inevitable Smooth Keyed (init X M)
  /-- What happens then does not touch them. -/
  stays : ∀ p p', (machine X M).Reachable p → Keyed p →
    ReflTransGen ((machine X M).Next fun _ _ => True) p p' → Keyed p'

theorem Keyed.step (hkeyed : Keyed p) (hp : Coupled M p) {e : Event}
    (he : Pair.step M p e = some p') : Keyed p' := by
  obtain ⟨hs, hr, enc, enc', henc, henc', hlinked⟩ := hkeyed
  obtain ⟨hos, hor⟩ := hp.step_ordered he
  refine ⟨fun hs' => ?_, fun hr' => ?_, enc, enc', ?_, ?_, hlinked⟩
  · exact hs (ClientState.eq_keyExchange_of_rank hos.forward hs')
  · exact hr (ClientState.eq_keyExchange_of_rank hor.forward hr')
  · rw [(hos.kept hs).2, henc]
  · rw [(hor.kept hr).2, henc']

theorem keyed_stays (hreach : (machine X M).Reachable p) (hkeyed : Keyed p)
    (hrun : ReflTransGen ((machine X M).Next fun _ _ => True) p p') : Keyed p' := by
  suffices h : (machine X M).Reachable p' ∧ Keyed p' from h.2
  induction hrun with
  | refl => exact ⟨hreach, hkeyed⟩
  | tail _ hn ih =>
    obtain ⟨e, -, he⟩ := hn
    exact ⟨ih.1.step he, ih.2.step (reachable_coupled ih.1) he⟩

/-- The two messages of the exchange are the only things that can happen. -/
theorem inevitable_keyed (x : Exchange X M) (hJ : X.KeyJsonRoundTrip) (hX : X.DecryptInverts)
    (hW : X.WritesShort) (hC : M.Connected) :
    (machine X M).Inevitable Smooth Keyed (init X M) := by
  rw [x.init_eq hC]
  refine .only (e := .toSender) trivial (x.step_started hJ hC) (fun e t hok he => ?_) ?_
  · rcases quiet_step (new_quiet M.senderWorld) x.startingReceiver_quiet rfl hok he with
      ⟨rfl, -⟩ | ⟨-, hlt⟩
    · rfl
    · exact absurd hlt (Nat.lt_irrefl 0)
  refine .only (e := .toReceiver) trivial (x.step_answered hJ hC) (fun e t hok he => ?_) ?_
  · rcases quiet_step x.keyedSender_quiet x.startingReceiver_quiet rfl hok he with
      ⟨-, hlt⟩ | ⟨rfl, -⟩
    · exact absurd hlt (Nat.lt_irrefl 1)
    · rfl
  refine .here ⟨?_, ?_, x.enc, x.enc, rfl, rfl, Wire.linked hX hW x.enc⟩
  · simp [Exchange.keyedSender, withKey]
  · simp [Exchange.keyedReceiver, withKey]

/-- Ends that say nothing come to no key. -/
theorem not_keyAgreement (hC : M.Connected) (hsecret : ¬ M.sender.Splits)
    {parse : String → Option Message} : ¬ KeyAgreement X parse M := by
  intro h
  refine Machine.not_inevitable (I := Mute) (fun _ _ _ hm _ he => hm.step he) (fun p hm hp => ?_)
    (mute_init hC.secret hsecret) h.peers
  exact hp.2.1 hm.receiver.1

/-- Connected ends agree on their keys, and what is written under them comes through, if and only if
the secret can be split after five bytes. -/
theorem keyAgreement_iff (hK : X.KeysAgree) (hP : X.PlainKeysAgree) (hJ : X.KeyJsonRoundTrip)
    (hX : X.DecryptInverts) (hW : X.WritesShort) {parse : String → Option Message}
    (hparse : ∀ m : Message, parse m.text = some m) (hC : M.Connected) :
    KeyAgreement X parse M ↔ M.sender.Splits := by
  constructor
  · intro h
    by_contra hsecret
    exact not_keyAgreement hC hsecret h
  · intro hsplits
    obtain ⟨pw, hpw⟩ := Setup.splits_iff.mp hsplits
    obtain ⟨x⟩ := exists_exchange hK hC.secret hpw
    exact ⟨opensAlike hP hJ hX hW, Wire.carriesMessages hparse, inevitable_keyed x hJ hX hW hC,
      fun _ _ => keyed_stays⟩

/-- The inverse of the texts. -/
noncomputable def parseText : String → Option Message := Function.partialInv Message.text

theorem parseText_text (m : Message) : parseText m.text = some m :=
  Function.partialInv_left Message.text_injective m

theorem sharing_keyAgreement : (sharing "12345abc").Connected ∧
    KeyAgreement .transparent parseText (sharing "12345abc") := by
  have hC := (sharing_honest "12345abc").connected
  refine ⟨hC, (keyAgreement_iff External.transparent_keysAgree
    External.transparent_plainKeysAgree External.transparent_keyJson
    External.transparent_decryptInverts External.transparent_writesShort parseText_text hC).mpr ?_⟩
  exact Setup.splits_iff.mpr ⟨asBytes "abc", by decide +kernel⟩

/-- Two ends that share the secret "1234" come to no key. -/
theorem short_secret_unkeyed :
    (External.transparent.KeysAgree ∧ External.transparent.PlainKeysAgree ∧
      External.transparent.DecryptInverts) ∧ (sharing "1234").Connected ∧
    ¬ KeyAgreement .transparent parseText (sharing "1234") := by
  have hC := (sharing_honest "1234").connected
  have hlen : ¬ 5 ≤ (asBytes "1234").length := by decide +kernel
  exact ⟨⟨External.transparent_keysAgree, External.transparent_plainKeysAgree,
    External.transparent_decryptInverts⟩, hC, not_keyAgreement hC fun h => hlen h.1⟩

end Pair
end Croc
