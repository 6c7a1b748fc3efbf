import Croc.Proto.MessageJson
import Croc.Session.Agreement

/-! What the relay sees of a control connection, compared over two sessions that differ only in what
the ends tell each other. -/
namespace Croc
open Lib

namespace Pair
open Session
variable {X : External} {M M' : Meeting} {p p' : Pair X}

/-- The frames on the control connection, of the sender and of the receiver. Every message goes
through `Message::send` on the stream itself: none is sealed, so that there is no ciphertext that
could be replaced by its length. -/
def seen (p : Pair X) : List Bytes × List Bytes :=
  (p.sender.sent.map fun m => frame m.payload, p.receiver.sent.map fun m => frame m.payload)

/-- Whatever happens to both, the relay sees the same of the two sessions. -/
def Confidential (X : External) (M M' : Meeting) : Prop :=
  ∀ (es : List Event) (p p' : Pair X),
    (machine X M).exec (fun _ _ => True) (init X M) es = some p →
    (machine X M').exec (fun _ _ => True) (init X M') es = some p' → p.seen = p'.seen

/-- Two sessions with the same secret, randomness and surroundings, that may differ in the files and
in the addresses. -/
structure Twins (M M' : Meeting) : Prop where
  sender : M'.sender =
    { M.sender with externalIp := M'.sender.externalIp, files := M'.sender.files }
  receiver : M'.receiver = { M.receiver with externalIp := M'.receiver.externalIp }
  worlds : M'.senderWorld = M.senderWorld ∧ M'.receiverWorld = M.receiverWorld

theorem Twins.connected (h : Twins M M') (hC : M.Connected) : M'.Connected := by
  obtain ⟨hsw, hrw⟩ := h.worlds
  refine ⟨?_, ?_, by rw [hsw, hrw]; exact hC.connects, by rw [hsw, hrw]; exact hC.sends⟩
  · rw [h.sender, h.receiver]
    exact hC.secret
  · rw [h.sender, h.receiver]
    exact hC.ports

theorem Twins.splits (h : Twins M M') : M'.sender.Splits ↔ M.sender.Splits := by
  rw [h.sender]
  rfl

/-- Twins with the same files and addresses are one. -/
theorem Twins.eq (h : Twins M M') (hfiles : M'.sender.files = M.sender.files)
    (hs : M'.sender.externalIp = M.sender.externalIp)
    (hr : M'.receiver.externalIp = M.receiver.externalIp) : M' = M := by
  obtain ⟨hsender, hreceiver, hsw, hrw⟩ := h
  rw [hfiles, hs] at hsender
  rw [hr] at hreceiver
  cases M
  cases M'
  simp only at hsender hreceiver hsw hrw
  subst hsender hreceiver hsw hrw
  rfl

theorem Mute.seen (h : Mute p) : p.seen = ([], []) := by
  rw [Pair.seen, h.sender.2.1, h.receiver.2.1]
  rfl

theorem seen_of_mute (hC : M.Connected) (hsecret : ¬ M.sender.Splits) {es : List Event}
    (he : (machine X M).exec (fun _ _ => True) (init X M) es = some p) : p.seen = ([], []) := by
  have hreach : (machine X M).Reachable p := Machine.ReachableBy.init.exec he
  exact (hreach.invariant (P := Mute) (mute_init hC.secret hsecret)
    fun _ _ _ _ h he => h.step he).seen

/-- After three messages the relay has seen both addresses and the offer. -/
theorem exec_offer {x : Exchange X M} (hJ : X.KeyJsonRoundTrip) (hC : M.Connected)
    {files : FilesInformation} (hoffer : M.sender.files = some files) :
    (machine X M).exec (fun _ _ => True) (init X M) [.toSender, .toReceiver, .toSender] =
      some ⟨x.offeringSender files, x.keyedReceiver, 2, 1, []⟩ := by
  rw [x.init_eq hC]
  simp [Machine.exec, machine, x.step_started hJ hC, x.step_answered hJ hC,
    x.step_agreed hC hoffer]

theorem frame_injective : Function.Injective frame := by
  intro a b h
  simp only [frame, List.append_assoc] at h
  have hrest := List.append_cancel_left h
  exact (List.append_inj hrest (by simp)).2

/-- Of a session that comes to the offer the relay has seen what it would have been told. -/
theorem same_of_confidential (hK : X.KeysAgree) (hJ : X.KeyJsonRoundTrip) (hC : M.Connected)
    (ht : Twins M M') {files files' : FilesInformation} (hoffer : M.sender.files = some files)
    (hoffer' : M'.sender.files = some files') (h : Confidential X M M')
    (hsplits : M.sender.Splits) :
    files' = files ∧ M'.sender.externalIp = M.sender.externalIp ∧
      M'.receiver.externalIp = M.receiver.externalIp := by
  have hC' := ht.connected hC
  obtain ⟨pw, hpw⟩ := Setup.splits_iff.mp hsplits
  obtain ⟨pw', hpw'⟩ := Setup.splits_iff.mp (ht.splits.mpr hsplits)
  obtain ⟨x⟩ := exists_exchange hK hC.secret hpw
  obtain ⟨x'⟩ := exists_exchange hK hC'.secret hpw'
  have hseen := h _ _ _ (exec_offer (x := x) hJ hC hoffer) (exec_offer (x := x') hJ hC' hoffer')
  have hinj : ∀ m m' : Message, frame m.payload = frame m'.payload ↔ m = m' := fun m m' =>
    frame_injective.eq_iff.trans Message.payload_injective.eq_iff
  simp only [seen, Exchange.offeringSender, Exchange.keyedSender, Exchange.keyedReceiver,
    Exchange.startingReceiver, withKey, Session.new, List.nil_append, List.cons_append,
    List.map_cons, List.map_nil, Prod.mk.injEq, List.cons.injEq, hinj, and_true] at hseen
  obtain ⟨⟨-, hs, hfiles⟩, -, hr⟩ := hseen
  refine ⟨?_, ?_, ?_⟩
  · simpa [eq_comm] using hfiles
  · simpa [eq_comm] using hs
  · simpa [eq_comm] using hr

/-- A connected pair keeps to itself what it sends if and only if there is nothing to tell apart:
the secret cannot be split, so that nothing is sent, or the files and the addresses are the same. -/
theorem confidential_iff (hK : X.KeysAgree) (hJ : X.KeyJsonRoundTrip) (hC : M.Connected)
    (ht : Twins M M') {files files' : FilesInformation} (hoffer : M.sender.files = some files)
    (hoffer' : M'.sender.files = some files') :
    Confidential X M M' ↔ (M.sender.Splits → files' = files ∧
      M'.sender.externalIp = M.sender.externalIp ∧
      M'.receiver.externalIp = M.receiver.externalIp) := by
  refine ⟨same_of_confidential hK hJ hC ht hoffer hoffer', fun h es p p' he he' => ?_⟩
  by_cases hsplits : M.sender.Splits
  · obtain ⟨rfl, hs, hr⟩ := h hsplits
    obtain rfl := ht.eq (hoffer'.trans hoffer.symm) hs hr
    rw [he] at he'
    rw [Option.some.inj he']
  · rw [seen_of_mute hC hsplits he,
      seen_of_mute (ht.connected hC) (fun hs => hsplits (ht.splits.mp hs)) he']

/-- A sender at an address that offers one file. -/
def tellingSender (secret name ip : String) : Setup :=
  { Setup.sender secret [.plain name "./" 5] with externalIp := ip }

theorem tellingSender_fits (secret name ip : String) :
    ∀ files ∈ (tellingSender secret name ip).files, ∀ list ∈ files.filesToTransfare,
      list.length < 2 ^ 63 := by
  rintro _ ⟨⟩ _ ⟨⟩
  show 1 < 2 ^ 63
  decide

/-- That sender and its receiver. -/
def telling (secret name ip : String) : Meeting :=
  .calm (.plain [] 5) (tellingSender secret name ip) (.receiver secret) rfl
    (Setup.receiver_isSender _) (tellingSender_fits secret name ip)

theorem telling_honest (secret name ip : String) :
    (telling secret name ip).Honest (.plain [.plain name "./" 5]) [.plain name "./" 5] :=
  calm_honest rfl rfl (List.cons_ne_nil _ _) fun file hfile => by
    obtain rfl := List.mem_singleton.mp hfile
    rfl

theorem telling_twins (secret name ip name' ip' : String) :
    Twins (telling secret name ip) (telling secret name' ip') := ⟨rfl, rfl, rfl, rfl⟩

/-- Under a secret whose sixth byte is not the first of a character nobody tells anything, and two
files at two addresses look the same. -/
theorem telling_confidential :
    ((telling "1234é" "a.txt" "10.0.0.1").Connected ∧
      Twins (telling "1234é" "a.txt" "10.0.0.1") (telling "1234é" "b.txt" "10.0.0.9")) ∧
    Confidential .transparent (telling "1234é" "a.txt" "10.0.0.1")
      (telling "1234é" "b.txt" "10.0.0.9") := by
  have hC := (telling_honest "1234é" "a.txt" "10.0.0.1").connected
  have ht := telling_twins "1234é" "a.txt" "10.0.0.1" "b.txt" "10.0.0.9"
  have hsecret : ¬ (telling "1234é" "a.txt" "10.0.0.1").sender.Splits := by
    intro h
    obtain ⟨pw, hpw⟩ := Setup.splits_iff.mp h
    have htail : (telling "1234é" "a.txt" "10.0.0.1").sender.secretTail =
      .error (.panic .secretSlice) := by decide +kernel
    rw [htail] at hpw
    cases hpw
  exact ⟨⟨hC, ht⟩, (confidential_iff External.transparent_keysAgree External.transparent_keyJson hC
    ht rfl rfl).mpr fun h => absurd h hsecret⟩

/-- The relay tells two files and two addresses apart, whose messages are equally long. -/
theorem names_are_seen :
    ((telling "12345abc" "a.txt" "10.0.0.1").Honest (.plain [.plain "a.txt" "./" 5])
        [.plain "a.txt" "./" 5] ∧
      (telling "12345abc" "b.txt" "10.0.0.9").Honest (.plain [.plain "b.txt" "./" 5])
        [.plain "b.txt" "./" 5] ∧
      Twins (telling "12345abc" "a.txt" "10.0.0.1") (telling "12345abc" "b.txt" "10.0.0.9")) ∧
    ((Message.filesInfo (.plain [.plain "a.txt" "./" 5])).payload.length =
        (Message.filesInfo (.plain [.plain "b.txt" "./" 5])).payload.length ∧
      (Message.externalIP ⟨"10.0.0.1"⟩).payload.length =
        (Message.externalIP ⟨"10.0.0.9"⟩).payload.length) ∧
    ¬ Confidential .transparent (telling "12345abc" "a.txt" "10.0.0.1")
      (telling "12345abc" "b.txt" "10.0.0.9") := by
  have hM := telling_honest "12345abc" "a.txt" "10.0.0.1"
  refine ⟨⟨hM, telling_honest _ _ _, telling_twins _ _ _ _ _⟩, ⟨?_, ?_⟩, fun h => ?_⟩
  · rw [Message.payload_length, Message.payload_length]
    decide +kernel
  · rw [Message.payload_length, Message.payload_length]
    decide +kernel
  have hsplits : (telling "12345abc" "a.txt" "10.0.0.1").sender.Splits :=
    Setup.splits_iff.mpr ⟨asBytes "abc", by decide +kernel⟩
  obtain ⟨-, hip, -⟩ := same_of_confidential External.transparent_keysAgree
    External.transparent_keyJson hM.connected (telling_twins _ _ _ _ _) rfl rfl h hsplits
  exact absurd hip (by decide)

end Pair
end Croc
