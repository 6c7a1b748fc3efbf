import Croc.Session.Pair
import Croc.Session.Smooth

/-! Ends with different secrets: nothing in the protocol compares the session keys, or needs them
before the files have been offered and created. -/
namespace Croc
open Lib

/-- Two ends that meet in one control room with secrets that differ after the fifth byte. -/
structure Strangers (X : External) (a b : Setup) : Prop where
  isSender : a.isSender = true
  isReceiver : b.isSender = false
  ports : a.relayPorts ≠ [] ∧ b.relayPorts ≠ []
  room : (asBytes a.sharedSecret).take 3 = (asBytes b.sharedSecret).take 3
  passwords : ∃ pw pw', a.secretTail = .ok pw ∧ b.secretTail = .ok pw' ∧ pw ≠ pw' ∧
    X.KeysDiffer pw pw'
  offer : ∃ files, a.files = some files ∧ ∀ list ∈ files.filesToTransfare, list.length < 2 ^ 63

/-- A file system that lets every call succeed. -/
def Os.willing : Os := { Os.plain [] 5 with createDir := fun _ _ => true }

namespace Session
variable {X : External} {os : Os} {c : Setup} {s : Session X}

section Willing

/-- Where every call succeeds, so do the empty folders. -/
theorem willing_folders (files : FilesInformation) :
    Post (createEmptyFolders (.calm .willing) files) s
      (fun _ t => t.filesToReceive = s.filesToReceive ∧ t.state = s.state) fun _ _ => False := by
  apply post_forEach (I := fun t : Session X =>
    t.filesToReceive = s.filesToReceive ∧ t.state = s.state) _ ⟨rfl, rfl⟩
  intro file _ t ht
  unfold createFolder
  simp [Os.willing, Os.plain, ht]

/-- A receiver that is offered files goes for the first one. -/
theorem willing_offer {files : FilesInformation} {list : List FileInfo} (hs : c.isSender = false)
    (hst : s.state = .fileInfoTransfare) (hl : files.filesToTransfare = some list) :
    Post (onMessage (.calm .willing) c (.filesInfo files)) s
      (fun ph t => ph = .nextFile 0 ∧ t.toReceive = some list) fun _ _ => False := by
  obtain ⟨total, ht⟩ : ∃ total, files.totalSize false = some total := by
    apply Option.isSome_iff_exists.mp
    unfold FilesInformation.totalSize
    rw [hl]
    exact FilesInformation.sumSizes_unchecked 0 _
  have hprocess : Post (processFilesInfo (.calm .willing) c files) s
      (fun _ t => t.state = .fileTransfare ∧ t.toReceive = some list) fun _ _ => False := by
    unfold processFilesInfo
    simp [hs, hst, ht, hl]
    apply (willing_folders files).mono
    · rintro _ t ⟨hf, -⟩
      simp [toReceive, hf, hl]
    · exact fun _ _ h => h
  unfold onMessage
  rw [post_bind]
  apply hprocess.mono
  · rintro _ t ⟨hst', hl'⟩
    have hl'' : t.toReceive = some list := hl'
    unfold afterMessage
    simp [hs, hst', hl'']
    exact hl''
  · exact fun _ _ h => h

/-- A receiver creates the first file. -/
theorem willing_first {file : FileInfo} {list : List FileInfo}
    (hl : s.toReceive = some (file :: list)) :
    Post (requestFile (.calm .willing) 0) s
      (fun _ t => ∃ loc, .createFile file loc ∈ t.ops) fun _ _ => False := by
  unfold requestFile createFile
  simp [hl, Os.willing, Os.plain]

end Willing
end Session

namespace Pair
open Session
variable {X : External} {a b : Setup} {M : Meeting} {p : Pair X}

/-- A peer with another secret gets nothing: no offer, no chunk, no file, and both ends return an
error. -/
def TurnedAway (p : Pair X) : Prop :=
  (∀ files, .filesInfo files ∉ p.sender.sent) ∧ p.sender.dataSent = [] ∧
    (∀ file loc, .createFile file loc ∉ p.receiver.ops) ∧
    ∀ r, p.sender.phase = .ended r ∨ p.receiver.phase = .ended r → ∃ e, r = .error (.err e)

/-- In every run of the two ends, whatever surrounds them, they turn each other away. -/
def GetsNothing (X : External) (a b : Setup) : Prop :=
  ∀ M : Meeting, M.sender = a → M.receiver = b →
    ∀ p, (machine X M).Reachable p → TurnedAway p

section Deliveries
variable {m : Message} {Q : Phase → Session X → Prop}

theorem exists_toSender (h : (machine X M).Reachable p)
    (hm : p.receiver.sent[p.toSender]? = some m) (hp : p.sender.phase = .recv)
    (hq : Post (onMessage M.senderWorld M.sender m) p.sender Q fun _ _ => False) :
    ∃ (ph : Phase) (t : Session X), Q ph t ∧ (machine X M).Reachable
      { p with sender := { t with phase := ph }, toSender := p.toSender + 1 } := by
  obtain ⟨ph, t, ht, hq⟩ | ⟨_, _, -, hf⟩ := run_cases hq
  · refine ⟨ph, t, hq, h.step (e := .toSender) ?_⟩
    simp [machine, step, stepSender, Session.step, hm, hp, ht]
  · exact hf.elim

theorem exists_toReceiver (h : (machine X M).Reachable p)
    (hm : p.sender.sent[p.toReceiver]? = some m) (hp : p.receiver.phase = .recv)
    (hq : Post (onMessage M.receiverWorld M.receiver m) p.receiver Q fun _ _ => False) :
    ∃ (ph : Phase) (t : Session X), Q ph t ∧ (machine X M).Reachable
      { p with receiver := { t with phase := ph }, toReceiver := p.toReceiver + 1 } := by
  obtain ⟨ph, t, ht, hq⟩ | ⟨_, _, -, hf⟩ := run_cases hq
  · refine ⟨ph, t, hq, h.step (e := .toReceiver) ?_⟩
    simp [machine, step, stepReceiver, Session.step, hm, hp, ht]
  · exact hf.elim

theorem exists_receiverTick (h : (machine X M).Reachable p) {x : Proc X Phase}
    (hx : proceed M.receiverWorld M.receiver p.receiver = some x)
    (hq : Post x p.receiver Q fun _ _ => False) :
    ∃ (ph : Phase) (t : Session X), Q ph t ∧
      (machine X M).Reachable { p with receiver := { t with phase := ph } } := by
  obtain ⟨ph, t, ht, hq⟩ | ⟨_, _, -, hf⟩ := run_cases hq
  · refine ⟨ph, t, hq, h.step (e := .receiver .tick) ?_⟩
    simp [machine, step, stepReceiver, Session.step, stepTask, hx, ht]
  · exact hf.elim

end Deliveries

section Strangers
variable (hJ : X.KeyJsonRoundTrip) (h : Strangers X a b) (hs : M.sender = a) (hr : M.receiver = b)
  (hsw : M.senderWorld = .calm .willing) (hrw : M.receiverWorld = .calm .willing)
include hJ h hs hr hsw hrw

/-- The key exchange of strangers goes through. -/
theorem strangers_exchange_keys : ∃ p : Pair X, (machine X M).Reachable p ∧
    (p.sender.phase = .recv ∧ p.sender.state = .ipExchange ∧ p.sender.sent.length = 1 ∧
      p.toReceiver = 1) ∧
    p.receiver.phase = .recv ∧ p.receiver.state = .ipExchange ∧
    p.receiver.sent[1]? = some (.externalIP ⟨b.externalIp⟩) ∧ p.toSender = 1 := by
  subst hs hr
  obtain ⟨pw, pw', hpw, hpw', -, hkeys⟩ := h.passwords
  obtain ⟨key, key', k, k', hkey, hkey', hk, hk', -⟩ := hkeys 0 0
  have hinit : (machine X M).Reachable (init X M) := Machine.Reachable.init
  have hsender : (init X M).sender = new (.calm .willing) := by
    rw [init, hsw]
    exact start_sender_ok h.isSender h.ports.1 hpw rfl
  have hcalm : (init X M).receiver = Session.init X (.calm .willing) M.receiver := by
    rw [init, hrw]
  have hreceiver := hcalm.trans
    (start_receiver_ok (fun _ => rfl) h.isReceiver h.ports.2 hpw' rfl)
  obtain ⟨ph, t, ⟨rfl, rfl⟩, h₁⟩ := exists_toSender hinit
    (m := pakeMessage (X.newPake .sender (some pw') 0) (asBytes "siec"))
    (by rw [hreceiver]; rfl) (by rw [hsender]; rfl)
    (by rw [hsw]; exact onPake_sender_ok (fun _ => rfl) hJ h.isSender hpw hkey hk)
  rw [hsender] at h₁
  obtain ⟨ph', u, ⟨rfl, rfl⟩, h₂⟩ := exists_toReceiver h₁ (m := pakeMessage key _) rfl
    (by rw [hreceiver]; rfl)
    (by
      rw [hrw]
      exact onPake_receiver_ok (fun _ => rfl) hJ h.isReceiver (by rw [hreceiver]; rfl) hkey' hk' _)
  rw [hreceiver] at h₂
  exact ⟨_, h₂, ⟨rfl, rfl, rfl, rfl⟩, rfl, rfl, rfl, rfl⟩

/-- The sender offers its files to a stranger. -/
theorem strangers_offer {files : FilesInformation} (hf : a.files = some files) :
    ∃ p : Pair X, (machine X M).Reachable p ∧
      (p.sender.sent[1]? = some (.externalIP ⟨a.externalIp⟩) ∧
        p.sender.sent[2]? = some (.filesInfo files) ∧ p.toReceiver = 1) ∧
      p.receiver.phase = .recv ∧ p.receiver.state = .ipExchange := by
  obtain ⟨p, hp, ⟨hph, hst, hlen, hto⟩, hrph, hrst, hip, hts⟩ :=
    strangers_exchange_keys hJ h hs hr hsw hrw
  subst hs hr
  obtain ⟨m, hm⟩ := List.length_eq_one_iff.mp hlen
  obtain ⟨ph, t, ⟨rfl, rfl⟩, h₁⟩ := exists_toSender hp (by rw [hts]; exact hip) hph
    (by rw [hsw]; exact onExternalIP_sender_ok (fun _ => rfl) h.isSender hst hf _)
  exact ⟨_, h₁, ⟨by simp [hm], by simp [hm], hto⟩, hrph, hrst⟩

/-- A stranger is offered the files, and creates the first one. -/
theorem strangers_create {files : FilesInformation} (hf : a.files = some files) {file : FileInfo}
    {list : List FileInfo} (hl : files.filesToTransfare = some (file :: list)) :
    ∃ p : Pair X, (machine X M).Reachable p ∧ ∃ loc, .createFile file loc ∈ p.receiver.ops := by
  obtain ⟨p, hp, ⟨hip, hoffer, hto⟩, hrph, hrst⟩ := strangers_offer hJ h hs hr hsw hrw hf
  subst hs hr
  obtain ⟨ph, t, ⟨rfl, rfl⟩, h₁⟩ := exists_toReceiver hp (by rw [hto]; exact hip) hrph
    (by rw [hrw]; exact onExternalIP_receiver_ok h.isReceiver hrst _)
  obtain ⟨ph, u, ⟨rfl, hulist⟩, h₂⟩ := exists_toReceiver h₁ (by simp [hto]; exact hoffer) rfl
    (by rw [hrw]; exact willing_offer h.isReceiver rfl hl)
  obtain ⟨ph, v, ⟨loc, hmem⟩, h₃⟩ := exists_receiverTick h₂
    (x := requestFile (.calm .willing) 0) (by simp [proceed, hrw]) (willing_first hulist)
  exact ⟨_, h₃, loc, hmem⟩

end Strangers

/-- Two ends with one room and different secrets. -/
theorem strangers_abc_xyz :
    Strangers .transparent (.sender "12345abc" [.plain "a.txt" "./" 5]) (.receiver "12345xyz") where
  isSender := rfl
  isReceiver := rfl
  ports := ⟨by simp [Setup.sender], by simp [Setup.receiver]⟩
  room := by decide +kernel
  passwords := ⟨asBytes "abc", asBytes "xyz", by decide +kernel, by decide +kernel,
    by decide +kernel, External.transparent_keysDiffer (by decide +kernel)⟩
  offer := ⟨_, rfl, by rintro _ ⟨⟩; decide⟩

end Pair
end Croc
