import Croc.Session.Spec

/-! The handlers of `process_client` where nothing around them fails. -/
namespace Croc
open Lib
namespace Session
variable {X : External} {W : World} {c : Setup} {s : Session X}

/-- The session with the encrypted session and the file tasks that the key exchange leaves. -/
def withKey (key : X.Pake) (enc : EncryptedSession) (reply : Message) (s : Session X) : Session X :=
  { s with
    key := some key
    encryptedSession := some enc
    state := .ipExchange
    sent := s.sent ++ [reply]
    rw := some ⟨s.readers.length, enc⟩
    readers := s.readers ++ [⟨enc, [], false⟩] }

section Accepting
variable (hsend : ∀ n, W.sendError n = none)

theorem start_sender_ok {pw : Bytes} (hs : c.isSender = true) (hport : c.relayPorts ≠ [])
    (hpw : c.secretTail = .ok pw) (hconn : W.connectError = none) : init X W c = new W := by
  have hlen : ¬ (asBytes c.sharedSecret).length < 5 := not_lt.mpr (length_of_secretTail hpw)
  obtain ⟨port, ports, hports⟩ := List.exists_cons_of_ne_nil hport
  apply run_of_post (I := fun t => t = new W)
  unfold start
  simp [hs, hports, hlen, hconn]
  rfl

/-- A receiver whose secret cannot be split panics before it sends anything. -/
theorem start_receiver_panics (hs : c.isSender = false) (hport : c.relayPorts ≠ [])
    (hpw : ∀ pw, c.secretTail ≠ .ok pw) (hconn : W.connectError = none) :
    (init X W c).phase = .ended (.error (.panic .secretSlice)) := by
  obtain ⟨port, ports, hports⟩ := List.exists_cons_of_ne_nil hport
  obtain ⟨h, hh⟩ : ∃ h, c.secretTail = .error h := by
    cases ht : c.secretTail with
    | ok pw => exact absurd ht (hpw pw)
    | error h => exact ⟨h, rfl⟩
  obtain rfl := secretTail_error hh
  apply run_of_post (I := fun t : Session X => t.phase = .ended (.error (.panic .secretSlice)))
  unfold start
  simp [hs, hports, hh, hconn, post_ite]

include hsend

theorem start_receiver_ok {pw : Bytes} (hs : c.isSender = false) (hport : c.relayPorts ≠ [])
    (hpw : c.secretTail = .ok pw) (hconn : W.connectError = none) :
    init X W c = { (new W : Session X) with
      key := some (X.newPake .sender (some pw) (W.seed 0))
      sent := [pakeMessage (X.newPake .sender (some pw) (W.seed 0)) (asBytes "siec")] } := by
  have hlen : ¬ (asBytes c.sharedSecret).length < 5 := not_lt.mpr (length_of_secretTail hpw)
  obtain ⟨port, ports, hports⟩ := List.exists_cons_of_ne_nil hport
  apply run_of_post (I := fun t : Session X => t = { (new W : Session X) with
      key := some (X.newPake .sender (some pw) (W.seed 0))
      sent := [pakeMessage (X.newPake .sender (some pw) (W.seed 0)) (asBytes "siec")] })
  unfold start
  simp [hs, hports, hlen, hpw, hconn, hsend, new]

/-- A sender that is given a key answers it. -/
theorem onPake_sender_ok {pw : Bytes} {q : X.PubKey} {p : X.Pake} {k : Block 32}
    (hJ : X.KeyJsonRoundTrip) (hs : c.isSender = true) (hpw : c.secretTail = .ok pw)
    (hp : X.update (X.newPake .reciever (some pw) (W.seed s.sent.length)) q = .ok p)
    (hk : X.pakeKey p = some k) :
    Post (onMessage W c (.pake ⟨asBytes (X.keyToJson q), asBytes "siec"⟩)) s
      (fun ph t => ph = .recv ∧ t = withKey p
        ⟨AesEncryptor.new X k (some (W.salt s.sent.length)) (W.salt s.sent.length)⟩
        (pakeMessage p (W.salt s.sent.length).toList) s) fun _ _ => False := by
  obtain ⟨hq, -⟩ := hJ q
  unfold onMessage processKeyExchange agreeKey answerKey enterSession startFsTask afterMessage
  simp [hs, hpw, hq, hp, hk, sessionKey, hsend, withKey]

/-- A receiver that is given the answer takes it. -/
theorem onPake_receiver_ok {q : X.PubKey} {key p : X.Pake} {k : Block 32}
    (hJ : X.KeyJsonRoundTrip) (hs : c.isSender = false) (hkey : s.key = some key)
    (hp : X.update key q = .ok p) (hk : X.pakeKey p = some k) (salt : Block 8) :
    Post (onMessage W c (.pake ⟨asBytes (X.keyToJson q), salt.toList⟩)) s
      (fun ph t => ph = .recv ∧ t = withKey p ⟨AesEncryptor.new X k (some salt) salt⟩
        (.externalIP ⟨c.externalIp⟩) s) fun _ _ => False := by
  obtain ⟨-, hq⟩ := hJ q
  unfold onMessage processKeyExchange agreeKey takeKey enterSession startFsTask afterMessage
  simp [hs, hkey, hq, hp, hk, sessionKey, hsend, withKey]

/-- A sender that is given an address offers its files. -/
theorem onExternalIP_sender_ok {files : FilesInformation} (hs : c.isSender = true)
    (hst : s.state = .ipExchange) (hf : c.files = some files) (msg : ExternalIPMessage) :
    Post (onMessage W c (.externalIP msg)) s
      (fun ph t => ph = .recv ∧ t = { s with
        peerExternalIp := some msg.externalIp
        state := .fileTransfare
        sent := s.sent ++ [.externalIP ⟨c.externalIp⟩, .filesInfo files] }) fun _ _ => False := by
  unfold onMessage processIpExchange afterMessage
  simp [hs, hst, hf, hsend]

omit hsend in
theorem onExternalIP_receiver_ok (hs : c.isSender = false) (hst : s.state = .ipExchange)
    (msg : ExternalIPMessage) :
    Post (onMessage W c (.externalIP msg)) s
      (fun ph t => ph = .recv ∧ t = { s with
        peerExternalIp := some msg.externalIp
        state := .fileInfoTransfare }) fun _ _ => False := by
  unfold onMessage processIpExchange afterMessage
  simp [hs, hst]

omit hsend in
/-- A receiver that accepts an offer without empty folders goes for the first file. -/
theorem onFilesInfo_ok {files : FilesInformation} {list : List FileInfo} {total : Int64}
    (hs : c.isSender = false) (hst : s.state = .fileInfoTransfare)
    (hl : files.filesToTransfare = some list)
    (hfolders : files.emptyFoldersToTransfare.getD [] = [])
    (htotal : files.totalSize W.overflowChecks = some total) (hyes : ∀ n, W.confirm n = some true) :
    Post (onMessage W c (.filesInfo files)) s
      (fun ph t => ph = .nextFile 0 ∧ t = { s with
        filesToReceive := some files
        prompts := s.prompts ++ [.receive files.totalItems total]
        state := .fileTransfare
        dests := [] }) fun _ _ => False := by
  unfold onMessage processFilesInfo createEmptyFolders afterMessage
  simp [hs, hst, hl, hfolders, htotal, hyes, forEach, toReceive]

omit hsend in
/-- A receiver that cannot add up the announced sizes ends with an error. -/
theorem onFilesInfo_overflow {files : FilesInformation} (hs : c.isSender = false)
    (hst : s.state = .fileInfoTransfare) (htotal : files.totalSize W.overflowChecks = none) :
    (run (onMessage W c (.filesInfo files)) s).phase = .ended (.error (.err .join)) := by
  apply run_of_post (I := fun t : Session X => t.phase = .ended (.error (.err .join)))
  unfold onMessage processFilesInfo
  simp [hs, hst, htotal]

/-- `Finished` is answered, and ends the session. -/
theorem onFinished_ok : Post (onMessage W c .finished) s
    (fun ph t => ph = .ended (.ok ()) ∧ t = { s with sent := s.sent ++ [.finished] })
    fun _ _ => False := by
  unfold onMessage
  simp [hsend]

omit hsend in
/-- A request makes the sender plan the chunks of the file. -/
theorem onRequest_ok {files : FilesInformation} {list : List FileInfo} {file : FileInfo}
    {i size : ℕ} {rw : FsInterface} (hs : c.isSender = true) (hst : s.state = .fileTransfare)
    (hrw : s.rw = some rw) (hf : c.files = some files) (hl : files.filesToTransfare = some list)
    (hi : i < 2 ^ 63) (hfile : list[i]? = some file)
    (hsize : ∀ n, W.os.openLen n (Path.join file.sourceFolder file.name) = some size) :
    Post (onMessage W c (fileRequest i)) s
      (fun ph t => ph = .sending rw (chunkPlan i size) ∧ t = { s with calls := s.calls + 1 })
      fun _ _ => False := by
  have hmod : i % 18446744073709551616 = i := Nat.mod_eq_of_lt (by omega)
  unfold onMessage fileRequest sendFile
  simp [hs, hst, hrw, hf, hl, hmod, hfile, hsize]

omit hsend in
/-- A sender that has planned its chunks goes back to its messages. -/
theorem afterMessage_sender_ok (hs : c.isSender = true) (hst : s.state = .fileTransfare) :
    Post (afterMessage W c) s (fun ph t => ph = .recv ∧ t = s) fun _ _ => False := by
  unfold afterMessage
  simp [hs, hst]

omit hsend in
/-- A chunk is handed to a reader task that is still there. -/
theorem handChunk_ok {enc : EncryptedSession} {queue : List FileChunkInfo} (job : FileChunkInfo)
    (hr : s.readers = [⟨enc, queue, false⟩]) :
    Post (handChunk (X := X) ⟨0, enc⟩ job) s
      (fun _ t => t = { s with readers := [⟨enc, queue ++ [job], false⟩] }) fun _ _ => False := by
  unfold handChunk
  simp [hr, List.modify]

/-- The receiver creates the next file and requests it. -/
theorem requestFile_ok {file : FileInfo} {i : ℕ} (hfile : s.toReceive.bind (·[i]?) = some file)
    (hcreate : ∀ n loc, W.os.create n loc = true)
    (hlen : ∀ n loc size, W.os.setLen n loc size = true) :
    Post (requestFile W i) s
      (fun ph t => ∃ loc disk, ph = .chunks i loc (totalChunks file) [] ∧ t = { s with
        calls := s.calls + 3
        ops := s.ops ++ [.createFile file loc]
        dests := s.dests ++ [loc]
        disk := disk
        sent := s.sent ++ [fileRequest i] }) fun _ _ => False := by
  unfold requestFile createFile
  simp [hfile, hcreate, hlen, hsend]

/-- After the last file it says `Finished`. -/
theorem requestFile_last {i : ℕ} (hnone : s.toReceive.bind (·[i]?) = none) :
    Post (requestFile W i) s
      (fun ph t => ph = .recv ∧ t = { s with sent := s.sent ++ [.finished] }) fun _ _ => False := by
  unfold requestFile
  simp [hnone, hsend]

omit hsend in
theorem takeChunk_ok {rw : FsInterface} (hrw : s.rw = some rw) (i : ℕ) (loc : Location) (total : ℤ)
    (got : List DataFrame) (frame : DataFrame) :
    Post (takeChunk i loc total got frame) s
      (fun ph t => ph = .chunks i loc total (got ++ [frame]) ∧ t = { s with
        writers := s.writers ++ [⟨rw.enc, i, loc, frame⟩] }) fun _ _ => False := by
  unfold takeChunk
  simp [hrw]

end Accepting
end Session
end Croc
