import Croc.Lib.Segments
import Croc.Proto.CrocRaw

/-! A stream of frames: the three writers that may share a connection, and reads from a network
that cuts the stream where it likes. -/
namespace Croc
open Lib

/-- The channel to the task of `from_stream` that writes to the socket: the buffers that it has yet
to write, and whether it is gone. -/
structure Channel where
  queue : List Bytes
  closed : Bool
  deriving DecidableEq

def Channel.send (buffer : Bytes) (channel : Channel) : Except Halt Channel :=
  if channel.closed then .error (.err .channelClosed)
  else .ok { channel with queue := channel.queue ++ [buffer] }

/-- `OwnedSender::write` -/
def OwnedSender.write (msg : Bytes) (channel : Channel) : Except Halt Channel := do
  let buffer ← CrocProto.write msg
  channel.send buffer

namespace MpscCrocProto

/-- `MpscCrocProto::write` -/
def write (msg : Bytes) (channel : Channel) : Except Halt Channel := do
  let buffer ← CrocProto.write msg
  channel.send buffer

/-- The writing task of `from_stream`, until the channel is empty. -/
def writeTask (channel : Channel) (stream : Bytes) : Bytes := stream ++ channel.queue.flatten

end MpscCrocProto

inductive Writer where
  | crocProto | mpscCrocProto | ownedSender
  deriving DecidableEq

/-- A write to a connection that is alive, and the stream after it. -/
def Writer.write (w : Writer) (msg stream : Bytes) : Except Halt Unit × Bytes :=
  let viaChannel (written : Except Halt Channel) : Except Halt Unit × Bytes :=
    match written with
    | .ok channel => (.ok (), MpscCrocProto.writeTask channel stream)
    | .error e => (.error e, stream)
  match w with
  | .crocProto =>
    match CrocProto.write msg with
    | .ok buffer => (.ok (), stream ++ buffer)
    | .error e => (.error e, stream)
  | .mpscCrocProto => viaChannel (MpscCrocProto.write msg ⟨[], false⟩)
  | .ownedSender => viaChannel (OwnedSender.write msg ⟨[], false⟩)

/-- Messages written one after the other, each by a writer of its own, up to the first error. -/
def writeMany : List (Writer × Bytes) → Bytes → Except Halt Unit × Bytes
  | [], stream => (.ok (), stream)
  | (w, msg) :: msgs, stream =>
    match w.write msg stream with
    | (.ok (), stream) => writeMany msgs stream
    | (.error e, stream) => (.error e, stream)

namespace CrocProto

/-- `CrocProto::read` from a socket, where every `read_exact` takes what has arrived. -/
def readSocket (segments : List Bytes) : Except Halt Bytes × List Bytes :=
  match readExact 4 segments with
  | (none, segments) => (.error (.err .magicEof), segments)
  | (some headerMagic, segments) =>
    if headerMagic ≠ crocMagic then (.error (.err (.badMagic headerMagic)), segments)
    else match readExact 4 segments with
      | (none, segments) => (.error (.err .sizeEof), segments)
      | (some msgLen, segments) =>
        match readExact (leNat msgLen) segments with
        | (none, segments) => (.error (.err .io), segments)
        | (some message, segments) => (.ok message, segments)

/-- `k` successive reads, up to the first error. -/
def readMany : ℕ → List Bytes → Except Halt (List Bytes) × List Bytes
  | 0, segments => (.ok [], segments)
  | k + 1, segments =>
    match readSocket segments with
    | (.error e, segments) => (.error e, segments)
    | (.ok msg, segments) =>
      let (msgs, segments) := readMany k segments
      (msgs.map (msg :: ·), segments)

/-- A read does not depend on how the network has cut the stream. -/
theorem readSocket_eq (segments : List Bytes) :
    (readSocket segments).1 = (read segments.flatten).1 ∧
      (readSocket segments).2.flatten = (read segments.flatten).2 := by
  unfold readSocket read
  by_cases h4 : segments.flatten.length < 4
  · rw [readExact_of_lt h4, if_pos h4]
    exact ⟨rfl, rfl⟩
  obtain ⟨left, hread, hleft⟩ := readExact_of_le (Nat.le_of_not_lt h4)
  rw [hread, if_neg h4]
  dsimp only
  by_cases hmagic : segments.flatten.take 4 ≠ crocMagic
  · rw [if_pos hmagic, if_pos hmagic]
    exact ⟨rfl, hleft⟩
  rw [if_neg hmagic, if_neg hmagic, ← hleft]
  by_cases h8 : left.flatten.length < 4
  · rw [readExact_of_lt h8, if_pos h8]
    exact ⟨rfl, rfl⟩
  obtain ⟨left', hread', hleft'⟩ := readExact_of_le (Nat.le_of_not_lt h8)
  rw [hread', if_neg h8, ← hleft']
  dsimp only
  by_cases hbody : left'.flatten.length < leNat (left.flatten.take 4)
  · rw [readExact_of_lt hbody, if_pos hbody]
    exact ⟨rfl, rfl⟩
  · obtain ⟨left'', hread'', hleft''⟩ := readExact_of_le (Nat.le_of_not_lt hbody)
    rw [hread'', if_neg hbody]
    exact ⟨rfl, hleft''⟩

theorem readSocket_ok {segments left : List Bytes} {msg : Bytes} :
    readSocket segments = (.ok msg, left) → read segments.flatten = (.ok msg, left.flatten) := by
  intro h
  obtain ⟨h1, h2⟩ := readSocket_eq segments
  rw [h] at h1 h2
  exact Prod.ext h1.symm h2.symm

theorem readSocket_of_read {segments : List Bytes} {msg rest : Bytes}
    (h : read segments.flatten = (.ok msg, rest)) :
    ∃ left, readSocket segments = (.ok msg, left) ∧ left.flatten = rest := by
  obtain ⟨h1, h2⟩ := readSocket_eq segments
  rw [h] at h1 h2
  exact ⟨(readSocket segments).2, Prod.ext h1 rfl, h2⟩

/-- Two ways to cut one stream give the same messages and leave the same bytes. -/
theorem readMany_congr (k : ℕ) {segments segments' : List Bytes}
    (h : segments.flatten = segments'.flatten) :
    (readMany k segments).1 = (readMany k segments').1 ∧
      (readMany k segments).2.flatten = (readMany k segments').2.flatten := by
  induction k generalizing segments segments' with
  | zero => exact ⟨rfl, h⟩
  | succ k ih =>
    obtain ⟨hmsg, hleft⟩ := readSocket_eq segments
    obtain ⟨hmsg', hleft'⟩ := readSocket_eq segments'
    rw [h] at hmsg hleft
    rcases hread : readSocket segments with ⟨r, left⟩
    rcases hread' : readSocket segments' with ⟨r', left'⟩
    rw [hread] at hmsg hleft
    rw [hread'] at hmsg' hleft'
    obtain rfl : r = r' := hmsg.trans hmsg'.symm
    have hrest : left.flatten = left'.flatten := hleft.trans hleft'.symm
    unfold readMany
    rw [hread, hread']
    cases r with
    | error e => exact ⟨rfl, hrest⟩
    | ok msg =>
      obtain ⟨hmsgs, hleft⟩ := ih hrest
      dsimp only
      exact ⟨by rw [hmsgs], hleft⟩

/-- Frames are read back as their messages, and nothing after them is touched. -/
theorem readMany_frames {msgs : List Bytes} (hmsgs : ∀ m ∈ msgs, m.length < 2 ^ 32) {r : Bytes}
    {segments : List Bytes} (h : segments.flatten = frames msgs ++ r) :
    ∃ left, readMany msgs.length segments = (.ok msgs, left) ∧ left.flatten = r := by
  induction msgs generalizing segments with
  | nil => exact ⟨segments, rfl, h⟩
  | cons msg msgs ih =>
    obtain ⟨hm, hms⟩ := List.forall_mem_cons.mp hmsgs
    rw [frames_cons, List.append_assoc] at h
    obtain ⟨left, hread, hleft⟩ := readSocket_of_read (h ▸ read_frame hm _)
    obtain ⟨left', hread', hleft'⟩ := ih hms hleft
    refine ⟨left', ?_, hleft'⟩
    rw [List.length_cons, readMany, hread]
    dsimp only
    rw [hread']
    rfl

/-- What successful reads have consumed is the frames of what they returned. -/
theorem frames_of_readMany {k : ℕ} {segments left : List Bytes} {msgs : List Bytes}
    (h : readMany k segments = (.ok msgs, left)) :
    msgs.length = k ∧ segments.flatten = frames msgs ++ left.flatten ∧
      ∀ m ∈ msgs, m.length < 2 ^ 32 := by
  induction k generalizing segments msgs with
  | zero =>
    obtain ⟨hm, rfl⟩ := Prod.mk.inj h
    obtain rfl : [] = msgs := Except.ok.inj hm
    exact ⟨rfl, rfl, by simp⟩
  | succ k ih =>
    unfold readMany at h
    split at h
    · simp at h
    next msg segments' hread =>
      obtain ⟨hm, hl⟩ := Prod.mk.inj h
      cases hrest : (readMany k segments').1 with
      | error e => simp [hrest, Except.map] at hm
      | ok msgs' =>
        obtain rfl : msg :: msgs' = msgs := by simpa [hrest, Except.map] using hm
        obtain ⟨hlen, hflat, hlt⟩ := ih (Prod.ext hrest hl)
        obtain ⟨hin, hmsg⟩ := read_ok (readSocket_ok hread)
        rw [hin, hflat, frames_cons, List.append_assoc]
        exact ⟨by rw [List.length_cons, hlen], rfl, List.forall_mem_cons.mpr ⟨hmsg, hlt⟩⟩

end CrocProto

/-- The three writers put the same frame on the stream. -/
theorem Writer.write_ok (w : Writer) {msg : Bytes} (h : msg.length < 2 ^ 32) (stream : Bytes) :
    w.write msg stream = (.ok (), stream ++ frame msg) := by
  have hw : CrocProto.write msg = .ok (frame msg) := CrocProto.write_eq_ok.mpr ⟨h, rfl⟩
  cases w with
  | crocProto => simp [Writer.write, hw]
  | mpscCrocProto | ownedSender =>
    simp [Writer.write, MpscCrocProto.write, OwnedSender.write, hw, bind, Except.bind,
      Channel.send, MpscCrocProto.writeTask]

/-- A message that is too long for a frame leaves the stream as it is. -/
theorem Writer.write_tooLong (w : Writer) {msg : Bytes} (h : 2 ^ 32 ≤ msg.length)
    (stream : Bytes) : w.write msg stream = (.error (.err .tooLong), stream) := by
  have hw : CrocProto.write msg = .error (.err .tooLong) := if_neg (Nat.not_lt.mpr h)
  cases w with
  | crocProto => simp [Writer.write, hw]
  | mpscCrocProto | ownedSender =>
    simp [Writer.write, MpscCrocProto.write, OwnedSender.write, hw, bind, Except.bind]

theorem writeMany_ok {msgs : List (Writer × Bytes)} (h : ∀ m ∈ msgs, m.2.length < 2 ^ 32)
    (stream : Bytes) :
    writeMany msgs stream = (.ok (), stream ++ CrocProto.frames (msgs.map Prod.snd)) := by
  induction msgs generalizing stream with
  | nil => simp [writeMany, CrocProto.frames]
  | cons m msgs ih =>
    obtain ⟨hm, hms⟩ := List.forall_mem_cons.mp h
    rw [writeMany, m.1.write_ok hm, List.map_cons, CrocProto.frames_cons, ← List.append_assoc]
    exact ih hms _

/-- The laws of the frame stream. -/
structure FrameCodec : Prop where
  /-- What any writers have written is read back in order, and what follows is left. -/
  roundTrip : ∀ (msgs : List (Writer × Bytes)) (r : Bytes) (segments : List Bytes),
    (∀ m ∈ msgs, m.2.length < 2 ^ 32) →
      (writeMany msgs []).1 = .ok () ∧
      (segments.flatten = (writeMany msgs []).2 ++ r →
        ∃ left, CrocProto.readMany msgs.length segments = (.ok (msgs.map Prod.snd), left) ∧
          left.flatten = r)
  /-- What has been read, written again, is what was consumed. -/
  reencode : ∀ (k : ℕ) (segments left msgs : List Bytes),
    CrocProto.readMany k segments = (.ok msgs, left) → msgs.length = k ∧
      ∀ writers : List Writer, writers.length = k →
        (writeMany (writers.zip msgs) []).1 = .ok () ∧
          segments.flatten = (writeMany (writers.zip msgs) []).2 ++ left.flatten
  tooLong : ∀ (w : Writer) (msg stream : Bytes), 2 ^ 32 ≤ msg.length →
    ∃ e, w.write msg stream = (.error (.err e), stream)

theorem frameCodec : FrameCodec where
  roundTrip msgs r segments h := by
    rw [writeMany_ok h, List.nil_append]
    refine ⟨rfl, fun hs => ?_⟩
    have hshort : ∀ m ∈ msgs.map Prod.snd, m.length < 2 ^ 32 := by
      intro m hm
      obtain ⟨m', hm', rfl⟩ := List.mem_map.mp hm
      exact h m' hm'
    have := CrocProto.readMany_frames hshort hs
    rwa [List.length_map] at this
  reencode k segments left msgs h := by
    obtain ⟨hlen, hflat, hshort⟩ := CrocProto.frames_of_readMany h
    refine ⟨hlen, fun writers hw => ?_⟩
    have hsnd : (writers.zip msgs).map Prod.snd = msgs :=
      List.map_snd_zip (by rw [hlen, hw])
    have hshort' : ∀ m ∈ writers.zip msgs, m.2.length < 2 ^ 32 :=
      fun m hm => hshort m.2 (hsnd ▸ List.mem_map_of_mem hm)
    rw [writeMany_ok hshort', hsnd, List.nil_append]
    exact ⟨rfl, hflat⟩
  tooLong w msg stream h := ⟨.tooLong, w.write_tooLong h stream⟩

end Croc
