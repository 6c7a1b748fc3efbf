import Croc.Failure

/-! The frame format of a connection: the magic, the length as a little-endian `u32`, the payload.
A stream is the list of bytes that are still to be read; its end is the end of the list. -/
namespace Croc
open Lib

/-- `b"croc"` -/
def crocMagic : Bytes := [0x63, 0x72, 0x6f, 0x63]

/-- The bytes that the writers build for a payload. -/
def frame (msg : Bytes) : Bytes := crocMagic ++ leBytes 4 msg.length ++ msg

namespace CrocProto

/-- `CrocProto::write` up to the socket: the length has to fit in a `u32`. -/
def write (msg : Bytes) : Except Halt Bytes :=
  if msg.length < 2 ^ 32 then .ok (frame msg) else .error (.err .tooLong)

/-- `CrocProto::read`, with what is left on the stream. A short read consumes the rest. -/
def read (input : Bytes) : Except Halt Bytes × Bytes :=
  if input.length < 4 then (.error (.err .magicEof), [])
  else if input.take 4 ≠ crocMagic then (.error (.err (.badMagic (input.take 4))), input.drop 4)
  else
    let rest := input.drop 4
    if rest.length < 4 then (.error (.err .sizeEof), [])
    else
      let msgLen := leNat (rest.take 4)
      let body := rest.drop 4
      if body.length < msgLen then (.error (.err .io), [])
      else (.ok (body.take msgLen), body.drop msgLen)

theorem write_eq_ok {msg out : Bytes} :
    write msg = .ok out ↔ msg.length < 2 ^ 32 ∧ out = frame msg := by
  unfold write
  split <;> simp_all [eq_comm]

/-- A frame is read back as its payload and nothing after it is touched. -/
@[simp] theorem read_frame {msg : Bytes} (h : msg.length < 2 ^ 32) (r : Bytes) :
    read (frame msg ++ r) = (.ok msg, r) := by
  have hlen : leNat (leBytes 4 msg.length) = msg.length :=
    leNat_leBytes (by norm_num at h ⊢; exact h)
  have htake : (leBytes 4 msg.length ++ (msg ++ r)).take 4 = leBytes 4 msg.length :=
    List.take_left' (leBytes_length 4 _)
  have hdrop : (leBytes 4 msg.length ++ (msg ++ r)).drop 4 = msg ++ r :=
    List.drop_left' (leBytes_length 4 _)
  have hmagic : frame msg ++ r = crocMagic ++ (leBytes 4 msg.length ++ (msg ++ r)) := by
    simp [frame]
  have hm4 : crocMagic.length = 4 := rfl
  rw [hmagic, read, List.take_left' hm4, List.drop_left' hm4]
  simp [hm4, htake, hdrop, hlen]

/-- What a successful read consumed is the frame of what it returned. -/
theorem read_ok {input msg r : Bytes} (h : read input = (.ok msg, r)) :
    input = frame msg ++ r ∧ msg.length < 2 ^ 32 := by
  unfold read at h
  split at h
  · simp at h
  next hlen =>
  split at h
  · simp at h
  next hmagic =>
  push Not at hmagic
  dsimp only at h
  split at h
  · simp at h
  next hsize =>
  split at h
  · simp at h
  next hbody =>
  obtain ⟨hm, hr⟩ := Prod.mk.inj h
  have hm : ((input.drop 4).drop 4).take (leNat ((input.drop 4).take 4)) = msg := by simpa using hm
  have h4 : ((input.drop 4).take 4).length = 4 := by rw [List.length_take]; omega
  have hml : msg.length = leNat ((input.drop 4).take 4) := by
    rw [← hm, List.length_take]
    omega
  have hsz : leBytes 4 msg.length = (input.drop 4).take 4 := by
    have := leBytes_leNat ((input.drop 4).take 4)
    rwa [h4, ← hml] at this
  have hlt := leNat_lt ((input.drop 4).take 4)
  rw [h4, ← hml] at hlt
  refine ⟨?_, by norm_num at hlt ⊢; exact hlt⟩
  rw [frame, hsz, ← hmagic, ← hm, ← hr, List.append_assoc, List.append_assoc,
    List.take_append_drop, List.take_append_drop, List.take_append_drop]

theorem frame_length (msg : Bytes) : (frame msg).length = msg.length + 8 := by
  simp [frame, crocMagic]
  omega

theorem read_ok_length {input msg r : Bytes} (h : read input = (.ok msg, r)) :
    r.length < input.length := by
  obtain ⟨rfl, _⟩ := read_ok h
  simp [frame_length]

/-- A failing read never panics. -/
theorem read_error {input r : Bytes} {h : Halt} (hr : read input = (.error h, r)) :
    ∃ e, h = .err e := by
  unfold read at hr
  split at hr
  · exact ⟨.magicEof, by simpa [eq_comm] using (Prod.mk.inj hr).1⟩
  split at hr
  · exact ⟨.badMagic (input.take 4), by simpa [eq_comm] using (Prod.mk.inj hr).1⟩
  dsimp only at hr
  split at hr
  · exact ⟨.sizeEof, by simpa [eq_comm] using (Prod.mk.inj hr).1⟩
  split at hr
  · exact ⟨.io, by simpa [eq_comm] using (Prod.mk.inj hr).1⟩
  · simp at hr

/-- The rule for successive reads: the stream gets shorter with each message that is read. -/
theorem read_induction {P : Bytes → Prop}
    (herror : ∀ input e rest, read input = (.error e, rest) → P input)
    (hok : ∀ input msg rest, read input = (.ok msg, rest) → P rest → P input) (input : Bytes) :
    P input := by
  induction hn : input.length using Nat.strong_induction_on generalizing input with
  | _ n ih =>
    rcases hr : read input with ⟨e | msg, rest⟩
    · exact herror input e rest hr
    · exact hok input msg rest hr (ih _ (hn ▸ read_ok_length hr) rest rfl)

/-- The results of successive reads up to the first error. -/
def readAll (input : Bytes) : List Bytes :=
  match _h : read input with
  | (.ok msg, r) => msg :: readAll r
  | (.error _, _) => []
termination_by input.length
decreasing_by exact read_ok_length ‹_›

theorem readAll_ok {input msg r : Bytes} (h : read input = (.ok msg, r)) :
    readAll input = msg :: readAll r := by
  rw [readAll]
  split
  next heq => rw [heq] at h; simp_all
  next heq => rw [heq] at h; simp at h

theorem readAll_error {input r : Bytes} {e : Halt} (h : read input = (.error e, r)) :
    readAll input = [] := by
  rw [readAll]
  split
  next heq => rw [heq] at h; simp at h
  next => rfl

@[simp] theorem readAll_frame {msg : Bytes} (h : msg.length < 2 ^ 32) (r : Bytes) :
    readAll (frame msg ++ r) = msg :: readAll r := readAll_ok (read_frame h r)

@[simp] theorem readAll_nil : readAll [] = [] := readAll_error (r := []) (e := .err .magicEof) rfl

/-- Bytes that arrive later do not change what was read. -/
theorem read_append {input msg r : Bytes} (h : read input = (.ok msg, r)) (more : Bytes) :
    read (input ++ more) = (.ok msg, r ++ more) := by
  obtain ⟨rfl, hlt⟩ := read_ok h
  rw [List.append_assoc, read_frame hlt]

theorem readAll_mono {a b : Bytes} (h : a <+: b) : readAll a <+: readAll b := by
  obtain ⟨more, rfl⟩ := h
  induction a using read_induction with
  | herror a e rest hr =>
    rw [readAll_error hr]
    exact List.nil_prefix
  | hok a msg rest hr ih =>
    rw [readAll_ok hr, readAll_ok (read_append hr more)]
    exact (List.prefix_cons_inj msg).mpr ih

/-- The frames of a list of messages, one after the other. -/
def frames (msgs : List Bytes) : Bytes := (msgs.map frame).flatten

@[simp] theorem frames_cons (msg : Bytes) (msgs : List Bytes) :
    frames (msg :: msgs) = frame msg ++ frames msgs := rfl

theorem readAll_frames_append {msgs : List Bytes} (h : ∀ m ∈ msgs, m.length < 2 ^ 32) (r : Bytes) :
    readAll (frames msgs ++ r) = msgs ++ readAll r := by
  induction msgs with
  | nil => rfl
  | cons msg msgs ih =>
    obtain ⟨hm, hms⟩ := List.forall_mem_cons.mp h
    rw [frames_cons, List.append_assoc, readAll_frame hm, ih hms, List.cons_append]

theorem readAll_frames {msgs : List Bytes} (h : ∀ m ∈ msgs, m.length < 2 ^ 32) :
    readAll (frames msgs) = msgs := by
  simpa using readAll_frames_append h []

section Arriving
variable {msgs : List Bytes} {arrived rest data left : Bytes}

/-- A message that can be read off what has arrived of a stream of frames is the next one. -/
theorem read_of_frames (hmsgs : ∀ m ∈ msgs, m.length < 2 ^ 32) (h : frames msgs = arrived ++ rest)
    (hr : read arrived = (.ok data, left)) :
    ∃ more, msgs = data :: more ∧ frames more = left ++ rest := by
  have hr' := read_append hr rest
  rw [← h] at hr'
  cases msgs with
  | nil => simp [frames, read] at hr'
  | cons msg more =>
    rw [frames_cons, read_frame (hmsgs msg List.mem_cons_self)] at hr'
    obtain ⟨hdata, hleft⟩ := Prod.mk.inj hr'
    exact ⟨more, by rw [Except.ok.inj hdata], hleft⟩

/-- A stream of frames shows no wrong magic, wherever it is cut off. -/
theorem read_frames_ne_badMagic (h : frames msgs = arrived ++ rest) (found : Bytes) :
    read arrived ≠ (.error (.err (.badMagic found)), left) := by
  intro hr
  unfold read at hr
  split at hr
  · simp at hr
  next hlen =>
  split at hr
  next hmagic =>
    cases msgs with
    | nil =>
      have hnil : arrived = [] := (List.append_eq_nil_iff.mp h.symm).1
      simp [hnil] at hlen
    | cons msg more =>
      have htake := congrArg (List.take 4) h
      rw [List.take_append_of_le_length (Nat.not_lt.mp hlen), frames_cons, frame,
        List.append_assoc, List.append_assoc] at htake
      exact hmagic (htake.symm.trans (List.take_left' rfl))
  next =>
  dsimp only at hr
  split at hr
  · simp at hr
  split at hr <;> simp at hr

end Arriving

end CrocProto
end Croc
