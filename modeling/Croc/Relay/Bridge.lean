import Croc.Relay.Steps

/-! `bridge_sockets`: the two copy loops of `asymmetric_bridge_sockets`, joined so that an error of
one cancels the other, and what they do to the two sockets. -/
namespace Croc.Server
open Lib

/-- One of the two sockets of a bridge. -/
inductive Side where
  | a | b
  deriving DecidableEq

def Side.other : Side → Side
  | .a => .b
  | .b => .a

@[simp] theorem Side.other_other (x : Side) : x.other.other = x := by cases x <;> rfl

theorem Side.other_ne (x : Side) : x.other ≠ x := by cases x <;> decide

theorem Side.eq_or_eq_other (x y : Side) : y = x ∨ y = x.other := by
  cases x <;> cases y <;> simp [Side.other]

/-- What the peer behind a socket sends, and whether it ends its stream after that. -/
structure Feed where
  bytes : Bytes
  ends : Bool
  deriving DecidableEq

/-- Where a copy loop is: in `from.read`, in `to_s.write_all` with what is left of its buffer, or
over, by the end of the stream that it reads or by an error. -/
inductive CopyPc where
  | read
  | writeAll (buffer : Bytes)
  | returned
  | failed
  deriving DecidableEq

/-- A copy loop: what has not been read yet, what it has read, and what it has written. -/
structure CopyLoop where
  unread : Bytes
  taken : Bytes
  written : Bytes
  pc : CopyPc
  deriving DecidableEq

inductive CopyEvent where
  | read (amount : ℕ)
  /-- `read` returns zero. -/
  | eof
  | readFails
  | writeSome (n : ℕ)
  | writeFails
  deriving DecidableEq

namespace CopyLoop

def start (feed : Feed) : CopyLoop := ⟨feed.bytes, [], [], .read⟩

/-- `asymmetric_bridge_sockets` from one await to the next. -/
def step (ends : Bool) (l : CopyLoop) : CopyEvent → Option CopyLoop
  | .read amount =>
    match l.pc with
    | .read =>
      if 0 < amount ∧ amount ≤ 1024 ∧ amount ≤ l.unread.length then some { l with
        unread := l.unread.drop amount
        taken := l.taken ++ l.unread.take amount
        pc := .writeAll (l.unread.take amount) }
      else none
    | _ => none
  | .eof =>
    match l.pc with
    | .read => if l.unread = [] ∧ ends = true then some { l with pc := .returned } else none
    | _ => none
  | .readFails =>
    match l.pc with
    | .read => some { l with pc := .failed }
    | _ => none
  | .writeSome n =>
    match l.pc with
    | .writeAll buffer =>
      if 0 < n ∧ n ≤ buffer.length then some { l with
        written := l.written ++ buffer.take n
        pc := if n = buffer.length then .read else .writeAll (buffer.drop n) }
      else none
    | _ => none
  | .writeFails =>
    match l.pc with
    | .writeAll _ => some { l with pc := .failed }
    | _ => none

end CopyLoop

/-- A bridge: the loop that reads from each socket, which sockets are shut for writing, and what
`bridge_sockets` has returned. -/
structure Bridge where
  loop : Side → CopyLoop
  shut : Side → Bool
  result : Option (Except Halt Unit)

namespace Bridge

def start (feed : Side → Feed) : Bridge where
  loop x := .start (feed x)
  shut _ := false
  result := none

/-- `try_join!` waits for both loops, or for an error of one. Only when `bridge_sockets` returns
are its streams dropped; a loop that returns drops a borrowed half, which shuts nothing. -/
def join (s : Bridge) : Bridge :=
  if (s.loop .a).pc = .failed ∨ (s.loop .b).pc = .failed then
    { s with shut := fun _ => true, result := some (.error (.err .io)) }
  else if (s.loop .a).pc = .returned ∧ (s.loop .b).pc = .returned then
    { s with shut := fun _ => true, result := some (.ok ()) }
  else s

/-- A step of the loop that reads from `x`. -/
def step (feed : Side → Feed) (s : Bridge) (e : Side × CopyEvent) : Option Bridge :=
  if s.result = none then
    ((s.loop e.1).step (feed e.1).ends e.2).map fun l =>
      join { s with loop := Function.update s.loop e.1 l }
  else none

def machine (feed : Side → Feed) : Machine Bridge (Side × CopyEvent) := ⟨start feed, step feed⟩

end Bridge

namespace CopyLoop

/-- What has been read and not been written. -/
def held (l : CopyLoop) : Bytes :=
  match l.pc with
  | .writeAll buffer => buffer
  | _ => []

/-- A copy loop copies. -/
structure Copies (feed : Feed) (l : CopyLoop) : Prop where
  taken : l.taken ++ l.unread = feed.bytes
  within : l.written <+: l.taken
  covered : l.pc ≠ .failed → l.written ++ l.held = l.taken
  returned : l.pc = .returned → l.unread = [] ∧ feed.ends = true
  filled : l.pc ≠ .writeAll []

variable {feed : Feed} {l l' : CopyLoop}

theorem copies_start (feed : Feed) : Copies feed (start feed) where
  taken := rfl
  within := List.prefix_rfl
  covered _ := rfl
  returned h := by cases h
  filled h := by cases h

/-- What a copy loop can do. -/
theorem step_cases {ends : Bool} {e : CopyEvent} (he : l.step ends e = some l') :
    (∃ n, l.pc = .read ∧ 0 < n ∧ n ≤ 1024 ∧ n ≤ l.unread.length ∧ l' = { l with
      unread := l.unread.drop n
      taken := l.taken ++ l.unread.take n
      pc := .writeAll (l.unread.take n) }) ∨
    (l.pc = .read ∧ l.unread = [] ∧ ends = true ∧ l' = { l with pc := .returned }) ∨
    l' = { l with pc := .failed } ∨
    ∃ buffer n, l.pc = .writeAll buffer ∧ 0 < n ∧ n ≤ buffer.length ∧ l' = { l with
      written := l.written ++ buffer.take n
      pc := if n = buffer.length then .read else .writeAll (buffer.drop n) } := by
  cases e with
  | read n =>
    simp only [step] at he
    split at he
    next hpc =>
      obtain ⟨⟨hpos, hmax, hlen⟩, hl⟩ := Option.ite_none_right_eq_some.mp he
      obtain rfl := Option.some.inj hl
      exact Or.inl ⟨n, hpc, hpos, hmax, hlen, rfl⟩
    · cases he
  | eof =>
    simp only [step] at he
    split at he
    next hpc =>
      obtain ⟨⟨hunread, hends⟩, hl⟩ := Option.ite_none_right_eq_some.mp he
      obtain rfl := Option.some.inj hl
      exact Or.inr (Or.inl ⟨hpc, hunread, hends, rfl⟩)
    · cases he
  | readFails | writeFails =>
    simp only [step] at he
    split at he
    · obtain rfl := Option.some.inj he
      exact Or.inr (Or.inr (Or.inl rfl))
    · cases he
  | writeSome n =>
    simp only [step] at he
    split at he
    next buffer hpc =>
      obtain ⟨⟨hpos, hlen⟩, hl⟩ := Option.ite_none_right_eq_some.mp he
      obtain rfl := Option.some.inj hl
      exact Or.inr (Or.inr (Or.inr ⟨buffer, n, hpc, hpos, hlen, rfl⟩))
    · cases he

theorem Copies.step (h : Copies feed l) {e : CopyEvent} (he : l.step feed.ends e = some l') :
    Copies feed l' := by
  obtain ⟨n, hpc, hpos, -, hlen, rfl⟩ | ⟨hpc, hunread, hends, rfl⟩ | rfl |
    ⟨buffer, n, hpc, -, hlen, rfl⟩ := CopyLoop.step_cases he
  · have hcovered : l.written = l.taken := by simpa [held, hpc] using h.covered (by simp [hpc])
    refine ⟨?_, h.within.trans (List.prefix_append _ _), fun _ => ?_, by simp, ?_⟩
    · simpa using h.taken
    · simp [held, hcovered]
    · intro hnil
      have hzero := congrArg List.length (CopyPc.writeAll.inj hnil)
      simp only [List.length_take, List.length_nil] at hzero
      omega
  · refine ⟨h.taken, h.within, fun _ => ?_, fun _ => ⟨hunread, hends⟩, by simp⟩
    simpa [held, hpc] using h.covered (by simp [hpc])
  · exact ⟨h.taken, h.within, fun hpc => absurd rfl hpc, by simp, by simp⟩
  · have hcovered : l.written ++ buffer = l.taken := by
      simpa [held, hpc] using h.covered (by simp [hpc])
    have hsplit : l.written ++ buffer.take n ++ buffer.drop n = l.taken := by
      rw [List.append_assoc, List.take_append_drop, hcovered]
    by_cases hall : n = buffer.length
    · subst hall
      refine ⟨h.taken, ⟨_, hsplit⟩, fun _ => ?_, by simp, by simp⟩
      simpa [held] using hsplit
    · refine ⟨h.taken, ⟨_, hsplit⟩, fun _ => ?_, by simp [hall], ?_⟩
      · simpa [held, hall] using hsplit
      · simpa [hall] using by omega

/-- Steps that are left to a loop whose stream ends. -/
def work (l : CopyLoop) : ℕ :=
  2 * l.unread.length + l.held.length + if l.pc = .returned then 0 else 1

/-- A loop whose stream ends can go on until it returns. -/
theorem Copies.progress (h : Copies feed l) (hend : feed.ends = true) (hfailed : l.pc ≠ .failed)
    (hover : l.pc ≠ .returned) : ∃ e l', l.step feed.ends e = some l' ∧ l'.pc ≠ .failed ∧
      l'.work < l.work := by
  cases hpc : l.pc with
  | returned => exact absurd hpc hover
  | failed => exact absurd hpc hfailed
  | writeAll buffer =>
    have hpos : 0 < buffer.length :=
      List.length_pos_of_ne_nil fun hnil => h.filled (hpc.trans (congrArg _ hnil))
    refine ⟨.writeSome buffer.length, { l with written := l.written ++ buffer, pc := .read }, ?_,
      by simp, ?_⟩
    · simp [CopyLoop.step, hpc, hpos]
    · have hwriting : CopyPc.writeAll buffer ≠ .returned := nofun
      have hreading : CopyPc.read ≠ .returned := nofun
      simp only [work, held, hpc, List.length_nil, if_neg hwriting, if_neg hreading]
      omega
  | read =>
    cases hunread : l.unread with
    | nil =>
      refine ⟨.eof, { l with pc := .returned }, ?_, by simp, ?_⟩
      · simp [CopyLoop.step, hpc, hunread, hend]
      · simp [work, held, hpc, hunread]
    | cons byte unread =>
      refine ⟨.read 1, { l with
        unread := unread
        taken := l.taken ++ [byte]
        pc := .writeAll [byte] }, ?_, by simp, ?_⟩
      · simp [CopyLoop.step, hpc, hunread]
      · simp [work, held, hpc, hunread]
        omega

end CopyLoop

namespace Bridge
variable {feed : Side → Feed} {s s' : Bridge}

/-- The bridge goes on exactly as long as neither loop has failed and one has not returned. -/
structure Sound (feed : Side → Feed) (s : Bridge) : Prop where
  copies : ∀ x, (s.loop x).Copies (feed x)
  running : s.result = none → (∀ x, (s.loop x).pc ≠ .failed) ∧ ∀ x, s.shut x = false
  returned : s.result = some (.ok ()) → ∀ x, (s.loop x).pc = .returned

theorem sound_start (feed : Side → Feed) : Sound feed (start feed) where
  copies x := CopyLoop.copies_start (feed x)
  running _ := ⟨fun x h => (by cases h), fun _ => rfl⟩
  returned h := by cases h

theorem join_sound (hcopies : ∀ x, (s.loop x).Copies (feed x)) (hresult : s.result = none)
    (hshut : ∀ x, s.shut x = false) : Sound feed (join s) := by
  unfold join
  split
  · exact ⟨hcopies, by simp, by simp⟩
  next hfailed =>
    rw [not_or] at hfailed
    split
    next hboth =>
      refine ⟨hcopies, by simp, fun _ x => ?_⟩
      cases x
      exacts [hboth.1, hboth.2]
    · refine ⟨hcopies, fun _ => ⟨fun x => ?_, hshut⟩, by simp [hresult]⟩
      cases x
      exacts [hfailed.1, hfailed.2]

theorem Sound.step (h : Sound feed s) {e : Side × CopyEvent} (he : s.step feed e = some s') :
    Sound feed s' := by
  unfold Bridge.step at he
  split at he
  next hresult =>
    obtain ⟨l, hl, rfl⟩ := Option.map_eq_some_iff.mp he
    refine join_sound (fun x => ?_) hresult (h.running hresult).2
    by_cases hx : x = e.1
    · subst hx
      simpa using (h.copies e.1).step hl
    · simpa [hx] using h.copies x
  · simp at he

theorem reachable_sound (h : (machine feed).Reachable s) : Sound feed s :=
  h.invariant (sound_start feed) fun _ _ _ _ hs he => hs.step he

/-- What a bridge does to the streams of its two sockets. -/
structure Transparent (feed : Side → Feed) : Prop where
  /-- What has been written to the other socket is the start of what has been read from `x`, which
  is the start of what its peer sends. -/
  within : ∀ s, (machine feed).Reachable s → ∀ x,
    (s.loop x).written <+: (s.loop x).taken ∧ (s.loop x).taken <+: (feed x).bytes
  /-- With `Ok`, everything has been written that came before the end of the stream. -/
  complete : ∀ s, (machine feed).Reachable s → s.result = some (.ok ()) → ∀ x,
    (feed x).ends = true ∧ (s.loop x).written = (feed x).bytes

theorem transparent (feed : Side → Feed) : Transparent feed where
  within s hs x := by
    have h := (reachable_sound hs).copies x
    exact ⟨h.within, _, h.taken⟩
  complete s hs hok x := by
    have h := (reachable_sound hs).copies x
    have hpc := (reachable_sound hs).returned hok x
    obtain ⟨hunread, hends⟩ := h.returned hpc
    have hcovered := h.covered (by simp [hpc])
    have htaken := h.taken
    rw [CopyLoop.held, hpc, List.append_nil] at hcovered
    rw [hunread, List.append_nil] at htaken
    exact ⟨hends, hcovered.trans htaken⟩

/-- Where a copy loop has returned at the end of its stream, the other socket is shut for writing,
so that the peer there sees the end. -/
def EndCrosses (feed : Side → Feed) : Prop :=
  ∀ s, (machine feed).Reachable s → ∀ x, (s.loop x).pc = .returned → s.shut x.other = true

/-- While one loop reads, the other alone ends the bridge only by failing. -/
theorem join_of_reading {x : Side} (hx : (s.loop x).pc ≠ .failed)
    (hother : (s.loop x.other).pc = .read) : join s = s := by
  unfold join
  cases x <;> simp_all [Side.other]

/-- A loop can go on while the other one reads. -/
theorem step_of_reading {x : Side} {e : CopyEvent} {l : CopyLoop} (hup : s.result = none)
    (hl : (s.loop x).step (feed x).ends e = some l) (hpc : l.pc ≠ .failed)
    (hother : (s.loop x.other).pc = .read) :
    s.step feed (x, e) = some { s with loop := Function.update s.loop x l } := by
  rw [Bridge.step, if_pos hup, hl, Option.map_some, join_of_reading (x := x)]
  · simpa using hpc
  · simpa [x.other_ne] using hother

/-- The loop of a stream that ends can return while the other loop has not begun. -/
theorem exists_returned {x : Side} (hend : (feed x).ends = true) : ∃ s,
    (machine feed).Reachable s ∧ (s.loop x).pc = .returned ∧ s.shut x.other = false := by
  have hne := x.other_ne
  have hprogress : ∀ s : Bridge, ((machine feed).Reachable s ∧ s.result = none ∧
      (s.loop x.other).pc = .read) → ¬ (s.loop x).pc = .returned →
      ∃ e s', True ∧ s.step feed e = some s' ∧ ((machine feed).Reachable s' ∧ s'.result = none ∧
        (s'.loop x.other).pc = .read) ∧ (s'.loop x).work < (s.loop x).work := by
    rintro s ⟨hs, hresult, hother⟩ hover
    have h := reachable_sound hs
    obtain ⟨e, l, hl, hpc, hlt⟩ := (h.copies x).progress hend ((h.running hresult).1 x) hover
    have hjoin : join { s with loop := Function.update s.loop x l } =
        { s with loop := Function.update s.loop x l } :=
      join_of_reading (x := x) (by simpa using hpc) (by simpa [hne] using hother)
    have he : s.step feed (x, e) = some { s with loop := Function.update s.loop x l } := by
      rw [Bridge.step, if_pos hresult, hl, Option.map_some, hjoin]
    exact ⟨(x, e), _, trivial, he, ⟨hs.step he, hresult, by simpa [hne] using hother⟩,
      by simpa using hlt⟩
  obtain ⟨s, -, ⟨hs, hresult, -⟩, hpc⟩ := Machine.exists_final (M := machine feed)
    (fun s => (s.loop x).work) hprogress ⟨.init, rfl, rfl⟩
  exact ⟨s, hs, hpc, ((reachable_sound hs).running hresult).2 x.other⟩

/-- The end of a stream crosses the bridge, in every state of every run, exactly if there is no end
to cross it. -/
theorem endCrosses_iff (feed : Side → Feed) : EndCrosses feed ↔ ∀ x, (feed x).ends = false := by
  constructor
  · intro h x
    by_contra hend
    obtain ⟨s, hs, hpc, hshut⟩ := exists_returned (Bool.eq_true_of_not_eq_false hend)
    exact Bool.false_ne_true (hshut.symm.trans (h s hs x hpc))
  · intro hend s hs x hpc
    have hends := ((reachable_sound hs).copies x).returned hpc
    exact absurd (hends.2.symm.trans (hend x)) (by decide)

/-- A peer that sends a byte and ends its stream, and one that stays silent. -/
def halfOpen : Side → Feed
  | .a => ⟨[7], true⟩
  | .b => ⟨[], false⟩

theorem halfOpen_not_crossed : ¬ EndCrosses halfOpen := by
  intro h
  have hend : (halfOpen .a).ends = true := rfl
  obtain ⟨s, hs, hpc, hshut⟩ := exists_returned hend
  exact Bool.false_ne_true (hshut.symm.trans (h s hs .a hpc))

end Bridge

section Relayed
variable {s : State} {t : ClientId} {client : Side → ClientId} {before : Side → Bytes}
  {feed : Side → Feed} {b b' : Bridge}

/-- The bytes that bridges have brought to a socket. -/
def relayedBytes (live : List Live) : Bytes :=
  live.flatMap fun
    | .ping => []
    | .relayed bytes => bytes

theorem relayedBytes_concat (live : List Live) (bytes : Bytes) :
    relayedBytes (live ++ [.relayed bytes]) = relayedBytes live ++ bytes := by
  simp [relayedBytes]

/-- What the relay knows of the bridge that `t` waits for: the bytes of a buffer count as written
when the buffer has been filled. -/
structure Shows (s : State) (t : ClientId) (client : Side → ClientId) (before : Side → Bytes)
    (b : Bridge) : Prop where
  pc : ∃ name r, s.pc t = .bridging name r (client .a) (client .b)
  unread : ∀ x, (s.conn (client x)).unread = (b.loop x).unread
  relayed : ∀ x, relayedBytes (s.conn (client x.other)).live =
    before x.other ++ (b.loop x).taken

theorem Bridge.join_loop (b : Bridge) : b.join.loop = b.loop := by
  unfold join
  split
  · rfl
  · split <;> rfl

/-- A loop takes bytes from its socket only by a read. -/
theorem CopyLoop.step_taken {ends : Bool} {l l' : CopyLoop} {e : CopyEvent}
    (he : l.step ends e = some l') :
    (∃ n, 0 < n ∧ n ≤ 1024 ∧ n ≤ l.unread.length ∧ l'.unread = l.unread.drop n ∧
      l'.taken = l.taken ++ l.unread.take n) ∨ l'.unread = l.unread ∧ l'.taken = l.taken := by
  obtain ⟨n, -, hpos, hmax, hlen, rfl⟩ | ⟨-, -, -, rfl⟩ | rfl | ⟨buffer, n, -, -, -, rfl⟩ :=
    CopyLoop.step_cases he
  · exact Or.inl ⟨n, hpos, hmax, hlen, rfl, rfl⟩
  · exact Or.inr ⟨rfl, rfl⟩
  · exact Or.inr ⟨rfl, rfl⟩
  · exact Or.inr ⟨rfl, rfl⟩

theorem exists_copy {src dst : ClientId} {n : ℕ} (hpos : 0 < n) (hn : n ≤ 1024)
    (hlen : n ≤ (s.conn src).unread.length) : ∃ s', copy s src dst n = some s' :=
  ⟨_, if_pos ⟨hpos, hn, hlen⟩⟩

/-- A loop that has moved no byte shows nothing new. -/
theorem Shows.of_same (h : Shows s t client before b) {x : Side} {l : CopyLoop}
    (hunread : l.unread = (b.loop x).unread) (htaken : l.taken = (b.loop x).taken) :
    Shows s t client before (Bridge.join { b with loop := Function.update b.loop x l }) := by
  refine ⟨h.pc, fun y => ?_, fun y => ?_⟩ <;> rw [Bridge.join_loop]
  · rcases x.eq_or_eq_other y with rfl | rfl
    · simpa [hunread] using h.unread y
    · simpa [Side.other_ne] using h.unread x.other
  · rcases x.eq_or_eq_other y with rfl | rfl
    · simpa [htaken] using h.relayed y
    · simpa [Side.other_ne] using h.relayed x.other

/-- A copy of the relay shows as a read of the loop. -/
theorem Shows.copied {s' : State} {n : ℕ} {x : Side} {l : CopyLoop}
    (h : Shows s t client before b) (hx : client x.other ≠ client x)
    (hcopy : copy s (client x) (client x.other) n = some s')
    (hunread : l.unread = (b.loop x).unread.drop n)
    (htaken : l.taken = (b.loop x).taken ++ (b.loop x).unread.take n) :
    Shows s' t client before (Bridge.join { b with loop := Function.update b.loop x l }) := by
  obtain ⟨hsrc, hdst, -⟩ := copy_conn hx hcopy
  refine ⟨?_, fun y => ?_, fun y => ?_⟩
  · rw [copy_eq hcopy]
    exact h.pc
  · rw [Bridge.join_loop]
    rcases x.eq_or_eq_other y with rfl | rfl
    · simp [hsrc, hunread, h.unread y]
    · simp [hdst, Side.other_ne, h.unread x.other]
  · rw [Bridge.join_loop]
    rcases x.eq_or_eq_other y with rfl | rfl
    · simp [hdst, htaken, relayedBytes_concat, h.relayed y, h.unread y]
    · have hrelayed := h.relayed x.other
      rw [x.other_other] at hrelayed
      simp [hsrc, Side.other_ne, hrelayed]

/-- Each step of the bridge is a turn of a copy loop of the relay, or nothing to it. -/
theorem Shows.step (h : Shows s t client before b) (hne : client .a ≠ client .b)
    {e : Side × CopyEvent} (he : b.step feed e = some b') :
    Shows s t client before b' ∨ ∃ n s', pump s t (decide (e.1 = .a)) n = some s' ∧
      Shows s' t client before b' := by
  unfold Bridge.step at he
  split at he
  next hresult =>
    obtain ⟨l, hl, rfl⟩ := Option.map_eq_some_iff.mp he
    obtain ⟨x, e⟩ := e
    rcases CopyLoop.step_taken hl with ⟨n, hpos, hn, hlen, hunread, htaken⟩ | ⟨hunread, htaken⟩
    · have hx : client x.other ≠ client x := by
        cases x
        exacts [hne.symm, hne]
      rw [← h.unread x] at hlen
      obtain ⟨s', hcopy⟩ : ∃ s', copy s (client x) (client x.other) n = some s' :=
        exists_copy hpos hn hlen
      obtain ⟨name, r, hpc⟩ := h.pc
      have hpump : pump s t (decide (x = .a)) n = some s' := by
        unfold pump
        rw [hpc]
        cases x <;> simpa [Side.other] using hcopy
      exact Or.inr ⟨n, s', hpump, h.copied hx hcopy hunread htaken⟩
    · exact Or.inl (h.of_same hunread htaken)
  · cases he

end Relayed
end Croc.Server
