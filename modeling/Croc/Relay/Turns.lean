import Croc.Relay.Bridge
import Croc.Relay.Handover

/-! The turns that the relay gives its copy loops, against the loops of `bridge_sockets` themselves,
which stop at every read and at every partial write. In what they take from the two clients and
bring to them, the one can do no more than the other. -/
namespace Croc.Server
open Lib

/-- The client on each side of a bridge. -/
def onSide (receiver sender : ClientId) : Side → ClientId
  | .a => receiver
  | .b => sender

/-- What the two sockets of a bridge have for it; `ends` says which of the streams end. -/
def feeds (s : State) (client : Side → ClientId) (ends : Side → Bool) (x : Side) : Feed :=
  ⟨(s.conn (client x)).unread, ends x⟩

/-- Turns of the copy loops that `t` waits for. -/
def Turn (t : ClientId) (_ : State) (e : Event) : Prop :=
  ∃ fromReceiver n, e = .pump t fromReceiver n

/-- A bridge that has written all that it has read. -/
structure Bridge.Rests (b : Bridge) : Prop where
  up : b.result = none
  reading : ∀ x, (b.loop x).pc = .read

/-- A loop that has read `n` bytes. -/
def CopyLoop.filled (l : CopyLoop) (n : ℕ) : CopyLoop :=
  { l with
    unread := l.unread.drop n
    taken := l.taken ++ l.unread.take n
    pc := .writeAll (l.unread.take n) }

/-- A loop that has read and written `n` bytes. -/
def CopyLoop.turned (l : CopyLoop) (n : ℕ) : CopyLoop :=
  { l with
    unread := l.unread.drop n
    taken := l.taken ++ l.unread.take n
    written := l.written ++ l.unread.take n
    pc := .read }

section Turns
variable {cfg : Config} {s s' : State} {t receiver sender : ClientId} {name : String} {r : RoomId}
  {client : Side → ClientId} {before : Side → Bytes} {feed : Side → Feed} {b b' : Bridge} {x : Side}

/-- A bridge joins two clients. -/
theorem bridging_ne (h : (machine cfg).Reachable s)
    (hpc : s.pc t = .bridging name r receiver sender) : receiver ≠ sender := by
  rintro rfl
  have hl := reachable_logInv h
  obtain ⟨hfirst, hsecond, -⟩ := hl.bridged r receiver receiver (hl.running t name r _ _ hpc)
  have hsame := reachable_joinsOnce h receiver _ _ hfirst hsecond rfl rfl
  simp at hsame

/-- A loop reads `n` bytes and writes them. -/
theorem Bridge.exists_turn (hb : (machine feed).Reachable b) (hrests : b.Rests) {n : ℕ}
    (hpos : 0 < n) (hmax : n ≤ 1024) (hlen : n ≤ (b.loop x).unread.length) :
    (machine feed).Reachable
      { b with loop := Function.update b.loop x ((b.loop x).turned n) } := by
  have hother := hrests.reading x.other
  have hread : b.step feed (x, .read n) =
      some { b with loop := Function.update b.loop x ((b.loop x).filled n) } := by
    apply Bridge.step_of_reading hrests.up _ (by simp [CopyLoop.filled]) hother
    simp [CopyLoop.step, CopyLoop.filled, hrests.reading x, hpos, hmax, hlen]
  have hwrite : Bridge.step feed
      { b with loop := Function.update b.loop x ((b.loop x).filled n) } (x, .writeSome n) =
        some { b with loop := Function.update b.loop x ((b.loop x).turned n) } := by
    rw [Bridge.step_of_reading (s := { b with loop := Function.update b.loop x _ }) (x := x)
      (l := (b.loop x).turned n) hrests.up, Function.update_idem]
    · simp [CopyLoop.step, CopyLoop.filled, CopyLoop.turned, hpos, hlen]
    · simp [CopyLoop.turned]
    · simpa [x.other_ne] using hother
  exact (hb.step hread).step hwrite

/-- A turn of the relay is a read and a write of a loop. -/
theorem Shows.turn (h : Shows s t client before b) (hb : (Bridge.machine feed).Reachable b)
    (hrests : b.Rests) (hne : client .a ≠ client .b) {fromReceiver : Bool} {n : ℕ}
    (he : pump s t fromReceiver n = some s') : ∃ b', (Bridge.machine feed).Reachable b' ∧
      b'.Rests ∧ Shows s' t client before b' := by
  obtain ⟨name, r, hpc⟩ := h.pc
  obtain ⟨x, hcopy⟩ : ∃ x : Side, copy s (client x) (client x.other) n = some s' := by
    unfold pump at he
    rw [hpc] at he
    cases fromReceiver with
    | true => exact ⟨.a, he⟩
    | false => exact ⟨.b, he⟩
  have hx : client x.other ≠ client x := by
    cases x
    exacts [hne.symm, hne]
  obtain ⟨hpos, hmax, hlen⟩ : 0 < n ∧ n ≤ 1024 ∧ n ≤ (s.conn (client x)).unread.length := by
    unfold copy at hcopy
    exact (Option.ite_none_right_eq_some.mp hcopy).1
  rw [h.unread x] at hlen
  have hjoin : Bridge.join { b with loop := Function.update b.loop x ((b.loop x).turned n) } =
      { b with loop := Function.update b.loop x ((b.loop x).turned n) } :=
    Bridge.join_of_reading (x := x) (by simp [CopyLoop.turned])
      (by simpa [x.other_ne] using hrests.reading x.other)
  refine ⟨_, Bridge.exists_turn hb hrests hpos hmax hlen, ⟨hrests.up, fun y => ?_⟩,
    hjoin ▸ h.copied hx hcopy rfl rfl⟩
  rcases x.eq_or_eq_other y with rfl | rfl
  · simp [CopyLoop.turned]
  · simpa [x.other_ne] using hrests.reading x.other

/-- What the loops have written is the start of what the turns bring to the two clients, and all of
it wherever a loop reads again. -/
structure Brings (s : State) (client : Side → ClientId) (before : Side → Bytes) (b : Bridge) :
    Prop where
  within : ∀ x,
    before x.other ++ (b.loop x).written <+: relayedBytes (s.conn (client x.other)).live
  whole : ∀ x, (b.loop x).pc = .read →
    relayedBytes (s.conn (client x.other)).live = before x.other ++ (b.loop x).written

theorem Shows.brings (h : Shows s t client before b) (hb : (Bridge.machine feed).Reachable b) :
    Brings s client before b where
  within x := by
    rw [h.relayed x]
    exact (List.prefix_append_right_inj _).mpr ((Bridge.reachable_sound hb).copies x).within
  whole x hpc := by
    have hcovered := ((Bridge.reachable_sound hb).copies x).covered (by simp [hpc])
    rw [CopyLoop.held, hpc, List.append_nil] at hcovered
    rw [h.relayed x, hcovered]

/-- The turns of the relay, from when a task waits for its bridge, and the copy loops: the same
bytes are taken from the two clients and brought to them. -/
structure TurnsCopy (cfg : Config) (s : State) (t : ClientId) (client : Side → ClientId)
    (ends : Side → Bool) : Prop where
  matched : ∀ b, (Bridge.machine (feeds s client ends)).Reachable b → ∃ s',
    Relation.ReflTransGen ((machine cfg).Next (Turn t)) s s' ∧
      Shows s' t client (fun x => relayedBytes (s.conn (client x)).live) b ∧
      Brings s' client (fun x => relayedBytes (s.conn (client x)).live) b
  /-- The loops can also have written all that the turns have brought, and read again. -/
  realised : ∀ s', Relation.ReflTransGen ((machine cfg).Next (Turn t)) s s' → ∃ b,
    (Bridge.machine (feeds s client ends)).Reachable b ∧ b.Rests ∧
      Shows s' t client (fun x => relayedBytes (s.conn (client x)).live) b ∧
      Brings s' client (fun x => relayedBytes (s.conn (client x)).live) b

/-- Wherever the relay begins to wait for a bridge, its turns are what the copy loops can do. -/
theorem reachable_turnsCopy (h : (machine cfg).Reachable s)
    (hpc : s.pc t = .bridging name r receiver sender) (ends : Side → Bool) :
    TurnsCopy cfg s t (onSide receiver sender) ends := by
  have hne : onSide receiver sender .a ≠ onSide receiver sender .b := bridging_ne h hpc
  have hstart : Shows s t (onSide receiver sender)
      (fun x => relayedBytes (s.conn (onSide receiver sender x)).live)
      (.start (feeds s (onSide receiver sender) ends)) :=
    ⟨⟨name, r, hpc⟩, fun _ => rfl, fun _ => (List.append_nil _).symm⟩
  refine ⟨fun b hb => ?_, fun s' hrun => ?_⟩
  · suffices hall : ∃ s', Relation.ReflTransGen ((machine cfg).Next (Turn t)) s s' ∧
        Shows s' t (onSide receiver sender)
          (fun x => relayedBytes (s.conn (onSide receiver sender x)).live) b by
      obtain ⟨s', hrun, hshows⟩ := hall
      exact ⟨s', hrun, hshows, hshows.brings hb⟩
    apply hb.invariant (P := fun b => ∃ s',
      Relation.ReflTransGen ((machine cfg).Next (Turn t)) s s' ∧
        Shows s' t (onSide receiver sender) _ b) ⟨s, .refl, hstart⟩
    rintro b e b' - ⟨s', hrun, hshows⟩ he
    rcases hshows.step hne he with hshows' | ⟨n, s'', hpump, hshows'⟩
    · exact ⟨s', hrun, hshows'⟩
    · exact ⟨s'', hrun.tail ⟨.pump t _ n, ⟨_, n, rfl⟩, hpump⟩, hshows'⟩
  · suffices hall : ∃ b, (Bridge.machine (feeds s (onSide receiver sender) ends)).Reachable b ∧
        b.Rests ∧ Shows s' t (onSide receiver sender)
          (fun x => relayedBytes (s.conn (onSide receiver sender x)).live) b by
      obtain ⟨b, hb, hrests, hshows⟩ := hall
      exact ⟨b, hb, hrests, hshows, hshows.brings hb⟩
    induction hrun with
    | refl => exact ⟨_, .init, ⟨rfl, fun _ => rfl⟩, hstart⟩
    | tail _ hn ih =>
      obtain ⟨b, hb, hrests, hshows⟩ := ih
      obtain ⟨e, ⟨fromReceiver, n, rfl⟩, he⟩ := hn
      exact hshows.turn hb hrests hne he

/-- Two clients of a room that have sent a byte for each other. -/
theorem visitors_turnsCopy : ∃ s,
    (machine (visited "pass123" fun _ => visitor .main "pass123" "abc" [7])).Reachable s ∧
      s.pc 1 = .bridging "abc" 0 1 0 ∧
      TurnsCopy (visited "pass123" fun _ => visitor .main "pass123" "abc" [7]) s 1 (onSide 1 0)
        fun _ => true := by
  have hX : External.transparent.WritesShort := External.transparent_writesShort
  have hs : ∀ t, Speaks (visited "pass123" fun _ => visitor .main "pass123" "abc" [7]) t "abc"
      [7] :=
    fun t => visitor_speaks rfl (by decide +kernel) (by decide +kernel)
  obtain ⟨s, h⟩ := exists_bridging hX (lenient_any _) Nat.one_ne_zero (hs 0) (hs 1)
  exact ⟨s, h.reachable, h.pc, reachable_turnsCopy h.reachable h.pc _⟩

end Turns
end Croc.Server
