import Croc.Relay.Keepalive

/-! What a task waits for while it holds the mutex of the room map. All four places that take it
are short but one: `negotiate_info` keeps it while it waits for the mutex of a room and while it
writes its answer. -/
namespace Croc.Server
open Lib

/-- The next step of a task awaits the socket of a client. -/
def Pc.awaitsClient : Pc → Prop
  | .nego _ | .writeFull .. | .writeJoin .. | .writeCreate .. | .bridging .. | .keepPing .. => True
  | _ => False

/-- A task bridges room `r`, or keeps its first client alive, and holds its mutex meanwhile. -/
def Pc.occupies : Pc → RoomId → Prop
  | .bridging _ r _ _, i | .keepPing r _, i => i = r
  | _, _ => False

/-- No room and no slow client blocks another room. -/
structure Unblocked (cfg : Config) (s : State) : Prop where
  /-- A task that has the map does not wait for a client. -/
  client : ∀ t, (s.lock .rooms).owner = some t → ¬ (s.pc t).awaitsClient
  /-- Nor for a room that is bridged or kept alive. -/
  room : ∀ t u r, (s.lock .rooms).owner = some t → t ∈ (s.lock (.room r)).waiters →
    ¬ (s.pc u).occupies r
  /-- A client that asks for a room whose bridge is running is told at once that it is full. -/
  answered : ∀ t u name name' r receiver sender enc, s.pc t = .awaitRoom name r enc →
    s.pc u = .bridging name' r receiver sender →
      ∃ s', resume cfg s t Io.fine = some s' ∧ s'.pc t = .writeFull name r enc

/-- The owner of the map mutex has asked for it. -/
theorem LockInv.asked_of_owner {s : State} (h : LockInv s) {t : ClientId}
    (ho : (s.lock .rooms).owner = some t) : (s.pc t).asked := by
  have hstake := (h .rooms).owner_stake t ho
  cases hpc : s.pc t <;> simp_all [Pc.asked]

/-- The relay keeps rooms and clients from blocking each other exactly when it lets nobody in:
whoever names a room is answered under the mutex of the map. -/
theorem unblocked_iff {cfg : Config} (hX : cfg.ext.WritesShort) :
    (∀ s, (machine cfg).Reachable s → Unblocked cfg s) ↔
      ∀ t, Answerable cfg t → sentRoom cfg t = none := by
  constructor
  · intro h t ha
    by_contra hr
    obtain ⟨name, hr⟩ := Option.ne_none_iff_exists'.mp hr
    obtain ⟨data, hspeaks⟩ := speaks_of_sentRoom ha hr
    obtain ⟨enc, replies, hs⟩ := (ready_start cfg _ t).ask hX (lenient_any cfg) hspeaks
    -- the map is empty, so the client is about to be told that it has opened a room
    have hs := hs.reachable.step (e := .resume t Io.fine)
      (by simp [machine, step, resume, State.owns, start]; rfl)
    exact (h _ hs).client t (by simp) (by simp [Pc.awaitsClient])
  · intro h s hs
    have hidle : ∀ t, ¬ (s.pc t).asked := by
      intro t ht
      obtain ⟨ha, -, name, hr⟩ := ((reachable_spokenInv hX hs).asked t ht).sentRoom
      simp [h t ha] at hr
    have hfree : ∀ t, (s.lock .rooms).owner ≠ some t := fun t ho =>
      hidle t ((reachable_lockInv hs).asked_of_owner ho)
    exact ⟨fun t ho => absurd ho (hfree t), fun t u r ho => absurd ho (hfree t),
      fun t u name name' r receiver sender enc hpc => absurd (by simp [hpc, Pc.asked]) (hidle t)⟩

/-- A relay whose clients all hang up. -/
theorem unblocked_of_silent :
    (∀ t, sentRoom (visited "pass123" fun _ => silent) t = none) ∧
    ∀ s, (machine (visited "pass123" fun _ => silent)).Reachable s →
      Unblocked (visited "pass123" fun _ => silent) s :=
  ⟨fun _ => silent_sentRoom rfl,
    (unblocked_iff External.transparent_writesShort).mpr fun _ _ => silent_sentRoom rfl⟩

/-- A third client asks for a room while it is bridged, and waits with the map in its hands. -/
theorem third_visitor_blocks :
    ¬ ∀ s, (machine (visited "pass123" fun _ => visitor .main "pass123" "abc" [])).Reachable s →
      Unblocked (visited "pass123" fun _ => visitor .main "pass123" "abc" []) s := by
  intro h
  have hX : External.transparent.WritesShort := External.transparent_writesShort
  have hs : ∀ t, Speaks (visited "pass123" fun _ => visitor .main "pass123" "abc" []) t "abc" [] :=
    fun t => visitor_speaks rfl (by decide +kernel) (by decide +kernel)
  obtain ⟨_, hbridge⟩ := exists_bridging hX (lenient_any _) Nat.one_ne_zero (hs 0) (hs 1)
  obtain ⟨_, s, hthird, -, hmap, hroom, hpc⟩ :=
    hbridge.third (t := 2) hX (lenient_any _) (hs 2) (by decide) (by decide)
  exact (h s hthird).room 2 1 0 (by rw [hmap]) (by simp [hroom]) (by simp [hpc, Pc.occupies])

end Croc.Server
