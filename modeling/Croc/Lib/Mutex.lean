import Mathlib.Data.List.Nodup
import Mathlib.Data.List.TakeWhile
import Mathlib.Logic.Function.Basic
import Mathlib.Logic.Relation
import Mathlib.Tactic.Common

/-! Fair mutexes with an explicit owner and a queue of waiters, the accounting that ties a mutex
to the tasks that use it, and wait-for cycles among a family of mutexes. -/
namespace Croc.Lib

/-- A fair mutex: a released lock goes to the first task in the queue. -/
structure Mutex (τ : Type*) where
  owner : Option τ
  waiters : List τ
  deriving DecidableEq

/-- What a task has to do with a mutex. A task that was handed the lock and has not run since
is still `waiting`. -/
inductive Stake where
  | idle | waiting | holding
  deriving DecidableEq, Repr

namespace Mutex
variable {τ : Type*}

def free : Mutex τ := ⟨none, []⟩

def acquire (t : τ) (m : Mutex τ) : Mutex τ :=
  match m.owner with
  | none => { m with owner := some t }
  | some _ => { m with waiters := m.waiters ++ [t] }

def release (m : Mutex τ) : Mutex τ :=
  match m.waiters with
  | [] => ⟨none, []⟩
  | w :: ws => ⟨some w, ws⟩

theorem acquire_free {m : Mutex τ} (h : m.owner = none) (t : τ) :
    m.acquire t = ⟨some t, m.waiters⟩ := by simp [acquire, h]

theorem acquire_held {m : Mutex τ} {u : τ} (h : m.owner = some u) (t : τ) :
    m.acquire t = ⟨some u, m.waiters ++ [t]⟩ := by simp [acquire, h]

@[simp] theorem release_nil (o : Option τ) : (⟨o, []⟩ : Mutex τ).release = ⟨none, []⟩ := rfl

@[simp] theorem release_cons (o : Option τ) (w : τ) (ws : List τ) :
    (⟨o, w :: ws⟩ : Mutex τ).release = ⟨some w, ws⟩ := rfl

/-- The owner and the queue of `m` agree with what every task is doing. -/
structure Coherent (stake : τ → Stake) (m : Mutex τ) : Prop where
  owner_stake : ∀ t, m.owner = some t → stake t ≠ .idle
  holding_owner : ∀ t, stake t = .holding → m.owner = some t
  waiting_queued : ∀ t, stake t = .waiting → m.owner = some t ∨ t ∈ m.waiters
  queued_waiting : ∀ t ∈ m.waiters, stake t = .waiting
  owner_not_queued : ∀ t, m.owner = some t → t ∉ m.waiters
  nodup : m.waiters.Nodup
  free_unqueued : m.owner = none → m.waiters = []

theorem coherent_free : Coherent (fun _ : τ => Stake.idle) free where
  owner_stake _ h := by simp [free] at h
  holding_owner _ h := by simp at h
  waiting_queued _ h := by simp at h
  queued_waiting _ h := by simp [free] at h
  owner_not_queued _ h := by simp [free] at h
  nodup := List.nodup_nil
  free_unqueued _ := rfl

namespace Coherent
variable {stake : τ → Stake} {m : Mutex τ}

theorem owner_unique (_ : Coherent stake m) {t u : τ} (ht : m.owner = some t)
    (hu : m.owner = some u) : t = u := Option.some.inj (ht.symm.trans hu)

theorem holding_unique (h : Coherent stake m) {t u : τ} (ht : stake t = .holding)
    (hu : stake u = .holding) : t = u :=
  h.owner_unique (h.holding_owner t ht) (h.holding_owner u hu)

variable [DecidableEq τ]

/-- The stake of another task is what it was before `t` changed its own. -/
theorem of_update {t u : τ} {x y : Stake} (hu : Function.update stake t x u = y) (hxy : x ≠ y) :
    u ≠ t ∧ stake u = y := by
  have hut : u ≠ t := by
    rintro rfl
    exact hxy (by simpa using hu)
  rw [Function.update_of_ne hut] at hu
  exact ⟨hut, hu⟩

/-- A task that had nothing to do with the lock asks for it. -/
theorem acquire (h : Coherent stake m) {t : τ} (ht : stake t = .idle) :
    Coherent (Function.update stake t .waiting) (m.acquire t) := by
  have hq : t ∉ m.waiters := fun hm => by simp [h.queued_waiting t hm] at ht
  have ho : m.owner ≠ some t := fun hm => h.owner_stake t hm ht
  cases hown : m.owner with
  | none =>
    have hw := h.free_unqueued hown
    rw [acquire_free hown, hw]
    refine ⟨?_, ?_, ?_, by simp, by simp, List.nodup_nil, by simp⟩
    · intro u hu
      obtain rfl : t = u := by simpa using hu
      simp
    · intro u hu
      obtain ⟨-, hu⟩ := of_update hu (by simp)
      simp [h.holding_owner u hu] at hown
    · intro u hu
      by_cases hut : u = t
      · simp [hut]
      · rw [Function.update_of_ne hut] at hu
        rcases h.waiting_queued u hu with hm | hm
        · simp [hm] at hown
        · simp [hw] at hm
  | some v =>
    have hvt : v ≠ t := fun hv => ho (hv ▸ hown)
    rw [acquire_held hown]
    refine ⟨?_, ?_, ?_, ?_, ?_, ?_, by simp⟩
    · intro u hu
      obtain rfl : v = u := by simpa using hu
      rw [Function.update_of_ne hvt]
      exact h.owner_stake v hown
    · intro u hu
      obtain ⟨-, hu⟩ := of_update hu (by simp)
      simpa [hown] using h.holding_owner u hu
    · intro u hu
      by_cases hut : u = t
      · simp [hut]
      · rw [Function.update_of_ne hut] at hu
        rcases h.waiting_queued u hu with hm | hm
        · exact Or.inl (by simpa [hown] using hm)
        · exact Or.inr (by simp [hm])
    · intro u hu
      rcases List.mem_append.mp hu with hm | hm
      · have hut : u ≠ t := fun he => hq (he ▸ hm)
        rw [Function.update_of_ne hut]
        exact h.queued_waiting u hm
      · obtain rfl : u = t := by simpa using hm
        simp
    · intro u hu
      obtain rfl : v = u := by simpa using hu
      have := h.owner_not_queued v hown
      simp [this, hvt]
    · exact h.nodup.append (by simp) (by simpa using hq)

/-- The owner runs after it was handed the lock. -/
theorem grant (h : Coherent stake m) {t : τ} (ho : m.owner = some t) :
    Coherent (Function.update stake t .holding) m where
  owner_stake u hu := by
    obtain rfl := h.owner_unique ho hu
    simp
  holding_owner u hu := by
    by_cases hut : u = t
    · rw [hut, ho]
    · rw [Function.update_of_ne hut] at hu
      exact h.holding_owner u hu
  waiting_queued u hu := h.waiting_queued u (of_update hu (by simp)).2
  queued_waiting u hu := by
    have hut : u ≠ t := fun he => h.owner_not_queued t ho (he ▸ hu)
    rw [Function.update_of_ne hut]
    exact h.queued_waiting u hu
  owner_not_queued := h.owner_not_queued
  nodup := h.nodup
  free_unqueued := h.free_unqueued

/-- The owner drops its guard; the first waiter becomes the owner. -/
theorem release (h : Coherent stake m) {t : τ} (ho : m.owner = some t) :
    Coherent (Function.update stake t .idle) m.release := by
  have hq := h.owner_not_queued t ho
  have hold : ∀ u, u ≠ t → stake u ≠ .holding := fun u hu hh =>
    hu (h.owner_unique (h.holding_owner u hh) ho)
  obtain ⟨owner, waiters⟩ := m
  cases waiters with
  | nil =>
    refine ⟨by simp, ?_, ?_, by simp, by simp, by simp, by simp⟩
    · intro u hu
      obtain ⟨hut, hu⟩ := of_update hu (by simp)
      exact absurd hu (hold u hut)
    · intro u hu
      obtain ⟨hut, hu⟩ := of_update hu (by simp)
      rcases h.waiting_queued u hu with hm | hm
      · exact absurd (h.owner_unique hm ho) hut
      · simp at hm
  | cons w ws =>
    have hwt : ∀ u ∈ w :: ws, u ≠ t := fun u hu he => hq (he ▸ hu)
    have hnd : w ∉ ws ∧ ws.Nodup := by simpa using h.nodup
    refine ⟨?_, ?_, ?_, ?_, ?_, hnd.2, by simp⟩
    · intro u hu
      obtain rfl : w = u := by simpa using hu
      rw [Function.update_of_ne (hwt w (by simp)), h.queued_waiting w (by simp)]
      simp
    · intro u hu
      obtain ⟨hut, hu⟩ := of_update hu (by simp)
      exact absurd hu (hold u hut)
    · intro u hu
      obtain ⟨hut, hu⟩ := of_update hu (by simp)
      rcases h.waiting_queued u hu with hm | hm
      · exact absurd (h.owner_unique hm ho) hut
      · rcases List.mem_cons.mp hm with rfl | hm
        · exact Or.inl rfl
        · exact Or.inr hm
    · intro u hu
      have hm : u ∈ w :: ws := List.mem_cons_of_mem w hu
      rw [Function.update_of_ne (hwt u hm)]
      exact h.queued_waiting u hm
    · intro u hu
      obtain rfl : w = u := by simpa using hu
      exact hnd.1

/-- Dropping a guard and asking again at once puts the task at the end of the queue. -/
theorem reacquire (h : Coherent stake m) {t : τ} (ho : m.owner = some t) :
    Coherent (Function.update stake t .waiting) (m.release.acquire t) := by
  have h' := (h.release ho).acquire (t := t) (by simp)
  rwa [Function.update_idem] at h'

/-- A task that does not use the lock leaves it alone. -/
theorem keep (h : Coherent stake m) {t : τ} {x : Stake} (hx : stake t = x) :
    Coherent (Function.update stake t x) m := by
  rwa [← hx, Function.update_eq_self]

end Coherent

/-- What one step of task `t` may do with a mutex: the stake of `t` before and after it, and the
mutex after it. -/
inductive Move (t : τ) (m : Mutex τ) : Stake → Stake → Mutex τ → Prop
  | keep (x : Stake) : Move t m x x m
  | acquire : Move t m .idle .waiting (m.acquire t)
  | grant (x : Stake) (h : m.owner = some t) : Move t m x .holding m
  | release (x : Stake) (h : m.owner = some t) : Move t m x .idle m.release
  | reacquire (x : Stake) (h : m.owner = some t) : Move t m x .waiting (m.release.acquire t)

theorem Coherent.move [DecidableEq τ] {stake : τ → Stake} {m m' : Mutex τ} {t : τ} {x y : Stake}
    (h : Coherent stake m) (hx : stake t = x) (hm : Move t m x y m') :
    Coherent (Function.update stake t y) m' := by
  cases hm with
  | keep => exact h.keep hx
  | acquire => exact h.acquire hx
  | grant _ ho => exact h.grant ho
  | release _ ho => exact h.release ho
  | reacquire _ ho => exact h.reacquire ho

section Ahead
variable [DecidableEq τ]

/-- The tasks that get the lock before a queued task `t`. -/
def ahead (t : τ) (m : Mutex τ) : List τ := m.owner.toList ++ m.waiters.takeWhile (· ≠ t)

theorem owner_mem_ahead {m : Mutex τ} {u : τ} (h : m.owner = some u) (t : τ) : u ∈ m.ahead t := by
  simp [ahead, h]

theorem owner_of_self_mem_ahead {m : Mutex τ} {t : τ} (h : t ∈ m.ahead t) : m.owner = some t := by
  rcases List.mem_append.mp h with h | h
  · simpa [eq_comm] using h
  · simpa using List.mem_takeWhile_imp h

/-- Newcomers queue behind `t`. -/
theorem ahead_acquire {m : Mutex τ} {t u : τ} (hown : m.owner ≠ none) (ht : t ∈ m.waiters) :
    (m.acquire u).ahead t = m.ahead t := by
  obtain ⟨v, hv⟩ := Option.ne_none_iff_exists'.mp hown
  have htw : (m.waiters ++ [u]).takeWhile (· ≠ t) = m.waiters.takeWhile (· ≠ t) := by
    rw [List.takeWhile_append, if_neg]
    intro hlen
    have hall := List.takeWhile_eq_self_iff.mp ((List.takeWhile_prefix _).eq_of_length hlen) t ht
    simp at hall
  rw [acquire_held hv, ahead, ahead, hv, htw]

/-- A release only shortens what is ahead of `t`. -/
theorem Coherent.mem_ahead_of_release {stake : τ → Stake} {m : Mutex τ} (h : Coherent stake m)
    {t u : τ} (ht : t ∈ m.release.waiters) (hu : u ∈ m.release.ahead t) : u ∈ m.ahead t := by
  obtain ⟨owner, waiters⟩ := m
  cases waiters with
  | nil => simp at ht
  | cons w ws =>
    have hw : w ≠ t := by
      rintro rfl
      exact (List.nodup_cons.mp h.nodup).1 ht
    have hu : u = w ∨ u ∈ ws.takeWhile (· ≠ t) := by simpa [ahead] using hu
    refine List.mem_append.mpr (Or.inr ?_)
    rw [List.takeWhile_cons_of_pos (by simpa using hw)]
    exact List.mem_cons.mpr hu

end Ahead

section Part

/-- The owner and those behind it. -/
def queue (m : Mutex τ) : List τ := m.owner.toList ++ m.waiters

open Classical in
/-- What `m` is to the tasks of a group, as if there were no others. -/
structure PartOf (group : τ → Prop) (part m : Mutex τ) : Prop where
  queue : part.queue = m.queue.filter fun t => group t
  idle : m.owner = none → m.waiters = []
  idlePart : part.owner = none → part.waiters = []

theorem queue_acquire {m : Mutex τ} (h : m.owner = none → m.waiters = []) (t : τ) :
    (m.acquire t).queue = m.queue ++ [t] := by
  cases hown : m.owner with
  | none => simp [acquire_free hown, queue, hown, h hown]
  | some u => simp [acquire_held hown, queue, hown]

theorem queue_release {m : Mutex τ} {t : τ} (h : m.owner = some t) :
    m.queue = t :: m.release.queue := by
  obtain ⟨owner, waiters⟩ := m
  obtain rfl : owner = some t := h
  cases waiters <;> rfl

theorem acquire_idle (m : Mutex τ) (t : τ) :
    (m.acquire t).owner = none → (m.acquire t).waiters = [] := by
  cases hown : m.owner <;> simp [acquire, hown]

theorem release_idle (m : Mutex τ) : m.release.owner = none → m.release.waiters = [] := by
  obtain ⟨owner, waiters⟩ := m
  cases waiters <;> simp

namespace PartOf
variable {group : τ → Prop} {part m : Mutex τ} {t : τ}

theorem free : PartOf group (Mutex.free : Mutex τ) Mutex.free :=
  ⟨rfl, fun _ => rfl, fun _ => rfl⟩

theorem acquire (h : PartOf group part m) (ht : group t) :
    PartOf group (part.acquire t) (m.acquire t) where
  queue := by
    rw [queue_acquire h.idlePart, queue_acquire h.idle, h.queue, List.filter_append]
    simp [ht]
  idle := acquire_idle m t
  idlePart := acquire_idle part t

theorem acquire_other (h : PartOf group part m) (ht : ¬ group t) :
    PartOf group part (m.acquire t) where
  queue := by
    rw [queue_acquire h.idle, h.queue, List.filter_append]
    simp [ht]
  idle := acquire_idle m t
  idlePart := h.idlePart

/-- A member of the group that has the mutex has it in its part. -/
theorem owner (h : PartOf group part m) (ho : m.owner = some t) (ht : group t) :
    part.owner = some t := by
  have hqueue := h.queue
  rw [queue_release ho, List.filter_cons_of_pos (by simpa using ht)] at hqueue
  cases hown : part.owner with
  | none => simp [Mutex.queue, hown, h.idlePart hown] at hqueue
  | some u =>
    rw [queue_release hown] at hqueue
    rw [(List.cons.inj hqueue).1]

theorem release (h : PartOf group part m) (ho : m.owner = some t) (ht : group t) :
    PartOf group part.release m.release where
  queue := by
    have hqueue := h.queue
    rw [queue_release ho, queue_release (h.owner ho ht),
      List.filter_cons_of_pos (by simpa using ht)] at hqueue
    exact (List.cons.inj hqueue).2
  idle := release_idle m
  idlePart := release_idle part

theorem release_other (h : PartOf group part m) (ho : m.owner = some t) (ht : ¬ group t) :
    PartOf group part m.release where
  queue := by
    rw [h.queue, queue_release ho, List.filter_cons_of_neg (by simpa using ht)]
  idle := release_idle m
  idlePart := h.idlePart

end PartOf
end Part

end Mutex

section Family
variable {τ ι : Type*}

/-- Every mutex of a family agrees with what the tasks do with it. -/
def CoherentAll (stake : τ → ι → Stake) (locks : ι → Mutex τ) : Prop :=
  ∀ i, Mutex.Coherent (fun t => stake t i) (locks i)

/-- A task moves from `x` to `y` in its use of the family, mutex by mutex. -/
theorem CoherentAll.move [DecidableEq τ] {stake stake' : τ → ι → Stake} {locks locks' : ι → Mutex τ}
    {t : τ} (h : CoherentAll stake locks) (ho : ∀ u, u ≠ t → stake' u = stake u)
    (hm : ∀ i, Mutex.Move t (locks i) (stake t i) (stake' t i) (locks' i)) :
    CoherentAll stake' locks' := by
  intro i
  have he : (fun u => stake' u i) = Function.update (fun u => stake u i) t (stake' t i) := by
    funext u
    by_cases hu : u = t
    · rw [hu, Function.update_self]
    · rw [Function.update_of_ne hu, ho u hu]
  rw [he]
  exact (h i).move rfl (hm i)

end Family

section Deadlock
variable {τ ι : Type*}

/-- `t` is queued for a mutex of the family that `u` owns. -/
def WaitsFor (locks : ι → Mutex τ) (t u : τ) : Prop :=
  ∃ i, t ∈ (locks i).waiters ∧ (locks i).owner = some u

/-- A cycle of tasks in which each waits for a mutex that the next one holds. -/
def Deadlocked (locks : ι → Mutex τ) : Prop :=
  ∃ t, Relation.TransGen (WaitsFor locks) t t

/-- A rank that falls along every wait rules cycles out. -/
theorem not_deadlocked_of_rank {locks : ι → Mutex τ} (rank : τ → ℕ)
    (h : ∀ t u, WaitsFor locks t u → rank u < rank t) : ¬ Deadlocked locks := by
  rintro ⟨t, ht⟩
  have hlt : ∀ u, Relation.TransGen (WaitsFor locks) t u → rank u < rank t := by
    intro u hu
    induction hu with
    | single hw => exact h _ _ hw
    | tail _ hw ih => exact Nat.lt_trans (h _ _ hw) ih
  exact Nat.lt_irrefl _ (hlt t ht)

/-- Two tasks that wait for each other are deadlocked. -/
theorem deadlocked_of_pair {locks : ι → Mutex τ} {t u : τ} (htu : WaitsFor locks t u)
    (hut : WaitsFor locks u t) : Deadlocked locks :=
  ⟨t, Relation.TransGen.tail (Relation.TransGen.single htu) hut⟩

end Deadlock
end Croc.Lib
