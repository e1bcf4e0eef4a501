import Mathlib.Algebra.BigOperators.Group.List.Basic
import Mathlib.Algebra.Order.Group.Unbundled.Int
import Mathlib.Algebra.Ring.Int.Defs
import Mathlib.Logic.Function.Basic
import Pscv.Lib.Machine
import Pscv.Lib.Word

/-!
# `sc_mutex` and `sc_semaphore`

A blocking call tests in a loop whether the lock is in use, and waits for the event `m_free`.
The event is notified at once, so the processes that wait run again in the same evaluation
phase, in an order of which nothing is assumed; another process may take the lock before they
test it.

## Main results

* `Mutex.mutex_run` — at most one process holds the mutex, and nobody sleeps while it is free.
* `Semaphore.semaphore_run` — the value is what is left of the posts, and nobody sleeps while
  it is positive.
-/

namespace Pscv.Kernel

open Pscv.Lib

variable {P : Type} [DecidableEq P] {p q : P}

/-! ### The loop of a blocking call -/

/-- The processes in the loop of a blocking call, and those of them that wait for `m_free`. -/
structure Waiters (P : Type) where
  looping : P → Bool
  asleep : P → Bool

namespace Waiters

def empty : Waiters P := ⟨fun _ => false, fun _ => false⟩

/-- The lock is in use. -/
def block (p : P) (w : Waiters P) : Waiters P :=
  ⟨Function.update w.looping p true, Function.update w.asleep p true⟩

/-- The loop ends. -/
def leave (p : P) (w : Waiters P) : Waiters P :=
  ⟨Function.update w.looping p false, Function.update w.asleep p false⟩

/-- `m_free.notify()`. -/
def notify (w : Waiters P) : Waiters P := { w with asleep := fun _ => false }

/-- Only a process in the loop sleeps, and only while the lock is in use. -/
structure Sound (w : Waiters P) (busy : Prop) : Prop where
  looping : ∀ q, w.asleep q = true → w.looping q = true
  busy : ∀ q, w.asleep q = true → busy

variable {w : Waiters P} {busy busy' : Prop}

omit [DecidableEq P] in
theorem empty_sound : (empty : Waiters P).Sound busy :=
  ⟨fun _ h => (Bool.false_ne_true h).elim, fun _ h => (Bool.false_ne_true h).elim⟩

omit [DecidableEq P] in
/-- After a notification nobody sleeps. -/
theorem notify_sound (w : Waiters P) : w.notify.Sound busy :=
  ⟨fun _ h => (Bool.false_ne_true h).elim, fun _ h => (Bool.false_ne_true h).elim⟩

theorem asleep_block (hq : q ≠ p) : (w.block p).asleep q = w.asleep q :=
  Function.update_of_ne hq ..

theorem looping_block (hq : q ≠ p) : (w.block p).looping q = w.looping q :=
  Function.update_of_ne hq ..

theorem asleep_leave (hq : q ≠ p) : (w.leave p).asleep q = w.asleep q :=
  Function.update_of_ne hq ..

theorem looping_leave_self : (w.leave p).looping p = false := Function.update_self ..

theorem Sound.block (H : w.Sound busy) (hbusy : busy) (p : P) : (w.block p).Sound busy := by
  refine ⟨fun q hq => ?_, fun _ _ => hbusy⟩
  by_cases hp : q = p
  · subst hp
    exact Function.update_self ..
  · rw [asleep_block hp] at hq
    rw [looping_block hp]
    exact H.looping q hq

/-- When the lock is free nobody sleeps, so nobody does when one process has taken it. -/
theorem Sound.leave (H : w.Sound busy) (hfree : ¬ busy) (p : P) : (w.leave p).Sound busy' := by
  have hnone : ∀ q, (w.leave p).asleep q ≠ true := by
    intro q hq
    by_cases hp : q = p
    · subst hp
      exact Bool.false_ne_true ((Function.update_self ..).symm.trans hq)
    · rw [asleep_leave hp] at hq
      exact hfree (H.busy q hq)
  exact ⟨fun q hq => (hnone q hq).elim, fun q hq => (hnone q hq).elim⟩

end Waiters

/-! ### The mutex -/

/-- `sc_mutex`. -/
structure Mutex (P : Type) where
  owner : Option P
  waiters : Waiters P

/-- The calls of a mutex by a process, and the further tests of a process that has waited. -/
inductive MutexMove (P : Type)
  | lock (p : P)
  | resume (p : P)
  | trylock (p : P)
  | unlock (p : P)

namespace Mutex

def new : Mutex P := ⟨none, .empty⟩

/-- The loop of `lock`, from a test on: it returns, or the process waits. -/
def lockLoop (p : P) (m : Mutex P) : Option ℤ × Mutex P :=
  if m.owner ≠ none then (none, { m with waiters := m.waiters.block p })
  else (some 0, ⟨some p, m.waiters.leave p⟩)

/-- `lock`. -/
def lock (p : P) (m : Mutex P) : Option ℤ × Mutex P :=
  if m.owner = some p then (some 0, m) else m.lockLoop p

/-- `trylock`. -/
def trylock (p : P) (m : Mutex P) : ℤ × Mutex P :=
  if m.owner = some p then (0, m)
  else if m.owner ≠ none then (-1, m)
  else (0, { m with owner := some p })

/-- `unlock`. -/
def unlock (p : P) (m : Mutex P) : ℤ × Mutex P :=
  if m.owner ≠ some p then (-1, m) else (0, ⟨none, m.waiters.notify⟩)

/-- One move, and what the call returns; `none` is a call that waits. A process calls when it
is not in a call, and tests again when it is awake. -/
def step : MutexMove P → Mutex P → Option (Option ℤ × Mutex P)
  | .lock p, m => if m.waiters.looping p then none else some (m.lock p)
  | .resume p, m =>
      if m.waiters.looping p && !m.waiters.asleep p then some (m.lockLoop p) else none
  | .trylock p, m =>
      if m.waiters.looping p then none else some (some (m.trylock p).1, (m.trylock p).2)
  | .unlock p, m =>
      if m.waiters.looping p then none else some (some (m.unlock p).1, (m.unlock p).2)

/-- Whether `q` holds the mutex, as far as it knows: it has got it, and not given it back. -/
def holds (q : P) : List (MutexMove P × Option ℤ) → Bool → Bool
  | [], b => b
  | (.lock p, r) :: log, b | (.resume p, r) :: log, b | (.trylock p, r) :: log, b =>
      holds q log (if p = q ∧ r = some 0 then true else b)
  | (.unlock p, r) :: log, b => holds q log (if p = q ∧ r = some 0 then false else b)

/-- What holds in every state. -/
structure Sound (m : Mutex P) : Prop where
  waiters : m.waiters.Sound (m.owner ≠ none)
  owner : ∀ p, m.owner = some p → m.waiters.looping p = false

variable {m m' : Mutex P} {r : Option ℤ} {mv : MutexMove P}

theorem lockLoop_sound (H : m.Sound) (hp : m.owner ≠ some p) : (m.lockLoop p).2.Sound := by
  rw [lockLoop]
  split_ifs with hfree
  · refine ⟨H.waiters.block hfree p, fun q hq => ?_⟩
    have hne : q ≠ p := fun h => hp (h ▸ hq)
    exact (Waiters.looping_block hne).trans (H.owner q hq)
  · refine ⟨H.waiters.leave hfree p, fun q hq => ?_⟩
    obtain rfl := Option.some.inj hq
    exact Waiters.looping_leave_self

theorem step_sound (H : m.Sound) (h : step mv m = some (r, m')) : m'.Sound := by
  cases mv with
  | lock p =>
      simp only [step] at h
      split_ifs at h
      obtain rfl : (m.lock p).2 = m' := congrArg Prod.snd (Option.some.inj h)
      rw [lock]
      split_ifs with hp
      · exact H
      · exact lockLoop_sound H hp
  | resume p =>
      simp only [step] at h
      split_ifs at h with hloop
      obtain rfl : (m.lockLoop p).2 = m' := congrArg Prod.snd (Option.some.inj h)
      refine lockLoop_sound H fun hp => ?_
      rw [H.owner p hp] at hloop
      cases hloop
  | trylock p =>
      simp only [step] at h
      split_ifs at h with hloop
      obtain rfl : (m.trylock p).2 = m' := congrArg Prod.snd (Option.some.inj h)
      rw [trylock]
      split_ifs with hp hfree
      · exact H
      · exact H
      · refine ⟨⟨H.waiters.looping, fun _ _ => Option.some_ne_none p⟩, fun q hq => ?_⟩
        obtain rfl := Option.some.inj hq
        exact Bool.eq_false_iff.mpr hloop
  | unlock p =>
      simp only [step] at h
      split_ifs at h
      obtain rfl : (m.unlock p).2 = m' := congrArg Prod.snd (Option.some.inj h)
      rw [unlock]
      split_ifs
      · exact H
      · exact ⟨Waiters.notify_sound _, fun q hq => by cases hq⟩

/-- The process `p` gets the mutex, or the owner stays. -/
def Gets (p : P) (m : Mutex P) (r : Option ℤ) (m' : Mutex P) : Prop :=
  (r = some 0 ∧ m'.owner = some p ∧ (m.owner = none ∨ m.owner = some p)) ∨
    (r ≠ some 0 ∧ m'.owner = m.owner)

theorem lockLoop_gets (p : P) (m : Mutex P) : Gets p m (m.lockLoop p).1 (m.lockLoop p).2 := by
  rw [lockLoop]
  split_ifs with hfree
  · exact .inr ⟨by simp, rfl⟩
  · exact .inl ⟨rfl, rfl, .inl (not_not.mp hfree)⟩

theorem lock_gets (p : P) (m : Mutex P) : Gets p m (m.lock p).1 (m.lock p).2 := by
  by_cases hp : m.owner = some p
  · rw [lock, if_pos hp]
    exact .inl ⟨rfl, hp, .inr hp⟩
  · rw [lock, if_neg hp]
    exact lockLoop_gets p m

theorem trylock_gets (p : P) (m : Mutex P) :
    Gets p m (some (m.trylock p).1) (m.trylock p).2 := by
  rw [trylock]
  split_ifs with hp hfree
  · exact .inl ⟨rfl, hp, .inr hp⟩
  · exact .inr ⟨by simp, rfl⟩
  · exact .inl ⟨rfl, rfl, .inl (not_not.mp hfree)⟩

/-- The process `p` gives the mutex back, or the owner stays. -/
theorem unlock_owner (p : P) (m : Mutex P) :
    ((m.unlock p).1 = 0 ∧ m.owner = some p ∧ (m.unlock p).2.owner = none) ∨
      ((m.unlock p).1 ≠ 0 ∧ (m.unlock p).2.owner = m.owner) := by
  rw [unlock]
  split_ifs with hp
  · exact .inr ⟨by simp, rfl⟩
  · exact .inl ⟨rfl, not_not.mp hp, rfl⟩

/-- Getting the mutex, as the processes see it. -/
theorem Gets.holds (h : Gets p m r m') {b : Bool} (hb : b = true ↔ m.owner = some q) :
    (if p = q ∧ r = some 0 then true else b) = true ↔ m'.owner = some q := by
  rcases h with ⟨rfl, howner, hbefore⟩ | ⟨hr, howner⟩
  · by_cases hpq : p = q
    · rw [if_pos ⟨hpq, rfl⟩, howner, hpq]
      simp
    · rw [if_neg fun hand => hpq hand.1, hb, howner]
      refine iff_of_false (fun hq => ?_) fun hq => hpq (Option.some.inj hq)
      rcases hbefore with hnone | hsome
      · cases hnone.symm.trans hq
      · exact hpq (Option.some.inj (hsome.symm.trans hq))
  · rw [if_neg fun hand => hr hand.2, hb, howner]

/-- One move, as the processes see it. -/
theorem step_holds (h : step mv m = some (r, m')) {b : Bool} (hb : b = true ↔ m.owner = some q)
    (log : List (MutexMove P × Option ℤ)) :
    ∃ b', holds q ((mv, r) :: log) b = holds q log b' ∧ (b' = true ↔ m'.owner = some q) := by
  cases mv with
  | lock p =>
      simp only [step] at h
      split_ifs at h
      have H := lock_gets p m
      rw [Option.some.inj h] at H
      exact ⟨_, rfl, H.holds hb⟩
  | resume p =>
      simp only [step] at h
      split_ifs at h
      have H := lockLoop_gets p m
      rw [Option.some.inj h] at H
      exact ⟨_, rfl, H.holds hb⟩
  | trylock p =>
      simp only [step] at h
      split_ifs at h
      have H := trylock_gets p m
      obtain ⟨rfl, rfl⟩ := Prod.mk.inj (Option.some.inj h)
      exact ⟨_, rfl, H.holds hb⟩
  | unlock p =>
      simp only [step] at h
      split_ifs at h
      obtain ⟨rfl, rfl⟩ := Prod.mk.inj (Option.some.inj h)
      refine ⟨_, rfl, ?_⟩
      rcases unlock_owner p m with ⟨hr, howner, hnone⟩ | ⟨hr, howner⟩
      · rw [hr, hnone]
        by_cases hpq : p = q
        · simp [hpq]
        · rw [if_neg fun hand => hpq hand.1, hb, howner]
          simp [hpq]
      · rw [if_neg fun hand => hr (Option.some.inj hand.2), hb, howner]

/-- **The mutex.** In every order of calls and tests a process that has got the mutex, and not
given it back, is the only one. A process sleeps only while another one holds the mutex. -/
theorem mutex_run {ms : List (MutexMove P)} {rs : List (Option ℤ)}
    (h : run step ms (new : Mutex P) = some (rs, m)) :
    (∀ p q, holds p (ms.zip rs) false = true → holds q (ms.zip rs) false = true → p = q) ∧
      ∀ q, m.waiters.asleep q = true → ∃ p, p ≠ q ∧ holds p (ms.zip rs) false = true := by
  have hrun : ∀ (m₀ : Mutex P) (b : P → Bool), m₀.Sound →
    (∀ q, b q = true ↔ m₀.owner = some q) →
      run step ms m₀ = some (rs, m) →
      m.Sound ∧ ∀ q, holds q (ms.zip rs) (b q) = true ↔ m.owner = some q := by
    clear h
    induction ms generalizing rs with
    | nil =>
        intro m₀ b H hb h
        obtain ⟨rfl, rfl⟩ := Prod.mk.inj (Option.some.inj h)
        exact ⟨H, hb⟩
    | cons mv ms ih =>
        intro m₀ b H hb h
        rw [run_cons] at h
        obtain ⟨⟨r, m₁⟩, hstep, hmap⟩ := Option.bind_eq_some_iff.mp h
        obtain ⟨⟨rs₁, m₂⟩, hrest, heq⟩ := Option.map_eq_some_iff.mp hmap
        obtain ⟨rfl, rfl⟩ := Prod.mk.inj heq
        choose b' hlog hb' using fun q => step_holds hstep (hb q) (ms.zip rs₁)
        obtain ⟨hsound, hholds⟩ := ih m₁ b' (step_sound H hstep) hb' hrest
        refine ⟨hsound, fun q => ?_⟩
        rw [List.zip_cons_cons, hlog]
        exact hholds q
  obtain ⟨H, hholds⟩ :=
    hrun new (fun _ => false) ⟨Waiters.empty_sound, fun p hp => by cases hp⟩
    (fun q => by simp [new]) h
  refine ⟨fun p q hp hq => ?_, fun q hq => ?_⟩
  · exact Option.some.inj (((hholds p).mp hp).symm.trans ((hholds q).mp hq))
  · obtain ⟨p, hp⟩ := Option.ne_none_iff_exists'.mp (H.waiters.busy q hq)
    refine ⟨p, fun hpq => ?_, (hholds p).mpr hp⟩
    have hloop := H.waiters.looping q hq
    rw [H.owner q (hpq ▸ hp)] at hloop
    cases hloop

/-- The second process waits until the first one, which has locked twice, unlocks once; then a
third one is faster. -/
def contention : List (MutexMove ℕ) :=
  [.lock 1, .lock 1, .lock 2, .unlock 3, .unlock 1, .trylock 3, .resume 2]

theorem mutex_run_three : ∃ rs m, run step contention new = some (rs, m) ∧
    rs = [some 0, some 0, none, some (-1), some 0, some 0, none] ∧
    ∃ p, p ≠ 2 ∧ holds p (contention.zip rs) false = true := by
  have hsome : (run step contention new).isSome := rfl
  obtain ⟨⟨rs, m⟩, hrun⟩ := Option.isSome_iff_exists.mp hsome
  have hasleep : m.waiters.asleep 2 = true := by
    obtain ⟨-, rfl⟩ := Prod.mk.inj (Option.some.inj (hrun.symm.trans rfl))
    rfl
  exact ⟨rs, m, hrun, congrArg Prod.fst (Option.some.inj (hrun.symm.trans rfl)),
    (mutex_run hrun).2 2 hasleep⟩

end Mutex

/-! ### The semaphore -/

/-- `sc_semaphore`. -/
structure Semaphore (P : Type) where
  value : ℤ
  waiters : Waiters P

/-- The calls of a semaphore, and the further tests of a process that has waited. -/
inductive SemaphoreMove (P : Type)
  | wait (p : P)
  | resume (p : P)
  | trywait (p : P)
  | post (p : P)

namespace Semaphore

/-- The constructor; a negative value is an error. Its argument is an `int`. -/
def new (init : ℤ) : Option (Semaphore P) := if init < 0 then none else some ⟨init, .empty⟩

/-- The loop of `wait`, from a test on. -/
def waitLoop (p : P) (s : Semaphore P) : Option ℤ × Semaphore P :=
  if s.value ≤ 0 then (none, { s with waiters := s.waiters.block p })
  else (some 0, ⟨s.value - 1, s.waiters.leave p⟩)

/-- `trywait`. -/
def trywait (s : Semaphore P) : ℤ × Semaphore P :=
  if s.value ≤ 0 then (-1, s) else (0, { s with value := s.value - 1 })

/-- `post`; the value is an `int`, whose overflow has no result. -/
def post (s : Semaphore P) : Option (ℤ × Semaphore P) :=
  if s.value + 1 ≤ intMax then some (0, ⟨s.value + 1, s.waiters.notify⟩) else none

/-- One move, and what the call returns. -/
def step : SemaphoreMove P → Semaphore P → Option (Option ℤ × Semaphore P)
  | .wait p, s => if s.waiters.looping p then none else some (s.waitLoop p)
  | .resume p, s =>
      if s.waiters.looping p && !s.waiters.asleep p then some (s.waitLoop p) else none
  | .trywait p, s =>
      if s.waiters.looping p then none else some (some s.trywait.1, s.trywait.2)
  | .post p, s => if s.waiters.looping p then none else s.post.map fun r => (some r.1, r.2)

/-- What a move adds to the value, as the processes see it. -/
def change : SemaphoreMove P → Option ℤ → ℤ
  | .post _, _ => 1
  | _, r => if r = some 0 then -1 else 0

/-- What holds in every state. -/
structure Sound (s : Semaphore P) : Prop where
  waiters : s.waiters.Sound (s.value = 0)
  value : 0 ≤ s.value
  bound : s.value ≤ intMax

variable {s s' : Semaphore P} {r : Option ℤ} {mv : SemaphoreMove P}

theorem waitLoop_spec (H : s.Sound) (p : P) :
    (s.waitLoop p).2.Sound ∧
      (s.waitLoop p).2.value = s.value + if (s.waitLoop p).1 = some 0 then -1 else 0 := by
  have hvalue := H.value
  have hbound := H.bound
  rw [waitLoop]
  split_ifs with hbusy hret hret
  · cases hret
  · exact ⟨⟨H.waiters.block (by omega) p, hvalue, hbound⟩, (add_zero _).symm⟩
  · exact ⟨⟨H.waiters.leave (by omega) p, by change 0 ≤ s.value - 1; omega,
      by change s.value - 1 ≤ intMax; omega⟩, rfl⟩
  · exact (hret rfl).elim

theorem step_spec (H : s.Sound) (h : step mv s = some (r, s')) :
    s'.Sound ∧ s'.value = s.value + change mv r := by
  have hvalue := H.value
  have hbound := H.bound
  cases mv with
  | wait p =>
      simp only [step] at h
      split_ifs at h
      have hloop := waitLoop_spec H p
      rw [Option.some.inj h] at hloop
      exact hloop
  | resume p =>
      simp only [step] at h
      split_ifs at h
      have hloop := waitLoop_spec H p
      rw [Option.some.inj h] at hloop
      exact hloop
  | trywait p =>
      simp only [step] at h
      split_ifs at h
      obtain ⟨rfl, rfl⟩ := Prod.mk.inj (Option.some.inj h)
      rw [trywait]
      split_ifs with hbusy
      · exact ⟨H, by simp [change]⟩
      · refine ⟨⟨⟨H.waiters.looping, fun q hq => ?_⟩, by change 0 ≤ s.value - 1; omega,
          by change s.value - 1 ≤ intMax; omega⟩, rfl⟩
        have := H.waiters.busy q hq
        omega
  | post p =>
      simp only [step] at h
      split_ifs at h
      obtain ⟨⟨z, s₁⟩, hpost, heq⟩ := Option.map_eq_some_iff.mp h
      obtain ⟨rfl, rfl⟩ := Prod.mk.inj heq
      rw [post] at hpost
      split_ifs at hpost with hint
      obtain ⟨rfl, rfl⟩ := Prod.mk.inj (Option.some.inj hpost)
      exact ⟨⟨Waiters.notify_sound _, by change 0 ≤ s.value + 1; omega, hint⟩, rfl⟩

theorem isSome_post_iff (h : s.waiters.looping p = false) :
    (step (.post p) s).isSome ↔ s.value < intMax := by
  simp only [step, h, Bool.false_eq_true, if_false, Option.isSome_map, post]
  split_ifs with hint
  · exact iff_of_true rfl (by omega)
  · exact iff_of_false (by simp) (by omega)

/-- **The semaphore.** In every order of calls and tests the value is what the constructor and
the posts have added, less the waits that have returned; it is never negative, and while it is
positive nobody sleeps. The posts have a result until that number is the largest `int`. -/
theorem semaphore_run {init : ℤ} (hint : init ≤ intMax) {s₀ : Semaphore P}
    (hinit : new init = some s₀) {ms : List (SemaphoreMove P)} {rs : List (Option ℤ)}
    (h : run step ms s₀ = some (rs, s)) :
    s.value = init + (List.zipWith change ms rs).sum ∧ 0 ≤ s.value ∧
      (∀ q, s.waiters.asleep q = true → s.value = 0) ∧
      ∀ p, s.waiters.looping p = false →
        ((step (.post p) s).isSome ↔ init + (List.zipWith change ms rs).sum < intMax) := by
  have hrun : ∀ s₀ : Semaphore P, s₀.Sound → run step ms s₀ = some (rs, s) →
      s.Sound ∧ s.value = s₀.value + (List.zipWith change ms rs).sum := by
    clear hinit h
    induction ms generalizing rs with
    | nil =>
        intro s₀ H h
        obtain ⟨rfl, rfl⟩ := Prod.mk.inj (Option.some.inj h)
        exact ⟨H, by simp⟩
    | cons mv ms ih =>
        intro s₀ H h
        rw [run_cons] at h
        obtain ⟨⟨r, s₁⟩, hstep, hmap⟩ := Option.bind_eq_some_iff.mp h
        obtain ⟨⟨rs₁, s₂⟩, hrest, heq⟩ := Option.map_eq_some_iff.mp hmap
        obtain ⟨rfl, rfl⟩ := Prod.mk.inj heq
        obtain ⟨H₁, hvalue⟩ := step_spec H hstep
        obtain ⟨H₂, hsum⟩ := ih s₁ H₁ hrest
        refine ⟨H₂, ?_⟩
        rw [List.zipWith_cons_cons, List.sum_cons, hsum, hvalue, add_assoc]
  rw [new] at hinit
  split_ifs at hinit with hneg
  obtain rfl := Option.some.inj hinit
  obtain ⟨H, hvalue⟩ := hrun _ ⟨Waiters.empty_sound, not_lt.mp hneg, hint⟩ h
  refine ⟨hvalue, H.value, H.waiters.busy, fun p hp => ?_⟩
  rw [isSome_post_iff hp, hvalue]

/-- Of two processes that wait for one post, the second one waits again. -/
def onePost : List (SemaphoreMove ℕ) :=
  [.wait 1, .wait 2, .wait 3, .post 1, .resume 3, .resume 2]

theorem semaphore_run_two : ∃ s₀ s rs, new 1 = some s₀ ∧ run step onePost s₀ = some (rs, s) ∧
    rs = [some 0, none, none, some 0, some 0, none] ∧ s.value = 0 := by
  have hsome : (run step onePost ⟨1, .empty⟩).isSome := rfl
  obtain ⟨⟨rs, s⟩, hrun⟩ := Option.isSome_iff_exists.mp hsome
  have hasleep : s.waiters.asleep 2 = true := by
    obtain ⟨-, rfl⟩ := Prod.mk.inj (Option.some.inj (hrun.symm.trans rfl))
    rfl
  have hinit : new 1 = some (⟨1, .empty⟩ : Semaphore ℕ) := rfl
  exact ⟨_, s, rs, hinit, hrun, congrArg Prod.fst (Option.some.inj (hrun.symm.trans rfl)),
    (semaphore_run (by decide) hinit hrun).2.2.1 2 hasleep⟩

end Semaphore
end Pscv.Kernel
