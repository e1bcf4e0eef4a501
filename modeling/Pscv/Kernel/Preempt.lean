import Pscv.Kernel.Runnable

/-!
# Preemption of a running thread

`preempt_with` suspends the running thread `A` in favour of `B` by putting `A` and
then `B` at the front of the pop queue and asking `next_cor` for the next thread. In
the deterministic mode that is the first thread of the queue; in the randomized mode
it is the one at position `rand() % n`.

What `B` does until it suspends or ends is a list of `Act`s on the scheduler; `B` does
not preempt in turn.

## Main results

* `Sched.nextCor_spec` — the thread that `next_cor` selects.
* `Sched.preemptWith_other_spec`, `Sched.preemptWith_self_spec`.
* `Sched.preempts_iff` — when a preemption runs `B` and then `A`.
-/

namespace Pscv.Kernel

/-- A coroutine: the simulator's own, or that of a thread. -/
inductive Cor
  | main
  | thread (h : Handle)
  deriving DecidableEq

/-- `process_throw_type`. -/
inductive ThrowStatus
  | none
  | kill
  | user
  | asyncReset
  | syncReset
  deriving DecidableEq

/-- The part of `sc_simcontext` and of its threads that switching threads uses. `rand`
holds the results of the calls of `rand()` to come; `hasCor` tells the threads whose
`m_cor_p` is set. -/
structure Sched where
  runnable : Runnable
  ranEnable : Bool
  rand : ℕ → ℕ
  error : Bool
  currProc : Option (Kind × Handle)
  hasCor : Handle → Bool
  throwStatus : Handle → ThrowStatus
  unwinding : Handle → Bool

/-- What becomes of a thread in `suspend_me`: control goes to another coroutine, or the
thread keeps it and throws its pending exception, if any. -/
inductive Suspended
  | switched (cor : Cor)
  | resumed (thrown : ThrowStatus)
  deriving DecidableEq

namespace Sched

/-- `pop_thread` or `pop_thread_random`; a draw is used up only for a non-empty queue. -/
def popThread (s : Sched) : Option (Handle × Sched) :=
  if s.ranEnable then
    (s.runnable.popThreadRandom (s.rand 0)).map fun x =>
      (x.1, { s with
        runnable := x.2
        rand := if s.runnable.threads.popQueue ≠ scNo then fun i => s.rand (i + 1)
          else s.rand })
  else some (s.runnable.popThread.1, { s with runnable := s.runnable.popThread.2 })

/-- `pop_runnable_thread`. -/
def popRunnableThread (s : Sched) : Option (Handle × Sched) :=
  s.popThread.map fun x =>
    (x.1, { x.2 with currProc := if x.1 = null then .none else some (.thread, x.1) })

/-- The loop of `next_cor`, which passes over threads without a coroutine. -/
def nextCorLoop : ℕ → Sched → Option (Cor × Sched)
  | 0, _ => .none
  | fuel + 1, s => do
      let (h, s₁) ← s.popRunnableThread
      if h = null then pure (.main, s₁)
      else if s₁.hasCor h then pure (.thread h, s₁)
      else nextCorLoop fuel s₁

/-- `next_cor`. -/
def nextCor (s : Sched) : Option (Cor × Sched) :=
  if s.error then some (.main, s) else nextCorLoop addressSpace s

/-- The exception that a thread which gets control back in `suspend_me` throws. -/
def pendingThrow (s : Sched) (h : Handle) : ThrowStatus :=
  if s.unwinding h then .none else s.throwStatus h

/-- `suspend_me` of the thread `h`, up to the switch. -/
def suspendMe (h : Handle) (s : Sched) : Option (Suspended × Sched) := do
  let (cor, s₁) ← s.nextCor
  if cor = .thread h then pure (.resumed (s₁.pendingThrow h), s₁) else pure (.switched cor, s₁)

/-- Take a thread off the run queue, if it is there. -/
def unqueueThread (h : Handle) (s : Sched) : Option Sched :=
  if s.runnable.threads.next h ≠ null then
    (s.runnable.removeThread h).map fun r => { s with runnable := r }
  else some s

/-- `execute_thread_next`. -/
def executeThreadNext (h : Handle) (s : Sched) : Sched :=
  { s with runnable := s.runnable.executeThreadNext h }

/-- `preempt_with` on a thread, up to the switch. -/
def preemptWith (h : Handle) (s : Sched) : Option (Suspended × Sched) := do
  let s₁ ← s.unqueueThread h
  match s.currProc with
  | some (.thread, active) =>
      if active ≠ h then ((s₁.executeThreadNext active).executeThreadNext h).suspendMe active
      else (s₁.executeThreadNext h).suspendMe active
  | _ =>
      -- a calling method runs the thread directly, past the run queue
      pure (.switched (.thread h), { s₁ with currProc := some (.thread, h) })

/-- The end of `sc_thread_cor_fn` for the thread `h`, up to the switch. -/
def finish (h : Handle) (s : Sched) : Option (Suspended × Sched) := do
  let s₁ ← s.unqueueThread h
  let (cor, s₂) ← s₁.nextCor
  pure (.switched cor, s₂)

end Sched

/-- What a running process does to the scheduler, short of preempting: make a process
runnable, take one off the run queue, stop at once, or raise an error. -/
inductive Act
  | wake (k : Kind) (h : Handle)
  | remove (k : Kind) (h : Handle)
  | stopImmediate
  | error

/-- The last thing the preempting thread does. -/
inductive Exit
  | suspend
  | finish

namespace Sched

/-- One act. The kernel pushes a process only while it is not queued. -/
def act : Act → Sched → Option Sched
  | .wake .method h, s => some <|
      if s.runnable.methods.next h = null then
        { s with runnable := s.runnable.pushBackMethod h }
      else s
  | .wake .thread h, s => some <|
      if s.runnable.threads.next h = null then
        { s with runnable := s.runnable.pushBackThread h }
      else s
  | .remove .method h, s => (s.runnable.removeMethod h).map fun r => { s with runnable := r }
  | .remove .thread h, s => (s.runnable.removeThread h).map fun r => { s with runnable := r }
  | .stopImmediate, s => some { s with runnable := s.runnable.init null null }
  | .error, s => some { s with error := true }

def acts (as : List Act) (s : Sched) : Option Sched := as.foldlM (fun s x => s.act x) s

/-- The thread `h` suspends itself or ends. -/
def exit (e : Exit) (h : Handle) (s : Sched) : Option (Suspended × Sched) :=
  match e with
  | .suspend => s.suspendMe h
  | .finish => s.finish h

/-- Preempt with `h`, let it perform `as` and leave by `e`. -/
def preemption (h : Handle) (as : List Act) (e : Exit) (s : Sched) :
    Option (Suspended × Suspended) := do
  let (first, s₁) ← s.preemptWith h
  let s₂ ← s₁.acts as
  let (second, _) ← s₂.exit e h
  pure (first, second)

end Sched

namespace Sched
variable {s s' s₁ s₂ : Sched} {a : Lists} {h : Handle}

/-- A thread object. -/
def IsThread (s : Sched) (h : Handle) : Prop := s.runnable.threads.IsProcess h

/-- `s'` differs from `s` in its run queues, its draws and its current process only, and
has the dummy heads of `s`. -/
structure Frames (s s' : Sched) : Prop where
  ranEnable : s'.ranEnable = s.ranEnable
  error : s'.error = s.error
  hasCor : s'.hasCor = s.hasCor
  throwStatus : s'.throwStatus = s.throwStatus
  unwinding : s'.unwinding = s.unwinding
  head : ∀ k, (s'.runnable.half k).pushHead = (s.runnable.half k).pushHead

namespace Frames

theorem refl (s : Sched) : Frames s s := ⟨rfl, rfl, rfl, rfl, rfl, fun _ => rfl⟩

theorem trans (F : Frames s s₁) (G : Frames s₁ s₂) : Frames s s₂ where
  ranEnable := G.ranEnable.trans F.ranEnable
  error := G.error.trans F.error
  hasCor := G.hasCor.trans F.hasCor
  throwStatus := G.throwStatus.trans F.throwStatus
  unwinding := G.unwinding.trans F.unwinding
  head k := (G.head k).trans (F.head k)

/-- Run queues with the same dummy heads. -/
theorem ofThreads {r : Runnable} (hm : r.methods = s.runnable.methods)
    (ht : r.threads.pushHead = s.runnable.threads.pushHead) :
    Frames s { s with runnable := r } := by
  refine ⟨rfl, rfl, rfl, rfl, rfl, ?_⟩
  rintro (_ | _)
  · exact congrArg RunQueue.pushHead hm
  · exact ht

theorem isThread_iff (F : Frames s s') : s'.IsThread h ↔ s.IsThread h := by
  unfold IsThread RunQueue.IsProcess
  rw [show s'.runnable.threads.pushHead = _ from F.head .thread]
  rfl

theorem pendingThrow (F : Frames s s') (h : Handle) :
    s'.pendingThrow h = s.pendingThrow h := by
  rw [Sched.pendingThrow, Sched.pendingThrow, F.unwinding, F.throwStatus]

end Frames

/-- The position a pop takes: a draw in the randomized mode, the first otherwise. -/
def position (s : Sched) (n : ℕ) : ℕ := if s.ranEnable then s.rand 0 % n else 0

/-- `pop_runnable_thread` takes the thread at its position. -/
theorem popRunnableThread_spec (H : s.runnable.Represents a) :
    ∃ s', s.popRunnableThread =
        some ((a.threads.takeAt (s.position a.threads.pop.length)).1, s') ∧
      s'.runnable.Represents ⟨a.methods,
        (a.threads.takeAt (s.position a.threads.pop.length)).2⟩ ∧
      Frames s s' ∧
      (s.ranEnable = true → a.threads.pop ≠ [] → ∀ i, s'.rand i = s.rand (i + 1)) := by
  by_cases hr : s.ranEnable = true
  · obtain ⟨q, hq, hrep⟩ := RunQueue.popRandom_spec (w := 64) (s.rand 0) H.threads
      H.threads.length_pop_lt
    have hpos : s.position a.threads.pop.length = s.rand 0 % a.threads.pop.length := if_pos hr
    rw [← hpos] at hq hrep
    have hpop : s.popThread = some ((a.threads.takeAt (s.position a.threads.pop.length)).1,
        { s with
          runnable := { s.runnable with threads := q }
          rand := if s.runnable.threads.popQueue ≠ scNo then fun i => s.rand (i + 1)
            else s.rand }) := by
      rw [popThread, if_pos hr, Runnable.popThreadRandom, Kind.counterWidth, hq]
      rfl
    refine ⟨_, congrArg (Option.map _) hpop, ⟨H.methods, hrep⟩, ?_, fun _ hne i => ?_⟩
    · have F := Frames.ofThreads (s := s) (r := { s.runnable with threads := q }) rfl
        (RunQueue.pushHead_popRandom hq)
      exact F.trans ⟨rfl, rfl, rfl, rfl, rfl, fun _ => rfl⟩
    · have hq' : s.runnable.threads.popQueue ≠ scNo := fun heq =>
        hne (H.threads.popQueue_eq_scNo_iff.mp heq)
      exact congrFun (if_pos hq') i
  · obtain ⟨hres, hrep⟩ := RunQueue.pop_spec H.threads
    have hpos : s.position a.threads.pop.length = 0 := if_neg hr
    have hpop : s.popThread = some ((a.threads.takeAt 0).1,
        { s with runnable := s.runnable.popThread.2 }) := by
      rw [popThread, if_neg hr, ← hres]
      rfl
    rw [hpos]
    refine ⟨_, congrArg (Option.map _) hpop, ⟨H.methods, hrep⟩, ?_, fun h => absurd h hr⟩
    have F := Frames.ofThreads (s := s) (r := s.runnable.popThread.2) rfl
      (RunQueue.pushHead_pop _)
    exact F.trans ⟨rfl, rfl, rfl, rfl, rfl, fun _ => rfl⟩

/-- The coroutine at a position of the queue; the simulator's own past its end. -/
def corAt (xs : List Handle) (i : ℕ) : Cor :=
  match xs[i]? with
  | some x => .thread x
  | none => .main

/-- `next_cor` selects the thread at the position of its pop, when every queued thread
has a coroutine. -/
theorem nextCor_spec (H : s.runnable.Represents a) (herr : s.error = false)
    (hcor : ∀ h ∈ a.threads.pop, s.hasCor h = true) :
    ∃ s', s.nextCor = some (corAt a.threads.pop (s.position a.threads.pop.length), s') ∧
      s'.runnable.Represents ⟨a.methods,
        (a.threads.takeAt (s.position a.threads.pop.length)).2⟩ ∧
      Frames s s' ∧
      (s.ranEnable = true → a.threads.pop ≠ [] → ∀ i, s'.rand i = s.rand (i + 1)) := by
  obtain ⟨s', hs', H', F, hrand⟩ := popRunnableThread_spec H
  refine ⟨s', ?_, H', F, hrand⟩
  obtain ⟨fuel, hfuel⟩ : ∃ k, addressSpace = k + 1 := ⟨addressSpace - 1, rfl⟩
  rw [nextCor, herr, hfuel, nextCorLoop, hs']
  cases hget : a.threads.pop[s.position a.threads.pop.length]? with
  | none => simp [Queues.takeAt, corAt, hget]
  | some x =>
      have hmem : x ∈ a.threads.pop := List.mem_of_getElem? hget
      have hx : x ≠ null := (H.threads.process x (by simp [hmem])).1
      simp [Queues.takeAt, corAt, hget, hx, F.hasCor, hcor x hmem]

theorem corAt_cons_iff {x : Handle} {xs : List Handle} {i : ℕ} (hx : x ∉ xs) :
    corAt (x :: xs) i = .thread x ↔ i = 0 := by
  cases i with
  | zero => simp [corAt]
  | succ i =>
      have hne : xs[i]? ≠ some x := fun hget => hx (List.mem_of_getElem? hget)
      cases hget : xs[i]? with
      | none => simp [corAt, hget]
      | some y =>
          have hyx : y ≠ x := fun heq => hne (by rw [hget, heq])
          simp [corAt, hget, hyx]

theorem corAt_ne {x : Handle} {xs : List Handle} {i : ℕ} (hx : x ∉ xs) :
    corAt xs i ≠ .thread x := by
  cases hget : xs[i]? with
  | none => simp [corAt, hget]
  | some y =>
      have hyx : y ≠ x := fun heq => hx (heq ▸ List.mem_of_getElem? hget)
      simp [corAt, hget, hyx]

theorem position_eq_zero_iff {n : ℕ} :
    s.position n = 0 ↔ (s.ranEnable = true → s.rand 0 % n = 0) := by
  unfold position
  by_cases hr : s.ranEnable = true <;> simp [hr]

theorem unqueueThread_spec (H : s.runnable.Represents a) (hp : s.IsThread h) :
    ∃ s', s.unqueueThread h = some s' ∧
      s'.runnable.Represents ⟨a.methods, a.threads.remove h⟩ ∧ Frames s s' ∧
      s'.rand = s.rand ∧ s'.currProc = s.currProc := by
  have hiff := H.threads.queued_iff h hp
  by_cases hq : s.runnable.threads.next h ≠ null
  · obtain ⟨q, hq', hrep⟩ := RunQueue.remove_spec H.threads hp
    have hunqueue : s.unqueueThread h =
        some { s with runnable := { s.runnable with threads := q } } := by
      rw [unqueueThread, if_pos hq, Runnable.removeThread, if_pos H.isInitialized, hq']
      rfl
    exact ⟨_, hunqueue, ⟨H.methods, hrep⟩, Frames.ofThreads rfl (RunQueue.pushHead_remove hq'),
      rfl, rfl⟩
  · have hnot : h ∉ a.threads.all := fun hm => hq (hiff.mpr hm)
    rw [Queues.mem_all, not_or] at hnot
    refine ⟨s, by rw [unqueueThread, if_neg hq], ?_, Frames.refl s, rfl, rfl⟩
    rw [Queues.remove, List.erase_of_not_mem hnot.1, List.erase_of_not_mem hnot.2]
    exact H

theorem executeThreadNext_spec (H : s.runnable.Represents a) (hp : s.IsThread h)
    (hn : h ∉ a.threads.all) :
    (s.executeThreadNext h).runnable.Represents ⟨a.methods, a.threads.executeNext h⟩ ∧
      Frames s (s.executeThreadNext h) := by
  have hnext : s.runnable.threads.next h = null := by
    by_contra hq
    exact hn ((H.threads.queued_iff h hp).mp hq)
  exact ⟨⟨H.methods, RunQueue.executeNext_spec H.threads hp hnext⟩, Frames.ofThreads rfl rfl⟩

theorem notMem_remove (H : s.runnable.Represents a) (h : Handle) :
    h ∉ (a.threads.remove h).all := by
  have hnd := List.nodup_append'.mp H.threads.nodup
  simp [Queues.remove, hnd.1.mem_erase_iff, hnd.2.1.mem_erase_iff]

section Preempt
variable {A B : Handle}

/-- Preempting another thread leaves it and the caller at the front of the queue. -/
theorem preemptWith_other_spec (H : s.runnable.Represents a)
    (hrun : s.currProc = some (.thread, A)) (hA : s.IsThread A) (hAq : A ∉ a.threads.all)
    (hB : s.IsThread B) (hAB : A ≠ B) :
    ∃ s₁, s.preemptWith B = s₁.suspendMe A ∧
      s₁.runnable.Represents ⟨a.methods, B :: A :: a.threads.pop.erase B,
        a.threads.push.erase B⟩ ∧
      Frames s s₁ ∧ s₁.rand = s.rand := by
  obtain ⟨s₁, hs₁, H₁, F₁, hrand, hcurr⟩ := unqueueThread_spec H hB
  have hAq₁ : A ∉ (a.threads.remove B).all := by
    rw [Queues.mem_all, not_or] at hAq ⊢
    exact ⟨fun hm => hAq.1 (List.mem_of_mem_erase hm), fun hm =>
      hAq.2 (List.mem_of_mem_erase hm)⟩
  obtain ⟨H₂, F₂⟩ := executeThreadNext_spec H₁ (F₁.isThread_iff.mpr hA) hAq₁
  have hBq₂ : B ∉ ((a.threads.remove B).executeNext A).all := by
    have hnot := notMem_remove H B
    rw [Queues.mem_all, not_or] at hnot
    simp [Queues.executeNext, hnot.1, hnot.2, hAB.symm]
  obtain ⟨H₃, F₃⟩ := executeThreadNext_spec H₂ ((F₁.trans F₂).isThread_iff.mpr hB) hBq₂
  refine ⟨_, ?_, H₃, (F₁.trans F₂).trans F₃, hrand⟩
  rw [preemptWith, hs₁, hrun]
  simp [hAB]

/-- Preempting itself leaves the caller at the front of the queue. -/
theorem preemptWith_self_spec (H : s.runnable.Represents a)
    (hrun : s.currProc = some (.thread, A)) (hA : s.IsThread A) (hAq : A ∉ a.threads.all) :
    ∃ s₁, s.preemptWith A = s₁.suspendMe A ∧
      s₁.runnable.Represents ⟨a.methods, A :: a.threads.pop, a.threads.push⟩ ∧
      Frames s s₁ ∧ s₁.rand = s.rand := by
  obtain ⟨s₁, hs₁, H₁, F₁, hrand, hcurr⟩ := unqueueThread_spec H hA
  have hnot := hAq
  rw [Queues.mem_all, not_or] at hnot
  rw [Queues.remove, List.erase_of_not_mem hnot.1, List.erase_of_not_mem hnot.2] at H₁
  obtain ⟨H₂, F₂⟩ := executeThreadNext_spec H₁ (F₁.isThread_iff.mpr hA) hAq
  refine ⟨_, ?_, H₂, F₁.trans F₂, hrand⟩
  rw [preemptWith, hs₁, hrun]
  simp

end Preempt

end Sched

namespace Act

/-- The process an act is about is one. -/
def Valid (s : Sched) : Act → Prop
  | .wake k h | .remove k h => (s.runnable.half k).IsProcess h
  | _ => True

/-- An act that neither takes `A` off the run queue, nor stops, nor raises an error. -/
def Spares (A : Handle) : Act → Prop
  | .remove .thread h => h ≠ A
  | .stopImmediate | .error => False
  | _ => True

/-- What an act leaves of the pop queue of threads. -/
def leaves (xs : List Handle) : Act → List Handle
  | .remove .thread h => xs.erase h
  | _ => xs

theorem Valid.frame {x : Act} {s s' : Sched} (hv : x.Valid s)
    (hh : ∀ k, (s'.runnable.half k).pushHead = (s.runnable.half k).pushHead) : x.Valid s' := by
  cases x with
  | wake k h | remove k h => simpa [Valid, RunQueue.IsProcess, hh k] using hv
  | stopImmediate | error => trivial

theorem leaves_cons {A : Handle} {x : Act} (h : x.Spares A) (xs : List Handle) :
    x.leaves (A :: xs) = A :: x.leaves xs := by
  cases x with
  | remove k h' =>
      cases k with
      | method => rfl
      | thread => exact List.erase_cons_tail (by simpa using h.symm)
  | wake k h' => rfl
  | stopImmediate | error => exact h.elim

theorem mem_of_mem_leaves (x : Act) {xs : List Handle} {y : Handle} (h : y ∈ x.leaves xs) :
    y ∈ xs := by
  cases x with
  | remove k h' =>
      cases k with
      | method => exact h
      | thread => exact List.mem_of_mem_erase h
  | wake k h' | stopImmediate | error => exact h

theorem mem_of_mem_foldl_leaves {as : List Act} {xs : List Handle} {y : Handle}
    (h : y ∈ as.foldl leaves xs) : y ∈ xs := by
  induction as generalizing xs with
  | nil => exact h
  | cons x as ih => exact x.mem_of_mem_leaves (ih h)

theorem foldl_leaves_cons {A : Handle} {as : List Act} (h : ∀ x ∈ as, x.Spares A)
    (xs : List Handle) : as.foldl leaves (A :: xs) = A :: as.foldl leaves xs := by
  induction as generalizing xs with
  | nil => rfl
  | cons x as ih =>
      rw [List.foldl_cons, List.foldl_cons, leaves_cons (h x (by simp))]
      exact ih (fun y hy => h y (by simp [hy])) _

end Act

namespace Sched

section Acts
variable {s s' : Sched} {a : Lists} {A B : Handle} {x : Act} {as : List Act}

/-- An act that spares `A` keeps the run queues well formed. -/
theorem act_spec (H : s.runnable.Represents a) (hv : x.Valid s) (hx : x.Spares A) :
    ∃ s' a', s.act x = some s' ∧ s'.runnable.Represents a' ∧
      a'.threads.pop = x.leaves a.threads.pop ∧ Frames s s' ∧ s'.rand = s.rand := by
  cases x with
  | wake k h =>
      cases k with
      | method =>
          by_cases hn : s.runnable.methods.next h = null
          · exact ⟨{ s with runnable := s.runnable.pushBackMethod h },
              ⟨a.methods.pushBack h, a.threads⟩, by simp [act, hn],
              ⟨RunQueue.pushBack_spec H.methods hv hn, H.threads⟩, rfl,
              ⟨rfl, rfl, rfl, rfl, rfl, by rintro (_ | _) <;> rfl⟩, rfl⟩
          · exact ⟨s, a, by simp [act, hn], H, rfl, Frames.refl s, rfl⟩
      | thread =>
          by_cases hn : s.runnable.threads.next h = null
          · exact ⟨{ s with runnable := s.runnable.pushBackThread h },
              ⟨a.methods, a.threads.pushBack h⟩, by simp [act, hn],
              ⟨H.methods, RunQueue.pushBack_spec H.threads hv hn⟩, rfl,
              Frames.ofThreads rfl rfl, rfl⟩
          · exact ⟨s, a, by simp [act, hn], H, rfl, Frames.refl s, rfl⟩
  | remove k h =>
      cases k with
      | method =>
          obtain ⟨q, hq, hrep⟩ := RunQueue.remove_spec H.methods hv
          have hact : s.act (.remove .method h) =
              some { s with runnable := { s.runnable with methods := q } } := by
            rw [act, Runnable.removeMethod, if_pos H.isInitialized, hq]
            rfl
          refine ⟨_, ⟨a.methods.remove h, a.threads⟩, hact, ⟨hrep, H.threads⟩, rfl,
            ⟨rfl, rfl, rfl, rfl, rfl, ?_⟩, rfl⟩
          rintro (_ | _)
          · exact RunQueue.pushHead_remove hq
          · rfl
      | thread =>
          obtain ⟨q, hq, hrep⟩ := RunQueue.remove_spec H.threads hv
          have hact : s.act (.remove .thread h) =
              some { s with runnable := { s.runnable with threads := q } } := by
            rw [act, Runnable.removeThread, if_pos H.isInitialized, hq]
            rfl
          exact ⟨_, ⟨a.methods, a.threads.remove h⟩, hact, ⟨H.methods, hrep⟩, rfl,
            Frames.ofThreads rfl (RunQueue.pushHead_remove hq), rfl⟩
  | stopImmediate | error => exact hx.elim

theorem acts_cons (x : Act) (as : List Act) (s : Sched) :
    s.acts (x :: as) = (s.act x).bind fun s' => s'.acts as := by
  rw [acts, List.foldlM_cons]
  rfl

theorem acts_spec (H : s.runnable.Represents a) (hv : ∀ x ∈ as, x.Valid s)
    (hx : ∀ x ∈ as, x.Spares A) :
    ∃ s' a', s.acts as = some s' ∧ s'.runnable.Represents a' ∧
      a'.threads.pop = as.foldl Act.leaves a.threads.pop ∧ Frames s s' ∧ s'.rand = s.rand := by
  induction as generalizing s a with
  | nil => exact ⟨s, a, rfl, H, rfl, Frames.refl s, rfl⟩
  | cons x as ih =>
      obtain ⟨s₁, a₁, hs₁, H₁, hpop₁, F₁, hrand₁⟩ :=
        act_spec H (hv x (by simp)) (hx x (by simp))
      have hv₁ : ∀ y ∈ as, y.Valid s₁ := fun y hy => (hv y (by simp [hy])).frame F₁.head
      obtain ⟨s₂, a₂, hs₂, H₂, hpop₂, F₂, hrand₂⟩ := ih H₁ hv₁ fun y hy => hx y (by simp [hy])
      refine ⟨s₂, a₂, ?_, H₂, ?_, F₁.trans F₂, hrand₂.trans hrand₁⟩
      · rw [acts_cons, hs₁]
        exact hs₂
      · rw [hpop₂, hpop₁, List.foldl_cons]

/-- No act moves a dummy head. -/
theorem pushHead_act (hi : s.runnable.isInitialized = true) (hs : s.act x = some s')
    (k : Kind) :
    (s'.runnable.half k).pushHead = (s.runnable.half k).pushHead := by
  cases x with
  | wake k' h =>
      cases k' with
      | method =>
          rw [act, Option.some.injEq] at hs
          subst hs
          split_ifs <;> cases k <;> rfl
      | thread =>
          rw [act, Option.some.injEq] at hs
          subst hs
          split_ifs <;> cases k <;> rfl
  | remove k' h =>
      cases k' with
      | method =>
          rw [act, Runnable.removeMethod, if_pos hi, Option.map_map] at hs
          obtain ⟨q, hq, rfl⟩ := Option.map_eq_some_iff.mp hs
          cases k
          · exact RunQueue.pushHead_remove hq
          · rfl
      | thread =>
          rw [act, Runnable.removeThread, if_pos hi, Option.map_map] at hs
          obtain ⟨q, hq, rfl⟩ := Option.map_eq_some_iff.mp hs
          cases k
          · rfl
          · exact RunQueue.pushHead_remove hq
  | stopImmediate =>
      cases hs
      rw [Runnable.isInitialized, Bool.and_eq_true, decide_eq_true_eq, decide_eq_true_eq] at hi
      cases k
      · exact if_neg hi.1
      · exact if_neg hi.2
  | error => cases hs; rfl

theorem isInitialized_act (hi : s.runnable.isInitialized = true) (hs : s.act x = some s') :
    s'.runnable.isInitialized = true := by
  have hm : s'.runnable.methods.pushHead = s.runnable.methods.pushHead :=
    pushHead_act hi hs .method
  have ht : s'.runnable.threads.pushHead = s.runnable.threads.pushHead :=
    pushHead_act hi hs .thread
  rw [Runnable.isInitialized, hm, ht]
  exact hi

theorem pushHead_acts (hi : s.runnable.isInitialized = true) (hs : s.acts as = some s')
    (k : Kind) : (s'.runnable.half k).pushHead = (s.runnable.half k).pushHead := by
  induction as generalizing s with
  | nil => cases hs; rfl
  | cons x as ih =>
      rw [acts_cons] at hs
      obtain ⟨s₁, hs₁, hs⟩ := Option.bind_eq_some_iff.mp hs
      exact (ih (isInitialized_act hi hs₁) hs).trans (pushHead_act hi hs₁ k)

theorem error_act (he : s.error = true) (hs : s.act x = some s') : s'.error = true := by
  cases x with
  | wake k h =>
      cases k <;> (rw [act, Option.some.injEq] at hs; subst hs; split_ifs <;> exact he)
  | remove k h =>
      cases k <;> (obtain ⟨r, _, rfl⟩ := Option.map_eq_some_iff.mp hs; exact he)
  | stopImmediate => cases hs; exact he
  | error => cases hs; rfl

theorem popQueue_removeThread {r r' : Runnable} {h : Handle} (hq : r.threads.popQueue = scNo)
    (hr : r.removeThread h = some r') : r'.threads.popQueue = scNo := by
  unfold Runnable.removeThread at hr
  split_ifs at hr
  · obtain ⟨q, hrem, rfl⟩ := Option.map_eq_some_iff.mp hr
    exact RunQueue.popQueue_remove hrem hq
  · cases hr; exact hq

/-- An empty pop queue of threads stays empty. -/
theorem popQueue_act (hq : s.runnable.threads.popQueue = scNo) (hs : s.act x = some s') :
    s'.runnable.threads.popQueue = scNo := by
  cases x with
  | wake k h =>
      cases k <;> (rw [act, Option.some.injEq] at hs; subst hs; split_ifs <;> exact hq)
  | remove k h =>
      cases k with
      | method =>
          obtain ⟨r, hr, rfl⟩ := Option.map_eq_some_iff.mp hs
          unfold Runnable.removeMethod at hr
          split_ifs at hr
          · obtain ⟨q, _, rfl⟩ := Option.map_eq_some_iff.mp hr
            exact hq
          · cases hr; exact hq
      | thread =>
          obtain ⟨r, hr, rfl⟩ := Option.map_eq_some_iff.mp hs
          exact popQueue_removeThread hq hr
  | stopImmediate => cases hs; rfl
  | error => cases hs; exact hq

/-- A state in which `A` is not the next thread: an error is pending, or the pop queue is
empty, or `A` is not in it. -/
def Lost (A : Handle) (s : Sched) : Prop :=
  s.error = true ∨ s.runnable.threads.popQueue = scNo ∨
    ∃ a, s.runnable.Represents a ∧ A ∉ a.threads.pop

theorem lost_of_not_spares (H : s.runnable.Represents a) (hv : x.Valid s) (hx : ¬ x.Spares A)
    (hs : s.act x = some s') : s'.Lost A := by
  cases x with
  | wake k h => exact absurd trivial hx
  | remove k h =>
      cases k with
      | method => exact absurd trivial hx
      | thread =>
          obtain rfl : h = A := by simpa [Act.Spares] using hx
          obtain ⟨q, hq, hrep⟩ := RunQueue.remove_spec H.threads hv
          rw [Sched.act, Runnable.removeThread, if_pos H.isInitialized, hq] at hs
          cases hs
          refine .inr (.inr ⟨⟨a.methods, a.threads.remove h⟩, ⟨H.methods, hrep⟩, ?_⟩)
          exact fun hm => notMem_remove H h (by simp [hm])
  | stopImmediate =>
      cases hs
      exact .inr (.inl rfl)
  | error =>
      cases hs
      exact .inl rfl

/-- What is lost stays lost. -/
theorem Lost.act (hL : s.Lost A) (hv : x.Valid s) (hs : s.act x = some s') : s'.Lost A := by
  rcases hL with he | hq | ⟨a, H, hA⟩
  · exact .inl (error_act he hs)
  · exact .inr (.inl (popQueue_act hq hs))
  · by_cases hx : x.Spares A
    · obtain ⟨s₁, a₁, hs₁, H₁, hpop, _⟩ := act_spec H hv hx
      obtain rfl : s₁ = s' := Option.some.inj (hs₁.symm.trans hs)
      exact .inr (.inr ⟨a₁, H₁, fun hm => hA (x.mem_of_mem_leaves (hpop ▸ hm))⟩)
    · exact lost_of_not_spares H hv hx hs

theorem Lost.acts (hL : s.Lost A) (hi : s.runnable.isInitialized = true)
    (hv : ∀ x ∈ as, x.Valid s) (hs : s.acts as = some s') : s'.Lost A := by
  induction as generalizing s with
  | nil => cases hs; exact hL
  | cons x as ih =>
      rw [acts_cons] at hs
      obtain ⟨s₁, hs₁, hs⟩ := Option.bind_eq_some_iff.mp hs
      refine ih (hL.act (hv x (by simp)) hs₁) (isInitialized_act hi hs₁) ?_ hs
      exact fun y hy => (hv y (by simp [hy])).frame (pushHead_act hi hs₁)

/-- A list of acts of which one does not spare `A` loses it. -/
theorem lost_of_acts (H : s.runnable.Represents a) (hv : ∀ x ∈ as, x.Valid s)
    (hx : ¬ ∀ x ∈ as, x.Spares A) (hs : s.acts as = some s') : s'.Lost A := by
  induction as generalizing s a with
  | nil => simp at hx
  | cons x as ih =>
      rw [acts_cons] at hs
      obtain ⟨s₁, hs₁, hs⟩ := Option.bind_eq_some_iff.mp hs
      have hv₁ : ∀ y ∈ as, y.Valid s₁ := fun y hy =>
        (hv y (by simp [hy])).frame (pushHead_act H.isInitialized hs₁)
      by_cases hx' : x.Spares A
      · obtain ⟨s₂, a₂, hs₂, H₂, _⟩ := act_spec H (hv x (by simp)) hx'
        obtain rfl : s₂ = s₁ := Option.some.inj (hs₂.symm.trans hs₁)
        refine ih H₂ hv₁ (fun hall => hx ?_) hs
        simpa [hx'] using hall
      · have hL := lost_of_not_spares H (hv x (by simp)) hx' hs₁
        exact hL.acts (isInitialized_act H.isInitialized hs₁) hv₁ hs

/-- `next_cor` does not select a lost thread. -/
theorem Lost.nextCor_ne {cor : Cor} (hL : s.Lost A) (hs : s.nextCor = some (cor, s')) :
    cor ≠ .thread A := by
  unfold nextCor at hs
  split_ifs at hs with he
  · cases hs; simp
  obtain ⟨fuel, hfuel⟩ : ∃ k, addressSpace = k := ⟨_, rfl⟩
  rw [hfuel] at hs
  rcases hL with he' | hq | ⟨a, H, hA⟩
  · exact absurd he' he
  · have hpop : ∃ s₁, s.popRunnableThread = some (null, s₁) := by
      by_cases hr : s.ranEnable = true
      · simp [popRunnableThread, popThread, hr, Runnable.popThreadRandom,
          RunQueue.popRandom, hq]
      · simp [popRunnableThread, popThread, hr, Runnable.popThread, RunQueue.pop, hq]
    obtain ⟨s₁, hs₁⟩ := hpop
    cases fuel with
    | zero => cases hs
    | succ fuel =>
        rw [nextCorLoop, hs₁] at hs
        cases hs
        simp
  · clear hfuel he
    -- every pop leaves fewer threads, and `A` is none of them
    induction fuel generalizing s a with
    | zero => cases hs
    | succ fuel ih =>
        obtain ⟨s₁, hs₁, H₁, F₁, _⟩ := popRunnableThread_spec H
        rw [nextCorLoop, hs₁] at hs
        cases hget : a.threads.pop[s.position a.threads.pop.length]? with
        | none =>
            simp only [Queues.takeAt, hget] at hs
            cases hs
            simp
        | some y =>
            have hy : y ∈ a.threads.pop := List.mem_of_getElem? hget
            have hne : y ≠ null := (H.threads.process y (by simp [hy])).1
            simp only [Queues.takeAt, hget, Option.bind_eq_bind, Option.bind_some,
              if_neg hne] at hs
            split_ifs at hs
            · cases hs
              rintro ⟨⟩
              exact hA hy
            · refine ih hs _ H₁ ?_
              simp only [Queues.takeAt, hget]
              exact fun hm => hA (List.mem_of_mem_eraseIdx hm)

theorem Lost.unqueueThread (hL : s.Lost A) (hp : s.IsThread B)
    (hs : s.unqueueThread B = some s') : s'.Lost A := by
  have hcases : s' = s ∨ s.act (.remove .thread B) = some s' := by
    unfold Sched.unqueueThread at hs
    split_ifs at hs
    · exact .inr hs
    · exact .inl (Option.some.inj hs).symm
  rcases hcases with rfl | hact
  · exact hL
  · exact hL.act (x := .remove .thread B) hp hact

/-- A thread that leaves does not hand over to a lost thread. -/
theorem Lost.exit_ne {e : Exit} {y : Suspended} (hL : s.Lost A) (hp : s.IsThread B)
    (hs : s.exit e B = some (y, s')) : y ≠ .switched (.thread A) := by
  cases e with
  | suspend =>
      obtain ⟨⟨cor, s₁⟩, hcor, hs⟩ := Option.bind_eq_some_iff.mp hs
      have hne := hL.nextCor_ne hcor
      dsimp only at hs
      split_ifs at hs
      · cases hs; simp
      · cases hs; simpa using hne
  | finish =>
      obtain ⟨s₁, hs₁, hs⟩ := Option.bind_eq_some_iff.mp hs
      obtain ⟨⟨cor, s₂⟩, hcor, hs⟩ := Option.bind_eq_some_iff.mp hs
      have hne := (hL.unqueueThread hp hs₁).nextCor_ne hcor
      cases hs
      simpa using hne

end Acts

section Main
variable {s s' : Sched} {a : Lists} {A B : Handle} {as : List Act} {e : Exit}

/-- A suspended thread hands over to the thread at the position of the pop. -/
theorem suspendMe_spec {xs : List Handle} (H : s.runnable.Represents a)
    (hpop : a.threads.pop = xs) (herr : s.error = false)
    (hcor : ∀ h, s.IsThread h → s.hasCor h = true) :
    ∃ s', s.suspendMe A = some (if corAt xs (s.position xs.length) = .thread A
        then .resumed (s.pendingThrow A)
          else .switched (corAt xs (s.position xs.length)), s') ∧
      s'.runnable.Represents ⟨a.methods, (a.threads.takeAt (s.position xs.length)).2⟩ ∧
      Frames s s' ∧ (s.ranEnable = true → xs ≠ [] → ∀ i, s'.rand i = s.rand (i + 1)) := by
  subst hpop
  obtain ⟨s', hs', H', F, hrand⟩ := nextCor_spec H herr fun h hm =>
    hcor h (H.threads.process h (by simp [hm]))
  refine ⟨s', ?_, H', F, hrand⟩
  rw [suspendMe, hs']
  by_cases hA : corAt a.threads.pop (s.position a.threads.pop.length) = .thread A
  · simp [hA, F.pendingThrow]
  · simp [hA]

/-- A thread that is not in the pop queue leaves to the thread at the position of the pop. -/
theorem exit_spec {xs : List Handle} (H : s.runnable.Represents a)
    (hpop : a.threads.pop = xs) (herr : s.error = false)
    (hcor : ∀ h, s.IsThread h → s.hasCor h = true) (hB : s.IsThread B) (hBq : B ∉ xs) :
    ∃ s', s.exit e B = some (.switched (corAt xs (s.position xs.length)), s') := by
  cases e with
  | suspend =>
      obtain ⟨s', hs', _⟩ := suspendMe_spec (A := B) H hpop herr hcor
      rw [if_neg (corAt_ne hBq)] at hs'
      exact ⟨s', hs'⟩
  | finish =>
      obtain ⟨s₁, hs₁, H₁, F₁, hrand, _⟩ := unqueueThread_spec H hB
      have hpop₁ : (a.threads.remove B).pop = xs := by
        rw [Queues.remove, hpop, List.erase_of_not_mem hBq]
      have hpos : s₁.position xs.length = s.position xs.length := by
        rw [position, position, F₁.ranEnable, hrand]
      obtain ⟨s₂, hs₂, _⟩ := nextCor_spec H₁ (F₁.error.trans herr) fun h hm => by
        rw [F₁.hasCor]
        exact hcor h (F₁.isThread_iff.mp (H₁.threads.process h (by simp [hm])))
      rw [hpop₁, hpos] at hs₂
      refine ⟨s₂, ?_⟩
      rw [exit, finish, hs₁]
      simp [hs₂]

section Other
variable {s₁ : Sched} {xs : List Handle}

/-- From a queue `B`, `A`, `xs`, the suspended `A` hands over to `B` exactly when no error
is pending and the draw hits the front of the queue. -/
theorem suspendMe_eq_switched_iff (H : s.runnable.Represents a)
    (hpop : a.threads.pop = B :: A :: xs) (hA : s.IsThread A)
    (hcor : ∀ h, s.IsThread h → s.hasCor h = true) :
    (∃ s', s.suspendMe A = some (.switched (.thread B), s')) ↔
      s.error = false ∧ s.position (xs.length + 2) = 0 := by
  have hnd := (List.nodup_append'.mp H.threads.nodup).1
  rw [hpop, List.nodup_cons] at hnd
  have hAB : A ≠ B := fun heq => hnd.1 (by simp [heq])
  constructor
  · rintro ⟨s', hs'⟩
    have herr : s.error = false := by
      by_contra he
      have hL : s.Lost B := .inl (by simpa using he)
      exact hL.exit_ne (e := .suspend) hA hs' rfl
    obtain ⟨s₂, hs₂, _⟩ := suspendMe_spec (A := A) H hpop herr hcor
    have heq := congrArg (Option.map Prod.fst) (hs₂.symm.trans hs')
    simp only [Option.map_some, Option.some.injEq, List.length_cons] at heq
    split_ifs at heq with hself
    rw [Suspended.switched.injEq, corAt_cons_iff hnd.1] at heq
    exact ⟨herr, heq⟩
  · rintro ⟨herr, hpos⟩
    obtain ⟨s', hs', _⟩ := suspendMe_spec (A := A) H hpop herr hcor
    rw [List.length_cons, List.length_cons, hpos, (corAt_cons_iff hnd.1).mpr rfl,
      if_neg (by simpa using hAB.symm)] at hs'
    exact ⟨s', hs'⟩

/-- From a queue `A`, `xs`, what `B` does ends with control in `A` exactly when it spares
`A` and the draw hits the front of what is left of the queue. -/
theorem acts_exit_iff (H : s.runnable.Represents a) (hpop : a.threads.pop = A :: xs)
    (herr : s.error = false) (hcor : ∀ h, s.IsThread h → s.hasCor h = true)
    (hB : s.IsThread B) (hBq : B ∉ A :: xs) (has : ∀ x ∈ as, x.Valid s) :
    (∃ s', ((s.acts as).bind fun s₂ => s₂.exit e B) = some (.switched (.thread A), s')) ↔
      (∀ x ∈ as, x.Spares A) ∧ s.position ((as.foldl Act.leaves xs).length + 1) = 0 := by
  by_cases hsp : ∀ x ∈ as, x.Spares A
  · obtain ⟨s₂, a₂, hs₂, H₂, hpop₂, F₂, hrand₂⟩ := acts_spec H has hsp
    rw [hpop, Act.foldl_leaves_cons hsp] at hpop₂
    have hnd := (List.nodup_append'.mp H₂.threads.nodup).1
    rw [hpop₂, List.nodup_cons] at hnd
    have hBq₂ : B ∉ A :: as.foldl Act.leaves xs := by
      intro hm
      rcases List.mem_cons.mp hm with heq | hm
      · exact hBq (by simp [heq])
      · exact hBq (by simp [Act.mem_of_mem_foldl_leaves hm])
    have hpos : ∀ n, s₂.position n = s.position n := fun n => by
      rw [position, position, F₂.ranEnable, hrand₂]
    obtain ⟨s₃, hs₃⟩ := exit_spec (e := e) H₂ hpop₂ (F₂.error.trans herr)
      (fun h hh => by rw [F₂.hasCor]; exact hcor h (F₂.isThread_iff.mp hh))
      (F₂.isThread_iff.mpr hB) hBq₂
    rw [hs₂, Option.bind_some, hs₃, hpos, List.length_cons]
    simpa [corAt_cons_iff hnd.1] using fun _ => hsp
  · refine ⟨?_, fun h => absurd h.1 hsp⟩
    rintro ⟨s', hs'⟩
    obtain ⟨s₂, hs₂, hs'⟩ := Option.bind_eq_some_iff.mp hs'
    have hL := lost_of_acts H has hsp hs₂
    have hhead : s₂.runnable.threads.pushHead = s.runnable.threads.pushHead :=
      pushHead_acts H.isInitialized hs₂ .thread
    refine absurd rfl (hL.exit_ne ?_ hs')
    unfold IsThread RunQueue.IsProcess
    rw [hhead]
    exact hB

end Other

/-- Preempting another thread runs it next, and the caller after it, exactly when no
error is pending, the acts spare the caller, and both draws hit the front of the queue. -/
theorem preemption_other_iff (H : s.runnable.Represents a)
    (hcor : ∀ h, s.IsThread h → s.hasCor h = true) (hrun : s.currProc = some (.thread, A))
    (hA : s.IsThread A) (hAq : A ∉ a.threads.all) (hB : s.IsThread B) (hAB : A ≠ B)
    (has : ∀ x ∈ as, x.Valid s) :
    s.preemption B as e = some (.switched (.thread B), .switched (.thread A)) ↔
      s.error = false ∧ (∀ x ∈ as, x.Spares A) ∧ (s.ranEnable = true →
        s.rand 0 % ((a.threads.pop.erase B).length + 2) = 0 ∧
        s.rand 1 % ((as.foldl Act.leaves (a.threads.pop.erase B)).length + 1) = 0) := by
  obtain ⟨s₁, hs₁, H₁, F₁, hrand₁⟩ := preemptWith_other_spec H hrun hA hAq hB hAB
  have hcor₁ : ∀ h, s₁.IsThread h → s₁.hasCor h = true := fun h hh => by
    rw [F₁.hasCor]
    exact hcor h (F₁.isThread_iff.mp hh)
  have hfirst := suspendMe_eq_switched_iff H₁ rfl (F₁.isThread_iff.mpr hA) hcor₁
  rw [F₁.error, position_eq_zero_iff, F₁.ranEnable, hrand₁] at hfirst
  have hsecond : ∀ s₂, s₁.suspendMe A = some (.switched (.thread B), s₂) →
      ((∃ s', ((s₂.acts as).bind fun s₃ => s₃.exit e B) = some (.switched (.thread A), s')) ↔
        (∀ x ∈ as, x.Spares A) ∧ (s.ranEnable = true →
          s.rand 1 % ((as.foldl Act.leaves (a.threads.pop.erase B)).length + 1) = 0)) := by
    intro s₂ hs₂
    obtain ⟨herr, hpos⟩ := (suspendMe_eq_switched_iff H₁ rfl (F₁.isThread_iff.mpr hA) hcor₁).mp
      ⟨s₂, hs₂⟩
    obtain ⟨s₂', hs₂', H₂, F₂, hrand₂⟩ := suspendMe_spec (A := A) H₁ rfl herr hcor₁
    obtain rfl : s₂' = s₂ := congrArg Prod.snd (Option.some.inj (hs₂'.symm.trans hs₂))
    rw [List.length_cons, List.length_cons, hpos] at H₂
    have hBq : B ∉ A :: a.threads.pop.erase B := (List.nodup_cons.mp
      (List.nodup_append'.mp H₁.threads.nodup).1).1
    have F := F₁.trans F₂
    rw [acts_exit_iff H₂ rfl (F₂.error.trans herr)
      (fun h hh => by rw [F.hasCor]; exact hcor h (F.isThread_iff.mp hh))
      (F.isThread_iff.mpr hB) hBq (fun x hx => (has x hx).frame F.head),
      position_eq_zero_iff, F.ranEnable]
    refine and_congr_right fun _ => forall_congr' fun hr => ?_
    rw [hrand₂ (F₁.ranEnable.trans hr) (by simp) 0, hrand₁]
  rw [preemption, hs₁]
  constructor
  · intro h
    obtain ⟨⟨y, s₂⟩, hy, h⟩ := Option.bind_eq_some_iff.mp h
    obtain ⟨s₃, hs₃, h⟩ := Option.bind_eq_some_iff.mp h
    obtain ⟨⟨z, s₄⟩, hz, h⟩ := Option.bind_eq_some_iff.mp h
    cases h
    obtain ⟨herr, hdraw⟩ := hfirst.mp ⟨s₂, hy⟩
    obtain ⟨hsp, hdraw'⟩ := (hsecond s₂ hy).mp ⟨s₄, by rw [hs₃]; exact hz⟩
    exact ⟨herr, hsp, fun hr => ⟨hdraw hr, hdraw' hr⟩⟩
  · rintro ⟨herr, hsp, hdraws⟩
    obtain ⟨s₂, hs₂⟩ := hfirst.mpr ⟨herr, fun hr => (hdraws hr).1⟩
    obtain ⟨s₄, hs₄⟩ := (hsecond s₂ hs₂).mpr ⟨hsp, fun hr => (hdraws hr).2⟩
    obtain ⟨s₃, hs₃, hs₄⟩ := Option.bind_eq_some_iff.mp hs₄
    simp [hs₂, hs₃, hs₄]

/-- Preempting itself gives control back to the caller, which throws its pending exception,
exactly when no error is pending and the draw hits the front of the queue. -/
theorem preemptWith_self_iff (H : s.runnable.Represents a)
    (hcor : ∀ h, s.IsThread h → s.hasCor h = true) (hrun : s.currProc = some (.thread, A))
    (hA : s.IsThread A) (hAq : A ∉ a.threads.all) :
    (∃ s', s.preemptWith A = some (.resumed (s.pendingThrow A), s')) ↔
      s.error = false ∧ (s.ranEnable = true → s.rand 0 % (a.threads.pop.length + 1) = 0) := by
  obtain ⟨s₁, hs₁, H₁, F₁, hrand₁⟩ := preemptWith_self_spec H hrun hA hAq
  have hcor₁ : ∀ h, s₁.IsThread h → s₁.hasCor h = true := fun h hh => by
    rw [F₁.hasCor]
    exact hcor h (F₁.isThread_iff.mp hh)
  have hpos : s₁.position (a.threads.pop.length + 1) = 0 ↔
      (s.ranEnable = true → s.rand 0 % (a.threads.pop.length + 1) = 0) := by
    rw [position_eq_zero_iff, F₁.ranEnable, hrand₁]
  have hnot : A ∉ a.threads.pop := fun hm => hAq (by simp [hm])
  rw [hs₁, ← hpos]
  constructor
  · rintro ⟨s', hs'⟩
    have herr : s.error = false := by
      by_contra he
      have he₁ : s₁.error = true := by rw [F₁.error]; simpa using he
      simp [suspendMe, nextCor, he₁] at hs'
    obtain ⟨s₂, hs₂, _⟩ := suspendMe_spec (A := A) H₁ rfl (F₁.error.trans herr) hcor₁
    have heq := congrArg (Option.map Prod.fst) (hs₂.symm.trans hs')
    simp only [Option.map_some, Option.some.injEq, List.length_cons] at heq
    split_ifs at heq with hself
    exact ⟨herr, (corAt_cons_iff hnot).mp hself⟩
  · rintro ⟨herr, hzero⟩
    obtain ⟨s₂, hs₂, _⟩ := suspendMe_spec (A := A) H₁ rfl (F₁.error.trans herr) hcor₁
    rw [List.length_cons, hzero, if_pos ((corAt_cons_iff hnot).mpr rfl),
      F₁.pendingThrow] at hs₂
    exact ⟨s₂, hs₂⟩

/-- **Preemption.** A running thread `A` that preempts `B` is followed by `B`, and `B` by `A`
when `B` suspends or ends, exactly when no error is pending, `B` spares `A`, and in the
randomized mode both draws are multiples of the number of queued threads. A thread that
preempts itself throws its pending exception at once under the same condition on its draw. -/
theorem preempts_iff (H : s.runnable.Represents a)
    (hcor : ∀ h, s.IsThread h → s.hasCor h = true) (hrun : s.currProc = some (.thread, A))
    (hA : s.IsThread A) (hnext : s.runnable.threads.next A = null) :
    (∀ B as e, s.IsThread B → A ≠ B → (∀ x ∈ as, Act.Valid s x) →
      (s.preemption B as e = some (.switched (.thread B), .switched (.thread A)) ↔
        s.error = false ∧ (∀ x ∈ as, x.Spares A) ∧ (s.ranEnable = true →
          s.rand 0 % ((a.threads.pop.erase B).length + 2) = 0 ∧
          s.rand 1 % ((as.foldl Act.leaves (a.threads.pop.erase B)).length + 1) = 0))) ∧
    ((∃ s', s.preemptWith A = some (.resumed (s.pendingThrow A), s')) ↔
      s.error = false ∧ (s.ranEnable = true → s.rand 0 % (a.threads.pop.length + 1) = 0)) := by
  have hAq : A ∉ a.threads.all := H.threads.notMem_of_next hA hnext
  exact ⟨fun B as e hB hAB has => preemption_other_iff H hcor hrun hA hAq hB hAB has,
    preemptWith_self_iff H hcor hrun hA hAq⟩

end Main

section Example

/-- Thread `0x1000` runs with a kill pending, thread `0x3000` is queued, and the scheduler
is randomized. -/
def randomized (rand : ℕ → ℕ) : Sched where
  runnable := (Runnable.start.pushBackThread 0x3000).toggleThreads
  ranEnable := true
  rand := rand
  error := false
  currProc := some (.thread, 0x1000)
  hasCor := fun _ => true
  throwStatus := fun h => if h = 0x1000 then .kill else .none
  unwinding := fun _ => false

theorem randomized_represents (rand : ℕ → ℕ) :
    (randomized rand).runnable.Represents ⟨⟨[], []⟩, ⟨[0x3000], []⟩⟩ := by
  have H : Runnable.start.Represents Lists.empty := Runnable.init_spec (by decide) (by decide)
  have H₁ := RunQueue.pushBack_spec (h := 0x3000) H.threads ⟨by decide, by decide, by decide⟩
    (by decide)
  exact ⟨H.methods, RunQueue.toggle_spec H₁⟩

/-- With draws of six the preempted thread runs, wakes another and gives way to the caller. -/
theorem preempts_iff_six :
    (randomized fun _ => 6).preemption 0x2000 [.wake .thread 0x4000] .suspend =
      some (.switched (.thread 0x2000), .switched (.thread 0x1000)) := by
  refine ((preempts_iff (randomized_represents _) (fun _ _ => rfl) rfl
    ⟨by decide, by decide, by decide⟩ (by decide)).1 0x2000 [.wake .thread 0x4000] .suspend
      ⟨by decide, by decide, by decide⟩ (by decide) ?_).mpr ⟨rfl, ?_, ?_⟩
  · simpa using ⟨by decide, by decide, by decide⟩
  · simp [Act.Spares]
  · decide

/-- With draws of one the caller keeps control, so the thread to be killed does not run,
and a thread that kills itself gives way to the queued one. -/
theorem randomized_one :
    ((randomized fun _ => 1).preemptWith 0x2000).map Prod.fst = some (.resumed .kill) ∧
    ((randomized fun _ => 1).preemptWith 0x1000).map Prod.fst =
      some (.switched (.thread 0x3000)) := by
  decide

end Example
end Sched
end Pscv.Kernel
