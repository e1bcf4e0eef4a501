import Pscv.Kernel.Observer
import Pscv.Kernel.Event

/-!
# `sc_simcontext::crunch`

The delta cycles of the simulator, with the notifications of the observer. What the
user's code does is not fixed: every run of it (a method, the threads up to the return of
control, the updates of the channels) takes the next `Effect` of the kernel's `code`, which
may change anything, call `sc_stop` or `sc_pause`, or raise an error.

`crunch` leaves its loops in the middle of a phase when there is an error or a stop, and
then the notifications that close the phase are not made.

## Main results

* `Simulator.deltaCycle_spec`, `Simulator.crunch_spec` — what one cycle and a whole run
  announce.
* `Simulator.crunch_bracketed_iff` — the announcements are nested and complete if and only if
  no code that runs raises an error or stops the simulation.
-/

namespace Pscv.Kernel

/-- What the user's code may change. -/
structure Machine where
  context : SimContext
  hasCor : Handle → Bool
  ranEnable : Bool
  rand : ℕ → ℕ
  stopImmediate : Bool

/-- What a run of user's code leaves behind. -/
structure Effect where
  after : Machine
  error : Bool
  stop : Bool
  pause : Bool

/-- The part of `sc_simcontext` that `crunch` and `simulate` use. An observer is attached
before the simulation; `emptyEvalPhase` is a local variable of `crunch`. The last two fields
record what was announced and in which states a timed notification began. -/
structure Simulator where
  machine : Machine
  error : Bool
  forcedStop : Bool
  paused : Bool
  observer : Bool
  ready : Bool
  emptyEvalPhase : Bool
  changeStamp : ℕ
  deltaCount : ℕ
  currTime : ℕ
  code : List Effect
  callbacks : List Notification
  timedSteps : List (ℕ × Machine)

namespace Machine

def toggle (d : Kind) (m : Machine) : Machine :=
  { m with context := { m.context with runnable := (m.context.runnable.step (d, .toggle)).2 } }

/-- `pop_runnable_method` and `pop_runnable_thread`; a draw is used up only for a
non-empty queue. -/
def popRunnable (d : Kind) (m : Machine) : Handle × Machine :=
  let x := m.context.runnable.step (d, if m.ranEnable then .popRandom (m.rand 0) else .pop)
  let rand := if m.ranEnable ∧ (m.context.runnable.half d).pop ≠ [] then fun i =>
    m.rand (i + 1)
    else m.rand
  (x.1, { m with
    context := { m.context with
      runnable := x.2
      currProc := if x.1 = null then none else some (d, x.1) }
    rand := rand })

/-- `is_empty`. -/
def isEmpty (m : Machine) : Bool :=
  (m.context.runnable.half .method).all = [] && (m.context.runnable.half .thread).all = []

/-- Pop threads until one has a coroutine. -/
def popCoroutine : ℕ → Machine → Handle × Machine
  | 0, m => (null, m)
  | n + 1, m =>
      let x := m.popRunnable .thread
      if x.1 = null ∨ x.2.hasCor x.1 then x else popCoroutine n x.2

/-- The notification phase. -/
def deltaPhase (m : Machine) : Machine := { m with context := m.context.deltaPhase }

/-- `reset_curr_proc`. -/
def resetCurrProc (m : Machine) : Machine :=
  { m with context := { m.context with currProc := none } }

end Machine

namespace Simulator

/-- Notify the observer, if there is one. -/
def emit (n : Notification) (k : Simulator) : Simulator :=
  { k with callbacks := if k.observer then k.callbacks ++ [n] else k.callbacks }

/-- Run the user's code that comes next. -/
def runCode (k : Simulator) : Option (Effect × Simulator) :=
  match k.code with
  | [] => none
  | e :: es => some (e, { k with
      machine := e.after
      error := k.error || e.error
      forcedStop := k.forcedStop || e.stop
      paused := k.paused || e.pause
      code := es })

/-- Execute the method processes; false when one failed. -/
def methodLoop : ℕ → Simulator → Option (Bool × Simulator)
  | 0, _ => none
  | n + 1, k => do
      let x := k.machine.popRunnable .method
      let k := { k with machine := x.2 }
      if x.1 = null then pure (true, k)
      else
        let (e, k) ← { k with emptyEvalPhase := false }.runCode
        -- the monitors are executed in both cases
        let k := k.emit .methodSuspend
        if e.error then pure (false, k) else methodLoop n k

/-- Execute the thread processes, until control returns to the simulator. -/
def runThreads (k : Simulator) : Option Simulator :=
  let m := k.machine.toggle .thread
  let x := m.popCoroutine ((m.context.runnable.half .thread).pop.length + 1)
  let k := { k with machine := x.2 }
  if x.1 = null then some k
  else ({ k with emptyEvalPhase := false }.runCode).map Prod.snd

/-- The loop of the evaluation phase; false when it leaves `crunch`. -/
def evalLoop : ℕ → Simulator → Option (Bool × Simulator)
  | 0, _ => none
  | n + 1, k => do
      let (ok, k) ← methodLoop n { k with machine := k.machine.toggle .method }
      if !ok then pure (false, k)
      else
        let k ← k.runThreads
        if k.error then pure (false, k)
        else if k.forcedStop && k.machine.stopImmediate then pure (false, k)
        else if k.machine.isEmpty then pure (true, k)
        else evalLoop n k

/-- The stamps of a delta cycle in which some process ran. -/
def countDelta (k : Simulator) : Simulator :=
  if k.emptyEvalPhase then k
  else { k with changeStamp := k.changeStamp + 1, deltaCount := k.deltaCount + 1 }

/-- The update phase; an error raised in it leaves `crunch` as an exception. -/
def updatePhase (k : Simulator) : Option (Bool × Simulator) := do
  let (e, k) ← (k.emit .updateBegin).countDelta.runCode
  if e.error then pure (false, k) else pure (true, k.emit .updateEnd)

/-- The notification phase, unless the simulation was stopped. -/
def notifyPhase (k : Simulator) : Bool × Simulator :=
  let k := k.emit .deltanotifyBegin
  if k.forcedStop then (false, k)
  else (true, { k with machine := k.machine.deltaPhase }.emit .deltanotifyEnd)

/-- One delta cycle; true when another one follows. -/
def deltaCycle (once : Bool) (n : ℕ) (k : Simulator) : Option (Bool × Simulator) := do
  let (ok, k) ← evalLoop n ({ k with emptyEvalPhase := true }.emit .evaluateBegin)
  if !ok then pure (false, k)
  else
    let (ok, k) ← updatePhase (k.emit .evaluateEnd)
    if !ok then pure (false, k)
    else
      let (ok, k) := k.notifyPhase
      pure (ok && !k.machine.isEmpty && !k.paused && !once, k)

/-- `crunch`. It throws the error, if there is one. -/
def crunch (once : Bool) : ℕ → Simulator → Option Simulator
  | 0, _ => none
  | n + 1, k => do
      let (again, k) ← deltaCycle once n k
      if again then crunch once n k
      else pure { k with machine := k.machine.resetCurrProc }

/-- The timed notification phases that are announced. -/
def isTimed : Notification → Bool
  | .timednotifyBegin | .timednotifyEnd => true
  | _ => false

@[simp] theorem emit_error (n : Notification) (k : Simulator) : (k.emit n).error = k.error :=
  rfl

@[simp] theorem emit_forcedStop (n : Notification) (k : Simulator) :
    (k.emit n).forcedStop = k.forcedStop := rfl

variable {k k' k'' : Simulator} {es es' : List Effect} {ns ns' : List Notification} {n : ℕ}
  {once ok again : Bool}

/-- From `k` to `k'` the code `es` ran, and `ns` was announced. -/
structure Runs (es : List Effect) (ns : List Notification) (k k' : Simulator) : Prop where
  code : k.code = es ++ k'.code
  error : k'.error = (k.error || es.any (·.error))
  forcedStop : k'.forcedStop = (k.forcedStop || es.any (·.stop))
  observer : k'.observer = k.observer
  callbacks : k'.callbacks = k.callbacks ++ if k.observer then ns else []
  untimed : ns.filter isTimed = []
  timedSteps : k'.timedSteps = k.timedSteps

namespace Runs

theorem refl (k : Simulator) : Runs [] [] k k := by
  refine ⟨rfl, ?_, ?_, rfl, ?_, rfl, rfl⟩ <;> simp

theorem trans (h : Runs es ns k k') (h' : Runs es' ns' k' k'') :
    Runs (es ++ es') (ns ++ ns') k k'' where
  code := by rw [h.code, h'.code, List.append_assoc]
  error := by rw [h'.error, h.error, List.any_append, Bool.or_assoc]
  forcedStop := by rw [h'.forcedStop, h.forcedStop, List.any_append, Bool.or_assoc]
  observer := h'.observer.trans h.observer
  callbacks := by
    rw [h'.callbacks, h.callbacks, h.observer]
    split_ifs <;> simp
  untimed := by rw [List.filter_append, h.untimed, h'.untimed, List.append_nil]
  timedSteps := h'.timedSteps.trans h.timedSteps

/-- A step of the kernel itself. -/
theorem machine (h : Runs es ns k k') (m : Machine) : Runs es ns k { k' with machine := m } :=
  ⟨h.code, h.error, h.forcedStop, h.observer, h.callbacks, h.untimed, h.timedSteps⟩

theorem emptyEvalPhase (h : Runs es ns k k') (b : Bool) :
    Runs es ns k { k' with emptyEvalPhase := b } :=
  ⟨h.code, h.error, h.forcedStop, h.observer, h.callbacks, h.untimed, h.timedSteps⟩

theorem emit (h : Runs es ns k k') (m : Notification) (hm : isTimed m = false) :
    Runs es (ns ++ [m]) k (k'.emit m) where
  code := h.code
  error := h.error
  forcedStop := h.forcedStop
  observer := h.observer
  callbacks := by
    simp only [Simulator.emit, h.observer, h.callbacks]
    split_ifs <;> simp
  untimed := by simp [h.untimed, hm]
  timedSteps := h.timedSteps

theorem countDelta (h : Runs es ns k k') : Runs es ns k k'.countDelta := by
  unfold Simulator.countDelta
  split_ifs
  · exact h
  · exact ⟨h.code, h.error, h.forcedStop, h.observer, h.callbacks, h.untimed, h.timedSteps⟩

theorem runCode {e : Effect} (h : Runs es ns k k') (hk : k'.runCode = some (e, k'')) :
    Runs (es ++ [e]) ns k k'' := by
  cases hc : k'.code with
  | nil => simp [Simulator.runCode, hc] at hk
  | cons e' es' =>
      simp only [Simulator.runCode, hc, Option.some.injEq, Prod.mk.injEq] at hk
      obtain ⟨rfl, rfl⟩ := hk
      refine ⟨?_, ?_, ?_, h.observer, h.callbacks, h.untimed, h.timedSteps⟩
      · rw [h.code, hc]
        simp
      · simp [h.error, Bool.or_assoc]
      · simp [h.forcedStop, Bool.or_assoc]

end Runs

/-- No error is pending, and the simulation is not stopped. -/
def Clean (k : Simulator) : Prop := k.error = false ∧ k.forcedStop = false

theorem Runs.clean_iff (h : Runs es ns k k') :
    k'.Clean ↔ k.Clean ∧ ∀ e ∈ es, e.error = false ∧ e.stop = false := by
  simp only [Clean, h.error, h.forcedStop, Bool.or_eq_false_iff, List.any_eq_false]
  constructor
  · rintro ⟨⟨he, hes⟩, hs, hss⟩
    exact ⟨⟨he, hs⟩, fun e h => ⟨by simpa using hes e h, by simpa using hss e h⟩⟩
  · rintro ⟨⟨he, hs⟩, hall⟩
    exact ⟨⟨he, fun e h => by simpa using (hall e h).1⟩, hs,
      fun e h => by simpa using (hall e h).2⟩

/-! ### The phases of a delta cycle -/

theorem methodLoop_spec (h : methodLoop n k = some (ok, k')) :
    ∃ es m, Runs es (List.replicate m .methodSuspend) k k' ∧
      (ok = false → k'.error = true) := by
  induction n generalizing k with
  | zero => simp [methodLoop] at h
  | succ n ih =>
      simp only [methodLoop] at h
      split_ifs at h with hnull
      · obtain ⟨rfl, rfl⟩ := Prod.mk.inj (Option.some.inj h)
        exact ⟨[], 0, (Runs.refl k).machine _, nofun⟩
      · obtain ⟨⟨e, k₁⟩, hrun, h⟩ := Option.bind_eq_some_iff.mp h
        have R : Runs [e] [.methodSuspend] k (k₁.emit .methodSuspend) :=
          ((((Runs.refl k).machine _).emptyEvalPhase false).runCode hrun).emit _ rfl
        simp only at h
        split_ifs at h with herr
        · obtain ⟨rfl, rfl⟩ := Prod.mk.inj (Option.some.inj h)
          exact ⟨[e], 1, R, fun _ => R.error.trans (by simp [herr])⟩
        · obtain ⟨es, m, R', hok⟩ := ih h
          exact ⟨_, m + 1, R.trans R', hok⟩

theorem runThreads_spec (h : k.runThreads = some k') : ∃ es, Runs es [] k k' := by
  simp only [runThreads] at h
  split_ifs at h with hnull
  · obtain rfl := Option.some.inj h
    exact ⟨[], (Runs.refl k).machine _⟩
  · obtain ⟨⟨e, k₁⟩, hrun, rfl⟩ := Option.map_eq_some_iff.mp h
    exact ⟨[e], (((Runs.refl k).machine _).emptyEvalPhase false).runCode hrun⟩

theorem evalLoop_spec (h : evalLoop n k = some (ok, k')) :
    ∃ es m, Runs es (List.replicate m .methodSuspend) k k' ∧
      (ok = true → k'.error = false) ∧ (ok = false → ¬ k'.Clean) := by
  induction n generalizing k with
  | zero => simp [evalLoop] at h
  | succ n ih =>
      simp only [evalLoop] at h
      obtain ⟨⟨ok₁, k₁⟩, hmethods, h⟩ := Option.bind_eq_some_iff.mp h
      obtain ⟨es₁, m₁, R₁, hok₁⟩ := methodLoop_spec hmethods
      have R₁' : Runs es₁ (List.replicate m₁ .methodSuspend) k k₁ := by
        simpa using ((Runs.refl k).machine _).trans R₁
      cases ok₁ with
      | false =>
          obtain ⟨rfl, rfl⟩ := Prod.mk.inj (Option.some.inj h)
          refine ⟨es₁, m₁, R₁', nofun, ?_⟩
          intro _ hclean
          exact Bool.noConfusion ((hok₁ rfl).symm.trans hclean.1)
      | true =>
          obtain ⟨k₂, hthreads, h⟩ := Option.bind_eq_some_iff.mp h
          obtain ⟨es₂, R₂⟩ := runThreads_spec hthreads
          have R : Runs (es₁ ++ es₂) (List.replicate m₁ .methodSuspend) k k₂ := by
            simpa using R₁'.trans R₂
          split_ifs at h with herr hstop hempty
          · obtain ⟨rfl, rfl⟩ := Prod.mk.inj (Option.some.inj h)
            exact ⟨_, m₁, R, nofun, fun _ hclean => by simp [hclean.1] at herr⟩
          · obtain ⟨rfl, rfl⟩ := Prod.mk.inj (Option.some.inj h)
            exact ⟨_, m₁, R, nofun, fun _ hclean => by simp [hclean.2] at hstop⟩
          · obtain ⟨rfl, rfl⟩ := Prod.mk.inj (Option.some.inj h)
            exact ⟨_, m₁, R, fun _ => by simpa using herr, nofun⟩
          · obtain ⟨es₃, m₃, R₃, hok⟩ := ih h
            refine ⟨(es₁ ++ es₂) ++ es₃, m₁ + m₃, ?_, hok⟩
            rw [List.replicate_add]
            exact R.trans R₃

theorem updatePhase_spec (h : k.updatePhase = some (ok, k')) (hk : k.error = false) :
    ∃ es, (ok = true ∧ Runs es [.updateBegin, .updateEnd] k k' ∧ k'.error = false) ∨
      (ok = false ∧ Runs es [.updateBegin] k k' ∧ ¬ k'.Clean) := by
  simp only [updatePhase] at h
  obtain ⟨⟨e, k₁⟩, hrun, h⟩ := Option.bind_eq_some_iff.mp h
  have R : Runs [e] [.updateBegin] k k₁ := ((Runs.refl k).emit _ rfl).countDelta.runCode hrun
  have herror : k₁.error = e.error := by simp [R.error, hk]
  simp only at h
  split_ifs at h with he
  · obtain ⟨rfl, rfl⟩ := Prod.mk.inj (Option.some.inj h)
    exact ⟨[e], .inr ⟨rfl, R, fun hclean => by simp [hclean.1, he] at herror⟩⟩
  · obtain ⟨rfl, rfl⟩ := Prod.mk.inj (Option.some.inj h)
    exact ⟨[e], .inl ⟨rfl, R.emit _ rfl, by simpa [he, emit] using herror⟩⟩

theorem notifyPhase_spec (h : k.notifyPhase = (ok, k')) :
    (ok = true ∧ Runs [] [.deltanotifyBegin, .deltanotifyEnd] k k' ∧ k'.forcedStop = false) ∨
      (ok = false ∧ Runs [] [.deltanotifyBegin] k k' ∧ ¬ k'.Clean) := by
  have R : Runs [] [.deltanotifyBegin] k (k.emit .deltanotifyBegin) := (Runs.refl k).emit _ rfl
  simp only [notifyPhase] at h
  split_ifs at h with hstop
  · obtain ⟨rfl, rfl⟩ := Prod.mk.inj h
    refine .inr ⟨rfl, R, fun hclean => ?_⟩
    exact Bool.noConfusion (hclean.2.symm.trans hstop)
  · obtain ⟨rfl, rfl⟩ := Prod.mk.inj h
    exact .inl ⟨rfl, (R.machine _).emit _ rfl, by simpa [emit] using hstop⟩

end Simulator

/-- The sample points that begin and end the phases of a delta cycle. -/
def SamplePoint.isBracket : SamplePoint → Bool
  | .deltaCycleBegin | .deltaCycleEnd => true
  | .evaluationPhaseBegin | .evaluationPhaseEnd => true
  | .updatePhaseBegin | .updatePhaseEnd => true
  | .deltaNotifyPhaseBegin | .deltaNotifyPhaseEnd => true
  | _ => false

/-- The brackets that are announced by `ns`, in order. -/
def brackets (ns : List Notification) : List SamplePoint :=
  (ns.flatMap Notification.points).filter SamplePoint.isBracket

/-- The announcements of one delta cycle. -/
def cycle : List SamplePoint :=
  [.deltaCycleBegin, .evaluationPhaseBegin, .evaluationPhaseEnd, .updatePhaseBegin,
    .updatePhaseEnd, .deltaNotifyPhaseBegin, .deltaNotifyPhaseEnd, .deltaCycleEnd]

/-- Whole delta cycles, with all their phases begun and ended in order. -/
def Bracketed (ns : List Notification) : Prop :=
  ∃ m, brackets ns = (List.replicate m cycle).flatten

@[simp] theorem brackets_append (ns ns' : List Notification) :
    brackets (ns ++ ns') = brackets ns ++ brackets ns' := by simp [brackets]

@[simp] theorem brackets_nil : brackets [] = [] := rfl

@[simp] theorem brackets_cons (n : Notification) (ns : List Notification) :
    brackets (n :: ns) = n.points.filter SamplePoint.isBracket ++ brackets ns := by
  simp [brackets]

@[simp] theorem brackets_methodSuspend (m : ℕ) :
    brackets (List.replicate m .methodSuspend) = [] := by
  induction m with
  | zero => rfl
  | succ m ih =>
      rw [List.replicate_succ, brackets_cons, ih]
      rfl

/-- An unfinished cycle is not made of whole ones. -/
theorem not_bracketed_take {ns : List Notification} {m j : ℕ} (hj : 0 < j) (hj8 : j < 8)
    (h : brackets ns = (List.replicate m cycle).flatten ++ cycle.take j) : ¬ Bracketed ns := by
  rintro ⟨m', hm'⟩
  have hlen := congrArg List.length (hm'.symm.trans h)
  have hc : cycle.length = 8 := rfl
  simp only [List.length_append, List.length_flatten, List.map_replicate, List.sum_replicate,
    List.length_take, hc, nsmul_eq_mul, Nat.cast_id] at hlen
  omega

namespace Simulator
variable {k k' : Simulator} {es : List Effect} {ns : List Notification} {n : ℕ}
    {once again : Bool}

/-- One delta cycle is announced as a whole, or is left in the middle. -/
theorem deltaCycle_spec (h : deltaCycle once n k = some (again, k')) :
    ∃ es ns, Runs es ns k k' ∧ (brackets ns = cycle ∧ k'.Clean ∨
      again = false ∧ (∃ j, 0 < j ∧ j < 8 ∧ brackets ns = cycle.take j) ∧ ¬ k'.Clean) := by
  simp only [deltaCycle] at h
  obtain ⟨⟨ok₁, k₁⟩, heval, h⟩ := Option.bind_eq_some_iff.mp h
  obtain ⟨es₁, m, R₁, hok₁, hleft₁⟩ := evalLoop_spec heval
  have R₁' := (((Runs.refl k).emptyEvalPhase true).emit .evaluateBegin rfl).trans R₁
  cases ok₁ with
  | false =>
      obtain ⟨rfl, rfl⟩ := Prod.mk.inj (Option.some.inj h)
      refine ⟨_, _, R₁', .inr ⟨rfl, ⟨2, by omega, by omega, ?_⟩, hleft₁ rfl⟩⟩
      simp only [brackets_append, brackets_methodSuspend]
      rfl
  | true =>
      obtain ⟨⟨ok₂, k₂⟩, hupdate, h⟩ := Option.bind_eq_some_iff.mp h
      obtain ⟨es₂, ⟨rfl, R₂, herr⟩ | ⟨rfl, R₂, hleft⟩⟩ := updatePhase_spec hupdate (hok₁ rfl)
      · have R₂' := (R₁'.emit .evaluateEnd rfl).trans R₂
        obtain ⟨ok₃, k₃, hnotify⟩ : ∃ ok₃ k₃, k₂.notifyPhase = (ok₃, k₃) := ⟨_, _, rfl⟩
        simp only [hnotify] at h
        obtain ⟨hagain, rfl⟩ := Prod.mk.inj (Option.some.inj h)
        obtain ⟨_, R₃, hstop⟩ | ⟨rfl, R₃, hleft⟩ := notifyPhase_spec hnotify
        · refine ⟨_, _, R₂'.trans R₃, .inl ⟨?_, R₃.error.trans (by simp [herr]), hstop⟩⟩
          simp only [brackets_append, brackets_methodSuspend]
          rfl
        · refine ⟨_, _, R₂'.trans R₃, .inr ⟨hagain.symm, ⟨6, by omega, by omega, ?_⟩, hleft⟩⟩
          simp only [brackets_append, brackets_methodSuspend]
          rfl
      · have R₂' := (R₁'.emit .evaluateEnd rfl).trans R₂
        obtain ⟨rfl, rfl⟩ := Prod.mk.inj (Option.some.inj h)
        refine ⟨_, _, R₂', .inr ⟨rfl, ⟨4, by omega, by omega, ?_⟩, hleft⟩⟩
        simp only [brackets_append, brackets_methodSuspend]
        rfl

/-- A run is announced as whole cycles, and then, when it is left because of an error or a
stop, the beginning of one more. -/
theorem crunch_spec (h : crunch once n k = some k') :
    ∃ es ns m, Runs es ns k k' ∧ (brackets ns = (List.replicate m cycle).flatten ∧ k'.Clean ∨
      (∃ j, 0 < j ∧ j < 8 ∧
        brackets ns = (List.replicate m cycle).flatten ++ cycle.take j) ∧ ¬ k'.Clean) := by
  induction n generalizing k with
  | zero => simp [crunch] at h
  | succ n ih =>
      simp only [crunch] at h
      obtain ⟨⟨again, k₁⟩, hcycle, h⟩ := Option.bind_eq_some_iff.mp h
      obtain ⟨es₁, ns₁, R₁, ⟨hns₁, hclean⟩ | ⟨rfl, ⟨j, hj, hj8, hns₁⟩, hleft⟩⟩ :=
        deltaCycle_spec hcycle
      · cases again with
        | false =>
            obtain rfl := Option.some.inj h
            exact ⟨es₁, ns₁, 1, R₁.machine _, .inl ⟨by simpa using hns₁, hclean⟩⟩
        | true =>
            obtain ⟨es, ns, m, R, hrest⟩ := ih h
            have hcycles : brackets (ns₁ ++ ns) = cycle ++ brackets ns := by
              rw [brackets_append, hns₁]
            refine ⟨_, _, m + 1, R₁.trans R, ?_⟩
            rw [hcycles, List.replicate_succ, List.flatten_cons]
            obtain ⟨hns, hclean⟩ | ⟨⟨j, hj, hj8, hns⟩, hleft⟩ := hrest
            · exact .inl ⟨by rw [hns], hclean⟩
            · exact .inr ⟨⟨j, hj, hj8, by rw [hns, List.append_assoc]⟩, hleft⟩
      · obtain rfl := Option.some.inj h
        exact ⟨es₁, ns₁, 0, R₁.machine _, .inr ⟨⟨j, hj, hj8, by simpa using hns₁⟩, hleft⟩⟩

/-- **The delta cycles.** When `crunch` returns or throws, having run the code `k.code`, its
announcements are whole delta cycles with all their phases begun and ended in order, if and
only if there is no observer, or no error was pending and the simulation not stopped at the
start, and no code raised an error or stopped the simulation. -/
theorem crunch_bracketed_iff (h : crunch once n k = some k') (hcode : k'.code = []) :
    ∃ ns, k'.callbacks = k.callbacks ++ ns ∧ (Bracketed ns ↔
      k.observer = false ∨ k.Clean ∧ ∀ e ∈ k.code, e.error = false ∧ e.stop = false) := by
  obtain ⟨es, ns, m, R, hns⟩ := crunch_spec h
  have hes : k.code = es := by simpa [hcode] using R.code
  refine ⟨_, R.callbacks, ?_⟩
  cases hobs : k.observer with
  | false => exact iff_of_true ⟨0, rfl⟩ (.inl rfl)
  | true =>
      simp only [if_true, Bool.true_eq_false, false_or, hes, ← R.clean_iff]
      obtain ⟨hns, hclean⟩ | ⟨⟨j, hj, hj8, hns⟩, hleft⟩ := hns
      · exact iff_of_true ⟨m, hns⟩ hclean
      · exact iff_of_false (not_bracketed_take hj hj8 hns) hleft

/-- A machine with no event and one method, in the deterministic scheduler. -/
def oneMethodMachine (queue : List Handle) : Machine where
  context :=
    { notifications := ⟨[], 0, [], fun _ => .none, fun _ => none, []⟩
      statics := fun _ _ => []
      dynamics := fun _ _ => []
      procs := fun _ => ⟨.static, none, [], 0, 0, false, false, false, false⟩
      runnable := ⟨⟨[], queue⟩, ⟨[], []⟩⟩
      currProc := none
      observed := fun _ => false
      triggered := []
      notified := [] }
  hasCor := fun _ => false
  ranEnable := false
  rand := fun _ => 0
  stopImmediate := false

/-- The method runs once, and calls `sc_stop` if `stop` is true. -/
def oneMethod (stop : Bool) : Simulator where
  machine := oneMethodMachine [1]
  error := false
  forcedStop := false
  paused := false
  observer := true
  ready := true
  emptyEvalPhase := true
  changeStamp := 0
  deltaCount := 0
  currTime := 0
  code :=
    [⟨oneMethodMachine [], false, stop, false⟩, ⟨oneMethodMachine [], false, false, false⟩]
  callbacks := []
  timedSteps := []

/-- Without the call, the run is one whole delta cycle. -/
theorem crunch_bracketed_iff_method : ∃ k' ns,
    crunch false 4 (oneMethod false) = some k' ∧ k'.callbacks = ns ∧ Bracketed ns := by
  obtain ⟨k', hk'⟩ : ∃ k', crunch false 4 (oneMethod false) = some k' := ⟨_, rfl⟩
  have hcode : k'.code = [] := by
    obtain rfl := Option.some.inj (hk'.symm.trans rfl)
    rfl
  obtain ⟨ns, hns, hiff⟩ := crunch_bracketed_iff hk' hcode
  exact ⟨k', ns, hk', hns, hiff.mpr (.inr ⟨⟨rfl, rfl⟩, by simp [oneMethod]⟩)⟩

/-- With the call, in the default stop mode, the notification phase and the delta cycle
are announced to begin, and not to end. -/
theorem stop_leaves_brackets : ∃ k', crunch false 4 (oneMethod true) = some k' ∧
    k'.code = [] ∧ brackets k'.callbacks = [.deltaCycleBegin, .evaluationPhaseBegin,
      .evaluationPhaseEnd, .updatePhaseBegin, .updatePhaseEnd, .deltaNotifyPhaseBegin] ∧
    ¬ Bracketed k'.callbacks := by
  refine ⟨_, rfl, rfl, rfl, ?_⟩
  exact not_bracketed_take (m := 0) (j := 6) (by omega) (by omega) rfl

end Simulator

end Pscv.Kernel
