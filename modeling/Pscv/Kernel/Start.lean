import Pscv.Kernel.Simulate

/-!
# `sc_start`

The calls of `sc_start` in `sc_main`, one after the other, with any code between them. A
run is cut into moves: the current time is written by some of them, and in each of the
others it stays the same.

`SC_REPORT_ERROR` throws, as it does by default, and the exception leaves `sc_start`. The
caller may catch it and call `sc_start` again.

## Main results

* `Simulator.mainMoves_leads` — what a run is made of.
* `Simulator.simTime_monotone` — the simulation time never goes back.
-/

namespace Pscv.Kernel

/-- `sc_starvation_policy`. -/
inductive StarvationPolicy
  | exitOnStarvation
  | runToTime
  deriving DecidableEq

/-- A call of `sc_start`. When `caught` holds, an exception that no process raised was
caught before it; it leaves no error behind. -/
structure StartCall where
  duration : ℕ
  policy : StarvationPolicy
  caught : Bool

namespace Simulator

/-- `sim_status` is `SC_SIM_OK`. -/
def statusOk (k : Simulator) : Bool := !k.error && !k.forcedStop

/-- `sc_start`. -/
def scStart (top : List EventTimed → ℕ) (n duration : ℕ) (p : StarvationPolicy)
    (k : Simulator) :
    Option Simulator :=
  let exitTime := (k.currTime + duration) % 2 ^ 64
  if !k.statusOk then some k
  else do
    let k' ← simulate top n duration k
    -- the overflow that `simulate` reports leaves this function too
    if maxTime - k.currTime < duration then pure k'
    else if p = .runToTime && !k'.paused && k'.statusOk then
      pure { k' with currTime := exitTime }
    else pure k'

/-- Forget an error that was caught. -/
def catchError (caught : Bool) (k : Simulator) : Simulator :=
  { k with error := k.error && !caught }

/-- `sc_main`: its code runs before each call of `sc_start`. -/
def scMain (top : List EventTimed → ℕ) (n : ℕ) : List StartCall → Simulator → Option Simulator
  | [], k => some k
  | c :: cs, k => do
      let (_, k) ← k.runCode
      let k ← (k.catchError c.caught).scStart top n c.duration c.policy
      scMain top n cs k

/-! ### The moves of a run -/

inductive MoveKind
  | main
  | init
  | deltaCycle
  | timedStep
  | timednotifyEnd
  | leave
  | exitTime
  deriving DecidableEq

/-- A move of the simulator, with the states before and after it. -/
structure Move where
  kind : MoveKind
  before : Simulator
  after : Simulator

/-- The delta cycles of `crunch`. -/
def crunchMoves (once : Bool) : ℕ → Simulator → List Move
  | 0, _ => []
  | n + 1, k =>
      match deltaCycle once n k with
      | none => []
      | some (again, k') => ⟨.deltaCycle, k, k'⟩ :: if again then crunchMoves once n k' else []

/-- The timed steps of `advance`. -/
def advanceMoves (top : List EventTimed → ℕ) (endTime : ℕ) : ℕ → ℕ → Simulator → List Move
  | 0, _, _ => []
  | n + 1, _, k =>
      let x := k.machine.context.nextTime top
      let k := { k with machine := { k.machine with context := x.2 } }
      match x.1 with
      | none => []
      | some t =>
          if endTime < t then []
          else ⟨.timedStep, k, k.timedStep top t⟩ ::
            if (k.timedStep top t).machine.isEmpty then
              advanceMoves top endTime n t (k.timedStep top t)
            else []

/-- The moves of `timeLoop`. -/
def timeLoopMoves (top : List EventTimed → ℕ) (endTime : ℕ) : ℕ → Simulator → List Move
  | 0, _ => []
  | n + 1, k =>
      crunchMoves false n k ++
        match crunch false n k with
        | none => []
        | some k =>
            if k.error || k.forcedStop || k.paused then []
            else
              advanceMoves top endTime n k.currTime k ++
                match advance top endTime n k.currTime k with
                | none => []
                | some (false, t, k) => [⟨.leave, k, k.leave t endTime⟩]
                | some (true, t, k) =>
                    ⟨.timednotifyEnd, k, k.emit .timednotifyEnd⟩ ::
                      if t < endTime then timeLoopMoves top endTime n (k.emit .timednotifyEnd)
                      else [⟨.leave, k.emit .timednotifyEnd,
                        (k.emit .timednotifyEnd).leave t endTime⟩]

/-- The moves of `simulate`. -/
def simulateMoves (top : List EventTimed → ℕ) (n duration : ℕ) (k : Simulator) : List Move :=
  match k.initializeSim with
  | none => []
  | some k' =>
      ⟨.init, k, k'⟩ ::
        if k'.error || k'.forcedStop then []
        else if maxTime - k'.currTime < duration then []
        else if duration = 0 then crunchMoves true n { k' with paused := false }
        else timeLoopMoves top (k'.currTime + duration) n { k' with paused := false }

/-- The moves of `sc_start`. -/
def startMoves (top : List EventTimed → ℕ) (n duration : ℕ) (p : StarvationPolicy)
    (k : Simulator) : List Move :=
  if !k.statusOk then []
  else
    simulateMoves top n duration k ++
      match simulate top n duration k with
      | none => []
      | some k' =>
          if maxTime - k.currTime < duration then []
          else if p = .runToTime && !k'.paused && k'.statusOk then
            [⟨.exitTime, k', { k' with currTime := (k.currTime + duration) % 2 ^ 64 }⟩]
          else []

/-- The moves of `sc_main`. A call that does not end has its moves here, and no call
follows it. -/
def mainMoves (top : List EventTimed → ℕ) (n : ℕ) : List StartCall → Simulator → List Move
  | [], _ => []
  | c :: cs, k =>
      match k.runCode with
      | none => []
      | some (_, k') =>
          ⟨.main, k, k'.catchError c.caught⟩ ::
            (startMoves top n c.duration c.policy (k'.catchError c.caught) ++
              match (k'.catchError c.caught).scStart top n c.duration c.policy with
              | none => []
              | some k'' => mainMoves top n cs k'')

variable {k k' k'' : Simulator} {ms ms' : List Move} {m : Move} {top : List EventTimed → ℕ}
  {n t endTime duration : ℕ} {p : StarvationPolicy} {once : Bool} {calls : List StartCall}

/-- The two states differ only in what the kernel may change between two moves. -/
structure Agrees (k k' : Simulator) : Prop where
  code : k'.code = k.code
  error : k'.error = k.error
  forcedStop : k'.forcedStop = k.forcedStop
  observer : k'.observer = k.observer
  deltaCount : k'.deltaCount = k.deltaCount
  currTime : k'.currTime = k.currTime
  callbacks : k'.callbacks = k.callbacks

namespace Agrees

theorem refl (k : Simulator) : Agrees k k := ⟨rfl, rfl, rfl, rfl, rfl, rfl, rfl⟩

theorem trans (h : Agrees k k') (h' : Agrees k' k'') : Agrees k k'' where
  code := h'.code.trans h.code
  error := h'.error.trans h.error
  forcedStop := h'.forcedStop.trans h.forcedStop
  observer := h'.observer.trans h.observer
  deltaCount := h'.deltaCount.trans h.deltaCount
  currTime := h'.currTime.trans h.currTime
  callbacks := h'.callbacks.trans h.callbacks

theorem resetCurrProc (k : Simulator) :
    Agrees k { k with machine := k.machine.resetCurrProc } :=
  ⟨rfl, rfl, rfl, rfl, rfl, rfl, rfl⟩

theorem nextTime (top : List EventTimed → ℕ) (k : Simulator) :
    Agrees k
      { k with machine := { k.machine with context := (k.machine.context.nextTime top).2 } } :=
  ⟨rfl, rfl, rfl, rfl, rfl, rfl, rfl⟩

theorem resume (k : Simulator) : Agrees k { k with paused := false } :=
  ⟨rfl, rfl, rfl, rfl, rfl, rfl, rfl⟩

end Agrees

/-- What each kind of move does. -/
inductive Move.Lawful (top : List EventTimed → ℕ) : Move → Prop
  | main {k k' : Simulator} {e : Effect} (caught : Bool) (h : k.runCode = some (e, k')) :
      Lawful top ⟨.main, k, k'.catchError caught⟩
  | init {k k' : Simulator} (h : k.initializeSim = some k') :
      Lawful top ⟨.init, k, k'⟩
  | deltaCycle {k k' : Simulator} {once again : Bool} {n : ℕ}
      (h : Simulator.deltaCycle once n k = some (again, k')) : Lawful top ⟨.deltaCycle, k, k'⟩
  | timedStep (k : Simulator) (t : ℕ) : Lawful top ⟨.timedStep, k, k.timedStep top t⟩
  | timednotifyEnd (k : Simulator) : Lawful top ⟨.timednotifyEnd, k, k.emit .timednotifyEnd⟩
  | leave (k : Simulator) (t endTime : ℕ) : Lawful top ⟨.leave, k, k.leave t endTime⟩
  | exitTime (k : Simulator) {t : ℕ} (h : k.currTime ≤ t) :
      Lawful top ⟨.exitTime, k, { k with currTime := t }⟩

/-- The moves `ms` lead from `k` to `k'`. -/
inductive Path (top : List EventTimed → ℕ) : Simulator → List Move → Simulator → Prop
  | nil {k k' : Simulator} (h : Agrees k k') : Path top k [] k'
  | cons {k k' : Simulator} {m : Move} {ms : List Move} (h : Agrees k m.before)
      (hm : m.Lawful top) (hms : Path top m.after ms k') : Path top k (m :: ms) k'

namespace Path

theorem agrees_left (h : Agrees k k') (H : Path top k' ms k'') : Path top k ms k'' := by
  cases H with
  | nil h' => exact .nil (h.trans h')
  | cons h' hm hms => exact .cons (h.trans h') hm hms

theorem append (H : Path top k ms k') (H' : Path top k' ms' k'') :
    Path top k (ms ++ ms') k'' := by
  induction H with
  | nil h => exact H'.agrees_left h
  | cons h hm _ ih => exact .cons h hm (ih H')

theorem single (hm : m.Lawful top) : Path top m.before [m] m.after :=
  .cons (Agrees.refl _) hm (.nil (Agrees.refl _))

end Path

/-- The moves lead from `k` to the result of a function, or as far as it gets. -/
def Leads (top : List EventTimed → ℕ) (k : Simulator) (ms : List Move) (r : Option Simulator) :
    Prop :=
  ∃ k', Path top k ms k' ∧ ∀ k'', r = some k'' → k'' = k'

theorem leads_some (H : Path top k ms k') : Leads top k ms (some k') :=
  ⟨k', H, fun _ h => (Option.some.inj h).symm⟩

theorem leads_none (H : Path top k ms k') : Leads top k ms none :=
  ⟨k', H, fun k₁ h => absurd h (Option.some_ne_none k₁).symm⟩

theorem Leads.path (H : Leads top k ms (some k')) : Path top k ms k' := by
  obtain ⟨k₁, H, hk₁⟩ := H
  rwa [hk₁ k' rfl]

theorem Path.append_leads {r : Option Simulator} (H : Path top k ms k')
    (H' : Leads top k' ms' r) : Leads top k (ms ++ ms') r := by
  obtain ⟨k₁, H', hk₁⟩ := H'
  exact ⟨k₁, H.append H', hk₁⟩

theorem Leads.cons {r : Option Simulator} (hm : m.Lawful top) (H : Leads top m.after ms r) :
    Leads top m.before (m :: ms) r := (Path.single hm).append_leads H

theorem Leads.agrees_left {r : Option Simulator} (h : Agrees k k') (H : Leads top k' ms r) :
    Leads top k ms r := by
  obtain ⟨k₁, H, hk₁⟩ := H
  exact ⟨k₁, H.agrees_left h, hk₁⟩

theorem crunchMoves_leads (top : List EventTimed → ℕ) (once : Bool) (n : ℕ) (k : Simulator) :
    Leads top k (crunchMoves once n k) (crunch once n k) := by
  induction n generalizing k with
  | zero => exact leads_none (.nil (Agrees.refl k))
  | succ n ih =>
      simp only [crunchMoves, crunch]
      cases hcycle : deltaCycle once n k with
      | none => exact leads_none (.nil (Agrees.refl k))
      | some x =>
          obtain ⟨again, k'⟩ := x
          refine Leads.cons (.deltaCycle hcycle) ?_
          cases again with
          | false => exact leads_some (.nil (Agrees.resetCurrProc k'))
          | true => exact ih k'

/-- Neither the time nor the counter of delta cycles was written. -/
structure Keeps (k k' : Simulator) : Prop where
  currTime : k'.currTime = k.currTime
  deltaCount : k'.deltaCount = k.deltaCount

theorem Keeps.refl (k : Simulator) : Keeps k k := ⟨rfl, rfl⟩

theorem Keeps.trans (h : Keeps k k') (h' : Keeps k' k'') : Keeps k k'' :=
  ⟨h'.currTime.trans h.currTime, h'.deltaCount.trans h.deltaCount⟩

theorem runCode_keeps {e : Effect} (h : k.runCode = some (e, k')) : Keeps k k' := by
  cases hc : k.code with
  | nil => simp [runCode, hc] at h
  | cons e' es =>
      simp only [runCode, hc, Option.some.injEq, Prod.mk.injEq] at h
      obtain ⟨-, rfl⟩ := h
      exact ⟨rfl, rfl⟩

theorem methodLoop_keeps {ok : Bool} (h : methodLoop n k = some (ok, k')) : Keeps k k' := by
  induction n generalizing k with
  | zero => simp [methodLoop] at h
  | succ n ih =>
      simp only [methodLoop] at h
      split_ifs at h with hnull
      · obtain ⟨-, rfl⟩ := Prod.mk.inj (Option.some.inj h)
        exact ⟨rfl, rfl⟩
      · obtain ⟨⟨e, k₁⟩, hrun, h⟩ := Option.bind_eq_some_iff.mp h
        have K := runCode_keeps hrun
        have K₁ : Keeps k (k₁.emit .methodSuspend) := ⟨K.currTime, K.deltaCount⟩
        simp only at h
        split_ifs at h with herr
        · obtain ⟨-, rfl⟩ := Prod.mk.inj (Option.some.inj h)
          exact K₁
        · exact K₁.trans (ih h)

theorem runThreads_keeps (h : k.runThreads = some k') : Keeps k k' := by
  simp only [runThreads] at h
  split_ifs at h with hnull
  · obtain rfl := Option.some.inj h
    exact ⟨rfl, rfl⟩
  · obtain ⟨⟨e, k₁⟩, hrun, rfl⟩ := Option.map_eq_some_iff.mp h
    have K := runCode_keeps hrun
    exact ⟨K.currTime, K.deltaCount⟩

theorem evalLoop_keeps {ok : Bool} (h : evalLoop n k = some (ok, k')) : Keeps k k' := by
  induction n generalizing k with
  | zero => simp [evalLoop] at h
  | succ n ih =>
      simp only [evalLoop] at h
      obtain ⟨⟨ok₁, k₁⟩, hmethods, h⟩ := Option.bind_eq_some_iff.mp h
      have K := methodLoop_keeps hmethods
      have K₁ : Keeps k k₁ := ⟨K.currTime, K.deltaCount⟩
      cases ok₁ with
      | false =>
          obtain ⟨-, rfl⟩ := Prod.mk.inj (Option.some.inj h)
          exact K₁
      | true =>
          obtain ⟨k₂, hthreads, h⟩ := Option.bind_eq_some_iff.mp h
          have K₂ := K₁.trans (runThreads_keeps hthreads)
          split_ifs at h
          · obtain ⟨-, rfl⟩ := Prod.mk.inj (Option.some.inj h)
            exact K₂
          · obtain ⟨-, rfl⟩ := Prod.mk.inj (Option.some.inj h)
            exact K₂
          · obtain ⟨-, rfl⟩ := Prod.mk.inj (Option.some.inj h)
            exact K₂
          · exact K₂.trans (ih h)

/-- The stamps of the update phase. -/
theorem countDelta_eq (k : Simulator) : k.countDelta.currTime = k.currTime ∧
    k.countDelta.deltaCount = k.deltaCount + if k.emptyEvalPhase then 0 else 1 := by
  unfold countDelta
  split_ifs <;> simp

theorem updatePhase_keeps {ok : Bool} (h : k.updatePhase = some (ok, k')) :
    k'.currTime = k.currTime ∧
      k'.deltaCount = k.deltaCount + if k.emptyEvalPhase then 0 else 1 := by
  simp only [updatePhase] at h
  obtain ⟨⟨e, k₁⟩, hrun, h⟩ := Option.bind_eq_some_iff.mp h
  have K := runCode_keeps hrun
  obtain ⟨htime, hcount⟩ := countDelta_eq (k.emit .updateBegin)
  have K₁ : k₁.currTime = k.currTime ∧
      k₁.deltaCount = k.deltaCount + if k.emptyEvalPhase then 0 else 1 :=
    ⟨K.currTime.trans htime, K.deltaCount.trans hcount⟩
  simp only at h
  split_ifs at h
  · obtain ⟨-, rfl⟩ := Prod.mk.inj (Option.some.inj h)
    exact K₁
  · obtain ⟨-, rfl⟩ := Prod.mk.inj (Option.some.inj h)
    exact K₁

theorem notifyPhase_keeps (k : Simulator) : Keeps k k.notifyPhase.2 := by
  simp only [notifyPhase]
  split_ifs <;> exact ⟨rfl, rfl⟩

/-- The counter advances when the evaluation phase ends and some process ran in it. -/
theorem deltaCycle_keeps {again : Bool} (h : deltaCycle once n k = some (again, k')) :
    ∃ ok k₁, evalLoop n ({ k with emptyEvalPhase := true }.emit .evaluateBegin) =
      some (ok, k₁) ∧ k'.currTime = k.currTime ∧
      k'.deltaCount = k.deltaCount + if ok && !k₁.emptyEvalPhase then 1 else 0 := by
  simp only [deltaCycle] at h
  obtain ⟨⟨ok, k₁⟩, heval, h⟩ := Option.bind_eq_some_iff.mp h
  have K := evalLoop_keeps heval
  refine ⟨ok, k₁, heval, ?_⟩
  cases ok with
  | false =>
      obtain ⟨-, rfl⟩ := Prod.mk.inj (Option.some.inj h)
      exact ⟨K.currTime, K.deltaCount⟩
  | true =>
      obtain ⟨⟨ok₂, k₂⟩, hupdate, h⟩ := Option.bind_eq_some_iff.mp h
      obtain ⟨htime, hcount⟩ := updatePhase_keeps hupdate
      have htime₂ : k₂.currTime = k.currTime := htime.trans K.currTime
      have hcount₂ : k₂.deltaCount = k.deltaCount + if !k₁.emptyEvalPhase then 1 else 0 := by
        rw [hcount]
        cases hempty : k₁.emptyEvalPhase <;> simp [Simulator.emit, hempty] <;>
          exact K.deltaCount
      cases ok₂ with
      | false =>
          obtain ⟨-, rfl⟩ := Prod.mk.inj (Option.some.inj h)
          exact ⟨htime₂, by simpa using hcount₂⟩
      | true =>
          obtain ⟨-, rfl⟩ := Prod.mk.inj (Option.some.inj h)
          have K₃ := notifyPhase_keeps k₂
          exact ⟨K₃.currTime.trans htime₂, K₃.deltaCount.trans (by simpa using hcount₂)⟩

theorem initializeSim_keeps (h : k.initializeSim = some k') : Keeps k k' := by
  simp only [initializeSim] at h
  split_ifs at h with hready
  · obtain rfl := Option.some.inj h
    exact Keeps.refl k
  · obtain ⟨⟨e, k₁⟩, hrun, h⟩ := Option.bind_eq_some_iff.mp h
    have K₁ := runCode_keeps hrun
    simp only at h
    split_ifs at h with hstop
    · obtain rfl := Option.some.inj h
      exact K₁
    · obtain ⟨⟨e', k₂⟩, hrun', h⟩ := Option.bind_eq_some_iff.mp h
      obtain rfl := Option.some.inj h
      have K₂ := runCode_keeps hrun'
      exact K₁.trans ⟨K₂.currTime, K₂.deltaCount⟩

theorem crunch_currTime (h : crunch once n k = some k') : k'.currTime = k.currTime := by
  induction n generalizing k with
  | zero => simp [crunch] at h
  | succ n ih =>
      simp only [crunch] at h
      obtain ⟨⟨again, k₁⟩, hcycle, h⟩ := Option.bind_eq_some_iff.mp h
      obtain ⟨_, _, _, htime, _⟩ := deltaCycle_keeps hcycle
      cases again with
      | false =>
          obtain rfl := Option.some.inj h
          exact htime
      | true => exact (ih h).trans htime

/-! ### The simulation time -/

theorem currTime_advanceTime (t : ℕ) (k : Simulator) :
    (k.advanceTime t).currTime = max k.currTime t := by
  unfold advanceTime
  split_ifs with h
  · exact (max_eq_right h.le).symm
  · exact (max_eq_left (not_lt.mp h)).symm

theorem currTime_timedStep (top : List EventTimed → ℕ) (t : ℕ) (k : Simulator) :
    (k.timedStep top t).currTime = max k.currTime t := currTime_advanceTime t k

theorem le_currTime_leave (t endTime : ℕ) (k : Simulator) :
    k.currTime ≤ (k.leave t endTime).currTime := by
  unfold leave
  split_ifs
  · rw [currTime_advanceTime]
    exact le_max_left _ _
  · exact le_rfl

theorem currTime_leave_le (h : k.currTime ≤ endTime) :
    (k.leave t endTime).currTime ≤ endTime := by
  unfold leave
  split_ifs with ht
  · rw [currTime_advanceTime]
    exact max_le h ht
  · exact h

theorem advance_currTime_le {ok : Bool} {t' : ℕ}
    (h : advance top endTime n t k = some (ok, t', k')) (hk : k.currTime ≤ endTime) :
    k'.currTime ≤ endTime := by
  induction n generalizing t k with
  | zero => simp [advance] at h
  | succ n ih =>
      simp only [advance] at h
      cases hnext : (k.machine.context.nextTime top).1 with
      | none =>
          simp only [hnext, Option.some.injEq, Prod.mk.injEq] at h
          obtain ⟨-, -, rfl⟩ := h
          exact hk
      | some t₁ =>
          simp only [hnext] at h
          split_ifs at h with hend hempty
          · simp only [Option.some.injEq, Prod.mk.injEq] at h
            obtain ⟨-, -, rfl⟩ := h
            exact hk
          · apply ih h
            rw [currTime_timedStep]
            exact max_le hk (not_lt.mp hend)
          · simp only [Option.some.injEq, Prod.mk.injEq] at h
            obtain ⟨-, -, rfl⟩ := h
            rw [currTime_timedStep]
            exact max_le hk (not_lt.mp hend)

theorem timeLoop_currTime_le (h : timeLoop top endTime n k = some k')
    (hk : k.currTime ≤ endTime) : k'.currTime ≤ endTime := by
  induction n generalizing k with
  | zero => simp [timeLoop] at h
  | succ n ih =>
      simp only [timeLoop] at h
      obtain ⟨k₁, hcrunch, h⟩ := Option.bind_eq_some_iff.mp h
      have hk₁ : k₁.currTime ≤ endTime := (crunch_currTime hcrunch).trans_le hk
      split_ifs at h with hstop
      · obtain rfl := Option.some.inj h
        exact hk₁
      · obtain ⟨⟨ok, t, k₂⟩, hadvance, h⟩ := Option.bind_eq_some_iff.mp h
        have hk₂ := advance_currTime_le hadvance hk₁
        cases ok with
        | false =>
            obtain rfl := Option.some.inj h
            exact currTime_leave_le hk₂
        | true =>
            simp only [Bool.not_true, Bool.false_eq_true, if_false] at h
            split_ifs at h with hend
            · exact ih h hk₂
            · obtain rfl := Option.some.inj h
              exact currTime_leave_le hk₂

/-- `simulate` does not run past its duration. -/
theorem simulate_currTime_le (h : simulate top n duration k = some k') :
    k'.currTime ≤ k.currTime + duration := by
  simp only [simulate] at h
  obtain ⟨k₁, hinit, h⟩ := Option.bind_eq_some_iff.mp h
  have htime := (initializeSim_keeps hinit).currTime
  split_ifs at h with hstop hover hzero
  · obtain rfl := Option.some.inj h
    omega
  · obtain rfl := Option.some.inj h
    omega
  · have hcrunch := crunch_currTime h
    simp only at hcrunch
    omega
  · rw [← htime]
    exact timeLoop_currTime_le h (Nat.le_add_right _ _)

/-- A duration that does not fit leaves the time as it is. -/
theorem simulate_overflow (h : simulate top n duration k = some k')
    (hover : maxTime - k.currTime < duration) : k'.currTime = k.currTime := by
  simp only [simulate] at h
  obtain ⟨k₁, hinit, h⟩ := Option.bind_eq_some_iff.mp h
  have htime := (initializeSim_keeps hinit).currTime
  rw [htime, if_pos hover] at h
  split_ifs at h
  · obtain rfl := Option.some.inj h
    exact htime
  · obtain rfl := Option.some.inj h
    exact htime

/-! ### A run is a path -/

theorem advanceMoves_leads (top : List EventTimed → ℕ) (endTime n t : ℕ) (k : Simulator) :
    Leads top k (advanceMoves top endTime n t k)
      ((advance top endTime n t k).map fun x => x.2.2) := by
  induction n generalizing t k with
  | zero => exact leads_none (.nil (Agrees.refl k))
  | succ n ih =>
      simp only [advanceMoves, advance]
      apply Leads.agrees_left (Agrees.nextTime top k)
      cases (k.machine.context.nextTime top).1 with
      | none => exact leads_some (.nil (Agrees.refl _))
      | some t₁ =>
          simp only
          split_ifs
          · exact leads_some (.nil (Agrees.refl _))
          · exact Leads.cons (.timedStep _ t₁) (ih t₁ _)
          · exact Leads.cons (.timedStep _ t₁) (leads_some (.nil (Agrees.refl _)))

theorem timeLoopMoves_leads (top : List EventTimed → ℕ) (endTime n : ℕ) (k : Simulator) :
    Leads top k (timeLoopMoves top endTime n k) (timeLoop top endTime n k) := by
  induction n generalizing k with
  | zero => exact leads_none (.nil (Agrees.refl k))
  | succ n ih =>
      have H := crunchMoves_leads top false n k
      simp only [timeLoopMoves, timeLoop]
      cases hcrunch : crunch false n k with
      | none =>
          rw [hcrunch] at H
          simpa using H
      | some k₁ =>
          rw [hcrunch] at H
          apply H.path.append_leads
          simp only [Option.bind_eq_bind, Option.bind_some]
          split_ifs with hstop
          · exact leads_some (.nil (Agrees.refl k₁))
          · have H₁ := advanceMoves_leads top endTime n k₁.currTime k₁
            cases hadvance : advance top endTime n k₁.currTime k₁ with
            | none =>
                rw [hadvance] at H₁
                simpa using H₁
            | some x =>
                obtain ⟨ok, t, k₂⟩ := x
                rw [hadvance] at H₁
                apply H₁.path.append_leads
                cases ok with
                | false => exact leads_some (Path.single (.leave k₂ t endTime))
                | true =>
                    apply Leads.cons (.timednotifyEnd k₂)
                    simp only [Option.bind_some, Bool.not_true, Bool.false_eq_true, if_false]
                    split_ifs
                    · exact ih _
                    · exact leads_some (Path.single (.leave _ t endTime))

theorem simulateMoves_leads (top : List EventTimed → ℕ) (n duration : ℕ) (k : Simulator) :
    Leads top k (simulateMoves top n duration k) (simulate top n duration k) := by
  simp only [simulateMoves, simulate]
  cases hinit : k.initializeSim with
  | none => exact leads_none (.nil (Agrees.refl k))
  | some k₁ =>
      apply Leads.cons (.init hinit)
      simp only [Option.bind_eq_bind, Option.bind_some]
      split_ifs with hstop hover hzero
      · exact leads_some (.nil (Agrees.refl k₁))
      · exact leads_some (.nil (Agrees.refl k₁))
      · exact (crunchMoves_leads top true n _).agrees_left (Agrees.resume k₁)
      · exact (timeLoopMoves_leads top _ n _).agrees_left (Agrees.resume k₁)

/-- The exit time does not wrap: `simulate` has checked the duration. -/
theorem startMoves_leads (p : StarvationPolicy) (hk : k.currTime ≤ maxTime) :
    Leads top k (startMoves top n duration p k) (scStart top n duration p k) := by
  by_cases hstatus : (!k.statusOk) = true
  · rw [startMoves, scStart, if_pos hstatus, if_pos hstatus]
    exact leads_some (.nil (Agrees.refl k))
  · rw [startMoves, scStart, if_neg hstatus, if_neg hstatus]
    have H := simulateMoves_leads top n duration k
    cases hsim : simulate top n duration k with
    | none =>
        rw [hsim] at H
        simpa using H
    | some k₁ =>
        rw [hsim] at H
        apply H.path.append_leads
        simp only [Option.bind_eq_bind, Option.bind_some]
        split_ifs with hover hexit
        · exact leads_some (.nil (Agrees.refl k₁))
        · refine leads_some (Path.single (.exitTime k₁ ?_))
          rw [Nat.mod_eq_of_lt (by simp only [maxTime] at hover hk; omega)]
          exact simulate_currTime_le hsim
        · exact leads_some (.nil (Agrees.refl k₁))

theorem scStart_currTime_le (h : scStart top n duration p k = some k')
    (hk : k.currTime ≤ maxTime) : k'.currTime ≤ maxTime := by
  by_cases hstatus : (!k.statusOk) = true
  · rw [scStart, if_pos hstatus] at h
    obtain rfl := Option.some.inj h
    exact hk
  · rw [scStart, if_neg hstatus] at h
    obtain ⟨k₁, hsim, h⟩ := Option.bind_eq_some_iff.mp h
    have hle := simulate_currTime_le hsim
    split_ifs at h with hover hexit
    · -- `simulate` has returned early, without a write
      obtain rfl := Option.some.inj h
      exact simulate_overflow hsim hover ▸ hk
    · obtain rfl := Option.some.inj h
      exact Nat.le_sub_one_of_lt (Nat.mod_lt _ (Nat.two_pow_pos 64))
    · obtain rfl := Option.some.inj h
      exact hle.trans (by omega)

/-- **The runs.** A run of `sc_main` is a path of its moves. -/
theorem mainMoves_leads (hk : k.currTime ≤ maxTime) :
    Leads top k (mainMoves top n calls k) (scMain top n calls k) := by
  induction calls generalizing k with
  | nil => exact leads_some (.nil (Agrees.refl k))
  | cons c cs ih =>
      simp only [mainMoves, scMain]
      cases hrun : k.runCode with
      | none => exact leads_none (.nil (Agrees.refl k))
      | some x =>
          obtain ⟨e, k₁⟩ := x
          apply Leads.cons (.main c.caught hrun)
          have hk₁ : (k₁.catchError c.caught).currTime ≤ maxTime :=
            (runCode_keeps hrun).currTime.trans_le hk
          have H : Leads top (k₁.catchError c.caught)
              (startMoves top n c.duration c.policy (k₁.catchError c.caught))
              (scStart top n c.duration c.policy (k₁.catchError c.caught)) :=
            startMoves_leads c.policy hk₁
          simp only [Option.bind_eq_bind, Option.bind_some]
          cases hstart : (k₁.catchError c.caught).scStart top n c.duration c.policy with
          | none =>
              rw [hstart] at H
              simpa using H
          | some k₂ =>
              rw [hstart] at H
              exact H.path.append_leads (ih (scStart_currTime_le hstart hk₁))

/-! ### Time stamps -/

/-- The current time at the beginning and around every move. -/
def simTimes (k : Simulator) (ms : List Move) : List ℕ :=
  k.currTime :: ms.flatMap fun m => [m.before.currTime, m.after.currTime]

/-- The values of `sc_time_stamp()` in the states that a monitor prints, when it prints
`states m` of them in the course of the move `m`. -/
def timeStamps (states : Move → ℕ) (ms : List Move) : List ℕ :=
  ms.flatMap fun m => List.replicate (states m) m.after.currTime

/-- No monitor is called in a move before it writes the time: a timed step writes it first,
and the other moves that write it call nothing. -/
theorem Move.Lawful.writes (hm : m.Lawful top) : m.after.currTime = m.before.currTime ∨
    (∃ t, m.after = m.before.timedStep top t ∧
      (m.before.advanceTime t).currTime = m.after.currTime ∧
      (m.before.advanceTime t).callbacks = m.before.callbacks) ∨
    m.after.callbacks = m.before.callbacks ∧ m.after.code = m.before.code := by
  cases hm with
  | main caught h => exact .inl (runCode_keeps h).currTime
  | init h => exact .inl (initializeSim_keeps h).currTime
  | deltaCycle h =>
      obtain ⟨_, _, _, htime, _⟩ := deltaCycle_keeps h
      exact .inl htime
  | timedStep k t =>
      refine .inr (.inl ⟨t, rfl, rfl, ?_⟩)
      unfold advanceTime
      split_ifs <;> rfl
  | timednotifyEnd k => exact .inl rfl
  | leave k t endTime =>
      refine .inr (.inr ?_)
      simp only [Simulator.leave, advanceTime]
      split_ifs <;> exact ⟨rfl, rfl⟩
  | exitTime k h => exact .inr (.inr ⟨rfl, rfl⟩)

/-- No move sets the time back. -/
theorem Move.Lawful.currTime_le (hm : m.Lawful top) :
    m.before.currTime ≤ m.after.currTime := by
  cases hm with
  | main caught h => exact (runCode_keeps h).currTime.ge
  | init h => exact (initializeSim_keeps h).currTime.ge
  | deltaCycle h =>
      obtain ⟨_, _, _, htime, _⟩ := deltaCycle_keeps h
      exact htime.ge
  | timedStep k t =>
      rw [currTime_timedStep]
      exact le_max_left _ _
  | timednotifyEnd k => exact le_rfl
  | leave k t endTime => exact le_currTime_leave t endTime k
  | exitTime k h => exact h

/-- The times along a path are in order, up to the last. -/
theorem Path.simTimes_sorted (H : Path top k ms k') :
    (simTimes k ms ++ [k'.currTime]).Pairwise (· ≤ ·) := by
  induction H with
  | nil h => simp [simTimes, h.currTime]
  | @cons k k' m ms h hm hms ih =>
      have hle := hm.currTime_le
      simp only [simTimes, List.flatMap_cons, List.cons_append, List.nil_append,
        List.pairwise_cons] at ih ⊢
      rw [← h.currTime]
      refine ⟨?_, ?_, ih⟩
      · intro t ht
        rcases List.mem_cons.mp ht with rfl | ht
        · exact le_rfl
        · rcases List.mem_cons.mp ht with rfl | ht
          · exact hle
          · exact hle.trans (ih.1 t ht)
      · intro t ht
        rcases List.mem_cons.mp ht with rfl | ht
        · exact hle
        · exact hle.trans (ih.1 t ht)

theorem Path.timeStamps_sorted (H : Path top k ms k') (states : Move → ℕ) :
    (timeStamps states ms).Pairwise (· ≤ ·) ∧ ∀ t ∈ timeStamps states ms, k.currTime ≤ t := by
  induction H with
  | nil h => simp [timeStamps]
  | @cons k k' m ms h hm hms ih =>
      have hle : k.currTime ≤ m.after.currTime := h.currTime ▸ hm.currTime_le
      simp only [timeStamps, List.flatMap_cons] at ih ⊢
      constructor
      · refine List.pairwise_append.mpr ⟨List.pairwise_replicate_of_refl, ih.1, ?_⟩
        intro t ht t' ht'
        rw [List.eq_of_mem_replicate ht]
        exact ih.2 t' ht'
      · intro t ht
        rcases List.mem_append.mp ht with ht | ht
        · rw [List.eq_of_mem_replicate ht]
          exact hle
        · exact hle.trans (ih.2 t ht)

/-- **Time.** In every run of `sc_main`, with any code, calls of `sc_start` and timed
notifications, the simulation time never goes back, and the time stamps that a monitor
prints in its states are in order. -/
theorem simTime_monotone (hk : k.currTime ≤ maxTime) :
    (simTimes k (mainMoves top n calls k)).Pairwise (· ≤ ·) ∧
      (∀ k', scMain top n calls k = some k' →
        ∀ t ∈ simTimes k (mainMoves top n calls k), t ≤ k'.currTime) ∧
      ∀ states, (timeStamps states (mainMoves top n calls k)).Pairwise (· ≤ ·) := by
  obtain ⟨k₁, H, hk₁⟩ : Leads top k (mainMoves top n calls k) (scMain top n calls k) :=
    mainMoves_leads hk
  have htimes := List.pairwise_append.mp H.simTimes_sorted
  refine ⟨htimes.1, ?_, fun states => (H.timeStamps_sorted states).1⟩
  intro k' hk' t ht
  rw [hk₁ k' hk']
  exact htimes.2.2 t ht _ (List.mem_singleton.mpr rfl)

/-- The event at time 5, with the code for two calls. -/
def twoCalls : Simulator :=
  { oneEvent [1] with
    code := List.replicate 4 ⟨oneEventMachine [1], false, false, false⟩ ++
      List.replicate 2 ⟨oneMethodMachine [], false, false, false⟩ }

/-- The first call goes on to time 3, before the event, and the second one to the event. -/
theorem simTime_monotone_two : ∃ k', scMain (fun _ => 0) 6
    [⟨3, .runToTime, false⟩, ⟨10, .exitOnStarvation, false⟩] twoCalls = some k' ∧
      k'.currTime = 5 ∧ ∀ t ∈ simTimes twoCalls (mainMoves (fun _ => 0) 6
        [⟨3, .runToTime, false⟩, ⟨10, .exitOnStarvation, false⟩] twoCalls), t ≤ 5 := by
  obtain ⟨k', hk', htime⟩ : ∃ k', scMain (fun _ => 0) 6
      [⟨3, .runToTime, false⟩, ⟨10, .exitOnStarvation, false⟩] twoCalls = some k' ∧
        k'.currTime = 5 := ⟨_, rfl, rfl⟩
  refine ⟨k', hk', htime, ?_⟩
  rw [← htime]
  exact (simTime_monotone (show twoCalls.currTime ≤ maxTime by decide)).2.1 k' hk'

end Simulator
end Pscv.Kernel
