import Pscv.Kernel.Crunch

/-!
# `sc_simcontext::simulate`

The simulation up to a point in time: delta cycles, then the timed notifications of the
next time, until some process can run. `timednotify_begin` is called for every time at
which events are notified, and `timednotify_end` after the loop over these times, which is
also left by a jump past it.

`top` is the position of the entry that the priority queue of the timed events has on top;
no result depends on how it breaks ties.

## Main results

* `Simulator.advance_spec`, `Simulator.simulate_spec` — what the timed steps announce.
* `Simulator.timed_alternates_iff` — the two callbacks alternate, and each begin has its
  end, if and only if every timed step makes a process runnable.
-/

namespace Pscv.Kernel

/-- The largest simulation time. -/
def maxTime : ℕ := 2 ^ 64 - 1

namespace SimContext

/-- The entry on top of the timed events. -/
def topEvent (top : List EventTimed → ℕ) (k : SimContext) : Option EventTimed :=
  k.notifications.timedEvents[top k.notifications.timedEvents]?

/-- `extract_top`. -/
def extractTop (top : List EventTimed → ℕ) (k : SimContext) : SimContext :=
  { k with notifications := { k.notifications with
      timedEvents :=
        k.notifications.timedEvents.eraseIdx (top k.notifications.timedEvents) } }

/-- The loop of `next_time`, which drops the cancelled entries. -/
def nextTimeLoop (top : List EventTimed → ℕ) : ℕ → SimContext → Option ℕ × SimContext
  | 0, k => (none, k)
  | n + 1, k =>
      match k.topEvent top with
      | none => (none, k)
      | some et => if et.event.isSome then (some et.notifyTime, k)
          else nextTimeLoop top n (k.extractTop top)

/-- `next_time`. -/
def nextTime (top : List EventTimed → ℕ) (k : SimContext) : Option ℕ × SimContext :=
  k.nextTimeLoop top k.notifications.timedEvents.length

/-- Trigger the event of an entry, unless it was cancelled. -/
def triggerTimed (et : EventTimed) (k : SimContext) : SimContext :=
  match et.event with
  | some e => k.trigger e
  | none => k

/-- The loop over the entries of the time `t`. -/
def notifyTimedLoop (top : List EventTimed → ℕ) (t : ℕ) : ℕ → SimContext → SimContext
  | 0, k => k
  | n + 1, k =>
      match k.topEvent top with
      | none => k
      | some et =>
          let k := (k.extractTop top).triggerTimed et
          if (k.topEvent top).any fun et => et.notifyTime = t then notifyTimedLoop top t n k
            else k

/-- The timed notifications of the time `t`. -/
def notifyTimed (top : List EventTimed → ℕ) (t : ℕ) (k : SimContext) : SimContext :=
  k.notifyTimedLoop top t k.notifications.timedEvents.length

end SimContext

/-- The timed notifications of the time `t`. -/
def Machine.notifyTimed (top : List EventTimed → ℕ) (t : ℕ) (m : Machine) : Machine :=
  { m with context := m.context.notifyTimed top t }

namespace Simulator

/-- `initialize(true)`. The user's code runs before and in the first update phase; the
latter leaves the initial processes runnable. -/
def initializeSim (k : Simulator) : Option Simulator :=
  if k.ready then some k
  else do
    let (_, k) ← k.runCode
    if k.error || k.forcedStop then pure k
    else
      let (_, k) ← (({ k with ready := true }.emit .initBegin).emit .initUpdateBegin).runCode
      let k := (k.emit .initUpdateEnd).emit .initDeltaNotificationBegin
      pure (({ k with machine := k.machine.deltaPhase }.emit .initDeltaNotificationEnd).emit
        .initEnd)

/-- Advance the simulation time to `t`. -/
def advanceTime (t : ℕ) (k : Simulator) : Simulator :=
  if k.currTime < t then { k with currTime := t, changeStamp := k.changeStamp + 1 } else k

/-- The notifications of one time. -/
def timedStep (top : List EventTimed → ℕ) (t : ℕ) (k : Simulator) : Simulator :=
  let k := (k.advanceTime t).emit .timednotifyBegin
  { k with
    timedSteps := k.timedSteps ++ [(t, k.machine)]
    machine := k.machine.notifyTimed top t }

/-- The loop over the times of the events, up to `until`, while no process can run; false
when it is left by the jump to the end. -/
def advance (top : List EventTimed → ℕ) (endTime : ℕ) : ℕ → ℕ → Simulator →
    Option (Bool × ℕ × Simulator)
  | 0, _, _ => none
  | n + 1, t, k =>
      let x := k.machine.context.nextTime top
      let k := { k with machine := { k.machine with context := x.2 } }
      match x.1 with
      | none => some (false, t, k)
      | some t =>
          if endTime < t then some (false, t, k)
          else
            let k := k.timedStep top t
            if k.machine.isEmpty then advance top endTime n t k else some (true, t, k)

/-- The end of `simulate`. -/
def leave (t endTime : ℕ) (k : Simulator) : Simulator :=
  if t ≤ endTime then k.advanceTime t else k

/-- The loop for a duration that is not zero. -/
def timeLoop (top : List EventTimed → ℕ) (endTime : ℕ) : ℕ → Simulator → Option Simulator
  | 0, _ => none
  | n + 1, k => do
      let k ← crunch false n k
      if k.error || k.forcedStop || k.paused then pure k
      else
        let (ok, t, k) ← advance top endTime n k.currTime k
        if !ok then pure (k.leave t endTime)
        else
          let k := k.emit .timednotifyEnd
          if t < endTime then timeLoop top endTime n k else pure (k.leave t endTime)

/-- `simulate`. A duration past the largest time raises an error. -/
def simulate (top : List EventTimed → ℕ) (n duration : ℕ) (k : Simulator) :
    Option Simulator := do
  let k ← k.initializeSim
  if k.error || k.forcedStop then pure k
  else if maxTime - k.currTime < duration then pure k
  else if duration = 0 then crunch true n { k with paused := false }
  else timeLoop top (k.currTime + duration) n { k with paused := false }

variable {k k' k'' : Simulator} {es : List Effect} {ns ns' : List Notification}
  {ss ss' : List (ℕ × Machine)} {top : List EventTimed → ℕ} {n t t' endTime duration : ℕ}
  {ok : Bool}

/-- From `k` to `k'` the timed steps `ss` were taken, and `ns` was announced. -/
structure Takes (ss : List (ℕ × Machine)) (ns : List Notification) (k k' : Simulator) :
    Prop where
  observer : k'.observer = k.observer
  callbacks : k'.callbacks = k.callbacks ++ if k.observer then ns else []
  timedSteps : k'.timedSteps = k.timedSteps ++ ss

namespace Takes

theorem refl (k : Simulator) : Takes [] [] k k := by
  refine ⟨rfl, ?_, ?_⟩ <;> simp

theorem trans (h : Takes ss ns k k') (h' : Takes ss' ns' k' k'') :
    Takes (ss ++ ss') (ns ++ ns') k k'' where
  observer := h'.observer.trans h.observer
  callbacks := by
    rw [h'.callbacks, h.callbacks, h.observer]
    split_ifs <;> simp
  timedSteps := by rw [h'.timedSteps, h.timedSteps, List.append_assoc]

theorem emit (h : Takes ss ns k k') (m : Notification) :
    Takes ss (ns ++ [m]) k (k'.emit m) where
  observer := h.observer
  callbacks := by
    simp only [Simulator.emit, h.observer, h.callbacks]
    split_ifs <;> simp
  timedSteps := h.timedSteps

theorem machine (h : Takes ss ns k k') (m : Machine) :
    Takes ss ns k { k' with machine := m } := ⟨h.observer, h.callbacks, h.timedSteps⟩

theorem advanceTime (h : Takes ss ns k k') (t : ℕ) : Takes ss ns k (k'.advanceTime t) := by
  unfold Simulator.advanceTime
  split_ifs
  · exact ⟨h.observer, h.callbacks, h.timedSteps⟩
  · exact h

theorem leave (h : Takes ss ns k k') (t endTime : ℕ) : Takes ss ns k (k'.leave t endTime) := by
  unfold Simulator.leave
  split_ifs
  · exact h.advanceTime t
  · exact h

end Takes

theorem Runs.takes (R : Runs es ns k k') : Takes [] ns k k' :=
  ⟨R.observer, R.callbacks, by simp [R.timedSteps]⟩

/-- The events notified in a step make some process runnable. -/
def Wakes (top : List EventTimed → ℕ) (s : ℕ × Machine) : Prop :=
  (s.2.notifyTimed top s.1).isEmpty = false

instance (top : List EventTimed → ℕ) (s : ℕ × Machine) : Decidable (Wakes top s) :=
  inferInstanceAs (Decidable (_ = _))

/-- What is announced for a step: the end is left out when no process can run. -/
def announced (top : List EventTimed → ℕ) (s : ℕ × Machine) : List Notification :=
  if Wakes top s then [.timednotifyBegin, .timednotifyEnd] else [.timednotifyBegin]

theorem crunch_takes {once : Bool} (h : crunch once n k = some k') :
    ∃ ns, Takes [] ns k k' ∧ ns.filter isTimed = [] := by
  obtain ⟨es, ns, m, R, _⟩ := crunch_spec h
  exact ⟨ns, R.takes, R.untimed⟩

theorem initializeSim_takes (h : k.initializeSim = some k') :
    ∃ ns, Takes [] ns k k' ∧ ns.filter isTimed = [] := by
  simp only [initializeSim] at h
  split_ifs at h with hready
  · obtain rfl := Option.some.inj h
    exact ⟨[], Takes.refl k, rfl⟩
  · obtain ⟨⟨e, k₁⟩, hrun, h⟩ := Option.bind_eq_some_iff.mp h
    have T₁ : Takes [] [] k k₁ := ((Runs.refl k).runCode hrun).takes
    simp only at h
    split_ifs at h with hstop
    · obtain rfl := Option.some.inj h
      exact ⟨[], T₁, rfl⟩
    · obtain ⟨⟨e', k₂⟩, hrun', h⟩ := Option.bind_eq_some_iff.mp h
      obtain rfl := Option.some.inj h
      have T₂ := ((((Runs.refl { k₁ with ready := true }).emit .initBegin rfl).emit
        .initUpdateBegin rfl).runCode hrun').takes
      have T₁' : Takes [] [] k { k₁ with ready := true } :=
        ⟨T₁.observer, T₁.callbacks, T₁.timedSteps⟩
      have T :=
        ((((T₁'.trans T₂).emit .initUpdateEnd).emit .initDeltaNotificationBegin).machine
        (k₂.machine.deltaPhase)).emit .initDeltaNotificationEnd |>.emit .initEnd
      exact ⟨_, T, rfl⟩

theorem timedStep_machine (top : List EventTimed → ℕ) (t : ℕ) (k : Simulator) :
    (k.timedStep top t).machine = k.machine.notifyTimed top t := by
  simp only [timedStep, emit, advanceTime]
  split_ifs <;> rfl

theorem wakes_iff : Wakes top (t, k.machine) ↔
    (k.timedStep top t).machine.isEmpty = false := by
  rw [timedStep_machine]
  rfl

theorem timedStep_takes (top : List EventTimed → ℕ) (t : ℕ) (k : Simulator) :
    Takes [(t, k.machine)] [.timednotifyBegin] k (k.timedStep top t) := by
  have T : Takes [] [.timednotifyBegin] k ((k.advanceTime t).emit .timednotifyBegin) :=
    ((Takes.refl k).advanceTime t).emit _
  have hmachine : ((k.advanceTime t).emit .timednotifyBegin).machine = k.machine := by
    simp only [emit, advanceTime]
    split_ifs <;> rfl
  refine ⟨T.observer, T.callbacks, ?_⟩
  simp only [timedStep, hmachine, T.timedSteps, List.append_nil]

/-- The loop over the times announces each of its steps; the end of the last one is still
to be announced when the loop is not left by the jump. -/
theorem advance_spec (h : advance top endTime n t k = some (ok, t', k')) :
    ∃ ss ns, Takes ss ns k k' ∧ ns.filter isTimed ++ (if ok then [.timednotifyEnd] else []) =
      ss.flatMap (announced top) := by
  induction n generalizing t k with
  | zero => simp [advance] at h
  | succ n ih =>
      simp only [advance] at h
      obtain ⟨k₁, hk₁⟩ : ∃ k₁ : Simulator, k₁ = { k with machine := { k.machine with
          context := (k.machine.context.nextTime top).2 } } := ⟨_, rfl⟩
      have T₁ : Takes [] [] k k₁ := hk₁ ▸ (Takes.refl k).machine _
      rw [← hk₁] at h
      cases hnext : (k.machine.context.nextTime top).1 with
      | none =>
          simp only [hnext, Option.some.injEq, Prod.mk.injEq] at h
          obtain ⟨rfl, _, rfl⟩ := h
          exact ⟨[], [], T₁, rfl⟩
      | some t₁ =>
          simp only [hnext] at h
          split_ifs at h with hend hempty
          · simp only [Option.some.injEq, Prod.mk.injEq] at h
            obtain ⟨rfl, _, rfl⟩ := h
            exact ⟨[], [], T₁, rfl⟩
          · -- no process can run: the next time is taken
            obtain ⟨ss, ns, T, hns⟩ := ih h
            refine ⟨_, _, (T₁.trans (timedStep_takes top t₁ k₁)).trans T, ?_⟩
            have hstep : announced top (t₁, k₁.machine) = [.timednotifyBegin] :=
              if_neg fun hwakes => by simp [wakes_iff.mp hwakes] at hempty
            simp [List.filter_cons, isTimed, hns, hstep]
          · simp only [Option.some.injEq, Prod.mk.injEq] at h
            obtain ⟨rfl, _, rfl⟩ := h
            refine ⟨_, _, T₁.trans (timedStep_takes top t₁ k₁), ?_⟩
            have hstep : announced top (t₁, k₁.machine) =
                [.timednotifyBegin, .timednotifyEnd] :=
              if_pos (wakes_iff.mpr (by simpa using hempty))
            simp [List.filter_cons, isTimed, hstep]

theorem timeLoop_spec (h : timeLoop top endTime n k = some k') :
    ∃ ss ns, Takes ss ns k k' ∧ ns.filter isTimed = ss.flatMap (announced top) := by
  induction n generalizing k with
  | zero => simp [timeLoop] at h
  | succ n ih =>
      simp only [timeLoop] at h
      obtain ⟨k₁, hcrunch, h⟩ := Option.bind_eq_some_iff.mp h
      obtain ⟨ns₁, T₁, hns₁⟩ := crunch_takes hcrunch
      split_ifs at h with hstop
      · obtain rfl := Option.some.inj h
        exact ⟨[], ns₁, T₁, hns₁⟩
      · obtain ⟨⟨ok, t, k₂⟩, hadvance, h⟩ := Option.bind_eq_some_iff.mp h
        obtain ⟨ss₂, ns₂, T₂, hns₂⟩ := advance_spec hadvance
        cases ok with
        | false =>
            obtain rfl := Option.some.inj h
            refine ⟨_, _, (T₁.trans T₂).leave _ _, ?_⟩
            simpa [hns₁] using hns₂
        | true =>
            have T := (T₁.trans T₂).emit .timednotifyEnd
            have hns : (ns₁ ++ ns₂ ++ [Notification.timednotifyEnd]).filter isTimed =
                ss₂.flatMap (announced top) := by
              have hend : [Notification.timednotifyEnd].filter isTimed = [.timednotifyEnd] :=
                rfl
              rw [List.filter_append, List.filter_append, hns₁, List.nil_append, hend]
              simpa using hns₂
            simp only [Bool.not_true, Bool.false_eq_true, if_false] at h
            split_ifs at h with hend
            · obtain ⟨ss, ns, T', hns'⟩ := ih h
              refine ⟨_, _, T.trans T', ?_⟩
              rw [List.filter_append, hns, hns', List.nil_append, List.flatMap_append]
            · obtain rfl := Option.some.inj h
              exact ⟨_, _, T.leave _ _, hns⟩

theorem simulate_spec (h : simulate top n duration k = some k') :
    ∃ ss ns, Takes ss ns k k' ∧ ns.filter isTimed = ss.flatMap (announced top) := by
  simp only [simulate] at h
  obtain ⟨k₁, hinit, h⟩ := Option.bind_eq_some_iff.mp h
  obtain ⟨ns₁, T₁, hns₁⟩ := initializeSim_takes hinit
  have T₁' : Takes [] ns₁ k { k₁ with paused := false } :=
    ⟨T₁.observer, T₁.callbacks, T₁.timedSteps⟩
  split_ifs at h with hstop htime hzero
  · obtain rfl := Option.some.inj h
    exact ⟨[], ns₁, T₁, hns₁⟩
  · obtain rfl := Option.some.inj h
    exact ⟨[], ns₁, T₁, hns₁⟩
  · obtain ⟨ns₂, T₂, hns₂⟩ := crunch_takes h
    refine ⟨[], _, T₁'.trans T₂, ?_⟩
    rw [List.filter_append, hns₁, hns₂]
    rfl
  · obtain ⟨ss, ns₂, T₂, hns₂⟩ := timeLoop_spec h
    refine ⟨ss, _, T₁'.trans T₂, ?_⟩
    rw [List.filter_append, hns₁, hns₂, List.nil_append]

end Simulator

/-- The timed notification phases alternate, and each begin is followed by its end. -/
def Alternates (ns : List Notification) : Prop :=
  ∃ m, ns.filter Simulator.isTimed =
    (List.replicate m [.timednotifyBegin, .timednotifyEnd]).flatten

namespace Simulator
variable {k k' : Simulator} {ns : List Notification} {ss : List (ℕ × Machine)}
  {top : List EventTimed → ℕ} {n duration : ℕ}

/-- The announcements of steps alternate if and only if every step announces its end. -/
theorem alternates_iff (h : ns.filter isTimed = ss.flatMap (announced top)) :
    Alternates ns ↔ ∀ s ∈ ss, Wakes top s := by
  rw [Alternates, h]
  clear h
  constructor
  · rintro ⟨m, hm⟩
    induction ss generalizing m with
    | nil => simp
    | cons s ss ih =>
        cases m with
        | zero =>
            simp only [List.flatMap_cons, announced] at hm
            split_ifs at hm <;> simp at hm
        | succ m =>
            rw [List.flatMap_cons, List.replicate_succ, List.flatten_cons] at hm
            by_cases hs : Wakes top s
            · rw [announced, if_pos hs] at hm
              have hss := ih m (List.append_cancel_left hm)
              intro s' hs'
              rcases List.mem_cons.mp hs' with rfl | hs'
              · exact hs
              · exact hss s' hs'
            · -- a begin would follow, or nothing
              rw [announced, if_neg hs] at hm
              have htail := (List.cons.inj hm).2
              cases ss with
              | nil => simp at htail
              | cons s' ss' =>
                  simp only [List.flatMap_cons, announced] at htail
                  split_ifs at htail <;> simp at htail
  · intro hall
    refine ⟨ss.length, ?_⟩
    induction ss with
    | nil => rfl
    | cons s ss ih =>
        rw [List.flatMap_cons, ih fun s' hs' => hall s' (by simp [hs']), announced,
          if_pos (hall s (by simp)), List.length_cons, List.replicate_succ, List.flatten_cons]

/-- **Timed notifications.** In a run of `simulate` the timed notification phases that are
announced alternate, each begin being followed by its end, if and only if there is no
observer, or the events notified in each timed step make a process runnable. -/
theorem timed_alternates_iff (h : simulate top n duration k = some k') :
    ∃ ns ss, k'.callbacks = k.callbacks ++ ns ∧ k'.timedSteps = k.timedSteps ++ ss ∧
      (Alternates ns ↔ k.observer = false ∨ ∀ s ∈ ss, Wakes top s) := by
  obtain ⟨ss, ns, T, hns⟩ := simulate_spec h
  refine ⟨_, ss, T.callbacks, T.timedSteps, ?_⟩
  cases hobs : k.observer with
  | false => exact iff_of_true ⟨0, rfl⟩ (.inl rfl)
  | true =>
      simp only [if_true, Bool.true_eq_false, false_or]
      exact alternates_iff hns

/-- An event is notified at time 5, and `methods` are sensitive to it. -/
def oneEventMachine (methods : List Handle) : Machine :=
  { oneMethodMachine [] with
    context := { (oneMethodMachine []).context with
      notifications := (oneMethodMachine []).context.notifications.notify 0 5 (.user 0)
      statics := fun d _ => if d = .method then methods else [] } }

def oneEvent (methods : List Handle) : Simulator :=
  { oneMethod false with
    machine := oneEventMachine methods
    code := [⟨oneEventMachine methods, false, false, false⟩,
      ⟨oneMethodMachine [], false, false, false⟩, ⟨oneMethodMachine [], false, false, false⟩] }

/-- A method is sensitive to the event: the phase has its end. -/
theorem timed_alternates_iff_method : ∃ k' ns,
    simulate (fun _ => 0) 6 10 (oneEvent [1]) = some k' ∧ k'.callbacks = ns ∧
      .timednotifyBegin ∈ ns ∧ Alternates ns := by
  obtain ⟨k', hk'⟩ : ∃ k', simulate (fun _ => 0) 6 10 (oneEvent [1]) = some k' := ⟨_, rfl⟩
  obtain ⟨ns, ss, hns, hss, hiff⟩ := timed_alternates_iff hk'
  have hwakes : ∀ s ∈ ss, Wakes (fun _ => 0) s := by
    obtain rfl := Option.some.inj (hk'.symm.trans rfl)
    obtain rfl : _ = ss := hss
    decide
  refine ⟨k', ns, hk', hns, ?_, hiff.mpr (.inr hwakes)⟩
  obtain rfl := Option.some.inj (hk'.symm.trans rfl)
  obtain rfl : _ = ns := hns
  decide

/-- No process waits for the event: the phase is announced to begin, and not to end. -/
theorem begin_without_end : ∃ k', simulate (fun _ => 0) 5 10 (oneEvent []) = some k' ∧
    k'.callbacks.filter isTimed = [.timednotifyBegin] ∧ ¬ Alternates k'.callbacks := by
  obtain ⟨k', hk', hns⟩ : ∃ k', simulate (fun _ => 0) 5 10 (oneEvent []) = some k' ∧
      k'.callbacks.filter isTimed = [.timednotifyBegin] := ⟨_, rfl, rfl⟩
  refine ⟨k', hk', hns, ?_⟩
  rintro ⟨m, hm⟩
  have hlen := congrArg List.length (hns.symm.trans hm)
  simp only [List.length_flatten, List.map_replicate, List.sum_replicate, List.length_cons,
    List.length_nil, nsmul_eq_mul, Nat.cast_id] at hlen
  omega

end Simulator
end Pscv.Kernel
