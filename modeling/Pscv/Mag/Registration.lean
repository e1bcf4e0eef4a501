import Mathlib.Algebra.GroupWithZero.Nat
import Mathlib.Data.List.Pairwise
import Pscv.Mag.Monitor

/-!
# Registration and callbacks of the generated monitor

The constructor registers the monitor with the observer, and `observer_callbacks` emits
the callbacks. The first loops over the table of kernel clocks, the second has a branch
for each of them, with its own clock and callback. Clocks are compared without case, and
the registration repeats the spelling of the user.

## Main results

* `registration_agrees`, `callbacks_defined_once_iff`, `registration_succeeds_iff`.
-/

namespace Pscv.Mag

open Pscv.Lib Pscv.Kernel

/-! ## The generators -/

/-- A `register_monitor` statement: the sample point as it is written, or the event. -/
inductive Registration
  | sample (arg : String)
  | event (expr : String)
  deriving DecidableEq

/-- The branches of `observer_callbacks`: a clock, and the callback that is emitted. -/
def callbackBranches : List (String × String) :=
  [("MON_INIT_PHASE_BEGIN", "callback_init_phase_begin"),
    ("MON_INIT_PHASE_END", "callback_init_phase_end"),
    ("MON_INIT_UPDATE_PHASE_BEGIN", "callback_init_update_phase_begin"),
    ("MON_INIT_UPDATE_PHASE_END", "callback_init_update_phase_end"),
    ("MON_INIT_DELTA_NOTIFY_PHASE_BEGIN", "callback_init_delta_notify_phase_begin"),
    ("MON_INIT_DELTA_NOTIFY_PHASE_END", "callback_init_delta_notify_phase_end"),
    ("MON_DELTA_CYCLE_BEGIN", "callback_delta_cycle_begin"),
    ("MON_DELTA_CYCLE_END", "callback_delta_cycle_end"),
    ("MON_EVALUATION_PHASE_BEGIN", "callback_evaluation_phase_begin"),
    ("MON_EVALUATION_PHASE_END", "callback_evaluation_phase_end"),
    ("MON_UPDATE_PHASE_BEGIN", "callback_update_phase_begin"),
    ("MON_UPDATE_PHASE_END", "callback_update_phase_end"),
    ("MON_DELTA_NOTIFY_PHASE_BEGIN", "callback_delta_notify_phase_begin"),
    ("MON_DELTA_NOTIFY_PHASE_END", "callback_delta_notify_phase_end"),
    ("MON_TIMED_NOTIFY_PHASE_BEGIN", "callback_timed_notify_phase_begin"),
    ("MON_TIMED_NOTIFY_PHASE_END", "callback_timed_notify_phase_end"),
    ("MON_METHOD_SUSPEND", "callback_method_suspend"),
    ("MON_THREAD_SUSPEND", "callback_thread_suspend")]

/-- The virtual function that the observer calls for a callback of `mon_prototype`. -/
def callbackName {E : Type*} : Callback E → String
  | .initPhaseBegin => "callback_init_phase_begin"
  | .initPhaseEnd => "callback_init_phase_end"
  | .initUpdatePhaseBegin => "callback_init_update_phase_begin"
  | .initUpdatePhaseEnd => "callback_init_update_phase_end"
  | .initDeltaNotifyPhaseBegin => "callback_init_delta_notify_phase_begin"
  | .initDeltaNotifyPhaseEnd => "callback_init_delta_notify_phase_end"
  | .deltaCycleBegin => "callback_delta_cycle_begin"
  | .deltaCycleEnd => "callback_delta_cycle_end"
  | .evaluationPhaseBegin => "callback_evaluation_phase_begin"
  | .evaluationPhaseEnd => "callback_evaluation_phase_end"
  | .updatePhaseBegin => "callback_update_phase_begin"
  | .updatePhaseEnd => "callback_update_phase_end"
  | .deltaNotifyPhaseBegin => "callback_delta_notify_phase_begin"
  | .deltaNotifyPhaseEnd => "callback_delta_notify_phase_end"
  | .timedNotifyPhaseBegin => "callback_timed_notify_phase_begin"
  | .timedNotifyPhaseEnd => "callback_timed_notify_phase_end"
  | .methodSuspend => "callback_method_suspend"
  | .threadSuspend => "callback_thread_suspend"
  | .eventNotified _ => "callback_event_notified"

/-- The callback of a sample point, by name. -/
def pointCallback (p : SamplePoint) : String := callbackName (p.callback : Callback Unit)

section Generators
variable (gp : GlobalParams) (mp : MonitorParams)

/-- The registrations for one clock. -/
def registerClock (clk : String) : List Registration :=
  (if strcaseEq clk "DEFAULT_CLOCK" then kernelClocks.map fun p => .sample (clockName p)
    else (kernelClocks.filter fun p => strcaseEq clk (clockName p)).map fun _ =>
      .sample clk) ++
  if gp.isEventClock clk then [.event (eventName gp clk)] else []

/-- `register_with_observer`. -/
def registerWithObserver : List Registration := mp.clocks.toList.flatMap (registerClock gp)

/-- The callbacks for one clock, by name. -/
def callbacksOfClock (clk : String) : List (String × Func) :=
  if isKernelClock clk then
    (callbackBranches.filter fun b => strcaseEq clk b.1 || strcaseEq clk "DEFAULT_CLOCK").map
      fun b => (b.2, ⟨[], [.step]⟩)
  else if !gp.isEventClock clk then
    [("callback_userloc_" ++ clk, ⟨[], [.assignBool clk true, .step, .assignBool clk false]⟩)]
  else []

/-- The functions that `observer_callbacks` emits, by name. -/
def emittedCallbacks : List (String × Func) :=
  (if (eventClockLabels gp mp).toList.isEmpty then []
    else [("callback_event_notified", eventFunc gp mp)]) ++
  mp.clocks.toList.flatMap (callbacksOfClock gp)

end Generators

/-! ## The two tables -/

/-- The name of an emitted function. -/
def FuncName.text : FuncName → String
  | kernel p => pointCallback p
  | eventNotified => "callback_event_notified"
  | userloc clk => "callback_userloc_" ++ clk
  | value name => "value_callback_" ++ name

/-- The branches are the table of kernel clocks, with the callback of each. -/
theorem callbackBranches_eq :
    callbackBranches = kernelClocks.map fun p => (clockName p, pointCallback p) := rfl

theorem mem_kernelClocks (p : SamplePoint) : p ∈ kernelClocks := by
  cases p <;> decide

theorem kernelClocks_nodup : kernelClocks.Nodup := by decide

section Tables
variable {gp : GlobalParams} {mp : MonitorParams} {clk : String} {p q : SamplePoint}

theorem callbacksOfClock_eq (clk : String) :
    callbacksOfClock gp clk = (clockFuncs gp clk).map fun f => (f.1.text, f.2) := by
  rw [callbacksOfClock, clockFuncs, callbackBranches_eq]
  split_ifs
  · rw [List.filter_map, List.map_map, List.map_map]
    rfl
  · rfl
  · rfl

/-- By name, the emitted callbacks are those of the generated class. -/
theorem emittedCallbacks_eq (gp : GlobalParams) (mp : MonitorParams) :
    emittedCallbacks gp mp = (observerCallbacks gp mp).map fun f => (f.1.text, f.2) := by
  rw [emittedCallbacks, observerCallbacks, List.map_append, List.map_flatMap]
  congr 1
  · split_ifs <;> rfl
  · exact List.flatMap_congr fun clk _ => callbacksOfClock_eq clk

/-- A name of a kernel clock determines it, also without case. -/
theorem clockName_inj (h : strcaseEq (clockName p) (clockName q)) : p = q := by
  have hnodup : (kernelClocks.map fun p =>
      (cString (clockName p).toList).map Char.toLower).Nodup := by
    simp only [kernelClocks, List.map_cons, List.map_nil, clockName]
    repeat rw [String.toList_ofList]
    decide +kernel
  exact List.inj_on_of_nodup_map hnodup (mem_kernelClocks p) (mem_kernelClocks q)
    (of_decide_eq_true h)

theorem strcaseEq_trans {a b c : String} (h : strcaseEq a b) (h' : strcaseEq a c) :
    strcaseEq b c := by
  simp only [strcaseEq, decide_eq_true_eq] at *
  exact h.symm.trans h'

theorem strcaseEq_self (a : String) : strcaseEq a a := by simp [strcaseEq]

theorem not_strcaseEq_default (p : SamplePoint) :
    strcaseEq "DEFAULT_CLOCK" (clockName p) = false := by
  rw [strcaseEq]
  cases p <;>
  · rw [clockName]
    repeat rw [String.toList_ofList]
    decide

theorem pointCallback_inj (h : pointCallback p = pointCallback q) : p = q := by
  have hnodup : (kernelClocks.map pointCallback).Nodup := by decide +kernel
  exact List.inj_on_of_nodup_map hnodup (mem_kernelClocks p) (mem_kernelClocks q) h

theorem pointCallback_ne_event (p : SamplePoint) :
    pointCallback p ≠ "callback_event_notified" := by
  have hall : ∀ p ∈ kernelClocks, pointCallback p ≠ "callback_event_notified" := by
    decide +kernel
  exact hall p (mem_kernelClocks p)

/-- No other callback starts as those of the locations. -/
theorem ne_userloc {a : String} (clk : String)
    (ha : a.toList.take 17 ≠ "callback_userloc_".toList) : a ≠ "callback_userloc_" ++ clk := by
  rintro rfl
  refine ha ?_
  rw [String.toList_append]
  exact List.take_left' rfl

theorem pointCallback_ne_userloc (p : SamplePoint) (clk : String) :
    pointCallback p ≠ "callback_userloc_" ++ clk := by
  have hall : ∀ p ∈ kernelClocks,
      (pointCallback p).toList.take 17 ≠ "callback_userloc_".toList := by
    simp only [kernelClocks, List.forall_mem_cons, pointCallback, SamplePoint.callback,
      callbackName]
    repeat rw [String.toList_ofList]
    decide +kernel
  exact ne_userloc clk (hall p (mem_kernelClocks p))

theorem event_ne_userloc (clk : String) :
    "callback_event_notified" ≠ "callback_userloc_" ++ clk :=
  ne_userloc clk (by decide +kernel)

theorem isKernelClock_iff :
    isKernelClock clk ↔ strcaseEq clk "DEFAULT_CLOCK" ∨ ∃ p, strcaseEq clk (clockName p) := by
  simp [isKernelClock, mem_kernelClocks]

end Tables

/-! ## What is registered, and what is called back -/

section Sets
variable {gp : GlobalParams} {mp : MonitorParams} {clk name expr : String} {p : SamplePoint}
variable {f : Func}

/-- A clock stands for a sample point. -/
def Covers (clk : String) (p : SamplePoint) : Prop :=
  strcaseEq clk (clockName p) ∨ strcaseEq clk "DEFAULT_CLOCK"

theorem Covers.isKernelClock (h : Covers clk p) : isKernelClock clk := by
  rw [isKernelClock_iff]
  exact h.symm.imp_right fun h => ⟨p, h⟩

theorem mem_callbacksOfClock : (name, f) ∈ callbacksOfClock gp clk ↔
    (∃ p, Covers clk p ∧ name = pointCallback p ∧ f = ⟨[], [.step]⟩) ∨
      ¬ isKernelClock clk ∧ ¬ gp.isEventClock clk ∧ name = "callback_userloc_" ++ clk ∧
        f = ⟨[], [.assignBool clk true, .step, .assignBool clk false]⟩ := by
  rw [callbacksOfClock, callbackBranches_eq]
  split_ifs with hkernel hevent
  · simp only [List.mem_map, List.mem_filter, Bool.or_eq_true, Prod.mk.injEq, hkernel,
      not_true_eq_false, false_and, or_false]
    constructor
    · rintro ⟨b, ⟨⟨p, -, rfl⟩, hcov⟩, rfl, rfl⟩
      exact ⟨p, hcov, rfl, rfl⟩
    · rintro ⟨p, hcov, rfl, rfl⟩
      exact ⟨_, ⟨⟨p, mem_kernelClocks p, rfl⟩, hcov⟩, rfl, rfl⟩
  · have hnone : ∀ p, ¬ Covers clk p := fun p hcov => hkernel hcov.isKernelClock
    simp only [Bool.not_eq_true'] at hevent
    simp [hnone, hkernel, hevent]
  · have hnone : ∀ p, ¬ Covers clk p := fun p hcov => hkernel hcov.isKernelClock
    simp only [Bool.not_eq_true', Bool.not_eq_false] at hevent
    simp [hnone, hevent]

/-- The callback of a sample point is emitted for the clocks that stand for it, and makes
a step. -/
theorem mem_emittedCallbacks_point : (pointCallback p, f) ∈ emittedCallbacks gp mp ↔
    (∃ clk ∈ mp.clocks.toList, Covers clk p) ∧ f = ⟨[], [.step]⟩ := by
  rw [emittedCallbacks, List.mem_append, List.mem_flatMap]
  have hevent : (pointCallback p, f) ∉ (if (eventClockLabels gp mp).toList.isEmpty then []
      else [("callback_event_notified", eventFunc gp mp)]) := by
    split_ifs
    · simp
    · simp [pointCallback_ne_event]
  simp only [hevent, false_or, mem_callbacksOfClock, pointCallback_ne_userloc, false_and,
    and_false, or_false]
  constructor
  · rintro ⟨clk, hclk, q, hcov, heq, rfl⟩
    obtain rfl := pointCallback_inj heq
    exact ⟨⟨clk, hclk, hcov⟩, rfl⟩
  · rintro ⟨⟨clk, hclk, hcov⟩, rfl⟩
    exact ⟨clk, hclk, p, hcov, rfl, rfl⟩

/-- The callback of the events. -/
theorem mem_emittedCallbacks_event : ("callback_event_notified", f) ∈ emittedCallbacks gp mp ↔
    (eventClockLabels gp mp).toList ≠ [] ∧ f = eventFunc gp mp := by
  rw [emittedCallbacks, List.mem_append, List.mem_flatMap]
  have hclocks : ¬ ∃ clk ∈ mp.clocks.toList,
      ("callback_event_notified", f) ∈ callbacksOfClock gp clk := by
    rintro ⟨clk, -, hmem⟩
    rcases mem_callbacksOfClock.mp hmem with ⟨p, -, hname, -⟩ | ⟨-, -, hname, -⟩
    · exact pointCallback_ne_event p hname.symm
    · exact event_ne_userloc clk hname
  simp only [hclocks, or_false]
  cases (eventClockLabels gp mp).toList <;> simp

theorem mem_registerClock_sample {arg : String} : .sample arg ∈ registerClock gp clk ↔
    if strcaseEq clk "DEFAULT_CLOCK" then ∃ p, arg = clockName p
    else arg = clk ∧ ∃ p, strcaseEq clk (clockName p) := by
  rw [registerClock, List.mem_append]
  have hevent : .sample arg ∉ (if gp.isEventClock clk then
      [Registration.event (eventName gp clk)] else []) := by
    split_ifs <;> simp
  simp only [hevent, or_false]
  split_ifs with hdefault
  · simp [mem_kernelClocks, eq_comm (a := arg)]
  · simp [mem_kernelClocks, and_comm, eq_comm (a := arg)]

theorem mem_registerClock_event : .event expr ∈ registerClock gp clk ↔
    gp.isEventClock clk ∧ expr = eventName gp clk := by
  rw [registerClock, List.mem_append]
  split_ifs with hdefault hevent hevent <;> simp [hevent]

/-- The monitor is registered for the sample points that its clocks stand for. -/
theorem mem_registerWithObserver_sample :
    (∃ arg, .sample arg ∈ registerWithObserver gp mp ∧ strcaseEq arg (clockName p)) ↔
      ∃ clk ∈ mp.clocks.toList, Covers clk p := by
  simp only [registerWithObserver, List.mem_flatMap, mem_registerClock_sample]
  constructor
  · rintro ⟨arg, ⟨clk, hclk, hmem⟩, hname⟩
    refine ⟨clk, hclk, ?_⟩
    split_ifs at hmem with hdefault
    · exact .inr hdefault
    · rw [hmem.1] at hname
      exact .inl hname
  · rintro ⟨clk, hclk, hcov⟩
    by_cases hdefault : strcaseEq clk "DEFAULT_CLOCK"
    · exact ⟨clockName p, ⟨clk, hclk, by rw [if_pos hdefault]; exact ⟨p, rfl⟩⟩,
        strcaseEq_self _⟩
    · have hname := hcov.resolve_right hdefault
      exact ⟨clk, ⟨clk, hclk, by rw [if_neg hdefault]; exact ⟨rfl, p, hname⟩⟩, hname⟩

theorem mem_eventClockLabels :
    clk ∈ (eventClockLabels gp mp).toList ↔ clk ∈ mp.clocks.toList ∧ gp.isEventClock clk :=
  List.mem_filter

/-- The monitor is registered for the events of its event clock labels. -/
theorem mem_registerWithObserver_event : .event expr ∈ registerWithObserver gp mp ↔
    ∃ label ∈ (eventClockLabels gp mp).toList, eventName gp label = expr := by
  simp only [registerWithObserver, List.mem_flatMap, mem_registerClock_event,
    mem_eventClockLabels, and_assoc, eq_comm (a := expr)]

/-- The events that the callback compares with. -/
theorem mem_eventFunc_ifEvent :
    (∃ name b, .ifEvent expr name b ∈ (eventFunc gp mp).body) ↔
      ∃ label ∈ (eventClockLabels gp mp).toList, eventName gp label = expr := by
  simp only [eventFunc, List.mem_append, List.mem_map, List.mem_singleton, reduceCtorEq,
    or_false, Action.ifEvent.injEq]
  constructor
  · rintro ⟨name, b, ⟨label, hlabel, heq, -⟩ | ⟨label, hlabel, heq, -⟩⟩
    · exact ⟨label, hlabel, heq⟩
    · exact ⟨label, hlabel, heq⟩
  · rintro ⟨label, hlabel, heq⟩
    exact ⟨label, true, .inl ⟨label, hlabel, heq, rfl, rfl⟩⟩

theorem count_step_eventFunc : (eventFunc gp mp).body.count .step = 1 := by
  have hzero : ∀ b, List.count Action.step ((eventClockLabels gp mp).toList.map fun label =>
      .ifEvent (eventName gp label) label b) = 0 := by
    intro b
    rw [List.count_eq_zero]
    simp
  rw [eventFunc, List.count_append, List.count_append, hzero, hzero]
  rfl

end Sets

/-! ## The registered monitor -/

section Run
variable {M E : Type} {getId : M → MonId}

/-- The calls of a registration statement. Case apart, a written sample point is the
enumerator. -/
def Registration.calls (m : M) (addr : String → E) : Registration → List (Kernel.Call M E)
  | sample arg =>
      (kernelClocks.filter fun p => strcaseEq arg (clockName p)).map (.registerMonitor m)
  | event expr => [.registerEvent m (addr expr)]

variable (gp : GlobalParams) (mp : MonitorParams)

/-- The calls of the constructor. -/
def registrations (m : M) (addr : String → E) : List (Kernel.Call M E) :=
  (registerWithObserver gp mp).flatMap (Registration.calls m addr)

/-- The steps of a callback. What the class does not define is empty in its base class. -/
def stepsOf (cb : Callback E) : ℕ :=
  match (emittedCallbacks gp mp).find? fun f => f.1 = callbackName cb with
  | some f => f.2.body.count .step
  | none => 0

/-- The steps of a monitor that the callbacks of a notification cause. -/
def stepsCaused [DecidableEq M] (m : M) (out : List (M × Callback E)) : ℕ :=
  ((out.filter fun c => c.1 = m).map fun c => stepsOf gp mp c.2).sum

/-- The monitor is registered for a sample point. -/
def registersPoint (p : SamplePoint) : Bool :=
  (registerWithObserver gp mp).any fun
    | .sample arg => strcaseEq arg (clockName p)
    | .event _ => false

/-- The monitor is registered for an event. -/
def registersEvent [DecidableEq E] (addr : String → E) (e : E) : Bool :=
  (registerWithObserver gp mp).any fun
    | .sample _ => false
    | .event expr => addr expr = e

/-- No call registers a monitor. -/
def Fresh (m : M) (calls : List (Kernel.Call M E)) : Prop :=
  ∀ c ∈ calls, (∀ p, c ≠ .registerMonitor m p) ∧ ∀ e, c ≠ .registerEvent m e

end Run

section RunProofs
variable {M E : Type} {getId : M → MonId} {gp : GlobalParams} {mp : MonitorParams}
variable {m : M} {addr : String → E} {p : SamplePoint} {e : E}
variable {before after : List (Kernel.Call M E)} {w : World E getId}

theorem registersPoint_iff : registersPoint gp mp p ↔
    ∃ arg, .sample arg ∈ registerWithObserver gp mp ∧ strcaseEq arg (clockName p) := by
  rw [registersPoint, List.any_eq_true]
  constructor
  · rintro ⟨r, hr, h⟩
    cases r with
    | sample arg => exact ⟨arg, hr, h⟩
    | event expr => cases h
  · rintro ⟨arg, hmem, h⟩
    exact ⟨_, hmem, h⟩

theorem registersEvent_iff [DecidableEq E] : registersEvent gp mp addr e ↔
    ∃ expr, .event expr ∈ registerWithObserver gp mp ∧ addr expr = e := by
  rw [registersEvent, List.any_eq_true]
  constructor
  · rintro ⟨r, hr, h⟩
    cases r with
    | sample arg => cases h
    | event expr => exact ⟨expr, hr, of_decide_eq_true h⟩
  · rintro ⟨expr, hmem, h⟩
    exact ⟨_, hmem, decide_eq_true h⟩

theorem registerMonitor_mem_registrations :
    .registerMonitor m p ∈ registrations gp mp m addr ↔ registersPoint gp mp p := by
  rw [registersPoint_iff, registrations, List.mem_flatMap]
  constructor
  · rintro ⟨r, hr, hmem⟩
    cases r with
    | sample arg =>
        obtain ⟨q, hq, heq⟩ := List.mem_map.mp hmem
        obtain rfl : q = p := by injection heq
        exact ⟨arg, hr, (List.mem_filter.mp hq).2⟩
    | event expr => simp [Registration.calls] at hmem
  · rintro ⟨arg, hmem, h⟩
    exact ⟨_, hmem, List.mem_map_of_mem (List.mem_filter.mpr ⟨mem_kernelClocks p, h⟩)⟩

theorem registerEvent_mem_registrations [DecidableEq E] :
    .registerEvent m e ∈ registrations gp mp m addr ↔ registersEvent gp mp addr e := by
  rw [registersEvent_iff, registrations, List.mem_flatMap]
  constructor
  · rintro ⟨r, hr, hmem⟩
    cases r with
    | sample arg => simp [Registration.calls] at hmem
    | event expr =>
        obtain rfl : e = addr expr := by simpa [Registration.calls] using hmem
        exact ⟨expr, hr, rfl⟩
  · rintro ⟨expr, hmem, rfl⟩
    exact ⟨_, hmem, List.mem_singleton.mpr rfl⟩

theorem Fresh.not_mem_point {calls : List (Kernel.Call M E)} (h : Fresh m calls) :
    .registerMonitor m p ∉ calls := fun hmem => (h _ hmem).1 p rfl

theorem Fresh.not_mem_event {calls : List (Kernel.Call M E)} (h : Fresh m calls) :
    .registerEvent m e ∉ calls := fun hmem => (h _ hmem).2 e rfl

theorem callbackName_callback (p : SamplePoint) :
    callbackName (p.callback : Callback E) = pointCallback p := by
  cases p <;> rfl

/-- The callback of a sample point with a registration makes one step. -/
theorem stepsOf_point (h : registersPoint gp mp p) :
    stepsOf gp mp (p.callback : Callback E) = 1 := by
  rw [registersPoint_iff, mem_registerWithObserver_sample] at h
  rw [stepsOf, callbackName_callback]
  cases hfind : (emittedCallbacks gp mp).find? fun f => f.1 = pointCallback p with
  | none =>
      have hnone := List.find?_eq_none.mp hfind _ (mem_emittedCallbacks_point.mpr ⟨h, rfl⟩)
      simp at hnone
  | some f =>
      obtain ⟨name, f⟩ := f
      obtain rfl : name = pointCallback p := by simpa using List.find?_some hfind
      obtain ⟨-, rfl⟩ := mem_emittedCallbacks_point.mp (List.mem_of_find?_eq_some hfind)
      rfl

/-- The callback of a registered event makes one step. -/
theorem stepsOf_event [DecidableEq E] (h : registersEvent gp mp addr e) :
    stepsOf gp mp (.eventNotified e) = 1 := by
  rw [registersEvent_iff] at h
  obtain ⟨expr, hmem, -⟩ := h
  obtain ⟨label, hlabel, -⟩ := mem_registerWithObserver_event.mp hmem
  rw [stepsOf, callbackName]
  cases hfind : (emittedCallbacks gp mp).find? fun f => f.1 = "callback_event_notified" with
  | none =>
      have hnone := List.find?_eq_none.mp hfind _
        (mem_emittedCallbacks_event.mpr ⟨List.ne_nil_of_mem hlabel, rfl⟩)
      simp at hnone
  | some f =>
      obtain ⟨name, f⟩ := f
      obtain rfl : name = "callback_event_notified" := by simpa using List.find?_some hfind
      obtain ⟨-, rfl⟩ := mem_emittedCallbacks_event.mp (List.mem_of_find?_eq_some hfind)
      exact count_step_eventFunc

variable [DecidableEq M]

/-- The steps that one callback of a set of monitors causes. -/
theorem stepsCaused_map {ms : List M} (hms : ms.Nodup) (cb : Callback E) :
    stepsCaused gp mp m (ms.map fun m => (m, cb)) =
      if m ∈ ms then stepsOf gp mp cb else 0 := by
  have hfilter : ((ms.map fun m => (m, cb)).filter fun c => c.1 = m)
      = (ms.filter fun m' => m' = m).map fun m => (m, cb) := by
    rw [List.filter_map]
    rfl
  rw [stepsCaused, hfilter, List.filter_eq]
  split_ifs with hm
  · simp [List.count_eq_one_of_mem hms hm]
  · simp [List.count_eq_zero_of_not_mem hm]

theorem stepsCaused_append (out out' : List (M × Callback E)) :
    stepsCaused gp mp m (out ++ out') =
      stepsCaused gp mp m out + stepsCaused gp mp m out' := by
  simp [stepsCaused]

/-- The steps that a notification causes. -/
theorem stepsCaused_notify (hid : Function.Injective getId)
    (hpoints : ∀ p, m ∈ (w.observer.arrMonSets p).toList ↔ registersPoint gp mp p)
    (n : Notification) :
    stepsCaused gp mp m (w.observer.notify n) = n.points.countP (registersPoint gp mp) := by
  rw [Observer.notify_eq]
  induction n.points with
  | nil => rfl
  | cons p ps ih =>
      rw [List.flatMap_cons, stepsCaused_append, ih, Observer.dispatch_eq hid,
        stepsCaused_map (w.observer.arrMonSets p).nodup, List.countP_cons, Nat.add_comm]
      by_cases hp : registersPoint gp mp p
      · simp [hpoints, hp, stepsOf_point hp]
      · simp [hpoints, hp]

variable [DecidableEq E]

/-- The registrations of a monitor after its constructor has run. -/
theorem mem_sets_iff (hid : Function.Injective getId) (hbefore : Fresh m before)
    (hafter : Fresh m after) {outs : List (List (M × Callback E))}
    (hrun : Pscv.Lib.run World.step (before ++ registrations gp mp m addr ++ after)
      (World.new : World E getId) = some (outs, w)) :
    (∀ p, m ∈ (w.observer.arrMonSets p).toList ↔ registersPoint gp mp p) ∧
      ∀ e out, w.trigger e = some out →
        stepsCaused gp mp m out = if registersEvent gp mp addr e then 1 else 0 := by
  obtain ⟨I, -⟩ := World.inv_of_run hid hrun
  refine ⟨fun p => ?_, fun e out hout => ?_⟩
  · rw [I.points, List.mem_append, List.mem_append, registerMonitor_mem_registrations]
    simp [hbefore.not_mem_point, hafter.not_mem_point]
  · obtain ⟨out', hout', ms, rfl, hsorted, hmem⟩ := I.trigger e
    obtain rfl := Option.some.inj (hout.symm.trans hout')
    have hnodup : ms.Nodup := hsorted.imp fun h heq => (heq ▸ h).false
    have hmem : m ∈ ms ↔ registersEvent gp mp addr e := by
      refine (hmem m).trans ?_
      simp [registerEvent_mem_registrations, hbefore.not_mem_event, hafter.not_mem_event]
    rw [stepsCaused_map hnodup]
    by_cases he : registersEvent gp mp addr e
    · rw [if_pos (hmem.mpr he), if_pos he, stepsOf_event he]
    · rw [if_neg (mt hmem.mp he), if_neg he]

end RunProofs

section Results
variable {M E : Type} [DecidableEq M] [DecidableEq E] {getId : M → MonId}

/-- **Registration and callbacks agree.** The sample points of the registrations are
those whose callbacks are emitted, with one step each; the events are those that the
event callback compares with, which is emitted when there is one and makes one step. So
in every state after the constructor a notification causes one step for each of its
sample points that the monitor is registered for, and an event causes one exactly when
the monitor is registered for it. -/
theorem registration_agrees (gp : GlobalParams) (mp : MonitorParams) (m : M)
    (addr : String → E)
    (hid : Function.Injective getId) :
    (∀ p, (∃ arg, .sample arg ∈ registerWithObserver gp mp ∧ strcaseEq arg (clockName p)) ↔
      ∃ f, (pointCallback p, f) ∈ emittedCallbacks gp mp ∧ .step ∈ f.body) ∧
    (∀ p f, (pointCallback p, f) ∈ emittedCallbacks gp mp → f.body.count .step = 1) ∧
    (∀ expr, .event expr ∈ registerWithObserver gp mp ↔
      ∃ f, ("callback_event_notified", f) ∈ emittedCallbacks gp mp ∧
        ∃ name b, .ifEvent expr name b ∈ f.body) ∧
    ((∃ f, ("callback_event_notified", f) ∈ emittedCallbacks gp mp) ↔
      ∃ expr, .event expr ∈ registerWithObserver gp mp) ∧
    (∀ f, ("callback_event_notified", f) ∈ emittedCallbacks gp mp → f.body.count .step = 1) ∧
    ∀ before after outs (w : World E getId), Fresh m before → Fresh m after →
      Pscv.Lib.run World.step (before ++ registrations gp mp m addr ++ after) World.new
        = some (outs, w) →
      (∀ n, stepsCaused gp mp m (w.observer.notify n) = n.points.countP
        (registersPoint gp mp)) ∧
      ∀ e out, w.trigger e = some out →
        stepsCaused gp mp m out = if registersEvent gp mp addr e then 1 else 0 := by
  refine ⟨fun p => ?_, fun p f hf => ?_, fun expr => ?_, ?_, fun f hf => ?_, ?_⟩
  · rw [mem_registerWithObserver_sample]
    constructor
    · exact fun h => ⟨_, mem_emittedCallbacks_point.mpr ⟨h, rfl⟩, by simp⟩
    · rintro ⟨f, hf, -⟩
      exact (mem_emittedCallbacks_point.mp hf).1
  · rw [(mem_emittedCallbacks_point.mp hf).2]
    rfl
  · rw [mem_registerWithObserver_event, ← mem_eventFunc_ifEvent]
    constructor
    · intro h
      obtain ⟨label, hlabel, -⟩ := mem_eventFunc_ifEvent.mp h
      exact ⟨_, mem_emittedCallbacks_event.mpr ⟨List.ne_nil_of_mem hlabel, rfl⟩, h⟩
    · rintro ⟨f, hf, h⟩
      obtain ⟨-, rfl⟩ := mem_emittedCallbacks_event.mp hf
      exact h
  · constructor
    · rintro ⟨f, hf⟩
      obtain ⟨label, hlabel⟩ :=
        List.exists_mem_of_ne_nil _ (mem_emittedCallbacks_event.mp hf).1
      exact ⟨_, mem_registerWithObserver_event.mpr ⟨label, hlabel, rfl⟩⟩
    · rintro ⟨expr, h⟩
      obtain ⟨label, hlabel, -⟩ := mem_registerWithObserver_event.mp h
      exact ⟨_, mem_emittedCallbacks_event.mpr ⟨List.ne_nil_of_mem hlabel, rfl⟩⟩
  · rw [(mem_emittedCallbacks_event.mp hf).2]
    exact count_step_eventFunc
  · intro before after outs w hbefore hafter hrun
    obtain ⟨hpoints, htrigger⟩ := mem_sets_iff hid hbefore hafter hrun
    exact ⟨stepsCaused_notify hid hpoints, htrigger⟩

/-- A monitor with a kernel clock, an event and a location. -/
theorem registration_agrees_suspend : ∃ outs,
    ∃ w : World String (fun _ : Unit => (0 : MonId)),
      Pscv.Lib.run World.step ([] ++ registrations (oneEach "n") oneEachMonitor () id ++ [])
        World.new = some (outs, w) ∧
      stepsCaused (oneEach "n") oneEachMonitor () (w.observer.notify .methodSuspend) = 1 ∧
      stepsCaused (oneEach "n") oneEachMonitor () (w.observer.notify .threadSuspend) = 0 := by
  refine ⟨_, _, rfl, ?_⟩
  have hagree := registration_agrees (oneEach "n") oneEachMonitor () (id : String → String)
    (Function.injective_of_subsingleton (fun _ : Unit => (0 : MonId)))
  obtain ⟨-, -, -, -, -, hsteps⟩ := hagree
  obtain ⟨hnotify, -⟩ := hsteps [] [] _ _ nofun nofun rfl
  exact ⟨hnotify .methodSuspend, hnotify .threadSuspend⟩

end Results

/-! ## One definition of each callback -/

section Once
variable {gp : GlobalParams} {mp : MonitorParams}

/-- Every clock that is a kernel clock but for case is spelled as the enumerator, and the
default clock is not combined with other kernel clocks, nor with itself in another
spelling. -/
structure SpelledOnce (mp : MonitorParams) : Prop where
  literal : ∀ clk ∈ mp.clocks.toList, ∀ p, strcaseEq clk (clockName p) → clk = clockName p
  alone : ∀ d ∈ mp.clocks.toList, strcaseEq d "DEFAULT_CLOCK" →
    ∀ clk ∈ mp.clocks.toList, isKernelClock clk → clk = d

/-- The names of the callbacks for one clock. -/
theorem mem_names {clk name : String} :
    name ∈ (callbacksOfClock gp clk).map Prod.fst ↔
      (∃ p, Covers clk p ∧ name = pointCallback p) ∨
        ¬ isKernelClock clk ∧ ¬ gp.isEventClock clk ∧ name = "callback_userloc_" ++ clk := by
  simp only [List.mem_map, Prod.exists, exists_and_right, exists_eq_right,
    mem_callbacksOfClock]
  constructor
  · rintro ⟨f, ⟨p, hcov, hname, -⟩ | ⟨hkernel, hevent, hname, -⟩⟩
    · exact .inl ⟨p, hcov, hname⟩
    · exact .inr ⟨hkernel, hevent, hname⟩
  · rintro (⟨p, hcov, hname⟩ | ⟨hkernel, hevent, hname⟩)
    · exact ⟨_, .inl ⟨p, hcov, hname, rfl⟩⟩
    · exact ⟨_, .inr ⟨hkernel, hevent, hname, rfl⟩⟩

theorem nodup_callbacksOfClock (clk : String) :
    ((callbacksOfClock gp clk).map Prod.fst).Nodup := by
  rw [callbacksOfClock, callbackBranches_eq]
  split_ifs
  · rw [List.map_map, List.filter_map, List.map_map]
    exact (kernelClocks_nodup.filter _).map fun p q h => pointCallback_inj h
  · simp
  · simp

/-- Two clocks have a callback in common exactly when they stand for one sample point. -/
theorem disjoint_names_iff {clk clk' : String} (hne : clk ≠ clk') :
    List.Disjoint ((callbacksOfClock gp clk).map Prod.fst)
        ((callbacksOfClock gp clk').map Prod.fst) ↔
      ¬ ∃ p, Covers clk p ∧ Covers clk' p := by
  rw [List.Disjoint]
  simp only [mem_names]
  constructor
  · rintro hdisj ⟨p, hcov, hcov'⟩
    exact hdisj (.inl ⟨p, hcov, rfl⟩) (.inl ⟨p, hcov', rfl⟩)
  · rintro hnone name (⟨p, hcov, rfl⟩ | ⟨-, -, rfl⟩) (⟨q, hcov', hname⟩ | ⟨-, -, hname⟩)
    · obtain rfl := pointCallback_inj hname
      exact hnone ⟨p, hcov, hcov'⟩
    · exact pointCallback_ne_userloc p clk' hname
    · exact pointCallback_ne_userloc q clk hname.symm
    · exact hne (String.append_right_inj "callback_userloc_" |>.mp hname)

/-- The names of the emitted callbacks are distinct exactly when no two clocks stand for
one sample point. -/
theorem nodup_emittedCallbacks_iff : ((emittedCallbacks gp mp).map Prod.fst).Nodup ↔
    ∀ clk ∈ mp.clocks.toList, ∀ clk' ∈ mp.clocks.toList, clk ≠ clk' →
      ¬ ∃ p, Covers clk p ∧ Covers clk' p := by
  have hevent : ∀ clk, "callback_event_notified" ∉ (callbacksOfClock gp clk).map Prod.fst := by
    intro clk hmem
    rcases mem_names.mp hmem with ⟨p, -, hname⟩ | ⟨-, -, hname⟩
    · exact pointCallback_ne_event p hname.symm
    · exact event_ne_userloc clk hname
  have hclocks : ((mp.clocks.toList.flatMap (callbacksOfClock gp)).map Prod.fst).Nodup ↔
      ∀ clk ∈ mp.clocks.toList, ∀ clk' ∈ mp.clocks.toList, clk ≠ clk' →
        ¬ ∃ p, Covers clk p ∧ Covers clk' p := by
    rw [List.map_flatMap, List.nodup_flatMap]
    constructor
    · rintro ⟨-, hpair⟩ clk hclk clk' hclk' hne
      have hsymm : Std.Symm (Function.onFun List.Disjoint
          fun clk => (callbacksOfClock gp clk).map Prod.fst) := ⟨fun _ _ h => h.symm⟩
      exact (disjoint_names_iff hne).mp (hpair.forall hclk hclk' hne)
    · refine fun h => ⟨fun clk _ => nodup_callbacksOfClock clk, ?_⟩
      refine mp.clocks.nodup.pairwise_of_forall_ne fun clk hclk clk' hclk' hne => ?_
      exact (disjoint_names_iff hne).mpr (h clk hclk clk' hclk' hne)
  rw [emittedCallbacks, List.map_append, List.nodup_append', hclocks]
  have hfirst : ((if (eventClockLabels gp mp).toList.isEmpty then []
      else [("callback_event_notified", eventFunc gp mp)]).map Prod.fst).Nodup := by
    split_ifs <;> simp
  constructor
  · exact fun h => h.2.1
  · intro h
    refine ⟨hfirst, h, fun name hname hmem => ?_⟩
    have hname : name = "callback_event_notified" := by
      split_ifs at hname <;> simp at hname
      exact hname
    rw [List.map_flatMap, List.mem_flatMap] at hmem
    obtain ⟨clk, -, hmem⟩ := hmem
    exact hevent clk (hname ▸ hmem)

/-- Two clocks that are not the default clock stand for one sample point exactly when
they are the same but for case. -/
theorem SpelledOnce.disjoint (h : SpelledOnce mp) {clk clk' : String}
    (hclk : clk ∈ mp.clocks.toList) (hclk' : clk' ∈ mp.clocks.toList) (hne : clk ≠ clk')
    {p : SamplePoint} (hcov : Covers clk p) (hcov' : Covers clk' p) : False := by
  rcases hcov with hp | hdefault
  · rcases hcov' with hp' | hdefault'
    · exact hne ((h.literal clk hclk p hp).trans (h.literal clk' hclk' p hp').symm)
    · exact hne (h.alone clk' hclk' hdefault' clk hclk (Covers.isKernelClock (.inl hp)))
  · exact hne (h.alone clk hclk hdefault clk' hclk' hcov'.isKernelClock).symm

/-- **Every callback is defined at most once, and every written sample point is an
enumerator, exactly when the clocks are spelled once.** -/
theorem callbacks_defined_once_iff (gp : GlobalParams) (mp : MonitorParams) :
    ((emittedCallbacks gp mp).map Prod.fst).Nodup ∧
      (∀ arg, .sample arg ∈ registerWithObserver gp mp → ∃ p, arg = clockName p) ↔
    SpelledOnce mp := by
  rw [nodup_emittedCallbacks_iff]
  constructor
  · rintro ⟨hdisj, henum⟩
    refine ⟨fun clk hclk p hp => ?_, fun d hd hdefault clk hclk hkernel => ?_⟩
    · by_cases hdefault : strcaseEq clk "DEFAULT_CLOCK"
      · have hcontra := strcaseEq_trans hdefault hp
        rw [not_strcaseEq_default] at hcontra
        cases hcontra
      · have hmem : .sample clk ∈ registerWithObserver gp mp := by
          refine List.mem_flatMap.mpr ⟨clk, hclk, mem_registerClock_sample.mpr ?_⟩
          rw [if_neg hdefault]
          exact ⟨rfl, p, hp⟩
        obtain ⟨q, rfl⟩ := henum clk hmem
        rw [clockName_inj hp]
    · by_contra hne
      rw [isKernelClock_iff] at hkernel
      have hpoint : ∃ p, Covers clk p := by
        rcases hkernel with hdefault' | ⟨p, hp⟩
        · exact ⟨.initPhaseBegin, .inr hdefault'⟩
        · exact ⟨p, .inl hp⟩
      obtain ⟨p, hcov⟩ := hpoint
      exact hdisj clk hclk d hd hne ⟨p, hcov, .inr hdefault⟩
  · intro h
    refine ⟨fun clk hclk clk' hclk' hne ⟨p, hcov, hcov'⟩ =>
      h.disjoint hclk hclk' hne hcov hcov', fun arg hmem => ?_⟩
    obtain ⟨clk, hclk, hmem⟩ := List.mem_flatMap.mp hmem
    rw [mem_registerClock_sample] at hmem
    split_ifs at hmem
    · exact hmem
    · obtain ⟨rfl, p, hp⟩ := hmem
      exact ⟨p, h.literal arg hclk p hp⟩

/-- The default clock, and a kernel clock. -/
def defaultAndSuspend : MonitorParams :=
  ⟨0, ⟨["DEFAULT_CLOCK", "MON_METHOD_SUSPEND"], by decide⟩⟩

/-- The class then defines `callback_method_suspend` twice. -/
theorem defaultAndSuspend_defines_twice :
    ((emittedCallbacks (oneEach "n") defaultAndSuspend).map Prod.fst).count
        "callback_method_suspend" = 2 ∧
      ¬ ((emittedCallbacks (oneEach "n") defaultAndSuspend).map Prod.fst).Nodup := by
  have hcount : ((emittedCallbacks (oneEach "n") defaultAndSuspend).map Prod.fst).count
      "callback_method_suspend" = 2 := by decide +kernel
  refine ⟨hcount, fun hnodup => ?_⟩
  have hle := List.nodup_iff_count_le_one.mp hnodup "callback_method_suspend"
  omega

end Once

/-! ## One registration for each event -/

section Events
variable {M E : Type} {getId : M → MonId} {gp : GlobalParams} {mp : MonitorParams} {m : M}
variable {addr : String → E} {before : List (Kernel.Call M E)} {w : World E getId}

theorem eventRegistrations_sample (m : M) (addr : String → E) (args : List String) :
    World.eventRegistrations ((args.map .sample).flatMap (Registration.calls m addr)) =
      [] := by
  rw [World.eventRegistrations, List.filterMap_eq_nil_iff]
  intro c hc
  obtain ⟨r, hr, hc⟩ := List.mem_flatMap.mp hc
  obtain ⟨arg, -, rfl⟩ := List.mem_map.mp hr
  obtain ⟨p, -, rfl⟩ := List.mem_map.mp hc
  rfl

/-- The event registration for one clock. -/
theorem eventRegistrations_clock (gp : GlobalParams) (m : M) (addr : String → E)
    (clk : String) :
    World.eventRegistrations ((registerClock gp clk).flatMap (Registration.calls m addr))
      = if gp.isEventClock clk then [(m, addr (eventName gp clk))] else [] := by
  have hsamples : ∃ args : List String, (if strcaseEq clk "DEFAULT_CLOCK" then
      kernelClocks.map fun p => Registration.sample (clockName p)
      else (kernelClocks.filter fun p => strcaseEq clk (clockName p)).map fun _ => .sample clk)
        = args.map .sample := by
    split_ifs
    · exact ⟨kernelClocks.map clockName, by rw [List.map_map]; rfl⟩
    · exact ⟨(kernelClocks.filter fun p => strcaseEq clk (clockName p)).map fun _ => clk,
        by rw [List.map_map]; rfl⟩
  obtain ⟨args, hargs⟩ := hsamples
  have hnil := eventRegistrations_sample m addr args
  rw [World.eventRegistrations] at hnil
  rw [registerClock, hargs, List.flatMap_append, World.eventRegistrations,
    List.filterMap_append, hnil, List.nil_append]
  split_ifs <;> rfl

/-- The event registrations of the constructor, one for each label. -/
theorem eventRegistrations_registrations (gp : GlobalParams) (mp : MonitorParams) (m : M)
    (addr : String → E) : World.eventRegistrations (registrations gp mp m addr)
      = (eventClockLabels gp mp).toList.map fun label => (m, addr (eventName gp label)) := by
  have hclocks : ∀ clks : List String, World.eventRegistrations
      ((clks.flatMap (registerClock gp)).flatMap (Registration.calls m addr))
        = (clks.filter gp.isEventClock).map fun label => (m, addr (eventName gp label)) := by
    intro clks
    induction clks with
    | nil => rfl
    | cons clk clks ih =>
        have hclk := eventRegistrations_clock gp m addr clk
        rw [World.eventRegistrations] at ih hclk ⊢
        rw [List.flatMap_cons, List.flatMap_append, List.filterMap_append, ih, hclk,
          List.filter_cons]
        split_ifs <;> rfl
  exact hclocks mp.clocks.toList

/-- **The constructor registers every event once exactly when its event clock labels
stand for different events**; otherwise an assertion of `register_monitor` fails. -/
theorem registration_succeeds_iff [DecidableEq E] (hid : Function.Injective getId)
    {outs : List (List (M × Callback E))}
    (hrun : Pscv.Lib.run World.step before (World.new : World E getId) = some (outs, w))
    (hbefore : Fresh m before) :
    (Pscv.Lib.run World.step (registrations gp mp m addr) w).isSome ↔
      ∀ a ∈ (eventClockLabels gp mp).toList, ∀ b ∈ (eventClockLabels gp mp).toList,
        addr (eventName gp a) = addr (eventName gp b) → a = b := by
  obtain ⟨I, hnodup⟩ := World.inv_of_run hid hrun
  rw [I.run_isSome_iff hid hnodup]
  have happend : World.eventRegistrations (before ++ registrations gp mp m addr)
      = World.eventRegistrations before ++
        (eventClockLabels gp mp).toList.map fun label => (m, addr (eventName gp label)) := by
    rw [← eventRegistrations_registrations, World.eventRegistrations, List.filterMap_append]
    rfl
  rw [happend, List.nodup_append']
  have hinj : ((eventClockLabels gp mp).toList.map fun label =>
      (m, addr (eventName gp label))).Nodup ↔
        ∀ a ∈ (eventClockLabels gp mp).toList, ∀ b ∈ (eventClockLabels gp mp).toList,
          addr (eventName gp a) = addr (eventName gp b) → a = b := by
    rw [List.nodup_map_iff_inj_on (eventClockLabels gp mp).nodup]
    simp
  have hdisj : List.Disjoint (World.eventRegistrations before)
      ((eventClockLabels gp mp).toList.map fun label => (m, addr (eventName gp label))) := by
    intro q hq hq'
    obtain ⟨label, -, rfl⟩ := List.mem_map.mp hq'
    exact hbefore.not_mem_event (World.mem_eventRegistrations.mp hq)
  rw [hinj]
  exact ⟨fun h => h.2.1, fun h => ⟨hnodup, h, hdisj⟩⟩

/-- One label for one event. -/
theorem registration_succeeds_iff_one :
    (Pscv.Lib.run World.step (registrations (oneEach "n") oneEachMonitor () id)
      (World.new : World String fun _ : Unit => (0 : MonId))).isSome := by
  have hrun : Pscv.Lib.run World.step [] (World.new : World String fun _ : Unit => (0 : MonId))
      = some ([], World.new) := rfl
  exact (registration_succeeds_iff (Function.injective_of_subsingleton _) hrun nofun).mpr
    (by decide)

/-- Two labels for one event. -/
def twoLabels : GlobalParams :=
  { oneEach "n" with
    eventclocklabels := ⟨[("a", "obj->ev.notified"), ("b", "obj->ev.notified")], by decide⟩ }

/-- Where both are clocks, the constructor fails. -/
theorem twoLabels_fails :
    (Pscv.Lib.run World.step (registrations twoLabels ⟨0, ⟨["a", "b"], by decide⟩⟩ () id)
      (World.new : World String fun _ : Unit => (0 : MonId))).isSome = false := by
  decide +kernel

end Events
end Pscv.Mag
