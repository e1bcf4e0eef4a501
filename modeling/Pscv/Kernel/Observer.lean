import Mathlib.Algebra.Group.Nat.Defs
import Pscv.Lib.KeyedSet
import Pscv.Lib.Machine

/-!
# `mon_observer`: registration and dispatch

The observer keeps a set of monitors for each sample point and for each observed
event, ordered by monitor id, and an event keeps a pointer to the observer once a
monitor is registered for it. The notification functions are one dispatch each, with
their own sample point and callback; two of them are chained.

Monitors and events are any types. A monitor's id is the number of monitors created
before it, counted in an `int`.

## Main results

* `World.inv_run` — the sets hold exactly the registered monitors, in every run.
* `World.notifications_exact`.
-/

namespace Pscv.Kernel

open Pscv.Lib

/-- `sample_point`. -/
inductive SamplePoint
  | initPhaseBegin | initPhaseEnd
  | initUpdatePhaseBegin | initUpdatePhaseEnd
  | initDeltaNotifyPhaseBegin | initDeltaNotifyPhaseEnd
  | deltaCycleBegin | deltaCycleEnd
  | evaluationPhaseBegin | evaluationPhaseEnd
  | updatePhaseBegin | updatePhaseEnd
  | deltaNotifyPhaseBegin | deltaNotifyPhaseEnd
  | timedNotifyPhaseBegin | timedNotifyPhaseEnd
  | methodSuspend | threadSuspend
  deriving DecidableEq

/-- The callbacks of `mon_prototype`. -/
inductive Callback (E : Type*)
  | initPhaseBegin | initPhaseEnd
  | initUpdatePhaseBegin | initUpdatePhaseEnd
  | initDeltaNotifyPhaseBegin | initDeltaNotifyPhaseEnd
  | deltaCycleBegin | deltaCycleEnd
  | evaluationPhaseBegin | evaluationPhaseEnd
  | updatePhaseBegin | updatePhaseEnd
  | deltaNotifyPhaseBegin | deltaNotifyPhaseEnd
  | timedNotifyPhaseBegin | timedNotifyPhaseEnd
  | methodSuspend | threadSuspend
  | eventNotified (e : E)
  deriving DecidableEq

/-- The id of a monitor: the value of a non-negative `int`. -/
abbrev MonId := Fin (2 ^ 31)

variable {M E : Type*} {getId : M → MonId}

/-- `monitor_set`. -/
abbrev MonitorSet (getId : M → MonId) := KeyedSet getId

/-- The registrations of a `mon_observer`. A null entry of the event map is none. -/
structure Observer (E : Type*) (getId : M → MonId) where
  arrMonSets : SamplePoint → MonitorSet getId
  eventsToMonitorSets : E → Option (MonitorSet getId)

namespace Observer

/-- The constructor. -/
def new : Observer E getId := ⟨fun _ => .empty, fun _ => none⟩

/-- One notification function: call back the monitors of a sample point. The number of
monitors is read into an `unsigned int`. -/
def dispatch (p : SamplePoint) (cb : Callback E) (o : Observer E getId) :
    List (M × Callback E) :=
  if 0 < (o.arrMonSets p).toList.length % 2 ^ 32 then (o.arrMonSets p).toList.map fun m =>
    (m, cb)
  else []

section Functions
variable (o : Observer E getId)

def initBegin := o.dispatch .initPhaseBegin .initPhaseBegin
def initUpdateBegin := o.dispatch .initUpdatePhaseBegin .initUpdatePhaseBegin
def initUpdateEnd := o.dispatch .initUpdatePhaseEnd .initUpdatePhaseEnd
def initDeltaNotificationBegin :=
  o.dispatch .initDeltaNotifyPhaseBegin .initDeltaNotifyPhaseBegin
def initDeltaNotificationEnd := o.dispatch .initDeltaNotifyPhaseEnd .initDeltaNotifyPhaseEnd
def initEnd := o.dispatch .initPhaseEnd .initPhaseEnd
def deltaCycleBegin := o.dispatch .deltaCycleBegin .deltaCycleBegin
def deltaCycleEnd := o.dispatch .deltaCycleEnd .deltaCycleEnd
/-- A new evaluation phase also starts a new delta cycle. -/
def evaluateBegin :=
  o.deltaCycleBegin ++ o.dispatch .evaluationPhaseBegin .evaluationPhaseBegin
def evaluateEnd := o.dispatch .evaluationPhaseEnd .evaluationPhaseEnd
def updateBegin := o.dispatch .updatePhaseBegin .updatePhaseBegin
def updateEnd := o.dispatch .updatePhaseEnd .updatePhaseEnd
def deltanotifyBegin := o.dispatch .deltaNotifyPhaseBegin .deltaNotifyPhaseBegin
/-- Each delta notification phase ends the current delta cycle. -/
def deltanotifyEnd :=
  o.dispatch .deltaNotifyPhaseEnd .deltaNotifyPhaseEnd ++ o.deltaCycleEnd
def timednotifyBegin := o.dispatch .timedNotifyPhaseBegin .timedNotifyPhaseBegin
def timednotifyEnd := o.dispatch .timedNotifyPhaseEnd .timedNotifyPhaseEnd
def methodSuspend := o.dispatch .methodSuspend .methodSuspend
def threadSuspend := o.dispatch .threadSuspend .threadSuspend

/-- `event_notified`. A null set is dereferenced, an empty one fails the assertion. -/
def eventNotified (e : E) : Option (List (M × Callback E)) :=
  match o.eventsToMonitorSets e with
  | none => none
  | some ms =>
      if 0 < ms.toList.length then some (ms.toList.map fun m => (m, .eventNotified e))
        else none

end Functions

/-- `register_monitor` for a sample point. -/
def registerMonitor (m : M) (p : SamplePoint) (o : Observer E getId) : Observer E getId :=
  { o with arrMonSets := Function.update o.arrMonSets p ((o.arrMonSets p).insert m).2 }

end Observer

/-- The observer, and the events whose observer pointer is set to it. -/
structure World (E : Type*) (getId : M → MonId) where
  observer : Observer E getId
  observed : E → Bool

/-- The notification functions of the observer. -/
inductive Notification
  | initBegin | initUpdateBegin | initUpdateEnd
  | initDeltaNotificationBegin | initDeltaNotificationEnd | initEnd
  | deltaCycleBegin | deltaCycleEnd
  | evaluateBegin | evaluateEnd
  | updateBegin | updateEnd
  | deltanotifyBegin | deltanotifyEnd
  | timednotifyBegin | timednotifyEnd
  | methodSuspend | threadSuspend
  deriving DecidableEq

/-- Calls on the observer and on the events. -/
inductive Call (M E : Type*)
  | registerMonitor (m : M) (p : SamplePoint)
  | registerEvent (m : M) (e : E)
  | notify (n : Notification)
  | trigger (e : E)

def Observer.notify (o : Observer E getId) : Notification → List (M × Callback E)
  | .initBegin => o.initBegin
  | .initUpdateBegin => o.initUpdateBegin
  | .initUpdateEnd => o.initUpdateEnd
  | .initDeltaNotificationBegin => o.initDeltaNotificationBegin
  | .initDeltaNotificationEnd => o.initDeltaNotificationEnd
  | .initEnd => o.initEnd
  | .deltaCycleBegin => o.deltaCycleBegin
  | .deltaCycleEnd => o.deltaCycleEnd
  | .evaluateBegin => o.evaluateBegin
  | .evaluateEnd => o.evaluateEnd
  | .updateBegin => o.updateBegin
  | .updateEnd => o.updateEnd
  | .deltanotifyBegin => o.deltanotifyBegin
  | .deltanotifyEnd => o.deltanotifyEnd
  | .timednotifyBegin => o.timednotifyBegin
  | .timednotifyEnd => o.timednotifyEnd
  | .methodSuspend => o.methodSuspend
  | .threadSuspend => o.threadSuspend

namespace World

def new : World E getId := ⟨.new, fun _ => false⟩

/-- `register_monitor` for an event. A second registration of a monitor fails the
assertion. -/
def registerEvent [DecidableEq E] (m : M) (e : E) (w : World E getId) :
    Option (World E getId) :=
  let set (ms : MonitorSet getId) : Observer E getId :=
    { w.observer with
      eventsToMonitorSets := Function.update w.observer.eventsToMonitorSets e (some ms) }
  match w.observer.eventsToMonitorSets e with
  | none =>
      let x := (KeyedSet.empty : MonitorSet getId).insert m
      if x.1 then some ⟨set x.2, Function.update w.observed e true⟩ else none
  | some ms =>
      let x := ms.insert m
      if x.1 then some { w with observer := set x.2 } else none

/-- The notification of the observer by `sc_event::trigger`. -/
def trigger (e : E) (w : World E getId) : Option (List (M × Callback E)) :=
  if w.observed e then w.observer.eventNotified e else some []

/-- One call; its output is the callbacks it makes. -/
def step [DecidableEq E] : Call M E → World E getId →
    Option (List (M × Callback E) × World E getId)
  | .registerMonitor m p, w =>
      some ([], { w with observer := w.observer.registerMonitor m p })
  | .registerEvent m e, w => (w.registerEvent m e).map ([], ·)
  | .notify n, w => some (w.observer.notify n, w)
  | .trigger e, w => (w.trigger e).map (·, w)

end World

/-- The callback a monitor registered for a sample point gets. -/
def SamplePoint.callback : SamplePoint → Callback E
  | initPhaseBegin => .initPhaseBegin
  | initPhaseEnd => .initPhaseEnd
  | initUpdatePhaseBegin => .initUpdatePhaseBegin
  | initUpdatePhaseEnd => .initUpdatePhaseEnd
  | initDeltaNotifyPhaseBegin => .initDeltaNotifyPhaseBegin
  | initDeltaNotifyPhaseEnd => .initDeltaNotifyPhaseEnd
  | deltaCycleBegin => .deltaCycleBegin
  | deltaCycleEnd => .deltaCycleEnd
  | evaluationPhaseBegin => .evaluationPhaseBegin
  | evaluationPhaseEnd => .evaluationPhaseEnd
  | updatePhaseBegin => .updatePhaseBegin
  | updatePhaseEnd => .updatePhaseEnd
  | deltaNotifyPhaseBegin => .deltaNotifyPhaseBegin
  | deltaNotifyPhaseEnd => .deltaNotifyPhaseEnd
  | timedNotifyPhaseBegin => .timedNotifyPhaseBegin
  | timedNotifyPhaseEnd => .timedNotifyPhaseEnd
  | methodSuspend => .methodSuspend
  | threadSuspend => .threadSuspend

/-- The sample points that a notification function announces, in order. -/
def Notification.points : Notification → List SamplePoint
  | initBegin => [.initPhaseBegin]
  | initUpdateBegin => [.initUpdatePhaseBegin]
  | initUpdateEnd => [.initUpdatePhaseEnd]
  | initDeltaNotificationBegin => [.initDeltaNotifyPhaseBegin]
  | initDeltaNotificationEnd => [.initDeltaNotifyPhaseEnd]
  | initEnd => [.initPhaseEnd]
  | deltaCycleBegin => [.deltaCycleBegin]
  | deltaCycleEnd => [.deltaCycleEnd]
  | evaluateBegin => [.deltaCycleBegin, .evaluationPhaseBegin]
  | evaluateEnd => [.evaluationPhaseEnd]
  | updateBegin => [.updatePhaseBegin]
  | updateEnd => [.updatePhaseEnd]
  | deltanotifyBegin => [.deltaNotifyPhaseBegin]
  | deltanotifyEnd => [.deltaNotifyPhaseEnd, .deltaCycleEnd]
  | timednotifyBegin => [.timedNotifyPhaseBegin]
  | timednotifyEnd => [.timedNotifyPhaseEnd]
  | methodSuspend => [.methodSuspend]
  | threadSuspend => [.threadSuspend]

/-- `out` calls `cb` back on exactly the `registered` monitors, each once and in
increasing id. -/
def Delivers (getId : M → MonId) (registered : M → Prop) (cb : Callback E)
    (out : List (M × Callback E)) : Prop :=
  ∃ ms : List M, out = ms.map (fun m => (m, cb)) ∧
    (ms.Pairwise fun m m' => getId m < getId m') ∧ ∀ m, m ∈ ms ↔ registered m

/-- A set whose traversal is a given set of monitors. -/
theorem delivers_of_toList {ms : MonitorSet getId} {registered : M → Prop} {cb : Callback E}
    (h : ∀ m, m ∈ ms.toList ↔ registered m) :
    Delivers getId registered cb (ms.toList.map fun m => (m, cb)) :=
  ⟨ms.toList, rfl, ms.sorted, h⟩

namespace Observer
variable {o : Observer E getId}

/-- There are too few ids for the number of monitors to wrap. -/
theorem length_mod (hid : Function.Injective getId) (ms : MonitorSet getId) :
    ms.toList.length % 2 ^ 32 = ms.toList.length := by
  have hle := ms.length_le_card hid
  rw [Fintype.card_fin] at hle
  exact Nat.mod_eq_of_lt (hle.trans_lt (by decide))

theorem dispatch_eq (hid : Function.Injective getId) (p : SamplePoint) (cb : Callback E) :
    o.dispatch p cb = (o.arrMonSets p).toList.map fun m => (m, cb) := by
  rw [dispatch, length_mod hid]
  split_ifs with h
  · rfl
  · have hnil : (o.arrMonSets p).toList = [] := List.length_eq_zero_iff.mp (by omega)
    rw [hnil, List.map_nil]

/-- Every notification function is the dispatches of its sample points, in order. -/
theorem notify_eq (o : Observer E getId) (n : Notification) :
    o.notify n = n.points.flatMap fun p => o.dispatch p p.callback := by
  cases n <;> simp [notify, Notification.points, SamplePoint.callback, initBegin,
    initUpdateBegin, initUpdateEnd, initDeltaNotificationBegin, initDeltaNotificationEnd,
    initEnd, deltaCycleBegin, deltaCycleEnd, evaluateBegin, evaluateEnd, updateBegin,
    updateEnd, deltanotifyBegin, deltanotifyEnd, timednotifyBegin, timednotifyEnd,
    methodSuspend, threadSuspend]

end Observer

namespace World
variable {w : World E getId} {calls : List (Call M E)}

/-- The registrations for events among the calls. -/
def eventRegistrations (calls : List (Call M E)) : List (M × E) :=
  calls.filterMap fun
    | .registerEvent m e => some (m, e)
    | _ => none

theorem mem_eventRegistrations {m : M} {e : E} :
    (m, e) ∈ eventRegistrations calls ↔ .registerEvent m e ∈ calls := by
  simp only [eventRegistrations, List.mem_filterMap]
  constructor
  · rintro ⟨c, hc, heq⟩
    cases c with
    | registerEvent m' e' =>
        obtain ⟨rfl, rfl⟩ := Prod.mk.inj (Option.some.inj heq)
        exact hc
    | _ => cases heq
  · exact fun h => ⟨_, h, rfl⟩

/-- The sets hold the monitors registered by `calls`; an event is in the map and points
to the observer exactly when some monitor is registered for it. -/
structure Inv (calls : List (Call M E)) (w : World E getId) : Prop where
  points : ∀ p m, m ∈ (w.observer.arrMonSets p).toList ↔ .registerMonitor m p ∈ calls
  events : ∀ e ms, w.observer.eventsToMonitorSets e = some ms →
    w.observed e = true ∧ ms.toList ≠ [] ∧ ∀ m, m ∈ ms.toList ↔ .registerEvent m e ∈ calls
  unobserved : ∀ e, w.observer.eventsToMonitorSets e = none →
    w.observed e = false ∧ ∀ m, .registerEvent m e ∉ calls

theorem inv_new : (new : World E getId).Inv ([] : List (Call M E)) where
  points := by simp [new, Observer.new]
  events := by simp [new, Observer.new]
  unobserved := by simp [new]

/-- `trigger` of any event, in a state reached by `calls`. -/
theorem Inv.trigger (I : w.Inv calls) (e : E) :
    ∃ out, w.trigger e = some out ∧
      Delivers getId (fun m => .registerEvent m e ∈ calls) (.eventNotified e) out := by
  cases he : w.observer.eventsToMonitorSets e with
  | none =>
      obtain ⟨hobs, hnone⟩ := I.unobserved e he
      exact ⟨[], by simp [World.trigger, hobs], [], rfl, List.Pairwise.nil,
        by simpa using hnone⟩
  | some ms =>
      obtain ⟨hobs, hne, hmem⟩ := I.events e ms he
      refine ⟨ms.toList.map fun m => (m, .eventNotified e), ?_, delivers_of_toList hmem⟩
      simp [World.trigger, hobs, Observer.eventNotified, he, List.length_pos_iff, hne]

theorem Inv.observed (I : w.Inv calls) {m : M} {e : E} (hm : .registerEvent m e ∈ calls) :
    w.observed e = true := by
  cases he : w.observer.eventsToMonitorSets e with
  | none => exact absurd hm ((I.unobserved e he).2 m)
  | some ms => exact (I.events e ms he).1

/-- Calls that register no monitor keep the invariant. -/
theorem Inv.append (I : w.Inv calls) {c : Call M E} (hp : ∀ m p, c ≠ .registerMonitor m p)
    (he : ∀ m e, c ≠ .registerEvent m e) : w.Inv (calls ++ [c]) where
  points p m := by simp [I.points, (hp m p).symm]
  events e ms h := by simpa [fun m => (he m e).symm] using I.events e ms h
  unobserved e h := by simpa [fun m => (he m e).symm] using I.unobserved e h

theorem Inv.registerMonitor (hid : Function.Injective getId) (I : w.Inv calls) (m : M)
    (p : SamplePoint) :
    ({ w with observer := w.observer.registerMonitor m p } : World E getId).Inv
      (calls ++ [.registerMonitor m p]) where
  points p' m' := by
    by_cases hp : p' = p
    · subst hp
      simp [Observer.registerMonitor, KeyedSet.mem_insert hid, I.points, or_comm]
    · simp [Observer.registerMonitor, hp, I.points]
  events e ms h := by simpa using I.events e ms h
  unobserved e h := by simpa using I.unobserved e h

variable [DecidableEq E]

theorem Inv.registerEvent (hid : Function.Injective getId) (I : w.Inv calls) (m : M) (e : E)
    (hnew : .registerEvent m e ∉ calls) :
    ∃ w', w.registerEvent m e = some w' ∧ w'.Inv (calls ++ [.registerEvent m e]) := by
  cases hmap : w.observer.eventsToMonitorSets e with
  | none =>
      obtain ⟨_, hnone⟩ := I.unobserved e hmap
      refine ⟨_, by simp [World.registerEvent, hmap, KeyedSet.insert]; rfl, ?_, ?_, ?_⟩
      · intro p m'
        simp [I.points]
      · intro e' ms hms
        by_cases he : e' = e
        · subst he
          obtain rfl : _ = ms := by simpa using hms
          refine ⟨by simp, ?_, fun m' => ?_⟩
          · simp [insertByKey]
          · simp [insertByKey, hnone]
        · simpa [he] using I.events e' ms (by simpa [he] using hms)
      · intro e' hms
        have he : e' ≠ e := by
          rintro rfl
          simp at hms
        simpa [he] using I.unobserved e' (by simpa [he] using hms)
  | some ms =>
      obtain ⟨hobs, hne, hmem⟩ := I.events e ms hmap
      have hflag : (ms.insert m).1 = true :=
        (KeyedSet.insert_fst hid).mpr fun hm => hnew ((hmem m).mp hm)
      refine ⟨_, by simp only [World.registerEvent, hmap, hflag, if_true]; rfl, ?_, ?_, ?_⟩
      · intro p m'
        simp [I.points]
      · intro e' ms' hms
        by_cases he : e' = e
        · subst he
          obtain rfl : _ = ms' := by simpa using hms
          refine ⟨hobs, ?_, fun m' => ?_⟩
          · exact List.ne_nil_of_mem ((KeyedSet.mem_insert hid).mpr (.inl rfl))
          · simp [KeyedSet.mem_insert hid, hmem, or_comm]
        · simpa [he] using I.events e' ms' (by simpa [he] using hms)
      · intro e' hms
        have he : e' ≠ e := by
          rintro rfl
          simp at hms
        simpa [he] using I.unobserved e' (by simpa [he] using hms)

/-- One call keeps the invariant, and does not fail when it registers no monitor twice
for an event. -/
theorem Inv.step (hid : Function.Injective getId) (I : w.Inv calls) (c : Call M E)
    (hnew : ∀ m e, c = .registerEvent m e → .registerEvent m e ∉ calls) :
    ∃ out w', World.step c w = some (out, w') ∧ w'.Inv (calls ++ [c]) := by
  cases c with
  | registerMonitor m p => exact ⟨_, _, rfl, I.registerMonitor hid m p⟩
  | registerEvent m e =>
      obtain ⟨w', hw', I'⟩ := I.registerEvent hid m e (hnew m e rfl)
      exact ⟨[], w', by simp [World.step, hw'], I'⟩
  | notify n => exact ⟨_, w, rfl, I.append nofun nofun⟩
  | trigger e =>
      obtain ⟨out, hout, _⟩ := I.trigger e
      exact ⟨out, w, by simp [World.step, hout], I.append nofun nofun⟩

/-- The invariant holds after every run in which no monitor is registered twice for an
event, and no such run fails. -/
theorem inv_run (hid : Function.Injective getId) (hnodup : (eventRegistrations calls).Nodup) :
    ∃ outs w, run World.step calls (new : World E getId) = some (outs, w) ∧ w.Inv calls := by
  induction calls using List.reverseRecOn with
  | nil => exact ⟨[], new, rfl, inv_new⟩
  | append_singleton calls c ih =>
      rw [eventRegistrations, List.filterMap_append, List.nodup_append'] at hnodup
      obtain ⟨hcalls, _, hdisj⟩ := hnodup
      obtain ⟨outs, w, hw, I⟩ := ih hcalls
      obtain ⟨out, w', hw', I'⟩ := I.step hid c (by
        rintro m e rfl hm
        exact hdisj (List.mem_filterMap.mpr ⟨_, hm, rfl⟩) (by simp))
      refine ⟨outs ++ [out], w', ?_, I'⟩
      rw [run_append, hw, Option.bind_some, run_cons, hw']
      rfl

/-- A monitor that is registered for an event is not registered for it again. -/
theorem Inv.registerEvent_eq_none (hid : Function.Injective getId) (I : w.Inv calls) {m : M}
    {e : E} (hm : .registerEvent m e ∈ calls) : w.registerEvent m e = none := by
  cases hmap : w.observer.eventsToMonitorSets e with
  | none => exact absurd hm ((I.unobserved e hmap).2 m)
  | some ms =>
      have hflag : (ms.insert m).1 = false := by
        rw [← Bool.not_eq_true, KeyedSet.insert_fst hid, not_not]
        exact ((I.events e ms hmap).2.2 m).mpr hm
      simp [World.registerEvent, hmap, hflag]

/-- Calls succeed, after other calls, exactly when no monitor is registered twice for an
event. -/
theorem Inv.run_isSome_iff (hid : Function.Injective getId) (I : w.Inv calls)
    (hnodup : (eventRegistrations calls).Nodup) (cs : List (Call M E)) :
    (run World.step cs w).isSome ↔ (eventRegistrations (calls ++ cs)).Nodup := by
  induction cs generalizing calls w with
  | nil => simpa using hnodup
  | cons c cs ih =>
      by_cases hold : ∃ m e, c = .registerEvent m e ∧ .registerEvent m e ∈ calls
      · obtain ⟨m, e, rfl, hm⟩ := hold
        have hstep : World.step (.registerEvent m e) w = none := by
          simp [World.step, I.registerEvent_eq_none hid hm]
        rw [run_cons, hstep]
        refine iff_of_false (by simp) fun hall => ?_
        rw [eventRegistrations, List.filterMap_append, List.nodup_append'] at hall
        exact hall.2.2 (mem_eventRegistrations.mpr hm) (by simp)
      · have hnew : ∀ m e, c = .registerEvent m e → .registerEvent m e ∉ calls :=
          fun m e hc hm => hold ⟨m, e, hc, hm⟩
        obtain ⟨out, w', hstep, I'⟩ := I.step hid c hnew
        have hnodup' : (eventRegistrations (calls ++ [c])).Nodup := by
          rw [eventRegistrations, List.filterMap_append, List.nodup_append']
          refine ⟨hnodup, ?_, ?_⟩
          · cases c <;> simp
          · intro q hq hc
            obtain ⟨m, e⟩ := q
            have hc : .registerEvent m e ∈ [c] := mem_eventRegistrations.mp hc
            exact hnew m e (List.mem_singleton.mp hc).symm (mem_eventRegistrations.mp hq)
        have ih := ih I' hnodup'
        rw [List.append_assoc, List.singleton_append] at ih
        rw [← ih, run_cons, hstep]
        simp

/-- After every run from the beginning the sets hold the registered monitors. -/
theorem inv_of_run (hid : Function.Injective getId) {outs : List (List (M × Callback E))}
    (h : run World.step calls (new : World E getId) = some (outs, w)) :
    w.Inv calls ∧ (eventRegistrations calls).Nodup := by
  have hsome : (run World.step calls (new : World E getId)).isSome := by rw [h]; rfl
  have hnodup := (inv_new.run_isSome_iff hid List.nodup_nil calls).mp hsome
  rw [List.nil_append] at hnodup
  obtain ⟨outs', w', hw', I⟩ := inv_run hid hnodup
  obtain ⟨-, rfl⟩ := Prod.mk.inj (Option.some.inj (h.symm.trans hw'))
  exact ⟨I, hnodup⟩

/-- **Registration and dispatch.** In every state reached by registrations and
notifications, no monitor being registered twice for an event: each notification function
calls back, for each of its sample points in order, exactly the monitors registered for
that point, and triggering an event calls back exactly the monitors registered for it,
each once and in increasing id. No lookup and no assertion fails. -/
theorem notifications_exact (hid : Function.Injective getId)
    (hnodup : (eventRegistrations calls).Nodup) :
    ∃ outs w, run World.step calls (new : World E getId) = some (outs, w) ∧
      (∀ n : Notification, ∃ parts, w.observer.notify n = parts.flatten ∧
        List.Forall₂ (fun p => Delivers getId (fun m =>
          .registerMonitor m p ∈ calls) p.callback)
          n.points parts) ∧
      ∀ e, ∃ out, w.trigger e = some out ∧
        Delivers getId (fun m => .registerEvent m e ∈ calls) (.eventNotified e) out := by
  obtain ⟨outs, w, hw, I⟩ := inv_run hid hnodup
  refine ⟨outs, w, hw, fun n => ?_, I.trigger⟩
  refine ⟨n.points.map fun p => w.observer.dispatch p p.callback, ?_, ?_⟩
  · rw [Observer.notify_eq, List.flatMap_def]
  · rw [List.forall₂_map_right_iff, List.forall₂_same]
    intro p _
    rw [Observer.dispatch_eq hid]
    exact delivers_of_toList (I.points p)

/-- Three monitors, two of them registered for one event in decreasing id. -/
theorem notifications_exact_three :
    ∃ (outs : _) (w : World Bool (Fin.castLE (by decide : 3 ≤ 2 ^ 31))),
      run World.step [.registerEvent 2 true, .registerMonitor 1 .deltaCycleBegin,
        .notify .evaluateBegin, .registerEvent 0 true] new = some (outs, w) ∧
      ∃ out, w.trigger true = some out ∧ Delivers (Fin.castLE (by decide : 3 ≤ 2 ^ 31))
        (fun m => .registerEvent m true ∈ ([.registerEvent 2 true,
          .registerMonitor 1 .deltaCycleBegin, .notify .evaluateBegin, .registerEvent 0 true] :
            List (Call (Fin 3) Bool))) (.eventNotified true) out := by
  obtain ⟨outs, w, hw, _, htrigger⟩ := notifications_exact
    (Fin.castLE_injective (by decide : 3 ≤ 2 ^ 31))
    (show (eventRegistrations [.registerEvent 2 true, .registerMonitor 1 .deltaCycleBegin,
        .notify .evaluateBegin, .registerEvent 0 true] : List (Fin 3 × Bool)).Nodup by decide)
  exact ⟨outs, w, hw, htrigger true⟩

end World
end Pscv.Kernel
