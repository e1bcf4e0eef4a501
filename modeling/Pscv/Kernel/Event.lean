import Pscv.Lib.SwapRemove
import Pscv.Lib.Word
import Pscv.Kernel.Runnable

/-!
# Events, waiting processes and `sc_event::trigger`

The pending notifications of the kernel, the lists of processes sensitive to each
event, and what a trigger does to them. An event is a user's event or the timeout
event of a process; the methods and the threads are processes of two kinds with the
same trigger functions, apart from two checks.

The storage of `m_delta_events` is a list whose entries past the size stay readable,
as they are to the notification loop. `cancelled`, `triggered` and `notified` record
what happened and are read by no function of the model.

## Main definitions

* `Notifications` — `m_delta_events` and the timed events, with `cancel` and `notify`.
* `SimContext.triggerDynamic`, `SimContext.triggerStatic`, `SimContext.trigger`.
* `SimContext.deltaPhase` — the notification phase of `crunch`.
-/

namespace Pscv.Kernel

open Pscv.Lib

abbrev Proc := Kind × Handle

inductive Event
  | user (n : ℕ)
  | timeout (p : Proc)
  deriving DecidableEq

/-- `notify_t`. -/
inductive NotifyType
  | none
  | delta
  | timed
  deriving DecidableEq

/-- `operator +` of `sc_time`, a word of 64 bits. -/
def timeAdd (t₁ t₂ : ℕ) : ℕ := wordAdd 64 t₁ t₂

/-- `sc_event_timed`; a cancelled entry has no event. -/
structure EventTimed where
  event : Option Event
  notifyTime : ℕ
  deriving DecidableEq

/-- The pending notifications, and the fields of each event about its own. -/
structure Notifications where
  deltaEvents : List Event
  deltaSize : ℕ
  timedEvents : List EventTimed
  notifyType : Event → NotifyType
  deltaIndex : Event → Option ℕ
  cancelled : List Event

namespace Notifications

/-- `add_delta_event`, and the fields that a caller sets with it. -/
def addDeltaEvent (e : Event) (d : Notifications) : Notifications :=
  { d with
    deltaEvents := d.deltaEvents.take d.deltaSize ++ [e]
    deltaSize := d.deltaSize + 1
    notifyType := Function.update d.notifyType e .delta
    deltaIndex := Function.update d.deltaIndex e (some d.deltaSize) }

/-- `remove_delta_event`: the last event takes the place of `e`. -/
def removeDeltaEvent (e : Event) (d : Notifications) : Notifications :=
  let j := d.deltaSize - 1
  match d.deltaIndex e, d.deltaEvents[j]? with
  | some i, some last =>
      let d₁ := if i ≠ j then
          { d with
            deltaEvents := d.deltaEvents.set i last
            deltaIndex := Function.update d.deltaIndex last (some i) }
        else d
      { d₁ with deltaSize := j, deltaIndex := Function.update d₁.deltaIndex e none }
  | _, _ => d

/-- A timed entry of `e` loses its event. -/
def removeTimed (e : Event) (d : Notifications) : Notifications :=
  { d with
    timedEvents := d.timedEvents.map fun x =>
      if x.event = some e then { x with event := none } else x }

/-- `cancel`. -/
def cancel (e : Event) (d : Notifications) : Notifications :=
  match d.notifyType e with
  | .delta =>
      { d.removeDeltaEvent e with
        notifyType := Function.update d.notifyType e .none
        cancelled := d.cancelled ++ [e] }
  | .timed => { d.removeTimed e with notifyType := Function.update d.notifyType e .none }
  | .none => d

/-- No notification of `e` is pending: the end of `trigger`, and part of `reset`. -/
def clear (e : Event) (d : Notifications) : Notifications :=
  { d with
    notifyType := Function.update d.notifyType e .none
    deltaIndex := Function.update d.deltaIndex e none }

/-- `notify` with the delay `t`, at the time `now`. An earlier pending notification
prevails. -/
def notify (now t : ℕ) (e : Event) (d : Notifications) : Notifications :=
  let d₁ := if d.notifyType e = .timed then d.removeTimed e else d
  if d.notifyType e = .delta then d
  else if t = 0 then d₁.addDeltaEvent e
  else if d.notifyType e = .timed ∧
      ∃ x ∈ d.timedEvents, x.event = some e ∧ x.notifyTime ≤ timeAdd now t then d
  else
    { d₁ with
      timedEvents := d₁.timedEvents ++ [⟨some e, timeAdd now t⟩]
      notifyType := Function.update d.notifyType e .timed }

end Notifications

/-- `trigger_t`: what a process is waiting for. -/
inductive TriggerType
  | static
  | event
  | orList
  | andList
  | timeout
  | eventTimeout
  | orListTimeout
  | andListTimeout
  deriving DecidableEq

/-- The fields of a process that its trigger functions use. -/
structure Process where
  triggerType : TriggerType
  eventP : Option ℕ
  eventList : List ℕ
  eventCount : ℤ
  waitCycleN : ℕ
  disabled : Bool
  suspended : Bool
  readyToRun : Bool
  timedOut : Bool

/-- The part of `sc_simcontext` that notifications use. `observed` tells the events whose
observer pointer is set. -/
structure SimContext where
  notifications : Notifications
  statics : Kind → Event → List Handle
  dynamics : Kind → Event → List Handle
  procs : Proc → Process
  runnable : Lists
  currProc : Option Proc
  observed : Event → Bool
  triggered : List Event
  notified : List Event

namespace SimContext

/-- `is_runnable`. -/
def isRunnable (p : Proc) (k : SimContext) : Bool := p.2 ∈ (k.runnable.half p.1).all

def modifyProc (p : Proc) (f : Process → Process) (k : SimContext) : SimContext :=
  { k with procs := Function.update k.procs p (f (k.procs p)) }

/-- `push_runnable_method` and `push_runnable_thread`. -/
def pushRunnable (p : Proc) (k : SimContext) : SimContext :=
  { k with runnable := k.runnable.setHalf p.1 ((k.runnable.half p.1).pushBack p.2) }

/-- `sc_event::cancel`. -/
def cancel (e : Event) (k : SimContext) : SimContext :=
  { k with notifications := k.notifications.cancel e }

/-- `sc_event::reset`. -/
def reset (e : Event) (k : SimContext) : SimContext :=
  { k with
    notifications := k.notifications.clear e
    dynamics := fun d => Function.update (k.dynamics d) e [] }

/-- `sc_event::remove_dynamic`. -/
def removeDynamic (p : Proc) (e : Event) (k : SimContext) : SimContext :=
  { k with
    dynamics := Function.update k.dynamics p.1
      (Function.update (k.dynamics p.1) e (swapErase p.2 (k.dynamics p.1 e))) }

/-- `sc_event_list::remove_dynamic`: from all events of the list but `eNot`. -/
def removeDynamicList (p : Proc) (eNot : Option Event) (es : List ℕ) (k : SimContext) :
    SimContext :=
  es.foldr (fun n k => if some (.user n) ≠ eNot then k.removeDynamic p (.user n) else k) k

/-- `remove_dynamic_events`. -/
def removeDynamicEvents (skipTimeout : Bool) (p : Proc) (k : SimContext) : SimContext :=
  let k₁ := k.modifyProc p fun r => { r with triggerType := .static }
  let k₂ := if skipTimeout then k₁
    else (k₁.removeDynamic p (.timeout p)).cancel (.timeout p)
  let k₃ := match (k₂.procs p).eventP with
    | some n => k₂.removeDynamic p (.user n)
    | none => k₂
  (k₃.removeDynamicList p none (k₃.procs p).eventList).modifyProc p fun r =>
    { r with eventList := [] }

/-- The end of a wait for an event, for a list of events, and for a time alone. -/
def endEventWait (p : Proc) (k : SimContext) : SimContext :=
  k.modifyProc p fun r => { r with eventP := none, triggerType := .static }
def endListWait (p : Proc) (k : SimContext) : SimContext :=
  k.modifyProc p fun r => { r with eventList := [], triggerType := .static }
def endTimeWait (p : Proc) (k : SimContext) : SimContext :=
  k.modifyProc p fun r => { r with triggerType := .static }

/-- The end of the trigger functions: `p` is queued, or marked when it is suspended. -/
def ready (p : Proc) (k : SimContext) : SimContext :=
  if (k.procs p).suspended then k.modifyProc p fun r => { r with readyToRun := true }
  else k.pushRunnable p

/-- `m_timeout_event_p->cancel(); m_timeout_event_p->reset();`. -/
def cancelTimeout (p : Proc) (k : SimContext) : SimContext :=
  (k.cancel (.timeout p)).reset (.timeout p)

def markTimedOut (p : Proc) (k : SimContext) : SimContext :=
  k.modifyProc p fun r => { r with timedOut := true }

/-- Remove `p` from the single event it waits for. -/
def removeFromEvent (p : Proc) (k : SimContext) : SimContext :=
  match (k.procs p).eventP with
  | some n => k.removeDynamic p (.user n)
  | none => k

/-- Remove `p` from the events of its list but `e`. -/
def removeFromList (p : Proc) (e : Event) (k : SimContext) : SimContext :=
  k.removeDynamicList p (some e) (k.procs p).eventList

def countDown (p : Proc) (k : SimContext) : SimContext :=
  k.modifyProc p fun r => { r with eventCount := r.eventCount - 1 }

/-- The switch of `trigger_dynamic` on what `p` is waiting for. The result tells whether
the process leaves the list of the event. -/
def triggerWait (e : Event) (p : Proc) (k : SimContext) : Bool × SimContext :=
  match (k.procs p).triggerType with
  | .event => (true, (k.endEventWait p).ready p)
  | .andList =>
      let k := k.countDown p
      if (k.procs p).eventCount = 0 then (true, (k.endListWait p).ready p) else (true, k)
  | .orList => (true, ((k.removeFromList p e).endListWait p).ready p)
  | .timeout => (true, (k.endTimeWait p).ready p)
  | .eventTimeout =>
      if e = .timeout p then
        (true, (((k.markTimedOut p).removeFromEvent p).endEventWait p).ready p)
      else (true, ((k.cancelTimeout p).endEventWait p).ready p)
  | .orListTimeout =>
      if e = .timeout p then
        (true, (((k.markTimedOut p).removeFromList p e).endListWait p).ready p)
      else (true, (((k.cancelTimeout p).removeFromList p e).endListWait p).ready p)
  | .andListTimeout =>
      if e = .timeout p then
        (true, (((k.markTimedOut p).removeFromList p e).endListWait p).ready p)
      else
        let k := k.countDown p
        if (k.procs p).eventCount = 0 then (true, ((k.cancelTimeout p).endListWait p).ready p)
        else (true, k)
  | .static => (true, k)

/-- `trigger_dynamic` of a method or a thread. -/
def triggerDynamic (e : Event) (p : Proc) (k : SimContext) : Bool × SimContext :=
  let k := k.modifyProc p fun r => { r with timedOut := false }
  -- only a method is checked for notifying itself
  if p.1 = .method ∧ k.currProc = some p then (false, k)
  else if k.isRunnable p then (true, k)
  else if (k.procs p).disabled then
    if e = .timeout p then (true, k.removeDynamicEvents true p) else (false, k)
  else k.triggerWait e p

/-- `trigger_static` of a method or a thread. -/
def triggerStatic (p : Proc) (k : SimContext) : SimContext :=
  if (k.procs p).disabled ∨ k.isRunnable p ∨ (k.procs p).triggerType ≠ .static then k
  else if k.currProc = some p then k
  -- only threads wait for a number of cycles
  else if p.1 = .thread ∧ 0 < (k.procs p).waitCycleN then
    k.modifyProc p fun r => { r with waitCycleN := r.waitCycleN - 1 }
  else k.ready p

/-- The observer callback at the head of `trigger`. -/
def notifyObserver (e : Event) (k : SimContext) : SimContext :=
  if k.observed e then { k with notified := k.notified ++ [e] } else k

/-- Trigger the processes of one kind that are statically sensitive to `e`. -/
def triggerStatics (d : Kind) (e : Event) (k : SimContext) : SimContext :=
  (k.statics d e).foldr (fun h k => k.triggerStatic (d, h)) k

/-- Trigger the processes of one kind that are dynamically sensitive to `e`. -/
def triggerDynamics (d : Kind) (e : Event) (k : SimContext) : SimContext :=
  let r := sweep (fun h => triggerDynamic e (d, h)) (k.dynamics d e).length []
    (k.dynamics d e) k
  { r.2 with
    dynamics := Function.update r.2.dynamics d (Function.update (r.2.dynamics d) e r.1) }

/-- The processes sensitive to `e`, in the order of `trigger`. -/
def triggerProcesses (e : Event) (k : SimContext) : SimContext :=
  (((k.triggerStatics .method e).triggerDynamics .method e).triggerStatics .thread
    e).triggerDynamics .thread e

/-- `sc_event::trigger`. -/
def trigger (e : Event) (k : SimContext) : SimContext :=
  let k₁ := (k.notifyObserver e).triggerProcesses e
  { k₁ with notifications := k₁.notifications.clear e, triggered := k₁.triggered ++ [e] }

/-- `sc_event::notify()`, outside the update phase. -/
def notifyNow (e : Event) (k : SimContext) : SimContext := (k.cancel e).trigger e

/-- The loop of the notification phase, from index `i - 1` down. -/
def deltaLoop : ℕ → SimContext → SimContext
  | 0, k => k
  | i + 1, k =>
      match k.notifications.deltaEvents[i]? with
      | some e => deltaLoop i (k.trigger e)
      | none => deltaLoop i k

/-- The notification phase of `crunch`. -/
def deltaPhase (k : SimContext) : SimContext :=
  let k₁ := deltaLoop k.notifications.deltaSize k
  { k₁ with notifications := { k₁.notifications with deltaSize := 0 } }

end SimContext
end Pscv.Kernel
