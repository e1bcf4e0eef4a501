import Pscv.Kernel.Preempt
import Pscv.Kernel.Observer

/-!
# How processes get and lose the processor

The coroutines of the simulator and of the threads, each with the calls of the kernel on
its stack that have not returned. One coroutine runs, and what is innermost on its stack
says what it does: the kernel goes on by itself, and the body of a process makes the
`Move` that it likes. A method has no coroutine; its body runs on the stack of whoever
dispatches it.

A step puts down when the body of a method ends, when a thread gives up the processor, and
what the observer is notified of. Only the two notifications about processes are recorded;
those of the phases are in `crunch`.

What a move does to events is not followed: the processes that it wakes are given as
`Act`s. The observer is attached before the simulation. `none` is a run into undefined
behaviour, such as a switch to a coroutine that has ended.

## Main definitions

* `Processor.step` — one step of the running coroutine.
* `Mark` — what is put down about it.
-/

namespace Pscv.Kernel

open Function (update)

/-- Who calls `run_process` of a method. -/
inductive Dispatcher
  | crunch
  | preempt (caller : Option Handle)
  | invoker (me : Handle)
  deriving DecidableEq

/-- A call that has not returned, and where it is. -/
inductive Activation
  /-- `crunch`, in the simulator's coroutine. -/
  | crunch
  /-- `run_process`, in the body of the method. -/
  | method (h : Handle) (d : Dispatcher)
  /-- `sc_thread_cor_fn`, which has not begun. -/
  | start (h : Handle)
  /-- `sc_thread_cor_fn`, in the body of the thread. -/
  | thread (h : Handle)
  /-- `sc_thread_cor_fn`, at the head of the loop of `invoker`. -/
  | invoker (h : Handle)
  /-- `suspend_me`, which has not begun. -/
  | suspendMe (h : Handle)
  /-- `suspend_me`, in `yield`. -/
  | suspended (h : Handle)
  /-- `preempt_with` on a thread, in `yield`; the caller is not a thread. -/
  | yielded (caller : Option (Kind × Handle))
  /-- `invoke_method`, in `preempt_with` on its invoker. -/
  | invoked (invoker : Handle)
  deriving DecidableEq

/-- Where `crunch` is: between two evaluation phases, among the methods, in `yield` to a
thread, or left. -/
inductive Evaluation
  | between
  | methods
  | yielding
  | out
  deriving DecidableEq

/-- How the body of a process ends: it returns, or an exception leaves it. -/
inductive Ending
  | returned
  | unwound
  | user
  | halt
  | error
  deriving DecidableEq

/-- What is put down about a step. -/
inductive Mark
  /-- The body of a method has ended. -/
  | ended (h : Handle)
  /-- A thread gives up the processor. -/
  | left (h : Handle)
  | notified (n : Notification)
  deriving DecidableEq

/-- The coroutines, and what the kernel keeps about the processes. The throw status of a
thread and whether it is unwinding are in `sched`; `activeReset` is the throw status that
its reset signals call for; `stopped` is set after `sc_stop` in the immediate mode. The
invoker threads get the addresses in `fresh`. -/
structure Processor where
  sched : Sched
  methodThrow : Handle → ThrowStatus
  methodUnwinding : Handle → Bool
  zombie : Kind → Handle → Bool
  hasStack : Kind → Handle → Bool
  activeReset : Kind → Handle → ThrowStatus
  evaluation : Evaluation
  stopped : Bool
  cor : Cor
  stack : Cor → List Activation
  isInvoker : Handle → Bool
  invokers : List Handle
  invokedMethod : Handle
  fresh : ℕ → Handle

namespace Sched

/-- `pop_method` or `pop_method_random`. -/
def popMethod (s : Sched) : Option (Handle × Sched) :=
  if s.ranEnable then
    (s.runnable.popMethodRandom (s.rand 0)).map fun x =>
      (x.1, { s with
        runnable := x.2
        rand := if s.runnable.methods.popQueue ≠ scNo then fun i => s.rand (i + 1)
          else s.rand })
  else some (s.runnable.popMethod.1, { s with runnable := s.runnable.popMethod.2 })

/-- `pop_runnable_method`. -/
def popRunnableMethod (s : Sched) : Option (Handle × Sched) :=
  s.popMethod.map fun x =>
    (x.1, { x.2 with currProc := if x.1 = null then .none else some (.method, x.1) })

/-- Take a method off the run queue, if it is there. -/
def unqueueMethod (h : Handle) (s : Sched) : Option Sched :=
  if s.runnable.methods.next h ≠ null then
    (s.runnable.removeMethod h).map fun r => { s with runnable := r }
  else some s

end Sched

namespace Processor

/-! ### The fields of a process -/

def throwStatus : Kind → Handle → Processor → ThrowStatus
  | .method, h, k => k.methodThrow h
  | .thread, h, k => k.sched.throwStatus h

def setThrowStatus : Kind → Handle → ThrowStatus → Processor → Processor
  | .method, h, t, k => { k with methodThrow := update k.methodThrow h t }
  | .thread, h, t, k =>
      { k with sched := { k.sched with throwStatus := update k.sched.throwStatus h t } }

def isUnwinding : Kind → Handle → Processor → Bool
  | .method, h, k => k.methodUnwinding h
  | .thread, h, k => k.sched.unwinding h

def setUnwinding : Kind → Handle → Bool → Processor → Processor
  | .method, h, b, k => { k with methodUnwinding := update k.methodUnwinding h b }
  | .thread, h, b, k =>
      { k with sched := { k.sched with unwinding := update k.sched.unwinding h b } }

def setZombie (d : Kind) (h : Handle) (b : Bool) (k : Processor) : Processor :=
  { k with zombie := update k.zombie d (update (k.zombie d) h b) }

def setHasStack (d : Kind) (h : Handle) (b : Bool) (k : Processor) : Processor :=
  { k with hasStack := update k.hasStack d (update (k.hasStack d) h b) }

def setActiveReset (d : Kind) (h : Handle) (t : ThrowStatus) (k : Processor) : Processor :=
  { k with activeReset := update k.activeReset d (update (k.activeReset d) h t) }

/-- `set_curr_proc`, or an assignment of `m_curr_proc_info`. -/
def setCurrProc (p : Option (Kind × Handle)) (k : Processor) : Processor :=
  { k with sched := { k.sched with currProc := p } }

/-! ### Coroutines -/

/-- Enter a call. -/
def push (a : Activation) (k : Processor) : Processor :=
  { k with stack := update k.stack k.cor (a :: k.stack k.cor) }

/-- What remains on the stack of the running coroutine. -/
def setStack (as : List Activation) (k : Processor) : Processor :=
  { k with stack := update k.stack k.cor as }

/-- `yield`. There is nothing to go on with in a coroutine without a stack. -/
def switch (cor : Cor) (k : Processor) : Option Processor :=
  if k.stack cor = [] then none else some { k with cor := cor }

/-- `sc_spawn` of an invoker thread, which is not made runnable. -/
def spawnInvoker (i : Handle) (k : Processor) : Processor :=
  let k := { k with
    sched := { k.sched with hasCor := update k.sched.hasCor i true }
    stack := update k.stack (.thread i) [.start i]
    isInvoker := update k.isInvoker i true
    fresh := fun n => k.fresh (n + 1) }
  (((k.setThrowStatus .thread i .none).setUnwinding .thread i false).setZombie .thread i false)
    |>.setHasStack .thread i false |>.setActiveReset .thread i .none

/-- `semantics` of a process, up to its body. -/
def semantics (d : Kind) (h : Handle) (k : Processor) : Processor :=
  (k.setHasStack d h true).setThrowStatus d h (k.activeReset d h)

/-- `run_process`, up to the body of the method. -/
def runProcess (h : Handle) (d : Dispatcher) (k : Processor) : Processor :=
  (k.push (.method h d)).semantics .method h

/-! ### Preemption -/

/-- `preempt_with` on a thread, up to `suspend_me` of a calling thread. -/
def preemptWithThread (h : Handle) (k : Processor) : Option Processor := do
  let s ← k.sched.unqueueThread h
  match k.sched.currProc with
  | some (.thread, active) =>
      if active ≠ h then
        let s := (s.executeThreadNext active).executeThreadNext h
        pure ({ k with sched := s }.push (.suspendMe active))
      else pure ({ k with sched := s.executeThreadNext h }.push (.suspendMe active))
  | caller =>
      (({ k with sched := s }.setCurrProc (some (.thread, h))).push (.yielded caller)).switch
        (.thread h)

/-- `invoke_method`: the invoker that became free last, or a new one. -/
def invokeMethod (h : Handle) (k : Processor) : Option Processor :=
  let k := { k with invokedMethod := h }
  match k.invokers.getLast? with
  | none =>
      ((k.spawnInvoker (k.fresh 0)).push (.invoked (k.fresh 0))).preemptWithThread (k.fresh 0)
  | some i =>
      ({ k with invokers := k.invokers.dropLast }.push (.invoked i)).preemptWithThread i

/-- `preempt_with` on a method. -/
def preemptWithMethod (h : Handle) (k : Processor) : Option Processor := do
  let s ← k.sched.unqueueMethod h
  let k' := { k with sched := s }
  match k.sched.currProc with
  | some (.method, active) =>
      if h = active then pure k'
      else pure ((k'.setCurrProc (some (.method, h))).runProcess h (.preempt (some active)))
  | some (.thread, _) => k'.invokeMethod h
  | none => pure ((k'.setCurrProc (some (.method, h))).runProcess h (.preempt none))

/-- `check_for_throws` of a method. -/
def checkForThrows (h : Handle) (k : Processor) : Option Processor :=
  if k.isUnwinding .method h then some k
  else
    match k.throwStatus .method h with
    | .asyncReset => k.preemptWithMethod h
    | .kill => some (k.setUnwinding .method h true)
    | _ => some k

/-! ### Requests to other processes -/

/-- `kill_process`. A thread that has not started is only disconnected. -/
def killProcess (d : Kind) (h : Handle) (k : Processor) : Option Processor :=
  if k.isUnwinding d h ∨ k.zombie d h then some k
  else
    match d with
    | .method => do
        let s ← k.sched.unqueueMethod h
        let k :=
          ({ k with sched := s }.setZombie .method h true).setThrowStatus .method h .kill
        if k.sched.currProc = some (.method, h) then pure (k.setUnwinding .method h true)
        else pure k
    | .thread =>
        if k.hasStack .thread h then (k.setThrowStatus .thread h .kill).preemptWithThread h
        else some (k.setZombie .thread h true)

/-- `evaluation_phase`. -/
def evaluationPhase (k : Processor) : Bool := k.evaluation ≠ .between

/-- `throw_reset`. -/
def throwReset (d : Kind) (h : Handle) (async : Bool) (k : Processor) : Option Processor :=
  if k.isUnwinding d h ∨ k.zombie d h then some k
  else if !async then some (k.setThrowStatus d h .syncReset)
  else
    let k := k.setThrowStatus d h .asyncReset
    match d with
    | .method =>
        if k.sched.currProc = some (.method, h) then some (k.setUnwinding .method h true)
        else k.preemptWithMethod h
    | .thread =>
        if k.evaluationPhase then k.preemptWithThread h
        else (k.sched.unqueueThread h).map fun s => { k with sched := s.executeThreadNext h }

/-- `throw_user`, which methods ignore. -/
def throwUser : Kind → Handle → Processor → Option Processor
  | .method, _, k => some k
  | .thread, h, k =>
      if k.isUnwinding .thread h ∨ ¬ k.hasStack .thread h then some k
      else (k.setThrowStatus .thread h .user).preemptWithThread h

/-- The resets of a process change; `reset_changed` also calls `throw_reset` when one is
asserted. -/
def resetChanged (d : Kind) (h : Handle) (t : ThrowStatus) (k : Processor) : Processor :=
  let k := k.setActiveReset d h t
  if t = .none ∧ (k.throwStatus d h = .syncReset ∨ k.throwStatus d h = .asyncReset) then
    k.setThrowStatus d h .none
  else k

end Processor

/-- `sc_stop` in the immediate mode. -/
def Act.stops : Act → Bool
  | .stopImmediate => true
  | _ => false

/-- What code that runs may do. -/
inductive Move
  /-- The kernel goes on. -/
  | proceed
  | act (a : Act)
  /-- A thread suspends itself, by any of the functions that call `suspend_me`. -/
  | wait
  | kill (d : Kind) (h : Handle)
  | reset (d : Kind) (h : Handle) (async : Bool)
  | throwUser (d : Kind) (h : Handle)
  | resetChanged (d : Kind) (h : Handle) (t : ThrowStatus)
  /-- The body of the running process ends. -/
  | finish (e : Ending)

namespace Processor

section Marks
variable (observer : Bool)

/-- A notification, if there is an observer. -/
def announce (n : Notification) : List Mark := if observer then [.notified n] else []

/-! ### The kernel goes on -/

/-- The exception that `suspend_me` throws also leaves `invoke_method`. -/
def leaveInvoke : List Activation → List Activation
  | .invoked _ :: as => as
  | as => as

/-- The end of `suspend_me` of the thread `h` with `as` on the stack below it. -/
def resume (h : Handle) (t : ThrowStatus) (as : List Activation) (k : Processor) : Processor :=
  match t with
  | .none => k.setStack as
  | .user => (k.setStack (leaveInvoke as)).setThrowStatus .thread h (k.activeReset .thread h)
  | _ => (k.setStack (leaveInvoke as)).setUnwinding .thread h true

/-- `crunch` after the threads: it is left, begins another round, or ends the phase. -/
def afterThreads (k : Processor) : Processor :=
  if k.sched.error ∨ k.stopped then { k with evaluation := .out }
  else if k.sched.runnable.isEmpty then { k with evaluation := .between }
  else
    { k with
      evaluation := .methods
      sched := { k.sched with runnable := k.sched.runnable.toggleMethods } }

/-- `crunch`, up to the next body or switch. -/
def crunch (k : Processor) : Option Processor :=
  match k.evaluation with
  | .between =>
      some { k with
        evaluation := .methods
        sched := { k.sched with runnable := k.sched.runnable.toggleMethods } }
  | .methods => do
      let (h, s) ← k.sched.popRunnableMethod
      if h ≠ null then pure ({ k with sched := s }.runProcess h .crunch)
      else
        let s := { s with runnable := s.runnable.toggleThreads }
        let (cor, s) ← s.nextCorLoop addressSpace
        let k := { k with sched := s }
        match cor with
        | .main => pure k.afterThreads
        | .thread _ => ({ k with evaluation := .yielding }).switch cor
  | .yielding => some k.afterThreads
  | .out => none

/-- The running coroutine goes on in the kernel. -/
def proceed (k : Processor) : Option (List Mark × Processor) :=
  match k.stack k.cor with
  | .crunch :: _ => k.crunch.map ([], ·)
  | .start h :: as =>
      let a := if k.isInvoker h then .invoker h else .thread h
      some ([], (k.setStack (a :: as)).semantics .thread h)
  | .invoker h :: _ =>
      if k.isUnwinding .thread h then none
      else
        let m := k.invokedMethod
        some ([], (k.setCurrProc (some (.method, m))).runProcess m (.invoker h))
  | .suspendMe h :: as => do
      match ← k.sched.suspendMe h with
      | (.resumed t, s) =>
          pure (announce observer .threadSuspend, { k with sched := s }.resume h t as)
      | (.switched cor, s) =>
          let k' ← ({ k with sched := s }.setStack (.suspended h :: as)).switch cor
          pure (announce observer .threadSuspend ++ [.left h], k')
  | .suspended h :: as => some ([], k.resume h (k.sched.pendingThrow h) as)
  | .yielded caller :: as =>
      match caller with
      | some (.method, h) =>
          (((k.setStack as).setCurrProc caller).checkForThrows h).map ([], ·)
      -- the caller is dereferenced
      | _ => none
  | .invoked i :: as => some ([], { k with invokers := k.invokers ++ [i] }.setStack as)
  | _ => none

/-! ### A body ends -/

/-- `run_process` returns `ok`, and the stack is `as`. -/
def returnFrom (h : Handle) (d : Dispatcher) (ok : Bool) (as : List Activation)
    (k : Processor) :
    Option (List Mark × Processor) :=
  let k := k.setStack as
  match d with
  | .crunch =>
      some (.ended h :: announce observer .methodSuspend,
        if ok then k else { k with evaluation := .out })
  | .preempt none => some ([.ended h], k.setCurrProc none)
  | .preempt (some caller) =>
      ((k.setCurrProc (some (.method, caller))).checkForThrows caller).map ([.ended h], ·)
  | .invoker me => some ([.ended h], (k.setCurrProc (some (.thread, me))).push (.suspendMe me))

/-- The exception that leaves the body is a reset. -/
def Restarts (d : Kind) (h : Handle) (e : Ending) (k : Processor) : Prop :=
  e = .unwound ∧ k.throwStatus d h ≠ .kill

instance (d : Kind) (h : Handle) (e : Ending) (k : Processor) : Decidable (k.Restarts d h e) :=
  inferInstanceAs (Decidable (_ ∧ _))

/-- The body of a method ends. -/
def finishMethod (h : Handle) (d : Dispatcher) (e : Ending) (as : List Activation)
    (k : Processor) : Option (List Mark × Processor) :=
  if k.isUnwinding .method h ≠ decide (e = .unwound) then none
  else if k.Restarts .method h e then
    some ([.ended h], (k.setUnwinding .method h false).semantics .method h)
  else
    let k := (k.setUnwinding .method h false).setHasStack .method h false
    match e with
    | .returned | .unwound => k.returnFrom observer h d true as
    | _ => { k with sched := { k.sched with error := true } }.returnFrom observer h d false as

/-- The end of `sc_thread_cor_fn`, for the active thread. -/
def terminate (h : Handle) (k : Processor) : Option (List Mark × Processor) := do
  let k := (k.setZombie .thread h true).setHasStack .thread h false
  if k.sched.currProc ≠ some (.thread, h) then none
  else
    match ← k.sched.finish h with
    | (.switched cor, s) =>
        let k' ← ({ k with sched := s }.setStack []).switch cor
        pure ([.left h], k')
    | (.resumed _, _) => none

/-- The body of a thread ends. -/
def finishThread (h : Handle) (e : Ending) (k : Processor) : Option (List Mark × Processor) :=
  if k.isUnwinding .thread h ≠ decide (e = .unwound) then none
  else if e = .user ∨ k.Restarts .thread h e then
    some ([], (k.setUnwinding .thread h false).semantics .thread h)
  else
    let k := k.setUnwinding .thread h false
    if e = .error then { k with sched := { k.sched with error := true } }.terminate h
    else k.terminate h

/-- The body on the stack ends. The loop of `invoker` is left by exceptions only. -/
def finish (e : Ending) (k : Processor) : Option (List Mark × Processor) :=
  match k.stack k.cor with
  | .method h d :: as => k.finishMethod observer h d e as
  | .thread h :: _ => k.finishThread h e
  | .invoker h :: _ => if e = .returned then none else k.finishThread h e
  | _ => none

/-! ### Steps -/

/-- Code that is not the kernel's runs: the body of a process, or, between the evaluation
phases, the channels and the clocks. -/
def inBody (k : Processor) : Bool :=
  match k.stack k.cor with
  | .method _ _ :: _ | .thread _ :: _ => true
  | .crunch :: _ => k.evaluation = .between
  | _ => false

/-- A request of the code that runs. -/
def request : Move → Processor → Option Processor
  | .act a, k =>
      (k.sched.act a).map fun s => { k with sched := s, stopped := k.stopped || a.stops }
  | .wait, k =>
      match k.stack k.cor with
      | .thread h :: _ => some (k.push (.suspendMe h))
      | _ => none
  | .kill d h, k => k.killProcess d h
  | .reset d h async, k => k.throwReset d h async
  | .throwUser d h, k => k.throwUser d h
  | .resetChanged d h t, k => some (k.resetChanged d h t)
  | _, _ => none

/-- One step of the running coroutine. -/
def step : Move → Processor → Option (List Mark × Processor)
  | .proceed, k => k.proceed observer
  | .finish e, k => k.finish observer e
  | m, k => if k.inBody then (k.request m).map ([], ·) else none

end Marks
end Processor
end Pscv.Kernel
