import Pscv.Kernel.Observer
import Pscv.Lib.Machine
import Pscv.Mag.StepFooter

/-!
# The generated monitor

The generators emit a class: a constructor, `step()`, and one function for each callback.
A name in an emitted function means the parameter or the local variable of that name if
there is one, and the member otherwise; `step()` declares `cmd`, `outputstate` and, when
it writes to a file, `tracefile`.

A call has no result where the simulation ends in it (`#plasma-quit#`, a trace file that
cannot be opened) or where it waits for a command for ever.

## Main results

* `callbacks_print_causes`.
-/

namespace Pscv.Mag

open Pscv.Lib Pscv.Kernel

/-- A statement of the emitted constructor and callbacks. -/
inductive Action
  | assignObj (name param : String)
  | assignBool (name : String) (b : Bool)
  | assignZero (name : String)
  | assignParam (name param : String)
  | ifEvent (event name : String) (b : Bool)
  | step
  deriving DecidableEq

/-- An emitted function. -/
structure Func where
  params : List String
  body : List Action
  deriving DecidableEq

/-- The names of the emitted callbacks. -/
inductive FuncName
  | kernel (p : SamplePoint)
  | eventNotified
  | userloc (clk : String)
  | value (name : String)
  deriving DecidableEq

/-! ## The generators -/

/-- `kernel_clocks`. -/
def kernelClocks : List SamplePoint :=
  [.initPhaseBegin, .initPhaseEnd, .initUpdatePhaseBegin, .initUpdatePhaseEnd,
    .initDeltaNotifyPhaseBegin, .initDeltaNotifyPhaseEnd, .deltaCycleBegin, .deltaCycleEnd,
    .evaluationPhaseBegin, .evaluationPhaseEnd, .updatePhaseBegin, .updatePhaseEnd,
    .deltaNotifyPhaseBegin, .deltaNotifyPhaseEnd, .timedNotifyPhaseBegin, .timedNotifyPhaseEnd,
    .methodSuspend, .threadSuspend]

/-- The name of a kernel clock. -/
def clockName : SamplePoint → String
  | .initPhaseBegin => "MON_INIT_PHASE_BEGIN"
  | .initPhaseEnd => "MON_INIT_PHASE_END"
  | .initUpdatePhaseBegin => "MON_INIT_UPDATE_PHASE_BEGIN"
  | .initUpdatePhaseEnd => "MON_INIT_UPDATE_PHASE_END"
  | .initDeltaNotifyPhaseBegin => "MON_INIT_DELTA_NOTIFY_PHASE_BEGIN"
  | .initDeltaNotifyPhaseEnd => "MON_INIT_DELTA_NOTIFY_PHASE_END"
  | .deltaCycleBegin => "MON_DELTA_CYCLE_BEGIN"
  | .deltaCycleEnd => "MON_DELTA_CYCLE_END"
  | .evaluationPhaseBegin => "MON_EVALUATION_PHASE_BEGIN"
  | .evaluationPhaseEnd => "MON_EVALUATION_PHASE_END"
  | .updatePhaseBegin => "MON_UPDATE_PHASE_BEGIN"
  | .updatePhaseEnd => "MON_UPDATE_PHASE_END"
  | .deltaNotifyPhaseBegin => "MON_DELTA_NOTIFY_PHASE_BEGIN"
  | .deltaNotifyPhaseEnd => "MON_DELTA_NOTIFY_PHASE_END"
  | .timedNotifyPhaseBegin => "MON_TIMED_NOTIFY_PHASE_BEGIN"
  | .timedNotifyPhaseEnd => "MON_TIMED_NOTIFY_PHASE_END"
  | .methodSuspend => "MON_METHOD_SUSPEND"
  | .threadSuspend => "MON_THREAD_SUSPEND"

/-- `strcasecmp(a, b) == 0`. -/
def strcaseEq (a b : String) : Bool :=
  (cString a.toList).map Char.toLower = (cString b.toList).map Char.toLower

section Generators
variable (gp : GlobalParams) (mp : MonitorParams)

/-- The event that an event clock label stands for. -/
def eventName (label : String) : String := getEventFromClock (gp.getEventClock label)

/-- The members that are declared `bool` and stand for clocks. -/
def boolLabels : List String :=
  (eventClockLabels gp mp).toList ++ gp.funcLocs.map FuncLoc.locName ++
    gp.plocations.map PLocation.locName

/-- The members that hold user values. -/
def userValNames : List String := gp.userVals.map UserVal.valName

/-- The parameters of the constructor. -/
def ctorParams : List String :=
  "obs" :: (List.range gp.vartypes.toList.length).map fun i => "obj" ++ toString i

/-- The local variables of `step()`. -/
def stepLocals : List String :=
  ["cmd", "outputstate"] ++ if gp.writeToFile then ["tracefile"] else []

/-- The assignments of the constructor. -/
def ctorBody : List Action :=
  [.assignObj "observer" "obs"] ++
  (gp.vartypes.toList.zipIdx.map fun p => .assignObj p.1.1 ("obj" ++ toString p.2)) ++
  (gp.funcLocs.map fun l => .assignBool l.locName false) ++
  (gp.plocations.map fun l => .assignBool l.locName false) ++
  (gp.userVals.map fun v => .assignZero v.valName) ++
  ((eventClockLabels gp mp).toList.map fun label => .assignBool label false)

/-- `generate_code_for_start_of_monitor_constructor`, without the registration. The
vectors are indexed with an `unsigned int`. -/
def monitorConstructor : Option Func :=
  if gp.funcLocs.length < 2 ^ 32 ∧ gp.plocations.length < 2 ^ 32 ∧
      gp.userVals.length < 2 ^ 32 then
    some ⟨ctorParams gp, ctorBody gp mp⟩
  else none

/-- The callback of the observed events. -/
def eventFunc : Func where
  params := ["event"]
  body :=
    ((eventClockLabels gp mp).toList.map fun label => .ifEvent (eventName gp label) label true)
    ++ [.step] ++
    ((eventClockLabels gp mp).toList.map fun label =>
      .ifEvent (eventName gp label) label false)

/-- A clock is a kernel clock or the default clock. -/
def isKernelClock (clk : String) : Bool :=
  strcaseEq clk "DEFAULT_CLOCK" || kernelClocks.any fun p => strcaseEq clk (clockName p)

/-- The functions for one clock. -/
def clockFuncs (clk : String) : List (FuncName × Func) :=
  if isKernelClock clk then
    (kernelClocks.filter fun p => strcaseEq clk (clockName p) ||
      strcaseEq clk "DEFAULT_CLOCK").map
      fun p => (.kernel p, ⟨[], [.step]⟩)
  else if !gp.isEventClock clk then
    [(.userloc clk, ⟨[], [.assignBool clk true, .step, .assignBool clk false]⟩)]
  else []

/-- `observer_callbacks`. -/
def observerCallbacks : List (FuncName × Func) :=
  (if (eventClockLabels gp mp).toList.isEmpty then [] else
    [(.eventNotified, eventFunc gp mp)]) ++ mp.clocks.toList.flatMap (clockFuncs gp)

/-- The parameter of a value callback. -/
def actualParamName (valName : String) : String := if valName = "val" then "value" else "val"

/-- `generate_value_callbacks`. -/
def generateValueCallbacks : Option (List (FuncName × Func)) :=
  if gp.userVals.length < 2 ^ 32 then
    some (gp.userVals.map fun v => (.value v.valName,
      ⟨[actualParamName v.valName], [.assignParam v.valName (actualParamName v.valName)]⟩))
  else none

/-- The callbacks of the generated class. -/
def monitorClass : Option (List (FuncName × Func)) :=
  (generateValueCallbacks gp).map fun fs => observerCallbacks gp mp ++ fs

end Generators

/-! ## The generated code -/

/-- What the types of the user values are needed for. -/
structure Values (V : Type) where
  zero : V
  ofBool : Bool → V
  text : V → String

/-- The members of the monitor, and the commands that stdin still holds. -/
structure MonState (V : Type) where
  bools : String → Bool
  vals : String → V
  stdin : List String

/-- A call of a callback. -/
inductive Call (E V : Type)
  | kernel (p : SamplePoint)
  | eventNotified (e : E)
  | userloc (clk : String)
  | value (name : String) (x : V)

/-- The function that a call enters. -/
def Call.func {E V : Type} : Call E V → FuncName
  | kernel p => .kernel p
  | eventNotified _ => .eventNotified
  | userloc clk => .userloc clk
  | value name _ => .value name

/-- The loop of `step_header`: read commands up to a request for a new state. -/
def readCommand : List String → Option (List String)
  | [] => none
  | cmd :: stdin =>
      if cString cmd.toList = "#plasma-quit#".toList then none
      else if cString cmd.toList ≠ "#plasma-newstate#".toList then readCommand stdin
      else some stdin

section Semantics
variable {E V : Type} [DecidableEq E] (gp : GlobalParams) (mp : MonitorParams)
variable (addr : String → E) (values : Values V)

/-- The values of expressions in `step()`. A pointer and a stream are true, and `cmd`
holds the command. -/
def stepEnv (env : Env) (σ : MonState V) : Env where
  bool e :=
    if e ∈ stepLocals gp then true
    else if e ∈ boolLabels gp mp then σ.bools e
    else env.bool e
  text e :=
    if e ∈ stepLocals gp then (if e = "cmd" then "#plasma-newstate#" else env.text e)
    else if e ∈ userValNames gp then values.text (σ.vals e)
    else env.text e
  traceGood := env.traceGood
  -- A label with a member is an identifier, which stands for itself in a literal.
  literal label := if label ∈ boolLabels gp mp ++ userValNames gp then label
    else env.literal label

/-- `step()`: the lines it prints. -/
def stepLines (env : Env) (σ : MonState V) : Option (List String × MonState V) := do
  let stdin ← readCommand σ.stdin
  let code ← stepFooter gp mp
  if code = [] then some ([], { σ with stdin })
  else
    match Mag.run (stepEnv gp mp values env σ) code ⟨"", "", ""⟩ with
    | .ok out => some ([out.cout], { σ with stdin })
    | .error _ => none

/-- Assign a Boolean constant to what a name means. -/
def assign (params : List String) (name : String) (b : Bool) (σ : MonState V) : MonState V :=
  if name ∈ params then σ
  else if name ∈ userValNames gp then
    { σ with vals := Function.update σ.vals name (values.ofBool b) }
  else { σ with bools := Function.update σ.bools name b }

/-- Assign a value to what a name means. -/
def assignVal (params : List String) (name : String) (x : V) (σ : MonState V) : MonState V :=
  if name ∈ params then σ else { σ with vals := Function.update σ.vals name x }

/-- Run one statement. -/
def Action.exec (params : List String) (c : Option (Call E V)) (env : Env) (σ : MonState V) :
    Action → Option (List String × MonState V)
  | assignObj _ _ => some ([], σ)
  | assignBool name b => some ([], assign gp values params name b σ)
  | assignZero name => some ([], assignVal params name values.zero σ)
  | assignParam name _ =>
      match c with
      | some (.value _ x) => some ([], assignVal params name x σ)
      | _ => some ([], σ)
  | ifEvent event name b =>
      match c with
      | some (.eventNotified e) =>
          if addr event = e then some ([], assign gp values params name b σ) else some ([], σ)
      | _ => some ([], σ)
  | step => stepLines gp mp values env σ

/-- Run a function. -/
def execFunc (c : Option (Call E V)) (env : Env) (f : Func) (σ : MonState V) :
    Option (List String × MonState V) :=
  (Pscv.Lib.run (fun a σ => a.exec gp mp addr values f.params c env σ) f.body σ).map fun r =>
    (r.1.flatten, r.2)

/-- Call back the monitor. What the class does not define is empty in its base class. -/
def call (ce : Call E V × Env) (σ : MonState V) : Option (List String × MonState V) := do
  let fs ← monitorClass gp mp
  match fs.find? fun p => p.1 = ce.1.func with
  | some p => execFunc gp mp addr values (some ce.1) ce.2 p.2 σ
  | none => some ([], σ)

/-- Construct a monitor in a piece of memory. -/
def construct (env : Env) (σ : MonState V) : Option (MonState V) := do
  let f ← monitorConstructor gp mp
  let r ← execFunc gp mp addr values none env f σ
  pure r.2

/-! ## What a call should print -/

/-- The labels that a call makes true. -/
def Call.causes : Call E V → String → Bool
  | eventNotified e, name =>
      name ∈ (eventClockLabels gp mp).toList ∧ addr (eventName gp name) = e
  | userloc clk, name => name = clk
  | _, _ => false

/-- The argument of the latest value callback of a name. -/
def latest (name : String) (cs : List (Call E V)) : V :=
  cs.foldl (fun x c => match c with
    | .value name' y => if name' = name then y else x
    | _ => x) values.zero

/-- The pairs that a call prints after earlier calls, the attributes left out. -/
def causedPairs (cs : List (Call E V)) (c : Call E V) : List (String × String) :=
  (boolLabels gp mp).map (fun name => (name, boolText (c.causes gp mp addr name))) ++
    (userValNames gp).map fun name => (name, values.text (latest values name cs))

/-- A line consists of pairs, in their order, with separators between and after them. -/
def PrintsPairs (line : String) (ps : List (String × String)) : Prop :=
  ∃ time l, l.map Prod.fst = ps.map chars ∧
    line = stateLine time (String.ofList (weave sep l))

/-- The labels of the observed items are distinct. -/
def DistinctLabels : Prop :=
  (gp.attributelabels.toList.map Prod.fst ++ boolLabels gp mp ++ userValNames gp).Nodup

/-- No label is hidden by a parameter or a local variable where the emitted code uses it,
and no user value is taken as a clock. -/
structure Unclashed : Prop where
  ctor : ∀ name ∈ boolLabels gp mp ++ userValNames gp, name ∉ ctorParams gp
  event : "event" ∉ (eventClockLabels gp mp).toList
  step : ∀ name ∈ boolLabels gp mp ++ userValNames gp, name ∉ stepLocals gp
  clock : ∀ name ∈ userValNames gp, name ∈ mp.clocks.toList → isKernelClock name

/-- Between calls every label is false and every user value is the latest one. -/
structure Idle (cs : List (Call E V)) (σ : MonState V) : Prop where
  bools : ∀ name ∈ boolLabels gp mp, σ.bools name = false
  vals : ∀ name ∈ userValNames gp, σ.vals name = latest values name cs

end Semantics

section Proofs
variable {E V : Type} [DecidableEq E] {gp : GlobalParams} {mp : MonitorParams}
variable {addr : String → E} {values : Values V} {env : Env} {σ σ' : MonState V}
variable {lines : List String}

/-! ## `step()` -/

theorem observed_eq (ρ : Env) : observed ρ gp mp
    = gp.attributelabels.toList.map (attributeItem ρ gp.attributetypes) ++
      ((boolLabels gp mp).map (boolItem ρ) ++ (userValNames gp).map (exprItem ρ)) := by
  simp [observed, boolLabels, userValNames]

/-- A line of the emitted code consists of the observed pairs. -/
theorem printsPairs_observed {ρ : Env} {code : List Stmt} {out : Out}
    (hcode : stepFooter gp mp = some code) (hne : code ≠ [])
    (hrun : Mag.run ρ code ⟨"", "", ""⟩ = .ok out) :
    PrintsPairs out.cout ((observed ρ gp mp).map (written ρ)) := by
  have hsome : observesSome gp mp := by
    by_contra h
    rw [stepFooter, if_neg h] at hcode
    exact hne (Option.some.inj hcode).symm
  obtain ⟨body, hbody⟩ := exists_stepFooterBody hcode hsome
  obtain ⟨code', hcode', hrun'⟩ :=
    run_stepFooter hbody hsome (traceGood_of_run hcode hsome hrun) "" ""
  obtain rfl := Option.some.inj (hcode.symm.trans hcode')
  obtain rfl := Except.ok.inj (hrun.symm.trans hrun')
  refine ⟨ρ.text "sc_time_stamp()", attach (footerGroups ρ gp mp), ?_, ?_⟩
  · rw [map_fst_attach, map_fst_footerGroups, List.map_map]
    rfl
  · have hbody : texts ρ body = String.ofList (weave sep (attach (footerGroups ρ gp mp))) := by
      rw [← String.toList_inj, texts_stepFooterBody hbody, groups_eq_weave,
        String.toList_ofList]
      simp
    rw [← hbody]
    exact String.empty_append

/-- **`step()` changes no member** and prints the observed pairs. -/
theorem stepLines_spec (h : stepLines gp mp values env σ = some (lines, σ')) :
    σ'.bools = σ.bools ∧ σ'.vals = σ.vals ∧
      ∀ line ∈ lines, PrintsPairs line ((observed (stepEnv gp mp values env σ) gp mp).map
        (written (stepEnv gp mp values env σ))) := by
  simp only [stepLines, Option.bind_eq_bind, Option.bind_eq_some_iff] at h
  obtain ⟨stdin, -, code, hcode, h⟩ := h
  split_ifs at h with hnil
  · obtain ⟨rfl, rfl⟩ := Prod.mk.inj (Option.some.inj h)
    simp
  · split at h
    · rename_i out hrun
      obtain ⟨rfl, rfl⟩ := Prod.mk.inj (Option.some.inj h)
      simpa using printsPairs_observed hcode hnil hrun
    · cases h

/-- What `step()` writes for labels that nothing hides. -/
theorem written_stepEnv (hd : DistinctLabels gp mp) (hu : Unclashed gp mp) (values : Values V)
    (env : Env) (σ : MonState V) :
    ∃ attrs, attrs.map Prod.fst = gp.attributelabels.toList.map (fun p => env.literal p.1) ∧
      (observed (stepEnv gp mp values env σ) gp mp).map
        (written (stepEnv gp mp values env σ)) =
        attrs ++ ((boolLabels gp mp).map (fun name => (name, boolText (σ.bools name))) ++
          (userValNames gp).map fun name => (name, values.text (σ.vals name))) := by
  rw [observed_eq, List.map_append, List.map_append, List.map_map, List.map_map]
  refine ⟨_, ?_, congrArg _ (congrArg₂ _ ?_ ?_)⟩
  · rw [List.map_map]
    refine List.map_congr_left fun p hp => ?_
    have hother : p.1 ∉ boolLabels gp mp ++ userValNames gp := by
      rw [DistinctLabels, List.append_assoc] at hd
      exact (List.disjoint_of_nodup_append hd) (List.mem_map_of_mem hp)
    exact if_neg hother
  · refine List.map_congr_left fun name hname => ?_
    have hstep := hu.step name (List.mem_append_left _ hname)
    simp [written, boolItem, stepEnv, hstep, hname]
  · rw [List.map_map]
    refine List.map_congr_left fun name hname => ?_
    have hstep := hu.step name (List.mem_append_right _ hname)
    simp [written, exprItem, stepEnv, hstep, hname]

/-- A state of `step()` prints the pairs of the call it stands for. -/
theorem stepLines_caused (hd : DistinctLabels gp mp) (hu : Unclashed gp mp)
    {cs : List (Call E V)} {c : Call E V}
    (hbools : ∀ name ∈ boolLabels gp mp, σ.bools name = c.causes gp mp addr name)
    (hvals : ∀ name ∈ userValNames gp, σ.vals name = latest values name cs)
    (h : stepLines gp mp values env σ = some (lines, σ')) :
    ∀ line ∈ lines, ∃ attrs,
      attrs.map Prod.fst = gp.attributelabels.toList.map (fun p => env.literal p.1) ∧
        PrintsPairs line (attrs ++ causedPairs gp mp addr values cs c) := by
  intro line hline
  obtain ⟨attrs, hattrs, hwritten⟩ := written_stepEnv hd hu values env σ
  refine ⟨attrs, hattrs, ?_⟩
  have hprint := (stepLines_spec h).2.2 line hline
  rw [hwritten] at hprint
  convert hprint using 2
  refine congrArg₂ _ (List.map_congr_left fun name hname => ?_)
    (List.map_congr_left fun name hname => ?_)
  · rw [hbools name hname]
  · rw [hvals name hname]

/-! ## Assignments -/

/-- Set the Boolean members of a predicate. -/
def setBools (p : String → Bool) (b : Bool) (σ : MonState V) : MonState V :=
  { σ with bools := fun name => if p name then b else σ.bools name }

/-- Set user values to zero. -/
def setZeros (values : Values V) (names : List String) (σ : MonState V) : MonState V :=
  { σ with vals := fun name => if name ∈ names then values.zero else σ.vals name }

/-- Statements print nothing and change the state by `f`. -/
def Quiet (gp : GlobalParams) (mp : MonitorParams) (addr : String → E) (values : Values V)
    (params : List String) (c : Option (Call E V)) (env : Env) (body : List Action)
    (f : MonState V → MonState V) : Prop :=
  ∀ σ, ∃ outs, outs.flatten = [] ∧
    Pscv.Lib.run (fun a σ => a.exec gp mp addr values params c env σ) body σ = some (outs, f σ)

section Quiet
variable {params : List String} {c : Option (Call E V)} {f g : MonState V → MonState V}

theorem Quiet.nil : Quiet gp mp addr values params c env [] id :=
  fun _ => ⟨[], rfl, rfl⟩

theorem Quiet.cons {a : Action} {body : List Action}
    (ha : ∀ σ, a.exec gp mp addr values params c env σ = some ([], f σ))
    (hbody : Quiet gp mp addr values params c env body g) :
    Quiet gp mp addr values params c env (a :: body) (g ∘ f) := by
  intro σ
  obtain ⟨outs, houts, hrun⟩ := hbody (f σ)
  refine ⟨[] :: outs, by simpa using houts, ?_⟩
  rw [Pscv.Lib.run_cons, ha, Option.bind_some, hrun]
  rfl

theorem Quiet.append {body body' : List Action}
    (h : Quiet gp mp addr values params c env body f)
    (h' : Quiet gp mp addr values params c env body' g) :
    Quiet gp mp addr values params c env (body ++ body') (g ∘ f) := by
  intro σ
  obtain ⟨outs, houts, hrun⟩ := h σ
  obtain ⟨outs', houts', hrun'⟩ := h' (f σ)
  refine ⟨outs ++ outs', by simp [houts, houts'], ?_⟩
  rw [Pscv.Lib.run_append, hrun, Option.bind_some, hrun']
  rfl

/-- Statements that each set the Boolean members of a predicate. -/
theorem Quiet.map_setBools {β : Type} {a : β → Action} {q : β → String → Bool} {b : Bool}
    {l : List β} (h : ∀ x ∈ l, ∀ σ,
      (a x).exec gp mp addr values params c env σ = some ([], setBools (q x) b σ)) :
    Quiet gp mp addr values params c env (l.map a)
      (setBools (fun name => l.any fun x => q x name) b) := by
  induction l with
  | nil => exact fun σ => ⟨[], rfl, rfl⟩
  | cons x l ih =>
      have hfun : (setBools (fun name => (x :: l).any fun x => q x name) b : MonState V → _)
          = setBools (fun name => l.any fun x => q x name) b ∘ setBools (q x) b := by
        funext σ
        simp only [setBools, Function.comp_apply, List.any_cons, MonState.mk.injEq, and_true]
        funext name
        by_cases hx : q x name <;> simp [hx]
      rw [hfun]
      exact Quiet.cons (h x (by simp)) (ih fun y hy => h y (by simp [hy]))

theorem Quiet.map_assignZero {l : List String} (h : ∀ name ∈ l, name ∉ params) :
    Quiet gp mp addr values params c env (l.map .assignZero) (setZeros values l) := by
  induction l with
  | nil => exact fun σ => ⟨[], rfl, by simp [setZeros]⟩
  | cons name l ih =>
      have hx : ∀ σ, (Action.assignZero name).exec gp mp addr values params c env σ
          = some ([], setZeros values [name] σ) := by
        intro σ
        have hname := h name (by simp)
        simp only [Action.exec, assignVal, hname, if_false, setZeros, List.mem_singleton]
        congr
        funext other
        exact Function.update_apply _ _ _ other
      have hfun : setZeros values (name :: l) =
          setZeros values l ∘ setZeros values [name] := by
        funext σ
        simp only [setZeros, Function.comp_apply, MonState.mk.injEq, and_true, true_and]
        funext other
        by_cases h₁ : other = name <;> by_cases h₂ : other ∈ l <;> simp [h₁, h₂]
      rw [hfun]
      exact Quiet.cons hx (ih fun y hy => h y (by simp [hy]))

theorem exec_assignBool {name : String} {b : Bool} (hparam : name ∉ params)
    (hval : name ∉ userValNames gp) (σ : MonState V) :
    (Action.assignBool name b).exec gp mp addr values params c env σ
      = some ([], setBools (fun n => n = name) b σ) := by
  simp only [Action.exec, assign, hparam, hval, if_false, setBools]
  congr
  funext other
  simp [Function.update_apply]

theorem exec_step (σ : MonState V) : Action.step.exec gp mp addr values params c env σ
    = stepLines gp mp values env σ := rfl

/-- `step()` between two quiet blocks. -/
theorem execFunc_bracket {body body' : List Action}
    (h : Quiet gp mp addr values params c env body f)
    (h' : Quiet gp mp addr values params c env body' g)
    (hexec : execFunc gp mp addr values c env ⟨params, body ++ [.step] ++ body'⟩ σ
      = some (lines, σ')) :
    ∃ σ₁, stepLines gp mp values env (f σ) = some (lines, σ₁) ∧ σ' = g σ₁ := by
  obtain ⟨outs, houts, hrun⟩ := h σ
  simp only [execFunc, Pscv.Lib.run_append, hrun, Option.bind_some, Pscv.Lib.run_cons,
    Pscv.Lib.run_nil, exec_step] at hexec
  cases hstep : stepLines gp mp values env (f σ) with
  | none => simp [hstep] at hexec
  | some r =>
      obtain ⟨outs', houts', hrun'⟩ := h' r.2
      simp only [hstep, hrun', Option.bind_some, Option.map_some, Option.some.injEq,
        Prod.mk.injEq, List.flatten_append, houts, houts'] at hexec
      obtain ⟨hlines, rfl⟩ := hexec
      refine ⟨r.2, ?_, rfl⟩
      simp at hlines
      rw [← hlines]

end Quiet

/-! ## Calls -/

theorem DistinctLabels.not_mem_userVals (hd : DistinctLabels gp mp) {name : String}
    (hname : name ∈ boolLabels gp mp) : name ∉ userValNames gp := by
  intro hval
  obtain ⟨-, -, hdisj⟩ := List.nodup_append.mp hd
  exact hdisj name (List.mem_append_right _ hname) name hval rfl

theorem mem_boolLabels_of_eventClock {name : String}
    (h : name ∈ (eventClockLabels gp mp).toList) : name ∈ boolLabels gp mp := by
  simp [boolLabels, h]

/-- The functions of the generated class. -/
theorem mem_monitorClass {fs : List (FuncName × Func)} {p : FuncName × Func}
    (h : monitorClass gp mp = some fs) (hp : p ∈ fs) :
    p = (.eventNotified, eventFunc gp mp) ∨ (∃ k, p = (.kernel k, ⟨[], [.step]⟩)) ∨
      (∃ clk ∈ mp.clocks.toList, ¬ isKernelClock clk ∧
        p = (.userloc clk, ⟨[], [.assignBool clk true, .step, .assignBool clk false]⟩)) ∨
      ∃ name ∈ userValNames gp, p = (.value name,
        ⟨[actualParamName name], [.assignParam name (actualParamName name)]⟩) := by
  obtain ⟨fs', hfs', rfl⟩ := Option.map_eq_some_iff.mp h
  rw [generateValueCallbacks] at hfs'
  split_ifs at hfs'
  obtain rfl := Option.some.inj hfs'
  simp only [observerCallbacks, List.mem_append, List.mem_flatMap, List.mem_map] at hp
  rcases hp with (hp | ⟨clk, hclk, hp⟩) | ⟨v, hv, rfl⟩
  · split_ifs at hp with hempty
    · simp at hp
    · exact .inl (by simpa using hp)
  · rw [clockFuncs] at hp
    split_ifs at hp with hkernel hevent
    · obtain ⟨k, -, rfl⟩ := List.mem_map.mp hp
      exact .inr (.inl ⟨k, rfl⟩)
    · exact .inr (.inr (.inl ⟨clk, hclk, hkernel, by simpa using hp⟩))
    · simp at hp
  · exact .inr (.inr (.inr ⟨v.valName, List.mem_map_of_mem hv, rfl⟩))

/-- A user value has a callback. -/
theorem exists_value_func {fs : List (FuncName × Func)} {name : String}
    (h : monitorClass gp mp = some fs) (hname : name ∈ userValNames gp) :
    ∃ p ∈ fs, p.1 = .value name := by
  obtain ⟨fs', hfs', rfl⟩ := Option.map_eq_some_iff.mp h
  rw [generateValueCallbacks] at hfs'
  split_ifs at hfs'
  obtain rfl := Option.some.inj hfs'
  obtain ⟨v, hv, rfl⟩ := List.mem_map.mp hname
  exact ⟨_, List.mem_append_right _ (List.mem_map_of_mem hv), rfl⟩

omit [DecidableEq E] in
theorem latest_append (name : String) (cs : List (Call E V)) (c : Call E V) :
    latest values name (cs ++ [c]) = match c with
      | .value name' y => if name' = name then y else latest values name cs
      | _ => latest values name cs := by
  simp [latest]

/-- What a call is proved to do. -/
structure CallSpec (values : Values V) (addr : String → E) (env : Env) (gp : GlobalParams)
    (mp : MonitorParams) (cs : List (Call E V)) (c : Call E V) (lines : List String)
    (σ' : MonState V) : Prop where
  idle : Idle gp mp values (cs ++ [c]) σ'
  prints : ∀ line ∈ lines, ∃ attrs,
    attrs.map Prod.fst = gp.attributelabels.toList.map (fun p => env.literal p.1) ∧
      PrintsPairs line (attrs ++ causedPairs gp mp addr values cs c)

/-- **A callback that sets labels around `step()`.** -/
theorem callSpec_of_bracket (hd : DistinctLabels gp mp) (hu : Unclashed gp mp)
    {cs : List (Call E V)} {c : Call E V}
    (H : Idle gp mp values cs σ) {f : Func} {body body' : List Action} {p : String → Bool}
    (hbody : f.body = body ++ [.step] ++ body')
    (h : Quiet gp mp addr values f.params (some c) env body (setBools p true))
    (h' : Quiet gp mp addr values f.params (some c) env body' (setBools p false))
    (hp : ∀ name ∈ boolLabels gp mp, p name = c.causes gp mp addr name)
    (hc : ∀ name x, c ≠ .value name x)
    (hexec : execFunc gp mp addr values (some c) env f σ = some (lines, σ')) :
    CallSpec values addr env gp mp cs c lines σ' := by
  obtain ⟨params, fbody⟩ := f
  subst hbody
  obtain ⟨σ₁, hstep, rfl⟩ := execFunc_bracket h h' hexec
  obtain ⟨hbools, hvals, -⟩ := stepLines_spec hstep
  refine ⟨⟨fun name hname => ?_, fun name hname => ?_⟩, ?_⟩
  · simp [setBools, hbools, H.bools name hname]
  · rw [latest_append]
    cases c with
    | value name' x => exact absurd rfl (hc name' x)
    | _ => simpa [setBools, hvals] using H.vals name hname
  · have hset : ∀ name ∈ boolLabels gp mp,
        (setBools p true σ).bools name = c.causes gp mp addr name := by
      intro name hname
      have hfalse := H.bools name hname
      rw [← hp name hname]
      by_cases hpn : p name
      · simp [setBools, hpn]
      · simp [setBools, hpn, hfalse]
    exact stepLines_caused hd hu hset H.vals hstep

theorem setBools_false (b : Bool) : (setBools (fun _ => false) b : MonState V → _) = id := by
  funext σ
  simp [setBools]

theorem quiet_ifEvents (hd : DistinctLabels gp mp) (hu : Unclashed gp mp) (e : E) (b : Bool) :
    Quiet gp mp addr values ["event"] (some (.eventNotified e)) env
      ((eventClockLabels gp mp).toList.map fun label => .ifEvent (eventName gp label) label b)
      (setBools (fun name => (eventClockLabels gp mp).toList.any fun label =>
        name = label && addr (eventName gp label) = e) b) := by
  refine Quiet.map_setBools fun label hlabel σ => ?_
  have hparam : label ∉ ["event"] := by
    rw [List.mem_singleton]
    exact fun heq => hu.event (heq ▸ hlabel)
  have hval := hd.not_mem_userVals (mem_boolLabels_of_eventClock hlabel)
  by_cases he : addr (eventName gp label) = e
  · have hassign : (Action.assignBool label b).exec gp mp addr values ["event"]
        (some (.eventNotified e)) env σ = some ([], setBools (fun n => n = label) b σ) :=
      exec_assignBool hparam hval σ
    simpa [Action.exec, he] using hassign
  · simp [Action.exec, he, setBools]

theorem actualParamName_ne (name : String) : actualParamName name ≠ name := by
  rw [actualParamName]
  split_ifs with h
  · rw [h]
    decide
  · exact fun heq => h heq.symm

/-- **One call.** -/
theorem call_spec (hd : DistinctLabels gp mp) (hu : Unclashed gp mp) {cs : List (Call E V)}
    {c : Call E V} (H : Idle gp mp values cs σ)
    (h : call gp mp addr values (c, env) σ = some (lines, σ')) :
    CallSpec values addr env gp mp cs c lines σ' := by
  obtain ⟨fs, hfs, h⟩ := Option.bind_eq_some_iff.mp h
  cases hfind : fs.find? fun p => p.1 = c.func with
  | none =>
      simp only [hfind, Option.some.injEq, Prod.mk.injEq] at h
      obtain ⟨rfl, rfl⟩ := h
      refine ⟨⟨H.bools, fun name hname => ?_⟩, by simp⟩
      rw [latest_append, H.vals name hname]
      cases c with
      | value name' x =>
          obtain ⟨p, hp, hfunc⟩ := exists_value_func hfs hname
          have hne := List.find?_eq_none.mp hfind p hp
          have hother : name' ≠ name := by
            rintro rfl
            exact hne (by simp [hfunc, Call.func])
          simp [hother]
      | _ => rfl
  | some p =>
      simp only [hfind] at h
      have hfunc : p.1 = c.func := by simpa using List.find?_some hfind
      rcases mem_monitorClass hfs (List.mem_of_find?_eq_some hfind) with
        rfl | ⟨k, rfl⟩ | ⟨clk, hclk, hkernel, rfl⟩ | ⟨name, hname, rfl⟩
      · cases c with
        | eventNotified e =>
            refine callSpec_of_bracket hd hu H rfl (quiet_ifEvents hd hu e true)
              (quiet_ifEvents hd hu e false) (fun name _ => ?_) (by simp) h
            rw [Bool.eq_iff_iff]
            simp [Call.causes]
        | _ => simp [Call.func] at hfunc
      · cases c with
        | kernel k' =>
            have hnil : ∀ b, Quiet gp mp addr values [] (some (.kernel k')) env []
                (setBools (fun _ => false) b) := by
              intro b
              rw [setBools_false]
              exact Quiet.nil
            exact callSpec_of_bracket hd hu H rfl (hnil true) (hnil false) (fun _ _ => rfl)
              (by simp) h
        | _ => simp [Call.func] at hfunc
      · cases c with
        | userloc clk' =>
            obtain rfl : clk = clk' := by simpa [Call.func] using hfunc
            have hval : clk ∉ userValNames gp := fun hval => hkernel (hu.clock clk hval hclk)
            have hset : ∀ b, Quiet gp mp addr values [] (some (.userloc clk)) env
                [.assignBool clk b] (setBools (fun n => n = clk) b) :=
              fun b => Quiet.cons (exec_assignBool (by simp) hval) Quiet.nil
            exact callSpec_of_bracket hd hu H rfl (hset true) (hset false) (fun _ _ => rfl)
              (by simp) h
        | _ => simp [Call.func] at hfunc
      · cases c with
        | value name' x =>
            obtain rfl : name = name' := by simpa [Call.func] using hfunc
            have hparam := (actualParamName_ne name).symm
            simp [execFunc, Pscv.Lib.run_cons, Action.exec, assignVal, hparam] at h
            obtain ⟨rfl, rfl⟩ := h
            refine ⟨⟨H.bools, fun other hother => ?_⟩, by simp⟩
            simp only [latest_append, Function.update_apply, eq_comm (a := name)]
            split_ifs
            · rfl
            · exact H.vals other hother
        | _ => simp [Call.func] at hfunc

/-! ## The constructor and runs -/

theorem quiet_assignObjs {β : Type} {params : List String} {c : Option (Call E V)} (l : List β)
    (name param : β → String) : Quiet gp mp addr values params c env
      (l.map fun x => .assignObj (name x) (param x)) id := by
  induction l with
  | nil => exact Quiet.nil
  | cons x l ih => exact Quiet.cons (fun σ => rfl) ih

/-- The labels of a group, in the constructor. -/
theorem quiet_ctorLabels (hd : DistinctLabels gp mp) (hu : Unclashed gp mp) {β : Type}
    {c : Option (Call E V)} (l : List β) (name : β → String)
    (hl : ∀ n ∈ l.map name, n ∈ boolLabels gp mp) :
    Quiet gp mp addr values (ctorParams gp) c env (l.map fun x => .assignBool (name x) false)
      (setBools (fun n => l.any fun x => n = name x) false) := by
  refine Quiet.map_setBools fun x hx σ => ?_
  have hx := hl _ (List.mem_map_of_mem hx)
  exact exec_assignBool (hu.ctor _ (List.mem_append_left _ hx)) (hd.not_mem_userVals hx) σ

/-- The state after the constructor. -/
def initState (gp : GlobalParams) (mp : MonitorParams) (values : Values V) (σ : MonState V) :
    MonState V where
  bools name := if name ∈ boolLabels gp mp then false else σ.bools name
  vals name := if name ∈ userValNames gp then values.zero else σ.vals name
  stdin := σ.stdin

theorem quiet_ctorBody (hd : DistinctLabels gp mp) (hu : Unclashed gp mp)
    {c : Option (Call E V)} : Quiet gp mp addr values (ctorParams gp) c env (ctorBody gp mp)
      (initState gp mp values) := by
  have hzeros : Quiet gp mp addr values (ctorParams gp) c env
      ((userValNames gp).map .assignZero) (setZeros values (userValNames gp)) :=
    Quiet.map_assignZero fun name hname => hu.ctor name (List.mem_append_right _ hname)
  rw [userValNames, List.map_map] at hzeros
  have hlocs : ∀ n ∈ gp.funcLocs.map FuncLoc.locName, n ∈ boolLabels gp mp :=
    fun n hn => List.mem_append_left _ (List.mem_append_right _ hn)
  have hplocs : ∀ n ∈ gp.plocations.map PLocation.locName, n ∈ boolLabels gp mp :=
    fun n hn => List.mem_append_right _ hn
  have hevents : ∀ n ∈ (eventClockLabels gp mp).toList.map id, n ∈ boolLabels gp mp := by
    intro n hn
    rw [List.map_id] at hn
    exact mem_boolLabels_of_eventClock hn
  have hobjs : Quiet gp mp addr values (ctorParams gp) c env _ _ :=
    (quiet_assignObjs ["observer"] id fun _ => "obs").append
      (quiet_assignObjs gp.vartypes.toList.zipIdx (fun p => p.1.1) fun p =>
        "obj" ++ toString p.2)
  have hbody := (((hobjs.append (quiet_ctorLabels hd hu _ _ hlocs)).append
    (quiet_ctorLabels hd hu _ _ hplocs)).append hzeros).append
    (quiet_ctorLabels hd hu _ _ hevents)
  intro σ
  obtain ⟨outs, houts, hrun⟩ := hbody σ
  refine ⟨outs, houts, hrun.trans (congrArg (fun s => some (outs, s)) ?_)⟩
  simp only [Function.comp_apply, id, setBools, setZeros, initState, MonState.mk.injEq,
    and_true]
  refine ⟨funext fun name => ?_, funext fun name => rfl⟩
  have hevent : ((eventClockLabels gp mp).toList.any fun x => name = x) = true
      ↔ name ∈ (eventClockLabels gp mp).toList := by
    simp
  have hloc : (gp.funcLocs.any fun x => name = x.locName) = true
      ↔ name ∈ gp.funcLocs.map FuncLoc.locName := by
    simp only [List.any_eq_true, decide_eq_true_eq, List.mem_map, eq_comm (a := name)]
  have hploc : (gp.plocations.any fun x => name = x.locName) = true
      ↔ name ∈ gp.plocations.map PLocation.locName := by
    simp only [List.any_eq_true, decide_eq_true_eq, List.mem_map, eq_comm (a := name)]
  simp only [hevent, hloc, hploc, boolLabels, List.mem_append]
  split_ifs <;> simp_all only [or_true, true_or, or_self, not_true_eq_false]

/-- **The constructor** sets every label false and every user value zero. -/
theorem construct_spec (hd : DistinctLabels gp mp) (hu : Unclashed gp mp)
    (h : construct gp mp addr values env σ = some σ') :
    Idle gp mp values ([] : List (Call E V)) σ' := by
  obtain ⟨f, hf, h⟩ := Option.bind_eq_some_iff.mp h
  obtain ⟨r, hexec, h⟩ := Option.bind_eq_some_iff.mp h
  obtain rfl := Option.some.inj h
  rw [monitorConstructor] at hf
  obtain ⟨-, hf⟩ := Option.ite_none_right_eq_some.mp hf
  obtain rfl := Option.some.inj hf
  have hbody : Quiet gp mp addr values (ctorParams gp) none env _ _ := quiet_ctorBody hd hu
  obtain ⟨outs, -, hrun⟩ := hbody σ
  rw [execFunc, hrun] at hexec
  obtain rfl := Option.some.inj hexec
  refine ⟨fun name hname => ?_, fun name hname => ?_⟩
  · simp [initState, hname]
  · simp [initState, hname, latest]

/-- Between the calls of a run every label is false and every user value the latest. -/
theorem run_idle (hd : DistinctLabels gp mp) (hu : Unclashed gp mp)
    {cs : List (Call E V × Env)} {outs : List (List String)}
    (H : Idle gp mp values ([] : List (Call E V)) σ)
    (h : Pscv.Lib.run (call gp mp addr values) cs σ = some (outs, σ')) :
    Idle gp mp values (cs.map Prod.fst) σ' := by
  induction cs using List.reverseRecOn generalizing outs σ' with
  | nil =>
      obtain ⟨-, rfl⟩ := Prod.mk.inj (Option.some.inj h)
      exact H
  | append_singleton cs c ih =>
      rw [Pscv.Lib.run_append] at h
      obtain ⟨r, hr, h⟩ := Option.bind_eq_some_iff.mp h
      obtain ⟨r', hr', h⟩ := Option.map_eq_some_iff.mp h
      obtain ⟨-, rfl⟩ := Prod.mk.inj h
      rw [Pscv.Lib.run_cons] at hr'
      obtain ⟨q, hq, hr'⟩ := Option.bind_eq_some_iff.mp hr'
      obtain rfl := Option.some.inj hr'
      rw [List.map_append]
      exact (call_spec hd hu (ih hr) hq).idle

/-- **Every state that a callback prints has true exactly the labels that the callback
causes**, and the latest user values; after the callback all labels are false. -/
theorem callbacks_print_causes (hd : DistinctLabels gp mp) (hu : Unclashed gp mp)
    (env₀ : Env) (σ₀ : MonState V) (hnew : construct gp mp addr values env₀ σ₀ = some σ)
    (cs : List (Call E V × Env)) (c : Call E V) (env : Env) (outs : List (List String))
    (hrun : Pscv.Lib.run (call gp mp addr values) (cs ++ [(c, env)]) σ = some (outs, σ')) :
    (∀ name ∈ boolLabels gp mp, σ'.bools name = false) ∧
    ∃ earlier lines, outs = earlier ++ [lines] ∧ ∀ line ∈ lines, ∃ attrs,
      attrs.map Prod.fst = gp.attributelabels.toList.map (fun p => env.literal p.1) ∧
      PrintsPairs line (attrs ++
        ((boolLabels gp mp).map (fun name => (name, boolText (c.causes gp mp addr name))) ++
          (userValNames gp).map fun name =>
            (name, values.text (latest values name (cs.map Prod.fst))))) := by
  rw [Pscv.Lib.run_append] at hrun
  obtain ⟨r, hr, hrun⟩ := Option.bind_eq_some_iff.mp hrun
  obtain ⟨r', hr', hrun⟩ := Option.map_eq_some_iff.mp hrun
  obtain ⟨rfl, rfl⟩ := Prod.mk.inj hrun
  rw [Pscv.Lib.run_cons] at hr'
  obtain ⟨q, hq, hr'⟩ := Option.bind_eq_some_iff.mp hr'
  obtain rfl := Option.some.inj hr'
  have hidle := run_idle hd hu (construct_spec hd hu hnew) hr
  have hspec := call_spec hd hu hidle hq
  exact ⟨hspec.idle.bools, r.1, q.1, rfl, hspec.prints⟩

end Proofs

section Examples

/-- User values of type `int`. -/
def intValues : Values ℤ := ⟨0, fun b => if b then 1 else 0, toString⟩

/-- A configuration with one event clock, one location and one user value, without a
trace file. -/
def oneEach (val : String) : GlobalParams where
  monName := "monitor"
  vartypes := ⟨[("obj", "module*")], by decide⟩
  attributelabels := .empty
  attributetypes := .empty
  eventclocklabels := ⟨[("e", "obj->ev.notified")], by decide⟩
  funcLocs := [⟨"put", "void module::put()", .entry⟩]
  plocations := []
  userVals := [⟨"int", val, "int module::get()", 0⟩]
  writeToFile := false
  userObjects := .empty
  timeresolution := .empty

/-- Its monitor. -/
def oneEachMonitor : MonitorParams := ⟨0, ⟨["MON_METHOD_SUSPEND", "e", "put"], by decide⟩⟩

/-- A piece of memory, and two requests for a state. -/
def twoRequests : MonState ℤ where
  bools _ := true
  vals _ := 7
  stdin := ["#plasma-newstate#", "#plasma-newstate#"]

/-- Nothing but the time is read from outside. -/
def quietEnv : Env := ⟨fun _ => false, fun _ => "0 s", true, id⟩

/-- Construct a monitor for one user value, and run calls. -/
def runOneEach (val : String) (cs : List (Call String ℤ × Env)) :
    Option (List (List String) × MonState ℤ) :=
  (construct (oneEach val) oneEachMonitor id intValues quietEnv twoRequests).bind
    (Pscv.Lib.run (call (oneEach val) oneEachMonitor id intValues) cs)

/-- The line after a value callback and the call of a location. -/
def putLine : String := "\n# plasma-state [ (e : false, put : true, n : 5) : 0 s ] #\n\n"

/-- A value callback and a location. -/
theorem callbacks_print_causes_put :
    ∃ σ', runOneEach "n" [(.value "n" 5, quietEnv), (.userloc "put", quietEnv)]
        = some ([[], [putLine]], σ') ∧ σ'.bools "put" = false ∧
      ∃ attrs : List (String × String), attrs.map Prod.fst = [] ∧
        PrintsPairs putLine (attrs ++ [("e", "false"), ("put", "true"), ("n", "5")]) := by
  have hd : DistinctLabels (oneEach "n") oneEachMonitor := by
    unfold DistinctLabels
    decide
  have hu : Unclashed (oneEach "n") oneEachMonitor := by
    constructor <;> decide
  obtain ⟨σ', hprinted⟩ : ∃ σ', runOneEach "n"
      [(.value "n" 5, quietEnv), (.userloc "put", quietEnv)] = some ([[], [putLine]], σ') :=
    ⟨_, rfl⟩
  obtain ⟨σ, hσ, hrun⟩ := Option.bind_eq_some_iff.mp hprinted
  obtain ⟨hfalse, earlier, lines, houts, hlines⟩ := callbacks_print_causes hd hu quietEnv
    twoRequests hσ [(.value "n" 5, quietEnv)] (.userloc "put") quietEnv _ hrun
  have houts : [[]] ++ [[putLine]] = earlier ++ [lines] := houts
  obtain ⟨-, hlast⟩ := List.append_inj' houts rfl
  obtain rfl := List.singleton_inj.mp hlast
  exact ⟨σ', hprinted, hfalse "put" (by decide), hlines putLine (by simp)⟩

/-- The line after a value callback, when the user value is named as a local variable of
`step()`. -/
def cmdLine : String :=
  "\n# plasma-state [ (e : false, put : true, cmd : #plasma-newstate#) : 0 s ] #\n\n"

/-- A user value named `cmd` is printed as the command that `step()` has read. -/
theorem cmd_hides_value :
    DistinctLabels (oneEach "cmd") oneEachMonitor ∧
    (∃ σ', runOneEach "cmd" [(.value "cmd" 5, quietEnv), (.userloc "put", quietEnv)]
      = some ([[], [cmdLine]], σ')) ∧
    ¬ PrintsPairs cmdLine [("e", "false"), ("put", "true"), ("cmd", "5")] := by
  refine ⟨?_, ⟨_, rfl⟩, ?_⟩
  · unfold DistinctLabels
    decide
  · rintro ⟨time, l, hl, hline⟩
    -- the argument of the value callback does not occur in the line
    have hfive : '5' ∉ cmdLine.toList := by decide
    have hmem : chars ("cmd", "5") ∈ l.map Prod.fst := by
      rw [hl]
      simp
    obtain ⟨p, hp, hchars⟩ := List.mem_map.mp hmem
    have hweave := mem_weave sep (c := '5') hp (by rw [hchars]; decide)
    rw [hline] at hfive
    simp [stateLine, hweave] at hfive

end Examples

end Pscv.Mag
