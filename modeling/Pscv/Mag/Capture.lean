import Pscv.Mag.Construction
import Pscv.Mag.Resolve

/-!
# Names of the configuration in the emitted functions

The emitted functions declare parameters and local variables of their own, and use the
names of the configuration in the same scopes. Only the value callbacks choose the name of
their parameter so that it does not hide the member.

An expression of the configuration is passed on as it is. What it reads is left to C++:
`Expressions` says of each expression which variables it reads without qualification.

## Main results

* `names_mean_members_iff`.
-/

namespace Pscv.Mag

open Pscv.Lib Pscv.Kernel

/-! ## The uses of names -/

/-- The names of the configuration. -/
def userNames (gp : GlobalParams) : List String :=
  gp.vartypes.toList.map Prod.fst ++ gp.attributelabels.toList.map Prod.fst ++
    gp.eventclocklabels.toList.map Prod.fst ++ gp.funcLocs.map FuncLoc.locName ++
    gp.plocations.map PLocation.locName ++ userValNames gp

/-- The names for which a member is declared. -/
def memberNames (gp : GlobalParams) (mp : MonitorParams) : List String :=
  observerObjectFirsts gp ++ boolLabels gp mp ++ userValNames gp

/-- The variables that expressions read without qualification. -/
structure Expressions (gp : GlobalParams) (mp : MonitorParams) where
  reads : String → List String
  /-- A name reads its variable. -/
  name : ∀ x ∈ userNames gp, reads x = [x]
  /-- The time stamp is a call of a function without arguments, unless a member hides it. -/
  timeStamp : "sc_time_stamp" ∉ memberNames gp mp → reads "sc_time_stamp()" = []

/-- The variables that a statement assigns, and those that its expressions read. What the
generator adds itself is left out: the parameters on the right sides. -/
def Action.uses (reads : String → List String) : Action → List String
  | assignObj name _ | assignBool name _ | assignZero name | assignParam name _ => [name]
  | ifEvent event name _ => name :: reads event
  | step => []

def Registration.uses (reads : String → List String) : Registration → List String
  | sample _ => []
  | event expr => reads expr

def Write.uses (reads : String → List String) : Write → List String
  | put _ | paste _ => []
  | print expr => reads expr
  | ifElse cond _ _ _ => reads cond

def Stmt.uses (reads : String → List String) : Stmt → List String
  | write w => w.uses reads
  | _ => []

/-- A use of a name, with the parameters and the local variables in whose scope it is. -/
structure Use where
  name : String
  locals : List String
  deriving DecidableEq

/-- The uses of names in the emitted functions. The registrations stand after the local
variable of the constructor. -/
def MonitorCode.uses (reads : String → List String) (gp : GlobalParams) (code : MonitorCode) :
    List Use :=
  (code.constructor.body.flatMap fun a => (a.uses reads).map (⟨·, code.constructor.params⟩)) ++
  (code.registrations.flatMap fun r => (r.uses reads).map
    (⟨·, code.constructor.params ++ if code.traceFile.isSome then ["tracefile"] else []⟩)) ++
  (code.step.flatMap fun s => (s.uses reads).map (⟨·, stepLocals gp⟩)) ++
  code.callbacks.flatMap fun f => f.2.body.flatMap fun a =>
    (a.uses reads).map (⟨·, f.2.params⟩)

/-- The members that the generator declares itself, the functions among them, and the class. -/
def MonitorCode.ownNames (code : MonitorCode) : List String :=
  ["observer", "status"] ++ [code.className, "step"] ++ code.callbacks.map Prod.fst

/-- What the emitted class uses from outside. -/
def MonitorCode.outsideNames (code : MonitorCode) : List String :=
  ["strcmp", "sc_stop", "sc_time_stamp", "exit"] ++
    (code.members.flatMap fun m => typeWords m.1) ++
    code.registrations.filterMap fun r => match r with
      | .sample clk => some clk
      | .event _ => none

/-- A name of the configuration means the member of that name, in a scope. -/
def MeansMember (gp : GlobalParams) (code : MonitorCode) (name : String)
    (locals : List String) : Prop :=
  name ∈ userNames gp → name ∉ locals ∧ ∃ type, (type, name) ∈ code.members

/-- Every use of a name of the configuration means the member of that name, no such name is
one that the generator declares itself or, with a member, one that the class uses from
outside, and the constructor stores the objects. -/
structure NamesMeanMembers (reads : String → List String) (gp : GlobalParams)
    (mp : MonitorParams) (code : MonitorCode) : Prop where
  uses : ∀ u ∈ code.uses reads gp, MeansMember gp code u.name u.locals
  apart : ∀ name ∈ code.ownNames, name ∉ userNames gp
  outside : ∀ name ∈ code.outsideNames, name ∈ userNames gp →
    ¬ ∃ type, (type, name) ∈ code.members
  objects : ∀ (O : Type) (objs : List O), objs.length = (observerObjects gp).length →
    ∃ members, newMonitor gp mp (("sc_core::mon_observer*", .observer) ::
      typed (observerObjects gp) (objs.map .object)) = some members ∧
      HoldsObjects gp objs members

/-! ## When no name is hidden -/

section Unhidden
variable (gp : GlobalParams) (mp : MonitorParams)

/-- The names without a member: attribute labels, and the labels of event clocks that are
no clocks of the monitor. -/
def undeclaredNames : List String :=
  gp.attributelabels.toList.map Prod.fst ++
    (gp.eventclocklabels.toList.map Prod.fst).filter fun label => label ∉ mp.clocks.toList

/-- No name is hidden where it is used, and names that are used have a member. -/
structure Unhidden (reads : String → List String) : Prop where
  apart : ∀ name ∈ ["observer", "status"] ++ functionNames gp mp, name ∉ userNames gp
  outside : ∀ name ∈ outsideNames gp mp, name ∉ memberNames gp mp
  ctor : ∀ name ∈ memberNames gp mp, name ∉ ctorParams gp
  event : "event" ∉ (eventClockLabels gp mp).toList
  step : ∀ name ∈ boolLabels gp mp ++ userValNames gp, name ∉ stepLocals gp
  /-- What the expressions of the event clocks read. -/
  events : ∀ label ∈ (eventClockLabels gp mp).toList, ∀ name ∈ reads (eventName gp label),
    name ∈ userNames gp → name ∉ undeclaredNames gp mp ∧ name ≠ "event" ∧
      (gp.writeToFile → name ≠ "tracefile")
  /-- What the expressions of the attributes read. -/
  attributes : ∀ p ∈ gp.attributelabels.toList, ∀ name ∈ reads p.2,
    name ∈ userNames gp → name ∉ undeclaredNames gp mp ∧ name ∉ stepLocals gp
  /-- No attribute is a clock. -/
  clocks : ∀ label ∈ gp.attributelabels.toList.map Prod.fst, label ∈ mp.clocks.toList →
    isKernelClock label

end Unhidden

/-! ## The uses in `step()` -/

section Step
variable {gp : GlobalParams} {mp : MonitorParams} {reads : String → List String}

theorem collects_uses : Collects (Write.uses reads) (fun _ cond => reads cond)
    fun _ expr => reads expr :=
  ⟨fun _ => rfl, fun _ _ _ _ => rfl, fun _ _ => rfl⟩

/-- The printed items read the expressions of the attributes, and the labels. -/
theorem uses_stepFooterBody {ws : List Write} (h : stepFooterBody gp mp = some ws) :
    ws.flatMap (Write.uses reads) = (gp.attributelabels.toList.flatMap fun p => reads p.2) ++
      (boolLabels gp mp ++ userValNames gp).flatMap reads := by
  simp only [collects_uses.stepFooterBody h, ite_self, boolLabels, userValNames,
    List.flatMap_append, List.append_assoc]

theorem uses_stepFooter (htime : reads "sc_time_stamp()" = []) {code : List Stmt}
    (h : stepFooter gp mp = some code) :
    code.flatMap (Stmt.uses reads) = (gp.attributelabels.toList.flatMap fun p => reads p.2) ++
      (boolLabels gp mp ++ userValNames gp).flatMap reads := by
  rw [stepFooter] at h
  by_cases hsome : observesSome gp mp
  · rw [if_pos hsome] at h
    obtain ⟨body, hbody, rfl⟩ := Option.map_eq_some_iff.mp h
    have hwrites : (body.map Stmt.write).flatMap (Stmt.uses reads)
        = body.flatMap (Write.uses reads) := List.flatMap_map _ _ _
    cases gp.writeToFile <;>
      simp [hwrites, uses_stepFooterBody hbody, Stmt.uses, Write.uses, htime]
  · rw [if_neg hsome] at h
    have hnone := eq_false_of_ne_true hsome
    simp only [observesSome, Bool.or_eq_false_iff, Bool.not_eq_false',
      List.isEmpty_iff] at hnone
    obtain ⟨⟨⟨⟨ha, hc⟩, hl⟩, hp⟩, hu⟩ := hnone
    rw [← Option.some.inj h]
    simp [boolLabels, userValNames, ha, hc, hl, hp, hu]

end Step

/-! ## All uses -/

section Uses
variable {gp : GlobalParams} {mp : MonitorParams} {reads : String → List String}
variable {code : MonitorCode} {ltl name : String}

theorem functions_of_traceGeneration (h : traceGeneration gp mp ltl = some code) :
    monitorConstructor gp mp = some code.constructor ∧ stepFooter gp mp = some code.step ∧
      (code.traceFile.isSome ↔ gp.writeToFile) := by
  rw [traceGeneration] at h
  obtain ⟨constructor, hconstructor, h⟩ := Option.bind_eq_some_iff.mp h
  obtain ⟨step, hstep, h⟩ := Option.bind_eq_some_iff.mp h
  obtain ⟨values, -, h⟩ := Option.bind_eq_some_iff.mp h
  rw [← Option.some.inj h]
  refine ⟨hconstructor, hstep, ?_⟩
  cases gp.writeToFile <;> simp

/-- Statements that assign one name each. -/
theorem uses_map_assign {β : Type} {l : List β} {a : β → Action} {target : β → String}
    (h : ∀ x, (a x).uses reads = [target x]) :
    (l.map a).flatMap (Action.uses reads) = l.map target := by
  rw [List.flatMap_map, List.map_eq_flatMap]
  exact List.flatMap_congr fun x _ => h x

/-- The constructor assigns to the observer and to all members. -/
theorem mem_uses_ctorBody : name ∈ (ctorBody gp mp).flatMap (Action.uses reads) ↔
    name = "observer" ∨ name ∈ memberNames gp mp := by
  have hobjects := congrArg (List.map Prod.fst) (List.zipIdx_map_fst 0 gp.vartypes.toList)
  rw [List.map_map] at hobjects
  have hobjects' : (gp.vartypes.toList.zipIdx.map fun p =>
      Action.assignObj p.1.1 ("obj" ++ toString p.2)).flatMap (Action.uses reads)
      = observerObjectFirsts gp := (uses_map_assign fun _ => rfl).trans hobjects
  simp only [ctorBody, List.flatMap_append, hobjects',
    uses_map_assign (a := fun l : FuncLoc => .assignBool l.locName false) fun _ => rfl,
    uses_map_assign (a := fun l : PLocation => .assignBool l.locName false) fun _ => rfl,
    uses_map_assign (a := fun v : UserVal => .assignZero v.valName) fun _ => rfl,
    uses_map_assign (a := fun label => .assignBool label false) fun _ => rfl,
    memberNames, boolLabels, userValNames, List.mem_append, List.flatMap_cons,
    List.flatMap_nil, Action.uses, List.map_id', List.mem_singleton, List.append_nil]
  tauto

/-- The members that are declared. -/
theorem exists_mem_declaredMembers : (∃ type, (type, name) ∈ declaredMembers gp mp) ↔
    name ∈ ["observer", "status"] ∨ name ∈ memberNames gp mp := by
  have hmem : (∃ type, (type, name) ∈ declaredMembers gp mp) ↔
      name ∈ (declaredMembers gp mp).map Prod.snd := by
    rw [List.mem_map]
    exact ⟨fun ⟨type, h⟩ => ⟨_, h, rfl⟩, fun ⟨p, h, heq⟩ => ⟨p.1, heq ▸ h⟩⟩
  rw [hmem]
  simp only [declaredMembers, List.map_append, List.map_map, List.mem_append, memberNames,
    boolLabels, userValNames, observerObjectFirsts, Function.comp_def, List.map_id']
  tauto

theorem mem_names_callbacksOfClock :
    name ∈ (mp.clocks.toList.flatMap (callbacksOfClock gp)).map
      Prod.fst ↔ (∃ p, (∃ clk ∈ mp.clocks.toList, Covers clk p) ∧ name = pointCallback p) ∨
        ∃ clk ∈ mp.clocks.toList, ¬ isKernelClock clk ∧ ¬ gp.isEventClock clk ∧
          name = "callback_userloc_" ++ clk := by
  simp only [List.mem_map, List.mem_flatMap]
  constructor
  · rintro ⟨⟨_, f⟩, ⟨clk, hclk, hmem⟩, rfl⟩
    rcases mem_callbacksOfClock.mp hmem with ⟨p, hcov, rfl, -⟩ | ⟨hkernel, hevent, rfl, -⟩
    · exact .inl ⟨p, ⟨clk, hclk, hcov⟩, rfl⟩
    · exact .inr ⟨clk, hclk, hkernel, hevent, rfl⟩
  · rintro (⟨p, ⟨clk, hclk, hcov⟩, rfl⟩ | ⟨clk, hclk, hkernel, hevent, rfl⟩)
    · exact ⟨_, ⟨clk, hclk, mem_callbacksOfClock.mpr (.inl ⟨p, hcov, rfl, rfl⟩)⟩, rfl⟩
    · exact ⟨_, ⟨clk, hclk, mem_callbacksOfClock.mpr (.inr ⟨hkernel, hevent, rfl, rfl⟩)⟩, rfl⟩

/-- The names of the class, of its functions and of its own members. -/
theorem mem_ownNames (h : traceGeneration gp mp ltl = some code) :
    name ∈ code.ownNames ↔ name ∈ ["observer", "status"] ++ functionNames gp mp := by
  obtain ⟨-, -, hclass, -, -, values, hvalues, hcallbacks⟩ := traceGeneration_eq_some h
  rw [generateValueCallbacks] at hvalues
  split_ifs at hvalues
  have hpoints : name ∈ (kernelClocks.filter fun p => mp.clocks.toList.any fun clk =>
      strcaseEq clk (clockName p) || strcaseEq clk "DEFAULT_CLOCK").map pointCallback ↔
      ∃ p, (∃ clk ∈ mp.clocks.toList, Covers clk p) ∧ name = pointCallback p := by
    simp [mem_kernelClocks, Covers, eq_comm (a := name)]
  have huserlocs : name ∈ (mp.clocks.toList.filter fun clk =>
      !isKernelClock clk && !gp.isEventClock clk).map (fun clk => "callback_userloc_" ++ clk) ↔
      ∃ clk ∈ mp.clocks.toList, ¬ isKernelClock clk ∧ ¬ gp.isEventClock clk ∧
        name = "callback_userloc_" ++ clk := by
    simp [eq_comm (a := name), and_assoc]
  have hvals : (gp.userVals.map fun v =>
    (FuncName.value v.valName, (⟨[actualParamName v.valName],
      [.assignParam v.valName (actualParamName v.valName)]⟩ : Func))).map
        (fun f => f.1.text) = (userValNames gp).map fun name => "value_callback_" ++ name := by
    rw [userValNames, List.map_map, List.map_map]
    rfl
  have hevent : ((if (eventClockLabels gp mp).toList.isEmpty then []
      else [("callback_event_notified", eventFunc gp mp)]) : List (String × Func)).map
        Prod.fst =
      if (eventClockLabels gp mp).toList.isEmpty then [] else ["callback_event_notified"] := by
    split_ifs <;> rfl
  rw [MonitorCode.ownNames, functionNames, hclass, hcallbacks, ← Option.some.inj hvalues,
    emittedCallbacks, List.map_append, List.map_append, List.map_map, hevent]
  simp only [List.map_map, Function.comp_def] at hvals
  simp only [Function.comp_def, List.map_map, List.mem_append, mem_names_callbacksOfClock,
    hpoints, huserlocs, hvals, or_assoc]

/-- What the class uses from outside. -/
theorem mem_outsideNames (h : traceGeneration gp mp ltl = some code) :
    name ∈ code.outsideNames ↔ name ∈ outsideNames gp mp := by
  obtain ⟨-, -, -, hreg, hmembers, -⟩ := traceGeneration_eq_some h
  have hsample : (name ∈ code.registrations.filterMap fun r => match r with
      | .sample clk => some clk
      | .event _ => none) ↔ .sample name ∈ registerWithObserver gp mp := by
    rw [hreg, List.mem_filterMap]
    constructor
    · rintro ⟨_ | expr, hr, heq⟩
      · rwa [← Option.some.inj heq]
      · cases heq
    · exact fun hr => ⟨_, hr, rfl⟩
  rw [MonitorCode.outsideNames, outsideNames, hmembers, List.mem_append,
    List.mem_append (t := mp.clocks.toList.flatMap _), hsample, registerWithObserver,
    List.mem_flatMap, List.mem_flatMap]
  refine or_congr_right (exists_congr fun clk => and_congr_right fun _ => ?_)
  rw [mem_registerClock_sample]
  have hkernel := @isKernelClock_iff clk
  by_cases hdefault : strcaseEq clk "DEFAULT_CLOCK"
  · simp [hdefault, mem_kernelClocks, eq_comm (a := name)]
  · simp only [hdefault, Bool.false_eq_true, false_or] at hkernel
    rw [if_neg hdefault, if_neg hdefault, ← hkernel]
    split_ifs with hpoint <;> simp [hpoint]

theorem isEventClock_iff {label : String} :
    gp.isEventClock label ↔ label ∈ gp.eventclocklabels.toList.map Prod.fst := by
  simp [GlobalParams.isEventClock, SSMap.find]

/-- Where the names are distinct, those that have no member are the undeclared ones. -/
theorem mem_memberNames_iff (hd : (userNames gp).Nodup) (hname : name ∈ userNames gp) :
    name ∈ memberNames gp mp ↔ name ∉ undeclaredNames gp mp := by
  simp only [userNames, List.nodup_append, List.mem_append] at hd
  simp only [userNames, List.mem_append] at hname
  simp only [memberNames, undeclaredNames, boolLabels, observerObjectFirsts, List.mem_append,
    List.mem_filter, mem_eventClockLabels, isEventClock_iff, decide_eq_true_eq]
  grind

/-- Something holds of the uses in a function. -/
def ForUses (reads : String → List String) (P : String → List String → Prop) (f : Func) :
    Prop :=
  ∀ a ∈ f.body, ∀ name ∈ a.uses reads, P name f.params

variable {P : String → List String → Prop}

theorem forUses_eventFunc : ForUses reads P (eventFunc gp mp) ↔
    ∀ label ∈ (eventClockLabels gp mp).toList,
      P label ["event"] ∧ ∀ name ∈ reads (eventName gp label), P name ["event"] := by
  simp only [ForUses, eventFunc, List.mem_append, List.mem_map, List.mem_singleton]
  constructor
  · intro h label hlabel
    have hall := h _ (.inl (.inl ⟨label, hlabel, rfl⟩))
    exact ⟨hall _ List.mem_cons_self, fun name hname => hall _ (List.mem_cons_of_mem _ hname)⟩
  · intro h a ha name hname
    rcases ha with (⟨label, hlabel, rfl⟩ | rfl) | ⟨label, hlabel, rfl⟩
    · rcases List.mem_cons.mp hname with rfl | hname
      · exact (h _ hlabel).1
      · exact (h _ hlabel).2 _ hname
    · cases hname
    · rcases List.mem_cons.mp hname with rfl | hname
      · exact (h _ hlabel).1
      · exact (h _ hlabel).2 _ hname

theorem forUses_callbacksOfClock {clk : String} :
    (∀ f ∈ callbacksOfClock gp clk, ForUses reads P f.2) ↔
      (¬ isKernelClock clk → ¬ gp.isEventClock clk → P clk []) := by
  constructor
  · intro h hkernel hevent
    exact h _ (mem_callbacksOfClock.mpr (.inr ⟨hkernel, hevent, rfl, rfl⟩)) _
      List.mem_cons_self
      clk List.mem_cons_self
  · rintro h ⟨fname, f⟩ hf a ha name hname
    rcases mem_callbacksOfClock.mp hf with ⟨p, -, -, rfl⟩ | ⟨hkernel, hevent, -, rfl⟩
    · rw [List.mem_singleton.mp ha] at hname
      cases hname
    · have hclk : name = clk := by
        simp only [List.mem_cons, List.not_mem_nil, or_false] at ha
        rcases ha with rfl | rfl | rfl
        · exact List.mem_singleton.mp hname
        · cases hname
        · exact List.mem_singleton.mp hname
      rw [hclk]
      exact h hkernel hevent

/-- The uses in the callbacks. -/
theorem forUses_callbacks (h : traceGeneration gp mp ltl = some code) :
    (∀ f ∈ code.callbacks, ForUses reads P f.2) ↔
      (∀ label ∈ (eventClockLabels gp mp).toList,
        P label ["event"] ∧ ∀ name ∈ reads (eventName gp label), P name ["event"]) ∧
      (∀ clk ∈ mp.clocks.toList, ¬ isKernelClock clk → ¬ gp.isEventClock clk → P clk []) ∧
      ∀ v ∈ gp.userVals, P v.valName [actualParamName v.valName] := by
  obtain ⟨-, -, -, -, -, values, hvalues, hcallbacks⟩ := traceGeneration_eq_some h
  have hevents : (∀ f ∈ (if (eventClockLabels gp mp).toList.isEmpty then []
      else [("callback_event_notified", eventFunc gp mp)] : List (String × Func)),
      ForUses reads P f.2) ↔ ∀ label ∈ (eventClockLabels gp mp).toList,
        P label ["event"] ∧ ∀ name ∈ reads (eventName gp label), P name ["event"] := by
    split_ifs with hempty
    · simp [List.isEmpty_iff.mp hempty]
    · rw [List.forall_mem_singleton, forUses_eventFunc]
  have hvals : (∀ f ∈ values.map fun f => (f.1.text, f.2), ForUses reads P f.2) ↔
      ∀ v ∈ gp.userVals, P v.valName [actualParamName v.valName] := by
    rw [generateValueCallbacks] at hvalues
    split_ifs at hvalues
    rw [← Option.some.inj hvalues]
    simp [ForUses, Action.uses]
  rw [hcallbacks, emittedCallbacks, List.forall_mem_append, List.forall_mem_append, hevents,
    hvals, and_assoc]
  simp only [List.mem_flatMap, forall_exists_index, and_imp]
  refine and_congr_right fun _ => and_congr_left fun _ => ?_
  constructor
  · exact fun hall clk hclk => forUses_callbacksOfClock.mp fun f hf => hall f clk hclk hf
  · exact fun hall f clk hclk hf => forUses_callbacksOfClock.mpr (hall clk hclk) f hf

/-- The uses of statements with one scope. -/
theorem forall_uses_scope {β : Type} (l : List β) (us : β → List String)
    (locals : List String) :
    (∀ u ∈ l.flatMap fun x => (us x).map (⟨·, locals⟩), P (Use.name u) u.locals) ↔
      ∀ name ∈ l.flatMap us, P name locals := by
  simp only [List.mem_flatMap, List.mem_map, forall_exists_index, and_imp]
  constructor
  · exact fun h name x hx hname => h ⟨name, locals⟩ x hx name hname rfl
  · rintro h _ x hx name hname rfl
    exact h name x hx hname

theorem mem_uses_registrations :
    name ∈ (registerWithObserver gp mp).flatMap (Registration.uses reads) ↔
      ∃ label ∈ (eventClockLabels gp mp).toList, name ∈ reads (eventName gp label) := by
  rw [List.mem_flatMap]
  constructor
  · rintro ⟨_ | expr, hr, hname⟩
    · cases hname
    · obtain ⟨label, hlabel, rfl⟩ := mem_registerWithObserver_event.mp hr
      exact ⟨label, hlabel, hname⟩
  · rintro ⟨label, hlabel, hname⟩
    exact ⟨_, mem_registerWithObserver_event.mpr ⟨label, hlabel, rfl⟩, hname⟩

/-- The uses, function by function. -/
theorem forall_uses_iff (h : traceGeneration gp mp ltl = some code)
    (htime : reads "sc_time_stamp()" = []) :
    (∀ u ∈ code.uses reads gp, P u.name u.locals) ↔
      (∀ name, name = "observer" ∨ name ∈ memberNames gp mp → P name (ctorParams gp)) ∧
      (∀ label ∈ (eventClockLabels gp mp).toList, ∀ name ∈ reads (eventName gp label),
        P name (ctorParams gp ++ if gp.writeToFile then ["tracefile"] else [])) ∧
      ((∀ p ∈ gp.attributelabels.toList, ∀ name ∈ reads p.2, P name (stepLocals gp)) ∧
        ∀ label ∈ boolLabels gp mp ++ userValNames gp, ∀ name ∈ reads label,
          P name (stepLocals gp)) ∧
      ∀ f ∈ code.callbacks, ForUses reads P f.2 := by
  obtain ⟨hctor, hstep, htrace⟩ := functions_of_traceGeneration h
  obtain ⟨-, -, -, hreg, -⟩ := traceGeneration_eq_some h
  have hfunc : code.constructor = ⟨ctorParams gp, ctorBody gp mp⟩ := by
    rw [monitorConstructor] at hctor
    split_ifs at hctor
    exact (Option.some.inj hctor).symm
  have hcallbacks : (∀ u ∈ code.callbacks.flatMap fun f => f.2.body.flatMap fun a =>
      (a.uses reads).map (⟨·, f.2.params⟩), P (Use.name u) u.locals) ↔
      ∀ f ∈ code.callbacks, ForUses reads P f.2 := by
    simp only [List.forall_mem_flatMap, ForUses, List.forall_mem_map]
  rw [MonitorCode.uses, List.forall_mem_append, List.forall_mem_append, List.forall_mem_append,
    forall_uses_scope, forall_uses_scope, forall_uses_scope, hcallbacks, hfunc, hreg,
    and_assoc, and_assoc]
  refine and_congr ?_ (and_congr ?_ (and_congr_left fun _ => ?_))
  · simp only [mem_uses_ctorBody]
  · simp only [mem_uses_registrations, htrace, forall_exists_index, and_imp]
    exact ⟨fun hall label hlabel name => hall name label hlabel,
      fun hall name label hlabel => hall label hlabel name⟩
  · rw [uses_stepFooter htime hstep, List.forall_mem_append, List.forall_mem_flatMap,
      List.forall_mem_flatMap]

end Uses

/-! ## The names -/

section Names
variable {gp : GlobalParams} {mp : MonitorParams} {reads : String → List String}
variable {code : MonitorCode} {ltl name : String}

theorem mem_userNames_of_mem_memberNames (h : name ∈ memberNames gp mp) :
    name ∈ userNames gp := by
  simp only [memberNames, boolLabels, observerObjectFirsts, List.mem_append,
    mem_eventClockLabels, isEventClock_iff] at h
  simp only [userNames, List.mem_append]
  tauto

/-- A name of the configuration has a member exactly when it is not undeclared. -/
theorem exists_mem_members_iff (h : traceGeneration gp mp ltl = some code)
    (hd : (userNames gp).Nodup) (happ : ∀ name ∈ code.ownNames, name ∉ userNames gp)
    (hname : name ∈ userNames gp) :
    (∃ type, (type, name) ∈ code.members) ↔ name ∉ undeclaredNames gp mp := by
  obtain ⟨-, -, -, -, hmembers, -⟩ := traceGeneration_eq_some h
  rw [hmembers, exists_mem_declaredMembers, ← mem_memberNames_iff hd hname]
  refine or_iff_right fun hown => happ name ?_ hname
  exact (mem_ownNames h).mpr (List.mem_append_left _ hown)

/-- The objects are stored where no type has the name of a parameter. -/
theorem typesApart_of_unhidden (hd : (userNames gp).Nodup) (hu : Unhidden gp mp reads) :
    TypesApart gp mp := by
  have hmember : ∀ name ∈ observerObjectFirsts gp, name ∈ memberNames gp mp :=
    fun name hname => by simp [memberNames, hname]
  have huser : ∀ name ∈ observerObjectFirsts gp, name ∈ userNames gp :=
    fun name hname => mem_userNames_of_mem_memberNames (hmember name hname)
  simp only [userNames, List.nodup_append, List.mem_append] at hd
  constructor
  · intro name hname hmem
    rcases List.mem_append.mp hmem with hmem | hmem
    · exact hu.apart name hmem (huser name hname)
    · exact hu.outside name hmem (hmember name hname)
  · exact fun name hname => hu.ctor name (hmember name hname)
  · intro name hname
    simp only [boolLabels, List.mem_append, mem_eventClockLabels, isEventClock_iff]
    rw [observerObjectFirsts] at hname
    grind
  · intro name hname
    rw [observerObjectFirsts] at hname
    grind

theorem mem_memberNames_of_label (h : name ∈ boolLabels gp mp ++ userValNames gp) :
    name ∈ memberNames gp mp := by
  rw [memberNames, List.append_assoc]
  exact List.mem_append_right _ h

theorem mem_boolLabels_of_event (h : name ∈ (eventClockLabels gp mp).toList) :
    name ∈ boolLabels gp mp :=
  List.mem_append_left _ (List.mem_append_left _ h)

/-- A label is an expression that reads itself. -/
theorem mem_reads_label (E : Expressions gp mp) {label : String}
    (h : label ∈ boolLabels gp mp ++ userValNames gp) : name ∈ E.reads label ↔
      name = label := by
  rw [E.name label (mem_userNames_of_mem_memberNames (mem_memberNames_of_label h)),
    List.mem_singleton]

theorem Unhidden.of_namesMeanMembers (E : Expressions gp mp)
    (h : traceGeneration gp mp ltl = some code) (hd : (userNames gp).Nodup)
    (hmean : NamesMeanMembers E.reads gp mp code) : Unhidden gp mp E.reads := by
  obtain ⟨huses, happ, hout, -⟩ := hmean
  have hmember : ∀ {name}, name ∈ userNames gp →
      ((∃ type, (type, name) ∈ code.members) ↔ name ∉ undeclaredNames gp mp) :=
    exists_mem_members_iff h hd happ
  have houtside : ∀ name ∈ outsideNames gp mp, name ∉ memberNames gp mp := by
    intro name hname hmem
    have huser := mem_userNames_of_mem_memberNames hmem
    exact hout name ((mem_outsideNames h).mpr hname) huser
      ((hmember huser).mpr ((mem_memberNames_iff hd huser).mp hmem))
  obtain ⟨hctor, hreg, ⟨hattrs, hlabels⟩, hcallbacks⟩ := (forall_uses_iff
    (P := MeansMember gp code) h (E.timeStamp (houtside _ (by simp [outsideNames])))).mp huses
  obtain ⟨hevents, hclocks, -⟩ := (forUses_callbacks h).mp hcallbacks
  refine ⟨fun name hname => happ name ((mem_ownNames h).mpr hname), houtside,
    ?_, ?_, ?_, ?_, ?_, ?_⟩
  · intro name hname
    exact (hctor name (.inr hname) (mem_userNames_of_mem_memberNames hname)).1
  · intro hevent
    have hname : "event" ∈ memberNames gp mp :=
      mem_memberNames_of_label (List.mem_append_left _ (mem_boolLabels_of_event hevent))
    exact ((hevents _ hevent).1 (mem_userNames_of_mem_memberNames hname)).1
      (List.mem_singleton_self _)
  · intro name hname
    exact (hlabels name hname name ((mem_reads_label E hname).mpr rfl)
      (mem_userNames_of_mem_memberNames (mem_memberNames_of_label hname))).1
  · intro label hevent name hname huser
    obtain ⟨hlocals, hdecl⟩ := (hevents label hevent).2 name hname huser
    refine ⟨(hmember huser).mp hdecl, fun heq => hlocals (List.mem_singleton.mpr heq), ?_⟩
    rintro hwrite rfl
    exact (hreg label hevent _ hname huser).1 (by simp [hwrite])
  · intro p hp name hname huser
    obtain ⟨hlocals, hdecl⟩ := hattrs p hp name hname huser
    exact ⟨(hmember huser).mp hdecl, hlocals⟩
  · intro label hattribute hclk
    by_contra hkernel
    have huser : label ∈ userNames gp := by
      simp only [userNames, List.mem_append]
      exact .inl (.inl (.inl (.inl (.inr hattribute))))
    have hundeclared : label ∈ undeclaredNames gp mp := List.mem_append_left _ hattribute
    by_cases hevent : gp.isEventClock label
    · have hmem : label ∈ memberNames gp mp := mem_memberNames_of_label (List.mem_append_left _
        (mem_boolLabels_of_event (mem_eventClockLabels.mpr ⟨hclk, hevent⟩)))
      exact (mem_memberNames_iff hd huser).mp hmem hundeclared
    · exact (hmember huser).mp (hclocks label hclk hkernel hevent huser).2 hundeclared

theorem Unhidden.namesMeanMembers (E : Expressions gp mp)
    (h : traceGeneration gp mp ltl = some code) (hd : (userNames gp).Nodup)
    (hu : Unhidden gp mp E.reads) : NamesMeanMembers E.reads gp mp code := by
  have happ : ∀ name ∈ code.ownNames, name ∉ userNames gp :=
    fun name hname => hu.apart name ((mem_ownNames h).mp hname)
  have hmember : ∀ {name}, name ∈ userNames gp →
      ((∃ type, (type, name) ∈ code.members) ↔ name ∉ undeclaredNames gp mp) :=
    exists_mem_members_iff h hd happ
  have hdeclared : ∀ {name}, name ∈ memberNames gp mp → ∃ type, (type, name) ∈ code.members :=
    fun hmem => (hmember (mem_userNames_of_mem_memberNames hmem)).mpr
      ((mem_memberNames_iff hd (mem_userNames_of_mem_memberNames hmem)).mp hmem)
  have htime := E.timeStamp (hu.outside _ (by simp [outsideNames]))
  refine ⟨(forall_uses_iff (P := MeansMember gp code) h htime).mpr
    ⟨?_, ?_, ⟨?_, ?_⟩, (forUses_callbacks h).mpr ⟨?_, ?_, ?_⟩⟩, happ, ?_, ?_⟩
  -- the constructor: its assignments, and what it registers
  · rintro name (rfl | hname) huser
    · exact absurd huser (hu.apart "observer" (by simp))
    · exact ⟨hu.ctor name hname, hdeclared hname⟩
  · intro label hlabel name hname huser
    obtain ⟨hdecl, -, htrace⟩ := hu.events label hlabel name hname huser
    refine ⟨?_, (hmember huser).mpr hdecl⟩
    rw [List.mem_append, not_or]
    refine ⟨hu.ctor name ((mem_memberNames_iff hd huser).mpr hdecl), ?_⟩
    split_ifs with hwrite
    · exact fun hmem => htrace hwrite (List.mem_singleton.mp hmem)
    · exact List.not_mem_nil
  -- `step()`: the attributes, and the labels
  · intro p hp name hname huser
    obtain ⟨hdecl, hlocals⟩ := hu.attributes p hp name hname huser
    exact ⟨hlocals, (hmember huser).mpr hdecl⟩
  · intro label hlabel name hname huser
    obtain rfl := (mem_reads_label E hlabel).mp hname
    exact ⟨hu.step name hlabel, hdeclared (mem_memberNames_of_label hlabel)⟩
  -- the callbacks
  · intro label hlabel
    constructor
    · intro huser
      refine ⟨fun hmem => ?_, hdeclared (mem_memberNames_of_label (List.mem_append_left _
        (mem_boolLabels_of_event hlabel)))⟩
      rw [List.mem_singleton.mp hmem] at hlabel
      exact hu.event hlabel
    · intro name hname huser
      obtain ⟨hdecl, hne, -⟩ := hu.events label hlabel name hname huser
      exact ⟨fun hmem => hne (List.mem_singleton.mp hmem), (hmember huser).mpr hdecl⟩
  · intro clk hclk hkernel hlabel huser
    refine ⟨List.not_mem_nil, (hmember huser).mpr fun hmem => ?_⟩
    rcases List.mem_append.mp hmem with hmem | hmem
    · exact hkernel (hu.clocks clk hmem hclk)
    · exact absurd hclk (of_decide_eq_true (List.mem_filter.mp hmem).2)
  · intro v hv huser
    refine ⟨?_, hdeclared (List.mem_append_right _ (List.mem_map_of_mem hv))⟩
    simpa using (actualParamName_ne v.valName).symm
  -- what is used from outside, and the objects
  · intro name hname huser hmem
    exact hu.outside name ((mem_outsideNames h).mp hname)
      ((mem_memberNames_iff hd huser).mpr ((hmember huser).mp hmem))
  · intro O objs hlen
    exact newMonitor_holds (functions_of_traceGeneration h).1
      (typesApart_of_unhidden hd hu) hlen

/-- **Every use of a name means the member exactly when no name is hidden.** -/
theorem names_mean_members_iff (E : Expressions gp mp)
    (h : traceGeneration gp mp ltl = some code)
    (hd : (userNames gp).Nodup) :
    NamesMeanMembers E.reads gp mp code ↔ Unhidden gp mp E.reads :=
  ⟨Unhidden.of_namesMeanMembers E h hd, Unhidden.namesMeanMembers E h hd⟩

end Names

/-! ## Two configurations -/

/-- The name in front of a member access. -/
def frontName (expr : String) : List String :=
  if expr.toList.getLast? = some ')' then []
  else [String.ofList (expr.toList.takeWhile fun ch => ch.isAlphanum || ch = '_')]

/-- An adder with an attribute, an event, a location and a value. -/
def adderParams : GlobalParams :=
  { defaults.toGlobalParams with
    vartypes := ⟨[("addy", "adder*")], by decide⟩
    attributelabels := ⟨[("sum", "addy->sum")], by decide⟩
    attributetypes := ⟨[("sum", "int")], by decide⟩
    eventclocklabels := ⟨[("done", "addy->ready.notified")], by decide⟩
    funcLocs := [⟨"put", "void adder::put()", .entry⟩]
    userVals := [⟨"int", "x", "int adder::add()", 0⟩]
    timeresolution := ⟨["done", "put"], by decide⟩ }

/-- Its names mean members. -/
theorem names_mean_members_iff_adder : ∃ code,
    traceGeneration adderParams (monitorParams adderParams 0) "G a" = some code ∧
      NamesMeanMembers frontName adderParams (monitorParams adderParams 0) code := by
  have hexpr : ∀ x ∈ userNames adderParams, frontName x = [x] := by decide
  have htime : frontName "sc_time_stamp()" = [] := by decide
  have hunhidden : Unhidden adderParams (monitorParams adderParams 0) frontName :=
    ⟨by decide, by decide, by decide, by decide, by decide, by decide, by decide, by decide⟩
  exact ⟨_, rfl,
    (names_mean_members_iff ⟨frontName, hexpr, fun _ => htime⟩ rfl (by decide)).mpr hunhidden⟩

/-- A configuration file with an object that has the name of a parameter. -/
def objectNamedObj1 : String := "type adder* obj1\ntype adder* sub\nformula G f\n"

/-- Its member is not assigned, and the other object is stored in place of its own. -/
theorem obj1_stores_wrong_object : ∃ c code members,
    globalParams [] objectNamedObj1 = some c ∧
    traceGeneration c.toGlobalParams (monitorParams c.toGlobalParams 0) "G f" = some code ∧
    (userNames c.toGlobalParams).Nodup ∧
    newMonitor c.toGlobalParams (monitorParams c.toGlobalParams 0) (("sc_core::mon_observer*",
      .observer) :: typed (observerObjects c.toGlobalParams) ([10, 20].map .object))
      = some members ∧
    observerObjects c.toGlobalParams = [⟨"adder*", "obj1"⟩, ⟨"adder*", "sub"⟩] ∧
    members "obj1" = none ∧ members "sub" = some (.object 10) ∧
    ¬ NamesMeanMembers frontName c.toGlobalParams (monitorParams c.toGlobalParams 0) code := by
  refine ⟨_, _, _, rfl, rfl, by decide, rfl, rfl, rfl, rfl, fun h => ?_⟩
  obtain ⟨members, hmembers, hholds⟩ := h.objects ℕ [10, 20] rfl
  have hsub := hholds ⟨"adder*", "sub"⟩ 20 (by decide)
  rw [← Option.some.inj hmembers] at hsub
  cases hsub

end Pscv.Mag
