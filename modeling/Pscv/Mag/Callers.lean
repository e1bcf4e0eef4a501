import Pscv.Mag.Resolve

/-!
# Callers and callees

The advices of the aspect file and the commands of the sed script call methods of the
generated class. They are emitted for every location whose name is a clock; the class has
the callback of a location only where the clock is neither a kernel clock nor an event
clock label.

## Main results

* `methods_match_iff`.
-/

namespace Pscv.Mag

open Pscv.Lib Pscv.Kernel

/-! ## Calls -/

/-- An access calls a method: without arguments, or with one where it has a parameter. -/
def Access.Calls (a : Access) (f : String × Func) : Prop :=
  if f.2.params = [] then a.callback = f.1 ++ "()"
  else ∃ arg, arg ≠ "" ∧ a.callback = f.1 ++ "(" ++ arg ++ ")"

/-- The call of a method without arguments. -/
def Access.callsBare (method : String) (a : Access) : Bool := a.callback = method ++ "()"

/-- The advices that call a method without arguments. -/
def Generated.advicesCalling (g : Generated) (method : String) : List Advice :=
  g.aspect.filter fun d => d.access.any (Access.callsBare method)

/-- The commands of the script that call a method without arguments. -/
def Generated.commandsCalling (g : Generated) (method : String) : List SedCommand :=
  g.patterns.filter fun d => d.access.callsBare method

/-- A location where code is woven in, or a pattern location. -/
def IsPlace (gp : GlobalParams) (name : String) : Prop :=
  (∃ loc ∈ gp.funcLocs, loc.funcBefter ≠ .dummy ∧ loc.locName = name) ∨
    ∃ loc ∈ gp.plocations, loc.locName = name

/-- The calls of the woven code and the methods of the class match. -/
structure MethodsMatch (gp : GlobalParams) {alloc : ℕ → ℕ} (mons : MpSet alloc) (g : Generated)
    (code : MonitorCode) : Prop where
  /-- Every call is of a method of the class. -/
  defined : ∀ a ∈ g.accesses, a.className = code.className ∧ ∃ f ∈ code.callbacks, a.Calls f
  /-- The callback of a place is called by the code of its definitions, and of no others. -/
  called : ∀ f ∈ code.callbacks, ∀ name, f.1 = userlocCallback name → IsPlace gp name →
    (∃ a ∈ g.accesses, a.Calls f) ∧
    g.advicesCalling f.1 = (gp.funcLocs.filter fun loc => loc.locName = name).flatMap
      (fun loc => (adviceForLocation gp mons loc).toList) ∧
    g.commandsCalling f.1 = (gp.plocations.filter fun loc => loc.locName = name).flatMap
      fun loc => (sedForLocation gp mons loc).toList

/-- No place that is a clock has the name of a kernel clock or of an event clock. -/
def PlacesApart (gp : GlobalParams) : Prop :=
  ∀ name ∈ gp.timeresolution.toList, IsPlace gp name →
    ¬ isKernelClock name ∧ ¬ gp.isEventClock name

/-! ## The methods of the class -/

section Methods
variable {gp : GlobalParams} {mp : MonitorParams} {code : MonitorCode} {ltl name : String}
variable {f : String × Func} {a : Access}

/-- A method is the callback of the events, that of a clock, or that of a value. -/
theorem mem_callbacks (h : traceGeneration gp mp ltl = some code) : f ∈ code.callbacks ↔
    (eventClockLabels gp mp).toList ≠ [] ∧ f = ("callback_event_notified", eventFunc gp mp) ∨
    (∃ clk ∈ mp.clocks.toList, f ∈ callbacksOfClock gp clk) ∨
    ∃ v ∈ gp.userVals, f = ("value_callback_" ++ v.valName,
      ⟨[actualParamName v.valName],
        [.assignParam v.valName (actualParamName v.valName)]⟩) := by
  obtain ⟨-, -, -, -, -, values, hvalues, hcallbacks⟩ := traceGeneration_eq_some h
  rw [generateValueCallbacks] at hvalues
  split_ifs at hvalues
  rw [hcallbacks, ← Option.some.inj hvalues, emittedCallbacks, List.mem_append,
    List.mem_append, List.mem_flatMap, or_assoc]
  refine or_congr ?_ (or_congr_right ?_)
  · rw [← List.isEmpty_eq_false_iff]
    cases (eventClockLabels gp mp).toList.isEmpty
    · exact List.mem_singleton.trans (and_iff_right rfl).symm
    · exact iff_of_false List.not_mem_nil fun h => absurd h.1 (by decide)
  · rw [List.map_map, List.mem_map]
    exact exists_congr fun v => and_congr_right fun _ => eq_comm

/-- Texts with different letters at their starts. -/
theorem append_ne_append {p q : String} {n : ℕ} (hp : n ≤ p.toList.length)
    (hq : n ≤ q.toList.length) (h : p.toList.take n ≠ q.toList.take n) (t u : String) :
    p ++ t ≠ q ++ u := by
  intro heq
  have htake := congrArg (List.take n) (congrArg String.toList heq)
  rw [String.toList_append, String.toList_append, List.take_append_of_le_length hp,
    List.take_append_of_le_length hq] at htake
  exact h htake

theorem event_append_ne (t u : String) :
    "callback_event_notified" ++ t ≠ "callback_userloc_" ++ u :=
  append_ne_append (n := 10) (by decide) (by decide) (by decide) t u

theorem value_append_ne (t u : String) : "value_callback_" ++ t ≠ "callback_userloc_" ++ u :=
  append_ne_append (n := 1) (by decide) (by decide) (by decide) t u

/-- The callback of a location is that of its clock. -/
theorem mem_callbacks_userloc (h : traceGeneration gp mp ltl = some code)
    (hname : f.1 = userlocCallback name) : f ∈ code.callbacks ↔
      name ∈ mp.clocks.toList ∧ ¬ isKernelClock name ∧ ¬ gp.isEventClock name ∧
        f.2 = ⟨[], [.assignBool name true, .step, .assignBool name false]⟩ := by
  rw [mem_callbacks h]
  constructor
  · rintro (⟨-, heq⟩ | ⟨clk, hclk, hmem⟩ | ⟨v, -, heq⟩)
    · exact absurd ((congrArg Prod.fst heq).symm.trans hname) (event_ne_userloc name)
    · obtain ⟨fname, func⟩ := f
      rcases mem_callbacksOfClock.mp hmem with ⟨p, -, hpoint, -⟩ | ⟨hkernel, hevent, hloc, rfl⟩
      · exact absurd (hpoint.symm.trans hname) (pointCallback_ne_userloc p name)
      · obtain rfl := userlocCallback_inj (hloc.symm.trans hname)
        exact ⟨hclk, hkernel, hevent, rfl⟩
    · exact absurd ((congrArg Prod.fst heq).symm.trans hname) (value_append_ne _ _)
  · rintro ⟨hclk, hkernel, hevent, hfunc⟩
    obtain ⟨fname, func⟩ := f
    exact .inr (.inl ⟨name, hclk, mem_callbacksOfClock.mpr
      (.inr ⟨hkernel, hevent, hname, hfunc⟩)⟩)

/-- The methods that are called as the callbacks of locations are. -/
theorem eq_userloc_of_calls (h : traceGeneration gp mp ltl = some code)
    (hf : f ∈ code.callbacks)
    (hcall : a.Calls f) (ha : a.callback = userlocCallback name ++ "()") :
    f.1 = userlocCallback name := by
  rw [Access.Calls] at hcall
  split_ifs at hcall with hparams
  · rw [ha] at hcall
    exact ((String.append_left_inj _).mp hcall).symm
  · obtain ⟨arg, -, hcall⟩ := hcall
    have hassoc : f.1 ++ "(" ++ arg ++ ")" = f.1 ++ ("(" ++ (arg ++ ")")) :=
      String.append_assoc.trans String.append_assoc
    have hstart : f.1 ++ ("(" ++ (arg ++ ")")) = "callback_userloc_" ++ (name ++ "()") :=
      ((hassoc.symm.trans hcall.symm).trans ha).trans String.append_assoc
    rcases (mem_callbacks h).mp hf with ⟨-, heq⟩ | ⟨clk, -, hclk⟩ | ⟨v, -, heq⟩
    · rw [heq] at hstart
      exact absurd hstart (event_append_ne _ _)
    · obtain ⟨fname, func⟩ := f
      rcases mem_callbacksOfClock.mp hclk with ⟨p, -, -, rfl⟩ | ⟨-, -, -, rfl⟩
      · exact absurd rfl hparams
      · exact absurd rfl hparams
    · have hvalue : f.1 = "value_callback_" ++ v.valName := congrArg Prod.fst heq
      rw [hvalue, @String.append_assoc "value_callback_" v.valName] at hstart
      exact absurd hstart (value_append_ne _ _)

end Methods

/-! ## The calls of the woven code -/

section Calls
variable {alloc : ℕ → ℕ} {gp : GlobalParams} {mons : MpSet alloc} {mp : MonitorParams}
variable {name : String} {a : Access}

/-- The access of a location calls its own callback. -/
theorem callsBare_accessIfClock {locName : String}
    (ha : accessIfClock gp mons locName = some a) :
    a.callsBare (userlocCallback name) ↔ locName = name := by
  obtain ⟨-, mp, -, rfl⟩ := accessIfClock_eq_some_iff.mp ha
  rw [Access.callsBare, decide_eq_true_eq]
  constructor
  · exact fun h => userlocCallback_inj ((String.append_left_inj _).mp h)
  · rintro rfl
    rfl

/-- A location that is no clock has no access. -/
theorem any_callsBare (hmp : firstMonitor gp mons = some mp)
    (hclk : name ∈ gp.timeresolution.toList) (locName : String) :
    (accessIfClock gp mons locName).any (Access.callsBare (userlocCallback name))
      = decide (locName = name) := by
  rw [Bool.eq_iff_iff, decide_eq_true_eq, Option.any_eq_true]
  constructor
  · rintro ⟨a, ha, hcall⟩
    exact (callsBare_accessIfClock ha).mp hcall
  · rintro rfl
    have ha := accessIfClock_eq_some_iff.mpr ⟨hclk, mp, hmp, rfl⟩
    exact ⟨_, ha, (callsBare_accessIfClock ha).mpr rfl⟩

/-- A filter of what definitions generate, that chooses the definitions. -/
theorem filter_flatMap_eq {β γ : Type} {l : List β} {generated : β → List γ} {p : γ → Bool}
    {q : β → Bool} (h : ∀ x ∈ l, (generated x).filter p = if q x then generated x else []) :
    (l.flatMap generated).filter p = (l.filter q).flatMap generated := by
  induction l with
  | nil => rfl
  | cons x l ih =>
      obtain ⟨hx, hl⟩ := List.forall_mem_cons.mp h
      rw [List.flatMap_cons, List.filter_append, hx, ih hl, List.filter_cons]
      split_ifs
      · rw [List.flatMap_cons]
      · rfl

theorem filter_adviceForLocation (hmp : firstMonitor gp mons = some mp)
    (hclk : name ∈ gp.timeresolution.toList) (loc : FuncLoc) :
    (adviceForLocation gp mons loc).toList.filter
        (fun d => d.access.any (Access.callsBare (userlocCallback name)))
      = if decide (loc.locName = name) then (adviceForLocation gp mons loc).toList
        else [] := by
  have hone : ∀ pointcut : String, (some (⟨pointcut, accessIfClock gp mons loc.locName⟩ :
      Advice)).toList.filter (fun d => d.access.any (Access.callsBare (userlocCallback name)))
      = if decide (loc.locName = name) then
          (some (⟨pointcut, accessIfClock gp mons loc.locName⟩ : Advice)).toList
        else [] := by
    intro pointcut
    rw [Option.toList_some, List.filter_singleton, any_callsBare hmp hclk, Bool.cond_eq_ite]
  rw [adviceForLocation]
  cases loc.funcBefter with
  | dummy => simp
  | _ => exact hone _

theorem filter_sedForLocation (loc : PLocation) :
    (sedForLocation gp mons loc).toList.filter
        (fun d => d.access.callsBare (userlocCallback name))
      = if decide (loc.locName = name) then (sedForLocation gp mons loc).toList else [] := by
  rw [sedForLocation]
  cases ha : accessIfClock gp mons loc.locName with
  | none => simp
  | some a =>
      have hcalls : a.callsBare (userlocCallback name) = decide (loc.locName = name) := by
        rw [Bool.eq_iff_iff, decide_eq_true_eq]
        exact callsBare_accessIfClock ha
      rw [Option.map_some, Option.toList_some, List.filter_singleton, hcalls, Bool.cond_eq_ite]

/-- No advice of a value calls the callback of a location. -/
theorem filter_adviceForValue (uvs : List UserVal) :
    (uvs.map (adviceForValue gp mons)).filter
      (fun d => d.access.any (Access.callsBare (userlocCallback name))) = [] := by
  rw [List.filter_eq_nil_iff]
  intro d hd hany
  obtain ⟨uv, -, rfl⟩ := List.mem_map.mp hd
  rw [Option.any_eq_true] at hany
  obtain ⟨a, ha, hcall⟩ := hany
  exact callback_value_ne ha (of_decide_eq_true hcall)

private theorem call_assoc (s p q t m r e : String) :
    s ++ (p ++ q) ++ t ++ m ++ t ++ (r ++ e) = s ++ p ++ (q ++ (t ++ m ++ t ++ r)) ++ e := by
  simp only [String.append_assoc]

private theorem call_assoc' (s p q t m r n u e : String) :
    s ++ (p ++ q) ++ t ++ m ++ t ++ r ++ n ++ (u ++ e)
      = s ++ p ++ (q ++ (t ++ m ++ t ++ (r ++ n ++ u))) ++ e := by
  simp only [String.append_assoc]

private theorem append_ne_empty {q : String} (hq : q ≠ "") (t : String) : q ++ t ≠ "" := by
  simp [hq]

/-- The access of a value calls the callback of the value, with an argument. -/
theorem calls_adviceForValue {uv : UserVal} {f : Func} (hf : f.params ≠ [])
    (ha : (adviceForValue gp mons uv).access = some a) :
    a.Calls ("value_callback_" ++ uv.valName, f) := by
  have hopen : "((" = "(" ++ "(" := by decide
  have hresult : " *) tjp->result())" = " *) tjp->result()" ++ ")" := by decide
  have hclose : "))" = ")" ++ ")" := by decide
  rw [Access.Calls, if_neg hf]
  rw [adviceForValue, instrumentReturn] at ha
  split_ifs at ha
  · obtain ⟨mp, -, rfl⟩ := Option.map_eq_some_iff.mp ha
    refine ⟨"(" ++ (uv.valType ++ ") *(" ++ uv.valType ++ " *) tjp->result()"),
      append_ne_empty (by decide) _, ?_⟩
    rw [accessTo, hopen, hresult]
    exact call_assoc _ _ _ _ _ _ _
  · obtain ⟨mp, -, rfl⟩ := Option.map_eq_some_iff.mp ha
    refine ⟨"(" ++ (uv.valType ++ ") *(" ++ uv.valType ++
      (" *)tjp->arg(" ++ toString (uv.paramIndex - 1) ++ ")")),
      append_ne_empty (by decide) _, ?_⟩
    rw [accessTo, hopen, hclose]
    exact call_assoc' _ _ _ _ _ _ _ _ _

end Calls

/-! ## Matching -/

section Match
variable {alloc : ℕ → ℕ} {c : Config} {g : Generated} {code : MonitorCode}

theorem woven_of_generate (h : generate c (c.monitors alloc) = some g) :
    generateAspectFile c.toGlobalParams (c.monitors alloc) = some g.aspect ∧
      generatePatternsFile c.toGlobalParams (c.monitors alloc) = some g.patterns := by
  rw [generate] at h
  obtain ⟨monitor, -, h⟩ := Option.bind_eq_some_iff.mp h
  obtain ⟨aspect, haspect, h⟩ := Option.bind_eq_some_iff.mp h
  obtain ⟨patterns, hpatterns, h⟩ := Option.bind_eq_some_iff.mp h
  rw [← Option.some.inj h]
  exact ⟨haspect, hpatterns⟩

/-- The accesses are those of places that are clocks, and of values. -/
theorem mem_accesses_cases (h : generate c (c.monitors alloc) = some g) {a : Access}
    (ha : a ∈ g.accesses) :
    (∃ name ∈ c.timeresolution.toList, IsPlace c.toGlobalParams name ∧
      a.callback = userlocCallback name ++ "()") ∨
    ∃ uv ∈ c.userVals,
      (adviceForValue c.toGlobalParams (c.monitors alloc) uv).access = some a := by
  obtain ⟨classes, hemit⟩ := emit_of_generate h
  rcases ((mem_accesses hemit).2 a).mp ha with ⟨loc, hloc, hb, hl⟩ | ⟨uv, huv, hu⟩ | ⟨loc,
    hloc, hl⟩
  · obtain ⟨hclk, mp, -, rfl⟩ := accessIfClock_eq_some_iff.mp hl
    exact .inl ⟨loc.locName, hclk, .inl ⟨loc, hloc, hb, rfl⟩, rfl⟩
  · exact .inr ⟨uv, huv, hu⟩
  · obtain ⟨hclk, mp, -, rfl⟩ := accessIfClock_eq_some_iff.mp hl
    exact .inl ⟨loc.locName, hclk, .inr ⟨loc, hloc, rfl⟩, rfl⟩

/-- The callback of a place is called by the code of its definitions, and of no others. -/
theorem called_of_generate {n : ℕ} (h : generate c (c.monitors alloc) = some g)
    (hcode : g.monitor = some code)
    (htrace : traceGeneration c.toGlobalParams (monitorParams c.toGlobalParams n)
      (c.formula n).ltl = some code)
    (hfirst : (c.monitors alloc).first? = some n) {f : String × Func} (hf : f ∈ code.callbacks)
    {name : String} (hname : f.1 = userlocCallback name)
    (hplace : IsPlace c.toGlobalParams name) :
    (∃ a ∈ g.accesses, a.Calls f) ∧
    g.advicesCalling f.1 = (c.funcLocs.filter fun loc => loc.locName = name).flatMap
      (fun loc => (adviceForLocation c.toGlobalParams (c.monitors alloc) loc).toList) ∧
    g.commandsCalling f.1 = (c.plocations.filter fun loc => loc.locName = name).flatMap
      fun loc => (sedForLocation c.toGlobalParams (c.monitors alloc) loc).toList := by
  obtain ⟨hclk, -, -, hfunc⟩ := (mem_callbacks_userloc htrace hname).mp hf
  obtain ⟨haspect, hpatterns⟩ := woven_of_generate h
  have hmp := @firstMonitor_of_first? c.toGlobalParams _ _ _ hfirst
  refine ⟨?_, ?_, ?_⟩
  · obtain ⟨a, ha, hcallback⟩ := (mem_accesses_userloc h hcode hclk).mpr hplace
    refine ⟨a, ha, ?_⟩
    rw [Access.Calls, hfunc, if_pos rfl, hcallback, hname]
  · rw [Generated.advicesCalling, generateAspectFile_eq haspect, List.filter_append, hname,
      filter_adviceForValue, List.append_nil]
    exact filter_flatMap_eq fun loc _ => filter_adviceForLocation hmp hclk loc
  · rw [Generated.commandsCalling, generatePatternsFile_eq hpatterns, hname]
    exact filter_flatMap_eq fun loc _ => filter_sedForLocation loc

/-- A place that is a clock is called, so that its callback has to be there. -/
theorem PlacesApart.of_methodsMatch (h : generate c (c.monitors alloc) = some g)
    (hcode : g.monitor = some code)
    (hmatch : MethodsMatch c.toGlobalParams (c.monitors alloc) g code) :
    PlacesApart c.toGlobalParams := by
  intro name hclk hplace
  obtain ⟨n, -, htrace⟩ := generate_monitor h hcode
  obtain ⟨a, ha, hcallback⟩ := (mem_accesses_userloc h hcode hclk).mpr hplace
  obtain ⟨-, f, hf, hcall⟩ := hmatch.defined a ha
  have hname := eq_userloc_of_calls htrace hf hcall hcallback
  obtain ⟨-, hkernel, hevent, -⟩ := (mem_callbacks_userloc htrace hname).mp hf
  exact ⟨hkernel, hevent⟩

/-- **The calls and the methods match exactly when no place that is a clock has the name of
a kernel clock or of an event clock.** -/
theorem methods_match_iff (c : Config) {alloc : ℕ → ℕ} {out : Option Generated × PlasmaProject}
    (hout : main alloc c = some out) {g : Generated} (hg : out.1 = some g) {code : MonitorCode}
    (hcode : g.monitor = some code) :
    MethodsMatch c.toGlobalParams (c.monitors alloc) g code ↔
      PlacesApart c.toGlobalParams := by
  have h := (main_generated hout hg).2
  obtain ⟨n, hfirst, htrace⟩ := generate_monitor h hcode
  obtain ⟨-, -, hclass, -⟩ := traceGeneration_eq_some htrace
  refine ⟨PlacesApart.of_methodsMatch h hcode, fun hapart => ?_⟩
  refine ⟨?_, fun f hf name hname hplace =>
    called_of_generate h hcode htrace hfirst hf hname hplace⟩
  intro a ha
  constructor
  · obtain ⟨classes, hemit⟩ := emit_of_generate h
    obtain ⟨mp, hmp, hname, -⟩ := toFirst_of_mem hemit ha
    have hmp' := @firstMonitor_of_first? c.toGlobalParams _ _ _ hfirst
    obtain rfl := Option.some.inj (hmp.symm.trans hmp')
    rw [hname, hclass]
  · rcases mem_accesses_cases h ha with ⟨name, hclk, hplace, hcallback⟩ | ⟨uv, huv, hvalue⟩
    · obtain ⟨hkernel, hevent⟩ := hapart name hclk hplace
      refine ⟨(userlocCallback name, _), (mem_callbacks_userloc htrace rfl).mpr
        ⟨hclk, hkernel, hevent, rfl⟩, ?_⟩
      rw [Access.Calls, if_pos rfl, hcallback]
    · exact ⟨_, (mem_callbacks htrace).mpr (.inr (.inr ⟨uv, huv, rfl⟩)),
        calls_adviceForValue (List.cons_ne_nil _ _) hvalue⟩

end Match

section Examples

/-- A configuration with a location, a pattern location and a value. -/
def twoPlaces : Config :=
  { defaults with
    funcLocs := [⟨"put", "void module::put()", .entry⟩]
    plocations := [⟨"set", "a=1;"⟩]
    userVals := [⟨"int", "x", "int module::get()", 0⟩]
    timeresolution := ⟨["put", "set"], by decide⟩
    formulas := [⟨"put", "req0"⟩] }

/-- Its calls and methods match. -/
theorem methods_match_iff_two : ∃ out g code,
    main upwards twoPlaces = some out ∧ out.1 = some g ∧ g.monitor = some code ∧
      MethodsMatch twoPlaces.toGlobalParams (twoPlaces.monitors upwards) g code := by
  have hapart : PlacesApart twoPlaces.toGlobalParams := by
    have hall : ∀ name ∈ twoPlaces.timeresolution.toList,
        ¬ isKernelClock name ∧ ¬ twoPlaces.isEventClock name := by decide +kernel
    exact fun name hname _ => hall name hname
  exact ⟨_, _, _, rfl, rfl, rfl, (methods_match_iff _ rfl rfl rfl).mpr hapart⟩

/-- A configuration file with a location that has the name of a kernel clock. -/
def kernelPlaceFile : String :=
  "location MON_METHOD_SUSPEND void m::f():entry\n" ++
    "time_resolution MON_METHOD_SUSPEND\nformula G f\n"

/-- What is read of it. -/
def kernelPlace : Config :=
  { defaults with
    headerOutputFile := "monitor.h"
    funcLocs := [⟨"MON_METHOD_SUSPEND", "void m::f()", .entry⟩]
    timeresolution := ⟨["MON_METHOD_SUSPEND"], by decide⟩
    formulas := [⟨"G f", "req0"⟩] }

/-- The woven code calls a callback that the class does not have. -/
theorem kernelPlace_calls_missing : ∃ out g code,
    globalParams [] kernelPlaceFile = some kernelPlace ∧
      main upwards kernelPlace = some out ∧ out.1 = some g ∧ g.monitor = some code ∧
      (∃ a ∈ g.accesses, a.callback = userlocCallback "MON_METHOD_SUSPEND" ++ "()") ∧
      (∀ f ∈ code.callbacks, f.1 ≠ userlocCallback "MON_METHOD_SUSPEND") ∧
      ¬ MethodsMatch kernelPlace.toGlobalParams (kernelPlace.monitors upwards) g code := by
  obtain ⟨out, g, code, hout, hg, hcode⟩ : ∃ out g code, main upwards kernelPlace = some out ∧
      out.1 = some g ∧ g.monitor = some code := ⟨_, _, _, rfl, rfl, rfl⟩
  have h := (main_generated hout hg).2
  obtain ⟨n, -, htrace⟩ := generate_monitor h hcode
  have hkernel : isKernelClock "MON_METHOD_SUSPEND" :=
    isKernelClock_iff.mpr (.inr ⟨.methodSuspend, strcaseEq_self _⟩)
  have hclk : "MON_METHOD_SUSPEND" ∈ kernelPlace.timeresolution.toList := List.mem_cons_self
  have hplace : IsPlace kernelPlace.toGlobalParams "MON_METHOD_SUSPEND" :=
    .inl ⟨_, List.mem_cons_self, nofun, rfl⟩
  refine ⟨out, g, code, rfl, hout, hg, hcode,
    (mem_accesses_userloc h hcode hclk).mpr hplace, ?_, ?_⟩
  · intro f hf hname
    exact ((mem_callbacks_userloc htrace hname).mp hf).2.1 hkernel
  · intro hmatch
    exact (PlacesApart.of_methodsMatch h hcode hmatch _ hclk hplace).1 hkernel

end Examples

end Pscv.Mag
