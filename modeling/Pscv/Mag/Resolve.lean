import Pscv.Mag.Main

/-!
# What a clock resolves to

A clock of the time resolution that is neither a kernel clock nor an event clock label is
taken for the name of a location: its callback assigns the member of that name, and is
called by the code woven in at the location. No check is made that there is one.

## Main results

* `clocks_resolve_iff`.
-/

namespace Pscv.Mag

open Pscv.Lib Pscv.Kernel

/-! ## Names and steps -/

/-- The variable that a statement assigns. -/
def Action.assigned : Action → Option String
  | assignObj name _ | assignBool name _ | assignZero name | assignParam name _
  | ifEvent _ name _ => some name
  | step => none

/-- The function that is called back for a location. -/
def userlocCallback (clk : String) : String := "callback_userloc_" ++ clk

/-- Something calls `step()` for a clock: a kernel sample point for which the monitor is
registered, an event for which it is, or woven code. -/
def CanStep (gp : GlobalParams) (g : Generated) (code : MonitorCode) (clk : String) : Prop :=
  (∃ p, Covers clk p ∧ (∃ arg, .sample arg ∈ code.registrations ∧
    strcaseEq arg (clockName p)) ∧ ∃ f, (pointCallback p, f) ∈ code.callbacks ∧
    .step ∈ f.body) ∨
  (gp.isEventClock clk ∧ .event (eventName gp clk) ∈ code.registrations ∧
    ∃ f, ("callback_event_notified", f) ∈ code.callbacks ∧ .step ∈ f.body) ∨
  ((∃ a ∈ g.accesses, a.callback = userlocCallback clk ++ "()") ∧
    ∃ f, (userlocCallback clk, f) ∈ code.callbacks ∧ .step ∈ f.body)

/-- The names of the locations. -/
def locationNames (gp : GlobalParams) : List String :=
  gp.funcLocs.map FuncLoc.locName ++ gp.plocations.map PLocation.locName

/-- Every clock of a generated monitor resolves. -/
structure Resolves (gp : GlobalParams) (g : Generated) (code : MonitorCode) : Prop where
  /-- The other clocks are locations. -/
  named : ∀ clk ∈ code.clocks, isKernelClock clk ∨ gp.isEventClock clk ∨ clk ∈ locationNames gp
  /-- A variable that a callback assigns is a member, and no parameter of the callback. -/
  declared : ∀ f ∈ code.callbacks, ∀ a ∈ f.2.body, ∀ name ∈ a.assigned,
    name ∉ f.2.params ∧ ∃ type, (type, name) ∈ code.members
  steps : ∀ clk ∈ code.clocks, CanStep gp g code clk

/-- Every clock is a kernel clock, an event clock label, a location where code is woven in
or a pattern location, and no event clock has the name of the parameter of its callback. -/
def AllKnown (gp : GlobalParams) : Prop :=
  (∀ clk ∈ gp.timeresolution.toList, isKernelClock clk ∨ gp.isEventClock clk ∨
    (∃ loc ∈ gp.funcLocs, loc.funcBefter ≠ .dummy ∧ loc.locName = clk) ∨
    ∃ loc ∈ gp.plocations, loc.locName = clk) ∧
  ¬ ("event" ∈ gp.timeresolution.toList ∧ gp.isEventClock "event")

section Resolve
variable {gp : GlobalParams} {mp : MonitorParams} {clk name : String}

theorem mem_declaredMembers_bool (h : name ∈ boolLabels gp mp) :
    ("bool", name) ∈ declaredMembers gp mp := by
  simp only [boolLabels, List.mem_append, List.mem_map] at h
  simp only [declaredMembers, List.mem_append, List.mem_map, Prod.mk.injEq, true_and,
    exists_eq_right]
  rcases h with (h | ⟨l, hl, rfl⟩) | ⟨l, hl, rfl⟩
  · exact .inr h
  · exact .inl (.inl (.inl (.inr ⟨l, hl, rfl⟩)))
  · exact .inl (.inl (.inr ⟨l, hl, rfl⟩))

/-- What the callback of the events assigns. -/
theorem assigned_eventFunc {a : Action} (ha : a ∈ (eventFunc gp mp).body)
    (hname : a.assigned = some name) : name ∈ (eventClockLabels gp mp).toList := by
  simp only [eventFunc, List.mem_append, List.mem_map, List.mem_singleton] at ha
  rcases ha with (⟨label, hlabel, rfl⟩ | rfl) | ⟨label, hlabel, rfl⟩
  · obtain rfl := Option.some.inj hname
    exact hlabel
  · cases hname
  · obtain rfl := Option.some.inj hname
    exact hlabel

/-- What the callback of a clock assigns. -/
theorem assigned_callbacksOfClock {f : String × Func} (hf : f ∈ callbacksOfClock gp clk)
    {a : Action} (ha : a ∈ f.2.body) (hname : a.assigned = some name) :
    name = clk ∧ ¬ isKernelClock clk ∧ ¬ gp.isEventClock clk ∧ f.2.params = [] := by
  obtain ⟨g, body⟩ := f
  rcases mem_callbacksOfClock.mp hf with ⟨p, -, -, rfl⟩ | ⟨hkernel, hevent, -, rfl⟩
  · obtain rfl := List.mem_singleton.mp ha
    cases hname
  · simp only [List.mem_cons, List.not_mem_nil, or_false] at ha
    rcases ha with rfl | rfl | rfl
    · exact ⟨(Option.some.inj hname).symm, hkernel, hevent, rfl⟩
    · cases hname
    · exact ⟨(Option.some.inj hname).symm, hkernel, hevent, rfl⟩

/-- What a value callback assigns. -/
theorem assigned_value {values : List (FuncName × Func)}
    (hvalues : generateValueCallbacks gp = some values) {f : FuncName × Func} (hf : f ∈ values)
    {a : Action} (ha : a ∈ f.2.body) (hname : a.assigned = some name) :
    (∃ v ∈ gp.userVals, v.valName = name) ∧ name ∉ f.2.params := by
  rw [generateValueCallbacks] at hvalues
  split_ifs at hvalues
  obtain rfl := Option.some.inj hvalues
  obtain ⟨v, hv, rfl⟩ := List.mem_map.mp hf
  obtain rfl := List.mem_singleton.mp ha
  obtain rfl := Option.some.inj hname
  refine ⟨⟨v, hv, rfl⟩, ?_⟩
  simpa using (actualParamName_ne v.valName).symm

theorem userlocCallback_inj (h : userlocCallback name = userlocCallback clk) : name = clk :=
  (String.append_right_inj _).mp h

private theorem head_append {s t : String} {ch : Char} (h : s.toList.head? = some ch) :
    (s ++ t).toList.head? = some ch := by
  rw [String.toList_append, List.head?_append, h]
  rfl

theorem head_userlocCallback (clk : String) :
    (userlocCallback clk ++ "()").toList.head? = some 'c' :=
  head_append (head_append (by decide))

/-- The callback of a location is that of a clock. -/
theorem mem_emittedCallbacks_userloc {f : Func} :
    (userlocCallback clk, f) ∈ emittedCallbacks gp mp ↔ clk ∈ mp.clocks.toList ∧
      ¬ isKernelClock clk ∧ ¬ gp.isEventClock clk ∧
      f = ⟨[], [.assignBool clk true, .step, .assignBool clk false]⟩ := by
  have hevent : (userlocCallback clk, f) ∉ (if (eventClockLabels gp mp).toList.isEmpty then []
      else [("callback_event_notified", eventFunc gp mp)]) := by
    split_ifs
    · simp
    · rw [List.mem_singleton, Prod.mk.injEq]
      exact fun h => event_ne_userloc clk h.1.symm
  have hpoint : ∀ p, userlocCallback clk ≠ pointCallback p :=
    fun p => (pointCallback_ne_userloc p clk).symm
  rw [emittedCallbacks, List.mem_append, List.mem_flatMap]
  simp only [hevent, false_or, mem_callbacksOfClock, hpoint, false_and, and_false,
    exists_false]
  constructor
  · rintro ⟨clk', hclk', hkernel, hlabel, heq, rfl⟩
    obtain rfl : clk = clk' := userlocCallback_inj heq
    exact ⟨hclk', hkernel, hlabel, rfl⟩
  · rintro ⟨hclk, hkernel, hlabel, rfl⟩
    exact ⟨clk, hclk, hkernel, hlabel, rfl, rfl⟩

/-- The access of a value calls no callback of a location. -/
theorem callback_value_ne {alloc : ℕ → ℕ} {mons : MpSet alloc} {uv : UserVal} {a : Access}
    (ha : (adviceForValue gp mons uv).access = some a) :
    a.callback ≠ userlocCallback clk ++ "()" := by
  intro hcallback
  have hhead : a.callback.toList.head? = some 'v' := by
    rw [adviceForValue, instrumentReturn] at ha
    split_ifs at ha
    · obtain ⟨mp, -, rfl⟩ := Option.map_eq_some_iff.mp ha
      iterate 6 refine head_append ?_
      decide
    · obtain ⟨mp, -, rfl⟩ := Option.map_eq_some_iff.mp ha
      iterate 8 refine head_append ?_
      decide
  rw [hcallback, head_userlocCallback] at hhead
  cases hhead

theorem firstMonitor_of_first? {alloc : ℕ → ℕ} {mons : MpSet alloc} {n : ℕ}
    (h : mons.first? = some n) : firstMonitor gp mons = some (monitorParams gp n) := by
  rw [firstMonitor, h]
  rfl

/-- A location calls its callback where code is woven in. -/
theorem mem_accesses_userloc {alloc : ℕ → ℕ} {c : Config} {g : Generated} {code : MonitorCode}
    (h : generate c (c.monitors alloc) = some g) (hcode : g.monitor = some code)
    (hclk : clk ∈ c.timeresolution.toList) :
    (∃ a ∈ g.accesses, a.callback = userlocCallback clk ++ "()") ↔
      (∃ loc ∈ c.funcLocs, loc.funcBefter ≠ .dummy ∧ loc.locName = clk) ∨
        ∃ loc ∈ c.plocations, loc.locName = clk := by
  obtain ⟨classes, hemit⟩ := emit_of_generate h
  obtain ⟨n, hfirst, -⟩ := generate_monitor h hcode
  have hmp := @firstMonitor_of_first? c.toGlobalParams _ _ _ hfirst
  have haccess : ∀ name : String, (∃ a, accessIfClock c.toGlobalParams (c.monitors alloc) name
      = some a ∧ a.callback = userlocCallback clk ++ "()") ↔ name = clk := by
    intro name
    constructor
    · rintro ⟨a, ha, hcallback⟩
      obtain ⟨-, mp, -, rfl⟩ := accessIfClock_eq_some_iff.mp ha
      exact userlocCallback_inj ((String.append_left_inj _).mp hcallback)
    · rintro rfl
      exact ⟨_, accessIfClock_eq_some_iff.mpr ⟨hclk, _, hmp, rfl⟩, rfl⟩
  have hmem := (mem_accesses hemit).2
  constructor
  · rintro ⟨a, ha, hcallback⟩
    rcases (hmem a).mp ha with ⟨loc, hloc, hb, hl⟩ | ⟨uv, -, hu⟩ | ⟨loc, hloc, hl⟩
    · exact .inl ⟨loc, hloc, hb, (haccess _).mp ⟨a, hl, hcallback⟩⟩
    · exact absurd hcallback (callback_value_ne hu)
    · exact .inr ⟨loc, hloc, (haccess _).mp ⟨a, hl, hcallback⟩⟩
  · rintro (⟨loc, hloc, hb, heq⟩ | ⟨loc, hloc, heq⟩)
    · obtain ⟨a, ha, hcallback⟩ := (haccess _).mpr heq
      exact ⟨a, (hmem a).mpr (.inl ⟨loc, hloc, hb, ha⟩), hcallback⟩
    · obtain ⟨a, ha, hcallback⟩ := (haccess _).mpr heq
      exact ⟨a, (hmem a).mpr (.inr (.inr ⟨loc, hloc, ha⟩)), hcallback⟩

/-- The steps of the callbacks, for a clock. -/
theorem canStep_iff {alloc : ℕ → ℕ} {c : Config} {g : Generated} {code : MonitorCode}
    (h : generate c (c.monitors alloc) = some g) (hcode : g.monitor = some code)
    (hclk : clk ∈ c.timeresolution.toList) :
    CanStep c.toGlobalParams g code clk ↔ isKernelClock clk ∨ c.isEventClock clk ∨
      (∃ loc ∈ c.funcLocs, loc.funcBefter ≠ .dummy ∧ loc.locName = clk) ∨
        ∃ loc ∈ c.plocations, loc.locName = clk := by
  obtain ⟨n, -, htrace⟩ := generate_monitor h hcode
  obtain ⟨-, -, -, hreg, -, values, -, hcallbacks⟩ := traceGeneration_eq_some htrace
  have hmem : ∀ {f : String × Func}, f ∈ emittedCallbacks c.toGlobalParams
      (monitorParams c.toGlobalParams n) → f ∈ code.callbacks := by
    intro f hf
    rw [hcallbacks]
    exact List.mem_append_left _ hf
  constructor
  · rintro (⟨p, hcov, -⟩ | ⟨hevent, -⟩ | ⟨hwoven, -⟩)
    · exact .inl hcov.isKernelClock
    · exact .inr (.inl hevent)
    · exact .inr (.inr ((mem_accesses_userloc h hcode hclk).mp hwoven))
  · intro hknown
    by_cases hkernel : isKernelClock clk
    · obtain ⟨p, hcov⟩ : ∃ p, Covers clk p := by
        rcases isKernelClock_iff.mp hkernel with hdefault | ⟨p, hp⟩
        · exact ⟨.initPhaseBegin, .inr hdefault⟩
        · exact ⟨p, .inl hp⟩
      refine .inl ⟨p, hcov, ?_, ⟨[], [.step]⟩, ?_, List.mem_singleton_self _⟩
      · rw [hreg, mem_registerWithObserver_sample]
        exact ⟨clk, hclk, hcov⟩
      · exact hmem (mem_emittedCallbacks_point.mpr ⟨⟨clk, hclk, hcov⟩, rfl⟩)
    · by_cases hevent : c.isEventClock clk
      · have hlabel : clk ∈ (eventClockLabels c.toGlobalParams
            (monitorParams c.toGlobalParams n)).toList :=
          mem_eventClockLabels.mpr ⟨hclk, hevent⟩
        have hfunc := hmem (mem_emittedCallbacks_event.mpr ⟨List.ne_nil_of_mem hlabel, rfl⟩)
        refine .inr (.inl ⟨hevent, ?_, _, hfunc, by simp [eventFunc]⟩)
        rw [hreg, mem_registerWithObserver_event]
        exact ⟨clk, hlabel, rfl⟩
      · refine .inr (.inr ⟨?_, _, hmem (mem_emittedCallbacks_userloc.mpr
          ⟨hclk, hkernel, hevent, rfl⟩), by simp⟩)
        rw [mem_accesses_userloc h hcode hclk]
        exact (hknown.resolve_left hkernel).resolve_left hevent

/-- Every assigned variable is declared, where the clocks are known. -/
theorem declared_of_allKnown {n : ℕ} {c : Config} {code : MonitorCode} {ltl : String}
    (htrace : traceGeneration c.toGlobalParams (monitorParams c.toGlobalParams n) ltl =
      some code)
    (hknown : AllKnown c.toGlobalParams) :
    ∀ f ∈ code.callbacks, ∀ a ∈ f.2.body, ∀ name ∈ a.assigned,
      name ∉ f.2.params ∧ ∃ type, (type, name) ∈ code.members := by
  obtain ⟨-, -, -, -, hmembers, values, hvalues, hcallbacks⟩ := traceGeneration_eq_some htrace
  intro f hf a ha name hname
  rw [hcallbacks, List.mem_append] at hf
  rw [hmembers]
  rcases hf with hf | hf
  · rw [emittedCallbacks, List.mem_append, List.mem_flatMap] at hf
    rcases hf with hf | ⟨clk, hclk, hf⟩
    · split_ifs at hf
      · cases hf
      · obtain rfl := List.mem_singleton.mp hf
        have hlabel := assigned_eventFunc ha hname
        refine ⟨?_, "bool", mem_declaredMembers_bool (List.mem_append_left _
          (List.mem_append_left _ hlabel))⟩
        rintro hparam
        obtain rfl := List.mem_singleton.mp hparam
        exact hknown.2 (mem_eventClockLabels.mp hlabel)
    · obtain ⟨rfl, hkernel, hevent, hparams⟩ := assigned_callbacksOfClock hf ha hname
      refine ⟨by simp [hparams], "bool", mem_declaredMembers_bool ?_⟩
      rcases ((hknown.1 name hclk).resolve_left hkernel).resolve_left hevent with
        ⟨loc, hloc, -, rfl⟩ | ⟨loc, hloc, rfl⟩
      · exact List.mem_append_left _ (List.mem_append_right _ (List.mem_map_of_mem hloc))
      · exact List.mem_append_right _ (List.mem_map_of_mem hloc)
  · obtain ⟨func, hfunc, rfl⟩ := List.mem_map.mp hf
    obtain ⟨⟨v, hv, rfl⟩, hparams⟩ := assigned_value hvalues hfunc ha hname
    refine ⟨hparams, v.valType, ?_⟩
    simp only [declaredMembers, List.mem_append, List.mem_map, Prod.mk.injEq]
    exact .inl (.inr ⟨v, hv, rfl, rfl⟩)

/-- **Every clock of a generated monitor resolves exactly when all of them are known.** -/
theorem clocks_resolve_iff (c : Config) {alloc : ℕ → ℕ}
    {out : Option Generated × PlasmaProject}
    (hout : main alloc c = some out) {g : Generated} (hg : out.1 = some g) {code : MonitorCode}
    (hcode : g.monitor = some code) :
    Resolves c.toGlobalParams g code ↔ AllKnown c.toGlobalParams := by
  have hgen := (main_generated hout hg).2
  obtain ⟨n, -, htrace⟩ := generate_monitor hgen hcode
  obtain ⟨-, hclocks, -, -, -, values, -, hcallbacks⟩ := traceGeneration_eq_some htrace
  constructor
  · intro hres
    refine ⟨?_, ?_⟩
    · intro clk hclk
      exact (canStep_iff hgen hcode hclk).mp (hres.steps clk (hclocks ▸ hclk))
    · rintro ⟨hclk, hevent⟩
      have hlabel : "event" ∈ (eventClockLabels c.toGlobalParams
          (monitorParams c.toGlobalParams n)).toList :=
        mem_eventClockLabels.mpr ⟨hclk, hevent⟩
      have hf : ("callback_event_notified", eventFunc c.toGlobalParams
          (monitorParams c.toGlobalParams n)) ∈ code.callbacks := by
        rw [hcallbacks]
        exact List.mem_append_left _
          (mem_emittedCallbacks_event.mpr ⟨List.ne_nil_of_mem hlabel, rfl⟩)
      have ha : .ifEvent (eventName c.toGlobalParams "event") "event" true
          ∈ (eventFunc c.toGlobalParams (monitorParams c.toGlobalParams n)).body := by
        simp only [eventFunc, List.mem_append, List.mem_map]
        exact .inl (.inl ⟨"event", hlabel, rfl⟩)
      exact (hres.declared _ hf _ ha "event" rfl).1 (List.mem_singleton_self _)
  · intro hknown
    refine ⟨?_, declared_of_allKnown htrace hknown, ?_⟩
    · intro clk hclk
      refine (hknown.1 clk (hclocks ▸ hclk)).imp_right (Or.imp_right ?_)
      rintro (⟨loc, hloc, -, rfl⟩ | ⟨loc, hloc, rfl⟩)
      · exact List.mem_append_left _ (List.mem_map_of_mem hloc)
      · exact List.mem_append_right _ (List.mem_map_of_mem hloc)
    · intro clk hclk
      have hclk' : clk ∈ c.timeresolution.toList := hclocks ▸ hclk
      exact (canStep_iff hgen hcode hclk').mpr (hknown.1 clk hclk')

end Resolve

section Examples

/-- A configuration whose clocks are a kernel phase and a location. -/
def phaseAndLocation : Config :=
  { defaults with
    funcLocs := [⟨"put", "void module::put()", .entry⟩]
    timeresolution := ⟨["MON_METHOD_SUSPEND", "put"], by decide⟩
    formulas := [⟨"put", "req0"⟩] }

/-- Its clocks resolve. -/
theorem clocks_resolve_iff_put : ∃ out g code,
    main upwards phaseAndLocation = some out ∧ out.1 = some g ∧ g.monitor = some code ∧
      Resolves phaseAndLocation.toGlobalParams g code := by
  have hknown : AllKnown phaseAndLocation.toGlobalParams := by
    refine ⟨?_, by decide⟩
    intro clk hclk
    rcases List.mem_cons.mp hclk with rfl | hclk
    · exact .inl (isKernelClock_iff.mpr (.inr ⟨.methodSuspend, strcaseEq_self _⟩))
    · obtain rfl := List.mem_singleton.mp hclk
      exact .inr (.inr (.inl ⟨_, List.mem_singleton_self _, by decide, rfl⟩))
  exact ⟨_, _, _, rfl, rfl, rfl, (clocks_resolve_iff _ rfl rfl rfl).mpr hknown⟩

/-- A configuration file with the name of a phase in the manual's table. -/
def manualPhase : String := "time_resolution MON_EVALUATE_PHASE_BEGIN\nformula a\n"

/-- It passes all checks. Its monitor has a callback that assigns a variable which is no
member, and nothing calls the callback. -/
theorem manualPhase_resolves_to_nothing : ∃ c out g code,
    globalParams [] manualPhase = some c ∧ main upwards c = some out ∧ out.1 = some g ∧
      g.monitor = some code ∧
      code.callbacks = [("callback_userloc_MON_EVALUATE_PHASE_BEGIN",
        ⟨[], [.assignBool "MON_EVALUATE_PHASE_BEGIN" true, .step,
          .assignBool "MON_EVALUATE_PHASE_BEGIN" false]⟩)] ∧
      code.members = [("sc_core::mon_observer*", "observer"), ("mon_status_t", "status")] ∧
      code.registrations = [] ∧ g.accesses = [] ∧ ¬ Resolves c.toGlobalParams g code := by
  refine ⟨{ defaults with
    headerOutputFile := "monitor.h"
    timeresolution := ⟨["MON_EVALUATE_PHASE_BEGIN"], by decide⟩
    formulas := [⟨"a", "req0"⟩] }, _, _, _, rfl, rfl, rfl, rfl, rfl, rfl, rfl, rfl, ?_⟩
  intro h
  obtain ⟨-, type, hmem⟩ := h.declared _ (List.mem_singleton_self _) _ List.mem_cons_self
    "MON_EVALUATE_PHASE_BEGIN" rfl
  change _ ∈ [("sc_core::mon_observer*", "observer"), ("mon_status_t", "status")] at hmem
  simp at hmem

end Examples

end Pscv.Mag
