import Pscv.Mag.ClassText
import Pscv.Mag.Quote

/-!
# The braces of the monitor class

The text that the generator writes itself leads from one depth of braces to another, whatever
stands in between. Of what it was given, the texts of the configuration are supposed to have
balanced braces, and the text of an event is the beginning of such a text.

## Main results

* `MonGen.wellFormed_iff` — the braces are balanced, and no function is defined in the body
  of another one, exactly when something is observed and the text of every observed event
  has balanced braces.
-/

namespace Pscv.Mag

open Pscv.Lib Pscv.Kernel Fragment

/-- The braces of a text are balanced. -/
def BalancedBraces (s : String) : Prop := WellBracketed '{' '}' s.toList

instance (s : String) : Decidable (BalancedBraces s) :=
  inferInstanceAs (Decidable (WellBracketed '{' '}' s.toList))

/-- The texts of the configuration that the class repeats have balanced braces. -/
structure SuppliedBalanced (gp : GlobalParams) (mp : MonitorParams) (ltl : String) : Prop where
  monName : BalancedBraces gp.monName
  ltl : BalancedBraces ltl
  clocks : ∀ clk ∈ mp.clocks.toList, BalancedBraces clk
  vartypes : ∀ p ∈ gp.vartypes.toList, BalancedBraces p.1 ∧ BalancedBraces p.2
  attributes : ∀ p ∈ gp.attributelabels.toList, BalancedBraces p.1 ∧ BalancedBraces p.2
  eventclocks : ∀ p ∈ gp.eventclocklabels.toList, BalancedBraces p.2
  funcLocs : ∀ l ∈ gp.funcLocs, BalancedBraces l.locName
  plocations : ∀ l ∈ gp.plocations, BalancedBraces l.locName
  userVals : ∀ v ∈ gp.userVals, BalancedBraces v.valType ∧ BalancedBraces v.valName

/-- A property of balanced texts and of the texts of the observed events. -/
structure HoldsOfTexts (P : List Char → Prop) (gp : GlobalParams) (mp : MonitorParams) :
    Prop where
  balanced : ∀ s, BalancedBraces s → P s.toList
  events : ∀ label ∈ (eventClockLabels gp mp).toList, P (eventName gp label).toList

/-! ## What the generator writes -/

/-- Fixed text leads from one depth of braces to another. -/
abbrev Braces (n k : ℕ) (ps : List (Fragment Char)) : Prop := Leads '{' '}' n k ps

section Fixed
variable {n : ℕ}

-- Here and below, the literals are rewritten to their characters, and the depth is computed.
theorem leads_outputLine (indent text : String) : Braces n n (outputLine indent text) := by
  simp only [outputLine, lit]
  repeat rw [String.toList_ofList]
  rfl

theorem leads_writeSource (w : Write) : Braces n n w.source := by
  cases w with
  | put text => exact leads_outputLine _ _
  | paste label => exact leads_outputLine _ _
  | print expr =>
      simp only [Write.source, lit]
      repeat rw [String.toList_ofList]
      rfl
  | ifElse cond label thn els =>
      have hlines : ∀ ts : List String,
          Braces (n + 1) (n + 1) (ts.flatMap (outputLine "    ")) :=
        fun ts => leads_flatMap fun t _ => leads_outputLine _ t
      have hif : Braces n (n + 1) [lit "  if (", arg cond, lit ") \x7b\n"] := by
        simp only [lit]
        repeat rw [String.toList_ofList]
        rfl
      have helse : Braces (n + 1) (n + 1) [lit "  \x7d\n", lit "  else \x7b\n"] := by
        simp only [lit]
        repeat rw [String.toList_ofList]
        rfl
      have hend : Braces (n + 1) n [lit "  \x7d\n"] := by
        simp only [lit]
        repeat rw [String.toList_ofList]
        rfl
      exact (((hif.append (hlines (label :: thn))).append helse).append
        (hlines (label :: els))).append hend

theorem leads_registrationSource (r : Registration) : Braces n n r.source := by
  cases r with
  | sample clk =>
      simp only [Registration.source, lit]
      repeat rw [String.toList_ofList]
      rfl
  | event expr =>
      simp only [Registration.source, lit]
      repeat rw [String.toList_ofList]
      rfl

theorem leads_tracefileGood (file : String) : Braces n n (tracefileGood file) := by
  simp only [tracefileGood, lit]
  repeat rw [String.toList_ofList]
  rfl

theorem leads_tracefileClose : Braces n n tracefileClose := by
  simp only [tracefileClose, lit]
  repeat rw [String.toList_ofList]
  rfl

namespace MonGen
variable {gp : GlobalParams} {mp : MonitorParams} {ltl : String} {c : ClassText}

theorem leads_constructorArgs : Braces n n (constructorArgs gp) := by
  apply leads_flatMap
  intro p _
  simp only [lit]
  repeat rw [String.toList_ofList]
  rfl

theorem leads_assignFalse (labels : List String) :
    Braces n n (labels.flatMap assignFalse) := by
  apply leads_flatMap
  intro label _
  simp only [assignFalse, lit]
  repeat rw [String.toList_ofList]
  rfl

theorem leads_registerWithObserver : Braces n n (registerWithObserver gp mp) := by
  have hloop : Braces n n ((Mag.registerWithObserver gp mp).flatMap Registration.source) :=
    leads_flatMap fun r _ => leads_registrationSource r
  refine Leads.append ?_ hloop
  simp only [lit]
  repeat rw [String.toList_ofList]
  rfl

theorem leads_initTypes : Braces n n (initTypes gp) := by
  apply leads_flatMap
  intro p _
  simp only [lit]
  repeat rw [String.toList_ofList]
  rfl

theorem leads_initValues : Braces n n (initValues gp) := by
  apply leads_flatMap
  intro v _
  simp only [lit]
  repeat rw [String.toList_ofList]
  rfl

theorem leads_initTracefile : Braces n n (initTracefile gp mp) := by
  rw [initTracefile]
  split_ifs
  · simp only [Braces, Leads, List.map_append, level_append, leads_tracefileGood,
      leads_tracefileClose]
    simp only [lit]
    repeat rw [String.toList_ofList]
    rfl
  · exact leads_nil n

theorem leads_startOfMonitorConstructor (h : startOfMonitorConstructor gp mp = some c) :
    Braces 0 1 c.os ∧ Braces n n c.headerOs := by
  rw [startOfMonitorConstructor] at h
  split_ifs at h
  obtain rfl := Option.some.inj h
  constructor
  · simp only [Braces, Leads, List.map_append, level_append, leads_initTypes, leads_initValues,
      leads_initTracefile, leads_assignFalse, leads_registerWithObserver,
      leads_constructorArgs]
    simp only [lit]
    repeat rw [String.toList_ofList]
    rfl
  · simp only [Braces, Leads, List.map_append, level_append, leads_constructorArgs]
    simp only [lit]
    repeat rw [String.toList_ofList]
    rfl

theorem leads_startOfClassDefinition :
    Braces n (n + 1) (startOfClassDefinition gp mp).headerOs := by
  simp only [startOfClassDefinition, lit]
  repeat rw [String.toList_ofList]
  rfl

theorem leads_endOfMonitorConstructor : Braces 1 0 (endOfMonitorConstructor gp mp).os := by
  simp only [endOfMonitorConstructor, lit]
  repeat rw [String.toList_ofList]
  rfl

theorem leads_monitorConstructor (h : monitorConstructor gp mp = some c) :
    Braces 0 0 c.os ∧ Braces n (n + 1) c.headerOs := by
  obtain ⟨c₀, hstart, rfl⟩ := Option.map_eq_some_iff.mp h
  have hos := (leads_startOfMonitorConstructor (n := 0) hstart).1
  have hheader := (leads_startOfMonitorConstructor (n := n + 1) hstart).2
  refine ⟨hos.append leads_endOfMonitorConstructor, ?_⟩
  exact (leads_startOfClassDefinition.append hheader).append (leads_nil (n + 1))

theorem leads_monitorHeader (h : monitorHeader mp ltl = some c) :
    Braces n n c.os ∧ Braces n n c.headerOs := by
  obtain ⟨commout, -, rfl⟩ := Option.map_eq_some_iff.mp h
  refine ⟨?_, leads_nil n⟩
  simp only [lit]
  repeat rw [String.toList_ofList]
  rfl

theorem leads_stepHeader :
    Braces 0 1 (stepHeader gp mp).os ∧ Braces n n (stepHeader gp mp).headerOs := by
  simp only [stepHeader, lit]
  repeat rw [String.toList_ofList]
  exact ⟨rfl, rfl⟩

theorem leads_openTracefile : Braces n n (openTracefile gp mp) := by
  rw [openTracefile]
  split_ifs
  · refine Leads.append ?_ (leads_tracefileGood _)
    simp only [lit]
    repeat rw [String.toList_ofList]
    rfl
  · exact leads_nil n

theorem leads_logTracefile : Braces n n (logTracefile gp) := by
  rw [logTracefile]
  split_ifs
  · refine Leads.append ?_ leads_tracefileClose
    simp only [lit]
    repeat rw [String.toList_ofList]
    rfl
  · exact leads_nil n

theorem leads_writes (ws : List Write) : Braces n n (ws.flatMap Write.source) :=
  leads_flatMap fun w _ => leads_writeSource w

/-- The body of `step()` is closed by the last line. -/
theorem leads_stepFooter (h : stepFooter gp mp = some c) (hsome : observesSome gp mp) :
    Braces 1 0 c.os := by
  simp only [stepFooter, if_pos hsome, Option.bind_eq_bind, Option.bind_eq_some_iff,
    Option.pure_def, Option.some.injEq] at h
  obtain ⟨a, -, l, -, p, -, u, -, rfl⟩ := h
  simp only [Braces, Leads, logged, List.map_append, level_append, leads_writes,
    leads_openTracefile, leads_logTracefile]
  simp only [lit]
  repeat rw [String.toList_ofList]
  rfl

theorem stepFooter_of_observesNone (h : stepFooter gp mp = some c)
    (hnone : ¬ observesSome gp mp) :
    c = ⟨[], []⟩ := by
  simp only [stepFooter, if_neg hnone] at h
  exact (Option.some.inj h).symm

theorem headerOs_stepFooter (h : stepFooter gp mp = some c) : c.headerOs = [] := by
  by_cases hsome : observesSome gp mp
  · simp only [stepFooter, if_pos hsome, Option.bind_eq_bind, Option.bind_eq_some_iff,
      Option.pure_def, Option.some.injEq] at h
    obtain ⟨a, -, l, -, p, -, u, -, rfl⟩ := h
    rfl
  · rw [stepFooter_of_observesNone h hsome]

theorem leads_ifEvent (value : String) (labels : List String) :
    Braces n n (labels.flatMap (ifEvent gp value)) := by
  apply leads_flatMap
  intro label _
  simp only [ifEvent, lit]
  repeat rw [String.toList_ofList]
  rfl

theorem leads_eventCallback :
    Braces 0 0 (eventCallback gp mp).os ∧ Braces n n (eventCallback gp mp).headerOs := by
  simp only [Braces, Leads, eventCallback, List.map_append, level_append, leads_ifEvent]
  simp only [lit]
  repeat rw [String.toList_ofList]
  exact ⟨rfl, rfl⟩

theorem leads_kernelCallback (b : String × String) :
    Braces 0 0 (kernelCallback gp mp b).os ∧ Braces n n (kernelCallback gp mp b).headerOs := by
  simp only [kernelCallback, lit]
  repeat rw [String.toList_ofList]
  exact ⟨rfl, rfl⟩

theorem leads_userlocCallback (clk : String) :
    Braces 0 0 (userlocCallback gp mp clk).os ∧
      Braces n n (userlocCallback gp mp clk).headerOs := by
  simp only [userlocCallback, lit]
  repeat rw [String.toList_ofList]
  exact ⟨rfl, rfl⟩

theorem leads_clockCallbacks (clk : String) : ∀ f ∈ clockCallbacks gp mp clk,
    Braces 0 0 f.os ∧ Braces n n f.headerOs := by
  intro f hf
  rw [clockCallbacks] at hf
  split_ifs at hf
  · obtain ⟨b, -, rfl⟩ := List.mem_map.mp hf
    exact leads_kernelCallback b
  · rw [List.mem_singleton] at hf
    subst hf
    exact leads_userlocCallback clk
  · cases hf

theorem leads_observerCallbacks :
    Braces 0 0 (observerCallbacks gp mp).os ∧
    Braces n n (observerCallbacks gp mp).headerOs := by
  have hall : ∀ f ∈ callbackTexts gp mp, Braces 0 0 f.os ∧ Braces n n f.headerOs := by
    intro f hf
    rw [callbackTexts, List.mem_append] at hf
    rcases hf with hf | hf
    · split_ifs at hf
      · cases hf
      · rw [List.mem_singleton] at hf
        subst hf
        exact leads_eventCallback
    · obtain ⟨clk, -, hf⟩ := List.mem_flatMap.mp hf
      exact leads_clockCallbacks clk f hf
  have hos := leads_flatMap fun f hf => (hall f hf).1
  have hheader := leads_flatMap fun f hf => (hall f hf).2
  simp only [Braces, Leads, observerCallbacks, List.map_append, level_append]
  simp only [lit]
  repeat rw [String.toList_ofList]
  exact ⟨hos, hheader⟩

theorem leads_valueCallback (v : UserVal) :
    Braces 0 0 (valueCallback gp mp v).os ∧ Braces n n (valueCallback gp mp v).headerOs := by
  simp only [valueCallback, valueSignature, lit]
  repeat rw [String.toList_ofList]
  exact ⟨rfl, rfl⟩

theorem leads_generateValueCallbacks (h : generateValueCallbacks gp mp = some c) :
    Braces 0 0 c.os ∧ Braces n n c.headerOs := by
  rw [generateValueCallbacks] at h
  split_ifs at h
  obtain rfl := Option.some.inj h
  have hos : Braces 0 0 ((gp.userVals.map (valueCallback gp mp)).flatMap ClassText.os) := by
    apply leads_flatMap
    intro f hf
    obtain ⟨v, -, rfl⟩ := List.mem_map.mp hf
    exact (leads_valueCallback (n := 0) v).1
  refine ⟨hos, ?_⟩
  have hheader : Braces n n
      ((gp.userVals.map (valueCallback gp mp)).flatMap ClassText.headerOs) := by
    apply leads_flatMap
    intro f hf
    obtain ⟨v, -, rfl⟩ := List.mem_map.mp hf
    exact (leads_valueCallback v).2
  refine Leads.append ?_ hheader
  simp only [lit]
  repeat rw [String.toList_ofList]
  rfl

theorem leads_declaringVariables :
    Braces (n + 1) (n + 1) (startDeclaringMonitorClassVariables gp mp).headerOs ∧
      Braces (n + 1) n finishDeclaringMonitorClassVariables.headerOs := by
  have hmembers : Braces (n + 1) (n + 1) ((declaredMembers gp mp).flatMap fun m =>
      [lit "  ", arg m.1, lit " ", arg m.2, lit ";\n"]) := by
    apply leads_flatMap
    intro m _
    simp only [lit]
    repeat rw [String.toList_ofList]
    rfl
  refine ⟨Leads.append ?_ hmembers, ?_⟩
  · simp only [lit]
    repeat rw [String.toList_ofList]
    rfl
  · simp only [finishDeclaringMonitorClassVariables, lit]
    repeat rw [String.toList_ofList]
    rfl

end MonGen
end Fixed

/-! ## What is given -/

section Given
variable {P : List Char → Prop} {gp : GlobalParams} {mp : MonitorParams} {ltl : String}
variable {c : ClassText} {s t : String} {w : Write} {ws : List Write}

theorem BalancedBraces.append (hs : BalancedBraces s) (ht : BalancedBraces t) :
    BalancedBraces (s ++ t) := by
  rw [BalancedBraces, String.toList_append]
  exact WellBracketed.append hs ht

theorem balancedBraces_ofList {cs : List Char} (h : WellBracketed '{' '}' cs) :
    BalancedBraces (String.ofList cs) := by
  rwa [BalancedBraces, String.toList_ofList]

/-- Numbers have no braces. -/
theorem balancedBraces_toString (i : ℤ) : BalancedBraces (toString i) := by
  have hnone : ∀ ch ∈ ['{', '}'], ch ∉ (toString i).toList := by
    intro ch hch hmem
    rcases isDigit_of_mem_toString hmem with hdigit | rfl
    · simp only [List.mem_cons, List.not_mem_nil, or_false] at hch
      rcases hch with rfl | rfl <;> exact absurd hdigit (by decide)
    · exact absurd hch (by decide)
  exact wellBracketed_of_notMem (hnone _ (by decide)) (hnone _ (by decide))

theorem balancedBraces_clockName (p : SamplePoint) : BalancedBraces (clockName p) := by
  cases p <;> exact balancedBraces_ofList (by decide)

theorem balancedBraces_pointCallback (p : SamplePoint) : BalancedBraces (pointCallback p) := by
  cases p <;> exact balancedBraces_ofList (by decide)

theorem SuppliedBalanced.monitorName (H : SuppliedBalanced gp mp ltl) :
    BalancedBraces (monitorName gp mp) :=
  H.monName.append (balancedBraces_toString mp.id)

theorem SuppliedBalanced.traceFileName (H : SuppliedBalanced gp mp ltl) :
    BalancedBraces (traceFileName gp mp) :=
  H.monitorName.append (balancedBraces_ofList (by decide))

theorem SuppliedBalanced.eventClockLabels (H : SuppliedBalanced gp mp ltl) :
    ∀ label ∈ (eventClockLabels gp mp).toList, BalancedBraces label :=
  fun label hlabel => H.clocks label (mem_eventClockLabels.mp hlabel).1

/-- An event is the beginning of its clock. -/
theorem covered_eventName (H : SuppliedBalanced gp mp ltl) {label : String}
    (h : gp.isEventClock label) : Covered '{' '}' (eventName gp label).toList := by
  have hclock : BalancedBraces (gp.getEventClock label) := by
    obtain ⟨clock, hfind⟩ := Option.isSome_iff_exists.mp h
    rw [GlobalParams.getEventClock, hfind]
    obtain ⟨p, hp, rfl⟩ := Option.map_eq_some_iff.mp hfind
    exact H.eventclocks p (List.mem_of_find?_eq_some hp)
  rw [eventName, getEventFromClock]
  split_ifs
  · exact WellBracketed.covered hclock
  · rw [String.toList_ofList]
    apply Covered.of_append
    rw [List.take_append_drop]
    exact hclock

@[simp] theorem gives_lit : (lit s).Gives P := trivial

@[simp] theorem gives_start : (Fragment.start : Fragment Char).Gives P := trivial

theorem gives_arg : (arg s).Gives P ↔ P s.toList := Iff.rfl

theorem gives_append {ps qs : List (Fragment Char)} (hp : ∀ p ∈ ps, p.Gives P)
    (hq : ∀ q ∈ qs, q.Gives P) : ∀ p ∈ ps ++ qs, p.Gives P :=
  List.forall_mem_append.mpr ⟨hp, hq⟩

/-! ### Statements -/

/-- The texts of a statement. -/
def Write.parts : Write → List String
  | put text => [text]
  | paste label => [label]
  | print expr => [expr]
  | ifElse cond label thn els => cond :: label :: (thn ++ els)

/-- The texts of statements have balanced braces. -/
def WritesBalanced (ws : List Write) : Prop := ∀ w ∈ ws, ∀ t ∈ w.parts, BalancedBraces t

theorem WritesBalanced.append {ws' : List Write} (h : WritesBalanced ws)
    (h' : WritesBalanced ws') : WritesBalanced (ws ++ ws') :=
  List.forall_mem_append.mpr ⟨h, h'⟩

theorem balancedBraces_sepIf (b : Bool) : ∀ t ∈ sepIf b, BalancedBraces t := by
  intro t ht
  rw [sepIf] at ht
  split_ifs at ht
  · rw [List.mem_singleton.mp ht]
    exact balancedBraces_ofList (by decide)
  · cases ht

theorem writesBalanced_traceBool (hs : BalancedBraces s) (ht : BalancedBraces t)
    (b b' : Bool) :
    WritesBalanced (traceBool s t b b') := by
  have hcolon : BalancedBraces " : " := balancedBraces_ofList (by decide)
  have htrue : BalancedBraces "true" := balancedBraces_ofList (by decide)
  have hfalse : BalancedBraces "false" := balancedBraces_ofList (by decide)
  have hthn : ∀ u ∈ [" : ", "true"] ++ sepIf b, BalancedBraces u := by
    rw [List.forall_mem_append]
    exact ⟨by simp [hcolon, htrue], balancedBraces_sepIf b⟩
  have hels : ∀ u ∈ [" : ", "false"] ++ sepIf b', BalancedBraces u := by
    rw [List.forall_mem_append]
    exact ⟨by simp [hcolon, hfalse], balancedBraces_sepIf b'⟩
  rw [WritesBalanced, traceBool, List.forall_mem_singleton, Write.parts, List.forall_mem_cons,
    List.forall_mem_cons, List.forall_mem_append]
  exact ⟨ht, hs, hthn, hels⟩

theorem writesBalanced_traceExpr (hs : BalancedBraces s) (ht : BalancedBraces t) (b : Bool) :
    WritesBalanced (traceExpr s t b) := by
  have hcolon : BalancedBraces " : " := balancedBraces_ofList (by decide)
  apply WritesBalanced.append
  · simp [WritesBalanced, Write.parts, hs, hcolon, ht]
  · intro w hw
    obtain ⟨sep, hsep, rfl⟩ := List.mem_map.mp hw
    rw [Write.parts, List.forall_mem_singleton]
    exact balancedBraces_sepIf b sep hsep

theorem writesBalanced_lead (b b' : Bool) : WritesBalanced (lead b b') := by
  rw [lead]
  split_ifs
  · simp only [WritesBalanced, List.forall_mem_singleton, Write.parts]
    exact balancedBraces_ofList (by decide)
  · intro w hw
    cases hw

theorem writesBalanced_traceAttributesFrom {types : SSMap} {size i : ℕ}
    {l : List (String × String)} (hl : ∀ p ∈ l, BalancedBraces p.1 ∧ BalancedBraces p.2)
    (h : traceAttributesFrom types size i l = some ws) : WritesBalanced ws := by
  induction l generalizing i ws with
  | nil =>
      obtain rfl := Option.some.inj h
      intro w hw
      cases hw
  | cons p l ih =>
      rw [List.forall_mem_cons] at hl
      rw [traceAttributesFrom] at h
      cases hfind : types.find p.1 with
      | none => simp [hfind] at h
      | some type =>
          simp only [hfind] at h
          split_ifs at h
          · obtain ⟨ws', hws, rfl⟩ := Option.map_eq_some_iff.mp h
            exact (writesBalanced_traceBool hl.1.1 hl.1.2 _ _).append (ih hl.2 hws)
          · obtain ⟨ws', hws, rfl⟩ := Option.map_eq_some_iff.mp h
            exact (writesBalanced_traceExpr hl.1.1 hl.1.2 _).append (ih hl.2 hws)

theorem writesBalanced_traceEventclocksFrom {size i : ℕ} {l : List String}
    (hl : ∀ label ∈ l, BalancedBraces label) :
    WritesBalanced (traceEventclocksFrom size i l) := by
  induction l generalizing i with
  | nil =>
      intro w hw
      cases hw
  | cons label l ih =>
      rw [List.forall_mem_cons] at hl
      exact (writesBalanced_traceBool hl.1 hl.1 _ _).append (ih hl.2)

theorem writesBalanced_traceIndexed {item : String → Bool → List Write} {names : List String}
    {comma : Bool} (hitem : ∀ name ∈ names, ∀ b, WritesBalanced (item name b))
    (h : traceIndexed item names comma = some ws) : WritesBalanced ws := by
  have hloop : ∀ (i : ℕ) (l : List String), (∀ name ∈ l, ∀ b, WritesBalanced (item name b)) →
      WritesBalanced (traceIndexedFrom item names.length i l) := by
    intro i l hl
    induction l generalizing i with
    | nil =>
        intro w hw
        cases hw
    | cons name l ih =>
        rw [List.forall_mem_cons] at hl
        exact (hl.1 _).append (ih (i + 1) hl.2)
  rw [traceIndexed] at h
  split_ifs at h
  obtain rfl := Option.some.inj h
  exact (writesBalanced_lead _ _).append (hloop 0 names hitem)

theorem gives_outputLine (hs : P s.toList) (ht : P t.toList) :
    ∀ p ∈ outputLine s t, p.Gives P := by
  simp [outputLine, gives_arg, hs, ht]

theorem gives_writes (T : HoldsOfTexts P gp mp) (h : WritesBalanced ws) :
    ∀ p ∈ ws.flatMap Write.source, p.Gives P := by
  have hlines : ∀ (indent : String) (ts : List String), BalancedBraces indent →
      (∀ t ∈ ts, BalancedBraces t) → ∀ p ∈ ts.flatMap (outputLine indent), p.Gives P := by
    intro indent ts hindent hts
    rw [List.forall_mem_flatMap]
    intro t ht
    exact gives_outputLine (T.balanced _ hindent) (T.balanced _ (hts t ht))
  rw [List.forall_mem_flatMap]
  intro w hw
  have hparts := h w hw
  cases w with
  | put text =>
      exact gives_outputLine (T.balanced _ (balancedBraces_ofList (by decide)))
        (T.balanced _ (hparts text List.mem_cons_self))
  | paste label =>
      exact gives_outputLine (T.balanced _ (balancedBraces_ofList (by decide)))
        (T.balanced _ (hparts label List.mem_cons_self))
  | print expr =>
      have hexpr := T.balanced _ (hparts expr List.mem_cons_self)
      simp [Write.source, gives_arg, hexpr]
  | ifElse cond label thn els =>
      simp only [Write.parts, List.forall_mem_cons, List.forall_mem_append] at hparts
      obtain ⟨hcond, hlabel, hthn, hels⟩ := hparts
      have hindent : BalancedBraces "    " := balancedBraces_ofList (by decide)
      have hbranch : ∀ ts : List String, (∀ t ∈ ts, BalancedBraces t) →
          ∀ p ∈ (label :: ts).flatMap (outputLine "    "), p.Gives P :=
        fun ts hts => hlines _ _ hindent (List.forall_mem_cons.mpr ⟨hlabel, hts⟩)
      simp only [Write.source, List.forall_mem_append]
      exact ⟨⟨⟨⟨by simp [gives_arg, T.balanced _ hcond], hbranch thn hthn⟩, by simp⟩,
        hbranch els hels⟩, by simp⟩

theorem gives_logged (T : HoldsOfTexts P gp mp) {comment : String} (h : WritesBalanced ws) :
    ∀ p ∈ MonGen.logged comment ws, p.Gives P :=
  gives_append (gives_append (by simp) (gives_writes T h)) (by simp)

/-- What was given to the two streams has a property. -/
def ClassText.Gives (P : List Char → Prop) (c : ClassText) : Prop :=
  (∀ p ∈ c.os, p.Gives P) ∧ ∀ p ∈ c.headerOs, p.Gives P

theorem ClassText.Gives.append {a b : ClassText} (ha : a.Gives P) (hb : b.Gives P) :
    (a ++ b).Gives P :=
  ⟨List.forall_mem_append.mpr ⟨ha.1, hb.1⟩, List.forall_mem_append.mpr ⟨ha.2, hb.2⟩⟩

/-! ### The functions -/

namespace MonGen

/-- The commented text has the brackets of the text. -/
theorem nesting_commentOutString {input commout : List Char}
    (h : commentOutString input = some commout) (n : ℕ) :
    nesting '{' '}' n commout = nesting '{' '}' n input := by
  rw [commentOutString_eq] at h
  obtain rfl := Option.some.inj h
  have hcomment : ∀ (ch : Char) n, nesting '{' '}' n
      (if decide (ch = '\n') = true then ['\n', '/', '/'] else [ch]) =
        nesting '{' '}' n [ch] := by
    intro ch n
    split_ifs with hch
    · rw [of_decide_eq_true hch]
      rfl
    · rfl
  rw [replaceAll, nesting_flatMap hcomment]
  rfl

theorem balanced_toStream (H : SuppliedBalanced gp mp ltl) :
    WellBracketed '{' '}' (toStream mp ltl) := by
  have hformula : BalancedBraces ("\t PBLTL forumula: " ++ ltl ++ "\n") :=
    ((balancedBraces_ofList (by decide)).append H.ltl).append
      (balancedBraces_ofList (by decide))
  have hclocks : BalancedBraces "\t clock(s): \n" := balancedBraces_ofList (by decide)
  refine (WellBracketed.append hformula hclocks).append (wellBracketed_flatMap ?_)
  intro clk hclk
  exact ((balancedBraces_ofList (by decide)).append (H.clocks clk hclk)).append
    (balancedBraces_ofList (by decide))

theorem gives_assignFalse (T : HoldsOfTexts P gp mp) {labels : List String}
    (h : ∀ label ∈ labels, BalancedBraces label) :
    ∀ p ∈ labels.flatMap assignFalse, p.Gives P := by
  rw [List.forall_mem_flatMap]
  intro label hlabel
  simp [assignFalse, gives_arg, T.balanced _ (h label hlabel)]

theorem gives_tracefileGood {file : String} (hfile : P file.toList) :
    ∀ p ∈ tracefileGood file, p.Gives P := by
  simp [tracefileGood, gives_arg, hfile]

theorem gives_tracefileClose : ∀ p ∈ tracefileClose, p.Gives P := by
  simp [tracefileClose]

theorem gives_logTracefile : ∀ p ∈ logTracefile gp, p.Gives P := by
  rw [logTracefile]
  split_ifs
  · exact gives_append (by simp) gives_tracefileClose
  · exact fun p hp => absurd hp List.not_mem_nil

/-- Texts that are written one after the other. -/
theorem gives_flatMap {fs : List ClassText} (h : ∀ f ∈ fs, f.Gives P) :
    (∀ p ∈ fs.flatMap ClassText.os, p.Gives P) ∧
      ∀ p ∈ fs.flatMap ClassText.headerOs, p.Gives P := by
  rw [List.forall_mem_flatMap, List.forall_mem_flatMap]
  exact ⟨fun f hf => (h f hf).1, fun f hf => (h f hf).2⟩

theorem balancedBraces_declaredMembers (H : SuppliedBalanced gp mp ltl) :
    ∀ m ∈ declaredMembers gp mp, BalancedBraces m.1 ∧ BalancedBraces m.2 := by
  have hbool : BalancedBraces "bool" := balancedBraces_ofList (by decide)
  simp only [declaredMembers, List.forall_mem_append, List.forall_mem_map]
  refine ⟨⟨⟨⟨⟨?_, fun p hp => (H.vartypes p hp).symm⟩, fun l hl => ⟨hbool, H.funcLocs l hl⟩⟩,
    fun l hl => ⟨hbool, H.plocations l hl⟩⟩, H.userVals⟩,
    fun label hlabel => ⟨hbool, H.eventClockLabels label hlabel⟩⟩
  simp only [List.forall_mem_cons, List.not_mem_nil, false_imp_iff, implies_true, and_true]
  exact ⟨⟨balancedBraces_ofList (by decide), balancedBraces_ofList (by decide)⟩,
    balancedBraces_ofList (by decide), balancedBraces_ofList (by decide)⟩

section Inserted
variable (H : SuppliedBalanced gp mp ltl) (T : HoldsOfTexts P gp mp)
include H T

theorem gives_monitorHeader (h : monitorHeader mp ltl = some c) : c.Gives P := by
  obtain ⟨commout, hcomment, rfl⟩ := Option.map_eq_some_iff.mp h
  have hbalanced : WellBracketed '{' '}' commout := by
    rw [WellBracketed, nesting_commentOutString hcomment]
    exact balanced_toStream H
  have hgiven := T.balanced (String.ofList commout) (balancedBraces_ofList hbalanced)
  rw [String.toList_ofList] at hgiven
  constructor
  · simp only [List.forall_mem_cons, gives_lit, true_and]
    exact ⟨hgiven, by simp⟩
  · simp

theorem gives_registerWithObserver : ∀ p ∈ registerWithObserver gp mp, p.Gives P := by
  rw [registerWithObserver, List.forall_mem_append]
  refine ⟨by simp, ?_⟩
  rw [List.forall_mem_flatMap]
  intro r hr
  cases r with
  | sample clk =>
      have hclk : BalancedBraces clk := by
        obtain ⟨clk', hclk', hmem⟩ := List.mem_flatMap.mp hr
        rw [mem_registerClock_sample] at hmem
        split_ifs at hmem
        · obtain ⟨p, rfl⟩ := hmem
          exact balancedBraces_clockName p
        · rw [hmem.1]
          exact H.clocks clk' hclk'
      simp [Registration.source, gives_arg, T.balanced _ hclk]
  | event expr =>
      obtain ⟨label, hlabel, rfl⟩ := mem_registerWithObserver_event.mp hr
      simp [Registration.source, gives_arg, T.events label hlabel]

theorem gives_constructorArgs : ∀ p ∈ constructorArgs gp, p.Gives P := by
  rw [constructorArgs, List.forall_mem_flatMap]
  intro q hq
  have htype := T.balanced _ (H.vartypes q.1 (List.fst_mem_of_mem_zipIdx hq)).2
  have hindex := T.balanced _ (balancedBraces_toString q.2)
  simp only [List.forall_mem_cons, gives_lit, true_and]
  exact ⟨htype, hindex, by simp⟩

theorem gives_initTypes : ∀ p ∈ initTypes gp, p.Gives P := by
  rw [initTypes, List.forall_mem_flatMap]
  intro q hq
  have htype := T.balanced _ (H.vartypes q.1 (List.fst_mem_of_mem_zipIdx hq)).1
  have hindex := T.balanced _ (balancedBraces_toString q.2)
  simp only [List.forall_mem_cons, gives_lit, true_and]
  exact ⟨htype, hindex, by simp⟩

theorem gives_initValues : ∀ p ∈ initValues gp, p.Gives P := by
  rw [initValues, List.forall_mem_flatMap]
  intro v hv
  simp [gives_arg, T.balanced _ (H.userVals v hv).2]

theorem gives_initTracefile : ∀ p ∈ initTracefile gp mp, p.Gives P := by
  have hfile := T.balanced _ H.traceFileName
  rw [initTracefile]
  split_ifs
  · refine gives_append (gives_append ?_ gives_tracefileClose) (by simp)
    exact gives_append (by simp [gives_arg, hfile]) (gives_tracefileGood hfile)
  · exact fun p hp => absurd hp List.not_mem_nil

theorem gives_monitorConstructor (h : monitorConstructor gp mp = some c) : c.Gives P := by
  have hname := T.balanced _ H.monitorName
  have hlocs : ∀ label ∈ gp.funcLocs.map FuncLoc.locName, BalancedBraces label :=
    List.forall_mem_map.mpr H.funcLocs
  have hplocs : ∀ label ∈ gp.plocations.map PLocation.locName, BalancedBraces label :=
    List.forall_mem_map.mpr H.plocations
  obtain ⟨c₀, hstart, rfl⟩ := Option.map_eq_some_iff.mp h
  rw [startOfMonitorConstructor] at hstart
  split_ifs at hstart
  obtain rfl := Option.some.inj hstart
  refine ClassText.Gives.append (ClassText.Gives.append ?_ ?_) ?_
  · simp [ClassText.Gives, startOfClassDefinition, name, gives_arg, hname]
  · constructor
    · refine gives_append ?_ (gives_registerWithObserver H T)
      refine gives_append ?_ (gives_initTracefile H T)
      refine gives_append (gives_append ?_ (by simp)) (gives_assignFalse T H.eventClockLabels)
      refine gives_append (gives_append ?_ (by simp)) (gives_initValues H T)
      refine gives_append (gives_append ?_ (by simp)) (gives_assignFalse T hplocs)
      refine gives_append (gives_append ?_ (by simp)) (gives_assignFalse T hlocs)
      refine gives_append (gives_append ?_ (by simp)) (gives_initTypes H T)
      refine gives_append ?_ (gives_constructorArgs H T)
      simp [name, gives_arg, hname]
    · refine gives_append (gives_append ?_ (gives_constructorArgs H T)) ?_
      · simp [name, gives_arg, hname]
      · simp [name, gives_arg, hname]
  · simp [ClassText.Gives, endOfMonitorConstructor, name, gives_arg, hname]

theorem gives_stepHeader : (stepHeader gp mp).Gives P := by
  simp [ClassText.Gives, stepHeader, name, gives_arg, T.balanced _ H.monitorName]

theorem gives_openTracefile : ∀ p ∈ openTracefile gp mp, p.Gives P := by
  have hfile := T.balanced _ H.traceFileName
  rw [openTracefile]
  split_ifs
  · exact gives_append (by simp [gives_arg, hfile]) (gives_tracefileGood hfile)
  · exact fun p hp => absurd hp List.not_mem_nil

theorem gives_stepFooter (h : stepFooter gp mp = some c) : c.Gives P := by
  by_cases hsome : observesSome gp mp
  · simp only [stepFooter, if_pos hsome, Option.bind_eq_bind, Option.bind_eq_some_iff,
      Option.pure_def, Option.some.injEq] at h
    obtain ⟨a, ha, l, hl, p, hp, u, hu, rfl⟩ := h
    have hattributes : WritesBalanced a := by
      obtain ⟨ws, hws, rfl⟩ := Option.map_eq_some_iff.mp ha
      exact (writesBalanced_lead _ _).append
        (writesBalanced_traceAttributesFrom H.attributes hws)
    have hclocks : ∀ comma, WritesBalanced (traceEventclocks (eventClockLabels gp mp) comma) :=
      fun comma => (writesBalanced_lead _ _).append
        (writesBalanced_traceEventclocksFrom H.eventClockLabels)
    have hlocs : WritesBalanced l := by
      refine writesBalanced_traceIndexed ?_ hl
      rw [List.forall_mem_map]
      exact fun loc hloc b =>
        writesBalanced_traceBool (H.funcLocs loc hloc) (H.funcLocs loc hloc) b b
    have hplocs : WritesBalanced p := by
      refine writesBalanced_traceIndexed ?_ hp
      rw [List.forall_mem_map]
      exact fun loc hloc b =>
        writesBalanced_traceBool (H.plocations loc hloc) (H.plocations loc hloc) b b
    have hvals : WritesBalanced u := by
      refine writesBalanced_traceIndexed ?_ hu
      rw [List.forall_mem_map]
      exact fun v hv b => writesBalanced_traceExpr (H.userVals v hv).2 (H.userVals v hv).2 b
    refine ⟨?_, fun q hq => absurd hq List.not_mem_nil⟩
    refine gives_append (gives_append (gives_append ?_ (by simp)) gives_logTracefile) (by simp)
    refine gives_append ?_ (gives_logged T hvals)
    refine gives_append ?_ (gives_logged T hplocs)
    refine gives_append ?_ (gives_logged T hlocs)
    refine gives_append ?_ (gives_logged T (hclocks _))
    refine gives_append ?_ (gives_logged T hattributes)
    exact gives_append (by simp) (gives_openTracefile H T)
  · rw [stepFooter_of_observesNone h hsome]
    exact ⟨fun q hq => absurd hq List.not_mem_nil, fun q hq => absurd hq List.not_mem_nil⟩

theorem gives_ifEvent {value : String} (hvalue : BalancedBraces value) :
    ∀ p ∈ (eventClockLabels gp mp).toList.flatMap (ifEvent gp value), p.Gives P := by
  rw [List.forall_mem_flatMap]
  intro label hlabel
  simp [ifEvent, gives_arg, T.events label hlabel, T.balanced _ hvalue,
    T.balanced _ (H.eventClockLabels label hlabel)]

theorem gives_eventCallback : (eventCallback gp mp).Gives P := by
  have hname := T.balanced _ H.monitorName
  have hvalue : BalancedBraces " = true;\n" ∧ BalancedBraces " = false;\n" :=
    ⟨balancedBraces_ofList (by decide), balancedBraces_ofList (by decide)⟩
  constructor
  · refine gives_append (gives_append ?_ (gives_ifEvent H T hvalue.2)) ?_
    · refine gives_append (gives_append ?_ (gives_ifEvent H T hvalue.1)) ?_
      all_goals simp [name, gives_arg, hname]
    · simp
  · simp [eventCallback]

theorem gives_kernelCallback
    {b : String × String} (hb : b ∈ callbackBranches) : (kernelCallback gp mp b).Gives P := by
  have hcallback : BalancedBraces b.2 := by
    rw [callbackBranches_eq] at hb
    obtain ⟨p, -, rfl⟩ := List.mem_map.mp hb
    exact balancedBraces_pointCallback p
  have hindent : BalancedBraces (stepIndent b.1) := by
    rw [stepIndent]
    split_ifs
    · exact balancedBraces_ofList (by decide)
    · exact balancedBraces_ofList (by decide)
  simp [ClassText.Gives, kernelCallback, name, gives_arg, T.balanced _ H.monitorName,
    T.balanced _ hcallback, T.balanced _ hindent]

theorem gives_callbackTexts : ∀ f ∈ callbackTexts gp mp, f.Gives P := by
  rw [callbackTexts, List.forall_mem_append, List.forall_mem_flatMap]
  constructor
  · split_ifs
    · exact fun f hf => absurd hf List.not_mem_nil
    · rw [List.forall_mem_singleton]
      exact gives_eventCallback H T
  · intro clk hclk f hf
    have hname := T.balanced _ H.monitorName
    have hclock := T.balanced _ (H.clocks clk hclk)
    rw [clockCallbacks] at hf
    split_ifs at hf
    · obtain ⟨b, hb, rfl⟩ := List.mem_map.mp hf
      exact gives_kernelCallback H T (List.mem_filter.mp hb).1
    · rw [List.mem_singleton.mp hf]
      simp [ClassText.Gives, userlocCallback, name, gives_arg, hname, hclock]
    · cases hf

theorem gives_observerCallbacks : (observerCallbacks gp mp).Gives P := by
  obtain ⟨hos, hheader⟩ := gives_flatMap (gives_callbackTexts H T)
  exact ⟨gives_append (by simp) hos, gives_append (by simp) hheader⟩

theorem gives_valueCallback
    {v : UserVal} (hv : v ∈ gp.userVals) : (valueCallback gp mp v).Gives P := by
  have hname := T.balanced _ H.monitorName
  have htype := T.balanced _ (H.userVals v hv).1
  have hval := T.balanced _ (H.userVals v hv).2
  have hparam : P (actualParamName v.valName).toList := by
    apply T.balanced
    rw [actualParamName]
    split_ifs
    · exact balancedBraces_ofList (by decide)
    · exact balancedBraces_ofList (by decide)
  simp [ClassText.Gives, valueCallback, valueSignature, name, gives_arg, hname, htype, hval,
    hparam]

theorem gives_generateValueCallbacks (h : generateValueCallbacks gp mp = some c) :
    c.Gives P := by
  rw [generateValueCallbacks] at h
  split_ifs at h
  obtain rfl := Option.some.inj h
  have hall : ∀ f ∈ gp.userVals.map (valueCallback gp mp), f.Gives P :=
    List.forall_mem_map.mpr fun v hv => gives_valueCallback H T hv
  obtain ⟨hos, hheader⟩ := gives_flatMap hall
  exact ⟨hos, gives_append (by simp) hheader⟩

theorem gives_declaringVariables : (startDeclaringMonitorClassVariables gp mp).Gives P ∧
      finishDeclaringMonitorClassVariables.Gives P := by
  have hmembers : ∀ p ∈ (declaredMembers gp mp).flatMap fun m =>
      [lit "  ", arg m.1, lit " ", arg m.2, lit ";\n"], p.Gives P := by
    rw [List.forall_mem_flatMap]
    intro m hm
    obtain ⟨htype, hname⟩ := balancedBraces_declaredMembers H m hm
    simp [gives_arg, T.balanced _ htype, T.balanced _ hname]
  constructor
  · exact ⟨fun p hp => absurd hp List.not_mem_nil, gives_append (by simp) hmembers⟩
  · simp [ClassText.Gives, finishDeclaringMonitorClassVariables]

/-- What the class was given has a property of balanced texts and of the observed events. -/
theorem gives_traceGeneration (h : traceGeneration gp mp ltl = some c) : c.Gives P := by
  obtain ⟨header, constructor, state, values, hheader, hctor, hstate, hvalues, rfl⟩ :=
    parts_of_traceGeneration h
  obtain ⟨hstart, hfinish⟩ := gives_declaringVariables H T
  have hbegin := ((gives_monitorHeader H T hheader).append
    (gives_monitorConstructor H T hctor)).append (gives_stepHeader H T)
  have hend := (((gives_observerCallbacks H T).append
    (gives_generateValueCallbacks H T hvalues)).append hstart).append hfinish
  exact (hbegin.append (gives_stepFooter H T hstate)).append hend

end Inserted

end MonGen
end Given

/-! ## The class -/

namespace MonGen

section Class
variable {gp : GlobalParams} {mp : MonitorParams} {ltl : String} {c : ClassText}

/-- Without anything observed, the definitions that follow stand in the body of `step()`. -/
theorem leads_traceGeneration (h : traceGeneration gp mp ltl = some c) :
    (Braces 0 0 c.os ↔ observesSome gp mp) ∧ Braces 0 0 c.headerOs := by
  obtain ⟨header, constructor, state, values, hheader, hctor, hstate, hvalues, rfl⟩ :=
    parts_of_traceGeneration h
  have hbegin : Braces 0 1 (header.os ++ constructor.os ++ (stepHeader gp mp).os) :=
    ((leads_monitorHeader (n := 0) hheader).1.append
      (leads_monitorConstructor (n := 0) hctor).1).append (leads_stepHeader (n := 0)).1
  have hcallbacks : Braces 0 0 ((observerCallbacks gp mp).os ++ values.os ++ [] ++ []) :=
    (((leads_observerCallbacks (n := 0)).1.append
      (leads_generateValueCallbacks (n := 0) hvalues).1).append (leads_nil 0)).append
        (leads_nil 0)
  constructor
  · constructor
    · intro hos
      by_contra hnone
      rw [stepFooter_of_observesNone hstate hnone] at hos
      -- what comes after `step_header` cannot close a brace of its own
      have hrest : Braces (0 + 1) 0 ((observerCallbacks gp mp).os ++ values.os ++ [] ++ []) :=
        (hbegin.append (leads_nil 1)).of_append hos
      exact absurd (hcallbacks.eq_add hrest) (by decide)
    · intro hsome
      exact (hbegin.append (leads_stepFooter hstate hsome)).append hcallbacks
  · have hfirst : Braces 0 1
        (header.headerOs ++ constructor.headerOs ++ (stepHeader gp mp).headerOs) :=
      ((leads_monitorHeader hheader).2.append (leads_monitorConstructor hctor).2).append
        leads_stepHeader.2
    have hstep : Braces 1 1 state.headerOs := by
      rw [headerOs_stepFooter hstate]
      exact leads_nil 1
    obtain ⟨hdeclare, hfinish⟩ := @leads_declaringVariables 0 gp mp
    have hlast : Braces 1 0 ((observerCallbacks gp mp).headerOs ++ values.headerOs ++
        (startDeclaringMonitorClassVariables gp mp).headerOs ++
        finishDeclaringMonitorClassVariables.headerOs) :=
      ((leads_observerCallbacks.2.append (leads_generateValueCallbacks hvalues).2).append
        hdeclare).append hfinish
    exact (hfirst.append hstep).append hlast

/-- The registration names every observed event. -/
theorem eventName_mem_os (h : traceGeneration gp mp ltl = some c) {label : String}
    (hlabel : label ∈ (eventClockLabels gp mp).toList) : arg (eventName gp label) ∈ c.os := by
  obtain ⟨header, constructor, state, values, hheader, hctor, hstate, hvalues, rfl⟩ :=
    parts_of_traceGeneration h
  obtain ⟨c₀, hstart, rfl⟩ := Option.map_eq_some_iff.mp hctor
  have hregister : arg (eventName gp label) ∈ registerWithObserver gp mp := by
    apply List.mem_append_right
    exact List.mem_flatMap.mpr ⟨_, mem_registerWithObserver_event.mpr ⟨label, hlabel, rfl⟩,
      by simp [Registration.source]⟩
  have hmem : arg (eventName gp label) ∈ c₀.os := by
    rw [startOfMonitorConstructor] at hstart
    split_ifs at hstart
    obtain rfl := Option.some.inj hstart
    exact List.mem_append_right _ hregister
  -- the constructor stands between the header and `step()`
  exact List.mem_append_left _ (List.mem_append_left _ (List.mem_append_left _
    (List.mem_append_right _ (List.mem_append_left _ (List.mem_append_right _ hmem)))))

/-- Without anything observed, the class is not well formed. -/
theorem not_wellFormed (H : SuppliedBalanced gp mp ltl)
    (h : traceGeneration gp mp ltl = some c) (hnone : ¬ observesSome gp mp) :
    ¬ c.WellFormed := by
  intro hwell
  have hlabels : (eventClockLabels gp mp).toList = [] := by
    simp only [observesSome, Bool.or_eq_true, not_or, Bool.not_eq_true,
      Bool.not_eq_false'] at hnone
    exact List.isEmpty_iff.mp hnone.1.1.1.2
  have hgives := gives_traceGeneration H (P := WellBracketed '{' '}')
    ⟨fun _ hs => hs, fun label hlabel => by rw [hlabels] at hlabel; cases hlabel⟩ h
  exact hnone ((leads_traceGeneration h).1.mp ((wellFormed_iff_leads hgives.1).mp hwell.1))

/-- **The class is well formed exactly when something is observed and the observed events have
balanced braces.** -/
theorem wellFormed_iff (H : SuppliedBalanced gp mp ltl)
    (h : traceGeneration gp mp ltl = some c) :
    c.WellFormed ↔ observesSome gp mp ∧
      ∀ label ∈ (eventClockLabels gp mp).toList, BalancedBraces (eventName gp label) := by
  obtain ⟨hos, hheader⟩ := leads_traceGeneration h
  have hcovered : HoldsOfTexts (Covered '{' '}') gp mp :=
    ⟨fun _ hs => hs.covered, fun label hlabel =>
      covered_eventName H (mem_eventClockLabels.mp hlabel).2⟩
  constructor
  · intro hwell
    have hsome : observesSome gp mp := by
      by_contra hnone
      exact not_wellFormed H h hnone hwell
    refine ⟨hsome, fun label hlabel => ?_⟩
    have hiff := wellFormed_iff_wellBracketed (gives_traceGeneration H hcovered h).1
      (hos.mpr hsome)
    exact hiff.mp hwell.1 _ (eventName_mem_os h hlabel)
  · rintro ⟨hsome, hevents⟩
    have hgives := gives_traceGeneration H ⟨fun _ hs => hs, hevents⟩ h
    exact ⟨(wellFormed_iff_leads hgives.1).mpr (hos.mpr hsome),
      ((wellFormed_iff_leads hgives.2).mpr hheader).balanced⟩

/-- A configuration file with an event clock. -/
def oneEvent : String := "eventclock a->e.notified e\ntime_resolution e\nformula G e\n"

theorem wellFormed_iff_oneEvent : ∃ c code, globalParams [] oneEvent = some c ∧
    traceGeneration c.toGlobalParams (monitorParams c.toGlobalParams 0) (c.formula 0).ltl
      = some code ∧ code.WellFormed := by
  obtain ⟨c, hc, H, hsome, hevents, htrace⟩ : ∃ c, globalParams [] oneEvent = some c ∧
      SuppliedBalanced c.toGlobalParams (monitorParams c.toGlobalParams 0) (c.formula 0).ltl ∧
      observesSome c.toGlobalParams (monitorParams c.toGlobalParams 0) ∧
      (∀ label ∈ (eventClockLabels c.toGlobalParams (monitorParams c.toGlobalParams 0)).toList,
        BalancedBraces (eventName c.toGlobalParams label)) ∧
      (traceGeneration c.toGlobalParams (monitorParams c.toGlobalParams 0)
        (c.formula 0).ltl).isSome :=
    ⟨_, rfl, ⟨by decide, by decide, by decide, by decide, by decide, by decide, by decide,
      by decide, by decide⟩, by decide, by decide, rfl⟩
  obtain ⟨code, hcode⟩ := Option.isSome_iff_exists.mp htrace
  exact ⟨c, code, hc, hcode, (wellFormed_iff H hcode).mpr ⟨hsome, hevents⟩⟩

/-- A configuration file with a clock and a formula. -/
def clocksOnly : String := "time_resolution MON_DELTA_CYCLE_BEGIN\nformula G f\n"

/-- The body of `step()` is open where `callback_delta_cycle_begin` starts. -/
theorem clocksOnly_not_wellFormed : ∃ c code, globalParams [] clocksOnly = some c ∧
    SuppliedBalanced c.toGlobalParams (monitorParams c.toGlobalParams 0) (c.formula 0).ltl ∧
    traceGeneration c.toGlobalParams (monitorParams c.toGlobalParams 0) (c.formula 0).ltl
      = some code ∧ ¬ code.WellFormed := by
  obtain ⟨c, hc, H, hnone, htrace⟩ : ∃ c, globalParams [] clocksOnly = some c ∧
      SuppliedBalanced c.toGlobalParams (monitorParams c.toGlobalParams 0) (c.formula 0).ltl ∧
      ¬ observesSome c.toGlobalParams (monitorParams c.toGlobalParams 0) ∧
      (traceGeneration c.toGlobalParams (monitorParams c.toGlobalParams 0)
        (c.formula 0).ltl).isSome :=
    ⟨_, rfl, ⟨by decide, by decide, by decide, by decide, by decide, by decide, by decide,
      by decide, by decide⟩, by decide, rfl⟩
  obtain ⟨code, hcode⟩ := Option.isSome_iff_exists.mp htrace
  exact ⟨c, code, hc, H, hcode, not_wellFormed H hcode hnone⟩

end Class

end MonGen

end Pscv.Mag
