import Mathlib.Data.List.GetD
import Mathlib.Data.List.Range
import Pscv.Mag.Main

/-!
# The addresses of the monitors

The set of all monitors is ordered by the addresses of its objects. Two runs on one
configuration that get other addresses from `new` may therefore generate the class of
another formula, and write the requirements in another order.

## Main results

* `deterministic_iff`.
-/

namespace Pscv.Mag

open Pscv.Lib

/-- The requirement of a formula. -/
def requirementOf (c : Config) (f : Formula) : Requirement :=
  ⟨cStr f.formulaName, c.requirementtype, cStr f.ltl⟩

/-- The same name and the same text are printed for two formulas. -/
def Formula.PrintsAs (f f' : Formula) : Prop :=
  cStr f.formulaName = cStr f'.formulaName ∧ cStr f.ltl = cStr f'.ltl

/-- What is generated does not depend on the addresses: the class is that of the first
formula, and the requirements are in the order of the formulas. -/
structure Deterministic (c : Config) : Prop where
  same : ∀ alloc alloc' : ℕ → ℕ, Function.Injective alloc → Function.Injective alloc' →
    main alloc c = main alloc' c
  first : ∀ alloc : ℕ → ℕ, Function.Injective alloc → ∀ out, main alloc c = some out →
    ∀ g, out.1 = some g → ∀ code, g.monitor = some code →
      traceGeneration c.toGlobalParams (monitorParams c.toGlobalParams 0) (c.formula 0).ltl
        = some code
  order : ∀ alloc : ℕ → ℕ, Function.Injective alloc → ∀ out, main alloc c = some out →
    out.2.requirements = c.formulas.map (requirementOf c)

/-! ## What the generators see of the set -/

section Congr
variable {alloc alloc' : ℕ → ℕ} {mons : MpSet alloc} {mons' : MpSet alloc'} {gp : GlobalParams}

theorem firstMonitor_congr (h : mons.first? = mons'.first?) :
    firstMonitor gp mons = firstMonitor gp mons' := by
  rw [firstMonitor, firstMonitor, h]

theorem accessIfClock_congr (h : mons.first? = mons'.first?) :
    accessIfClock gp mons = accessIfClock gp mons' := by
  ext1 locName
  rw [accessIfClock, accessIfClock, firstMonitor_congr h]

theorem adviceForLocation_congr (h : mons.first? = mons'.first?) :
    adviceForLocation gp mons = adviceForLocation gp mons' := by
  ext1 loc
  rw [adviceForLocation, adviceForLocation, accessIfClock_congr h]

theorem adviceForValue_congr (h : mons.first? = mons'.first?) :
    adviceForValue gp mons = adviceForValue gp mons' := by
  ext1 uv
  rw [adviceForValue, adviceForValue, instrumentReturn, instrumentReturn, firstMonitor_congr h]

theorem generateAspectFile_congr (h : mons.first? = mons'.first?) :
    generateAspectFile gp mons = generateAspectFile gp mons' := by
  rw [generateAspectFile, generateAspectFile, adviceForLocation_congr h,
    adviceForValue_congr h]

theorem generatePatternsFile_congr (h : mons.first? = mons'.first?) :
    generatePatternsFile gp mons = generatePatternsFile gp mons' := by
  have hsed : sedForLocation gp mons = sedForLocation gp mons' := by
    ext1 loc
    rw [sedForLocation, sedForLocation, accessIfClock_congr h]
  rw [generatePatternsFile, generatePatternsFile, hsed]

/-- Besides the plasma project, only the first monitor is seen. -/
theorem generate_congr (c : Config) (h : mons.first? = mons'.first?) :
    generate c mons = generate c mons' := by
  have hmonitor : generateMonitor c mons = generateMonitor c mons' := by
    rw [generateMonitor, generateMonitor, h]
  have hobserver : generateLocalObserver c.toGlobalParams mons
      = generateLocalObserver c.toGlobalParams mons' := by
    rw [generateLocalObserver, generateLocalObserver, firstMonitor_congr h]
  have hfriends : generateFriendship c mons = generateFriendship c mons' := by
    rw [generateFriendship, generateFriendship, firstMonitor_congr h]
  rw [generate, generate, hmonitor, generateAspectFile_congr h, generatePatternsFile_congr h,
    hobserver, hfriends]

end Congr

/-! ## Few or equal formulas -/

section Proofs
variable {alloc alloc' : ℕ → ℕ} {c : Config} {out : Option Generated × PlasmaProject}

/-- The set is a permutation of the numbers of the objects. -/
theorem monitors_perm (hinj : Function.Injective alloc) :
    (c.monitors alloc).toList.Perm (List.range c.formulas.length) := by
  rw [List.perm_ext_iff_of_nodup (c.monitors alloc).nodup List.nodup_range]
  intro n
  rw [mem_monitors hinj, List.mem_range]

theorem monitors_of_length_le_one (hinj : Function.Injective alloc)
    (h : c.formulas.length ≤ 1) :
    (c.monitors alloc).toList = List.range c.formulas.length := by
  have hperm := monitors_perm (c := c) hinj
  rcases Nat.le_one_iff_eq_zero_or_eq_one.mp h with hlen | hlen
  · rw [hlen] at hperm ⊢
    exact hperm.eq_nil
  · rw [hlen] at hperm ⊢
    exact List.perm_singleton.mp hperm

theorem requirements_eq (c : Config) (mons : MpSet alloc) :
    (generatePlasmaFile c mons).requirements
      = (mons.toList.map c.formula).map (requirementOf c) := by
  rw [List.map_map]
  rfl

theorem map_formula_range (c : Config) :
    (List.range c.formulas.length).map c.formula = c.formulas := by
  refine List.ext_getElem (by simp) ?_
  intro n h h'
  rw [List.getElem_map, List.getElem_range, Config.formula, List.getD_eq_getElem _ _ h']

/-- With one formula at most there is only one order. -/
theorem deterministic_of_length_le_one (h : c.formulas.length ≤ 1) : Deterministic c where
  same alloc alloc' hinj hinj' := by
    have hlist : (c.monitors alloc).toList = (c.monitors alloc').toList := by
      rw [monitors_of_length_le_one hinj h, monitors_of_length_le_one hinj' h]
    have hfirst : (c.monitors alloc).first? = (c.monitors alloc').first? :=
      congrArg List.head? hlist
    have hplasma : generatePlasmaFile c (c.monitors alloc)
        = generatePlasmaFile c (c.monitors alloc') := by
      rw [generatePlasmaFile, generatePlasmaFile, hlist]
    rw [main, main, hplasma, generate_congr c hfirst]
  first alloc hinj out hout g hg code hcode := by
    obtain ⟨n, hfirst, htrace⟩ := generate_monitor (main_generated hout hg).2 hcode
    have hn := (mem_monitors hinj).mp (KeyedSet.first?_eq_some_iff.mp hfirst).1
    obtain rfl : n = 0 := by omega
    exact htrace
  order alloc hinj out hout := by
    rw [main_plasma hout, requirements_eq, monitors_of_length_le_one hinj h, map_formula_range]

/-- Equal requirements are in every order the same. -/
theorem deterministic_of_eq (honly : c.plasmaProjectOnly = true)
    (heq : ∀ f ∈ c.formulas, ∀ f' ∈ c.formulas, f.PrintsAs f') : Deterministic c := by
  have horder : ∀ alloc : ℕ → ℕ, Function.Injective alloc →
      (generatePlasmaFile c (c.monitors alloc)).requirements
        = c.formulas.map (requirementOf c) := by
    intro alloc hinj
    have hperm := ((monitors_perm (c := c) hinj).map c.formula).map (requirementOf c)
    rw [map_formula_range, ← requirements_eq] at hperm
    cases hf : c.formulas with
    | nil =>
        rw [hf] at hperm
        exact hperm.eq_nil
    | cons f fs =>
        rw [hf] at hperm heq
        have hall : ∀ r ∈ (f :: fs).map (requirementOf c), r = requirementOf c f := by
          intro r hr
          obtain ⟨f', hf', rfl⟩ := List.mem_map.mp hr
          obtain ⟨hname, hltl⟩ := heq f' hf' f List.mem_cons_self
          rw [requirementOf, requirementOf, hname, hltl]
        rw [List.eq_replicate_of_mem hall] at hperm ⊢
        exact List.perm_replicate.mp hperm
  have hmain : ∀ alloc : ℕ → ℕ,
      main alloc c = some (none, generatePlasmaFile c (c.monitors alloc)) := by
    intro alloc
    rw [main, if_pos honly]
  constructor
  · intro alloc alloc' hinj hinj'
    have hplasma : generatePlasmaFile c (c.monitors alloc)
        = generatePlasmaFile c (c.monitors alloc') := by
      have hreq := (horder alloc hinj).trans (horder alloc' hinj').symm
      exact congrArg (PlasmaProject.mk _ _ _ _ _) hreq
    rw [hmain, hmain, hplasma]
  · intro alloc hinj out hout g hg
    rw [hmain] at hout
    rw [← Option.some.inj hout] at hg
    cases hg
  · intro alloc hinj out hout
    rw [main_plasma hout, horder alloc hinj]

/-! ## Two formulas -/

/-- Addresses that put an object first. -/
def firstAt (i n : ℕ) : ℕ := if n = i then 0 else n + 1

theorem firstAt_injective (i : ℕ) : Function.Injective (firstAt i) := by
  intro m n h
  simp only [firstAt] at h
  split_ifs at h <;> omega

theorem first?_firstAt {i : ℕ} (h : i < c.formulas.length) :
    (c.monitors (firstAt i)).first? = some i := by
  rw [KeyedSet.first?_eq_some_iff, mem_monitors (firstAt_injective i)]
  refine ⟨h, fun n _ => ?_⟩
  simp [firstAt]

/-- Any formula may come first in the plasma project. -/
theorem head_requirements {i : ℕ} (h : i < c.formulas.length)
    (hout : main (firstAt i) c = some out) :
    out.2.requirements.head? = some (requirementOf c (c.formula i)) := by
  have hfirst := first?_firstAt h
  rw [KeyedSet.first?] at hfirst
  rw [main_plasma hout, requirements_eq, List.head?_map, List.head?_map, hfirst]
  rfl

/-- **A configuration is generated in one way exactly when it has one formula at most**, or
only a plasma project of equal requirements is generated. -/
theorem deterministic_iff (c : Config) {alloc : ℕ → ℕ} (hinj : Function.Injective alloc)
    (hout : main alloc c = some out) :
    Deterministic c ↔ c.formulas.length ≤ 1 ∨
      c.plasmaProjectOnly = true ∧ ∀ f ∈ c.formulas, ∀ f' ∈ c.formulas, f.PrintsAs f' := by
  constructor
  · intro hdet
    by_contra hcond
    rw [not_or, not_le] at hcond
    obtain ⟨hlen, hneq⟩ := hcond
    have hmain : ∀ i, main (firstAt i) c = some out := fun i =>
      (hdet.same _ _ (firstAt_injective i) hinj).trans hout
    -- the class is that of the first object, whose number is in its name
    have honly : c.plasmaProjectOnly = true := by
      by_contra hall
      rw [Bool.not_eq_true] at hall
      obtain ⟨g, hg⟩ : ∃ g, out.1 = some g := by
        rw [main, hall, if_neg Bool.false_ne_true] at hout
        obtain ⟨g, -, rfl⟩ := Option.map_eq_some_iff.mp hout
        exact ⟨g, rfl⟩
      have hobserver : ∀ i < c.formulas.length, g.observer
          = [monitorName c.toGlobalParams (monitorParams c.toGlobalParams i)] := by
        intro i hi
        obtain ⟨classes, hemit⟩ := emit_of_generate (main_generated (hmain i) hg).2
        have hobs : g.observer
            = generateLocalObserver c.toGlobalParams (c.monitors (firstAt i)) :=
          (mem_accesses hemit).1
        have hmp : firstMonitor c.toGlobalParams (c.monitors (firstAt i))
            = some (monitorParams c.toGlobalParams i) := by
          rw [firstMonitor, first?_firstAt hi]
          rfl
        rw [hobs, generateLocalObserver, hmp]
      have hname := (hobserver 0 (by omega)).symm.trans (hobserver 1 (by omega))
      have hid := List.singleton_inj.mp hname
      rw [monitorName, monitorName, String.append_right_inj, monitorParams_id,
        monitorParams_id] at hid
      exact absurd hid (by decide)
    refine hneq ⟨honly, ?_⟩
    have hhead : ∀ i < c.formulas.length, ∀ j < c.formulas.length,
        (c.formula i).PrintsAs (c.formula j) := by
      intro i hi j hj
      have heq := (head_requirements hi (hmain i)).symm.trans (head_requirements hj (hmain j))
      have hreq := Option.some.inj heq
      simp only [requirementOf, Requirement.mk.injEq, true_and] at hreq
      exact hreq
    intro f hf f' hf'
    rw [← map_formula_range c] at hf hf'
    obtain ⟨i, hi, rfl⟩ := List.mem_map.mp hf
    obtain ⟨j, hj, rfl⟩ := List.mem_map.mp hf'
    exact hhead i (List.mem_range.mp hi) j (List.mem_range.mp hj)
  · rintro (hlen | ⟨honly, heq⟩)
    · exact deterministic_of_length_le_one hlen
    · exact deterministic_of_eq honly heq

end Proofs

section Examples

/-- A configuration with one formula. -/
def oneFormula : Config := { defaults with formulas := [⟨"a", "req0"⟩] }

/-- It is generated in one way. -/
theorem deterministic_iff_one : Deterministic oneFormula :=
  (deterministic_iff oneFormula (firstAt_injective 0) rfl).mpr (.inl (by decide))

/-- A configuration file with two formulas. -/
def twoFormulas : String := "formula a\nformula b\n"

/-- Two runs on it: the second gets the lower address for the second object. -/
theorem twoFormulas_differ : ∃ c out out' g g' code code',
    globalParams [] twoFormulas = some c ∧
    main (firstAt 0) c = some out ∧ out.1 = some g ∧ g.monitor = some code ∧
    main (firstAt 1) c = some out' ∧ out'.1 = some g' ∧ g'.monitor = some code' ∧
    (code.className, code.ltl) = ("monitor0", "a") ∧
    (code'.className, code'.ltl) = ("monitor1", "b") ∧
    out.2.requirements.map Requirement.name = ["req0", "req1"] ∧
    out'.2.requirements.map Requirement.name = ["req1", "req0"] ∧ ¬ Deterministic c := by
  refine ⟨_, _, _, _, _, _, _, rfl, rfl, rfl, rfl, rfl, rfl, rfl, rfl, rfl, rfl, rfl, ?_⟩
  intro h
  have horder := h.order (firstAt 1) (firstAt_injective 1) _ rfl
  have hnames : ["req1", "req0"] = ["req0", "req1"] :=
    congrArg (List.map Requirement.name) horder
  exact absurd hnames (by decide)

end Examples

end Pscv.Mag
