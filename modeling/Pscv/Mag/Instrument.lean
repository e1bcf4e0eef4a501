import Pscv.Mag.Monitor

/-!
# Numbers of monitors in the emitted code

Each `formula` line of the configuration creates a `monitor_params` object, numbered by
a counter, and puts a pointer to it into a set that is ordered by address. The
generators of the monitor class, of the local observer, of the aspect file and of the
sed script all take the first element of that set.

A pointer is represented by the number of its object, and `alloc` gives the addresses.

## Main results

* `accesses_ok_iff`.
-/

namespace Pscv.Mag

open Pscv.Lib

/-- `mpset_t`. -/
abbrev MpSet (alloc : ℕ → ℕ) := KeyedSet alloc

/-- One `formula` line: a new object, and its pointer in the set. -/
def addFormula {alloc : ℕ → ℕ} (s : ℕ × MpSet alloc) (_line : String) : ℕ × MpSet alloc :=
  (s.1 + 1, (s.2.insert s.1).2)

/-- `all_monitors`, after the formula lines. -/
def allMonitors (alloc : ℕ → ℕ) (formulas : List String) : MpSet alloc :=
  (formulas.foldl addFormula (0, .empty)).2

/-- The object with a number: `num_monitors` is an `int`, and `main` gives every object
the time resolution. -/
def monitorParams (gp : GlobalParams) (n : ℕ) : MonitorParams := ⟨int32 n, gp.timeresolution⟩

@[simp] theorem monitorParams_id (gp : GlobalParams) (n : ℕ) :
    (monitorParams gp n).id = int32 n := rfl

@[simp] theorem monitorParams_clocks (gp : GlobalParams) (n : ℕ) :
    (monitorParams gp n).clocks = gp.timeresolution := rfl

/-- A block of emitted code that takes a monitor from the observer: the class it casts
to, the argument of `get_monitor_by_index`, and the callback it calls. -/
structure Access where
  className : String
  id : ℤ
  callback : String
  deriving DecidableEq

/-- The index that `get_monitor_by_index` receives, an `unsigned int`. -/
def Access.index (a : Access) : ℕ := (a.id % 2 ^ 32).toNat

/-- An advice: where it is woven in, and the access of its body. -/
structure Advice where
  pointcut : String
  access : Option Access
  deriving DecidableEq

/-- A command of the sed script. -/
structure SedCommand where
  pattern : String
  access : Access
  deriving DecidableEq

section Generators
variable {alloc : ℕ → ℕ} (gp : GlobalParams) (mons : MpSet alloc)

/-- The monitor that the generators use. -/
def firstMonitor : Option MonitorParams := mons.first?.map (monitorParams gp)

/-- The access to a monitor. -/
def accessTo (callback : String) (mp : MonitorParams) : Access :=
  ⟨monitorName gp mp, mp.id, callback⟩

/-- The access for a location that is a clock of the monitor. -/
def accessIfClock (locName : String) : Option Access :=
  match firstMonitor gp mons with
  | some mp =>
      if locName ∈ mp.clocks.toList then
        some (accessTo gp ("callback_userloc_" ++ locName ++ "()") mp)
      else none
  | none => none

/-- `generate_individually(func_loc_t)`. -/
def adviceForLocation (loc : FuncLoc) : Option Advice :=
  match loc.funcBefter with
  | .dummy => none
  | .entry => some ⟨"execution(" ++ loc.funcIdentifier ++ "): before()",
      accessIfClock gp mons loc.locName⟩
  | .exit => some ⟨"execution(" ++ loc.funcIdentifier ++ "): after()",
      accessIfClock gp mons loc.locName⟩
  | .call => some ⟨"call(" ++ loc.funcIdentifier ++ "): before()",
      accessIfClock gp mons loc.locName⟩
  | .return => some ⟨"call(" ++ loc.funcIdentifier ++ "): after()",
      accessIfClock gp mons loc.locName⟩

/-- `instrument_return`. -/
def instrumentReturn (uv : UserVal) : Advice :=
  ⟨"call(" ++ uv.funcIdentifier ++ "): after()",
    (firstMonitor gp mons).map (accessTo gp ("value_callback_" ++ uv.valName ++ "((" ++
      uv.valType
      ++ ") *(" ++ uv.valType ++ " *) tjp->result())"))⟩

/-- `generate_individually(user_val_t)`. -/
def adviceForValue (uv : UserVal) : Advice :=
  if uv.paramIndex = 0 then instrumentReturn gp mons uv
  else
    ⟨"execution(" ++ uv.funcIdentifier ++ "): before()",
      (firstMonitor gp mons).map (accessTo gp ("value_callback_" ++ uv.valName ++ "((" ++
        uv.valType ++ ") *(" ++ uv.valType ++ " *)tjp->arg(" ++ toString (uv.paramIndex - 1) ++
        "))"))⟩

/-- A loop that indexes a vector with an `unsigned int`. -/
def forVector {β γ : Type} (l : List β) (f : β → List γ) : Option (List γ) :=
  if l.length < 2 ^ 32 then some (l.flatMap f) else none

/-- `aspects_needed`. -/
def aspectsNeeded : Option Bool :=
  (forVector gp.funcLocs fun loc => [decide (loc.funcBefter ≠ .dummy)]).map fun bs =>
    bs.any id || !gp.userVals.isEmpty || !gp.userObjects.toList.isEmpty

/-- `generate_aspect_file`, the friendship left out. -/
def generateAspectFile : Option (List Advice) := do
  if ← aspectsNeeded gp then
    let locs ← forVector gp.funcLocs fun loc => (adviceForLocation gp mons loc).toList
    let uvs ← forVector gp.userVals fun uv => [adviceForValue gp mons uv]
    return locs ++ uvs
  else
    return []

/-- `generate_individually(plocation_t)`. -/
def sedForLocation (loc : PLocation) : Option SedCommand :=
  (accessIfClock gp mons loc.locName).map fun a => ⟨"\\(^" ++ loc.pattern ++ "$\\)", a⟩

/-- `generate_patterns_file`; `patterns_needed` is its guard. -/
def generatePatternsFile : Option (List SedCommand) :=
  if gp.plocations.length > 0 then
    forVector gp.plocations fun loc => (sedForLocation gp mons loc).toList
  else some []

/-- `generate_monitors`: the names of the classes. An end of the generator inside a class
is an end of the program. -/
def generateMonitors : Option (List String) :=
  match firstMonitor gp mons with
  | some mp => do
      let _ ← monitorConstructor gp mp
      let _ ← stepFooter gp mp
      let _ ← monitorClass gp mp
      return [monitorName gp mp]
  | none => some []

/-- `generate_local_observer`: the classes of the monitors that its constructor pushes
into `mons`. -/
def generateLocalObserver : List String :=
  match firstMonitor gp mons with
  | some mp => [monitorName gp mp]
  | none => []

end Generators

/-- What `main` emits: the classes, the content of `mons`, and the accesses. -/
structure Emitted where
  classes : List String
  mons : List String
  accesses : List Access

/-- The part of `main` that generates. -/
def emit (gp : GlobalParams) (alloc : ℕ → ℕ) (formulas : List String) : Option Emitted := do
  let mons := allMonitors alloc formulas
  let classes ← generateMonitors gp mons
  let advices ← generateAspectFile gp mons
  let seds ← generatePatternsFile gp mons
  return ⟨classes, generateLocalObserver gp mons,
    advices.filterMap Advice.access ++ seds.map SedCommand.access⟩

/-! ## The first monitor -/

section First
variable {alloc : ℕ → ℕ} {gp : GlobalParams} {formulas : List String}

private theorem mem_foldl_addFormula (hinj : Function.Injective alloc) (s : ℕ × MpSet alloc)
    (n : ℕ) : n ∈ (formulas.foldl addFormula s).2.toList ↔
      n ∈ s.2.toList ∨ s.1 ≤ n ∧ n < s.1 + formulas.length := by
  induction formulas generalizing s with
  | nil => simp
  | cons line formulas ih =>
      rw [List.foldl_cons, ih]
      simp only [addFormula, KeyedSet.mem_insert hinj, List.length_cons]
      constructor
      · rintro ((rfl | h) | h)
        · exact .inr (by omega)
        · exact .inl h
        · exact .inr (by omega)
      · rintro (h | h)
        · exact .inl (.inr h)
        · by_cases heq : n = s.1
          · exact .inl (.inl heq)
          · exact .inr (by omega)

/-- The set holds the objects of all formula lines. -/
theorem mem_allMonitors (hinj : Function.Injective alloc) {n : ℕ} :
    n ∈ (allMonitors alloc formulas).toList ↔ n < formulas.length := by
  rw [allMonitors, mem_foldl_addFormula hinj]
  simp

/-- **The first monitor is the object with the least address.** -/
theorem firstMonitor_eq_some_iff (hinj : Function.Injective alloc) {mp : MonitorParams} :
    firstMonitor gp (allMonitors alloc formulas) = some mp ↔
      ∃ n < formulas.length, (∀ k < formulas.length, alloc n ≤ alloc k) ∧
        monitorParams gp n = mp := by
  simp only [firstMonitor, Option.map_eq_some_iff, KeyedSet.first?_eq_some_iff,
    mem_allMonitors hinj, and_assoc]

theorem firstMonitor_eq_none (hinj : Function.Injective alloc)
    (h : firstMonitor gp (allMonitors alloc formulas) = none) : formulas.length = 0 := by
  by_contra hpos
  have hmem := (mem_allMonitors hinj).mpr (Nat.pos_of_ne_zero hpos)
  rw [firstMonitor, Option.map_eq_none_iff, KeyedSet.first?, List.head?_eq_none_iff] at h
  rw [h] at hmem
  cases hmem

/-- The index of the object with a number. -/
theorem int32_emod (n : ℕ) : (int32 n % 2 ^ 32).toNat = n % 2 ^ 32 := by
  rw [int32]
  split_ifs <;> omega

end First

/-! ## The accesses -/

section Accesses
variable {alloc : ℕ → ℕ} {gp : GlobalParams} {mons : MpSet alloc} {a : Access}

/-- An access is to the first monitor. -/
def ToFirst (gp : GlobalParams) (mons : MpSet alloc) (a : Access) : Prop :=
  ∃ mp, firstMonitor gp mons = some mp ∧ a.className = monitorName gp mp ∧ a.id = mp.id

/-- Something is woven into the model: a location that is a clock, a user value, or a
pattern location that is a clock. -/
def Instrumented (gp : GlobalParams) : Prop :=
  (∃ loc ∈ gp.funcLocs, loc.funcBefter ≠ .dummy ∧ loc.locName ∈ gp.timeresolution.toList) ∨
    gp.userVals ≠ [] ∨ ∃ loc ∈ gp.plocations, loc.locName ∈ gp.timeresolution.toList

theorem toFirst_accessTo {callback : String} {mp : MonitorParams}
    (h : firstMonitor gp mons = some mp) : ToFirst gp mons (accessTo gp callback mp) :=
  ⟨mp, h, rfl, rfl⟩

theorem accessIfClock_eq_some_iff {locName : String} :
    accessIfClock gp mons locName = some a ↔ locName ∈ gp.timeresolution.toList ∧
      ∃ mp, firstMonitor gp mons = some mp ∧
        accessTo gp ("callback_userloc_" ++ locName ++ "()") mp = a := by
  rw [accessIfClock]
  cases h : firstMonitor gp mons with
  | none => simp
  | some mp =>
      obtain ⟨n, -, rfl⟩ := Option.map_eq_some_iff.mp h
      by_cases hclock : locName ∈ gp.timeresolution.toList <;>
        simp [hclock]

/-- The access of an advice for a user value. -/
theorem access_adviceForValue (gp : GlobalParams) (mons : MpSet alloc) (uv : UserVal) :
    ∃ callback, (adviceForValue gp mons uv).access
      = (firstMonitor gp mons).map (accessTo gp callback) := by
  rw [adviceForValue]
  split_ifs
  · exact ⟨_, rfl⟩
  · exact ⟨_, rfl⟩

theorem forVector_eq_some {β γ : Type} {l : List β} {f : β → List γ} {r : List γ}
    (h : forVector l f = some r) : r = l.flatMap f := by
  rw [forVector] at h
  split_ifs at h
  exact (Option.some.inj h).symm

/-- `generate_aspect_file` emits the advices of all locations and values: where no aspect is
needed, there are none. -/
theorem generateAspectFile_eq {advices : List Advice}
    (h : generateAspectFile gp mons = some advices) :
    advices = gp.funcLocs.flatMap (fun loc => (adviceForLocation gp mons loc).toList) ++
      gp.userVals.map (adviceForValue gp mons) := by
  obtain ⟨needed, hneeded, h⟩ := Option.bind_eq_some_iff.mp h
  obtain ⟨bs, hbs, rfl⟩ := Option.map_eq_some_iff.mp hneeded
  obtain rfl := forVector_eq_some hbs
  split_ifs at h with hany
  · obtain ⟨locs, hlocs, h⟩ := Option.bind_eq_some_iff.mp h
    obtain ⟨uvs, huvs, h⟩ := Option.bind_eq_some_iff.mp h
    obtain rfl := Option.some.inj h
    rw [forVector_eq_some hlocs, forVector_eq_some huvs, ← List.map_eq_flatMap]
  · obtain rfl := Option.some.inj h
    simp at hany
    obtain ⟨⟨hdummy, huvs⟩, -⟩ := hany
    have hlocs : ∀ loc ∈ gp.funcLocs, (adviceForLocation gp mons loc).toList = [] := by
      intro loc hloc
      simp [adviceForLocation, hdummy loc hloc]
    simp [huvs, List.flatMap_eq_nil_iff.mpr hlocs]

theorem generatePatternsFile_eq {seds : List SedCommand}
    (h : generatePatternsFile gp mons = some seds) :
    seds = gp.plocations.flatMap fun loc => (sedForLocation gp mons loc).toList := by
  rw [generatePatternsFile] at h
  split_ifs at h with hpos
  · exact forVector_eq_some h
  · obtain rfl := Option.some.inj h
    rw [List.length_eq_zero_iff.mp (Nat.eq_zero_of_not_pos hpos)]
    rfl

/-- The accesses of the emitted code. -/
theorem mem_accesses {formulas : List String} {out : Emitted}
    (h : emit gp alloc formulas = some out) :
    out.mons = generateLocalObserver gp (allMonitors alloc formulas) ∧ ∀ a, a ∈ out.accesses ↔
      (∃ loc ∈ gp.funcLocs, loc.funcBefter ≠ .dummy ∧
        accessIfClock gp (allMonitors alloc formulas) loc.locName = some a) ∨
      (∃ uv ∈ gp.userVals, (adviceForValue gp (allMonitors alloc formulas) uv).access =
        some a) ∨
      ∃ loc ∈ gp.plocations,
        accessIfClock gp (allMonitors alloc formulas) loc.locName = some a := by
  obtain ⟨classes, -, h⟩ := Option.bind_eq_some_iff.mp h
  obtain ⟨advices, hadvices, h⟩ := Option.bind_eq_some_iff.mp h
  obtain ⟨seds, hseds, h⟩ := Option.bind_eq_some_iff.mp h
  obtain rfl := Option.some.inj h
  refine ⟨rfl, fun a => ?_⟩
  have hloc : ∀ loc, (∃ d ∈ (adviceForLocation gp (allMonitors alloc formulas) loc).toList,
      d.access = some a) ↔ loc.funcBefter ≠ .dummy ∧
        accessIfClock gp (allMonitors alloc formulas) loc.locName = some a := by
    intro loc
    rw [adviceForLocation]
    cases loc.funcBefter <;> simp
  rw [generateAspectFile_eq hadvices, generatePatternsFile_eq hseds]
  simp only [List.filterMap_append, List.mem_append, List.mem_filterMap, List.mem_flatMap,
    List.mem_map, or_assoc]
  refine or_congr ?_ (or_congr ?_ ?_)
  · simp only [← hloc]
    constructor
    · rintro ⟨d, ⟨loc, hmem, hd⟩, ha⟩
      exact ⟨loc, hmem, d, hd, ha⟩
    · rintro ⟨loc, hmem, d, hd, ha⟩
      exact ⟨d, ⟨loc, hmem, hd⟩, ha⟩
  · simp
  · simp [sedForLocation]

/-- Every access goes to the first monitor. -/
theorem toFirst_of_mem {formulas : List String} {out : Emitted}
    (h : emit gp alloc formulas = some out) (ha : a ∈ out.accesses) :
    ToFirst gp (allMonitors alloc formulas) a := by
  have hclock : ∀ locName, accessIfClock gp (allMonitors alloc formulas) locName = some a →
      ToFirst gp (allMonitors alloc formulas) a := by
    intro locName hl
    obtain ⟨-, mp, hmp, rfl⟩ := accessIfClock_eq_some_iff.mp hl
    exact toFirst_accessTo hmp
  rcases ((mem_accesses h).2 a).mp ha with ⟨loc, -, -, hl⟩ | ⟨uv, -, hu⟩ | ⟨loc, -, hl⟩
  · exact hclock _ hl
  · obtain ⟨callback, heq⟩ := access_adviceForValue gp (allMonitors alloc formulas) uv
    rw [heq] at hu
    obtain ⟨mp, hmp, rfl⟩ := Option.map_eq_some_iff.mp hu
    exact toFirst_accessTo hmp
  · exact hclock _ hl

/-- There is an access exactly where something is instrumented and a monitor exists. -/
theorem exists_access_iff {formulas : List String} {out : Emitted} {mp : MonitorParams}
    (h : emit gp alloc formulas = some out)
    (hmp : firstMonitor gp (allMonitors alloc formulas) = some mp) :
    (∃ a, a ∈ out.accesses) ↔ Instrumented gp := by
  constructor
  · rintro ⟨a, ha⟩
    rcases ((mem_accesses h).2 a).mp ha with ⟨loc, hloc, hb, hl⟩ | ⟨uv, huv, -⟩ | ⟨loc,
      hloc, hl⟩
    · exact .inl ⟨loc, hloc, hb, (accessIfClock_eq_some_iff.mp hl).1⟩
    · exact .inr (.inl (List.ne_nil_of_mem huv))
    · exact .inr (.inr ⟨loc, hloc, (accessIfClock_eq_some_iff.mp hl).1⟩)
  · rintro (⟨loc, hloc, hb, hclock⟩ | huvs | ⟨loc, hloc, hclock⟩)
    · exact ⟨_, ((mem_accesses h).2 _).mpr
        (.inl ⟨loc, hloc, hb, accessIfClock_eq_some_iff.mpr ⟨hclock, mp, hmp, rfl⟩⟩)⟩
    · obtain ⟨uv, huv⟩ := List.exists_mem_of_ne_nil _ huvs
      obtain ⟨callback, heq⟩ :=
        access_adviceForValue gp (allMonitors alloc formulas) uv
      rw [hmp] at heq
      exact ⟨_, ((mem_accesses h).2 _).mpr (.inr (.inl ⟨uv, huv, heq⟩))⟩
    · exact ⟨_, ((mem_accesses h).2 _).mpr
        (.inr (.inr ⟨loc, hloc, accessIfClock_eq_some_iff.mpr ⟨hclock, mp, hmp, rfl⟩⟩))⟩

end Accesses

/-- **Every access finds a monitor of its class** exactly when nothing is instrumented, or
the number of the object with the least address is zero as an `unsigned int`. -/
theorem accesses_ok_iff (gp : GlobalParams) (alloc : ℕ → ℕ) (hinj : Function.Injective alloc)
    (formulas : List String) (out : Emitted) (h : emit gp alloc formulas = some out) :
    (∀ a ∈ out.accesses, a.index < out.mons.length ∧ out.mons[a.index]? = some a.className) ↔
      (Instrumented gp → ∀ n < formulas.length,
        (∀ k < formulas.length, alloc n ≤ alloc k) → n % 2 ^ 32 = 0) := by
  have hmons := (mem_accesses h).1
  cases hfirst : firstMonitor gp (allMonitors alloc formulas) with
  | none =>
      have hlen := firstMonitor_eq_none hinj hfirst
      refine iff_of_true (fun a ha => ?_) (fun _ n hn => absurd hn (by omega))
      obtain ⟨mp, hmp, -⟩ := toFirst_of_mem h ha
      simp [hfirst] at hmp
  | some mp =>
      obtain ⟨n, hn, hle, rfl⟩ := (firstMonitor_eq_some_iff hinj).mp hfirst
      rw [generateLocalObserver, hfirst] at hmons
      -- all accesses have the class and the number of the object `n`
      have hok : ∀ a ∈ out.accesses,
          a.index < out.mons.length ∧ out.mons[a.index]? = some a.className ↔
            n % 2 ^ 32 = 0 := by
        intro a ha
        obtain ⟨mp', hmp', hclass, hid⟩ := toFirst_of_mem h ha
        obtain rfl := Option.some.inj (hfirst.symm.trans hmp')
        have hindex : a.index = n % 2 ^ 32 := by
          rw [Access.index, hid, monitorParams_id, int32_emod]
        rw [hmons, hindex, hclass]
        constructor
        · rintro ⟨hlt, -⟩
          exact Nat.lt_one_iff.mp hlt
        · intro hzero
          rw [hzero]
          exact ⟨Nat.one_pos, rfl⟩
      constructor
      · intro hall hins m hm hlem
        obtain ⟨a, ha⟩ := (exists_access_iff h hfirst).mpr hins
        obtain rfl := hinj (le_antisymm (hle m hm) (hlem n hn))
        exact (hok a ha).mp (hall a ha)
      · intro hzero a ha
        exact (hok a ha).mpr (hzero ((exists_access_iff h hfirst).mp ⟨a, ha⟩) n hn hle)

section Examples

/-- A configuration with one location that is a clock. -/
def oneLocation : GlobalParams where
  monName := "monitor"
  vartypes := .empty
  attributelabels := .empty
  attributetypes := .empty
  eventclocklabels := .empty
  funcLocs := [⟨"put", "void module::put()", .entry⟩]
  plocations := []
  userVals := []
  writeToFile := false
  userObjects := .empty
  timeresolution := ⟨["put"], by decide⟩

/-- Addresses that increase. -/
def upwards (n : ℕ) : ℕ := 0x1000 + 0x100 * n

/-- The second object lies below the first one. -/
def secondBelow : ℕ → ℕ
  | 0 => 0x2000
  | 1 => 0x1000
  | n => 0x2000 + n

/-- Two formulas, the first object at the lower address. -/
theorem accesses_ok_iff_two : ∃ out, emit oneLocation upwards ["f", "g"] = some out ∧
    ∀ a ∈ out.accesses, a.index < out.mons.length ∧ out.mons[a.index]? = some a.className := by
  have hinj : Function.Injective upwards := by
    intro m n h
    simp only [upwards] at h
    omega
  refine ⟨_, rfl, (accesses_ok_iff oneLocation upwards hinj ["f", "g"] _ rfl).mpr ?_⟩
  intro _ n hn hle
  have hle := hle 0 (by decide)
  simp only [upwards] at hle
  omega

/-- Two formulas, the first object at the higher address: the advice takes the monitor with
index one out of a vector of one. -/
theorem index_out_of_range : Function.Injective secondBelow ∧
    ∃ out, emit oneLocation secondBelow ["f", "g"] = some out ∧
      out.mons = ["monitor1"] ∧
      out.accesses = [⟨"monitor1", 1, "callback_userloc_put()"⟩] ∧
      ¬ ∀ a ∈ out.accesses, a.index < out.mons.length := by
  refine ⟨?_, _, rfl, by decide, by decide, by decide⟩
  intro m n h
  match m, n with
  | 0, 0 => rfl
  | 1, 1 => rfl
  | 0, 1 | 1, 0 => simp [secondBelow] at h
  | 0, n + 2 | 1, n + 2 | n + 2, 0 | n + 2, 1 =>
      simp only [secondBelow] at h
      omega
  | m + 2, n + 2 =>
      simp only [secondBelow] at h
      omega

end Examples

end Pscv.Mag
