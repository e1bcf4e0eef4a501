import Pscv.Mag.Instrument
import Pscv.Mag.Parser
import Pscv.Mag.Registration

/-!
# `main`

The constructor of `global_params` parses the configuration file and the command line and
checks the result; `main` then gives every monitor the time resolution and calls the
generators, or only the one of the plasma project.

What the generators write is kept as the data that it is made of: names, clocks,
statements, advices and requirements.

## Main definitions

* `globalParams`, `main`.
* `MonitorCode`, `Generated`, `PlasmaProject`.
-/

namespace Pscv.Mag

open Pscv.Lib

/-! ## The parameters of a run -/

namespace Config
variable (c : Config)

/-- The flags of the command line, in the order of the tests. -/
def commandLineFlags : List (String × (String → Config → Config)) :=
  [("-verbosity", fun v c => c.setVerbosity v),
    ("-scratch", fun v c => { c with scratch := v }),
    ("-systemc_home", fun v c => { c with systemcHome := v }),
    ("-output_file", fun v c => { c with outputFile := v }),
    ("-header_output_file", fun v c => { c with headerOutputFile := v }),
    ("-write_to_file", fun v c => c.setWriteToFile v),
    ("-plasma_project_only", fun v c => c.setPlasmaProjectOnly v)]

/-- A word of the command line and the one after it. -/
def parseArgument (arg : String × String) : Config :=
  commandLineFlags.foldl (fun c flag => if strcaseEq arg.1 flag.1 then flag.2 arg.2 c else c) c

/-- `parse_command_line`. -/
def parseCommandLine (args : List (String × String)) : Config := args.foldl parseArgument c

/-- The header file of an output file. -/
def derivedHeader (outputFile : String) : String :=
  match splitLast '.' outputFile.toList with
  | none => outputFile ++ ".h"
  | some (base, _) => String.ofList base ++ ".h"

/-- `sanity_checks`. -/
def sanityChecks : Option Config :=
  if cString c.outputFile.toList = [] then none
  else if c.attributelabels.toList.length ≠ c.attributetypes.toList.length then none
  else if c.headerOutputFile = "" then
    some { c with headerOutputFile := derivedHeader c.outputFile }
  else some c

/-- The object that a `formula` line has created. -/
def formula (n : ℕ) : Formula := c.formulas.getD n ⟨"", ""⟩

end Config

/-- The constructor of `global_params`, for a command line and a configuration file. -/
def globalParams (args : List (String × String)) (text : String) : Option Config := do
  let c ← defaults.parseConfigFile text
  (c.parseCommandLine args).sanityChecks

section CommandLine
variable {c c' : Config}

/-- The command line sets no more than `write_to_file` of what the generators read. -/
def SameButOutput (c c' : Config) : Prop :=
  ∃ w, c'.toGlobalParams = { c.toGlobalParams with writeToFile := w }

theorem SameButOutput.refl (c : Config) : SameButOutput c c := ⟨c.writeToFile, rfl⟩

theorem SameButOutput.trans {c'' : Config} (h : SameButOutput c c')
    (h' : SameButOutput c' c'') :
    SameButOutput c c'' := by
  obtain ⟨w, hw⟩ := h
  obtain ⟨w', hw'⟩ := h'
  exact ⟨w', by rw [hw', hw]⟩

theorem sameButOutput_flag {flag : String × (String → Config → Config)}
    (h : flag ∈ Config.commandLineFlags) (v : String) (c : Config) :
    SameButOutput c (flag.2 v c) := by
  simp only [Config.commandLineFlags, List.mem_cons, List.not_mem_nil, or_false] at h
  rcases h with rfl | rfl | rfl | rfl | rfl | rfl | rfl <;> exact ⟨_, rfl⟩

/-- What each flag preserves is preserved by the command line. -/
theorem parseCommandLine_induction {R : Config → Config → Prop} (hrefl : ∀ c, R c c)
    (htrans : ∀ c c' c'', R c c' → R c' c'' → R c c'')
    (hflag : ∀ flag ∈ Config.commandLineFlags, ∀ v c, R c (flag.2 v c)) (c : Config)
    (args : List (String × String)) : R c (c.parseCommandLine args) := by
  have hfold : ∀ (arg : String × String) (flags : List (String × (String → Config → Config))),
      (∀ flag ∈ flags, ∀ v c, R c (flag.2 v c)) → ∀ c : Config, R c
      (flags.foldl (fun c flag => if strcaseEq arg.1 flag.1 then flag.2 arg.2 c else c)
        c) := by
    intro arg flags h c
    induction flags generalizing c with
    | nil => exact hrefl c
    | cons flag flags ih =>
        rw [List.foldl_cons]
        refine htrans _ _ _ ?_ (ih (fun f hf => h f (List.mem_cons_of_mem _ hf)) _)
        split_ifs
        · exact h flag List.mem_cons_self arg.2 c
        · exact hrefl c
  rw [Config.parseCommandLine]
  induction args generalizing c with
  | nil => exact hrefl c
  | cons arg args ih => exact htrans _ _ _ (hfold arg Config.commandLineFlags hflag c) (ih _)

theorem sameButOutput_parseCommandLine (c : Config) (args : List (String × String)) :
    SameButOutput c (c.parseCommandLine args) := by
  apply parseCommandLine_induction SameButOutput.refl
  · intro c c' c'' h h'
    exact h.trans h'
  · intro flag h v c
    exact sameButOutput_flag h v c

theorem sameButOutput_sanityChecks (h : c.sanityChecks = some c') : SameButOutput c c' := by
  rw [Config.sanityChecks] at h
  split_ifs at h
  · rw [← Option.some.inj h]
    exact ⟨_, rfl⟩
  · rw [← Option.some.inj h]
    exact .refl c

/-- The formulas are those of the configuration file. -/
theorem formulas_of_globalParams {args : List (String × String)} {text : String}
    (h : globalParams args text = some c) :
    ∃ c₀, defaults.parseConfigFile text = some c₀ ∧ c.formulas = c₀.formulas := by
  rw [globalParams] at h
  obtain ⟨c₀, hparse, hcheck⟩ := Option.bind_eq_some_iff.mp h
  have hargs : (c₀.parseCommandLine args).formulas = c₀.formulas := by
    apply parseCommandLine_induction (R := fun c c' => c'.formulas = c.formulas)
    · exact fun _ => rfl
    · exact fun _ _ _ h h' => h'.trans h
    · intro flag hflag v c
      simp only [Config.commandLineFlags, List.mem_cons, List.not_mem_nil, or_false] at hflag
      rcases hflag with rfl | rfl | rfl | rfl | rfl | rfl | rfl <;> rfl
  refine ⟨c₀, hparse, ?_⟩
  rw [Config.sanityChecks] at hcheck
  split_ifs at hcheck
  · rw [← Option.some.inj hcheck]
    exact hargs
  · rw [← Option.some.inj hcheck]
    exact hargs

/-- The parameters are those of the configuration file. -/
theorem parseConfigFile_of_globalParams {args : List (String × String)} {text : String}
    (h : globalParams args text = some c) :
    ∃ c₀, defaults.parseConfigFile text = some c₀ ∧ SameButOutput c₀ c := by
  rw [globalParams] at h
  obtain ⟨c₀, hparse, hcheck⟩ := Option.bind_eq_some_iff.mp h
  exact ⟨c₀, hparse,
    (sameButOutput_parseCommandLine c₀ args).trans (sameButOutput_sanityChecks hcheck)⟩

end CommandLine

/-! ## The monitor class -/

/-- `start_declaring_monitor_class_variables`: the types and names of the members. -/
def declaredMembers (gp : GlobalParams) (mp : MonitorParams) : List (String × String) :=
  [("sc_core::mon_observer*", "observer"), ("mon_status_t", "status")] ++
  gp.vartypes.toList.map (fun p => (p.2, p.1)) ++
  gp.funcLocs.map (fun l => ("bool", l.locName)) ++
  gp.plocations.map (fun l => ("bool", l.locName)) ++
  gp.userVals.map (fun v => (v.valType, v.valName)) ++
  (eventClockLabels gp mp).toList.map fun label => ("bool", label)

/-- A generated monitor class. -/
structure MonitorCode where
  /-- The comment in front of the class. -/
  ltl : String
  clocks : List String
  className : String
  constructor : Func
  /-- The trace file that the constructor truncates. -/
  traceFile : Option String
  registrations : List Registration
  step : List Stmt
  /-- The member functions that are called back, by name. -/
  callbacks : List (String × Func)
  members : List (String × String)

/-- `trace_generation`, for a monitor with a formula. -/
def traceGeneration (gp : GlobalParams) (mp : MonitorParams) (ltl : String) :
    Option MonitorCode := do
  let constructor ← monitorConstructor gp mp
  let step ← stepFooter gp mp
  let values ← generateValueCallbacks gp
  return {
    ltl
    clocks := mp.clocks.toList
    className := monitorName gp mp
    constructor
    traceFile := if gp.writeToFile then some (traceFileName gp mp) else none
    registrations := registerWithObserver gp mp
    step
    callbacks := emittedCallbacks gp mp ++ values.map fun f => (f.1.text, f.2)
    members := declaredMembers gp mp }

/-! ## The generated files -/

/-- A requirement of the plasma project. -/
structure Requirement where
  name : String
  type : String
  content : String
  deriving DecidableEq

/-- The plasma project file. -/
structure PlasmaProject where
  file : String
  name : String
  modelName : String
  modelType : String
  modelContent : String
  requirements : List Requirement

/-- What `main` writes besides the plasma project. -/
structure Generated where
  outputFile : String
  headerOutputFile : String
  includefiles : List String
  userObjects : List String
  monitor : Option MonitorCode
  /-- The types and names of the objects that the local observer receives. -/
  observerObjects : List (String × String)
  /-- The classes of the monitors in the local observer. -/
  observer : List String
  /-- The class that the user objects declare a friend. -/
  friendClass : Option String
  aspect : List Advice
  patterns : List SedCommand

section Generators
variable {alloc : ℕ → ℕ} (c : Config) (mons : MpSet alloc)

/-- `generate_plasma_file`: the monitors are traversed in the order of their addresses. -/
def generatePlasmaFile : PlasmaProject where
  file := c.projectfile
  name := c.projectname
  modelName := c.modelname
  modelType := c.modeltype
  modelContent := c.modelcontent
  requirements := mons.toList.map fun n =>
    ⟨cStr (c.formula n).formulaName, c.requirementtype, cStr (c.formula n).ltl⟩

/-- The monitor class of `generate_monitors`. -/
def generateMonitor : Option (Option MonitorCode) :=
  match mons.first? with
  | some n => (traceGeneration c.toGlobalParams (monitorParams c.toGlobalParams n)
      (c.formula n).ltl).map some
  | none => some none

/-- `generate_friendship`. -/
def generateFriendship : Option String :=
  if c.userObjects.toList.isEmpty then none
  else (firstMonitor c.toGlobalParams mons).map (monitorName c.toGlobalParams)

/-- What `main` generates besides the plasma project. -/
def generate : Option Generated := do
  let monitor ← generateMonitor c mons
  let aspect ← generateAspectFile c.toGlobalParams mons
  let patterns ← generatePatternsFile c.toGlobalParams mons
  return {
    outputFile := c.outputFile
    headerOutputFile := c.headerOutputFile
    includefiles := c.includefiles.toList
    userObjects := c.userObjects.toList
    monitor
    observerObjects := c.vartypes.toList.map fun p => (p.2, p.1)
    observer := generateLocalObserver c.toGlobalParams mons
    friendClass := generateFriendship c mons
    aspect
    patterns }

end Generators

/-- The blocks of the woven code that take a monitor. -/
def Generated.accesses (g : Generated) : List Access :=
  g.aspect.filterMap Advice.access ++ g.patterns.map SedCommand.access

/-- `all_monitors`: a pointer for each formula. -/
def Config.monitors (c : Config) (alloc : ℕ → ℕ) : MpSet alloc :=
  allMonitors alloc (c.formulas.map Formula.ltl)

/-- The generators that `main` calls, on parameters that have passed the checks. -/
def main (alloc : ℕ → ℕ) (c : Config) : Option (Option Generated × PlasmaProject) :=
  if c.plasmaProjectOnly then some (none, generatePlasmaFile c (c.monitors alloc))
  else (generate c (c.monitors alloc)).map fun g =>
    (some g, generatePlasmaFile c (c.monitors alloc))

/-! ## What is generated -/

section Generated
variable {alloc : ℕ → ℕ} {c : Config} {out : Option Generated × PlasmaProject} {g : Generated}
variable {code : MonitorCode}

theorem mem_monitors (hinj : Function.Injective alloc) {n : ℕ} :
    n ∈ (c.monitors alloc).toList ↔ n < c.formulas.length := by
  rw [Config.monitors, mem_allMonitors hinj, List.length_map]

theorem main_plasma (h : main alloc c = some out) :
    out.2 = generatePlasmaFile c (c.monitors alloc) := by
  rw [main] at h
  split_ifs at h
  · rw [← Option.some.inj h]
  · obtain ⟨g, -, rfl⟩ := Option.map_eq_some_iff.mp h
    rfl

theorem main_generated (h : main alloc c = some out) (hg : out.1 = some g) :
    c.plasmaProjectOnly = false ∧ generate c (c.monitors alloc) = some g := by
  rw [main] at h
  split_ifs at h with honly
  · rw [← Option.some.inj h] at hg
    cases hg
  · obtain ⟨g', hg', rfl⟩ := Option.map_eq_some_iff.mp h
    obtain rfl := Option.some.inj hg
    exact ⟨by simpa using honly, hg'⟩

/-- The class of the object with the least address is generated. -/
theorem generate_monitor (h : generate c (c.monitors alloc) = some g)
    (hcode : g.monitor = some code) :
    ∃ n, (c.monitors alloc).first? = some n ∧ traceGeneration c.toGlobalParams
      (monitorParams c.toGlobalParams n) (c.formula n).ltl = some code := by
  obtain ⟨monitor, hmonitor, h⟩ := Option.bind_eq_some_iff.mp h
  obtain ⟨aspect, -, h⟩ := Option.bind_eq_some_iff.mp h
  obtain ⟨patterns, -, h⟩ := Option.bind_eq_some_iff.mp h
  obtain rfl := Option.some.inj h
  obtain rfl : monitor = some code := hcode
  rw [generateMonitor] at hmonitor
  cases hfirst : (c.monitors alloc).first? with
  | none => simp [hfirst] at hmonitor
  | some n =>
      rw [hfirst] at hmonitor
      obtain ⟨code', hcode', heq⟩ := Option.map_eq_some_iff.mp hmonitor
      obtain rfl := Option.some.inj heq
      exact ⟨n, rfl, hcode'⟩

/-- The parts of a generated class. -/
theorem traceGeneration_eq_some {gp : GlobalParams} {mp : MonitorParams} {ltl : String}
    (h : traceGeneration gp mp ltl = some code) :
    code.ltl = ltl ∧ code.clocks = mp.clocks.toList ∧ code.className = monitorName gp mp ∧
      code.registrations = registerWithObserver gp mp ∧ code.members = declaredMembers gp mp ∧
      ∃ values, generateValueCallbacks gp = some values ∧
        code.callbacks = emittedCallbacks gp mp ++ values.map fun f => (f.1.text, f.2) := by
  obtain ⟨constructor, -, h⟩ := Option.bind_eq_some_iff.mp h
  obtain ⟨step, -, h⟩ := Option.bind_eq_some_iff.mp h
  obtain ⟨values, hvalues, h⟩ := Option.bind_eq_some_iff.mp h
  obtain rfl := Option.some.inj h
  exact ⟨rfl, rfl, rfl, rfl, rfl, values, hvalues, rfl⟩

/-- The observer and the accesses are those of the emitted code. -/
theorem emit_of_generate (h : generate c (c.monitors alloc) = some g) :
    ∃ classes, emit c.toGlobalParams alloc (c.formulas.map Formula.ltl)
      = some ⟨classes, g.observer, g.accesses⟩ := by
  obtain ⟨monitor, hmonitor, h⟩ := Option.bind_eq_some_iff.mp h
  obtain ⟨aspect, haspect, h⟩ := Option.bind_eq_some_iff.mp h
  obtain ⟨patterns, hpatterns, h⟩ := Option.bind_eq_some_iff.mp h
  obtain rfl := Option.some.inj h
  have hclasses : ∃ classes, generateMonitors c.toGlobalParams (c.monitors alloc)
      = some classes := by
    rw [generateMonitors, firstMonitor]
    rw [generateMonitor] at hmonitor
    cases hfirst : (c.monitors alloc).first? with
    | none => exact ⟨[], rfl⟩
    | some n =>
        rw [hfirst] at hmonitor
        obtain ⟨code, hcode, -⟩ := Option.map_eq_some_iff.mp hmonitor
        obtain ⟨constructor, hconstructor, hcode⟩ := Option.bind_eq_some_iff.mp hcode
        obtain ⟨step, hstep, hcode⟩ := Option.bind_eq_some_iff.mp hcode
        obtain ⟨values, hvalues, -⟩ := Option.bind_eq_some_iff.mp hcode
        refine ⟨[monitorName c.toGlobalParams (monitorParams c.toGlobalParams n)], ?_⟩
        simp [hconstructor, hstep, monitorClass, hvalues]
  obtain ⟨classes, hclasses⟩ := hclasses
  rw [Config.monitors] at hclasses haspect hpatterns
  refine ⟨classes, ?_⟩
  rw [emit]
  simp only [hclasses, haspect, hpatterns, Option.bind_eq_bind, Option.bind_some]
  rfl

end Generated

end Pscv.Mag
