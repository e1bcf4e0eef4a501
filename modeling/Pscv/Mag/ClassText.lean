import Pscv.Lib.Brackets
import Pscv.Lib.Position
import Pscv.Mag.Main

/-!
# The text of the monitor class

`trace_generation` writes the definitions of the class to one stream and its declaration to
another. The functions of `mon_gen` are modelled with the text that they write. `step_header`
opens the body of `step()`, and `step_footer` closes it only when something is observed.

A blank line that follows the value of an attribute is left out.

## Main results

* `MonGen.isSome_traceGeneration` — the text is written exactly for the monitors that have a
  class.
-/

namespace Pscv.Mag

open Pscv.Lib

/-- Text that the generator writes itself. -/
def lit (s : String) : Fragment Char := .fixed s.toList

/-- Text that the generator was given. -/
def arg (s : String) : Fragment Char := .given s.toList

/-- What is written to the two streams. -/
structure ClassText where
  os : List (Fragment Char)
  headerOs : List (Fragment Char)

instance : Append ClassText := ⟨fun a b => ⟨a.os ++ b.os, a.headerOs ++ b.headerOs⟩⟩

/-- Well-formed definitions, and balanced braces in the declaration. -/
def ClassText.WellFormed (c : ClassText) : Prop :=
  Fragment.WellFormed '{' '}' c.os ∧ WellBracketed '{' '}' (c.headerOs.flatMap Fragment.text)

/-- `comment_out_string`. The loop turns once for each line. -/
def commentOutString (input : List Char) : Option (List Char) :=
  let input := '/' :: '/' :: input
  replaceLoop (· = '\n') ['\n', '/', '/'] input.length (findFirst (· = '\n') input 0) input

/-! ## Statements -/

/-- The lines of a literal that is written to `outputstate`. -/
def outputLine (indent : String) (text : String) : List (Fragment Char) :=
  [arg indent, lit "outputstate << \"", arg text, lit "\";\n"]

/-- The lines of a statement that writes to `outputstate`. -/
def Write.source : Write → List (Fragment Char)
  | put text => outputLine "  " text
  | paste label => outputLine "  " label
  | print expr => [lit "  outputstate << ", arg expr, lit ";\n"]
  | ifElse cond label thn els =>
      [lit "  if (", arg cond, lit ") \x7b\n"] ++ (label :: thn).flatMap (outputLine "    ") ++
      [lit "  \x7d\n", lit "  else \x7b\n"] ++ (label :: els).flatMap (outputLine "    ") ++
      [lit "  \x7d\n"]

/-- The line of a registration. -/
def Registration.source : Registration → List (Fragment Char)
  | sample clk => [lit "  observer->register_monitor(this, ", arg clk, lit ");\n"]
  | event expr => [lit "  observer->register_monitor(this, &(", arg expr, lit "));\n"]

/-- The test of an opened trace file. -/
def tracefileGood (file : String) : List (Fragment Char) :=
  [lit "  if (! tracefile->good()) \x7b\n",
    lit "    std::cerr << \"Unable to open ", arg file, lit " for output.\" << std::endl;\n",
    lit "    std::cout << \"\\n# plasma-error Unable to open ", arg file,
    lit " for output. #\\n\" << std::endl;\n",
    lit "    exit (1);\n",
    lit "  \x7d\n\n"]

/-- The end of the use of the trace file. -/
def tracefileClose : List (Fragment Char) :=
  [lit "  if (tracefile) \x7b\n",
    lit "    tracefile->close();\n",
    lit "    delete tracefile;\n",
    lit "  \x7d\n"]

/-! ## `mon_gen` -/

namespace MonGen
variable (gp : GlobalParams) (mp : MonitorParams)

/-- `this_monitor_name`. -/
def name : Fragment Char := arg (monitorName gp mp)

/-- `monitor_params::to_stream`. -/
def toStream (ltl : String) : List Char :=
  ("\t PBLTL forumula: " ++ ltl ++ "\n").toList ++ "\t clock(s): \n".toList ++
    mp.clocks.toList.flatMap fun clk => ("\t\t\t" ++ clk ++ "\n").toList

/-- `monitor_header`. -/
def monitorHeader (ltl : String) : Option ClassText :=
  (commentOutString (toStream mp ltl)).map fun commout =>
    ⟨[lit "/*\n * Monitor's formula:\n */\n\n", .given commout, lit "\n\n\n"], []⟩

/-- `generate_code_for_start_of_class_definition`. -/
def startOfClassDefinition : ClassText where
  os := []
  headerOs :=
    [lit "/*\n * Monitor class declaration\n */\n\n",
      lit "class ", name gp mp, lit " : public sc_core::mon_prototype \x7b\n\n",
      lit "public:\n\n"]

/-- `constructor_arguments`. -/
def constructorArgs : List (Fragment Char) :=
  gp.vartypes.toList.zipIdx.flatMap fun p =>
    [lit ", ", arg p.1.2, lit " obj", arg (toString p.2)]

/-- The line that initializes a Boolean. -/
def assignFalse (label : String) : List (Fragment Char) :=
  [lit "  ", arg label, lit " = false;\n"]

/-- `register_with_observer`. -/
def registerWithObserver : List (Fragment Char) :=
  [lit "  // Register with observer\n"] ++
    (Mag.registerWithObserver gp mp).flatMap Registration.source

/-- The lines that initialize the observed objects. -/
def initTypes : List (Fragment Char) :=
  gp.vartypes.toList.zipIdx.flatMap fun p =>
    [lit "  ", arg p.1.1, lit " = obj", arg (toString p.2), lit ";\n"]

/-- The lines that initialize the user values. -/
def initValues : List (Fragment Char) :=
  gp.userVals.flatMap fun v => [lit "  ", arg v.valName, lit " = 0;\n"]

/-- The lines that truncate the trace file. -/
def initTracefile : List (Fragment Char) :=
  if gp.writeToFile then
    [lit "  // Trace file\n", lit "  std::ofstream* tracefile;\n",
      lit "  tracefile = new std::ofstream(\"", arg (traceFileName gp mp),
      lit "\",  std::ofstream::out);\n\n"] ++
    tracefileGood (traceFileName gp mp) ++ tracefileClose ++ [lit "\n"]
  else []

/-- `generate_code_for_start_of_monitor_constructor`. The vectors are indexed with an
`unsigned int`. -/
def startOfMonitorConstructor : Option ClassText :=
  if gp.funcLocs.length < 2 ^ 32 ∧ gp.plocations.length < 2 ^ 32 ∧
      gp.userVals.length < 2 ^ 32 then
    some {
      os :=
        [lit "/*\n * Constructor\n */\n\n", .start,
          name gp mp, lit "::", name gp mp, lit "(sc_core::mon_observer* obs"] ++
        constructorArgs gp ++
        [lit ") : sc_core::mon_prototype() \x7b\n\n",
          lit "  // Observer\n", lit "  observer = obs;\n",
          lit "  // Usertypes\n"] ++
        initTypes gp ++
        [lit "  // Locations\n"] ++
        (gp.funcLocs.map FuncLoc.locName).flatMap assignFalse ++
        [lit "  // Plocations\n"] ++
        (gp.plocations.map PLocation.locName).flatMap assignFalse ++
        [lit "  // Value callbacks\n"] ++
        initValues gp ++
        [lit "  // Attributes - nothing to initialization\n", lit "  // Event clocks\n"] ++
        (eventClockLabels gp mp).toList.flatMap assignFalse ++
        initTracefile gp mp ++
        registerWithObserver gp mp
      headerOs :=
        [lit "  /*\n   * Constructor\n   */\n\n",
          lit "  ", name gp mp, lit "(sc_core::mon_observer* obs"] ++
        constructorArgs gp ++
        [lit ");\n", lit "\n", lit "  /*\n   * Destructor\n   */\n\n",
          lit "  ~", name gp mp, lit "();", lit "\n"] }
  else none

/-- `generate_code_for_end_of_monitor_constructor`. -/
def endOfMonitorConstructor : ClassText where
  os :=
    [lit "\x7d\n\n",
      lit "/*\n * Destructor\n */\n\n", .start,
      name gp mp, lit "::~", name gp mp, lit "() \x7b\n\n",
      lit "\x7d\n\n"]
  headerOs := []

/-- `monitor_constructor`. -/
def monitorConstructor : Option ClassText :=
  (startOfMonitorConstructor gp mp).map fun c =>
    startOfClassDefinition gp mp ++ c ++ endOfMonitorConstructor gp mp

/-- `step_header`. -/
def stepHeader : ClassText where
  os :=
    [lit "/*\n", lit " * Simulate a step of the monitor.\n", lit " */\n\n", .start,
      lit "void\n",
      name gp mp, lit "::step() \x7b\n",
      lit "  //Get command from standard input - stdin\n",
      lit "  std::string cmd;\n\n",
      lit "  while (true) \x7b\n",
      lit "    std::getline(std::cin, cmd);\n",
      lit "    // Get quit command\n",
      lit "    if (strcmp(cmd.c_str(), \"#plasma-quit#\") == 0) \x7b\n",
      lit "      sc_stop();\n",
      lit "      std::cout << \"\\n# plasma-quit at \" << sc_time_stamp()",
      lit " << \" #\\n\" << std::endl;\n",
      lit "      exit (0);\n",
      lit "    \x7d\n\n",
      lit "    // Get an invalid command\n",
      lit "    else if (strcmp(cmd.c_str(), \"#plasma-newstate#\") != 0) \x7b\n",
      lit "      // Wait for a valid command\n",
      lit "      continue;\n",
      lit "    \x7d\n\n",
      lit "    // Get a new state request\n",
      lit "    else \x7b\n",
      lit "      // Process the command\n",
      lit "      break;\n",
      lit "    \x7d\n",
      lit "  \x7d\n\n"]
  headerOs :=
    [lit "\n", lit "  /*\n", lit "   * Simulate a step of the monitor.\n", lit "   */\n\n",
      lit "  void step();\n"]

/-- The lines that open the trace file. -/
def openTracefile : List (Fragment Char) :=
  if gp.writeToFile then
    [lit "  std::ofstream* tracefile = new std::ofstream(\"", arg (traceFileName gp mp),
      lit "\",  std::ofstream::app);\n"] ++ tracefileGood (traceFileName gp mp)
  else []

/-- The lines that write to the trace file. -/
def logTracefile : List (Fragment Char) :=
  if gp.writeToFile then
    [lit "  // Log to tracefile too\n",
      lit "  *tracefile << outputstate.str();\n", lit "\n",
      lit "  // Delete tracefile pointer\n"] ++ tracefileClose
  else []

/-- The statements of a group, under its comment. -/
def logged (comment : String) (ws : List Write) : List (Fragment Char) :=
  [lit comment] ++ ws.flatMap Write.source ++ [lit "\n"]

/-- `step_footer`. Nothing is written when nothing is observed. -/
def stepFooter : Option ClassText :=
  let attributes := !gp.attributelabels.toList.isEmpty
  let clocks := !(eventClockLabels gp mp).toList.isEmpty
  let locs := !gp.funcLocs.isEmpty
  let plocs := !gp.plocations.isEmpty
  if observesSome gp mp then do
    let a ← traceAttributes gp.attributetypes gp.attributelabels false
    let c := traceEventclocks (eventClockLabels gp mp) attributes
    let l ← traceLocations gp.funcLocs (attributes || clocks)
    let p ← tracePlocations gp.plocations (attributes || clocks || locs)
    let u ← traceCallbackvalues gp.userVals (attributes || clocks || locs || plocs)
    return {
      os :=
        [lit "  std::stringstream outputstate;\n",
          -- the source has two literals side by side here, not an empty one in quotes
          lit "  outputstate.str ();\n",
          lit "  outputstate << \"\\n# plasma-state [ (\";\n\n"] ++
        openTracefile gp mp ++
        logged "\n  // Log attributes values\n" a ++
        logged "\n  // Log event clocks - Boolean\n" c ++
        logged "\n  // Log locations - Boolean\n" l ++
        logged "\n  // Log pattern locations - plocation - Boolean\n" p ++
        logged "\n  // Log callback values\n" u ++
        [lit "  // Send the logged state to stdout\n",
          lit "  outputstate << \")\" << \" : \";\n",
          lit "  outputstate << sc_time_stamp() ;\n",
          lit "  outputstate << \" ] #\\n\" << std::endl;\n",
          lit "  std::cout << outputstate.str();\n"] ++
        logTracefile gp ++
        [lit "\x7d\n"]
      headerOs := [] }
  else some ⟨[], []⟩

/-- The lines of `callback_event_notified` for an event clock label. -/
def ifEvent (value : String) (label : String) : List (Fragment Char) :=
  [lit "  if (event == &(", arg (eventName gp label), lit ")) \x7b\n",
    lit "    ", arg label, arg value,
    lit "  \x7d\n\n"]

/-- `callback_event_notified`. -/
def eventCallback : ClassText where
  os :=
    [.start, lit "void\n",
      name gp mp, lit "::callback_event_notified(sc_core::sc_event* event) \x7b\n"] ++
    (eventClockLabels gp mp).toList.flatMap (ifEvent gp " = true;\n") ++
    [lit "  step();\n\n"] ++
    (eventClockLabels gp mp).toList.flatMap (ifEvent gp " = false;\n") ++
    [lit "\x7d\n\n"]
  headerOs := [lit "  virtual void callback_event_notified(sc_core::sc_event* event);\n"]

/-- The spaces in front of `step()`: the branch of one clock has fewer. -/
def stepIndent (clock : String) : String :=
  if clock = "MON_TIMED_NOTIFY_PHASE_END" then " " else "  "

/-- The callback of a kernel clock. -/
def kernelCallback (b : String × String) : ClassText where
  os :=
    [.start, lit "void\n",
      name gp mp, lit "::", arg b.2, lit "() \x7b\n",
      arg (stepIndent b.1), lit "step();\n",
      lit "\x7d\n\n"]
  headerOs := [lit "  virtual void ", arg b.2, lit "();\n"]

/-- The callback of a location. -/
def userlocCallback (clk : String) : ClassText where
  os :=
    [.start, lit "void\n",
      name gp mp, lit "::callback_userloc_", arg clk, lit "() \x7b\n",
      lit "\n  #ifdef DEBUG_USERLOCS\n",
      lit "    std::cout << \"", name gp mp, lit "::", arg clk,
      lit " callback\" << std::endl << std::endl;\n",
      lit "  #endif\n\n",
      lit "  // Set the value of the primitive\n",
      lit "  ", arg clk, lit " = true;\n\n",
      lit "  step();\n\n",
      lit "  // Reset the value of the primitive\n",
      lit "  ", arg clk, lit " = false;\n",
      lit "\x7d\n\n\n"]
  headerOs := [lit "  void callback_userloc_", arg clk, lit "();\n"]

/-- The callbacks for one clock. -/
def clockCallbacks (clk : String) : List ClassText :=
  if isKernelClock clk then
    (callbackBranches.filter fun b => strcaseEq clk b.1 || strcaseEq clk "DEFAULT_CLOCK").map
      (kernelCallback gp mp)
  else if !gp.isEventClock clk then [userlocCallback gp mp clk]
  else []

/-- The callbacks of the observer. -/
def callbackTexts : List ClassText :=
  (if (eventClockLabels gp mp).toList.isEmpty then [] else [eventCallback gp mp]) ++
    mp.clocks.toList.flatMap (clockCallbacks gp mp)

/-- `observer_callbacks`. -/
def observerCallbacks : ClassText where
  os := [lit "\n\n"] ++ (callbackTexts gp mp).flatMap ClassText.os
  headerOs :=
    [lit "\n", lit "  /*\n", lit "   * Kernel-level callbacks and user-code callbacks\n",
      lit "   */\n\n"] ++ (callbackTexts gp mp).flatMap ClassText.headerOs

/-- The signature of a value callback. -/
def valueSignature (v : UserVal) : List (Fragment Char) :=
  [lit "value_callback_", arg v.valName, lit "(", arg v.valType,
    lit " ", arg (actualParamName v.valName), lit ")"]

/-- The callback of a user value. -/
def valueCallback (v : UserVal) : ClassText where
  os :=
    [.start, lit "void\n", name gp mp, lit "::"] ++ valueSignature v ++ [lit " \x7b\n",
      lit "  #ifdef DEBUG_USERVALS\n",
      lit "    std::cout << \"", name gp mp, lit "::"] ++ valueSignature v ++ [lit ":\"\n",
      lit "              << \"The value passed is \" << ", arg (actualParamName v.valName),
      lit " << std::endl << std::endl;\n",
      lit "  #endif\n",
      lit "  ", arg v.valName, lit " = ", arg (actualParamName v.valName), lit ";\n",
      lit "\x7d\n\n"]
  headerOs := [lit "  void "] ++ valueSignature v ++ [lit ";\n"]

/-- `generate_value_callbacks`. -/
def generateValueCallbacks : Option ClassText :=
  if gp.userVals.length < 2 ^ 32 then
    some {
      os := (gp.userVals.map (valueCallback gp mp)).flatMap ClassText.os
      headerOs := [lit "\n\n", lit "  // Value callbacks (if any)\n"] ++
        (gp.userVals.map (valueCallback gp mp)).flatMap ClassText.headerOs }
  else none

/-- `start_declaring_monitor_class_variables`. -/
def startDeclaringMonitorClassVariables : ClassText where
  os := []
  headerOs :=
    [lit "\n\n", lit "  /*\n", lit "   * Attributes\n", lit "   */\n\n",
      lit "private: \n\n"] ++
    (declaredMembers gp mp).flatMap fun m => [lit "  ", arg m.1, lit " ", arg m.2, lit ";\n"]

/-- `finish_declaring_monitor_class_variables`. -/
def finishDeclaringMonitorClassVariables : ClassText where
  os := []
  headerOs := [lit "\x7d;\n\n"]

/-- `trace_gen::begin`. -/
def traceGenBegin (ltl : String) : Option ClassText := do
  let header ← monitorHeader mp ltl
  let constructor ← monitorConstructor gp mp
  return header ++ constructor ++ stepHeader gp mp

/-- `trace_gen::process_state`. -/
def traceGenProcessState : Option ClassText := stepFooter gp mp

/-- `trace_gen::end`. -/
def traceGenEnd : Option ClassText :=
  (generateValueCallbacks gp mp).map fun values =>
    observerCallbacks gp mp ++ values ++ startDeclaringMonitorClassVariables gp mp ++
      finishDeclaringMonitorClassVariables

/-- `trace_generation`. -/
def traceGeneration (ltl : String) : Option ClassText := do
  let first ← traceGenBegin gp mp ltl
  let state ← traceGenProcessState gp mp
  let last ← traceGenEnd gp mp
  return first ++ state ++ last

/-! ## What is written -/

section Written
variable {gp : GlobalParams} {mp : MonitorParams} {ltl : String} {c : ClassText}

/-- The text in its parts. -/
theorem parts_of_traceGeneration (h : traceGeneration gp mp ltl = some c) :
    ∃ header constructor state values, monitorHeader mp ltl = some header ∧
      monitorConstructor gp mp = some constructor ∧ stepFooter gp mp = some state ∧
      generateValueCallbacks gp mp = some values ∧
      c = header ++ constructor ++ stepHeader gp mp ++ state ++
        (observerCallbacks gp mp ++ values ++ startDeclaringMonitorClassVariables gp mp ++
          finishDeclaringMonitorClassVariables) := by
  simp only [traceGeneration, traceGenBegin, traceGenProcessState, Option.bind_eq_bind,
    Option.bind_eq_some_iff, Option.pure_def, Option.some.injEq] at h
  obtain ⟨first, ⟨header, hheader, constructor, hctor, rfl⟩, state, hstate, last, hlast,
    rfl⟩ := h
  obtain ⟨values, hvalues, rfl⟩ := Option.map_eq_some_iff.mp hlast
  exact ⟨header, constructor, state, values, hheader, hctor, hstate, hvalues, rfl⟩

/-- The loop over the lines ends. -/
theorem commentOutString_eq (input : List Char) : commentOutString input =
    some (replaceAll (· = '\n') ['\n', '/', '/'] ('/' :: '/' :: input)) := by
  have hloop := @replaceLoop_eq _ (· = '\n') [] ('/' :: '/' :: input)
    ('/' :: '/' :: input).length ['\n', '/', '/'] List.countP_le_length
  simp only [List.nil_append, List.length_nil] at hloop
  rw [commentOutString, hloop]

theorem isSome_stepFooter : (stepFooter gp mp).isSome ↔ (Mag.stepFooter gp mp).isSome := by
  rw [stepFooter, Mag.stepFooter]
  by_cases hsome : observesSome gp mp
  · simp only [if_pos hsome, Option.isSome_map]
    simp [stepFooterBody, Option.isSome_iff_exists, Option.bind_eq_some_iff]
  · simp [hsome]

/-- **The text is written exactly for the monitors that have a class.** -/
theorem isSome_traceGeneration :
    (traceGeneration gp mp ltl).isSome ↔ (Mag.traceGeneration gp mp ltl).isSome := by
  have hstep := @isSome_stepFooter gp mp
  simp only [traceGeneration, traceGenBegin, traceGenProcessState, traceGenEnd, monitorHeader,
    monitorConstructor, startOfMonitorConstructor, generateValueCallbacks, commentOutString_eq,
    Mag.traceGeneration, Mag.monitorConstructor, Mag.generateValueCallbacks]
  cases ha : stepFooter gp mp with
  | none =>
    cases hb : Mag.stepFooter gp mp with
    | none => split_ifs <;> simp
    | some b => simp [ha, hb] at hstep
  | some a =>
    cases hb : Mag.stepFooter gp mp with
    | none => simp [ha, hb] at hstep
    | some b => split_ifs <;> simp
end Written

end MonGen

end Pscv.Mag
