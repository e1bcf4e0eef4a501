import Mathlib.Data.List.Chain
import Pscv.Lib.Dialogue
import Pscv.Mag.Monitor
import Pscv.Mag.Parser

/-!
# `step_header`: the commands on the standard input

Each call of the generated `step()` reads lines until one is a command. A request for a
new state lets it go on to print the state, and the command to quit ends the simulation.
The trace file is truncated by the constructor and opened again by every step.

A command is compared by `strcmp`, up to the first null character of the line.

## Main results

* `drive_answers` — the states answer the requests one for one.
* `commandLoop_ends_iff` — the loop ends exactly when a command is still to come.
-/

namespace Pscv.Mag

open Pscv.Lib

/-! ## The emitted code -/

/-- The two commands. -/
inductive Command
  | newstate
  | quit
  deriving DecidableEq

/-- The comparisons of the loop. -/
def command (cmd : List Char) : Option Command :=
  if cString cmd = "#plasma-quit#".toList then some .quit
  else if cString cmd ≠ "#plasma-newstate#".toList then none
  else some .newstate

/-- `cmd` after `std::getline (std::cin, cmd)`: at the end of the stream it is cleared, and
a stream that is not good leaves it alone. -/
def readInto (cmd : List Char) (cin : IStream) : List Char :=
  cin.getline.1.getD (if cin.good then [] else cmd)

/-- The loop of `step_header`, `n` times at most: the command that ends it, the lines that
have been read, and the stream. -/
def commandLoop : ℕ → List Char → IStream → Option (Command × List (List Char) × IStream)
  | 0, _, _ => none
  | n + 1, cmd, cin =>
      match command (readInto cmd cin) with
      | some c => some (c, cin.getline.1.toList, cin.getline.2)
      | none =>
          (commandLoop n (readInto cmd cin) cin.getline.2).map fun r =>
            (r.1, cin.getline.1.toList ++ r.2.1, r.2.2)

/-- What a monitor does that its driver can see. -/
inductive Event
  | read (line : List Char)
  | state (text : String)
  | error (text : String)
  | quit (text : String)
  deriving DecidableEq

/-- A process that runs a monitor. -/
structure Session where
  stdin : IStream
  out : Out
  log : List Event
  /-- `exit` has been called. -/
  exited : Bool
  deriving DecidableEq

/-- What is printed when the simulation is stopped. -/
def quitText (ρ : Env) : String :=
  "\n# plasma-quit at " ++ ρ.text "sc_time_stamp()" ++ " #\n\n"

section Code
variable (gp : GlobalParams) (mp : MonitorParams)

/-- The part of the constructor that initializes the trace file. -/
def constructTrace (ρ : Env) (out : Out) : Except Out Out :=
  if gp.writeToFile then
    if ρ.traceGood then .ok { out with tracefile := "" }
    else .error { out with
      cout :=
        out.cout ++ "\n# plasma-error Unable to open " ++ ρ.literal (traceFileName gp mp) ++
        " for output. #\n\n" }
  else .ok out

/-- `step()`, with `n` turns of its loop at most. -/
def step (n : ℕ) (σ : Session) (ρ : Env) : Option Session :=
  if σ.exited then some σ
  else do
    let (c, lines, stdin) ← commandLoop n [] σ.stdin
    let log := σ.log ++ lines.map .read
    match c with
    | .quit =>
        some ⟨stdin, { σ.out with cout := σ.out.cout ++ quitText ρ },
          log ++ [.quit (quitText ρ)], true⟩
    | .newstate =>
        let code ← stepFooter gp mp
        if code = [] then some ⟨stdin, σ.out, log, false⟩
        else
          match run ρ code ⟨"", "", σ.out.tracefile⟩ with
          | .ok out =>
              some ⟨stdin, { out with cout := σ.out.cout ++ out.cout },
                log ++ [.state out.cout], false⟩
          | .error out =>
              some ⟨stdin, { out with cout := σ.out.cout ++ out.cout },
                log ++ [.error out.cout], true⟩

/-- The calls of `step()` in a simulation. -/
def drive (n : ℕ) (ρs : List Env) (σ : Session) : Option Session :=
  ρs.foldlM (step gp mp n) σ

end Code

/-! ## The loop -/

section Loop
variable {cin : IStream} {cmd l : List Char} {skipped rest : List (List Char)} {c : Command}

@[simp] theorem command_nil : command [] = none := by decide

theorem readInto_nil (h : cin.pending = []) (hcmd : command cmd = none) :
    command (readInto cmd cin) = none := by
  rw [readInto, (cin.getline_pending).1, h]
  cases cin.good with
  | true => exact command_nil
  | false => exact hcmd

theorem readInto_cons (h : cin.pending = l :: rest) : readInto cmd cin = l := by
  rw [readInto, (cin.getline_pending).1, h]
  rfl

/-- Without a command among the lines the loop does not end. -/
theorem commandLoop_eq_none (h : ∀ l ∈ cin.pending, command l = none)
    (hcmd : command cmd = none) (n : ℕ) : commandLoop n cmd cin = none := by
  induction n generalizing cmd cin with
  | zero => rfl
  | succ n ih =>
      have hread : command (readInto cmd cin) = none := by
        cases hp : cin.pending with
        | nil => exact readInto_nil hp hcmd
        | cons l ls =>
            rw [readInto_cons hp]
            exact h l (by simp [hp])
      have hrest : ∀ l ∈ cin.getline.2.pending, command l = none := by
        intro l hl
        rw [(cin.getline_pending).2] at hl
        exact h l (List.mem_of_mem_tail hl)
      rw [commandLoop, hread]
      simp only [ih hrest hread, Option.map_none]

/-- **The loop ends at the first command**, after one turn for each line. -/
theorem commandLoop_of_pending (h : cin.pending = skipped ++ l :: rest)
    (hskip : ∀ l' ∈ skipped, command l' = none) (hl : command l = some c) :
    ∃ cin', cin'.pending = rest ∧ ∀ n cmd, commandLoop n cmd cin
      = if skipped.length < n then some (c, skipped ++ [l], cin') else none := by
  induction skipped generalizing cin with
  | nil =>
      rw [List.nil_append] at h
      refine ⟨cin.getline.2, by rw [(cin.getline_pending).2, h, List.tail_cons], ?_⟩
      intro n cmd
      cases n with
      | zero => rfl
      | succ n =>
          rw [commandLoop, readInto_cons h, hl, (cin.getline_pending).1, h]
          simp
  | cons l' skipped ih =>
      rw [List.cons_append] at h
      obtain ⟨cin', hrest, hloop⟩ := @ih cin.getline.2
        (by rw [(cin.getline_pending).2, h, List.tail_cons])
        (fun x hx => hskip x (List.mem_cons_of_mem _ hx))
      refine ⟨cin', hrest, ?_⟩
      intro n cmd
      cases n with
      | zero => rfl
      | succ n =>
          rw [commandLoop, readInto_cons h, hskip l' List.mem_cons_self, hloop,
            (cin.getline_pending).1, h]
          simp only [List.length_cons, Nat.add_lt_add_iff_right]
          split_ifs <;> simp

/-- The first command of some lines. -/
theorem exists_first_command {ls : List (List Char)} (h : ∃ l ∈ ls, (command l).isSome) :
    ∃ skipped l rest c, ls = skipped ++ l :: rest ∧ (∀ l' ∈ skipped, command l' = none) ∧
      command l = some c := by
  have hsome : (ls.findSome? command).isSome := List.findSome?_isSome_iff.mpr h
  obtain ⟨c, hc⟩ := Option.isSome_iff_exists.mp hsome
  obtain ⟨skipped, l, rest, hls, hl, hskip⟩ := List.findSome?_eq_some_iff.mp hc
  exact ⟨skipped, l, rest, c, hls, hskip, hl⟩

/-- **The command loop ends exactly when a line that is still to be read is a command.** -/
theorem commandLoop_ends_iff (cin : IStream) :
    (∃ n, (commandLoop n [] cin).isSome) ↔ ∃ l ∈ cin.pending, (command l).isSome := by
  constructor
  · intro h
    by_contra hnone
    obtain ⟨n, hn⟩ := h
    have hlines : ∀ l ∈ cin.pending, command l = none := by
      intro l hl
      rw [← Option.not_isSome_iff_eq_none]
      exact fun hsome => hnone ⟨l, hl, hsome⟩
    simp [commandLoop_eq_none hlines command_nil n] at hn
  · intro h
    obtain ⟨skipped, l, rest, c, hls, hskip, hl⟩ := exists_first_command h
    obtain ⟨cin', -, hloop⟩ := commandLoop_of_pending hls hskip hl
    refine ⟨skipped.length + 1, ?_⟩
    rw [hloop, if_pos (Nat.lt_succ_self _)]
    rfl

/-- At the end of the input the loop does not end. -/
theorem endOfInput_never_ends : ¬ ∃ n, (commandLoop n [] (.ofText [])).isSome := by
  rintro ⟨n, hn⟩
  rw [commandLoop_eq_none (by simp) command_nil] at hn
  exact absurd hn (by decide)

/-- More turns do not change the result. -/
theorem commandLoop_mono {n m : ℕ} (hnm : n ≤ m) {r : Command × List (List Char) × IStream}
    (h : commandLoop n cmd cin = some r) : commandLoop m cmd cin = some r := by
  induction n generalizing m cmd cin r with
  | zero => simp [commandLoop] at h
  | succ n ih =>
      obtain ⟨m, rfl⟩ : ∃ k, m = k + 1 := ⟨m - 1, by omega⟩
      rw [commandLoop] at h ⊢
      cases hc : command (readInto cmd cin) with
      | some c => simpa [hc] using h
      | none =>
          simp only [hc] at h ⊢
          obtain ⟨r', hr', rfl⟩ := Option.map_eq_some_iff.mp h
          rw [ih (by omega) hr']
          rfl

theorem readCommand_cons (l : String) (ls : List String) :
    readCommand (l :: ls) = match command l.toList with
      | none => readCommand ls
      | some .newstate => some ls
      | some .quit => none := by
  rw [readCommand, command]
  split_ifs <;> rfl

/-- What the loop of the monitor's model skips. -/
theorem exists_skipped_of_readCommand {ls rest : List String}
    (h : readCommand ls = some rest) :
    ∃ skipped l, ls = skipped ++ l :: rest ∧ command l.toList = some .newstate ∧
      ∀ l' ∈ skipped, command l'.toList = none := by
  induction ls with
  | nil => cases h
  | cons l ls ih =>
      rw [readCommand_cons] at h
      cases hl : command l.toList with
      | none =>
          rw [hl] at h
          obtain ⟨skipped, l', rfl, hnew, hskip⟩ := ih h
          exact ⟨l :: skipped, l', rfl, hnew, List.forall_mem_cons.mpr ⟨hl, hskip⟩⟩
      | some c =>
          rw [hl] at h
          cases c with
          | quit => cases h
          | newstate =>
              obtain rfl := Option.some.inj h
              exact ⟨[], l, rfl, hl, by simp⟩

/-- **The monitor's model reads its commands as the loop does.** -/
theorem readCommand_refines {ls rest : List String} (hp : cin.pending = ls.map String.toList)
    (h : readCommand ls = some rest) :
    ∃ n lines cin', commandLoop n [] cin = some (.newstate, lines, cin') ∧
      cin'.pending = rest.map String.toList := by
  obtain ⟨skipped, l, rfl, hnew, hskip⟩ := exists_skipped_of_readCommand h
  rw [List.map_append, List.map_cons] at hp
  have hcommand : ∀ l' ∈ skipped.map String.toList, command l' = none := by
    intro l' hl'
    obtain ⟨l, hl, rfl⟩ := List.mem_map.mp hl'
    exact hskip l hl
  obtain ⟨cin', hrest, hloop⟩ := commandLoop_of_pending hp hcommand hnew
  have hends := hloop ((skipped.map String.toList).length + 1) []
  rw [if_pos (Nat.lt_succ_self _)] at hends
  exact ⟨_, _, cin', hends, hrest⟩

end Loop

/-! ## The dialogue -/

/-- A line that requests a state. -/
def Event.isRequest : Event → Bool
  | read l => command l = some .newstate
  | _ => false

/-- A reply to such a request. -/
def Event.isReply : Event → Bool
  | state _ | error _ => true
  | _ => false

/-- The line that an event has read. -/
def Event.line : Event → Option (List Char)
  | read l => some l
  | _ => none

/-- The state that an event has printed. -/
def Event.stateText : Event → Option String
  | state text => some text
  | _ => none

/-- What an event has printed. -/
def Event.printed : Event → String
  | read _ => ""
  | state text | error text | quit text => text

/-- What may directly follow an event. Nothing follows an error, nor the end. -/
inductive Follows : Event → Event → Prop
  | skip {l : List Char} (h : command l = none) (l' : List Char) : Follows (.read l) (.read l')
  | answer {l : List Char} (h : command l = some .newstate) (text : String) :
      Follows (.read l) (.state text)
  | fail {l : List Char} (h : command l = some .newstate) (text : String) :
      Follows (.read l) (.error text)
  | quit {l : List Char} (h : command l = some .quit) (text : String) :
      Follows (.read l) (.quit text)
  | next (text : String) (l : List Char) : Follows (.state text) (.read l)

section Dialogue
variable (gp : GlobalParams) (mp : MonitorParams) (body : List Write)

/-- The line that a step prints. -/
def stateText (ρ : Env) : String := stateLine (ρ.text "sc_time_stamp()") (texts ρ body)

/-- A step finds its trace file. -/
def opens (ρ : Env) : Bool := !gp.writeToFile || ρ.traceGood

/-- The line that a step prints when it does not. -/
def errorText (ρ : Env) : String :=
  "\n# plasma-error Unable to open " ++ ρ.literal (traceFileName gp mp) ++ " for output. #\n\n"

/-- What calls of `step()` do with lines. -/
def dialogue : List Env → List (List Char) → List Event
  | [], _ => []
  | _ :: _, [] => []
  | ρ :: ρs, l :: ls =>
      match command l with
      | none => .read l :: dialogue (ρ :: ρs) ls
      | some .quit => [.read l, .quit (quitText ρ)]
      | some .newstate =>
          if opens gp ρ then .read l :: .state (stateText body ρ) :: dialogue ρs ls
          else [.read l, .error (errorText gp mp ρ)]

/-- Every call finds its command: there is a command to quit, or a request for each call. -/
def Enough (calls : ℕ) (ls : List (List Char)) : Prop :=
  (∃ l ∈ ls, command l = some .quit) ∨ calls ≤ ls.countP (command · = some .newstate)

/-- **The log of a monitor that answers one for one.** -/
structure Answers (ρs : List Env) (ls : List (List Char)) (log : List Event) : Prop where
  /-- The lines are read in their order. -/
  reads : log.filterMap Event.line <+: ls
  /-- As many replies as requests, and at most one request waits. -/
  inStep : InStep Event.isRequest Event.isReply log
  closed : Closed Event.isRequest Event.isReply log
  /-- Only a request is followed by a state, and nothing but a line by what is no command. -/
  follows : log.IsChain Follows
  /-- The state of a reply is that of its step. -/
  states : log.filterMap Event.stateText <+: ρs.map (stateText body)
  /-- Every call has been answered, unless the simulation has ended. -/
  answered : (log.filterMap Event.stateText).length = ρs.length ∨
    (∃ l, .read l ∈ log ∧ command l = some .quit) ∨ ∃ text, .error text ∈ log
  /-- An error means that the trace file could not be opened. -/
  errors : ∀ text, .error text ∈ log → gp.writeToFile ∧ ∃ ρ ∈ ρs, ρ.traceGood = false

variable {gp mp body} {ρ : Env} {ρs : List Env} {l : List Char}
    {ls skipped rest : List (List Char)}

@[simp] theorem dialogue_nil (ls : List (List Char)) : dialogue gp mp body [] ls = [] := by
  cases ls <;> rfl

theorem dialogue_skip (h : ∀ l ∈ skipped, command l = none) :
    dialogue gp mp body (ρ :: ρs) (skipped ++ rest)
      = skipped.map .read ++ dialogue gp mp body (ρ :: ρs) rest := by
  induction skipped with
  | nil => rfl
  | cons l skipped ih =>
      rw [List.cons_append, dialogue, h l List.mem_cons_self]
      simp only [List.map_cons, List.cons_append,
        ih fun x hx => h x (List.mem_cons_of_mem _ hx)]

theorem dialogue_quit (h : command l = some .quit) :
    dialogue gp mp body (ρ :: ρs) (l :: rest) = [.read l, .quit (quitText ρ)] := by
  rw [dialogue, h]

theorem dialogue_newstate (h : command l = some .newstate) :
    dialogue gp mp body (ρ :: ρs) (l :: rest)
      = if opens gp ρ then .read l :: .state (stateText body ρ) :: dialogue gp mp body ρs rest
        else [.read l, .error (errorText gp mp ρ)] := by
  rw [dialogue, h]

/-- Induction along a dialogue: it ends without calls, without lines, at a command to quit
and when the trace file cannot be opened, and goes on past other lines and after a state. -/
theorem dialogue_induction (gp : GlobalParams) (mp : MonitorParams) (body : List Write)
    {P : List Env → List (List Char) → List Event → Prop}
    (noCalls : ∀ ls, P [] ls [])
    (noLines : ∀ ρ ρs, P (ρ :: ρs) [] [])
    (skip : ∀ ρ ρs l ls, command l = none →
      P (ρ :: ρs) ls (dialogue gp mp body (ρ :: ρs) ls) →
      P (ρ :: ρs) (l :: ls) (.read l :: dialogue gp mp body (ρ :: ρs) ls))
    (quit : ∀ ρ ρs l ls, command l = some .quit →
      P (ρ :: ρs) (l :: ls) [.read l, .quit (quitText ρ)])
    (answer : ∀ ρ ρs l ls, command l = some .newstate → opens gp ρ →
      P ρs ls (dialogue gp mp body ρs ls) → P (ρ :: ρs) (l :: ls)
        (.read l :: .state (stateText body ρ) :: dialogue gp mp body ρs ls))
    (fail : ∀ ρ ρs l ls, command l = some .newstate → opens gp ρ = false →
      P (ρ :: ρs) (l :: ls) [.read l, .error (errorText gp mp ρ)])
    (ρs : List Env) (ls : List (List Char)) : P ρs ls (dialogue gp mp body ρs ls) := by
  induction ls generalizing ρs with
  | nil =>
      cases ρs with
      | nil => exact noCalls []
      | cons ρ ρs => exact noLines ρ ρs
  | cons l ls ih =>
      cases ρs with
      | nil => exact noCalls (l :: ls)
      | cons ρ ρs =>
          cases hc : command l with
          | none =>
              rw [dialogue, hc]
              exact skip ρ ρs l ls hc (ih (ρ :: ρs))
          | some c =>
              cases c with
              | quit =>
                  rw [dialogue_quit hc]
                  exact quit ρ ρs l ls hc
              | newstate =>
                  rw [dialogue_newstate hc]
                  split_ifs with hopen
                  · exact answer ρ ρs l ls hc hopen (ih ρs)
                  · exact fail ρ ρs l ls hc (by simpa using hopen)

/-- A dialogue begins by reading a line. -/
theorem head_dialogue (ρs : List Env) (ls : List (List Char)) :
    ∀ e ∈ (dialogue gp mp body ρs ls).head?, ∃ l, e = .read l := by
  induction ρs, ls using dialogue_induction gp mp body with
  | noCalls ls => simp
  | _ => simp

theorem dialogue_reads (ρs : List Env) (ls : List (List Char)) :
    (dialogue gp mp body ρs ls).filterMap Event.line <+: ls := by
  induction ρs, ls using dialogue_induction gp mp body with
  | noCalls ls => exact List.nil_prefix
  | noLines ρ ρs => exact List.nil_prefix
  | skip ρ ρs l ls hc ih => simpa [Event.line, List.filterMap_cons] using ih
  | quit ρ ρs l ls hc => simp [Event.line, List.filterMap_cons]
  | answer ρ ρs l ls hc hopen ih => simpa [Event.line, List.filterMap_cons] using ih
  | fail ρ ρs l ls hc hopen => simp [Event.line, List.filterMap_cons]

theorem dialogue_states (ρs : List Env) (ls : List (List Char)) :
    (dialogue gp mp body ρs ls).filterMap Event.stateText <+: ρs.map (stateText body) := by
  induction ρs, ls using dialogue_induction gp mp body with
  | noCalls ls => exact List.nil_prefix
  | noLines ρ ρs => exact List.nil_prefix
  | skip ρ ρs l ls hc ih => simpa [Event.stateText, List.filterMap_cons] using ih
  | quit ρ ρs l ls hc => exact List.nil_prefix
  | answer ρ ρs l ls hc hopen ih => simpa [Event.stateText, List.filterMap_cons] using ih
  | fail ρ ρs l ls hc hopen => exact List.nil_prefix

/-- Other lines keep a dialogue in step, and so does an answered request. -/
theorem dialogue_inStep (ρs : List Env) (ls : List (List Char)) :
    InStep Event.isRequest Event.isReply (dialogue gp mp body ρs ls) ∧
      Closed Event.isRequest Event.isReply (dialogue gp mp body ρs ls) := by
  have hexchange : ∀ {l : List Char} {r : Event}, command l = some .newstate →
      r.isRequest = false → r.isReply = true →
      InStep Event.isRequest Event.isReply [.read l, r] ∧
        Closed Event.isRequest Event.isReply [.read l, r] := by
    intro l r hl hr hr'
    exact InStep.exchange (by simp [Event.isRequest, hl]) rfl hr hr'
  induction ρs, ls using dialogue_induction gp mp body with
  | noCalls ls => exact InStep.of_silent (by simp) (by simp)
  | noLines ρ ρs => exact InStep.of_silent (by simp) (by simp)
  | skip ρ ρs l ls hc ih =>
      have hskip : InStep Event.isRequest Event.isReply [.read l] ∧
          Closed Event.isRequest Event.isReply [.read l] :=
        InStep.of_silent (by simp [Event.isRequest, hc]) (by simp [Event.isReply])
      exact ⟨hskip.1.append hskip.2 ih.1, hskip.2.append ih.2⟩
  | quit ρ ρs l ls hc =>
      exact InStep.of_silent (by simp [Event.isRequest, hc]) (by simp [Event.isReply])
  | answer ρ ρs l ls hc hopen ih =>
      have hpair := hexchange (r := .state (stateText body ρ)) hc rfl rfl
      exact ⟨hpair.1.append hpair.2 ih.1, hpair.2.append ih.2⟩
  | fail ρ ρs l ls hc hopen => exact hexchange hc rfl rfl

theorem dialogue_follows (ρs : List Env) (ls : List (List Char)) :
    (dialogue gp mp body ρs ls).IsChain Follows := by
  induction ρs, ls using dialogue_induction gp mp body with
  | noCalls ls => exact List.isChain_nil
  | noLines ρ ρs => exact List.isChain_nil
  | skip ρ ρs l ls hc ih =>
      refine List.isChain_cons.mpr ⟨?_, ih⟩
      intro e he
      obtain ⟨l', rfl⟩ := head_dialogue (ρ :: ρs) ls e he
      exact .skip hc l'
  | quit ρ ρs l ls hc => exact List.isChain_pair.mpr (.quit hc _)
  | answer ρ ρs l ls hc hopen ih =>
      refine List.isChain_cons_cons.mpr ⟨.answer hc _, List.isChain_cons.mpr ⟨?_, ih⟩⟩
      intro e he
      obtain ⟨l', rfl⟩ := head_dialogue ρs ls e he
      exact .next _ l'
  | fail ρ ρs l ls hc hopen => exact List.isChain_pair.mpr (.fail hc _)

theorem dialogue_errors (ρs : List Env) (ls : List (List Char)) (text : String)
    (h : .error text ∈ dialogue gp mp body ρs ls) :
    gp.writeToFile ∧ ∃ ρ ∈ ρs, ρ.traceGood = false := by
  induction ρs, ls using dialogue_induction gp mp body with
  | noCalls ls => simp at h
  | noLines ρ ρs => simp at h
  | skip ρ ρs l ls hc ih => exact ih (by simpa using h)
  | quit ρ ρs l ls hc => simp at h
  | answer ρ ρs l ls hc hopen ih =>
      obtain ⟨hw, ρ', hρ', hgood⟩ := ih (by simpa using h)
      exact ⟨hw, ρ', List.mem_cons_of_mem ρ hρ', hgood⟩
  | fail ρ ρs l ls hc hopen =>
      simp only [opens, Bool.or_eq_false_iff, Bool.not_eq_false'] at hopen
      exact ⟨hopen.1, ρ, List.mem_cons_self, hopen.2⟩

theorem Enough.exists_command {n : ℕ} (h : Enough (n + 1) ls) :
    ∃ l ∈ ls, (command l).isSome := by
  obtain ⟨l, hl, hc⟩ | hcount := h
  · exact ⟨l, hl, by rw [hc]; rfl⟩
  · have hpos : 0 < ls.countP (command · = some .newstate) := by omega
    obtain ⟨l, hl, hc⟩ := List.countP_pos_iff.mp hpos
    exact ⟨l, hl, by rw [of_decide_eq_true hc]; rfl⟩

theorem Enough.tail {n : ℕ} (h : Enough n (l :: ls)) (hl : command l = none) :
    Enough n ls := by
  refine h.imp ?_ ?_
  · rintro ⟨l', hl', hc⟩
    obtain rfl | hl' := List.mem_cons.mp hl'
    · simp [hl] at hc
    · exact ⟨l', hl', hc⟩
  · intro hcount
    rwa [List.countP_cons_of_neg (by simp [hl])] at hcount

theorem Enough.next {n : ℕ} (h : Enough (n + 1) (l :: ls)) (hl : command l = some .newstate) :
    Enough n ls := by
  refine h.imp ?_ ?_
  · rintro ⟨l', hl', hc⟩
    obtain rfl | hl' := List.mem_cons.mp hl'
    · simp [hl] at hc
    · exact ⟨l', hl', hc⟩
  · intro hcount
    rw [List.countP_cons_of_pos (by simp [hl])] at hcount
    omega

/-- With enough commands every call is answered. -/
theorem dialogue_answered (ρs : List Env) (ls : List (List Char)) (h : Enough ρs.length ls) :
    ((dialogue gp mp body ρs ls).filterMap Event.stateText).length = ρs.length ∨
      (∃ l, .read l ∈ dialogue gp mp body ρs ls ∧ command l = some .quit) ∨
      ∃ text, .error text ∈ dialogue gp mp body ρs ls := by
  induction ρs, ls using dialogue_induction gp mp body with
  | noCalls ls => exact .inl rfl
  | noLines ρ ρs =>
      obtain ⟨l, hl, -⟩ := h.exists_command
      simp at hl
  | skip ρ ρs l ls hc ih =>
      refine (ih (h.tail hc)).imp
        (fun heq => by simpa [Event.stateText, List.filterMap_cons] using heq) ?_
      refine Or.imp ?_ ?_
      · rintro ⟨l', hl', hc'⟩
        exact ⟨l', List.mem_cons_of_mem _ hl', hc'⟩
      · rintro ⟨text, ht⟩
        exact ⟨text, List.mem_cons_of_mem _ ht⟩
  | quit ρ ρs l ls hc => exact .inr (.inl ⟨l, List.mem_cons_self, hc⟩)
  | answer ρ ρs l ls hc hopen ih =>
      refine (ih (h.next hc)).imp
        (fun heq => by simpa [Event.stateText, List.filterMap_cons] using heq) ?_
      refine Or.imp ?_ ?_
      · rintro ⟨l', hl', hc'⟩
        exact ⟨l', List.mem_cons_of_mem _ (List.mem_cons_of_mem _ hl'), hc'⟩
      · rintro ⟨text, ht⟩
        exact ⟨text, List.mem_cons_of_mem _ (List.mem_cons_of_mem _ ht)⟩
  | fail ρ ρs l ls hc hopen => exact .inr (.inr ⟨_, List.mem_cons_of_mem _ List.mem_cons_self⟩)

/-- **A dialogue answers one for one.** -/
theorem answers_dialogue {ρs : List Env} {ls : List (List Char)} (h : Enough ρs.length ls) :
    Answers gp body ρs ls (dialogue gp mp body ρs ls) where
  reads := dialogue_reads ρs ls
  inStep := (dialogue_inStep ρs ls).1
  closed := (dialogue_inStep ρs ls).2
  follows := dialogue_follows ρs ls
  states := dialogue_states ρs ls
  answered := dialogue_answered ρs ls h
  errors := dialogue_errors ρs ls

end Dialogue

/-! ## The calls of `step()` -/

section Drive
variable {gp : GlobalParams} {mp : MonitorParams} {body : List Write} {σ σ' : Session}
variable {ρ : Env} {ρs : List Env} {ls : List (List Char)} {n m : ℕ}

theorem step_of_exited (h : σ.exited = true) : step gp mp n σ ρ = some σ := by
  rw [step, if_pos h]

theorem drive_of_exited (h : σ.exited = true) : drive gp mp n ρs σ = some σ := by
  induction ρs with
  | nil => rfl
  | cons ρ ρs ih =>
      rw [drive, List.foldlM_cons, step_of_exited h]
      exact ih

theorem drive_cons : drive gp mp n (ρ :: ρs) σ = (step gp mp n σ ρ).bind (drive gp mp n ρs) :=
  rfl

theorem step_mono (hnm : n ≤ m) (h : step gp mp n σ ρ = some σ') :
    step gp mp m σ ρ = some σ' := by
  rw [step] at h ⊢
  split_ifs at h ⊢ with hexit
  · exact h
  · obtain ⟨r, hr, h⟩ := Option.bind_eq_some_iff.mp h
    rw [commandLoop_mono hnm hr]
    exact h

theorem drive_mono (hnm : n ≤ m) (h : drive gp mp n ρs σ = some σ') :
    drive gp mp m ρs σ = some σ' := by
  induction ρs generalizing σ with
  | nil => exact h
  | cons ρ ρs ih =>
      rw [drive_cons] at h ⊢
      obtain ⟨σ₁, hstep, hrun⟩ := Option.bind_eq_some_iff.mp h
      rw [step_mono hnm hstep]
      exact ih hrun

/-- What a session has done between two states of it. -/
structure Extends (gp : GlobalParams) (σ : Session) (es : List Event) (σ' : Session) :
    Prop where
  log : σ'.log = σ.log ++ es
  cout : σ'.out.cout = σ.out.cout ++ String.join (es.map Event.printed)
  tracefile : σ'.out.tracefile = if gp.writeToFile then
      σ.out.tracefile ++ String.join (es.filterMap Event.stateText)
    else σ.out.tracefile

theorem Extends.trans {σ'' : Session} {es es' : List Event} (h : Extends gp σ es σ')
    (h' : Extends gp σ' es' σ'') : Extends gp σ (es ++ es') σ'' where
  log := by rw [h'.log, h.log, List.append_assoc]
  cout := by
    rw [h'.cout, h.cout, List.map_append, String.join_append, String.append_assoc]
  tracefile := by
    rw [h'.tracefile, h.tracefile, List.filterMap_append, String.join_append]
    split_ifs
    · rw [String.append_assoc]
    · rfl

theorem join_printed_read (ls : List (List Char)) (es : List Event) :
    String.join ((ls.map Event.read ++ es).map Event.printed)
      = String.join (es.map Event.printed) := by
  induction ls with
  | nil => rfl
  | cons l ls ih => simpa [Event.printed] using ih

theorem filterMap_stateText_read (ls : List (List Char)) (es : List Event) :
    (ls.map Event.read ++ es).filterMap Event.stateText = es.filterMap Event.stateText := by
  induction ls with
  | nil => rfl
  | cons l ls ih => exact ih

theorem stepFooter_ne_nil {code : List Stmt} (h : stepFooter gp mp = some code)
    (hsome : observesSome gp mp) : code ≠ [] := by
  rw [stepFooter, if_pos hsome] at h
  obtain ⟨body, -, rfl⟩ := Option.map_eq_some_iff.mp h
  simp

/-- What the emitted code prints when it cannot open its trace file. -/
theorem run_stepFooter_closed (h : stepFooterBody gp mp = some body)
    (hsome : observesSome gp mp)
    (hopen : opens gp ρ = false) (cout trace : String) :
    ∃ code, stepFooter gp mp = some code ∧
      run ρ code ⟨"", cout, trace⟩ = .error ⟨stateHead, cout ++ errorText gp mp ρ, trace⟩ := by
  simp only [opens, Bool.or_eq_false_iff, Bool.not_eq_false'] at hopen
  obtain ⟨hw, hgood⟩ := hopen
  have hhead : "" ++ stateHead = stateHead := String.empty_append
  have happend : ∀ s t u v : String, s ++ (t ++ u ++ v) = s ++ t ++ u ++ v := by
    intro s t u v
    simp only [String.append_assoc]
  have htext : cout ++ errorText gp mp ρ = cout ++ "\n# plasma-error Unable to open "
      ++ ρ.literal (traceFileName gp mp) ++ " for output. #\n\n" := happend cout _ _ _
  rw [stepFooter, if_pos hsome, h, htext]
  refine ⟨_, rfl, ?_⟩
  simp only [hw, if_true, run_append, run_cons, run_nil, ok_bind, Stmt.exec, Write.text, hgood,
    Bool.false_eq_true, if_false, error_bind, hhead]

section Step
variable {skipped rest : List (List Char)} {l : List Char}

/-- A call that reads a request prints the state. -/
theorem step_newstate (hbody : stepFooterBody gp mp = some body) (hsome : observesSome gp mp)
    (hexit : σ.exited = false) (hp : σ.stdin.pending = skipped ++ l :: rest)
    (hskip : ∀ l' ∈ skipped, command l' = none) (hl : command l = some .newstate)
    (hopen : opens gp ρ) :
    ∃ σ', step gp mp (skipped.length + 1) σ ρ = some σ' ∧ σ'.stdin.pending = rest ∧
      σ'.exited = false ∧
      Extends gp σ (skipped.map .read ++ [.read l, .state (stateText body ρ)]) σ' := by
  obtain ⟨cin', hrest, hloop⟩ := commandLoop_of_pending hp hskip hl
  have hgood : gp.writeToFile → ρ.traceGood := by
    intro hw
    simpa [opens, hw] using hopen
  obtain ⟨code, hcode, hrun⟩ := run_stepFooter hbody hsome hgood "" σ.out.tracefile
  rw [step, hexit, if_neg Bool.false_ne_true, hloop, if_pos (Nat.lt_succ_self _)]
  simp only [Option.bind_eq_bind, Option.bind_some, hcode, stepFooter_ne_nil hcode hsome,
    if_false, hrun]
  refine ⟨_, rfl, hrest, rfl, ?_⟩
  constructor
  · simp [stateText]
  · rw [join_printed_read]
    simp [Event.printed, stateText]
  · rw [filterMap_stateText_read]
    simp [Event.stateText, List.filterMap_cons, stateText]

/-- A call that reads a request and cannot open its trace file ends the simulation. -/
theorem step_closed (hbody : stepFooterBody gp mp = some body) (hsome : observesSome gp mp)
    (hexit : σ.exited = false) (hp : σ.stdin.pending = skipped ++ l :: rest)
    (hskip : ∀ l' ∈ skipped, command l' = none) (hl : command l = some .newstate)
    (hopen : opens gp ρ = false) :
    ∃ σ', step gp mp (skipped.length + 1) σ ρ = some σ' ∧ σ'.exited = true ∧
      Extends gp σ (skipped.map .read ++ [.read l, .error (errorText gp mp ρ)]) σ' := by
  obtain ⟨cin', -, hloop⟩ := commandLoop_of_pending hp hskip hl
  obtain ⟨code, hcode, hrun⟩ := run_stepFooter_closed hbody hsome hopen "" σ.out.tracefile
  rw [step, hexit, if_neg Bool.false_ne_true, hloop, if_pos (Nat.lt_succ_self _)]
  simp only [Option.bind_eq_bind, Option.bind_some, hcode, stepFooter_ne_nil hcode hsome,
    if_false, hrun]
  refine ⟨_, rfl, rfl, ?_⟩
  constructor
  · simp
  · rw [join_printed_read]
    simp [Event.printed]
  · rw [filterMap_stateText_read]
    simp [Event.stateText, List.filterMap_cons]

/-- A call that reads the command to quit ends the simulation. -/
theorem step_quit (gp : GlobalParams) (mp : MonitorParams) (ρ : Env)
    (hexit : σ.exited = false) (hp : σ.stdin.pending = skipped ++ l :: rest)
    (hskip : ∀ l' ∈ skipped, command l' = none) (hl : command l = some .quit) :
    ∃ σ', step gp mp (skipped.length + 1) σ ρ = some σ' ∧ σ'.exited = true ∧
      Extends gp σ (skipped.map .read ++ [.read l, .quit (quitText ρ)]) σ' := by
  obtain ⟨cin', -, hloop⟩ := commandLoop_of_pending hp hskip hl
  rw [step, hexit, if_neg Bool.false_ne_true, hloop, if_pos (Nat.lt_succ_self _)]
  refine ⟨_, rfl, rfl, ?_⟩
  constructor
  · simp
  · rw [join_printed_read]
    simp [Event.printed]
  · rw [filterMap_stateText_read]
    simp [Event.stateText, List.filterMap_cons]

end Step

theorem Enough.drop {skipped ls : List (List Char)} (h : Enough n (skipped ++ ls))
    (hskip : ∀ l ∈ skipped, command l = none) : Enough n ls := by
  induction skipped with
  | nil => exact h
  | cons l skipped ih =>
      exact ih (h.tail (hskip l List.mem_cons_self)) fun x hx =>
        hskip x (List.mem_cons_of_mem _ hx)

/-- **With enough commands the calls carry out the dialogue.** -/
theorem drive_spec (hbody : stepFooterBody gp mp = some body) (hsome : observesSome gp mp)
    (hexit : σ.exited = false) (h : Enough ρs.length σ.stdin.pending) :
    ∃ n σ', drive gp mp n ρs σ = some σ' ∧
      Extends gp σ (dialogue gp mp body ρs σ.stdin.pending) σ' := by
  induction ρs generalizing σ with
  | nil => exact ⟨0, σ, rfl, ⟨by simp, by simp, by simp⟩⟩
  | cons ρ ρs ih =>
      obtain ⟨skipped, l, rest, c, hp, hskip, hl⟩ := exists_first_command h.exists_command
      have hafter := Enough.drop (hp ▸ h) hskip
      rw [hp, dialogue_skip hskip]
      cases c with
      | quit =>
          obtain ⟨σ₁, hstep, hexit₁, hext⟩ := step_quit gp mp ρ hexit hp hskip hl
          refine ⟨skipped.length + 1, σ₁, ?_, by rwa [dialogue_quit hl]⟩
          rw [drive_cons, hstep]
          exact drive_of_exited hexit₁
      | newstate =>
          rw [dialogue_newstate hl]
          cases hopen : opens gp ρ with
          | true =>
              obtain ⟨σ₁, hstep, hrest, hexit₁, hext⟩ :=
                step_newstate hbody hsome hexit hp hskip hl hopen
              obtain ⟨n, σ₂, hrun, hext'⟩ := ih (σ := σ₁) hexit₁ (hrest ▸ hafter.next hl)
              refine ⟨max (skipped.length + 1) n, σ₂, ?_, ?_⟩
              · rw [drive_cons, step_mono (Nat.le_max_left _ n) hstep]
                exact drive_mono (Nat.le_max_right _ n) hrun
              · rw [hrest] at hext'
                simpa using hext.trans hext'
          | false =>
              obtain ⟨σ₁, hstep, hexit₁, hext⟩ :=
                step_closed hbody hsome hexit hp hskip hl hopen
              refine ⟨skipped.length + 1, σ₁, ?_, by simpa using hext⟩
              rw [drive_cons, hstep]
              exact drive_of_exited hexit₁

/-- **The monitor answers the protocol one for one**, and its trace file holds the states
that it has printed. -/
theorem drive_answers (hbody : stepFooterBody gp mp = some body) (hsome : observesSome gp mp)
    {ρ₀ : Env} {out₀ out : Out} (hctor : constructTrace gp mp ρ₀ out₀ = .ok out)
    (text : List Char) (ρs : List Env) (h : Enough ρs.length (IStream.ofText text).pending) :
    ∃ σ : Session,
      (∃ n, drive gp mp n ρs ⟨.ofText text, out, [], false⟩ = some σ) ∧
      (∀ n σ', drive gp mp n ρs ⟨.ofText text, out, [], false⟩ = some σ' → σ' = σ) ∧
      Answers gp body ρs (IStream.ofText text).pending σ.log ∧
      σ.out.cout = out₀.cout ++ String.join (σ.log.map Event.printed) ∧
      (gp.writeToFile →
        σ.out.tracefile = String.join (σ.log.filterMap Event.stateText)) := by
  obtain ⟨n, σ, hrun, hext⟩ :=
    drive_spec (σ := ⟨.ofText text, out, [], false⟩) hbody hsome rfl h
  have hlog : σ.log = dialogue gp mp body ρs (IStream.ofText text).pending := by
    simpa using hext.log
  have hout : out.cout = out₀.cout ∧ (gp.writeToFile → out.tracefile = "") := by
    rw [constructTrace] at hctor
    split_ifs at hctor with hw hgood
    · obtain rfl := Except.ok.inj hctor
      exact ⟨rfl, fun _ => rfl⟩
    · obtain rfl := Except.ok.inj hctor
      exact ⟨rfl, fun hw' => absurd hw' hw⟩
  refine ⟨σ, ⟨n, hrun⟩, ?_, ?_, ?_, ?_⟩
  · intro m σ' hrun'
    have hle := drive_mono (Nat.le_max_left n m) hrun
    have hle' := drive_mono (Nat.le_max_right n m) hrun'
    exact Option.some.inj (hle'.symm.trans hle)
  · rw [hlog]
    exact answers_dialogue h
  · rw [hlog, ← hout.1]
    exact hext.cout
  · intro hw
    have htrace := hext.tracefile
    rw [if_pos hw, hout.2 hw, String.empty_append] at htrace
    rw [hlog]
    exact htrace

end Drive

section Examples

/-- The configuration that observes two event clocks, with a trace file. -/
def twoClocksTraced : GlobalParams := { twoClocks with writeToFile := true }

/-- A request for a state, and the command to quit. -/
def stateThenQuit : List Char := "#plasma-newstate#\n#plasma-quit#\n".toList

/-- Two calls answer a request and the command to quit. -/
theorem drive_answers_two :
    ∃ (body : List Write) (σ : Session),
      (∃ n, drive twoClocksTraced twoClocksMonitor n [notified ["a"], notified ["b"]]
        ⟨.ofText stateThenQuit, ⟨"", "", ""⟩, [], false⟩ = some σ) ∧
      Answers twoClocksTraced body [notified ["a"], notified ["b"]]
        (IStream.ofText stateThenQuit).pending σ.log ∧
      σ.out.tracefile = String.join (σ.log.filterMap Event.stateText) := by
  have henough : Enough 2 (IStream.ofText stateThenQuit).pending :=
    .inl ⟨"#plasma-quit#".toList, by decide, by decide⟩
  obtain ⟨σ, hrun, -, hanswers, -, htrace⟩ :=
    @drive_answers twoClocksTraced twoClocksMonitor _ rfl (by decide) (notified [])
      ⟨"", "", "an earlier run"⟩ _ rfl stateThenQuit [notified ["a"], notified ["b"]] henough
  exact ⟨_, σ, hrun, hanswers, htrace rfl⟩

end Examples

end Pscv.Mag
