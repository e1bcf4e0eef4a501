import Pscv.Lib.Recorded
import Pscv.Mag.Main

/-!
# The command line

The constructor of `global_params` goes over the argument vector twice, two words at a time:
for the name of the configuration file and, after that file has been parsed, for the other
options. A word that is an option is followed by its value, and the loops do not ask whether it
is.

What the constructor prints while it parses the file, and its warnings, are left out.

## Main results

* `arguments_inside_iff`.
* `result_constructor` — the parameters are those of `globalParams`.
-/

namespace Pscv.Mag

open Pscv.Lib Recorded

/-! ## The passes -/

/-- What is done with the argument vector, and what is reported. -/
inductive ArgEvent
  /-- `argv[i]` is used as a string. -/
  | use (i : ℕ)
  | report (message : String)
  deriving DecidableEq

section Passes
variable {σ : Type} (argv : List String)

/-- `argv[i]`, as a string. Behind the last word there is a null pointer. -/
def argument (i : ℕ) : Recorded ArgEvent String := ⟨[.use i], argv[i]?⟩

/-- The test for one option. -/
def takeOption (i : ℕ) (s : σ) (flag : String × (String → σ → σ)) : Recorded ArgEvent σ := do
  let word ← argument argv i
  if strcaseEq word flag.1 then
    let value ← argument argv (i + 1)
    return flag.2 value s
  else return s

/-- The loop over the argument vector, from `argv[1]` in steps of two. -/
def argumentPass (flags : List (String × (String → σ → σ))) (s : σ) : Recorded ArgEvent σ :=
  (List.range' 1 (argv.length / 2) 2).foldlM (fun s i => flags.foldlM (takeOption argv i) s) s

/-- The option of the first pass. -/
def confFlags : List (String × (String → String → String)) := [("-conf", fun v _ => v)]

/-- The first pass: the name of the configuration file. -/
def confPass : Recorded ArgEvent String := argumentPass argv confFlags "mm_config.txt"

/-- `parse_command_line`, on the argument vector. -/
def commandLinePass (c : Config) : Recorded ArgEvent Config :=
  argumentPass argv Config.commandLineFlags c

/-- `help`: the name of the program is printed. -/
def help : Recorded ArgEvent Unit := do
  let _ ← argument argv 0

/-- The option `-help` stands alone, and ends the program. -/
def checkHelp : Recorded ArgEvent Unit := do
  if argv.length = 2 then
    let word ← argument argv 1
    if strcaseEq "-help" word then
      help argv
      stop

/-- The configuration file. An empty name means none. -/
def parseConfFile (files : String → Option String) (conf : String) :
    Recorded ArgEvent Config := do
  if conf = "" then return defaults
  match files conf with
  | none =>
      record (.report
        ("ERROR: Configuration file '" ++ conf ++ "' could not be opened for reading!\n"))
      stop
  | some text => ⟨[], defaults.parseConfigFile text⟩

/-- `sanity_checks`, with its errors. -/
def reportedChecks (c : Config) : Recorded ArgEvent Config := do
  match c.sanityChecks with
  | some c => return c
  | none =>
      record (.report
        (if cString c.outputFile.toList = [] then
          "You must provide the name of the output file!\n"
        else "Your attribute definitions are not correct!\n"))
      stop

/-- The constructor of `global_params`. -/
def constructor (files : String → Option String) : Recorded ArgEvent Config := do
  checkHelp argv
  let conf ← confPass argv
  let c ← parseConfFile files conf
  let c ← commandLinePass argv c
  reportedChecks c

end Passes

/-- The words that are recognised. -/
def options : List String := confFlags.map Prod.fst ++ Config.commandLineFlags.map Prod.fst

/-- The option at the end of the argument vector, when it is where an option is looked for. -/
def optionWithoutValue (argv : List String) : Option String :=
  if argv.length % 2 = 0 then
    argv.getLast?.filter fun word => options.any fun option => strcaseEq word option
  else none

/-- Only the words of the argument vector are used, and an option without a value is reported.
-/
structure UsesWords {α : Type} (argv : List String) (r : Recorded ArgEvent α) : Prop where
  inside : ∀ i, .use i ∈ r.events → i < argv.length
  reported : ∀ word, optionWithoutValue argv = some word →
    ∃ message, .report message ∈ r.events ∧ containsText word.toList message.toList

/-! ## A turn of the loop -/

/-- A use of a word that there is. -/
def Inside (argv : List String) (e : ArgEvent) : Prop := ∀ i, e = .use i → i < argv.length

section Turn
variable {σ : Type} {argv : List String} {i : ℕ} {s : σ} {word value : String}
variable {flag : String × (String → σ → σ)} {flags : List (String × (String → σ → σ))}

theorem takeOption_of_ne (hword : argv[i]? = some word) (hne : strcaseEq word flag.1 = false) :
    takeOption argv i s flag = ⟨[.use i], some s⟩ := by
  have harg : (argument argv i).result = some word := hword
  rw [takeOption, bind_of_some harg, hne]
  rfl

theorem takeOption_of_eq (hword : argv[i]? = some word) (hvalue : argv[i + 1]? = some value)
    (heq : strcaseEq word flag.1 = true) :
    takeOption argv i s flag = ⟨[.use i, .use (i + 1)], some (flag.2 value s)⟩ := by
  have harg : (argument argv i).result = some word := hword
  have harg' : (argument argv (i + 1)).result = some value := hvalue
  rw [takeOption, bind_of_some harg, if_pos heq, bind_of_some harg']
  rfl

/-- The null pointer ends the program. -/
theorem takeOption_of_missing (hword : argv[i]? = some word) (hvalue : argv[i + 1]? = none)
    (heq : strcaseEq word flag.1 = true) :
    takeOption argv i s flag = ⟨[.use i, .use (i + 1)], none⟩ := by
  have harg : (argument argv i).result = some word := hword
  have harg' : (argument argv (i + 1)).result = none := hvalue
  rw [takeOption, bind_of_some harg, if_pos heq, bind_of_none harg']
  rfl

theorem lt_of_getElem?_eq_some (hword : argv[i]? = some word) : i < argv.length :=
  (List.getElem?_eq_some_iff.mp hword).1

/-- A word and its value. -/
theorem turn_pair (hword : argv[i]? = some word) (hvalue : argv[i + 1]? = some value) :
    (flags.foldlM (takeOption argv i) s).result = some (flags.foldl
      (fun s flag => if strcaseEq word flag.1 then flag.2 value s else s) s) ∧
    Only (Inside argv) (flags.foldlM (takeOption argv i) s) := by
  have hi := lt_of_getElem?_eq_some hword
  have hi' := lt_of_getElem?_eq_some hvalue
  constructor
  · apply result_foldlM
    intro s flag _
    by_cases heq : strcaseEq word flag.1 = true
    · rw [takeOption_of_eq hword hvalue heq, if_pos heq]
    · rw [takeOption_of_ne hword (Bool.eq_false_of_not_eq_true heq), if_neg heq]
  · apply only_foldlM
    intro s flag _
    by_cases heq : strcaseEq word flag.1 = true
    · rw [takeOption_of_eq hword hvalue heq]
      simp [Only, Inside, hi, hi']
    · rw [takeOption_of_ne hword (Bool.eq_false_of_not_eq_true heq)]
      simp [Only, Inside, hi]

/-- A word at the end that is no option. -/
theorem turn_last (hword : argv[i]? = some word)
    (hne : ∀ flag ∈ flags, strcaseEq word flag.1 = false) :
    (flags.foldlM (takeOption argv i) s).result = some s ∧
    Only (Inside argv) (flags.foldlM (takeOption argv i) s) := by
  have hi := lt_of_getElem?_eq_some hword
  constructor
  · have hfixed : flags.foldl (fun s _ => s) s = s := List.foldl_fixed flags
    nth_rewrite 2 [← hfixed]
    apply result_foldlM
    intro s flag hflag
    rw [takeOption_of_ne hword (hne flag hflag)]
  · apply only_foldlM
    intro s flag hflag
    rw [takeOption_of_ne hword (hne flag hflag)]
    simp [Only, Inside, hi]

/-- An option at the end. -/
theorem turn_missing (hword : argv[i]? = some word) (hvalue : argv[i + 1]? = none)
    (hflag : flag ∈ flags) (heq : strcaseEq word flag.1 = true) :
    .use (i + 1) ∈ (flags.foldlM (takeOption argv i) s).events := by
  induction flags with
  | nil => cases hflag
  | cons first flags ih =>
      rw [List.foldlM_cons]
      by_cases hfirst : strcaseEq word first.1 = true
      · apply mem_bind_left
        rw [takeOption_of_missing hword hvalue hfirst]
        simp
      · have hne := Bool.eq_false_of_not_eq_true hfirst
        rcases List.mem_cons.mp hflag with rfl | hflag
        · exact absurd heq hfirst
        · exact mem_bind_right (by rw [takeOption_of_ne hword hne]) (ih hflag)

end Turn

/-! ## A pass -/

/-- The words of a command line in pairs. -/
def pairs : List String → List (String × String)
  | word :: value :: words => (word, value) :: pairs words
  | _ => []

/-- The word that is left. -/
def wordLeft : List String → Option String
  | [] => none
  | [word] => some word
  | _ :: _ :: words => wordLeft words

theorem wordLeft_eq (words : List String) :
    wordLeft words = if words.length % 2 = 0 then none else words.getLast? := by
  induction words using wordLeft.induct with
  | case1 => rfl
  | case2 word => rfl
  | case3 word value words ih =>
      have hlen : (word :: value :: words).length % 2 = words.length % 2 := by
        simp only [List.length_cons]
        omega
      rw [wordLeft, ih, hlen]
      by_cases heven : words.length % 2 = 0
      · rw [if_pos heven, if_pos heven]
      · have hne : words ≠ [] := by
          rintro rfl
          exact heven rfl
        obtain ⟨w, ws, rfl⟩ := List.exists_cons_of_ne_nil hne
        rw [if_neg heven, if_neg heven]
        rfl

theorem optionWithoutValue_cons (program : String) (words : List String) :
    optionWithoutValue (program :: words) =
      (wordLeft words).filter fun word => options.any fun option => strcaseEq word option := by
  rw [optionWithoutValue, wordLeft_eq, List.length_cons]
  by_cases heven : words.length % 2 = 0
  · have hodd : ¬ (words.length + 1) % 2 = 0 := by omega
    rw [if_neg hodd, if_pos heven]
    rfl
  · have hodd : (words.length + 1) % 2 = 0 := by omega
    have hne : words ≠ [] := by
      rintro rfl
      exact heven rfl
    obtain ⟨w, ws, rfl⟩ := List.exists_cons_of_ne_nil hne
    rw [if_pos hodd, if_neg heven]
    rfl

section Pass
variable {σ : Type} {flags : List (String × (String → σ → σ))} {s : σ}
variable {program : String} {before words : List String}

/-- The turns that are left behind some words. -/
def turns (flags : List (String × (String → σ → σ))) (before words : List String) (s : σ) :
    Recorded ArgEvent σ :=
  (List.range' before.length ((words.length + 1) / 2) 2).foldlM
    (fun s i => flags.foldlM (takeOption (before ++ words) i) s) s

theorem argumentPass_cons : argumentPass (program :: words) flags s =
    turns flags [program] words s := rfl

theorem turns_cons (word value : String) : turns flags before (word :: value :: words) s =
    (flags.foldlM (takeOption (before ++ word :: value :: words) before.length) s) >>=
      turns flags (before ++ [word, value]) words := by
  have hcount : ((word :: value :: words).length + 1) / 2 = (words.length + 1) / 2 + 1 := by
    simp only [List.length_cons]
    omega
  have hvector : before ++ word :: value :: words = before ++ [word, value] ++ words := by simp
  rw [turns, hcount, List.range'_succ, List.foldlM_cons, hvector]
  congr 1
  funext s'
  rw [turns, List.length_append]
  rfl

theorem turns_singleton (word : String) : turns flags before [word] s =
    (flags.foldlM (takeOption (before ++ [word]) before.length) s) >>= pure := by
  have hcount : ([word].length + 1) / 2 = 1 := by simp
  rw [turns, hcount, List.range'_one, List.foldlM_cons]
  rfl

/-- The words of a pass that takes no value where there is none. -/
theorem turns_spec (hleft : ∀ word, wordLeft words = some word →
      ∀ flag ∈ flags, strcaseEq word flag.1 = false) (s : σ) (before : List String) :
    (turns flags before words s).result = some ((pairs words).foldl (fun s p => flags.foldl
      (fun s flag => if strcaseEq p.1 flag.1 then flag.2 p.2 s else s) s) s) ∧
    Only (Inside (before ++ words)) (turns flags before words s) := by
  induction words using wordLeft.induct generalizing s before with
  | case1 => exact ⟨rfl, only_pure s⟩
  | case2 word =>
      have hword : (before ++ [word])[before.length]? = some word := by simp
      have hturn := @turn_last _ _ _ s _ _ hword (hleft word rfl)
      rw [turns_singleton]
      refine ⟨?_, only_bind hturn.2 fun s' _ => only_pure s'⟩
      rw [result_bind hturn.1]
      rfl
  | case3 word value words ih =>
      have hword : (before ++ word :: value :: words)[before.length]? = some word := by simp
      have hvalue : (before ++ word :: value :: words)[before.length + 1]? = some value := by
        simp
      have hturn := @turn_pair _ _ _ s _ _ flags hword hvalue
      have hvector : before ++ word :: value :: words = before ++ [word, value] ++ words := by
        simp
      rw [turns_cons]
      constructor
      · rw [result_bind hturn.1, (ih hleft _ _).1]
        rfl
      · apply only_bind hturn.2
        intro s' _
        rw [hvector]
        exact (ih hleft s' (before ++ [word, value])).2

/-- The words of a pass that ends with an option. -/
theorem turns_missing {word : String} {flag : String × (String → σ → σ)}
    (hleft : wordLeft words = some word) (hflag : flag ∈ flags)
    (heq : strcaseEq word flag.1 = true) (s : σ) (before : List String) :
    .use (before ++ words).length ∈ (turns flags before words s).events := by
  induction words using wordLeft.induct generalizing s before with
  | case1 => cases hleft
  | case2 w =>
      obtain rfl := Option.some.inj hleft
      have hword : (before ++ [w])[before.length]? = some w := by simp
      have hvalue : (before ++ [w])[before.length + 1]? = none := by simp
      rw [turns_singleton, List.length_append]
      apply mem_bind_left
      exact turn_missing hword hvalue hflag heq
  | case3 w value words ih =>
      have hword : (before ++ w :: value :: words)[before.length]? = some w := by simp
      have hvalue : (before ++ w :: value :: words)[before.length + 1]? = some value := by simp
      have hvector : before ++ w :: value :: words = before ++ [w, value] ++ words := by simp
      have hturn := @turn_pair _ _ _ s _ _ flags hword hvalue
      rw [turns_cons]
      apply mem_bind_right hturn.1
      rw [hvector]
      exact ih hleft _ _

end Pass

/-! ## The constructor -/

section Constructor
variable {argv : List String} {files : String → Option String} {c : Config} {word : String}

theorem mem_options_conf {flag : String × (String → String → String)} (h : flag ∈ confFlags) :
    flag.1 ∈ options :=
  List.mem_append_left _ (List.mem_map_of_mem h)

theorem mem_options_commandLine {flag : String × (String → Config → Config)}
    (h : flag ∈ Config.commandLineFlags) : flag.1 ∈ options :=
  List.mem_append_right _ (List.mem_map_of_mem h)

theorem optionWithoutValue_recognised (h : optionWithoutValue argv = some word) :
    ∃ option ∈ options, strcaseEq word option = true := by
  rw [optionWithoutValue] at h
  split_ifs at h
  simpa using (Option.filter_eq_some_iff.mp h).2

/-- A pass that finds a value for each of its options. -/
theorem argumentPass_spec {σ : Type} {flags : List (String × (String → σ → σ))}
    (hflags : ∀ flag ∈ flags, flag.1 ∈ options)
    (h : ∀ word, optionWithoutValue argv = some word →
      ∀ flag ∈ flags, strcaseEq word flag.1 = false) (s : σ) :
    (argumentPass argv flags s).result = some ((pairs argv.tail).foldl (fun s p => flags.foldl
      (fun s flag => if strcaseEq p.1 flag.1 then flag.2 p.2 s else s) s) s) ∧
    Only (Inside argv) (argumentPass argv flags s) := by
  cases argv with
  | nil => exact ⟨rfl, only_pure s⟩
  | cons program words =>
      have hleft : ∀ word, wordLeft words = some word →
          ∀ flag ∈ flags, strcaseEq word flag.1 = false := by
        intro word hword flag hflag
        cases heq : strcaseEq word flag.1 with
        | false => rfl
        | true =>
            have hany : (options.any fun option => strcaseEq word option) = true :=
              List.any_eq_true.mpr ⟨flag.1, hflags flag hflag, heq⟩
            have hoption : optionWithoutValue (program :: words) = some word := by
              rw [optionWithoutValue_cons, Option.filter_eq_some_iff]
              exact ⟨hword, hany⟩
            rw [← heq]
            exact h word hoption flag hflag
      exact turns_spec hleft s [program]

theorem argumentPass_missing {σ : Type} {flags : List (String × (String → σ → σ))}
    {flag : String × (String → σ → σ)} (h : optionWithoutValue argv = some word)
    (hflag : flag ∈ flags) (heq : strcaseEq word flag.1 = true) (s : σ) :
    .use argv.length ∈ (argumentPass argv flags s).events := by
  cases argv with
  | nil => cases h
  | cons program words =>
      rw [optionWithoutValue_cons, Option.filter_eq_some_iff] at h
      rw [argumentPass_cons]
      exact turns_missing h.1 hflag heq s [program]

theorem only_report (message : String) : Only (Inside argv) (record (.report message)) := by
  simp [Only, Inside, record]

theorem only_checkHelp : Only (Inside argv) (checkHelp argv) := by
  rw [checkHelp]
  split_ifs with hlen
  · apply only_bind
    · simp [Only, Inside, argument, hlen]
    · intro word _
      split_ifs
      · apply only_bind
        · simp [Only, Inside, help, argument, hlen, bind_of_some]
        · intro _ _
          simp [Only, stop]
      · exact only_pure ()
  · exact only_pure ()

theorem only_parseConfFile (conf : String) :
    Only (Inside argv) (parseConfFile files conf) := by
  rw [parseConfFile]
  split_ifs
  · exact only_pure _
  · cases files conf with
    | none => exact only_bind (only_report _) fun _ _ => by simp [Only, stop]
    | some text => simp [Only]

theorem only_reportedChecks (c : Config) : Only (Inside argv) (reportedChecks c) := by
  rw [reportedChecks]
  cases c.sanityChecks with
  | none => exact only_bind (only_report _) fun _ _ => by simp [Only, stop]
  | some c => exact only_pure _

/-- Without an option at the end, no word is used that is not there. -/
theorem only_constructor (h : optionWithoutValue argv = none) :
    Only (Inside argv) (constructor argv files) := by
  have hnone : ∀ word, optionWithoutValue argv ≠ some word := by simp [h]
  apply only_bind only_checkHelp
  intro _ _
  apply only_bind (argumentPass_spec (fun _ => mem_options_conf)
    (fun word hword => absurd hword (hnone word)) _).2
  intro conf _
  apply only_bind (only_parseConfFile conf)
  intro c _
  apply only_bind (argumentPass_spec (fun _ => mem_options_commandLine)
    (fun word hword => absurd hword (hnone word)) c).2
  intro c _
  exact only_reportedChecks c

/-- An option is not `-help`. -/
theorem result_checkHelp (h : optionWithoutValue argv = some word) :
    (checkHelp argv).result = some () := by
  have hhelp : ∀ option ∈ options, strcaseEq "-help" option = false := by decide +kernel
  rw [checkHelp]
  by_cases hlen : argv.length = 2
  · obtain ⟨option, hmem, heq⟩ := optionWithoutValue_recognised h
    have hword : argv[1]? = some word := by
      rw [optionWithoutValue, hlen, if_pos rfl] at h
      rw [← (Option.filter_eq_some_iff.mp h).1, List.getLast?_eq_getElem?, hlen]
    have harg : (argument argv 1).result = some word := hword
    have hne : ¬ strcaseEq "-help" word = true := by
      intro hword
      have hself := strcaseEq_trans (strcaseEq_trans hword (strcaseEq_self _)) heq
      rw [hhelp option hmem] at hself
      cases hself
    rw [if_pos hlen, result_bind harg, if_neg hne]
    rfl
  · rw [if_neg hlen]
    rfl

/-- With an option at the end, the null pointer is used, when the configuration file does not
end the program. -/
theorem use_constructor (h : optionWithoutValue argv = some word) :
    .use argv.length ∈ (constructor argv fun _ => some "").events := by
  apply mem_bind_right (result_checkHelp h)
  by_cases hconf : ∃ flag ∈ confFlags, strcaseEq word flag.1 = true
  · obtain ⟨flag, hflag, heq⟩ := hconf
    exact mem_bind_left (argumentPass_missing h hflag heq _)
  · obtain ⟨option, hmem, heq⟩ := optionWithoutValue_recognised h
    have hfree : ∀ w, optionWithoutValue argv = some w →
        ∀ flag ∈ confFlags, strcaseEq w flag.1 = false := by
      intro w hw flag hflag
      obtain rfl := Option.some.inj (h.symm.trans hw)
      exact Bool.eq_false_of_not_eq_true fun heq => hconf ⟨flag, hflag, heq⟩
    have hpass := (argumentPass_spec (fun _ => mem_options_conf) hfree "mm_config.txt").1
    have hfile : ∀ conf, (parseConfFile (fun _ => some "") conf).result = some defaults := by
      intro conf
      rw [parseConfFile]
      split_ifs
      · rfl
      · rfl
    rcases List.mem_append.mp hmem with hmem | hmem
    · obtain ⟨flag, hflag, rfl⟩ := List.mem_map.mp hmem
      exact absurd ⟨flag, hflag, heq⟩ hconf
    · obtain ⟨flag, hflag, rfl⟩ := List.mem_map.mp hmem
      apply mem_bind_right hpass
      apply mem_bind_right (hfile _)
      exact mem_bind_left (argumentPass_missing h hflag heq _)

theorem result_commandLinePass (h : optionWithoutValue argv = none) (c : Config) :
    (commandLinePass argv c).result = some (c.parseCommandLine (pairs argv.tail)) :=
  (argumentPass_spec (fun _ => mem_options_commandLine)
    (fun word hword => absurd (h.symm.trans hword) (by simp)) c).1

theorem result_parseConfFile (conf : String) : (parseConfFile files conf).result =
    (if conf = "" then some "" else files conf).bind defaults.parseConfigFile := by
  rw [parseConfFile]
  by_cases hconf : conf = ""
  · rw [if_pos hconf, if_pos hconf]
    rfl
  · rw [if_neg hconf, if_neg hconf]
    cases files conf with
    | none => rfl
    | some text => rfl

theorem result_reportedChecks (c : Config) : (reportedChecks c).result = c.sanityChecks := by
  rw [reportedChecks]
  cases c.sanityChecks with
  | none => rfl
  | some c => rfl

/-- The parameters are those that the words give in pairs. -/
theorem result_constructor (hhelp : (checkHelp argv).result = some ())
    (h : optionWithoutValue argv = none) : (constructor argv files).result =
      (confPass argv).result.bind fun conf =>
        (if conf = "" then some "" else files conf).bind (globalParams (pairs argv.tail)) := by
  rw [constructor, result_bind hhelp, result_bind_eq]
  congr 1
  funext conf
  rw [result_bind_eq, result_parseConfFile, Option.bind_assoc]
  congr 1
  funext text
  rw [globalParams]
  congr 1
  funext c
  rw [result_bind (result_commandLinePass h c), result_reportedChecks]

/-- **The words of the argument vector.** Whatever the files are, the passes use no word but
those of the argument vector, and report an option without a value, exactly when no option
stands at the end of the vector where a pass looks for one. -/
theorem arguments_inside_iff (argv : List String) :
    (∀ files, UsesWords argv (constructor argv files)) ↔ optionWithoutValue argv = none := by
  constructor
  · intro h
    cases hleft : optionWithoutValue argv with
    | none => rfl
    | some word =>
        have hinside := (h fun _ => some "").inside _ (use_constructor hleft)
        exact absurd hinside (Nat.lt_irrefl _)
  · intro hnone files
    constructor
    · intro i hi
      exact only_constructor hnone _ hi i rfl
    · intro word hword
      rw [hnone] at hword
      cases hword

/-- An option at the end of the command line: the first pass uses `argv[2]` where there are two
words, the second pass `argv[4]` where there are four. -/
theorem missingValue_used : optionWithoutValue ["mag", "-conf"] = some "-conf" ∧
    (confPass ["mag", "-conf"]).events = [.use 1, .use 2] ∧
    ¬ UsesWords ["mag", "-conf"] (constructor ["mag", "-conf"] fun _ => some "") ∧
    ¬ UsesWords ["mag", "-conf", "c.txt", "-output_file"]
      (constructor ["mag", "-conf", "c.txt", "-output_file"] fun _ => some "") := by
  have hconf : optionWithoutValue ["mag", "-conf"] = some "-conf" := by decide +kernel
  have houtput : optionWithoutValue ["mag", "-conf", "c.txt", "-output_file"] =
      some "-output_file" := by decide +kernel
  refine ⟨hconf, by decide +kernel, ?_, ?_⟩
  · intro h
    exact absurd (h.inside _ (use_constructor hconf)) (Nat.lt_irrefl _)
  · intro h
    exact absurd (h.inside _ (use_constructor houtput)) (Nat.lt_irrefl _)

end Constructor

end Pscv.Mag
