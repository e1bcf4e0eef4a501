import Pscv.Lib.Literal
import Pscv.Lib.Separated
import Pscv.Mag.Config

/-!
# `step_footer`: the code that prints a state

The generator emits statements that write the observed items to a string stream, with
its own counters for the separators, and then send the stream out. Running the emitted
statements gives the printed line. A label and the name of the trace file are pasted
between the quotes of a literal as they are, and a compiler has to read that literal.

An attribute's value is printed by an `if`/`else` when its type is `bool`, and the
generator increments the counter of `trace_attributes` and of `trace_eventclocks` in
both branches.

## Main results

* `stepFooter_line_iff`.
-/

namespace Pscv.Mag

open Pscv.Lib

/-- The values that the emitted code reads where it runs. -/
structure Env where
  bool : String → Bool
  text : String → String
  /-- The trace file can be opened. -/
  traceGood : Bool
  /-- What a literal writes that has been pasted together around a text. -/
  literal : String → String

/-- A statement that writes to `outputstate`: a literal of the generator, the literal around
a label, an expression, or a label and literals that depend on a Boolean expression. -/
inductive Write
  | put (text : String)
  | paste (label : String)
  | print (expr : String)
  | ifElse (cond label : String) (thn els : List String)
  deriving DecidableEq

/-- A statement of the emitted code. A trace file that cannot be opened ends the
simulation. -/
inductive Stmt
  | write (w : Write)
  | openTrace (file : String)
  | sendStdout
  | sendTrace
  deriving DecidableEq

/-- What has been written to the stream, to stdout and to the trace file. -/
structure Out where
  outputstate : String
  cout : String
  tracefile : String
  deriving DecidableEq

/-- What a statement writes to the stream. -/
def Write.text (ρ : Env) : Write → String
  | put text => text
  | paste label => ρ.literal label
  | print expr => ρ.text expr
  | ifElse cond label thn els =>
      ρ.literal label ++ String.join (if ρ.bool cond then thn else els)

/-- What statements write to the stream. -/
def texts (ρ : Env) (ws : List Write) : String := String.join (ws.map (Write.text ρ))

/-- Run one statement; an error is `exit (1)`. -/
def Stmt.exec (ρ : Env) (out : Out) : Stmt → Except Out Out
  | write w => .ok { out with outputstate := out.outputstate ++ w.text ρ }
  | openTrace file =>
      if ρ.traceGood then .ok out
      else .error { out with
        cout := out.cout ++ "\n# plasma-error Unable to open " ++ ρ.literal file ++
          " for output. #\n\n" }
  | sendStdout => .ok { out with cout := out.cout ++ out.outputstate }
  | sendTrace => .ok { out with tracefile := out.tracefile ++ out.outputstate }

/-- Run the emitted code. -/
def run (ρ : Env) (code : List Stmt) (out : Out) : Except Out Out :=
  code.foldlM (Stmt.exec ρ) out

/-- The texts that a statement has in literals of their own. -/
def Write.pasted : Write → List String
  | put _ | print _ => []
  | paste label | ifElse _ label _ _ => [label]

def Stmt.pasted : Stmt → List String
  | write w => w.pasted
  | openTrace file => [file]
  | sendStdout | sendTrace => []

/-- What the literal around a text writes, as a C string. -/
def literalText (d : Dialect) (text : String) : Option String :=
  (denoted d text.toList).map fun w => String.ofList (cString w)

/-- The literals of the emitted code are read, and write what the environment says. -/
def Compiles (d : Dialect) (literal : String → String) (code : List Stmt) : Prop :=
  ∀ text ∈ code.flatMap Stmt.pasted, literalText d text = some (literal text)

/-! ## The generator -/

/-- The separator, when the generator emits it. -/
def sepIf (b : Bool) : List String := if b then [", "] else []

/-- The `if`/`else` that prints a Boolean, with the separator of each branch. -/
def traceBool (label cond : String) (afterTrue afterFalse : Bool) : List Write :=
  [.ifElse cond label ([" : ", "true"] ++ sepIf afterTrue)
    ([" : ", "false"] ++ sepIf afterFalse)]

/-- The statements that print an expression. -/
def traceExpr (label expr : String) (after : Bool) : List Write :=
  [.paste label, .put " : ", .print expr] ++ (sepIf after).map .put

/-- `++i` on an `unsigned int`. -/
def incr (i : ℕ) : ℕ := (i + 1) % 2 ^ 32

/-- The separator in front of a group. -/
def lead (nonempty comma : Bool) : List Write := if nonempty && comma then [.put ", "] else []

/-- The loop of `trace_attributes`. -/
def traceAttributesFrom (types : SSMap) (size : ℕ) :
    ℕ → List (String × String) → Option (List Write)
  | _, [] => some []
  | i, (label, attr) :: l =>
      match types.find label with
      | some type =>
          if type = "bool" then
            let i₁ := incr i
            let i₂ := incr i₁
            (traceAttributesFrom types size i₂ l).map fun ws =>
              traceBool label attr (i₁ < size) (i₂ < size) ++ ws
          else
            let i₁ := incr i
            (traceAttributesFrom types size i₁ l).map fun ws =>
              traceExpr label attr (i₁ < size) ++ ws
      | none => none

/-- `trace_attributes`. Without a type for some label the generator exits. -/
def traceAttributes (types attributes : SSMap) (comma : Bool) : Option (List Write) :=
  (traceAttributesFrom types attributes.toList.length 0 attributes.toList).map fun ws =>
    lead (!attributes.toList.isEmpty) comma ++ ws

/-- The loop of `trace_eventclocks`. -/
def traceEventclocksFrom (size : ℕ) : ℕ → List String → List Write
  | _, [] => []
  | i, label :: l =>
      let i₁ := incr i
      let i₂ := incr i₁
      traceBool label label (i₁ < size) (i₂ < size) ++ traceEventclocksFrom size i₂ l

/-- `trace_eventclocks`. -/
def traceEventclocks (labels : SSet) (comma : Bool) : List Write :=
  lead (!labels.toList.isEmpty) comma ++ traceEventclocksFrom labels.toList.length 0
    labels.toList

/-- The loop of the functions that index a vector. -/
def traceIndexedFrom (item : String → Bool → List Write) (size : ℕ) :
    ℕ → List String → List Write
  | _, [] => []
  | i, name :: l => item name (i < size - 1) ++ traceIndexedFrom item size (i + 1) l

/-- A function that indexes a vector with an `unsigned int`: with `2 ^ 32` elements the
loop does not end. -/
def traceIndexed (item : String → Bool → List Write) (names : List String) (comma : Bool) :
    Option (List Write) :=
  if names.length < 2 ^ 32 then
    some (lead (!names.isEmpty) comma ++ traceIndexedFrom item names.length 0 names)
  else none

/-- `trace_locations`. -/
def traceLocations (locs : List FuncLoc) : Bool → Option (List Write) :=
  traceIndexed (fun name after => traceBool name name after after) (locs.map FuncLoc.locName)

/-- `trace_plocations`. -/
def tracePlocations (plocs : List PLocation) : Bool → Option (List Write) :=
  traceIndexed (fun name after => traceBool name name after after)
    (plocs.map PLocation.locName)

/-- `trace_callbackvalues`. -/
def traceCallbackvalues (uv : List UserVal) : Bool → Option (List Write) :=
  traceIndexed (fun name after => traceExpr name name after) (uv.map UserVal.valName)

/-- `this_monitor_name`. -/
def monitorName (gp : GlobalParams) (mp : MonitorParams) : String :=
  gp.monName ++ toString mp.id

/-- The labels that are observed as event clocks. -/
def eventClockLabels (gp : GlobalParams) (mp : MonitorParams) : SSet :=
  gp.getEventClockLabelsSubset mp.clocks

/-- The statements between the head and the tail of a state. -/
def stepFooterBody (gp : GlobalParams) (mp : MonitorParams) : Option (List Write) := do
  let attributes := !gp.attributelabels.toList.isEmpty
  let clocks := !(eventClockLabels gp mp).toList.isEmpty
  let locs := !gp.funcLocs.isEmpty
  let plocs := !gp.plocations.isEmpty
  let a ← traceAttributes gp.attributetypes gp.attributelabels false
  let c := traceEventclocks (eventClockLabels gp mp) attributes
  let l ← traceLocations gp.funcLocs (attributes || clocks)
  let p ← tracePlocations gp.plocations (attributes || clocks || locs)
  let u ← traceCallbackvalues gp.userVals (attributes || clocks || locs || plocs)
  return a ++ c ++ l ++ p ++ u

/-- Something is observed. -/
def observesSome (gp : GlobalParams) (mp : MonitorParams) : Bool :=
  !gp.attributelabels.toList.isEmpty || !(eventClockLabels gp mp).toList.isEmpty ||
    !gp.funcLocs.isEmpty || !gp.plocations.isEmpty || !gp.userVals.isEmpty

/-- `this_trace_filename`. -/
def traceFileName (gp : GlobalParams) (mp : MonitorParams) : String :=
  monitorName gp mp ++ ".trace"

/-- The head of a state. -/
def stateHead : String := "\n# plasma-state [ ("

/-- The tail of a state. -/
def stateTail : String := " ] #\n\n"

/-- `step_footer`. -/
def stepFooter (gp : GlobalParams) (mp : MonitorParams) : Option (List Stmt) :=
  if observesSome gp mp then
    (stepFooterBody gp mp).map fun body =>
      [.write (.put stateHead)] ++
      (if gp.writeToFile then [.openTrace (traceFileName gp mp)] else []) ++
      body.map .write ++
      [.write (.put ")"), .write (.put " : "), .write (.print "sc_time_stamp()"),
        .write (.put stateTail), .sendStdout] ++
      (if gp.writeToFile then [.sendTrace] else [])
  else some []

/-! ## Pasted literals -/

/-- A text that the literal around it writes as it is. -/
def PlainLabel (text : String) : Prop := ∀ ch ∈ text.toList, IsPlain ch ∧ ch ≠ '\x00'

instance (text : String) : Decidable (PlainLabel text) := List.decidableBAll _ text.toList

theorem literalText_of_plain (d : Dialect) {text : String} (h : PlainLabel text) :
    literalText d text = some text := by
  have hseen : cString text.toList = text.toList :=
    List.takeWhile_eq_self_iff.mpr fun ch hch => decide_eq_true (h ch hch).2
  rw [literalText, denoted_of_plain d fun ch hch => (h ch hch).1, Option.map_some, hseen,
    String.ofList_toList]

/-- A pasted literal writes its text, or a shorter one. -/
theorem literalText_self_or_shorter {d : Dialect} {text w : String}
    (h : literalText d text = some w) :
    w = text ∧ PlainLabel text ∨ w.toList.length < text.toList.length := by
  obtain ⟨v, hv, rfl⟩ := Option.map_eq_some_iff.mp h
  rw [String.toList_ofList]
  have hseen : (cString v).length ≤ v.length := (List.takeWhile_prefix _).length_le
  rcases denoted_eq_some hv with ⟨rfl, hplain⟩ | hshorter
  · by_cases hnul : '\x00' ∈ text.toList
    · refine .inr (lt_of_le_of_ne hseen fun hlen => ?_)
      have hself := (List.takeWhile_prefix _).eq_of_length hlen
      have hne := List.takeWhile_eq_self_iff.mp hself _ hnul
      simp at hne
    · have hne : ∀ ch ∈ text.toList, ch ≠ '\x00' := fun ch hch heq => hnul (heq ▸ hch)
      have hself : cString text.toList = text.toList :=
        List.takeWhile_eq_self_iff.mpr fun ch hch => decide_eq_true (hne ch hch)
      exact .inl ⟨by rw [hself, String.ofList_toList], fun ch hch =>
        ⟨hplain ch hch, hne ch hch⟩⟩
  · exact .inr (hseen.trans_lt hshorter)

/-- The literals that can be read determine what they write. -/
theorem exists_literal (d : Dialect) : ∃ literal : String → String, ∀ text,
    (literalText d text).isSome → literalText d text = some (literal text) := by
  refine ⟨fun text => (literalText d text).getD "", fun text htext => ?_⟩
  obtain ⟨w, hw⟩ := Option.isSome_iff_exists.mp htext
  simp only [hw, Option.getD_some]

/-! ## What the emitted code prints -/

section Texts
variable {ρ : Env}

@[simp] theorem texts_nil : texts ρ [] = "" := rfl

@[simp] theorem texts_append (ws ws' : List Write) :
    texts ρ (ws ++ ws') = texts ρ ws ++ texts ρ ws' := by
  simp [texts]

/-- The text of a Boolean. -/
def boolText (b : Bool) : String := if b then "true" else "false"

/-- A pair as it is printed. -/
def pairText (p : String × String) : String := p.1 ++ " : " ++ p.2

/-- A separator or nothing, as characters. -/
private theorem join_sepIf (b : Bool) :
    (String.join (sepIf b)).toList = (List.replicate
      (if b then 1 else 0) ", ".toList).flatten := by
  cases b <;> rfl

theorem texts_traceBool (label cond : String) (t f : Bool) :
    (texts ρ (traceBool label cond t f)).toList
      = (pairText (ρ.literal label, boolText (ρ.bool cond))).toList
        ++ (List.replicate (if (if ρ.bool cond then t else f) then 1 else 0)
          ", ".toList).flatten := by
  rw [← join_sepIf]
  cases h : ρ.bool cond <;> simp [texts, traceBool, Write.text, pairText, boolText, h]

theorem texts_traceExpr (label expr : String) (after : Bool) :
    (texts ρ (traceExpr label expr after)).toList
      = (pairText (ρ.literal label, ρ.text expr)).toList
        ++ (List.replicate (if after then 1 else 0) ", ".toList).flatten := by
  rw [← join_sepIf]
  cases after <;> simp [texts, traceExpr, Write.text, pairText, sepIf]

theorem texts_lead (nonempty comma : Bool) :
    (texts ρ (lead nonempty comma)).toList = if nonempty && comma then ", ".toList
      else [] := by
  cases nonempty <;> cases comma <;> rfl

end Texts

/-! ### Counting in both branches -/

section Counter
variable {β : Type*} (isBool truth : β → Bool) (item : β → List Char) (size : ℕ)

/-- The counter that the separator after an item is decided with, from a counter of `j`. -/
def tested (j : ℕ) (a : β) : ℕ := j + 1 + (isBool a && !truth a).toNat

/-- The items of a group whose counter starts at `j`, with their separators. -/
def countedFrom : ℕ → List β → List (List Char × ℕ)
  | _, [] => []
  | j, a :: l =>
      (item a, if tested isBool truth j a % 2 ^ 32 < size then 1 else 0) ::
        countedFrom (j + 1 + (isBool a).toNat) l

/-- No item before the last two is Boolean, and one before the last is not a false one. -/
def BoolsLast : List β → Prop
  | [] | [_] => True
  | [a, _] => isBool a → truth a
  | a :: l => isBool a = false ∧ BoolsLast l

/-- How far the counter runs ahead of the items when the last separator is decided. -/
def ahead : List β → ℕ
  | [] => 0
  | [a] => (isBool a && !truth a).toNat
  | a :: l => (isBool a).toNat + ahead l

/-- The condition for the separators of a group. -/
def SpacedGroup (l : List β) : Prop :=
  BoolsLast isBool truth l ∧ l.length + ahead isBool truth l < 2 ^ 32

theorem isEmpty_countedFrom (j : ℕ) (l : List β) :
    (countedFrom isBool truth item size j l).isEmpty = l.isEmpty := by
  cases l <;> rfl

theorem map_fst_countedFrom (j : ℕ) (l : List β) :
    (countedFrom isBool truth item size j l).map Prod.fst = l.map item := by
  induction l generalizing j with
  | nil => rfl
  | cons a l ih => simp [countedFrom, ih]

theorem spaced_countedFrom {j : ℕ} {l : List β} (hl : l ≠ []) (h : size ≤ j + l.length)
    (h' : j + 2 * l.length ≤ 2 * size) :
    Spaced ((countedFrom isBool truth item size j l).map Prod.snd)
      ↔ j + l.length + ahead isBool truth l < 2 ^ 32 ∧
        (l.length = 1 ∨ j + l.length = size ∧ BoolsLast isBool truth l) := by
  induction l generalizing j with
  | nil => exact absurd rfl hl
  | cons a l ih =>
      have ht : (isBool a && !truth a).toNat ≤ (isBool a).toNat := by
        cases isBool a <;> cases truth a <;> decide
      have hb : (isBool a).toNat ≤ 1 := Bool.toNat_le _
      cases l with
      | nil =>
          simp only [List.length_singleton] at h h'
          simp only [countedFrom, ahead, List.map_cons, List.map_nil, spaced_singleton,
            List.length_singleton, true_or, and_true, ite_eq_right_iff, one_ne_zero, imp_false,
            not_lt]
          rw [tested]
          omega
      | cons b l =>
          simp only [List.length_cons] at h h'
          have ih := ih (j := j + 1 + (isBool a).toNat) (by simp) (by simp; omega)
            (by simp; omega)
          have hcons : ∀ j, (countedFrom isBool truth item size j (b :: l)).map Prod.snd
              = (if tested isBool truth j b % 2 ^ 32 < size then 1 else 0) ::
                (countedFrom isBool truth item size (j + 1 + (isBool b).toNat) l).map
                  Prod.snd :=
            fun j => rfl
          rw [countedFrom, List.map_cons, hcons, spaced_cons_cons, ← hcons, ih]
          simp only [ite_eq_left_iff, zero_ne_one, imp_false, not_not, List.length_cons]
          rw [tested]
          cases l with
          | nil =>
              simp only [BoolsLast, ahead, List.length_nil] at h h' ⊢
              cases isBool a <;> cases truth a <;> simp <;> omega
          | cons c l =>
              simp only [BoolsLast, ahead, List.length_cons] at h h' ⊢
              cases isBool a with
              | false =>
                  simp only [Bool.false_and, Bool.toNat_false, true_and]
                  constructor
                  · rintro ⟨_, hlt, hone | ⟨hsize, hlate⟩⟩
                    · omega
                    · exact ⟨by omega, .inr ⟨by omega, hlate⟩⟩
                  · rintro ⟨hlt, hone | ⟨hsize, hlate⟩⟩
                    · omega
                    · exact ⟨by omega, by omega, .inr ⟨by omega, hlate⟩⟩
              | true =>
                  simp only [Bool.toNat_true, Bool.true_eq_false, false_and, and_false,
                    or_false]
                  constructor
                  · rintro ⟨_, _, hone | ⟨hsize, _⟩⟩ <;> omega
                  · rintro ⟨_, hone⟩
                    omega

/-- The separators of a whole group. -/
theorem spaced_countedFrom_zero (l : List β) :
    Spaced ((countedFrom isBool truth item l.length 0 l).map Prod.snd)
      ↔ SpacedGroup isBool truth l := by
  by_cases hl : l = []
  · subst hl
    simp [countedFrom, SpacedGroup, BoolsLast, ahead]
  · rw [spaced_countedFrom isBool truth item l.length hl (by omega) (by omega), SpacedGroup,
      and_comm, Nat.zero_add]
    refine and_congr_left fun _ => ?_
    constructor
    · rintro (hone | ⟨_, hlast⟩)
      · obtain ⟨a, rfl⟩ := List.length_eq_one_iff.mp hone
        trivial
      · exact hlast
    · exact fun hlast => .inr ⟨rfl, hlast⟩

end Counter

/-- The items of a vector, with the separators that the index gives. -/
def indexedFrom (x : String → List Char) (size : ℕ) : ℕ → List String → List (List Char × ℕ)
  | _, [] => []
  | i, name :: l => (x name, if i < size - 1 then 1 else 0) :: indexedFrom x size (i + 1) l

theorem isEmpty_indexedFrom (x : String → List Char) (size i : ℕ) (l : List String) :
    (indexedFrom x size i l).isEmpty = l.isEmpty := by
  cases l <;> rfl

theorem map_fst_indexedFrom (x : String → List Char) (size i : ℕ) (l : List String) :
    (indexedFrom x size i l).map Prod.fst = l.map x := by
  induction l generalizing i with
  | nil => rfl
  | cons name l ih => simp [indexedFrom, ih]

/-- The index of a vector decides every separator right. -/
theorem spaced_indexedFrom (x : String → List Char) {size i : ℕ} {l : List String}
    (h : i + l.length = size) : Spaced ((indexedFrom x size i l).map Prod.snd) := by
  induction l generalizing i with
  | nil => trivial
  | cons name l ih =>
      simp only [List.length_cons] at h
      cases l with
      | nil =>
          simp only [List.length_nil] at h
          simp only [indexedFrom, List.map_cons, List.map_nil, spaced_singleton,
            ite_eq_right_iff]
          omega
      | cons name' l =>
          have ih := ih (i := i + 1) (by simp at h ⊢; omega)
          simp only [List.length_cons] at h
          refine ⟨if_pos (by omega), ih⟩

/-! ### The groups -/

section Groups
variable {ρ : Env}

/-- An attribute has type `bool`. -/
def isBoolAttr (types : SSMap) (p : String × String) : Bool := types.find p.1 = some "bool"

/-- An attribute label and its printed value. -/
def attributeItem (ρ : Env) (types : SSMap) (p : String × String) : String × String :=
  (p.1, if isBoolAttr types p then boolText (ρ.bool p.2) else ρ.text p.2)

/-- A label that is printed as a Boolean. -/
def boolItem (ρ : Env) (name : String) : String × String := (name, boolText (ρ.bool name))

/-- A name that is printed with its value. -/
def exprItem (ρ : Env) (name : String) : String × String := (name, ρ.text name)

/-- A pair as the emitted code writes it, with the label that its literal denotes. -/
def written (ρ : Env) (p : String × String) : String × String := (ρ.literal p.1, p.2)

/-- What is observed, in the order of generation. -/
def observed (ρ : Env) (gp : GlobalParams) (mp : MonitorParams) : List (String × String) :=
  gp.attributelabels.toList.map (attributeItem ρ gp.attributetypes) ++
  (eventClockLabels gp mp).toList.map (boolItem ρ) ++
  (gp.funcLocs.map FuncLoc.locName).map (boolItem ρ) ++
  (gp.plocations.map PLocation.locName).map (boolItem ρ) ++
  (gp.userVals.map UserVal.valName).map (exprItem ρ)

/-- A separator. -/
def sep : List Char := ", ".toList

/-- The characters of a printed pair. -/
def chars (p : String × String) : List Char := (pairText p).toList

/-- The characters that are written for a pair. -/
def writtenChars (ρ : Env) (p : String × String) : List Char := chars (written ρ p)

theorem incr_mod (j : ℕ) : incr (j % 2 ^ 32) = (j + 1) % 2 ^ 32 := by
  simp [incr, Nat.add_mod]

theorem texts_traceAttributesFrom {types : SSMap} {size j : ℕ} {l : List (String × String)}
    {ws : List Write} (h : traceAttributesFrom types size (j % 2 ^ 32) l = some ws) :
    (texts ρ ws).toList = weave sep (countedFrom (isBoolAttr types) (fun p => ρ.bool p.2)
      (fun p => writtenChars ρ (attributeItem ρ types p)) size j l) := by
  induction l generalizing j ws with
  | nil =>
      simp only [traceAttributesFrom, Option.some.injEq] at h
      subst h
      rfl
  | cons p l ih =>
      obtain ⟨label, attr⟩ := p
      cases hfind : types.find label with
      | none => simp [traceAttributesFrom, hfind] at h
      | some type =>
          simp only [traceAttributesFrom, hfind, incr_mod] at h
          rw [countedFrom, weave_cons]
          by_cases hbool : type = "bool"
          · have hb : isBoolAttr types (label, attr) = true := by
              simp [isBoolAttr, hfind, hbool]
            rw [if_pos hbool] at h
            obtain ⟨ws', hws, rfl⟩ := Option.map_eq_some_iff.mp h
            rw [texts_append, String.toList_append, ih hws, texts_traceBool]
            cases hv : ρ.bool attr <;> simp [tested, hb, hv, writtenChars, written, chars,
              attributeItem, sep]
          · have hb : isBoolAttr types (label, attr) = false := by
              simp [isBoolAttr, hfind, hbool]
            rw [if_neg hbool] at h
            obtain ⟨ws', hws, rfl⟩ := Option.map_eq_some_iff.mp h
            rw [texts_append, String.toList_append, ih hws, texts_traceExpr]
            simp [tested, hb, writtenChars, written, chars, attributeItem, sep]

theorem texts_traceEventclocksFrom (size j : ℕ) (l : List String) :
    (texts ρ (traceEventclocksFrom size (j % 2 ^ 32) l)).toList
      = weave sep (countedFrom (fun _ => true) ρ.bool (fun name =>
        writtenChars ρ (boolItem ρ name))
        size j l) := by
  induction l generalizing j with
  | nil => rfl
  | cons label l ih =>
      simp only [traceEventclocksFrom, incr_mod, countedFrom, weave_cons, texts_append,
        String.toList_append, ih, texts_traceBool]
      cases hv : ρ.bool label <;> simp [tested, hv, writtenChars, written, chars,
        boolItem, sep]

theorem texts_traceIndexedFrom {item : String → Bool → List Write} {x : String → List Char}
    (hitem : ∀ name after, (texts ρ (item name after)).toList
      = x name ++ (List.replicate (if after then 1 else 0) sep).flatten)
    (size i : ℕ) (l : List String) :
    (texts ρ (traceIndexedFrom item size i l)).toList = weave sep
      (indexedFrom x size i l) := by
  induction l generalizing i with
  | nil => rfl
  | cons name l ih =>
      simp [traceIndexedFrom, indexedFrom, hitem, ih]

/-- The five groups with their separators. -/
def footerGroups (ρ : Env) (gp : GlobalParams) (mp : MonitorParams) :
    List (List (List Char × ℕ)) :=
  [countedFrom (isBoolAttr gp.attributetypes) (fun p => ρ.bool p.2)
      (fun p => writtenChars ρ (attributeItem ρ gp.attributetypes p))
        gp.attributelabels.toList.length 0
      gp.attributelabels.toList,
    countedFrom (fun _ => true) ρ.bool (fun name => writtenChars ρ (boolItem ρ name))
      (eventClockLabels gp mp).toList.length 0 (eventClockLabels gp mp).toList,
    indexedFrom (fun name => writtenChars ρ (boolItem ρ name)) gp.funcLocs.length 0
      (gp.funcLocs.map FuncLoc.locName),
    indexedFrom (fun name => writtenChars ρ (boolItem ρ name)) gp.plocations.length 0
      (gp.plocations.map PLocation.locName),
    indexedFrom (fun name => writtenChars ρ (exprItem ρ name)) gp.userVals.length 0
      (gp.userVals.map UserVal.valName)]

theorem map_fst_footerGroups (gp : GlobalParams) (mp : MonitorParams) :
    ((footerGroups ρ gp mp).flatMap fun l => l.map Prod.fst) =
      (observed ρ gp mp).map (writtenChars ρ) := by
  simp [footerGroups, observed, map_fst_countedFrom, map_fst_indexedFrom]
  rfl

/-- Every attribute label has a type. -/
def Typed (gp : GlobalParams) : Prop :=
  ∀ p ∈ gp.attributelabels.toList, (gp.attributetypes.find p.1).isSome

/-- The vectors are shorter than an `unsigned int` can count. -/
def Indexable (gp : GlobalParams) : Prop :=
  gp.funcLocs.length < 2 ^ 32 ∧ gp.plocations.length < 2 ^ 32 ∧ gp.userVals.length < 2 ^ 32

theorem traceAttributesFrom_isSome {types : SSMap} {size i : ℕ} {l : List (String × String)} :
    (traceAttributesFrom types size i l).isSome ↔ ∀ p ∈ l, (types.find p.1).isSome := by
  induction l generalizing i with
  | nil => simp [traceAttributesFrom]
  | cons p l ih =>
      obtain ⟨label, attr⟩ := p
      cases hfind : types.find label with
      | none => simp [traceAttributesFrom, hfind]
      | some type =>
          simp only [traceAttributesFrom, hfind, List.forall_mem_cons, Option.isSome_some,
            true_and, ← ih (i := if type = "bool" then incr (incr i) else incr i)]
          split_ifs <;> simp

theorem texts_traceAttributes {types attributes : SSMap} {comma : Bool} {ws : List Write}
    (h : traceAttributes types attributes comma = some ws) :
    (texts ρ ws).toList = (if !attributes.toList.isEmpty && comma then sep else [])
      ++ weave sep (countedFrom (isBoolAttr types) (fun p => ρ.bool p.2)
        (fun p => writtenChars ρ (attributeItem ρ types p)) attributes.toList.length 0
        attributes.toList) := by
  obtain ⟨ws', hws, rfl⟩ := Option.map_eq_some_iff.mp h
  rw [texts_append, String.toList_append, texts_traceAttributesFrom (j := 0) hws, texts_lead]
  rfl

theorem texts_traceEventclocks (labels : SSet) (comma : Bool) :
    (texts ρ (traceEventclocks labels comma)).toList
      = (if !labels.toList.isEmpty && comma then sep else [])
        ++ weave sep (countedFrom (fun _ => true) ρ.bool (fun name =>
          writtenChars ρ (boolItem ρ name))
          labels.toList.length 0 labels.toList) := by
  rw [traceEventclocks, texts_append, String.toList_append, texts_lead]
  exact congrArg _ (texts_traceEventclocksFrom labels.toList.length 0 labels.toList)

section Indexed
variable {item : String → Bool → List Write} {names : List String} {comma : Bool}

theorem traceIndexed_isSome : (traceIndexed item names comma).isSome ↔
    names.length < 2 ^ 32 := by
  rw [traceIndexed]
  split_ifs with h <;> simp only [h, Option.isSome_some, Option.isSome_none,
    Bool.false_eq_true]

/-- A group over a vector, with its leading separator. -/
theorem texts_traceIndexed {x : String → List Char} {ws : List Write}
    (hitem : ∀ name after, (texts ρ (item name after)).toList
      = x name ++ (List.replicate (if after then 1 else 0) sep).flatten)
    (h : traceIndexed item names comma = some ws) :
    (texts ρ ws).toList = (if !names.isEmpty && comma then sep else [])
      ++ weave sep (indexedFrom x names.length 0 names) := by
  rw [traceIndexed] at h
  split_ifs at h
  obtain rfl := Option.some.inj h
  rw [texts_append, String.toList_append, texts_traceIndexedFrom hitem, texts_lead]
  rfl

end Indexed

private theorem isSome_bind_iff {β γ : Type} {x : Option β} {f : β → Option γ} {P : Prop}
    (h : ∀ b, (f b).isSome ↔ P) : (x.bind f).isSome ↔ x.isSome ∧ P := by
  cases x with
  | none => simp
  | some b => simp [h]

/-- Code is emitted exactly for typed attributes and countable vectors. -/
theorem stepFooterBody_isSome {gp : GlobalParams} {mp : MonitorParams} :
    (stepFooterBody gp mp).isSome ↔ Typed gp ∧ Indexable gp := by
  have hattr : (traceAttributes gp.attributetypes gp.attributelabels false).isSome ↔
    Typed gp := by
    rw [traceAttributes, Option.isSome_map, traceAttributesFrom_isSome]
    rfl
  rw [← hattr, Indexable, ← List.length_map FuncLoc.locName,
    ← List.length_map PLocation.locName, ← List.length_map UserVal.valName,
    ← and_true (List.length (gp.userVals.map _) < _)]
  refine isSome_bind_iff fun a => ?_
  refine (isSome_bind_iff fun l => ?_).trans (and_congr_left' traceIndexed_isSome)
  refine (isSome_bind_iff fun p => ?_).trans (and_congr_left' traceIndexed_isSome)
  refine (isSome_bind_iff fun u => ?_).trans (and_congr_left' traceIndexed_isSome)
  exact iff_of_true rfl trivial

/-- **The emitted body prints the groups.** -/
theorem texts_stepFooterBody {gp : GlobalParams} {mp : MonitorParams} {ws : List Write}
    (h : stepFooterBody gp mp = some ws) :
    (texts ρ ws).toList = groups sep false (footerGroups ρ gp mp) := by
  simp only [stepFooterBody, traceLocations, tracePlocations, traceCallbackvalues,
    Option.bind_eq_bind, Option.bind_eq_some_iff, Option.pure_def, Option.some.injEq] at h
  obtain ⟨a, ha, l, hl, p, hp, u, hu, rfl⟩ := h
  have hexpr : ∀ name after, (texts ρ (traceExpr name name after)).toList
      = writtenChars ρ (exprItem ρ name) ++
        (List.replicate (if after then 1 else 0) sep).flatten :=
    fun name after => texts_traceExpr name name after
  have hbool : ∀ name after, (texts ρ (traceBool name name after after)).toList
      = writtenChars ρ (boolItem ρ name) ++
        (List.replicate (if after then 1 else 0) sep).flatten := by
    intro name after
    simp [texts_traceBool, writtenChars, written, chars, boolItem, sep]
  have ha := texts_traceAttributes (ρ := ρ) ha
  have hl := texts_traceIndexed hbool hl
  have hp := texts_traceIndexed hbool hp
  have hu := texts_traceIndexed hexpr hu
  simp only [texts_append, String.toList_append, ha, texts_traceEventclocks, hl, hp, hu]
  simp [footerGroups, groups, isEmpty_countedFrom, isEmpty_indexedFrom]

/-- The separators of the two groups that count in both branches come out right. -/
def SpacedStep (ρ : Env) (gp : GlobalParams) (mp : MonitorParams) : Prop :=
  SpacedGroup (isBoolAttr gp.attributetypes) (fun p => ρ.bool p.2) gp.attributelabels.toList ∧
    SpacedGroup (fun _ => true) ρ.bool (eventClockLabels gp mp).toList

/-- The body prints the pairs as they are written, exactly when its groups are spaced. -/
theorem texts_eq_written_iff {gp : GlobalParams} {mp : MonitorParams} {ws : List Write}
    (h : stepFooterBody gp mp = some ws) :
    (texts ρ ws).toList = sep.intercalate ((observed ρ gp mp).map (writtenChars ρ)) ↔
      SpacedStep ρ gp mp := by
  have hfst : (attach (footerGroups ρ gp mp)).map Prod.fst =
      (observed ρ gp mp).map (writtenChars ρ) := by
    rw [map_fst_attach, map_fst_footerGroups]
  have hcolon : ∀ p ∈ attach (footerGroups ρ gp mp), ':' ∈ p.1 := by
    intro p hp
    obtain ⟨q, -, hq⟩ := List.mem_map.mp (hfst ▸ List.mem_map_of_mem (f := Prod.fst) hp)
    simp [← hq, writtenChars, chars, pairText]
  rw [texts_stepFooterBody h, groups_eq_weave, ← hfst]
  simp only [Bool.false_eq_true, false_and, if_false, List.nil_append]
  rw [weave_eq_intercalate_iff (by decide) (by decide) _ hcolon, spaced_attach_iff]
  have hindexed : ∀ {β : Type} (x : String → List Char) (name : β → String) (l : List β),
      Spaced ((indexedFrom x l.length 0 (l.map name)).map Prod.snd) :=
    fun x name l => spaced_indexedFrom x (by simp)
  simp [footerGroups, spaced_countedFrom_zero, hindexed, SpacedStep]

theorem toList_intercalate_pairs (ps : List (String × String)) :
    (", ".intercalate (ps.map pairText)).toList = sep.intercalate (ps.map chars) := by
  rw [String.toList_intercalate, List.map_map]
  rfl

/-- A separated body has lost no character of a label. -/
theorem written_eq_of_texts_eq {d : Dialect} {gp : GlobalParams} {mp : MonitorParams}
    {ws : List Write} (h : stepFooterBody gp mp = some ws)
    (hliteral : ∀ p ∈ observed ρ gp mp, literalText d p.1 = some (ρ.literal p.1))
    (hwords : ∀ p ∈ observed ρ gp mp, ' ' ∉ p.1.toList)
    (heq : texts ρ ws = ", ".intercalate ((observed ρ gp mp).map pairText)) :
    (observed ρ gp mp).map (writtenChars ρ) = (observed ρ gp mp).map chars := by
  have hfst : (attach (footerGroups ρ gp mp)).map Prod.fst =
      (observed ρ gp mp).map (writtenChars ρ) := by
    rw [map_fst_attach, map_fst_footerGroups]
  have hrelabelled : List.Forall₂ (Relabelled ' ' ':') ((observed ρ gp mp).map chars)
      ((attach (footerGroups ρ gp mp)).map Prod.fst) := by
    rw [hfst, List.forall₂_map_left_iff, List.forall₂_map_right_iff, List.forall₂_same]
    intro p hp
    refine ⟨p.1.toList, (ρ.literal p.1).toList, p.2.toList, ?_, ?_, hwords p hp, ?_⟩
    · simp [chars, pairText]
    · simp [writtenChars, written, chars, pairText]
    · rcases literalText_self_or_shorter (hliteral p hp) with ⟨hself, -⟩ | hshorter
      · exact .inl (congrArg _ hself)
      · exact .inr hshorter
  have hweave : weave [',', ' '] (attach (footerGroups ρ gp mp)) =
      [',', ' '].intercalate ((observed ρ gp mp).map chars) := by
    have htoList := congrArg String.toList heq
    rw [texts_stepFooterBody h, groups_eq_weave, toList_intercalate_pairs] at htoList
    simp only [Bool.false_eq_true, false_and, if_false, List.nil_append] at htoList
    exact htoList
  rw [← hfst]
  exact map_fst_eq_of_weave_eq (by decide) (by decide) (by decide) hrelabelled hweave

/-- **The body prints the separated pairs exactly when its groups are spaced and the labels
are plain.** -/
theorem texts_stepFooterBody_eq_iff {d : Dialect} {gp : GlobalParams} {mp : MonitorParams}
    {ws : List Write} (h : stepFooterBody gp mp = some ws)
    (hliteral : ∀ p ∈ observed ρ gp mp, literalText d p.1 = some (ρ.literal p.1))
    (hwords : ∀ p ∈ observed ρ gp mp, ' ' ∉ p.1.toList) :
    texts ρ ws = ", ".intercalate ((observed ρ gp mp).map pairText) ↔
      SpacedStep ρ gp mp ∧ ∀ p ∈ observed ρ gp mp, PlainLabel p.1 := by
  constructor
  · intro heq
    have hwritten := written_eq_of_texts_eq h hliteral hwords heq
    constructor
    · rw [← texts_eq_written_iff h, hwritten, ← toList_intercalate_pairs, heq]
    · intro p hp
      rcases literalText_self_or_shorter (hliteral p hp) with ⟨-, hplain⟩ | hshorter
      · exact hplain
      · have hlen := congrArg List.length (List.map_inj_left.mp hwritten p hp)
        simp only [writtenChars, written, chars, pairText, String.toList_append,
          List.length_append] at hlen
        omega
  · rintro ⟨hspaced, hplain⟩
    rw [← String.toList_inj, toList_intercalate_pairs, (texts_eq_written_iff h).mpr hspaced]
    refine congrArg _ (List.map_congr_left fun p hp => ?_)
    have hself := (hliteral p hp).symm.trans (literalText_of_plain d (hplain p hp))
    rw [writtenChars, written, Option.some.inj hself]

/-! ### The literals of the body -/

/-- What is collected from the statements of an item: a part that depends on the label and
the condition of a Boolean one, and one that depends on the label and the expression of
another one. -/
structure Collects (f : Write → List String) (ofBool ofExpr : String → String → List String) :
    Prop where
  put : ∀ text, f (.put text) = []
  bool : ∀ label cond thn els, f (.ifElse cond label thn els) = ofBool label cond
  expr : ∀ label expr, f (.paste label) ++ f (.print expr) = ofExpr label expr

section Collects
variable {f : Write → List String} {ofBool ofExpr : String → String → List String}

theorem Collects.lead (hf : Collects f ofBool ofExpr) (nonempty comma : Bool) :
    (lead nonempty comma).flatMap f = [] := by
  cases nonempty <;> cases comma <;> simp [Mag.lead, hf.put]

theorem Collects.traceBool (hf : Collects f ofBool ofExpr) (label cond : String)
    (b b' : Bool) :
    (traceBool label cond b b').flatMap f = ofBool label cond := by
  simp [Mag.traceBool, hf.bool]

theorem Collects.traceExpr (hf : Collects f ofBool ofExpr) (label expr : String)
    (after : Bool) :
    (traceExpr label expr after).flatMap f = ofExpr label expr := by
  cases after <;> simp [Mag.traceExpr, sepIf, hf.put, hf.expr]

theorem Collects.traceAttributesFrom (hf : Collects f ofBool ofExpr) {types : SSMap}
    {size i : ℕ}
    {l : List (String × String)} {ws : List Write}
    (h : traceAttributesFrom types size i l = some ws) :
    ws.flatMap f = l.flatMap fun p =>
      if isBoolAttr types p then ofBool p.1 p.2 else ofExpr p.1 p.2 := by
  induction l generalizing i ws with
  | nil =>
      rw [← Option.some.inj h]
      rfl
  | cons p l ih =>
      obtain ⟨label, attr⟩ := p
      rw [Mag.traceAttributesFrom] at h
      cases htype : types.find label with
      | none => simp [htype] at h
      | some type =>
          simp only [htype] at h
          have hbool : isBoolAttr types (label, attr) = decide (type = "bool") := by
            simp [isBoolAttr, htype]
          rw [List.flatMap_cons, hbool]
          split_ifs at h with htrue
          · obtain ⟨ws', hws', rfl⟩ := Option.map_eq_some_iff.mp h
            rw [List.flatMap_append, hf.traceBool, ih hws', if_pos (decide_eq_true htrue)]
          · obtain ⟨ws', hws', rfl⟩ := Option.map_eq_some_iff.mp h
            rw [List.flatMap_append, hf.traceExpr, ih hws', if_neg (by simpa using htrue)]

theorem Collects.traceEventclocksFrom (hf : Collects f ofBool ofExpr) (size i : ℕ)
    (labels : List String) : (traceEventclocksFrom size i labels).flatMap f =
      labels.flatMap fun label => ofBool label label := by
  induction labels generalizing i with
  | nil => rfl
  | cons label labels ih =>
      rw [Mag.traceEventclocksFrom, List.flatMap_append, hf.traceBool, ih, List.flatMap_cons]

theorem Collects.traceIndexedFrom {item : String → Bool → List Write}
    {part : String → List String}
    (hitem : ∀ name after, (item name after).flatMap f = part name) (size i : ℕ)
    (names : List String) :
    (traceIndexedFrom item size i names).flatMap f = names.flatMap part := by
  induction names generalizing i with
  | nil => rfl
  | cons name names ih =>
      rw [Mag.traceIndexedFrom, List.flatMap_append, hitem, ih, List.flatMap_cons]

theorem Collects.traceIndexed (hf : Collects f ofBool ofExpr)
    {item : String → Bool → List Write} {part : String → List String}
    (hitem : ∀ name after, (item name after).flatMap f = part name)
    {names : List String} {comma : Bool} {ws : List Write}
    (h : traceIndexed item names comma = some ws) : ws.flatMap f = names.flatMap part := by
  rw [Mag.traceIndexed] at h
  split_ifs at h
  rw [← Option.some.inj h, List.flatMap_append, hf.lead, traceIndexedFrom hitem,
    List.nil_append]

/-- **What is collected from the body.** -/
theorem Collects.stepFooterBody (hf : Collects f ofBool ofExpr) {gp : GlobalParams}
    {mp : MonitorParams} {ws : List Write} (h : stepFooterBody gp mp = some ws) :
    ws.flatMap f = (gp.attributelabels.toList.flatMap fun p =>
        if isBoolAttr gp.attributetypes p then ofBool p.1 p.2 else ofExpr p.1 p.2) ++
      (((eventClockLabels gp mp).toList ++ gp.funcLocs.map FuncLoc.locName ++
        gp.plocations.map PLocation.locName).flatMap fun label => ofBool label label) ++
      (gp.userVals.map UserVal.valName).flatMap fun label => ofExpr label label := by
  rw [Mag.stepFooterBody] at h
  obtain ⟨a, ha, h⟩ := Option.bind_eq_some_iff.mp h
  obtain ⟨l, hl, h⟩ := Option.bind_eq_some_iff.mp h
  obtain ⟨p, hp, h⟩ := Option.bind_eq_some_iff.mp h
  obtain ⟨u, hu, h⟩ := Option.bind_eq_some_iff.mp h
  rw [traceAttributes] at ha
  obtain ⟨a', ha', rfl⟩ := Option.map_eq_some_iff.mp ha
  rw [← Option.some.inj h]
  simp only [List.flatMap_append, hf.lead, hf.traceAttributesFrom ha', traceEventclocks,
    hf.traceEventclocksFrom, hf.traceIndexed (fun name after => hf.traceBool name name _ _) hl,
    hf.traceIndexed (fun name after => hf.traceBool name name _ _) hp,
    hf.traceIndexed (fun name after => hf.traceExpr name name _) hu, List.nil_append,
    List.append_assoc]

end Collects

theorem collects_pasted : Collects Write.pasted (fun label _ => [label]) fun label _ =>
    [label] :=
  ⟨fun _ => rfl, fun _ _ _ _ => rfl, fun _ _ => rfl⟩

/-- The literals that the emitted code pastes together. -/
theorem mem_pasted_stepFooter {gp : GlobalParams} {mp : MonitorParams} {code : List Stmt}
    (h : stepFooter gp mp = some code) (hsome : observesSome gp mp) (ρ : Env) (text : String) :
    text ∈ code.flatMap Stmt.pasted ↔
      (∃ p ∈ observed ρ gp mp, p.1 = text) ∨ gp.writeToFile ∧ text = traceFileName gp mp := by
  rw [stepFooter, if_pos hsome] at h
  obtain ⟨body, hbody, rfl⟩ := Option.map_eq_some_iff.mp h
  have hwrites : (body.map Stmt.write).flatMap Stmt.pasted = body.flatMap Write.pasted :=
    List.flatMap_map _ _ _
  have hlabels : body.flatMap Write.pasted = (observed ρ gp mp).map Prod.fst := by
    rw [collects_pasted.stepFooterBody hbody]
    simp [observed, Function.comp_def, attributeItem, boolItem, exprItem,
      ← List.map_eq_flatMap]
  have hmem : (∃ p ∈ observed ρ gp mp, p.1 = text) ↔ text ∈ body.flatMap Write.pasted := by
    rw [hlabels, List.mem_map]
  rw [hmem]
  cases gp.writeToFile <;>
    simp [hwrites, Stmt.pasted, Write.pasted, traceFileName, or_comm]

end Groups

/-! ### The printed line -/

section Run
variable {ρ : Env}

@[simp] theorem run_nil (out : Out) : run ρ [] out = .ok out := rfl

@[simp] theorem run_cons (s : Stmt) (code : List Stmt) (out : Out) :
    run ρ (s :: code) out = (s.exec ρ out >>= run ρ code) := rfl

@[simp] theorem ok_bind (out : Out) (f : Out → Except Out Out) : (.ok out >>= f) = f out := rfl

@[simp] theorem error_bind (out : Out) (f : Out → Except Out Out) :
    (.error out >>= f) = .error out := rfl

@[simp] theorem run_append (code code' : List Stmt) (out : Out) :
    run ρ (code ++ code') out = run ρ code out >>= run ρ code' :=
  List.foldlM_append

theorem run_writes (ws : List Write) (out : Out) :
    run ρ (ws.map .write) out
      = .ok { out with outputstate := out.outputstate ++ texts ρ ws } := by
  induction ws generalizing out with
  | nil => simp
  | cons w ws ih => simp [Stmt.exec, ih, texts, String.append_assoc]

/-- The line of a state at a time. -/
def stateLine (time body : String) : String :=
  stateHead ++ body ++ ")" ++ " : " ++ time ++ stateTail

/-- **The emitted code sends one line, with the body between the brackets.** -/
theorem run_stepFooter {gp : GlobalParams} {mp : MonitorParams} {body : List Write}
    (h : stepFooterBody gp mp = some body) (hsome : observesSome gp mp)
    (hopen : gp.writeToFile → ρ.traceGood) (cout trace : String) :
    ∃ code, stepFooter gp mp = some code ∧ run ρ code ⟨"", cout, trace⟩
      = .ok ⟨stateLine (ρ.text "sc_time_stamp()") (texts ρ body),
          cout ++ stateLine (ρ.text "sc_time_stamp()") (texts ρ body),
          if gp.writeToFile then trace ++ stateLine (ρ.text "sc_time_stamp()") (texts ρ body)
          else trace⟩ := by
  rw [stepFooter, if_pos hsome, h]
  refine ⟨_, rfl, ?_⟩
  have hhead : "" ++ stateHead = stateHead := String.empty_append
  cases hw : gp.writeToFile with
  | false =>
      simp only [Bool.false_eq_true, if_false, run_append, run_cons, run_nil, ok_bind,
        Stmt.exec, Write.text, run_writes, hhead, stateLine]
  | true =>
      simp only [if_true, run_append, run_cons, run_nil, ok_bind, Stmt.exec, Write.text,
        run_writes, hhead, stateLine, hopen hw]

/-- The emitted code prints no state when its trace file cannot be opened. -/
theorem run_stepFooter_error {gp : GlobalParams} {mp : MonitorParams} {code : List Stmt}
    (h : stepFooter gp mp = some code) (hsome : observesSome gp mp) (hw : gp.writeToFile)
    (hgood : ρ.traceGood = false) (out : Out) : ∃ out', run ρ code out = .error out' := by
  rw [stepFooter, if_pos hsome] at h
  obtain ⟨body, -, rfl⟩ := Option.map_eq_some_iff.mp h
  simp only [hw, if_true, run_append, run_cons, run_nil, ok_bind, Stmt.exec, hgood,
    Bool.false_eq_true, if_false, error_bind]
  exact ⟨_, rfl⟩

theorem stateLine_injective (time : String) : Function.Injective (stateLine time) := by
  intro body body' h
  simpa [stateLine, ← String.toList_inj] using h

/-- Read a printed pair: the label ends at the first blank. -/
def readPair (l : List Char) : String × String :=
  (String.ofList (l.takeWhile (· ≠ ' ')), String.ofList ((l.dropWhile (· ≠ ' ')).drop 3))

/-- Read the text between the brackets. -/
def readPairs (text : String) : List (String × String) :=
  (splitSeparated ',' 1 text.toList).map readPair

/-- A pair without the symbols that the reader looks for. -/
def Readable (p : String × String) : Prop :=
  ' ' ∉ p.1.toList ∧ ',' ∉ p.1.toList ∧ ',' ∉ p.2.toList

theorem readPair_chars {p : String × String} (h : Readable p) : readPair (chars p) = p := by
  have hne : ∀ c ∈ p.1.toList, decide (c ≠ ' ') = true := by
    intro c hc
    exact decide_eq_true fun heq => h.1 (heq ▸ hc)
  have hchars : chars p = p.1.toList ++ ' ' :: ':' :: ' ' :: p.2.toList := by
    simp [chars, pairText]
  rw [readPair, hchars, List.takeWhile_append_of_pos hne, List.dropWhile_append_of_pos hne]
  simp

/-- **The separated pairs are read back.** -/
theorem readPairs_intercalate {ps : List (String × String)} (hne : ps ≠ [])
    (h : ∀ p ∈ ps, Readable p) : readPairs (", ".intercalate (ps.map pairText)) = ps := by
  have hcomma : ∀ x ∈ ps.map chars, ',' ∉ x := by
    intro x hx
    obtain ⟨p, hp, rfl⟩ := List.mem_map.mp hx
    obtain ⟨-, hlabel, hvalue⟩ := h p hp
    simp [chars, pairText, hlabel, hvalue]
  have hchars : (", ".intercalate (ps.map pairText)).toList
      = (',' :: [' ']).intercalate (ps.map chars) := by
    rw [String.toList_intercalate, List.map_map]
    rfl
  have hsplit :=
    splitSeparated_intercalate (s := [' ']) (by simpa using hne) (by decide) hcomma
  rw [readPairs, hchars]
  refine (congrArg (List.map readPair) hsplit).trans ?_
  rw [List.map_map]
  refine (List.map_congr_left fun p hp => ?_).trans ps.map_id
  exact readPair_chars (h p hp)

theorem observed_ne_nil {gp : GlobalParams} {mp : MonitorParams} (h : observesSome gp mp) :
    observed ρ gp mp ≠ [] := by
  intro hnil
  simp [observed] at hnil
  simp [observesSome, hnil] at h

/-- What has been emitted can be run when its literals are read. -/
theorem compiles_iff {d : Dialect} {literal : String → String} {gp : GlobalParams}
    {mp : MonitorParams} {code : List Stmt} (h : stepFooter gp mp = some code)
    (hsome : observesSome gp mp) : Compiles d literal code ↔
      (∀ p ∈ observed ρ gp mp, literalText d p.1 = some (literal p.1)) ∧
        (gp.writeToFile →
          literalText d (traceFileName gp mp) = some (literal (traceFileName gp mp))) := by
  simp only [Compiles, mem_pasted_stepFooter h hsome ρ, or_imp, forall_and]
  refine and_congr ⟨fun hall p hp => hall _ ⟨p, hp, rfl⟩, ?_⟩
    ⟨fun hall hw => hall _ ⟨hw, rfl⟩, ?_⟩
  · rintro hall _ ⟨p, hp, rfl⟩
    exact hall p hp
  · rintro hall _ ⟨hw, rfl⟩
    exact hall hw

/-- A state is printed only when the trace file can be opened. -/
theorem traceGood_of_run {gp : GlobalParams} {mp : MonitorParams} {code : List Stmt}
    {o out : Out}
    (h : stepFooter gp mp = some code) (hsome : observesSome gp mp)
    (hrun : run ρ code o = .ok out) (hw : gp.writeToFile) : ρ.traceGood := by
  by_contra hgood
  obtain ⟨out', herror⟩ := run_stepFooter_error h hsome hw (Bool.eq_false_iff.mpr hgood) o
  cases hrun.symm.trans herror

theorem exists_stepFooterBody {gp : GlobalParams} {mp : MonitorParams} {code : List Stmt}
    (h : stepFooter gp mp = some code) (hsome : observesSome gp mp) :
    ∃ body, stepFooterBody gp mp = some body := by
  rw [stepFooter, if_pos hsome] at h
  obtain ⟨body, hbody, -⟩ := Option.map_eq_some_iff.mp h
  exact ⟨body, hbody⟩

end Run

section Examples

/-- A configuration that observes two event clocks. -/
def twoClocks : GlobalParams where
  monName := "monitor"
  vartypes := .empty
  attributelabels := .empty
  attributetypes := .empty
  eventclocklabels := ⟨[("a", "obj->ea.notified"), ("b", "obj->eb.notified")], by decide⟩
  funcLocs := []
  plocations := []
  userVals := []
  writeToFile := false
  userObjects := .empty
  timeresolution := .empty

/-- Its monitor. -/
def twoClocksMonitor : MonitorParams := ⟨0, ⟨["a", "b"], by decide⟩⟩

/-- A step in which the events of `labels` have been notified. -/
def notified (labels : List String) : Env := ⟨fun e => e ∈ labels, fun _ => "0 s", true, id⟩

end Examples

end Pscv.Mag
