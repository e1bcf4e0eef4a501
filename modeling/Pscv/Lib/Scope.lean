import Mathlib.Data.List.Basic
import Mathlib.Data.List.Nodup
import Mathlib.Logic.Function.Basic
import Mathlib.Tactic.Common

/-!
# Calls by position and scopes

A call passes its arguments by position: there are as many as parameters, and each has the
type of its parameter. In the body a name means the parameter of that name if there is
one, and otherwise the variable outside of the function.

## Main definitions

* `bindArgs` — the frame of a call; `Frame.args` — what variables are passed on.
* `Scope` — a frame in front of outer variables; `Assign.exec`, `execAll`.

## Main results

* `args_zip` — a function that passes on all its parameters passes on its arguments.
* `execAll_outward` — assignments to outer variables leave each with its right side.
-/

namespace Pscv.Lib

/-- A declared variable. -/
structure Decl (τ ν : Type*) where
  type : τ
  name : ν
  deriving DecidableEq

/-- The parameters of a call with their values. -/
abbrev Frame (τ ν V : Type*) := List (Decl τ ν × V)

section Frame
variable {τ ν V : Type*} [DecidableEq ν]

/-- The type and the value of the variable that a name means. -/
def Frame.find (fr : Frame τ ν V) (name : ν) : Option (τ × V) :=
  (List.find? (fun p => p.1.name = name) fr).map fun p => (p.1.type, p.2)

/-- The arguments of a call that passes variables. -/
def Frame.args (fr : Frame τ ν V) (names : List ν) : Option (List (τ × V)) :=
  names.mapM fr.find

/-- Assign to the variables of a name. -/
def Frame.set (fr : Frame τ ν V) (name : ν) (v : V) : Frame τ ν V :=
  fr.map fun p => if p.1.name = name then (p.1, v) else p

/-- Pass arguments by position. -/
def bindArgs [DecidableEq τ] (params : List (Decl τ ν)) (args : List (τ × V)) :
    Option (Frame τ ν V) :=
  if args.map Prod.fst = params.map Decl.type then some (params.zip (args.map Prod.snd))
  else none

/-- The arguments that objects are, each with the type of its parameter. -/
def typed (params : List (Decl τ ν)) (vals : List V) : List (τ × V) :=
  (params.map Decl.type).zip vals

variable {params : List (Decl τ ν)} {vals : List V} {fr : Frame τ ν V} {name : ν} {v : V}

theorem Frame.find_cons_self (d : Decl τ ν) (v : V) (fr : Frame τ ν V) :
    Frame.find ((d, v) :: fr) d.name = some (d.type, v) := by
  simp [Frame.find]

theorem Frame.find_cons_of_ne {d : Decl τ ν} (h : d.name ≠ name) :
    Frame.find ((d, v) :: fr) name = fr.find name := by
  simp [Frame.find, h]

theorem Frame.args_cons_of_not_mem {d : Decl τ ν} {names : List ν} (h : d.name ∉ names) :
    Frame.args ((d, v) :: fr) names = fr.args names := by
  induction names with
  | nil => rfl
  | cons name names ih =>
      obtain ⟨hne, hmem⟩ := not_or.mp (mt List.mem_cons.mpr h)
      have htail : List.mapM (Frame.find ((d, v) :: fr)) names = List.mapM fr.find names :=
        ih hmem
      rw [Frame.args, Frame.args, List.mapM_cons, List.mapM_cons, Frame.find_cons_of_ne hne,
        htail]

theorem Frame.find_eq_none_iff : fr.find name = none ↔ name ∉ fr.map fun p => p.1.name := by
  simp [Frame.find, List.find?_eq_none]

omit [DecidableEq ν] in
/-- The frame of a call has the parameters of the function. -/
theorem names_zip (h : vals.length = params.length) :
    (params.zip vals).map (fun p => p.1.name) = params.map Decl.name := by
  have hfst : (params.zip vals).map Prod.fst = params := List.map_fst_zip (Nat.le_of_eq h.symm)
  have hmap := congrArg (List.map Decl.name) hfst
  rwa [List.map_map] at hmap

/-- **A function that passes on all its parameters passes on its arguments.** -/
theorem args_zip (hnodup : (params.map Decl.name).Nodup) (h : vals.length = params.length) :
    Frame.args (params.zip vals) (params.map Decl.name) = some (typed params vals) := by
  induction params generalizing vals with
  | nil =>
      obtain rfl := List.length_eq_zero_iff.mp h
      rfl
  | cons d params ih =>
      cases vals with
      | nil => simp at h
      | cons v vals =>
          obtain ⟨hd, hnodup⟩ := List.nodup_cons.mp hnodup
          have htail := ih hnodup (Nat.succ.inj h)
          rw [← Frame.args_cons_of_not_mem hd (v := v), Frame.args] at htail
          rw [List.zip_cons_cons, Frame.args, List.map_cons, List.mapM_cons,
            Frame.find_cons_self, htail]
          rfl

/-- The value of a parameter, at its position. -/
theorem find_zip (hnodup : (params.map Decl.name).Nodup) {d : Decl τ ν}
    (h : (d, v) ∈ params.zip vals) :
    Frame.find (params.zip vals) d.name = some (d.type, v) := by
  induction params generalizing vals with
  | nil => simp at h
  | cons d' params ih =>
      cases vals with
      | nil => simp at h
      | cons v' vals =>
          obtain ⟨hd', hnodup⟩ := List.nodup_cons.mp hnodup
          rw [List.zip_cons_cons] at h ⊢
          rcases List.mem_cons.mp h with heq | h
          · obtain ⟨rfl, rfl⟩ := Prod.mk.inj heq
            exact Frame.find_cons_self d v _
          · have hne : d'.name ≠ d.name := by
              intro heq
              apply hd'
              rw [heq]
              exact List.mem_map_of_mem (List.of_mem_zip h).1
            rw [Frame.find_cons_of_ne hne]
            exact ih hnodup h

omit [DecidableEq ν] in
/-- Arguments of the types of the parameters are accepted. -/
theorem bindArgs_typed [DecidableEq τ] {params' : List (Decl τ ν)}
    (hlen : vals.length = params.length)
    (htypes : params'.map Decl.type = params.map Decl.type) :
    bindArgs params' (typed params vals) = some (params'.zip vals) := by
  have hlen' : (params.map Decl.type).length = vals.length := by rw [List.length_map, hlen]
  rw [bindArgs, typed, List.map_fst_zip (Nat.le_of_eq hlen'),
    List.map_snd_zip (Nat.le_of_eq hlen'.symm), if_pos htypes.symm]

end Frame

/-! ## Assignments -/

/-- The right side of an assignment. -/
inductive Rhs (ν V : Type*)
  | var (name : ν)
  | const (v : V)

/-- An assignment. -/
structure Assign (ν V : Type*) where
  target : ν
  rhs : Rhs ν V

/-- The parameters of a function, in front of the variables outside of it. -/
structure Scope (τ ν V : Type*) where
  frame : Frame τ ν V
  outer : ν → Option V

section Assign
variable {τ ν V : Type*} [DecidableEq ν]

/-- The value of a name. -/
def Scope.read (s : Scope τ ν V) (name : ν) : Option V :=
  match s.frame.find name with
  | some p => some p.2
  | none => s.outer name

/-- Assign to what a name means. -/
def Scope.write (s : Scope τ ν V) (name : ν) (v : V) : Scope τ ν V :=
  if (s.frame.find name).isSome then { s with frame := s.frame.set name v }
  else { s with outer := Function.update s.outer name (some v) }

/-- The value of a right side. -/
def Rhs.eval (s : Scope τ ν V) : Rhs ν V → Option V
  | var name => s.read name
  | const v => some v

/-- Run an assignment. -/
def Assign.exec (a : Assign ν V) (s : Scope τ ν V) : Option (Scope τ ν V) :=
  (a.rhs.eval s).map (s.write a.target)

/-- Run assignments one after the other. -/
def execAll (as : List (Assign ν V)) (s : Scope τ ν V) : Option (Scope τ ν V) :=
  as.foldlM (fun s a => a.exec s) s

/-- An assignment of a parameter or a constant to a variable outside of the function. -/
structure Assign.Outward (fr : Frame τ ν V) (a : Assign ν V) : Prop where
  target : fr.find a.target = none
  rhs : ∀ name, a.rhs = .var name → (fr.find name).isSome

variable {s s' : Scope τ ν V} {a : Assign ν V} {as : List (Assign ν V)} {name : ν} {v : V}

theorem Scope.write_of_not_mem (h : s.frame.find name = none) :
    s.write name v = ⟨s.frame, Function.update s.outer name (some v)⟩ := by
  simp [Scope.write, h]

theorem Assign.Outward.exec (h : a.Outward s.frame) : ∃ v, a.rhs.eval s = some v ∧
    a.exec s = some ⟨s.frame, Function.update s.outer a.target (some v)⟩ := by
  have hsome : ∃ v, a.rhs.eval s = some v := by
    cases hrhs : a.rhs with
    | var name =>
        obtain ⟨p, hp⟩ := Option.isSome_iff_exists.mp (h.rhs name hrhs)
        exact ⟨p.2, by simp [Rhs.eval, Scope.read, hp]⟩
    | const v => exact ⟨v, rfl⟩
  obtain ⟨v, hv⟩ := hsome
  refine ⟨v, hv, ?_⟩
  rw [Assign.exec, hv, Option.map_some, Scope.write_of_not_mem h.target]

/-- An outward right side does not read the variables outside of the function. -/
theorem Assign.Outward.eval_congr (h : a.Outward s.frame) (hframe : s'.frame = s.frame) :
    a.rhs.eval s' = a.rhs.eval s := by
  cases hrhs : a.rhs with
  | var name =>
      obtain ⟨p, hp⟩ := Option.isSome_iff_exists.mp (h.rhs name hrhs)
      simp [Rhs.eval, Scope.read, hframe, hp]
  | const v => rfl

/-- A variable that is no target keeps its value. -/
theorem outer_execAll (h : execAll as s = some s') (hname : name ∉ as.map Assign.target) :
    s'.outer name = s.outer name := by
  induction as generalizing s with
  | nil => rw [← Option.some.inj h]
  | cons a as ih =>
      obtain ⟨hne, hrest⟩ := not_or.mp (mt List.mem_cons.mpr hname)
      rw [execAll, List.foldlM_cons] at h
      obtain ⟨s₁, hexec, h⟩ := Option.bind_eq_some_iff.mp h
      obtain ⟨v, -, rfl⟩ := Option.map_eq_some_iff.mp hexec
      rw [ih h hrest, Scope.write]
      split_ifs
      · rfl
      · exact Function.update_of_ne hne _ _

theorem execAll_append (as bs : List (Assign ν V)) (s : Scope τ ν V) :
    execAll (as ++ bs) s = (execAll as s).bind (execAll bs) :=
  List.foldlM_append

/-- Assignments of constants have a result. -/
theorem execAll_const (h : ∀ a ∈ as, ∃ v, a.rhs = .const v) (s : Scope τ ν V) :
    ∃ s', execAll as s = some s' := by
  induction as generalizing s with
  | nil => exact ⟨s, rfl⟩
  | cons a as ih =>
      obtain ⟨⟨v, hv⟩, has⟩ := List.forall_mem_cons.mp h
      obtain ⟨s', hs'⟩ := ih has (s.write a.target v)
      refine ⟨s', ?_⟩
      rw [execAll, List.foldlM_cons, Assign.exec, hv]
      exact hs'

/-- **Outward assignments leave each of their targets with the value of its right side**,
when no target is assigned twice. -/
theorem execAll_outward (h : ∀ a ∈ as, a.Outward s.frame)
    (hnodup : (as.map Assign.target).Nodup) :
    ∃ s', execAll as s = some s' ∧ s'.frame = s.frame ∧
      ∀ a ∈ as, s'.outer a.target = a.rhs.eval s := by
  induction as generalizing s with
  | nil => exact ⟨s, rfl, rfl, by simp⟩
  | cons a as ih =>
      obtain ⟨ha, has⟩ := List.forall_mem_cons.mp h
      obtain ⟨hmem, hnodup⟩ := List.nodup_cons.mp hnodup
      obtain ⟨v, hv, hexec⟩ := ha.exec
      obtain ⟨s', hs', hframe, hvals⟩ := ih
        (s := ⟨s.frame, Function.update s.outer a.target (some v)⟩) has hnodup
      refine ⟨s', ?_, hframe, ?_⟩
      · rw [execAll, List.foldlM_cons, hexec]
        exact hs'
      · intro b hb
        rcases List.mem_cons.mp hb with rfl | hb
        · rw [outer_execAll hs' hmem, hv]
          exact Function.update_self _ _ _
        · rw [hvals b hb]
          exact (has b hb).eval_congr rfl

end Assign
end Pscv.Lib
