import Pscv.Kernel.Observer
import Pscv.Mag.Registration

/-!
# The end of the observer

`~mon_observer` deletes the monitors of the vector, and then those of each sample point. The
destructor that is emitted for `local_observer` deletes the instance before that, which is the
object that is being destroyed.

## Main results

* `ObserverObject.count_destructor`.
* `not_tearsDown`.
-/

namespace Pscv.Mag

open Pscv.Kernel Pscv.Lib

variable {M E : Type} {getId : M → MonId}

/-- The registrations of an observer, and its vector of monitors. -/
structure ObserverObject (E : Type) (getId : M → MonId) extends Observer E getId where
  mons : List M

/-- An object that is deleted. -/
inductive Deletion (M : Type)
  | monitor (m : M)
  | observer (address : ℕ)
  deriving DecidableEq

/-- `~mon_observer`. The sets of the events stay. -/
def ObserverObject.destructor (o : ObserverObject E getId) : List (Deletion M) :=
  o.mons.map .monitor ++ kernelClocks.flatMap fun p => (o.arrMonSets p).toList.map .monitor

/-- The static pointer, and the observers that have not been deleted. -/
structure Process (E : Type) (getId : M → MonId) where
  mInstance : Option ℕ
  objects : ℕ → Option (ObserverObject E getId)

namespace Process

def start : Process E getId := ⟨none, fun _ => none⟩

/-- `createInstance`, for the object that the constructor leaves at an address. -/
def createInstance (address : ℕ) (o : ObserverObject E getId) (s : Process E getId) :
    ℕ × Process E getId :=
  match s.mInstance with
  | some p => (p, s)
  | none => (address, ⟨some address, Function.update s.objects address (some o)⟩)

/-- The ways in which a deletion fails. -/
inductive Failure
  | depth | dangling
  deriving DecidableEq

/-- `delete`, with at most `depth` calls on the stack. -/
def deleteObserver : ℕ → ℕ → Process E getId →
    Except Failure (List (Deletion M) × Process E getId)
  | 0, _, _ => .error .depth
  | depth + 1, p, s => do
      if (s.objects p).isNone then throw .dangling
      -- the emitted destructor does not clear the pointer
      let (deleted, s) ← match s.mInstance with
        | some q => deleteObserver depth q s
        | none => pure ([], s)
      match s.objects p with
      | none => throw .dangling
      | some o =>
          return (deleted ++ o.destructor ++ [.observer p],
            { s with objects := Function.update s.objects p none })

/-- The pointer is null or points to an object. -/
def Valid (s : Process E getId) : Prop := ∀ p, s.mInstance = some p → (s.objects p).isSome

/-- The deletion of an observer ends, and deletes the observer and each of its monitors
once. -/
def TearsDown [DecidableEq M] (p : ℕ) (s : Process E getId) : Prop :=
  ∃ o depth deleted s', s.objects p = some o ∧
    deleteObserver depth p s = .ok (deleted, s') ∧
    deleted.count (.observer p) = 1 ∧ ∀ m ∈ o.mons, deleted.count (.monitor m) = 1

end Process

/-! ## The base class -/

section Base
variable [DecidableEq M]

theorem count_monitor (l : List M) (m : M) :
    (l.map Deletion.monitor).count (.monitor m) = l.count m :=
  List.count_map_of_injective l Deletion.monitor (fun _ _ => Deletion.monitor.inj) m

/-- **The base class deletes a monitor once more for each sample point** in whose set it is. -/
theorem ObserverObject.count_destructor (o : ObserverObject E getId) (m : M) :
    o.destructor.count (.monitor m) = o.mons.count m +
      kernelClocks.countP fun p => m ∈ (o.arrMonSets p).toList := by
  have hsets : ∀ ps : List SamplePoint,
      (ps.flatMap fun p => (o.arrMonSets p).toList.map Deletion.monitor).count (.monitor m)
        = ps.countP fun p => m ∈ (o.arrMonSets p).toList := by
    intro ps
    induction ps with
    | nil => rfl
    | cons p ps ih =>
        rw [List.flatMap_cons, List.count_append, ih, count_monitor,
          (o.arrMonSets p).nodup.count, List.countP_cons]
        simp only [decide_eq_true_eq]
        omega
  rw [destructor, List.count_append, count_monitor, hsets]

/-- A monitor of the vector is deleted once by the base class exactly when it is registered
for no sample point. -/
theorem ObserverObject.count_destructor_eq_one_iff {calls : List (Kernel.Call M E)}
    {w : World E getId} (I : w.Inv calls) {mons : List M} {m : M} (hm : mons.count m = 1) :
    (⟨w.observer, mons⟩ : ObserverObject E getId).destructor.count (.monitor m) = 1 ↔
      ∀ p, .registerMonitor m p ∉ calls := by
  rw [ObserverObject.count_destructor, hm]
  simp only [I.points, Nat.add_eq_left, List.countP_eq_zero, mem_kernelClocks, forall_const,
    decide_eq_true_eq]

end Base

/-! ## The emitted destructor -/

section Emitted
variable {s : Process E getId} {p : ℕ}

namespace Process

theorem valid_start : (start : Process E getId).Valid := by
  intro p h
  cases h

theorem createInstance_spec (h : s.Valid) (address : ℕ) (o : ObserverObject E getId) :
    (s.createInstance address o).2.mInstance = some (s.createInstance address o).1 ∧
      (s.createInstance address o).2.Valid := by
  rw [createInstance]
  cases hinst : s.mInstance with
  | some q => exact ⟨hinst, h⟩
  | none =>
      refine ⟨rfl, ?_⟩
      intro q hq
      obtain rfl := Option.some.inj hq
      simp

/-- The destructor calls itself on the object that it destroys: no stack is deep enough. -/
theorem deleteObserver_instance (hp : s.mInstance = some p) (hobj : (s.objects p).isSome)
    (depth : ℕ) : deleteObserver depth p s = .error .depth := by
  induction depth with
  | zero => rfl
  | succ depth ih =>
      have hsome : ¬ (s.objects p).isNone = true := by
        rw [Option.isNone_iff_eq_none]
        intro hnone
        rw [hnone] at hobj
        cases hobj
      rw [deleteObserver, if_neg hsome, hp]
      simp only
      rw [ih]
      rfl

/-- The states that calls of `createInstance` reach. -/
def afterCalls (calls : List (ℕ × ObserverObject E getId)) : Process E getId :=
  calls.foldl (fun s c => (s.createInstance c.1 c.2).2) start

theorem valid_afterCalls (calls : List (ℕ × ObserverObject E getId)) :
    (afterCalls calls).Valid := by
  have hfold : ∀ s : Process E getId, s.Valid →
      (calls.foldl (fun s c => (s.createInstance c.1 c.2).2) s).Valid := by
    induction calls with
    | nil => exact fun s h => h
    | cons c calls ih => exact fun s h => ih _ (createInstance_spec h c.1 c.2).2
  exact hfold start valid_start

end Process

/-- **The deletion of the instance never ends**, whatever is registered. -/
theorem not_tearsDown [DecidableEq M] (calls : List (ℕ × ObserverObject E getId)) (address : ℕ)
    (o : ObserverObject E getId) :
    let created := (Process.afterCalls calls).createInstance address o
    ¬ Process.TearsDown created.1 created.2 := by
  intro created h
  obtain ⟨o', depth, deleted, s', -, hdelete, -⟩ := h
  obtain ⟨hinst, hvalid⟩ :=
    Process.createInstance_spec (Process.valid_afterCalls calls) address o
  rw [Process.deleteObserver_instance hinst (hvalid _ hinst) depth] at hdelete
  cases hdelete

/-- An observer with one monitor, which is registered for one sample point. -/
def oneMonitor : ObserverObject Empty (id : MonId → MonId) :=
  ⟨(Observer.new : Observer Empty id).registerMonitor 0 .deltaCycleBegin, [0]⟩

/-- The deletion does not end at any depth, and the base class alone would delete the monitor
twice. -/
theorem oneMonitor_never_deleted :
    (∀ depth, Process.deleteObserver depth 1 (Process.start.createInstance 1 oneMonitor).2
      = .error .depth) ∧
      oneMonitor.destructor = [.monitor 0, .monitor 0] :=
  ⟨Process.deleteObserver_instance rfl rfl, by decide⟩

end Emitted

end Pscv.Mag
