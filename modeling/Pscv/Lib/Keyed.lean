import Mathlib.Data.List.Nodup
import Mathlib.Logic.Function.Basic
import Mathlib.Tactic.Common

/-!
# Loops over independent components

A loop whose state has a component for every key, and whose every step reads and writes the
component of its own key. The loop is the family of the loops over the components, so only the
order of the steps with the same key matters.

## Main results

* `foldlM_keyed_iff` — the loop, component by component.
* `foldlM_keyed_congr` — two loops that agree on every component.
* `SameOrder` — the orders that the components do not tell apart.
-/

namespace Pscv.Lib

variable {α ι β : Type*} [DecidableEq ι] {key : α → ι} {f : α → β → Option β}

/-- One step changes the component of its key, or fails. -/
def keyedStep (key : α → ι) (f : α → β → Option β) (s : ι → β) (a : α) : Option (ι → β) :=
  (f a (s (key a))).map (Function.update s (key a))

/-- The steps with the key `i`. -/
def own (key : α → ι) (i : ι) (l : List α) : List α := l.filter fun a => key a = i

/-- The loop over the steps of one component. -/
def ownLoop (key : α → ι) (f : α → β → Option β) (i : ι) (l : List α) (b : β) : Option β :=
  (own key i l).foldlM (fun b a => f a b) b

theorem own_append (i : ι) (l l' : List α) :
    own key i (l ++ l') = own key i l ++ own key i l' :=
  List.filter_append ..

theorem own_flatMap {γ : Type*} (i : ι) (l : List γ) (g : γ → List α) :
    own key i (l.flatMap g) = l.flatMap fun x => own key i (g x) := by
  induction l with
  | nil => rfl
  | cons x l ih => rw [List.flatMap_cons, own_append, ih, List.flatMap_cons]

/-- **The loop, component by component.** -/
theorem foldlM_keyed_iff {l : List α} {s s' : ι → β} :
    l.foldlM (keyedStep key f) s = some s' ↔ ∀ i, ownLoop key f i l (s i) = some (s' i) := by
  induction l generalizing s with
  | nil =>
      simp only [List.foldlM_nil, ownLoop, own, List.filter_nil, Option.pure_def,
        Option.some.injEq]
      exact funext_iff
  | cons a l ih =>
      have hself : ∀ b, ownLoop key f (key a) (a :: l) b =
          (f a b).bind (ownLoop key f (key a) l) := by
        intro b
        rw [ownLoop, own, List.filter_cons_of_pos (by simp)]
        rfl
      have hother : ∀ i, i ≠ key a → ∀ b,
        ownLoop key f i (a :: l) b = ownLoop key f i l b := by
        intro i hi b
        rw [ownLoop, own, List.filter_cons_of_neg (by simpa using hi.symm)]
        rfl
      rw [List.foldlM_cons]
      cases hf : f a (s (key a)) with
      | none =>
          refine iff_of_false (by simp [keyedStep, hf]) fun h => ?_
          have h := h (key a)
          rw [hself, hf] at h
          cases h
      | some b =>
          have hstep : keyedStep key f s a = some (Function.update s (key a) b) := by
            rw [keyedStep, hf, Option.map_some]
          rw [hstep, Option.bind_eq_bind, Option.bind_some, ih]
          refine forall_congr' fun i => ?_
          by_cases hi : i = key a
          · rw [hi, Function.update_self, hself, hf, Option.bind_some]
          · rw [Function.update_of_ne hi, hother i hi]

/-- The loop does not fail when none of the loops over the components does. -/
theorem exists_foldlM_keyed {l : List α} {s : ι → β} :
    (∃ s', l.foldlM (keyedStep key f) s = some s') ↔
      ∀ i, ∃ b, ownLoop key f i l (s i) = some b := by
  rw [exists_congr fun s' => foldlM_keyed_iff]
  exact (Classical.skolem (p := fun i b => ownLoop key f i l (s i) = some b)).symm

/-- Two loops that agree on every component. -/
theorem foldlM_keyed_congr {l l' : List α} {s : ι → β}
    (h : ∀ i, ownLoop key f i l (s i) = ownLoop key f i l' (s i)) :
    l.foldlM (keyedStep key f) s = l'.foldlM (keyedStep key f) s := by
  apply Option.ext
  intro s'
  rw [foldlM_keyed_iff, foldlM_keyed_iff]
  simp only [h]

/-- Blocks that are empty except for those of one key. -/
theorem flatMap_own {γ κ : Type*} [DecidableEq κ] {key : γ → κ} {k : κ} {g : γ → List α}
    {l : List γ} (h : ∀ x ∈ l, g x ≠ [] → key x = k) :
      l.flatMap g = (own key k l).flatMap g := by
  induction l with
  | nil => rfl
  | cons x l ih =>
      have ih := ih fun y hy => h y (List.mem_cons_of_mem _ hy)
      rw [List.flatMap_cons, ih, own, own, List.filter_cons]
      split_ifs with hx
      · rw [List.flatMap_cons]
      · have hnil : g x = [] := by
          by_contra hne
          exact hx (decide_eq_true (h x List.mem_cons_self hne))
        rw [hnil, List.nil_append]

/-- Two orders of the same steps, in both of which those of one key have the same order. -/
def SameOrder (key : α → ι) (l l' : List α) : Prop := ∀ i, own key i l = own key i l'

theorem SameOrder.mem_iff {l l' : List α} (h : SameOrder key l l') {a : α} :
    a ∈ l ↔ a ∈ l' := by
  have hown : ∀ l, a ∈ own key (key a) l ↔ a ∈ l := fun l => by simp [own]
  rw [← hown l, ← hown l', h]

theorem SameOrder.isEmpty_eq {l l' : List α} (h : SameOrder key l l') :
    l.isEmpty = l'.isEmpty := by
  rw [Bool.eq_iff_iff, List.isEmpty_iff, List.isEmpty_iff, List.eq_nil_iff_forall_not_mem,
    List.eq_nil_iff_forall_not_mem]
  exact forall_congr' fun a => not_congr h.mem_iff

end Pscv.Lib
