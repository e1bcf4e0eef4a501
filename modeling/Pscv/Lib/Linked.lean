import Mathlib.Data.List.Nodup
import Mathlib.Logic.Function.Basic

/-!
# Linked segments in a memory of `next` pointers

`Segment next p xs q` says that following `next` from `p` visits the cells `xs`,
in order, and then arrives at `q`. A sentinel-terminated list is a segment that
ends at the sentinel. The rules below are the ones a proof about an intrusive
list needs: composition, framing, and what one pointer write does to a segment.

## Main definitions

* `Segment next p xs q` — the cells `xs` lead from `p` to `q`.
* `Segment.frame`, `Segment.relink` — writes off the segment, and a write to its
  last cell.
-/

namespace Pscv.Lib

variable {α : Type*}

/-- Following `next` from `p` visits exactly `xs` and arrives at `q`. -/
def Segment (next : α → α) : α → List α → α → Prop
  | p, [], q => p = q
  | p, x :: xs, q => p = x ∧ Segment next (next x) xs q

namespace Segment
variable {next next' : α → α} {p q r x : α} {xs ys : List α}

@[simp] theorem nil_iff : Segment next p [] q ↔ p = q := Iff.rfl

@[simp] theorem cons_iff :
    Segment next p (x :: xs) q ↔ p = x ∧ Segment next (next x) xs q := Iff.rfl

/-- Segments compose, and a segment splits at any of its cells. -/
theorem append_iff :
    Segment next p (xs ++ ys) r ↔ ∃ m, Segment next p xs m ∧ Segment next m ys r := by
  induction xs generalizing p with
  | nil => simp
  | cons x xs ih =>
      rw [List.cons_append, cons_iff, ih]
      constructor
      · rintro ⟨rfl, m, hx, hy⟩
        exact ⟨m, ⟨rfl, hx⟩, hy⟩
      · rintro ⟨m, ⟨rfl, hx⟩, hy⟩
        exact ⟨rfl, m, hx, hy⟩

/-- A segment only depends on the pointers stored in its own cells. -/
theorem congr (h : Segment next p xs q) (heq : ∀ x ∈ xs, next' x = next x) :
    Segment next' p xs q := by
  induction xs generalizing p with
  | nil => exact h
  | cons x xs ih =>
      refine ⟨h.1, ?_⟩
      rw [heq x List.mem_cons_self]
      exact ih h.2 fun y hy => heq y (List.mem_cons_of_mem _ hy)

/-- A write to a cell off the segment preserves it. -/
theorem frame [DecidableEq α] {z v : α} (h : Segment next p xs q) (hz : z ∉ xs) :
    Segment (Function.update next z v) p xs q := by
  refine h.congr fun x hx => ?_
  have hne : x ≠ z := by rintro rfl; exact hz hx
  exact Function.update_of_ne hne v next

/-- A write to the last cell redirects the segment. -/
theorem relink [DecidableEq α] {v : α} (h : Segment next p (xs ++ [x]) q) (hx : x ∉ xs) :
    Segment (Function.update next x v) p (xs ++ [x]) v := by
  obtain ⟨m, hs, hm, _⟩ := append_iff.mp h
  exact append_iff.mpr ⟨m, hs.frame hx, hm, by simp⟩

/-- Redirecting the cell before `x` past it takes `x` out of the segment, whatever
is then stored in `x`. -/
theorem unlink [DecidableEq α] {u v : α} (h : Segment next p (xs ++ u :: x :: ys) q)
    (hnd : (xs ++ u :: x :: ys).Nodup) :
    Segment (Function.update (Function.update next u (next x)) x v) p (xs ++ u :: ys) q := by
  obtain ⟨m, hxs, hm, _, hys⟩ := append_iff.mp h
  obtain ⟨_, hnd', hdisj⟩ := List.nodup_append'.mp hnd
  obtain ⟨hu, hx, _⟩ : u ∉ x :: ys ∧ x ∉ ys ∧ ys.Nodup := by simpa using hnd'
  have huxs : u ∉ xs := fun hmem => hdisj hmem (by simp)
  have hxxs : x ∉ xs := fun hmem => hdisj hmem (by simp)
  have hne : u ≠ x := fun heq => hu (by simp [heq])
  refine append_iff.mpr ⟨m, (hxs.frame huxs).frame hxxs, hm, ?_⟩
  have hnext : Function.update (Function.update next u (next x)) x v u = next x := by
    simp [hne]
  rw [hnext]
  exact (hys.frame fun hmem => hu (by simp [hmem])).frame hx

end Segment
end Pscv.Lib
