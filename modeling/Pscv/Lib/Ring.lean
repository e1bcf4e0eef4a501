import Mathlib.Data.List.Range
import Mathlib.Data.Nat.ModEq
import Mathlib.Logic.Function.Basic
import Mathlib.Tactic.Common

/-!
# Ring buffers

The cells of a ring of a fixed size, as a list from some position on. An element is put behind
the last one, and taken from the front.

## Main results

* `window_push`, `window_pop` — an element is put, and taken.
* `window_ne` — the cell behind the last element is none of the others.
-/

namespace Pscv.Lib

variable {α : Type*} {buf : ℕ → α} {size i j n k : ℕ}

/-- The contents of `n` cells from position `i` on. -/
def window (buf : ℕ → α) (size i n : ℕ) : List α :=
  (List.range n).map fun k => buf ((i + k) % size)

@[simp] theorem length_window : (window buf size i n).length = n := by simp [window]

theorem window_succ :
    window buf size i (n + 1) = window buf size i n ++ [buf ((i + n) % size)] := by
  rw [window, List.range_succ, List.map_append]
  rfl

theorem window_cons :
    window buf size i (n + 1) = buf (i % size) :: window buf size (i + 1) n := by
  simp only [window, List.range_succ_eq_map, List.map_cons, List.map_map, Nat.add_zero]
  congr 1
  refine List.map_congr_left fun k _ => ?_
  change buf ((i + (k + 1)) % size) = buf ((i + 1 + k) % size)
  rw [Nat.add_right_comm, Nat.add_assoc]

theorem window_mod : window buf size (i % size) n = window buf size i n := by
  simp only [window, Nat.mod_add_mod]

/-- Positions that are less than a full turn apart. -/
theorem window_ne (hk : k < n) (hn : n < size) : (i + k) % size ≠ (i + n) % size := by
  intro h
  have hdvd : size ∣ i + n - (i + k) := (Nat.modEq_iff_dvd' (by omega)).mp h
  have := Nat.le_of_dvd (by omega) hdvd
  omega

/-- A cell outside the window is written. -/
theorem window_update (h : ∀ k < n, (i + k) % size ≠ j) (x : α) :
    window (Function.update buf j x) size i n = window buf size i n := by
  refine List.map_congr_left fun k hk => ?_
  rw [Function.update_of_ne (h k (List.mem_range.mp hk))]

/-- An element is put behind the others. -/
theorem window_push (hn : n < size) (x : α) :
    window (Function.update buf ((i + n) % size) x) size i (n + 1) =
      window buf size i n ++ [x] := by
  rw [window_succ, window_update (fun k hk => window_ne hk hn), Function.update_self]

/-- The front cell is cleared. -/
theorem window_pop (buf : ℕ → α) (i : ℕ) (hn : n < size) (x : α) :
    window (Function.update buf (i % size) x) size (i + 1) n = window buf size (i + 1) n := by
  refine window_update (fun k hk => ?_) x
  have := window_ne (i := i) (Nat.succ_pos k) (Nat.lt_of_le_of_lt hk hn)
  rw [Nat.add_zero] at this
  rw [Nat.add_assoc, Nat.add_comm 1 k]
  exact this.symm

end Pscv.Lib
