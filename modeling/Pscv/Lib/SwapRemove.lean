import Mathlib.Data.Multiset.ZeroCons
import Mathlib.Data.List.Perm.Basic
import Mathlib.Tactic.Common

/-!
# Removal by swapping with the last element

A vector whose order does not matter loses an element by putting its last element in
the place of the removed one. `sweep` is the loop that visits a vector in this way: it
calls a function on the element at its position and removes that element when the
function says so, staying at the position.

## Main results

* `swapErase_perm` — removing the last occurrence of an element erases one occurrence.
* `sweep_induction` — an invariant over the elements still to be visited.
-/

namespace Pscv.Lib

variable {α σ : Type*}

/-- Put the last element at position `i` and shorten the vector. -/
def swapRemove (l : List α) (i : ℕ) : List α :=
  match l.getLast? with
  | none => []
  | some y => (l.set i y).dropLast

theorem swapRemove_perm {l : List α} {i : ℕ} (hi : i < l.length) :
    (l[i] :: swapRemove l i).Perm l := by
  rcases List.eq_nil_or_concat l with hnil | ⟨ys, y, hl⟩
  · simp [hnil] at hi
  rw [List.concat_eq_append] at hl
  subst hl
  have hlast : swapRemove (ys ++ [y]) i = ((ys ++ [y]).set i y).dropLast := by
    simp [swapRemove]
  rw [hlast]
  rw [List.length_append, List.length_singleton] at hi
  by_cases hend : i = ys.length
  · subst hend
    simpa [List.set_append_right] using (List.perm_append_singleton y ys).symm
  · have hlt : i < ys.length := by omega
    rw [List.set_append_left _ _ hlt, List.dropLast_concat, List.getElem_append_left hlt]
    have hset : (ys[i] :: ys.set i y).Perm (y :: ys) := by
      have hsplit := List.set_eq_take_append_cons_drop (l := ys) (i := i) (a := y)
      rw [if_pos hlt] at hsplit
      rw [hsplit]
      have hys : ys = ys.take i ++ ys[i] :: ys.drop (i + 1) := by simp
      calc (ys[i] :: (ys.take i ++ y :: ys.drop (i + 1))).Perm
            (ys[i] :: y :: (ys.take i ++ ys.drop (i + 1))) := List.perm_middle.cons _
        _ |>.Perm (y :: ys[i] :: (ys.take i ++ ys.drop (i + 1))) := List.Perm.swap _ _ _
        _ |>.Perm (y :: (ys.take i ++ ys[i] :: ys.drop (i + 1))) :=
          List.perm_middle.symm.cons _
        _ |>.Perm (y :: ys) := by rw [← hys]
    exact hset.trans (List.perm_append_singleton y ys).symm

section Erase
variable [DecidableEq α]

/-- Remove the last occurrence of `a`, searching from the end. -/
def swapErase (a : α) (l : List α) : List α :=
  if a ∈ l then swapRemove l (l.length - 1 - l.reverse.idxOf a) else l

theorem swapErase_perm (a : α) (l : List α) : (swapErase a l).Perm (l.erase a) := by
  unfold swapErase
  by_cases ha : a ∈ l
  · have hidx : l.reverse.idxOf a < l.length := by
      have h := List.idxOf_lt_length_iff.mpr (List.mem_reverse.mpr ha)
      simpa using h
    have hi : l.length - 1 - l.reverse.idxOf a < l.length := by omega
    have hget : l[l.length - 1 - l.reverse.idxOf a] = a := by
      have h := List.getElem_reverse (l := l) (i := l.reverse.idxOf a) (by simpa using hidx)
      rw [List.getElem_idxOf] at h
      exact h.symm
    have hperm := swapRemove_perm hi
    rw [hget] at hperm
    rw [if_pos ha]
    exact (List.cons_perm_iff_perm_erase.mp hperm).2
  · rw [if_neg ha, List.erase_of_not_mem ha]

theorem count_swapErase_of_ne {a b : α} (h : b ≠ a) (l : List α) :
    (swapErase a l).count b = l.count b := by
  rw [(swapErase_perm a l).count_eq, List.count_erase_of_ne h]

end Erase

/-- Visit the elements from the front; where `f` returns true, the last element takes
the place of the visited one and is visited next. The first list holds the elements
that stay. The fuel bounds the number of visits. -/
def sweep (f : α → σ → Bool × σ) : ℕ → List α → List α → σ → List α × σ
  | 0, kept, _, s => (kept, s)
  | _ + 1, kept, [], s => (kept, s)
  | n + 1, kept, x :: xs, s =>
      if (f x s).1 then
        match xs.getLast? with
        | none => (kept, (f x s).2)
        | some y => sweep f n kept (y :: xs.dropLast) (f x s).2
      else sweep f n (kept ++ [x]) xs (f x s).2

/-- An invariant over the elements still to be visited, in whatever order, holds when
none is left. -/
theorem sweep_induction {f : α → σ → Bool × σ} {I : Multiset α → σ → Prop}
    (hstep : ∀ x R s, I (x ::ₘ R) s → I R (f x s).2) {n : ℕ} {kept xs : List α} {s : σ}
    (hn : xs.length ≤ n) (h : I xs s) : I 0 (sweep f n kept xs s).2 := by
  induction n generalizing kept xs s with
  | zero =>
      rw [List.length_eq_zero_iff.mp (Nat.le_zero.mp hn)] at h
      exact h
  | succ n ih =>
      cases xs with
      | nil => exact h
      | cons x xs =>
          have hx : I xs (f x s).2 := hstep x xs s h
          rw [sweep]
          split_ifs with hf
          · rcases List.eq_nil_or_concat xs with hnil | ⟨ys, y, hxs⟩
            · subst hnil
              exact hx
            · rw [List.concat_eq_append] at hxs
              subst hxs
              have hperm : ((y :: ys : List α) : Multiset α) = (ys ++ [y] : List α) :=
                Multiset.coe_eq_coe.mpr (List.perm_append_singleton y ys).symm
              simp only [List.getLast?_concat, List.dropLast_concat]
              apply ih
              · simpa using hn
              · rw [hperm]
                exact hx
          · exact ih (by simpa using hn) hx

end Pscv.Lib
