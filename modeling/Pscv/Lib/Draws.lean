import Mathlib.Algebra.BigOperators.Ring.List
import Mathlib.Data.Fin.Tuple.Finset
import Mathlib.Data.Fintype.Fin
import Mathlib.Data.Int.CardIntervalMod
import Mathlib.Data.List.Permutation
import Mathlib.Tactic.Common

/-!
# Draws without replacement

`drawAll r n xs` takes `n` elements out of `xs`, each time the one at position
`r i` modulo the number of elements left. Every sequence of draws permutes the
list, and every permutation is some sequence of draws.

Of `R` equally likely results of a generator, as many fall on each of `m` positions exactly
when `m` divides `R`.

## Main results

* `drawAll_perm`, `exists_drawAll_eq`.
* `draws_uniform_iff`, `orders_uniform_iff`.
-/

namespace Pscv.Lib

variable {α : Type*}

/-- Take out the element at position `r 0`, then at `r 1`, and so on, each modulo the
number of elements left. -/
def drawAll : (ℕ → ℕ) → ℕ → List α → List α
  | _, 0, _ => []
  | r, n + 1, xs =>
      match xs[r 0 % xs.length]? with
      | none => []
      | some x => x :: drawAll (fun i => r (i + 1)) n (xs.eraseIdx (r 0 % xs.length))

/-- Drawing every element permutes the list. -/
theorem drawAll_perm (r : ℕ → ℕ) (xs : List α) : (drawAll r xs.length xs).Perm xs := by
  obtain ⟨n, hn⟩ : ∃ n, xs.length = n := ⟨_, rfl⟩
  rw [hn]
  induction n generalizing r xs with
  | zero => simp [drawAll, List.length_eq_zero_iff.mp hn]
  | succ n ih =>
      have hi : r 0 % xs.length < xs.length := Nat.mod_lt _ (by omega)
      have hlen : (xs.eraseIdx (r 0 % xs.length)).length = n := by
        rw [List.length_eraseIdx_of_lt hi, hn, Nat.add_sub_cancel]
      rw [drawAll, List.getElem?_eq_getElem hi]
      exact ((ih _ _ hlen).cons _).trans (List.getElem_cons_eraseIdx_perm hi)

/-- Every permutation is drawn by positions inside the list. -/
theorem exists_drawAll_eq [DecidableEq α] {xs ys : List α} (h : ys.Perm xs) :
    ∃ r : ℕ → ℕ, (∀ i, r i ≤ xs.length - 1) ∧ drawAll r xs.length xs = ys := by
  induction ys generalizing xs with
  | nil =>
      obtain rfl := h.nil_eq
      exact ⟨fun _ => 0, fun _ => Nat.zero_le _, rfl⟩
  | cons y ys ih =>
      have hmem : y ∈ xs := h.subset List.mem_cons_self
      have hi : xs.idxOf y < xs.length := List.idxOf_lt_length_iff.mpr hmem
      have hget : xs[xs.idxOf y]? = some y := by
        rw [List.getElem?_eq_getElem hi, List.getElem_idxOf]
      have herase : xs.eraseIdx (xs.idxOf y) = xs.erase y :=
        (List.erase_eq_eraseIdx_of_idxOf rfl).symm
      have hperm : ys.Perm (xs.erase y) := (List.cons_perm_iff_perm_erase.mp h).2
      have hlen : xs.length = (xs.erase y).length + 1 := by
        rw [List.length_erase_of_mem hmem]
        omega
      obtain ⟨r, hr, hdraw⟩ := ih hperm
      let r' : ℕ → ℕ := fun i => i.casesOn (xs.idxOf y) r
      have hfirst : r' 0 % xs.length = xs.idxOf y := Nat.mod_eq_of_lt hi
      refine ⟨r', ?_, ?_⟩
      · rintro (_ | i)
        · exact Nat.le_sub_one_of_lt hi
        · exact (hr i).trans (by omega)
      · nth_rewrite 1 [hlen]
        rw [drawAll, hfirst, hget, herase]
        exact congrArg (y :: ·) hdraw

/-! ## Counting the draws -/

section Counting
variable {R n m i : ℕ} {x : α} {xs ys : List α}

/-- The results of a generator that fall on a position, modulo `m`. -/
def draws (R m i : ℕ) : Finset (Fin R) := Finset.univ.filter fun v => v.val % m = i

/-- A sequence of draws, continued by zeros. -/
def drawsOf (v : Fin n → Fin R) (i : ℕ) : ℕ := if h : i < n then v ⟨i, h⟩ else 0

/-- The sequences of draws that take the elements of a list out in an order. -/
def orderDraws [DecidableEq α] (R n : ℕ) (xs order : List α) : Finset (Fin n → Fin R) :=
  Finset.univ.filter fun v => drawAll (drawsOf v) n xs = order

theorem card_draws (hi : i < m) : (draws R m i).card = R / m + if i < R % m then 1 else 0 := by
  have hcount : (draws R m i).card = R.count (· ≡ i [MOD m]) := by
    rw [Nat.count_eq_card_filter_range, ← Nat.Iio_eq_range, ← Fin.map_valEmbedding_univ,
      Finset.filter_map, Finset.card_map, draws]
    congr 1
    ext v
    simp only [Finset.mem_filter, Finset.mem_univ, true_and, Function.comp_apply,
      Fin.valEmbedding_apply, Nat.ModEq, Nat.mod_eq_of_lt hi]
  have hm : 0 < m := Nat.zero_lt_of_lt hi
  rw [hcount, Nat.count_modEq_card R hm, Nat.mod_eq_of_lt hi]

/-- Every position is as likely as every other. -/
theorem draws_uniform_iff (hm : 0 < m) :
    (∀ i j, i < m → j < m → (draws R m i).card = (draws R m j).card) ↔ m ∣ R := by
  constructor
  · intro h
    have hlast := h 0 (m - 1) hm (Nat.sub_lt hm Nat.one_pos)
    rw [card_draws hm, card_draws (Nat.sub_lt hm Nat.one_pos)] at hlast
    have hlt := Nat.mod_lt R hm
    apply Nat.dvd_of_mod_eq_zero
    by_contra hmod
    rw [if_pos (Nat.pos_of_ne_zero hmod), if_neg (by omega)] at hlast
    omega
  · intro h i j hi hj
    rw [card_draws hi, card_draws hj, Nat.mod_eq_zero_of_dvd h]
    simp

theorem draws_card_of_dvd (hi : i < m) (h : m ∣ R) : (draws R m i).card = R / m := by
  rw [card_draws hi, Nat.mod_eq_zero_of_dvd h]
  simp

theorem drawsOf_cons (a : Fin R) (w : Fin n → Fin R) :
    drawsOf (Fin.cons a w) 0 = a ∧ (fun i => drawsOf (Fin.cons a w : Fin (n + 1) →
      Fin R) (i + 1))
      = drawsOf w := by
  refine ⟨rfl, ?_⟩
  ext i
  by_cases h : i < n
  · have h' : i + 1 < n + 1 := by omega
    rw [drawsOf, drawsOf, dif_pos h, dif_pos h']
    rfl
  · have h' : ¬ i + 1 < n + 1 := by omega
    rw [drawsOf, drawsOf, dif_neg h, dif_neg h']

/-- The first draw takes the first element of the order, and the other draws take the
others. -/
theorem drawAll_cons_iff (hnodup : xs.Nodup) (hlen : xs.length = n + 1) (hi : xs[i]? = some x)
    (a : Fin R) (w : Fin n → Fin R) :
    drawAll (drawsOf (Fin.cons a w : Fin (n + 1) → Fin R)) (n + 1) xs = x :: ys ↔
      a.val % (n + 1) = i ∧ drawAll (drawsOf w) n (xs.eraseIdx i) = ys := by
  obtain ⟨hzero, htail⟩ := drawsOf_cons a w
  have hlt : a.val % (n + 1) < xs.length := by
    rw [hlen]
    exact Nat.mod_lt _ (Nat.succ_pos n)
  rw [drawAll, hzero, htail, hlen, List.getElem?_eq_getElem hlt, List.cons.injEq]
  obtain ⟨hi', hx⟩ := List.getElem?_eq_some_iff.mp hi
  rw [← hx, hnodup.getElem_inj_iff]
  constructor
  · intro h
    rw [← h.1]
    exact ⟨rfl, h.2⟩
  · intro h
    rw [h.1]
    exact ⟨rfl, h.2⟩

variable [DecidableEq α]

theorem card_orderDraws_cons (hnodup : xs.Nodup) (hlen : xs.length = n + 1)
    (hi : xs[i]? = some x) : (orderDraws R (n + 1) xs (x :: ys)).card =
      (draws R (n + 1) i).card * (orderDraws R n (xs.eraseIdx i) ys).card := by
  rw [← Finset.card_product, ← Finset.card_map (Fin.consEquiv fun _ => Fin R).toEmbedding]
  congr 1
  ext v
  obtain ⟨⟨a, w⟩, rfl⟩ := (Fin.consEquiv fun _ => Fin R).surjective v
  rw [Finset.mem_map_equiv, Equiv.symm_apply_apply, Finset.mem_product]
  simp only [orderDraws, draws, Finset.mem_filter, Finset.mem_univ, true_and]
  exact drawAll_cons_iff hnodup hlen hi a w

/-- What is left when the first element of an order is taken out of its place. -/
theorem exists_eraseIdx_perm (h : (x :: ys).Perm xs) :
    ∃ i, i < xs.length ∧ xs[i]? = some x ∧ ys.Perm (xs.eraseIdx i) := by
  have hmem : x ∈ xs := h.subset List.mem_cons_self
  have hlt : xs.idxOf x < xs.length := List.idxOf_lt_length_iff.mpr hmem
  refine ⟨xs.idxOf x, hlt, ?_, ?_⟩
  · rw [List.getElem?_eq_getElem hlt, List.getElem_idxOf]
  · rw [← List.erase_eq_eraseIdx_of_idxOf rfl]
    exact (List.cons_perm_iff_perm_erase.mp h).2

/-- Where every number of elements divides the number of results, every order has the same
number of sequences. -/
theorem card_orderDraws_of_dvd {order : List α} (hnodup : xs.Nodup) (hlen : xs.length = n)
    (hdvd : ∀ m, 1 ≤ m → m ≤ n → m ∣ R) (h : order.Perm xs) :
    (orderDraws R n xs order).card = ((List.range n).map fun m => R / (m + 1)).prod := by
  induction n generalizing xs order with
  | zero =>
      obtain rfl := List.length_eq_zero_iff.mp hlen
      obtain rfl := h.eq_nil
      simp [orderDraws, drawAll]
  | succ n ih =>
      cases order with
      | nil =>
          rw [← h.length_eq] at hlen
          cases hlen
      | cons x ys =>
          obtain ⟨i, hi, hget, hperm⟩ := exists_eraseIdx_perm h
          have hlen' : (xs.eraseIdx i).length = n := by
            rw [List.length_eraseIdx_of_lt hi, hlen, Nat.add_sub_cancel]
          rw [card_orderDraws_cons hnodup hlen hget,
            ih (hnodup.eraseIdx i) hlen' (fun m h₁ h₂ => hdvd m h₁ (by omega)) hperm,
            draws_card_of_dvd (by omega) (hdvd (n + 1) (by omega) le_rfl), List.range_succ,
            List.map_append, List.prod_append, mul_comm]
          simp

/-- **Every order is as likely as every other** exactly when every number of elements up to
that of the list divides the number of results. -/
theorem orders_uniform_iff (hnodup : xs.Nodup) (hlen : xs.length = n) (hR : n ≤ R) :
    (∀ order order' : List α, order.Perm xs → order'.Perm xs →
      (orderDraws R n xs order).card = (orderDraws R n xs order').card) ↔
    ∀ m, 1 ≤ m → m ≤ n → m ∣ R := by
  constructor
  · intro h
    induction n generalizing xs with
    | zero =>
        intro m h₁ h₂
        omega
    | succ n ih =>
        have hfirst : 0 < xs.length := by omega
        -- the orders that begin with one element
        have hcons : ∀ i (hi : i < xs.length) ys, ys.Perm (xs.eraseIdx i) →
            (orderDraws R (n + 1) xs (xs[i] :: ys)).card
              = (draws R (n + 1) i).card * (orderDraws R n (xs.eraseIdx i) ys).card ∧
            (xs[i] :: ys).Perm xs := by
          intro i hi ys hys
          exact ⟨card_orderDraws_cons hnodup hlen (List.getElem?_eq_getElem hi),
            (hys.cons _).trans (List.getElem_cons_eraseIdx_perm hi)⟩
        have hpos : ∀ m, m ≤ n + 1 → 0 < m → 0 < R / m := by
          intro m hm hm'
          exact Nat.div_pos (hm.trans hR) hm'
        have hlen' : ∀ i, i < xs.length → (xs.eraseIdx i).length = n := by
          intro i hi
          rw [List.length_eraseIdx_of_lt hi, hlen, Nat.add_sub_cancel]
        have hrest : ∀ m, 1 ≤ m → m ≤ n → m ∣ R := by
          apply ih (hnodup.eraseIdx 0) (hlen' 0 hfirst) (by omega)
          intro ys ys' hys hys'
          obtain ⟨hcard, hperm⟩ := hcons 0 hfirst ys hys
          obtain ⟨hcard', hperm'⟩ := hcons 0 hfirst ys' hys'
          have heq := h _ _ hperm hperm'
          rw [hcard, hcard'] at heq
          refine Nat.eq_of_mul_eq_mul_left ?_ heq
          rw [card_draws (Nat.succ_pos n)]
          exact Nat.add_pos_left (hpos (n + 1) le_rfl (Nat.succ_pos n)) _
        intro m h₁ h₂
        by_cases hm : m ≤ n
        · exact hrest m h₁ hm
        · obtain rfl : m = n + 1 := by omega
          apply (draws_uniform_iff h₁).mp
          intro i j hi hj
          rw [← hlen] at hi hj
          obtain ⟨hcard, hperm⟩ := hcons i hi _ (List.Perm.refl _)
          obtain ⟨hcard', hperm'⟩ := hcons j hj _ (List.Perm.refl _)
          have heq := h _ _ hperm hperm'
          rw [hcard, hcard', card_orderDraws_of_dvd (hnodup.eraseIdx i) (hlen' i hi) hrest
              (List.Perm.refl _), card_orderDraws_of_dvd (hnodup.eraseIdx j) (hlen' j hj) hrest
              (List.Perm.refl _)] at heq
          refine Nat.eq_of_mul_eq_mul_right (Nat.pos_of_ne_zero (List.prod_ne_zero ?_)) heq
          intro hmem
          obtain ⟨m, hm, hzero⟩ := List.mem_map.mp hmem
          rw [List.mem_range] at hm
          have hquot := hpos (m + 1) (by omega) (Nat.succ_pos m)
          omega
  · intro hdvd order order' h h'
    rw [card_orderDraws_of_dvd hnodup hlen hdvd h, card_orderDraws_of_dvd hnodup hlen hdvd h']

end Counting

end Pscv.Lib
