import Mathlib.Algebra.BigOperators.Intervals
import Mathlib.Algebra.Order.Group.Multiset
import Mathlib.Data.Finset.Interval
import Mathlib.Logic.Equiv.Basic
import Mathlib.Order.Interval.Finset.Nat

/-!
# Binary heaps in an array

The elements of a heap are in the cells from `1` to `n` of an array, and the parent of the cell
`i` is the cell `i / 2`. A heap is in order when no element is above its parent. `Rising` and
`Sinking` are what holds while one element is on its way up or down: the order holds everywhere
but at that element, and its children are not above its parent.

## Main results

* `Heap.Rising.step`, `Heap.Rising.done` — an element on its way up.
* `Heap.Sinking.step`, `Heap.Sinking.done` — an element on its way down.
* `Heap.contents_exchange` — the exchange of two cells keeps the elements.
* `Heap.Ordered.le_top` — the first cell has a largest element.
-/

namespace Pscv.Lib.Heap

variable {α β : Type*} {n i j m : ℕ} {c c' : ℕ → α} {x : α}

/-! ### The elements -/

/-- The elements in the cells from `1` to `n`. -/
def contents (n : ℕ) (c : ℕ → α) : Multiset α := ∑ i ∈ Finset.Icc 1 n, {c i}

/-- The cells `i` and `j` exchange their elements. -/
def exchange (i j : ℕ) (c : ℕ → α) : ℕ → α :=
  Function.update (Function.update c i (c j)) j (c i)

theorem contents_succ (n : ℕ) (c : ℕ → α) :
    contents (n + 1) c = c (n + 1) ::ₘ contents n c := by
  rw [contents, Finset.sum_Icc_succ_top (Nat.le_add_left 1 n), add_comm]
  rfl

theorem contents_congr (h : ∀ i, 1 ≤ i → i ≤ n → c' i = c i) :
    contents n c' = contents n c := by
  apply Finset.sum_congr rfl
  intro i hi
  obtain ⟨hone, hn⟩ := Finset.mem_Icc.mp hi
  rw [h i hone hn]

theorem mem_contents : x ∈ contents n c ↔ ∃ i, 1 ≤ i ∧ i ≤ n ∧ c i = x := by
  simp only [contents, Multiset.mem_sum, Finset.mem_Icc, Multiset.mem_singleton, and_assoc,
    eq_comm (a := x)]

theorem card_contents : (contents n c).card = n := by
  simp [contents]

theorem contents_map {γ : Type*} (f : α → γ) (n : ℕ) (c : ℕ → α) :
    contents n (f ∘ c) = (contents n c).map f := by
  induction n with
  | zero => rfl
  | succ n ih => rw [contents_succ, contents_succ, Multiset.map_cons, ih, Function.comp_apply]

theorem exchange_eq (i j : ℕ) (c : ℕ → α) : exchange i j c = c ∘ Equiv.swap i j := by
  funext k
  rw [exchange, Function.comp_apply]
  by_cases hj : k = j
  · rw [hj, Function.update_self, Equiv.swap_apply_right]
  · rw [Function.update_of_ne hj]
    by_cases hi : k = i
    · rw [hi, Function.update_self, Equiv.swap_apply_left]
    · rw [Function.update_of_ne hi, Equiv.swap_apply_of_ne_of_ne hi hj]

/-- The exchange of two cells. -/
theorem contents_exchange (hi : 1 ≤ i ∧ i ≤ n) (hj : 1 ≤ j ∧ j ≤ n) :
    contents n (exchange i j c) = contents n c := by
  rw [exchange_eq, contents, contents]
  apply Finset.sum_equiv (Equiv.swap i j)
  · intro k
    rw [Finset.mem_Icc, Finset.mem_Icc, Equiv.swap_apply_def]
    split_ifs with hki hkj
    · exact iff_of_true (hki ▸ hi) hj
    · exact iff_of_true (hkj ▸ hj) hi
    · exact Iff.rfl
  · intro k _
    rfl

/-- The last element takes the place of the first. -/
theorem contents_replace_top (n : ℕ) (c : ℕ → α) :
    c 1 ::ₘ contents n (Function.update c 1 (c (n + 1))) = contents (n + 1) c := by
  rw [← contents_exchange (c := c) (i := 1) (j := n + 1) ⟨le_rfl, by omega⟩ ⟨by omega, le_rfl⟩,
    contents_succ]
  congr 1
  · rw [exchange, Function.update_self]
  · apply contents_congr
    intro i _ hi
    have hne : i ≠ n + 1 := by omega
    rw [exchange, Function.update_of_ne hne]

theorem contents_append (n : ℕ) (c : ℕ → α) (x : α) :
    contents (n + 1) (Function.update c (n + 1) x) = x ::ₘ contents n c := by
  rw [contents_succ, Function.update_self]
  congr 1
  apply contents_congr
  intro i _ hi
  exact Function.update_of_ne (by omega) _ _

/-! ### The order -/

variable [LinearOrder β] {key : α → β}

/-- No element is above its parent. -/
def Ordered (key : α → β) (n : ℕ) (c : ℕ → α) : Prop :=
  ∀ i, 2 ≤ i → i ≤ n → key (c i) ≤ key (c (i / 2))

/-- Only the element in the cell `i` may be above its parent. -/
structure Rising (key : α → β) (n i : ℕ) (c : ℕ → α) : Prop where
  ordered : ∀ j, 2 ≤ j → j ≤ n → j ≠ i → key (c j) ≤ key (c (j / 2))
  above : 2 ≤ i → ∀ j, j ≤ n → j / 2 = i → key (c j) ≤ key (c (i / 2))

/-- Only the element in the cell `i` may be below its children. -/
structure Sinking (key : α → β) (n i : ℕ) (c : ℕ → α) : Prop where
  ordered : ∀ j, 2 ≤ j → j ≤ n → j / 2 ≠ i → key (c j) ≤ key (c (j / 2))
  above : 2 ≤ i → ∀ j, j ≤ n → j / 2 = i → key (c j) ≤ key (c (i / 2))

/-- The first cell has a largest element. -/
theorem Ordered.le_top (O : Ordered key n c) (hi : 1 ≤ i) (hn : i ≤ n) :
    key (c i) ≤ key (c 1) := by
  induction i using Nat.strong_induction_on with
  | _ i ih =>
      rcases Nat.lt_or_ge 1 i with hlt | hle
      · exact (O i hlt hn).trans (ih (i / 2) (by omega) (by omega) (by omega))
      · rw [Nat.le_antisymm hle hi]

theorem Ordered.congr (O : Ordered key n c) (h : ∀ i, 1 ≤ i → i ≤ n → c' i = c i) :
    Ordered key n c' := by
  intro i hi hn
  rw [h i (by omega) hn, h (i / 2) (by omega) (by omega)]
  exact O i hi hn

/-- A new element in the last cell. -/
theorem Ordered.rising (O : Ordered key n c) (x : α) :
    Rising key (n + 1) (n + 1) (Function.update c (n + 1) x) where
  ordered j hj hn hne := by
    rw [Function.update_of_ne hne, Function.update_of_ne (by omega)]
    exact O j hj (by omega)
  above h j hj hparent := by omega

theorem Rising.step (R : Rising key n i c) (hi : 2 ≤ i) (hn : i ≤ n)
    (hlt : key (c (i / 2)) < key (c i)) : Rising key n (i / 2) (exchange i (i / 2) c) where
  ordered j hj hjn hne := by
    rw [exchange, Function.update_of_ne hne]
    by_cases hji : j = i
    · rw [hji, Function.update_self, Function.update_self]
      exact hlt.le
    rw [Function.update_of_ne hji]
    have hbelow := R.ordered j hj hjn hji
    by_cases hpar : j / 2 = i / 2
    · rw [hpar, Function.update_self]
      rw [hpar] at hbelow
      exact hbelow.trans hlt.le
    rw [Function.update_of_ne hpar]
    by_cases hparent : j / 2 = i
    · rw [hparent, Function.update_self]
      exact R.above hi j hjn hparent
    · rw [Function.update_of_ne hparent]
      exact hbelow
  above h j hjn hparent := by
    have hup := R.ordered (i / 2) h (by omega) (by omega)
    rw [exchange, Function.update_of_ne (a := i / 2 / 2) (by omega),
      Function.update_of_ne (a := i / 2 / 2) (by omega), Function.update_of_ne (by omega)]
    by_cases hji : j = i
    · rw [hji, Function.update_self]
      exact hup
    · rw [Function.update_of_ne hji]
      have hbelow := R.ordered j (by omega) hjn hji
      rw [hparent] at hbelow
      exact hbelow.trans hup

theorem Rising.done (R : Rising key n i c) (h : i < 2 ∨ key (c i) ≤ key (c (i / 2))) :
    Ordered key n c := by
  intro j hj hn
  by_cases hji : j = i
  · rw [hji]
    rcases h with h | h
    · omega
    · exact h
  · exact R.ordered j hj hn hji

/-- The last element in the first cell. -/
theorem Ordered.sinking (O : Ordered key (n + 1) c) :
    Sinking key n 1 (Function.update c 1 (c (n + 1))) where
  ordered j hj hn hparent := by
    rw [Function.update_of_ne (by omega), Function.update_of_ne hparent]
    exact O j hj (by omega)
  above h := absurd h (by omega)

theorem Sinking.step (S : Sinking key n i c) (hi : 1 ≤ i) (hn : m ≤ n) (hm : m / 2 = i)
    (hmax : ∀ j, j ≤ n → j / 2 = i → key (c j) ≤ key (c m)) (hlt : key (c i) < key (c m)) :
    Sinking key n m (exchange i m c) where
  ordered j hj hjn hne := by
    rw [exchange, Function.update_of_ne (a := j / 2) hne]
    by_cases hjm : j = m
    · rw [hjm, hm, Function.update_self, Function.update_self]
      exact hlt.le
    rw [Function.update_of_ne hjm]
    by_cases hparent : j / 2 = i
    · rw [hparent, Function.update_self, Function.update_of_ne (by omega)]
      exact hmax j hjn hparent
    rw [Function.update_of_ne hparent]
    have hbelow := S.ordered j hj hjn hparent
    by_cases hji : j = i
    · rw [hji, Function.update_self]
      exact S.above (by omega) m hn hm
    · rw [Function.update_of_ne hji]
      exact hbelow
  above h j hjn hparent := by
    rw [exchange, Function.update_of_ne (by omega), Function.update_of_ne (by omega),
      Function.update_of_ne (a := m / 2) (by omega), hm, Function.update_self, ← hparent]
    exact S.ordered j (by omega) hjn (by omega)

theorem Sinking.done (S : Sinking key n i c)
    (h : ∀ j, 2 ≤ j → j ≤ n → j / 2 = i → key (c j) ≤ key (c i)) : Ordered key n c := by
  intro j hj hn
  by_cases hparent : j / 2 = i
  · rw [hparent]
    exact h j hj hn hparent
  · exact S.ordered j hj hn hparent

end Pscv.Lib.Heap
