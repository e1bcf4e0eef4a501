import Mathlib.Order.OrderDual
import Pscv.Kernel.Event
import Pscv.Lib.Heap
import Pscv.Lib.Machine

/-!
# `sc_ppq`

The priority queue of the timed notifications, and of `sc_event_queue`: a binary heap in an
array that grows by half when it is full. An access outside the array fails, and so does a size
or an index that is no `int`. What a new array has in its cells is given by a parameter.

`m_compar` compares the elements; it is positive for a first argument that comes before the
second. `insert` leaves its cell open until the place of the new element is found.

## Main results

* `PriorityQueue.insert_spec`, `PriorityQueue.extractTop_spec` — one operation.
* `PriorityQueue.ppq_run` — a run stays inside its arrays, and is one of a multiset from which
  a first element is taken.
-/

namespace Pscv.Kernel

open Pscv.Lib

/-- `sc_ppq_base`. -/
structure PriorityQueue (α : Type) where
  heap : ℕ → α
  sizeAlloc : ℕ
  heapSize : ℕ

namespace PriorityQueue

variable {α : Type}

def parent (i : ℕ) : ℕ := i / 2
def left (i : ℕ) : ℕ := 2 * i
def right (i : ℕ) : ℕ := 2 * i + 1

/-- The array has the cells from `0` to `m_size_alloc`. -/
def read (i : ℕ) (q : PriorityQueue α) : Option α :=
  if i ≤ q.sizeAlloc then some (q.heap i) else none

def write (i : ℕ) (x : α) (q : PriorityQueue α) : Option (PriorityQueue α) :=
  if i ≤ q.sizeAlloc then some { q with heap := Function.update q.heap i x } else none

/-- The constructor: the last cell of the new array `memory` is not set. -/
def new (null : α) (memory : ℕ → α) (sz : ℤ) : Option (PriorityQueue α) := do
  let alloc := if sz < 2 then 2 else sz.toNat
  let _ ← asInt (alloc + 1)
  some {
    heap := fun i => if i < alloc then null else memory i
    sizeAlloc := alloc
    heapSize := 0 }

/-- `top`. -/
def top (q : PriorityQueue α) : Option α := q.read 1

/-- A larger array, when there is no cell for the last element: the elements before it are
copied. -/
def resize (memory : ℕ → α) (q : PriorityQueue α) : Option (PriorityQueue α) :=
  if q.heapSize > q.sizeAlloc then do
    let alloc ← asInt (q.sizeAlloc + q.sizeAlloc / 2)
    let _ ← asInt (alloc + 1)
    if q.heapSize ≤ q.sizeAlloc + 1 ∧ q.heapSize ≤ alloc + 1 then
      some { q with
        heap := fun j => if 1 ≤ j ∧ j < q.heapSize then q.heap j else memory j
        sizeAlloc := alloc }
    else none
  else some q

/-- The loop of `insert`: the cell for `elem`, and the elements that made room for it. -/
def insertLoop (compar : α → α → ℤ) (elem : α) :
    ℕ → ℕ → PriorityQueue α → Option (ℕ × PriorityQueue α)
  | 0, _, _ => none
  | n + 1, i, q =>
      if i > 1 then do
        if compar (← q.read (parent i)) elem < 0 then
          let q ← q.write i (← q.read (parent i))
          insertLoop compar elem n (parent i) q
        else some (i, q)
      else some (i, q)

/-- `insert`. -/
def insert (compar : α → α → ℤ) (memory : ℕ → α) (elem : α) (q : PriorityQueue α) :
    Option (PriorityQueue α) := do
  let size ← asInt (q.heapSize + 1)
  let q ← { q with heapSize := size }.resize memory
  let (i, q) ← q.insertLoop compar elem q.heapSize q.heapSize
  q.write i elem

/-- The cell of the largest among the element in the cell `i` and its children. -/
def largest (compar : α → α → ℤ) (i : ℕ) (q : PriorityQueue α) : Option ℕ := do
  let largest := if compar (← q.read (left i)) (← q.read i) > 0 then left i else i
  let r ← asInt (right i)
  if r ≤ q.heapSize then
    if compar (← q.read r) (← q.read largest) > 0 then some r else some largest
  else some largest

/-- `heapify`. -/
def heapify (compar : α → α → ℤ) : ℕ → ℕ → PriorityQueue α → Option (PriorityQueue α)
  | 0, _, _ => none
  | n + 1, i, q => do
      let l ← asInt (left i)
      if l ≤ q.heapSize then
        let m ← q.largest compar i
        if m ≠ i then
          let tmp ← q.read i
          let q ← q.write i (← q.read m)
          let q ← q.write m tmp
          heapify compar n m q
        else some q
      else some q

/-- `extract_top`. -/
def extractTop (compar : α → α → ℤ) (q : PriorityQueue α) : Option (α × PriorityQueue α) := do
  if q.heapSize > 0 then
    let topelem ← q.read 1
    let q ← q.write 1 (← q.read q.heapSize)
    let q := { q with heapSize := q.heapSize - 1 }
    let q ← q.heapify compar (q.heapSize + 1) 1
    some (topelem, q)
  else none

/-- The elements, which are pointers, stay where they are when what they point to changes. -/
def modify (f : α → α) (q : PriorityQueue α) : PriorityQueue α := { q with heap := f ∘ q.heap }

/-! ### One operation -/

/-- `compar` compares by `key`; larger keys come first. -/
structure Compares {β : Type*} [LinearOrder β] (compar : α → α → ℤ) (key : α → β) : Prop where
  neg : ∀ a b, compar a b < 0 ↔ key a < key b
  pos : ∀ a b, compar a b > 0 ↔ key b < key a

/-- The elements of the queue. -/
def contents (q : PriorityQueue α) : Multiset α := Heap.contents q.heapSize q.heap

variable {β : Type*} [LinearOrder β] {compar : α → α → ℤ} {key : α → β}
variable {q q' : PriorityQueue α} {x : α} {i n : ℕ}

/-- As many elements as the indices of `heapify` can reach. -/
def maxSize : ℕ := 2 ^ 30

/-- The elements fit into the array, and are in order; the sizes are small enough. -/
structure Valid (key : α → β) (q : PriorityQueue α) : Prop where
  alloc : 2 ≤ q.sizeAlloc
  allocInt : q.sizeAlloc < intMax
  size : q.heapSize ≤ q.sizeAlloc
  sizeMax : q.heapSize ≤ maxSize
  ordered : Heap.Ordered key q.heapSize q.heap

theorem read_eq (h : i ≤ q.sizeAlloc) : q.read i = some (q.heap i) := if_pos h

theorem write_eq (h : i ≤ q.sizeAlloc) :
    q.write i x = some { q with heap := Function.update q.heap i x } := if_pos h

/-- The constructor has a result for every size but the largest. -/
theorem new_spec (null : α) (memory : ℕ → α) {sz : ℤ} (hsz : sz < intMax) :
    ∃ q, new null memory sz = some q ∧ q.Valid key ∧ q.heapSize = 0 := by
  obtain ⟨alloc, halloc⟩ : ∃ alloc, alloc = if sz < 2 then 2 else sz.toNat := ⟨_, rfl⟩
  have htwo : 2 ≤ alloc ∧ alloc < intMax := by
    rw [halloc, intMax] at *
    split_ifs <;> omega
  simp only [new, ← halloc, asInt_of_le (Nat.succ_le_of_lt htwo.2), Option.bind_eq_bind,
    Option.bind_some]
  refine ⟨_, rfl, ⟨htwo.1, htwo.2, Nat.zero_le _, Nat.zero_le _, fun i hi hn => ?_⟩, rfl⟩
  have hzero : i ≤ 0 := hn
  omega

theorem top_spec (V : q.Valid key) (h : 0 < q.heapSize) :
    ∃ x, q.top = some x ∧ x ∈ q.contents ∧ ∀ y ∈ q.contents, key y ≤ key x := by
  have hone := V.alloc
  refine ⟨q.heap 1, read_eq (by omega), Heap.mem_contents.mpr ⟨1, le_rfl, h, rfl⟩, ?_⟩
  intro y hy
  obtain ⟨i, hi, hn, rfl⟩ := Heap.mem_contents.mp hy
  exact V.ordered.le_top hi hn

/-- The array has a cell for one element more, and the elements are the same. -/
theorem resize_spec (V : q.Valid key) (hmax : q.heapSize < maxSize) (memory : ℕ → α) :
    ∃ q', resize memory { q with heapSize := q.heapSize + 1 } = some q' ∧
      q'.heapSize = q.heapSize + 1 ∧ q'.heapSize ≤ q'.sizeAlloc ∧ 2 ≤ q'.sizeAlloc ∧
      q'.sizeAlloc < intMax ∧ ∀ i, 1 ≤ i → i ≤ q.heapSize → q'.heap i = q.heap i := by
  have halloc := V.alloc
  have hsize := V.size
  by_cases hfull : q.heapSize + 1 > q.sizeAlloc
  · have hint : q.sizeAlloc + q.sizeAlloc / 2 < intMax := by
      rw [maxSize] at hmax
      rw [intMax]
      omega
    simp only [resize, if_pos hfull, asInt_of_le hint.le, asInt_of_le (Nat.succ_le_of_lt hint),
      Option.bind_eq_bind, Option.bind_some]
    rw [if_pos ⟨by omega, by omega⟩]
    refine ⟨_, rfl, rfl, ?_, ?_, hint, fun i hi hn => if_pos ⟨hi, Nat.lt_succ_of_le hn⟩⟩
    · change q.heapSize + 1 ≤ q.sizeAlloc + q.sizeAlloc / 2
      omega
    · change 2 ≤ q.sizeAlloc + q.sizeAlloc / 2
      omega
  · exact ⟨_, if_neg hfull, rfl, Nat.le_of_not_lt hfull, halloc, V.allocInt, fun _ _ _ => rfl⟩

/-- The loop finds the cell for the new element. -/
theorem insertLoop_spec (K : Compares compar key) (hi : 1 ≤ i) (hn : i ≤ q.heapSize)
    (hfuel : i ≤ n) (hsize : q.heapSize ≤ q.sizeAlloc)
    (R : Heap.Rising key q.heapSize i (Function.update q.heap i x)) :
    ∃ j h, insertLoop compar x n i q = some (j, { q with heap := h }) ∧ 1 ≤ j ∧
      j ≤ q.heapSize ∧ Heap.Ordered key q.heapSize (Function.update h j x) ∧
      Heap.contents q.heapSize (Function.update h j x) =
        Heap.contents q.heapSize (Function.update q.heap i x) := by
  induction n generalizing i q with
  | zero => omega
  | succ n ih =>
      by_cases hone : i > 1
      · have hread : q.read (parent i) = some (q.heap (parent i)) :=
          read_eq (by rw [parent]; omega)
        have hwrite := write_eq (q := q) (i := i) (x := q.heap (parent i)) (by omega)
        have hne : i / 2 ≠ i := by omega
        have hup : parent i ≤ i := Nat.div_le_self i 2
        by_cases hlt : compar (q.heap (parent i)) x < 0
        · -- the parent moves down, and the open cell up
          have hmove : Function.update (Function.update q.heap i (q.heap (parent i)))
              (parent i) x = Heap.exchange i (i / 2) (Function.update q.heap i x) := by
            rw [Heap.exchange, parent, Function.update_self, Function.update_of_ne hne,
              Function.update_idem]
          have hkey : key (Function.update q.heap i x (i / 2)) <
              key (Function.update q.heap i x i) := by
            rw [Function.update_self, Function.update_of_ne hne]
            exact (K.neg _ _).mp hlt
          obtain ⟨j, h, hloop, hj, hjn, O, hcontents⟩ := ih
            (q := { q with heap := Function.update q.heap i (q.heap (parent i)) })
            (i := parent i) (by rw [parent]; omega) (hup.trans hn)
              (by rw [parent]; omega) hsize
            (by rw [hmove]; exact R.step hone hn hkey)
          refine ⟨j, h, ?_, hj, hjn, O, ?_⟩
          · simp only [insertLoop, if_pos hone, hread, Option.bind_eq_bind, Option.bind_some,
              if_pos hlt, hwrite]
            exact hloop
          · rw [hcontents, hmove]
            exact Heap.contents_exchange ⟨hi, hn⟩ ⟨by omega, hup.trans hn⟩
        · refine ⟨i, q.heap, ?_, hi, hn, R.done (.inr ?_), rfl⟩
          · simp only [insertLoop, if_pos hone, hread, Option.bind_eq_bind, Option.bind_some,
              if_neg hlt]
          · rw [Function.update_self, Function.update_of_ne hne]
            exact le_of_not_gt (mt (K.neg _ _).mpr hlt)
      · refine ⟨i, q.heap, ?_, hi, hn, R.done (.inl (by omega)), rfl⟩
        simp only [insertLoop, if_neg hone]

/-- `insert`. -/
theorem insert_spec (K : Compares compar key) (V : q.Valid key) (hmax : q.heapSize < maxSize)
    (memory : ℕ → α) (x : α) : ∃ q', q.insert compar memory x = some q' ∧ q'.Valid key ∧
      q'.contents = x ::ₘ q.contents := by
  obtain ⟨q₁, hresize, hsize, hfit, halloc, hint, hheap⟩ := resize_spec V hmax memory
  have O : Heap.Ordered key q.heapSize q₁.heap := V.ordered.congr hheap
  have R := O.rising x
  rw [← hsize] at R
  obtain ⟨j, h, hloop, hj, hjn, O', hcontents⟩ :=
    insertLoop_spec K (by omega) le_rfl le_rfl hfit R
  refine ⟨{ q₁ with heap := Function.update h j x }, ?_, ⟨halloc, hint, hfit, ?_, O'⟩, ?_⟩
  · have hcount : asInt (q.heapSize + 1) = some (q.heapSize + 1) := by
      apply asInt_of_le
      rw [maxSize] at hmax
      rw [intMax]
      omega
    simp only [insert, hcount, hresize, Option.bind_eq_bind, Option.bind_some]
    rw [hloop]
    exact write_eq (q := { q₁ with heap := h }) (hjn.trans hfit)
  · change q₁.heapSize ≤ maxSize
    omega
  · change Heap.contents q₁.heapSize (Function.update h j x) = _
    rw [hcontents, hsize, Heap.contents_append, Heap.contents_congr hheap]
    rfl

theorem eq_left_or_right {j : ℕ} (h : j / 2 = i) : j = left i ∨ j = right i := by
  rw [left, right]
  omega

/-- The cell `m` has a largest of the elements in the cell `i` and its children. -/
structure Largest (key : α → β) (i m : ℕ) (q : PriorityQueue α) : Prop where
  size : m ≤ q.heapSize
  parent : m = i ∨ m / 2 = i ∧ i < m ∧ key (q.heap i) < key (q.heap m)
  self : key (q.heap i) ≤ key (q.heap m)
  children : ∀ j ≤ q.heapSize, j / 2 = i → key (q.heap j) ≤ key (q.heap m)

theorem largest_spec (K : Compares compar key) (hi : 1 ≤ i) (hl : left i ≤ q.heapSize)
    (hsize : q.heapSize ≤ q.sizeAlloc) (hmax : q.heapSize < maxSize) :
      ∃ m, q.largest compar i = some m ∧ Largest key i m q := by
  have hread : ∀ j, j ≤ q.heapSize → q.read j = some (q.heap j) :=
    fun j hj => read_eq (hj.trans hsize)
  have hleft : left i / 2 = i := by rw [left]; omega
  have hright : right i / 2 = i := by rw [right]; omega
  have hlt : i < left i := by rw [left]; omega
  have hlr : left i < right i := Nat.lt_succ_self _
  -- the first comparison
  obtain ⟨m, hm, hmi, hself, hmleft⟩ : ∃ m,
      (if compar (q.heap (left i)) (q.heap i) > 0 then left i else i) = m ∧
      (m = i ∨ m = left i ∧ key (q.heap i) < key (q.heap m)) ∧
      key (q.heap i) ≤ key (q.heap m) ∧ key (q.heap (left i)) ≤ key (q.heap m) := by
    by_cases hgt : compar (q.heap (left i)) (q.heap i) > 0
    · have hkey := (K.pos _ _).mp hgt
      exact ⟨left i, if_pos hgt, .inr ⟨rfl, hkey⟩, hkey.le, le_rfl⟩
    · exact ⟨i, if_neg hgt, .inl rfl, le_rfl, le_of_not_gt (mt (K.pos _ _).mpr hgt)⟩
  have hmsize : m ≤ q.heapSize := by
    rcases hmi with rfl | ⟨rfl, -⟩
    · exact hlt.le.trans hl
    · exact hl
  have hmparent : m = i ∨ m / 2 = i ∧ i < m ∧ key (q.heap i) < key (q.heap m) := by
    rcases hmi with h | ⟨rfl, hkey⟩
    · exact .inl h
    · exact .inr ⟨hleft, hlt, hkey⟩
  have hint : asInt (right i) = some (right i) := by
    apply asInt_of_le
    rw [maxSize] at hmax
    rw [left] at hl
    rw [right, intMax]
    omega
  by_cases hr : right i ≤ q.heapSize
  · -- the second one
    have hlargest : q.largest compar i =
        if compar (q.heap (right i)) (q.heap m) > 0 then some (right i) else some m := by
      simp only [largest, hread _ hl, hread _ (hlt.le.trans hl), Option.bind_eq_bind,
        Option.bind_some, hm, hint, if_pos hr, hread _ hr, hread _ hmsize]
    by_cases hgt : compar (q.heap (right i)) (q.heap m) > 0
    · have hkey := (K.pos _ _).mp hgt
      refine ⟨right i, hlargest.trans (if_pos hgt), hr,
        .inr ⟨hright, hlt.trans hlr, hself.trans_lt hkey⟩, hself.trans hkey.le, ?_⟩
      intro j _ hji
      rcases eq_left_or_right hji with rfl | rfl
      · exact hmleft.trans hkey.le
      · exact le_rfl
    · refine ⟨m, hlargest.trans (if_neg hgt), hmsize, hmparent, hself, ?_⟩
      intro j _ hji
      rcases eq_left_or_right hji with rfl | rfl
      · exact hmleft
      · exact le_of_not_gt (mt (K.pos _ _).mpr hgt)
  · refine ⟨m, ?_, hmsize, hmparent, hself, ?_⟩
    · simp only [largest, hread _ hl, hread _ (hlt.le.trans hl), Option.bind_eq_bind,
        Option.bind_some, hm, hint, if_neg hr]
    · intro j hj hji
      rcases eq_left_or_right hji with rfl | rfl
      · exact hmleft
      · exact absurd hj hr

/-- One turn of the loop: the order is restored, or the element goes down. -/
theorem heapify_step (K : Compares compar key) (hi : 1 ≤ i) (him : i < maxSize)
    (hsize : q.heapSize ≤ q.sizeAlloc) (hmax : q.heapSize < maxSize) :
    (heapify compar (n + 1) i q = some q ∧
      ∀ j, 2 ≤ j → j ≤ q.heapSize → j / 2 = i → key (q.heap j) ≤ key (q.heap i)) ∨
    ∃ m, (m / 2 = i ∧ i < m ∧ key (q.heap i) < key (q.heap m)) ∧ Largest key i m q ∧
      heapify compar (n + 1) i q =
        heapify compar n m { q with heap := Heap.exchange i m q.heap } := by
  have hint : asInt (left i) = some (left i) := by
    apply asInt_of_le
    rw [maxSize] at him
    rw [left, intMax]
    omega
  by_cases hl : left i ≤ q.heapSize
  · obtain ⟨m, hlargest, L⟩ := largest_spec K hi hl hsize hmax
    by_cases hmi : m = i
    · left
      refine ⟨?_, fun j _ hj hji => hmi ▸ L.children j hj hji⟩
      simp only [heapify, hint, if_pos hl, hlargest, Option.bind_eq_bind,
        Option.bind_some, hmi, ne_eq, not_true_eq_false, if_false]
    · right
      have hdown := L.parent.resolve_left hmi
      refine ⟨m, hdown, L, ?_⟩
      have hm := L.size.trans hsize
      have hreadi : q.read i = some (q.heap i) := read_eq (hdown.2.1.le.trans hm)
      have hwritei := write_eq (q := q) (x := q.heap m) (hdown.2.1.le.trans hm)
      have hwritem := write_eq (q := { q with heap := Function.update q.heap i (q.heap m) })
        (x := q.heap i) hm
      simp only [heapify, hint, if_pos hl, hlargest, Option.bind_eq_bind, Option.bind_some,
        if_pos hmi, ne_eq, hreadi, read_eq hm, hwritei, hwritem]
      rfl
  · left
    refine ⟨by simp only [heapify, hint, if_neg hl, Option.bind_eq_bind, Option.bind_some],
      fun j _ hj hji => ?_⟩
    rcases eq_left_or_right hji with rfl | rfl
    · exact absurd hj hl
    · exact absurd ((Nat.le_succ _).trans hj) hl

/-- `heapify` puts one element in its place. -/
theorem heapify_spec (K : Compares compar key) (hi : 1 ≤ i) (him : i < maxSize)
    (hfuel : q.heapSize + 1 ≤ n + i) (hn : 1 ≤ n) (hsize : q.heapSize ≤ q.sizeAlloc)
    (hmax : q.heapSize < maxSize)
    (S : Heap.Sinking key q.heapSize i q.heap) :
    ∃ h, heapify compar n i q = some { q with heap := h } ∧ Heap.Ordered key q.heapSize h ∧
      Heap.contents q.heapSize h = Heap.contents q.heapSize q.heap := by
  induction n generalizing i q with
  | zero => omega
  | succ n ih =>
      rcases heapify_step (n := n) K hi him hsize hmax with ⟨hdone, hlargest⟩ |
        ⟨m, ⟨hparent, him, hlt⟩, L, hstep⟩
      · exact ⟨q.heap, hdone, S.done hlargest, rfl⟩
      · have hm := L.size
        obtain ⟨h, hheapify, O, hcontents⟩ := ih (i := m)
          (q := { q with heap := Heap.exchange i m q.heap }) (by omega) (hm.trans_lt hmax)
          (by change q.heapSize + 1 ≤ _; omega) (by omega) hsize hmax
          (S.step hi hm hparent L.children hlt)
        refine ⟨h, hstep.trans hheapify, O, hcontents.trans ?_⟩
        exact Heap.contents_exchange ⟨hi, him.le.trans hm⟩ ⟨hi.trans him.le, hm⟩

/-- `extract_top`. -/
theorem extractTop_spec (K : Compares compar key) (V : q.Valid key) (h : 0 < q.heapSize) :
    ∃ x q', q.extractTop compar = some (x, q') ∧ q.top = some x ∧ q'.Valid key ∧
      q.contents = x ::ₘ q'.contents ∧ ∀ y ∈ q.contents, key y ≤ key x := by
  have halloc := V.alloc
  have hone : 1 ≤ q.sizeAlloc := by omega
  have hsize : q.heapSize - 1 + 1 = q.heapSize := by omega
  have O := V.ordered
  rw [← hsize] at O
  have hmax := V.sizeMax
  obtain ⟨h', hheapify, O', hcontents⟩ := heapify_spec (n := q.heapSize - 1 + 1) (i := 1)
    (q := ⟨Function.update q.heap 1 (q.heap (q.heapSize - 1 + 1)), q.sizeAlloc,
      q.heapSize - 1⟩)
    K le_rfl (by decide) (Nat.le_succ _) (by omega) ((Nat.sub_le _ _).trans V.size)
    (by change q.heapSize - 1 < maxSize; omega) O.sinking
  have htop : q.top = some (q.heap 1) := read_eq hone
  refine ⟨q.heap 1, ⟨h', q.sizeAlloc, q.heapSize - 1⟩, ?_, htop,
    ⟨halloc, V.allocInt, (Nat.sub_le _ _).trans V.size, (Nat.sub_le _ _).trans hmax, O'⟩,
    ?_, ?_⟩
  · have hread := read_eq V.size
    have hwrite := write_eq (q := q) (x := q.heap q.heapSize) hone
    rw [hsize] at hheapify
    simp only [extractTop, if_pos h, read_eq hone, hread, hwrite, Option.bind_eq_bind,
      Option.bind_some, hsize, hheapify]
  · have hreplace := Heap.contents_replace_top (q.heapSize - 1) q.heap
    rw [hsize] at hreplace
    rw [contents, ← hreplace, contents]
    congr 1
    rw [← hsize]
    exact hcontents.symm
  · intro y hy
    obtain ⟨i, hi, hn, rfl⟩ := Heap.mem_contents.mp hy
    exact V.ordered.le_top hi hn

/-- The elements change, but not their order. -/
theorem modify_spec (V : q.Valid key) {f : α → α} (hf : ∀ x, key (f x) = key x) :
    (q.modify f).Valid key ∧ (q.modify f).contents = q.contents.map f := by
  refine ⟨⟨V.alloc, V.allocInt, V.size, V.sizeMax, fun i hi hn => ?_⟩,
    Heap.contents_map f q.heapSize q.heap⟩
  change key (f (q.heap i)) ≤ key (f (q.heap (i / 2)))
  rw [hf, hf]
  exact V.ordered i hi hn

/-! ### Runs -/

/-- The operations of a queue. A call of `insert` comes with what a new array has in its cells.
-/
inductive Op (α : Type)
  | insert (memory : ℕ → α) (x : α)
  | extractTop
  | modify (f : α → α)

/-- One operation, and the element that it returns. -/
def step (compar : α → α → ℤ) : Op α → PriorityQueue α → Option (Option α × PriorityQueue α)
  | .insert memory x, q => (q.insert compar memory x).map fun q => (none, q)
  | .extractTop, q => (q.extractTop compar).map fun r => (some r.1, r.2)
  | .modify f, q => some (none, q.modify f)

/-- `extract_top` is not called on an empty queue, which starts with `n` elements, there are
never too many of them, and no key changes. -/
def Allowed (key : α → β) : ℕ → List (Op α) → Prop
  | _, [] => True
  | n, .insert _ _ :: ops => n < maxSize ∧ Allowed key (n + 1) ops
  | n, .extractTop :: ops => 0 < n ∧ Allowed key (n - 1) ops
  | n, .modify f :: ops => (∀ x, key (f x) = key x) ∧ Allowed key n ops

/-- What an operation does to the elements. -/
inductive Serves (key : α → β) : Op α → Multiset α → Option α → Multiset α → Prop
  | insert (memory : ℕ → α) (x : α) (B : Multiset α) :
      Serves key (.insert memory x) B none (x ::ₘ B)
  | extractTop (x : α) (B : Multiset α) (h : ∀ y ∈ B, key y ≤ key x) :
      Serves key .extractTop (x ::ₘ B) (some x) B
  | modify (f : α → α) (B : Multiset α) : Serves key (.modify f) B none (B.map f)

/-- The queue has the elements of `B`, and `ops` are still to come. -/
def Holds (key : α → β) (ops : List (Op α)) (q : PriorityQueue α) (B : Multiset α) : Prop :=
  q.Valid key ∧ q.contents = B ∧ Allowed key q.heapSize ops

theorem step_spec (K : Compares compar key) {op : Op α} {ops : List (Op α)} {B : Multiset α}
    (H : Holds key (op :: ops) q B) :
    ∃ o q' B', step compar op q = some (o, q') ∧ Serves key op B o B' ∧
      Holds key ops q' B' := by
  obtain ⟨V, rfl, hallowed⟩ := H
  have hcard : ∀ q : PriorityQueue α, q.contents.card = q.heapSize := fun q =>
    Heap.card_contents
  cases op with
  | insert memory x =>
      obtain ⟨hmax, hallowed⟩ := hallowed
      obtain ⟨q', hinsert, V', hcontents⟩ := insert_spec K V hmax memory x
      refine ⟨none, q', _, by simp only [step, hinsert, Option.map_some],
        .insert memory x _, V', hcontents, ?_⟩
      rw [← hcard, hcontents, Multiset.card_cons, hcard]
      exact hallowed
  | extractTop =>
      obtain ⟨hpos, hallowed⟩ := hallowed
      obtain ⟨x, q', hextract, -, V', hcontents, hmax⟩ := extractTop_spec K V hpos
      refine ⟨some x, q', q'.contents, by simp only [step, hextract, Option.map_some], ?_,
        V', rfl, ?_⟩
      · rw [hcontents]
        refine .extractTop x _ fun y hy => hmax y ?_
        rw [hcontents]
        exact Multiset.mem_cons_of_mem hy
      · have hcard' := congrArg Multiset.card hcontents
        rw [Multiset.card_cons, hcard, hcard] at hcard'
        rwa [hcard', Nat.add_sub_cancel] at hallowed
  | modify f =>
      obtain ⟨hf, hallowed⟩ := hallowed
      obtain ⟨V', hcontents⟩ := modify_spec V hf
      exact ⟨none, q.modify f, _, rfl, .modify f _, V', hcontents, hallowed⟩

/-- **The priority queue.** From its constructor on, and whatever the contents of the arrays
are, every operation stays inside them, no size and no index overflows, and the queue is a
multiset: `insert` adds an element, and `extract_top` removes one of those that come first. -/
theorem ppq_run (K : Compares compar key) (null : α) (memory : ℕ → α) {sz : ℤ}
    (hsz : sz < intMax) {ops : List (Op α)} (h : Allowed key 0 ops) :
    ∃ q₀ os q', new null memory sz = some q₀ ∧ run (step compar) ops q₀ = some (os, q') ∧
      Runs (Serves key) ops 0 os q'.contents ∧ q'.heapSize ≤ q'.sizeAlloc ∧
      q'.sizeAlloc < intMax := by
  obtain ⟨q₀, hnew, V₀, hzero⟩ := @new_spec α β _ key null memory sz hsz
  have hcontents : q₀.contents = 0 := by
    rw [← Multiset.card_eq_zero, contents, Heap.card_contents, hzero]
  have H : Holds key ops q₀ 0 := ⟨V₀, hcontents, by rw [hzero]; exact h⟩
  obtain ⟨os, q', B, hrun, hruns, V, rfl, -⟩ := run_simulates (fun _ _ _ _ => step_spec K) H
  exact ⟨q₀, os, q', hnew, hrun, hruns, V.size, V.allocInt⟩

/-! ### The queues of the kernel -/

/-- `sc_time_compare`. -/
def timeCompare (t₁ t₂ : ℕ) : ℤ := if t₁ < t₂ then 1 else if t₁ > t₂ then -1 else 0

/-- `sc_notify_time_compare`. -/
def notifyTimeCompare (et₁ et₂ : EventTimed) : ℤ :=
  let t₁ := et₁.notifyTime
  let t₂ := et₂.notifyTime
  if t₁ < t₂ then 1 else if t₁ > t₂ then -1 else 0

theorem timeCompare_compares : Compares timeCompare OrderDual.toDual := by
  constructor
  · intro t₁ t₂
    rw [timeCompare, OrderDual.toDual_lt_toDual]
    split_ifs <;> simp <;> omega
  · intro t₁ t₂
    rw [timeCompare, OrderDual.toDual_lt_toDual]
    split_ifs <;> simp <;> omega

theorem notifyTimeCompare_compares :
    Compares notifyTimeCompare fun et => OrderDual.toDual et.notifyTime :=
  ⟨fun _ _ => timeCompare_compares.neg _ _, fun _ _ => timeCompare_compares.pos _ _⟩

/-- An entry is cancelled while it is in the queue. -/
def cancelled : List (Op EventTimed) :=
  [.insert (fun _ => ⟨none, 0⟩) ⟨some (.user 0), 5⟩, .insert (fun _ => ⟨none, 0⟩) ⟨none, 3⟩,
    .insert (fun _ => ⟨none, 0⟩) ⟨some (.user 1), 4⟩,
    .modify (fun et => if et.event = some (.user 1) then { et with event := none } else et),
    .extractTop]

theorem ppq_run_timed : ∃ q₀ os q', new ⟨none, 0⟩ (fun _ => ⟨none, 7⟩) (-1) = some q₀ ∧
    run (step notifyTimeCompare) cancelled q₀ = some (os, q') ∧
    os.reduceOption = [⟨none, 3⟩] := by
  have hallowed : Allowed (fun et => OrderDual.toDual et.notifyTime) 0 cancelled :=
    ⟨by decide, by decide, by decide, fun et => by dsimp only; split_ifs <;> rfl, by decide,
      trivial⟩
  obtain ⟨q₀, os, q', hnew, hrun, -⟩ := ppq_run notifyTimeCompare_compares ⟨none, 0⟩
    (fun _ => ⟨none, 7⟩) (show (-1 : ℤ) < intMax by decide) hallowed
  refine ⟨q₀, os, q', hnew, hrun, ?_⟩
  obtain rfl := Option.some.inj (hnew.symm.trans rfl)
  obtain ⟨rfl, -⟩ := Prod.mk.inj (Option.some.inj (hrun.symm.trans rfl))
  rfl

end PriorityQueue
end Pscv.Kernel
