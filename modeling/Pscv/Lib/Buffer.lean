import Mathlib.Data.List.Basic
import Mathlib.Tactic.Common

/-!
# Buffers

An array of a fixed size. An element has no value before it is written, and a write outside
of the array, like a read of an element without a value, has no result. `Filled` is the state
of a buffer that is written from the front.

## Main definitions

* `Buffer` — an array of a fixed size.
* `Buffer.Filled` — the elements in front are written, the others are not.
* `copyWhere` — copy the elements of a list that satisfy a predicate.
* `copyWhere_filled`, `copyWhere_terminated` — what the loop has written.
-/

namespace Pscv.Lib

variable {α : Type*} {n : ℕ}

/-- An array of `n` elements. -/
structure Buffer (α : Type*) (n : ℕ) where
  cells : List (Option α)
  length_eq : cells.length = n

namespace Buffer

/-- An array without initial values. -/
def uninit (n : ℕ) : Buffer α n := ⟨List.replicate n none, List.length_replicate⟩

/-- `buffer[i] = a`. -/
def write (b : Buffer α n) (i : ℕ) (a : α) : Option (Buffer α n) :=
  if i < n then some ⟨b.cells.set i (some a), by rw [List.length_set, b.length_eq]⟩ else none

/-- The elements in front of the first one that satisfies `stop`. -/
def readUntil (stop : α → Bool) (b : Buffer α n) : Option (List α) := go b.cells
where
  go : List (Option α) → Option (List α)
    | some a :: cells => if stop a then some [] else (go cells).map (a :: ·)
    | _ => none

/-- The elements of `l` are written, and no others. -/
def Filled (b : Buffer α n) (l : List α) : Prop :=
  l.length ≤ n ∧ b.cells = l.map some ++ List.replicate (n - l.length) none

theorem filled_uninit (n : ℕ) : (uninit n : Buffer α n).Filled [] :=
  ⟨Nat.zero_le n, rfl⟩

/-- A write behind what is written. -/
theorem Filled.write {b : Buffer α n} {l : List α} (h : b.Filled l) (a : α)
    (hroom : l.length < n) : ∃ b', b.write l.length a = some b' ∧ b'.Filled (l ++ [a]) := by
  have hrest : n - l.length = n - (l ++ [a]).length + 1 := by
    rw [List.length_append, List.length_singleton]
    omega
  refine ⟨_, if_pos hroom, ?_, ?_⟩
  · rw [List.length_append, List.length_singleton]
    omega
  · change b.cells.set l.length (some a) = _
    have hlen : l.length = (l.map some).length := (List.length_map some).symm
    rw [h.2, hrest, List.replicate_succ]
    nth_rewrite 1 [hlen]
    rw [List.set_append_right _ _ (Nat.le_refl _), Nat.sub_self, List.set_cons_zero,
      List.map_append, List.append_assoc]
    rfl

/-- A write behind the end. -/
theorem write_eq_none {b : Buffer α n} {i : ℕ} (h : n ≤ i) (a : α) : b.write i a = none :=
  if_neg (Nat.not_lt.mpr h)

theorem readUntil_go {stop : α → Bool} {l : List α} {a : α} (hl : ∀ x ∈ l, stop x = false)
    (ha : stop a = true) (cells : List (Option α)) :
    readUntil.go stop (l.map some ++ some a :: cells) = some l := by
  induction l with
  | nil => simp [readUntil.go, ha]
  | cons x l ih =>
      have hx := hl x List.mem_cons_self
      have hrest := ih fun y hy => hl y (List.mem_cons_of_mem x hy)
      simp [readUntil.go, hx, hrest]

/-- What stands in front of a terminator is read back. -/
theorem Filled.readUntil {b : Buffer α n} {stop : α → Bool} {l : List α} {a : α}
    (h : b.Filled (l ++ [a])) (hl : ∀ x ∈ l, stop x = false) (ha : stop a = true) :
    b.readUntil stop = some l := by
  rw [Buffer.readUntil, h.2, List.map_append, List.append_assoc]
  exact readUntil_go hl ha _

end Buffer

/-! ## Copying -/

/-- Copy the elements that satisfy `p` to the buffer, from a position on. The result has the
position behind the last write. -/
def copyWhere (p : α → Bool) : List α → Buffer α n × ℕ → Option (Buffer α n × ℕ)
  | [], (b, i) => some (b, i)
  | a :: s, (b, i) =>
      if p a then (b.write i a).bind fun b => copyWhere p s (b, i + 1)
        else copyWhere p s (b, i)

/-- **The loop fills the buffer with the elements that satisfy `p`**, as long as it has room
for them. -/
theorem copyWhere_filled {p : α → Bool} {s l : List α} {b : Buffer α n} (h : b.Filled l)
    (hroom : (l ++ s.filter p).length ≤ n) :
    ∃ b', copyWhere p s (b, l.length) = some (b', (l ++ s.filter p).length) ∧
      b'.Filled (l ++ s.filter p) := by
  induction s generalizing l b with
  | nil =>
      rw [List.filter_nil, List.append_nil]
      exact ⟨b, rfl, h⟩
  | cons a s ih =>
      by_cases ha : p a = true
      · have hsplit : l ++ (a :: s).filter p = (l ++ [a]) ++ s.filter p := by
          rw [List.filter_cons_of_pos ha, List.append_assoc]
          rfl
        rw [hsplit] at hroom ⊢
        have hlt : l.length < n := by
          simp only [List.length_append, List.length_singleton] at hroom
          omega
        obtain ⟨b₁, hwrite, hfilled⟩ := h.write a hlt
        obtain ⟨b', hcopy, hfilled'⟩ := ih hfilled hroom
        refine ⟨b', ?_, hfilled'⟩
        rw [copyWhere, if_pos ha, hwrite, Option.bind_some, ← hcopy, List.length_append]
        rfl
      · rw [List.filter_cons_of_neg ha] at hroom ⊢
        rw [copyWhere, if_neg ha]
        exact ih h hroom

/-- What has been copied, and terminated, is read back when the terminator has room. -/
theorem copyWhere_terminated {p stop : α → Bool} {s : List α} {z : α} (hs : s.length ≤ n)
    (hstop : ∀ a, p a = true → stop a = false) (hz : stop z = true) :
    ((copyWhere p s (Buffer.uninit n, 0)).bind fun r =>
      (r.1.write r.2 z).bind fun b => b.readUntil stop) =
        if (s.filter p).length < n then some (s.filter p) else none := by
  have hroom : ([] ++ s.filter p).length ≤ n :=
    Nat.le_trans (List.length_filter_le p s) hs
  obtain ⟨b, hcopy, hfilled⟩ := copyWhere_filled (Buffer.filled_uninit n) hroom
  rw [List.nil_append] at hcopy hfilled
  rw [List.length_nil] at hcopy
  rw [hcopy, Option.bind_some]
  by_cases hlt : (s.filter p).length < n
  · obtain ⟨b', hwrite, hfilled'⟩ := hfilled.write z hlt
    have hclear : ∀ a ∈ s.filter p, stop a = false :=
      fun a ha => hstop a (List.mem_filter.mp ha).2
    rw [if_pos hlt, hwrite, Option.bind_some]
    exact hfilled'.readUntil hclear hz
  · rw [if_neg hlt, Buffer.write_eq_none (Nat.le_of_not_lt hlt)]
    rfl

end Pscv.Lib
