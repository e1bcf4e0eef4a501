import Mathlib.Order.Basic
import Mathlib.Order.Defs.LinearOrder
import Mathlib.Data.Fintype.Card
import Mathlib.Tactic.Common

/-!
# Sets of objects ordered by a key

A set of objects whose comparison looks at a key only: it holds at most one object
for each key, is traversed in increasing key order, and an insertion reports whether
a new object went in.

## Main definitions

* `KeyedSet key` — the sorted objects, with the order as a field.
* `KeyedSet.insert`, `KeyedSet.first?`.
-/

namespace Pscv.Lib

variable {α κ : Type*} [LinearOrder κ] {key : α → κ}

/-- A set ordered by `key`, as the list of its traversal. -/
structure KeyedSet (key : α → κ) where
  toList : List α
  sorted : toList.Pairwise fun a b => key a < key b

/-- Insert `a` before the first larger key, unless its key is present. -/
def insertByKey (key : α → κ) (a : α) : List α → List α
  | [] => [a]
  | b :: l =>
      if key a < key b then a :: b :: l
      else if key b < key a then b :: insertByKey key a l
      else b :: l

section InsertByKey
variable {a b x : α} {l : List α}

theorem mem_of_mem_insertByKey (h : x ∈ insertByKey key a l) : x = a ∨ x ∈ l := by
  induction l with
  | nil => simpa [insertByKey] using h
  | cons b l ih =>
      rw [insertByKey] at h
      split_ifs at h
      · simpa using h
      · rcases List.mem_cons.mp h with rfl | h
        · simp
        · rcases ih h with rfl | h <;> simp [*]
      · exact .inr h

theorem mem_insertByKey_of_mem (h : x ∈ l) : x ∈ insertByKey key a l := by
  induction l with
  | nil => simp at h
  | cons b l ih =>
      rw [insertByKey]
      split_ifs
      · exact List.mem_cons_of_mem a h
      · rcases List.mem_cons.mp h with rfl | h
        · simp
        · exact List.mem_cons_of_mem b (ih h)
      · exact h

/-- After an insertion some object has the key. -/
theorem exists_key_eq_insertByKey (key : α → κ) (a : α) (l : List α) :
    ∃ x ∈ insertByKey key a l, key x = key a := by
  induction l with
  | nil => exact ⟨a, by simp [insertByKey], rfl⟩
  | cons b l ih =>
      rw [insertByKey]
      split_ifs with hlt hgt
      · exact ⟨a, by simp, rfl⟩
      · obtain ⟨x, hx, hkey⟩ := ih
        exact ⟨x, List.mem_cons_of_mem b hx, hkey⟩
      · exact ⟨b, by simp, le_antisymm (not_lt.mp hlt) (not_lt.mp hgt)⟩

theorem pairwise_insertByKey (h : l.Pairwise fun a b => key a < key b) :
    (insertByKey key a l).Pairwise fun a b => key a < key b := by
  induction l with
  | nil => simp [insertByKey]
  | cons b l ih =>
      obtain ⟨hb, hl⟩ := List.pairwise_cons.mp h
      rw [insertByKey]
      split_ifs with hlt hgt
      · refine List.pairwise_cons.mpr ⟨fun x hx => ?_, h⟩
        rcases List.mem_cons.mp hx with rfl | hx
        · exact hlt
        · exact hlt.trans (hb x hx)
      · refine List.pairwise_cons.mpr ⟨fun x hx => ?_, ih hl⟩
        rcases mem_of_mem_insertByKey hx with rfl | hx
        · exact hgt
        · exact hb x hx
      · exact h

end InsertByKey

namespace KeyedSet
variable {s : KeyedSet key} {a x : α}

def empty : KeyedSet key := ⟨[], List.Pairwise.nil⟩

/-- Insert an object; the flag tells whether its key was new. -/
def insert (a : α) (s : KeyedSet key) : Bool × KeyedSet key :=
  (s.toList.all fun b => key b ≠ key a, ⟨insertByKey key a s.toList,
    pairwise_insertByKey s.sorted⟩)

/-- The first object of the traversal. -/
def first? (s : KeyedSet key) : Option α := s.toList.head?

@[simp] theorem toList_empty : (empty : KeyedSet key).toList = [] := rfl

/-- Where keys tell objects apart, an insertion adds its object. -/
theorem mem_insert (hkey : Function.Injective key) :
    x ∈ (s.insert a).2.toList ↔ x = a ∨ x ∈ s.toList := by
  refine ⟨mem_of_mem_insertByKey, ?_⟩
  rintro (rfl | h)
  · obtain ⟨y, hy, heq⟩ := exists_key_eq_insertByKey key x s.toList
    rwa [hkey heq] at hy
  · exact mem_insertByKey_of_mem h

/-- An object of a new key goes in. -/
theorem mem_insert_of_new (h : ∀ b ∈ s.toList, key b ≠ key a) :
    x ∈ (s.insert a).2.toList ↔ x = a ∨ x ∈ s.toList := by
  refine ⟨mem_of_mem_insertByKey, ?_⟩
  rintro (rfl | hx)
  · obtain ⟨y, hy, heq⟩ := exists_key_eq_insertByKey key x s.toList
    rcases mem_of_mem_insertByKey hy with rfl | hmem
    · exact hy
    · exact absurd heq (h y hmem)
  · exact mem_insertByKey_of_mem hx

/-- The flag of an insertion, where keys tell objects apart. -/
theorem insert_fst (hkey : Function.Injective key) :
    (s.insert a).1 = true ↔ a ∉ s.toList := by
  simp only [insert, List.all_eq_true, decide_eq_true_eq]
  constructor
  · exact fun h hm => h a hm rfl
  · rintro h b hb heq
    exact h (hkey heq ▸ hb)

theorem nodup (s : KeyedSet key) : s.toList.Nodup :=
  s.sorted.imp fun h heq => (heq ▸ h).false

/-- A set holds one object for a key. -/
theorem eq_of_key_eq {a b : α} (ha : a ∈ s.toList) (hb : b ∈ s.toList) (h : key a = key b) :
    a = b := by
  have hnodup : (s.toList.map key).Nodup := List.pairwise_map.mpr (s.sorted.imp fun h => h.ne)
  exact List.inj_on_of_nodup_map hnodup ha hb h

/-- A set is determined by its objects. -/
theorem ext_mem {s t : KeyedSet key} (h : ∀ x, x ∈ s.toList ↔ x ∈ t.toList) : s = t := by
  obtain ⟨l, hl⟩ := s
  obtain ⟨l', hl'⟩ := t
  have hperm : l.Perm l' := (List.perm_ext_iff_of_nodup (KeyedSet.nodup ⟨l, hl⟩)
    (KeyedSet.nodup ⟨l', hl'⟩)).mpr h
  obtain rfl : l = l' :=
    hperm.eq_of_pairwise (fun a b _ _ hab hba => (lt_asymm hab hba).elim) hl hl'
  rfl

/-- There are no more objects than keys. -/
theorem length_le_card [Fintype κ] (hkey : Function.Injective key) (s : KeyedSet key) :
    s.toList.length ≤ Fintype.card κ := by
  rw [← List.length_map (f := key)]
  exact (s.nodup.map hkey).length_le_card

/-- The first object has the least key. -/
theorem first?_eq_some_iff : s.first? = some a ↔ a ∈ s.toList ∧
    ∀ b ∈ s.toList, key a ≤ key b := by
  obtain ⟨l, hl⟩ := s
  cases l with
  | nil => simp [first?]
  | cons b l =>
      obtain ⟨hb, _⟩ := List.pairwise_cons.mp hl
      simp only [first?, List.head?_cons, Option.some.injEq, List.mem_cons, forall_eq_or_imp]
      constructor
      · rintro rfl
        exact ⟨.inl rfl, le_rfl, fun x hx => (hb x hx).le⟩
      · rintro ⟨rfl | ha, hle, _⟩
        · rfl
        · exact absurd (hb a ha) hle.not_gt

end KeyedSet
end Pscv.Lib
