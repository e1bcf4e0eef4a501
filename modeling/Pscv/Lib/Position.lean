import Mathlib.Data.List.DropRight
import Pscv.Lib.Separated

/-!
# Searching by position

The search functions of `std::string` on lists: a position counts from zero, and `none` is
`npos`. A loop that goes from one position to the next is followed on the two parts of the
list that the position separates.

## Main results

* `scan_eq` — a loop over positions visits the tokens.
* `replaceLoop_eq` — a loop that replaces every occurrence is a `flatMap`.
-/

namespace Pscv.Lib

variable {α σ : Type*} {p : α → Bool} {s l r w : List α} {a : α} {n : ℕ}

/-- `find_first_of`: the first position from `pos` on at which `p` holds. -/
def findFirst (p : α → Bool) (s : List α) (pos : ℕ) : Option ℕ :=
  let i := pos + ((s.drop pos).takeWhile fun a => !p a).length
  if i < s.length then some i else none

/-- `find_last_of`: the last position at which `p` holds. -/
def findLast (p : α → Bool) (s : List α) : Option ℕ :=
  match (s.rdropWhile fun a => !p a).length with
  | 0 => none
  | n + 1 => some n

/-- `substr`: past the end it throws an exception. -/
def substr (pos n : ℕ) (s : List α) : Option (List α) :=
  if pos ≤ s.length then some ((s.drop pos).take n) else none

theorem findFirst_clear (hr : ∀ a ∈ r, p a = false) :
    findFirst p (l ++ r) l.length = none := by
  have htake : r.takeWhile (fun a => !p a) = r :=
    List.takeWhile_eq_self_iff.mpr fun a ha => by simp [hr a ha]
  simp [findFirst, htake]

theorem findFirst_append (hw : ∀ a ∈ w, p a = false) (ha : p a) (r : List α) :
    findFirst p (l ++ (w ++ a :: r)) l.length = some (l.length + w.length) := by
  have htake : (w ++ a :: r).takeWhile (fun a => !p a) = w := by
    rw [List.takeWhile_append_of_pos fun a ha => by simp [hw a ha],
      List.takeWhile_cons_of_neg (by simp [ha]), List.append_nil]
  simp [findFirst, htake]

/-- The search from the beginning, for the first part that is passed over. -/
theorem findFirst_zero (p : α → Bool) (s : List α) : findFirst p s 0 =
    if s.dropWhile (fun a => !p a) = [] then none
    else some (s.takeWhile fun a => !p a).length := by
  have hsplit := congrArg List.length
    (List.takeWhile_append_dropWhile (p := fun a => !p a) (l := s))
  rw [List.length_append] at hsplit
  have hiff : s.dropWhile (fun a => !p a) = [] ↔
    ¬ (s.takeWhile fun a => !p a).length < s.length := by
    rw [← List.length_eq_zero_iff]
    omega
  simp only [findFirst, List.drop_zero, Nat.zero_add, hiff, ite_not]

theorem findLast_eq_none_iff : findLast p s = none ↔ s.rdropWhile (fun a => !p a) = [] := by
  rw [findLast, ← List.length_eq_zero_iff]
  cases (s.rdropWhile fun a => !p a).length <;> simp

/-- The list up to the last position found. -/
theorem take_findLast (h : findLast p s = some n) :
    s.take (n + 1) = s.rdropWhile fun a => !p a := by
  rw [findLast] at h
  cases hlen : (s.rdropWhile fun a => !p a).length with
  | zero => simp [hlen] at h
  | succ k =>
      simp only [hlen, Option.some.injEq] at h
      rw [← h, ← hlen]
      exact (List.prefix_iff_eq_take.mp (List.rdropWhile_prefix _ s)).symm

theorem substr_append (l w r : List α) :
    substr l.length w.length (l ++ (w ++ r)) = some w := by
  simp [substr]

/-! ## Tokens -/

/-- A loop that goes from one token to the next, `n` times at most. -/
def scan (p : α → Bool) (f : σ → List α → σ) (s : List α) : ℕ → Option ℕ → σ → Option σ
  | _, none, c => some c
  | 0, some _, _ => none
  | n + 1, some pos, c =>
      match findFirst p s pos with
      | none => (substr pos s.length s).map (f c)
      | some white =>
          (substr pos (white - pos) s).bind fun w =>
            scan p f s n (findFirst (fun a => !p a) s white) (f c w)

/-- **From the beginning of a token the loop visits the tokens that are left.** -/
theorem scan_eq (f : σ → List α → σ) (ha : p a = false) (hn : (a :: r).length ≤ n) (c : σ) :
    scan p f (l ++ a :: r) n (some l.length) c = some ((tokens p (a :: r)).foldl f c) := by
  induction n generalizing l a r c with
  | zero => simp at hn
  | succ n ih =>
      have hword : ∀ x ∈ (a :: r).takeWhile (fun x => !p x), p x = false := by
        intro x hx
        simpa using List.mem_takeWhile_imp hx
      have hsplit := (List.takeWhile_append_dropWhile (p := fun x => !p x) (l := a :: r)).symm
      rw [tokens_cons_of_not ha, List.foldl_cons]
      have hne : (a :: r).takeWhile (fun x => !p x) ≠ [] := by simp [ha]
      have hlen := congrArg List.length hsplit
      rw [List.length_append] at hlen
      have hpos := List.length_pos_of_ne_nil hne
      generalize hw : (a :: r).takeWhile (fun x => !p x) = w at *
      cases hd : (a :: r).dropWhile (fun x => !p x) with
      | nil =>
          -- the last token
          rw [hd, List.append_nil] at hsplit
          have hsub : substr l.length (l ++ w).length (l ++ w) = some w := by
            simp [substr, List.take_of_length_le (Nat.le_add_left w.length l.length)]
          rw [hsplit, scan, findFirst_clear hword]
          simp only [hsub, Option.map_some, tokens_nil, List.foldl_nil]
      | cons b u =>
          have hb : p b = true := by
            have hhead := List.head?_dropWhile_not (fun x => !p x) (a :: r)
            rw [hd] at hhead
            simpa using hhead
          rw [hd] at hsplit hlen
          rw [hsplit, scan, findFirst_append hword hb]
          simp only [Nat.add_sub_cancel_left, substr_append, Option.bind_some]
          rw [← tokens_dropWhile]
          have hwhite : ∀ x ∈ (b :: u).takeWhile p, (!p x) = false := by
            intro x hx
            simpa using List.mem_takeWhile_imp hx
          have hrest := (List.takeWhile_append_dropWhile (p := p) (l := b :: u)).symm
          have hrestlen := congrArg List.length hrest
          rw [List.length_append] at hrestlen
          rw [← List.append_assoc, ← List.length_append]
          cases hd' : (b :: u).dropWhile p with
          | nil =>
              rw [hd', List.append_nil] at hrest
              rw [findFirst_clear fun x hx => hwhite x (hrest ▸ hx)]
              simp [scan]
          | cons a' r' =>
              have ha' : p a' = false := by
                have hhead := List.head?_dropWhile_not p (b :: u)
                rw [hd'] at hhead
                simpa using hhead
              rw [hd'] at hrest hrestlen
              rw [hrest, findFirst_append hwhite (by simp [ha']), ← List.append_assoc,
                ← List.length_append]
              apply ih ha'
              simp only [List.length_cons] at hn hlen hrestlen ⊢
              omega

/-- More turns make no difference to a loop that has ended. -/
theorem scan_mono {m : ℕ} {f : σ → List α → σ} {pos : Option ℕ} {c c' : σ} (hnm : n ≤ m)
    (h : scan p f s n pos c = some c') : scan p f s m pos c = some c' := by
  induction n generalizing m pos c with
  | zero =>
      cases pos with
      | none => simpa [scan] using h
      | some pos => simp [scan] at h
  | succ n ih =>
      obtain ⟨m, rfl⟩ := Nat.exists_eq_add_of_le' (Nat.one_le_of_lt hnm)
      cases pos with
      | none => simpa [scan] using h
      | some pos =>
          rw [scan] at h ⊢
          cases hwhite : findFirst p s pos with
          | none => simpa [hwhite] using h
          | some white =>
              simp only [hwhite] at h ⊢
              obtain ⟨w, hw, h⟩ := Option.bind_eq_some_iff.mp h
              rw [hw, Option.bind_some]
              exact ih (by omega) h

/-! ## Replacement -/

/-- Put `by'` in the place of the element at position `j`. -/
def replaceAt (by' : List α) (j : ℕ) (s : List α) : List α := s.take j ++ by' ++ s.drop (j + 1)

/-- A loop that replaces what the search finds and goes on after the replacement, `n` times
at most. -/
def replaceLoop (p : α → Bool) (by' : List α) : ℕ → Option ℕ → List α → Option (List α)
  | _, none, s => some s
  | 0, some _, _ => none
  | n + 1, some j, s =>
      replaceLoop p by' n (findFirst p (replaceAt by' j s) (j + by'.length))
        (replaceAt by' j s)

/-- Replace every element that satisfies `p`. -/
def replaceAll (p : α → Bool) (by' : List α) (s : List α) : List α :=
  s.flatMap fun a => if p a then by' else [a]

@[simp] theorem replaceAll_nil (by' : List α) : replaceAll p by' [] = [] := rfl

theorem replaceAll_cons (by' : List α) (a : α) (s : List α) :
    replaceAll p by' (a :: s) = (if p a then by' else [a]) ++ replaceAll p by' s := by
  rw [replaceAll, List.flatMap_cons]
  rfl

theorem replaceAll_append (by' : List α) (s t : List α) :
    replaceAll p by' (s ++ t) = replaceAll p by' s ++ replaceAll p by' t :=
  List.flatMap_append

theorem replaceAll_clear (by' : List α) (hw : ∀ a ∈ w, p a = false) :
    replaceAll p by' w = w := by
  induction w with
  | nil => rfl
  | cons a w ih =>
      rw [replaceAll_cons, if_neg (by simp [hw a]), ih fun b hb => hw b (by simp [hb])]
      rfl

/-- **The loop replaces every element that satisfies `p`**, and what it has inserted is not
searched again. -/
theorem replaceLoop_eq (by' : List α) (hn : r.countP p ≤ n) :
    replaceLoop p by' n (findFirst p (l ++ r) l.length) (l ++ r) =
      some (l ++ replaceAll p by' r) := by
  induction n generalizing l r with
  | zero =>
      have hclear : ∀ a ∈ r, p a = false := by
        simpa using List.countP_eq_zero.mp (Nat.le_zero.mp hn)
      rw [findFirst_clear hclear, replaceLoop, replaceAll_clear by' hclear]
  | succ n ih =>
      have hword : ∀ x ∈ r.takeWhile (fun x => !p x), p x = false := by
        intro x hx
        simpa using List.mem_takeWhile_imp hx
      have hsplit := (List.takeWhile_append_dropWhile (p := fun x => !p x) (l := r)).symm
      generalize r.takeWhile (fun x => !p x) = w at *
      cases hd : r.dropWhile (fun x => !p x) with
      | nil =>
          rw [hd, List.append_nil] at hsplit
          subst hsplit
          rw [findFirst_clear hword, replaceLoop, replaceAll_clear by' hword]
      | cons b u =>
          have hb : p b = true := by
            have hhead := List.head?_dropWhile_not (fun x => !p x) r
            rw [hd] at hhead
            simpa using hhead
          rw [hd] at hsplit
          have hreplace : replaceAt by' (l.length + w.length) (l ++ (w ++ b :: u)) =
              (l ++ w ++ by') ++ u := by
            have htake : (l ++ (w ++ b :: u)).take (l.length + w.length) = l ++ w := by
              rw [← List.append_assoc, ← List.length_append, List.take_left]
            have hdrop : (l ++ (w ++ b :: u)).drop (l.length + w.length + 1) = u := by
              rw [← List.append_assoc, ← List.length_append, List.drop_append]
              simp
            rw [replaceAt, htake, hdrop]
          have hcount : u.countP p ≤ n := by
            rw [hsplit, List.countP_append, List.countP_cons_of_pos hb] at hn
            omega
          rw [hsplit, findFirst_append hword hb, replaceLoop, hreplace]
          have hlen : l.length + w.length + by'.length = (l ++ w ++ by').length := by
            simp [Nat.add_assoc]
          rw [hlen, ih hcount, replaceAll_append, replaceAll_clear by' hword, replaceAll_cons,
            if_pos hb]
          simp only [List.append_assoc]

end Pscv.Lib
