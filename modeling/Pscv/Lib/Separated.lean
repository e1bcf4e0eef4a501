import Mathlib.Data.List.Basic
import Mathlib.Data.List.DropRight
import Mathlib.Tactic.Common

/-!
# Sequences of items with separators between them

A sequence printed as items with some number of separators after each one is the
separated sequence exactly when that number is one after every item but the last, and
zero after the last. A symbol that occurs in every item and not in the separator is
what makes the numbers readable from the sequence.

## Main results

* `weave_eq_intercalate_iff`.
* `map_fst_eq_of_weave_eq` — the items are right when they can only have lost characters.
* `weave_attach` — a sequence in groups, where each group but the first leads with a
  separator.
* `splitSeparated_intercalate` — the items are read back from the separated sequence.
* `tokens` — the items between any number of separators.
-/

namespace Pscv.Lib

variable {α : Type*}

/-- The items of a list, each followed by its number of separators. -/
def weave (sep : List α) : List (List α × ℕ) → List α
  | [] => []
  | (x, n) :: l => x ++ (List.replicate n sep).flatten ++ weave sep l

/-- One separator after every item but the last. -/
def Spaced : List ℕ → Prop
  | [] => True
  | [n] => n = 0
  | n :: l => n = 1 ∧ Spaced l

@[simp] theorem weave_nil (sep : List α) : weave sep [] = [] := rfl

@[simp] theorem weave_cons (sep x : List α) (n : ℕ) (l : List (List α × ℕ)) :
    weave sep ((x, n) :: l) = x ++ (List.replicate n sep).flatten ++ weave sep l := rfl

theorem weave_append (sep : List α) (l l' : List (List α × ℕ)) :
    weave sep (l ++ l') = weave sep l ++ weave sep l' := by
  induction l with
  | nil => rfl
  | cons p l ih =>
      obtain ⟨x, n⟩ := p
      simp [ih]

theorem mem_weave (sep : List α) {c : α} {p : List α × ℕ} {l : List (List α × ℕ)} (hp : p ∈ l)
    (hc : c ∈ p.1) : c ∈ weave sep l := by
  induction l with
  | nil => cases hp
  | cons q l ih =>
      obtain ⟨x, n⟩ := q
      rw [weave_cons, List.mem_append, List.mem_append]
      rcases List.mem_cons.mp hp with rfl | hp
      · exact .inl (.inl hc)
      · exact .inr (ih hp)

@[simp] theorem spaced_nil : Spaced [] := trivial

@[simp] theorem spaced_singleton {n : ℕ} : Spaced [n] ↔ n = 0 := .rfl

@[simp] theorem spaced_cons_cons {n m : ℕ} {l : List ℕ} :
    Spaced (n :: m :: l) ↔ n = 1 ∧ Spaced (m :: l) := .rfl

instance : DecidablePred Spaced := fun l => by
  induction l with
  | nil => exact .isTrue trivial
  | cons n l ih =>
      cases l with
      | nil => exact inferInstanceAs (Decidable (n = 0))
      | cons m l => exact inferInstanceAs (Decidable (n = 1 ∧ Spaced (m :: l)))

private theorem exists_intercalate_cons (sep x : List α) (l : List (List α)) :
    ∃ r, sep.intercalate (x :: l) = x ++ r := by
  cases l with
  | nil => exact ⟨[], by simp⟩
  | cons y l => exact ⟨sep ++ sep.intercalate (y :: l), by simp⟩

section Counting
variable {sep : List α} {c : α}

private theorem not_mem_separators (hc : c ∉ sep) (n : ℕ) :
    c ∉ (List.replicate n sep).flatten := by
  intro h
  obtain ⟨l, hl, hcl⟩ := List.mem_flatten.mp h
  exact hc (List.eq_of_mem_replicate hl ▸ hcl)

variable [DecidableEq α]

/-- The number of separators in front of an item shows where its marking symbol stands. -/
private theorem separators_eq (hsep : sep ≠ []) (hc : c ∉ sep) {x r r' : List α} (hx : c ∈ x)
    {n m : ℕ} (h : (List.replicate n sep).flatten ++ (x ++ r)
      = (List.replicate m sep).flatten ++ (x ++ r')) : n = m := by
  have hidx := congrArg (List.idxOf c) h
  rw [List.idxOf_append_of_notMem (not_mem_separators hc n),
    List.idxOf_append_of_notMem (not_mem_separators hc m),
    List.idxOf_append_of_mem hx, List.idxOf_append_of_mem hx] at hidx
  have hlen : n * sep.length = m * sep.length := by
    simpa using hidx
  exact Nat.eq_of_mul_eq_mul_right (List.length_pos_iff.mpr hsep) hlen

/-- **The separated sequence is the one with the right numbers**, for items marked by a
symbol that the separator does not have. -/
theorem weave_eq_intercalate_iff (hsep : sep ≠ []) (hc : c ∉ sep) :
    ∀ l : List (List α × ℕ), (∀ p ∈ l, c ∈ p.1) →
      (weave sep l = sep.intercalate (l.map Prod.fst) ↔ Spaced (l.map Prod.snd)) := by
  intro l
  induction l with
  | nil => simp
  | cons p l ih =>
      intro hl
      obtain ⟨x, n⟩ := p
      cases l with
      | nil =>
          suffices (List.replicate n sep).flatten = [] ↔ n = 0 by simpa
          simp [List.flatten_eq_nil_iff, hsep]
      | cons q l =>
          obtain ⟨y, m⟩ := q
          have ih := ih fun p hp => hl p (List.mem_cons_of_mem _ hp)
          have hy : c ∈ y := hl (y, m) (by simp)
          simp only [List.map_cons, List.intercalate_cons_cons, spaced_cons_cons] at ih ⊢
          rw [← ih, weave_cons, List.append_assoc, List.append_assoc,
            List.append_cancel_left_eq]
          constructor
          · intro h
            obtain ⟨r, hr⟩ := exists_intercalate_cons sep y (l.map Prod.fst)
            have hn : n = 1 := separators_eq hsep hc hy (by simpa [hr] using h)
            subst hn
            simpa using h
          · rintro ⟨rfl, h⟩
            simp [h]

end Counting

/-! ## Items that may have lost characters -/

section Relabelled
variable {a b m : α} {l w v r x y : List α} {k : ℕ}

/-- The value of a marked pair, behind its label and behind that text or a shorter one. The
symbol after the label does not occur in it. -/
def Relabelled (b m : α) (y x : List α) : Prop :=
  ∃ l w v, y = l ++ b :: m :: b :: v ∧ x = w ++ b :: m :: b :: v ∧ b ∉ l ∧
    (w = l ∨ w.length < l.length)

/-- A text ends at its first symbol of a kind at the latest. -/
theorem length_le_of_notMem (hl : b ∉ l) (h : w ++ b :: r = l ++ b :: v) :
    l.length ≤ w.length := by
  rcases List.append_eq_append_iff.mp h with ⟨u, rfl, hu⟩ | ⟨u, rfl, -⟩
  · cases u with
    | nil => simp
    | cons x u =>
        obtain ⟨rfl, -⟩ := List.cons.inj hu
        exact absurd (by simp) hl
  · simp

/-- A label that is read whole is the right one. -/
theorem Relabelled.eq_of_append (h : Relabelled b m y x) (heq : x ++ r = y ++ v) : x = y := by
  obtain ⟨l, w, u, rfl, rfl, hl, hw⟩ := h
  rcases hw with rfl | hlt
  · rfl
  · simp only [List.append_assoc, List.cons_append] at heq
    exact absurd (length_le_of_notMem hl heq) (by omega)

/-- **There is one separator in front of a pair** where there should be one. -/
theorem Relabelled.separators_eq_one (hab : a ≠ b) (ham : a ≠ m) (hmb : m ≠ b)
    (h : Relabelled b m y x)
    (heq : (List.replicate k [a, b]).flatten ++ (x ++ r) = a :: b :: (y ++ v)) : k = 1 := by
  obtain ⟨l, w, u, rfl, rfl, hl, hw⟩ := h
  have hshort : w.length ≤ l.length := hw.elim (fun heq => heq ▸ le_rfl) Nat.le_of_lt
  match k with
  | 0 =>
      -- The first separator would have to come out of the label.
      exfalso
      match w with
      | [] => simp [hab.symm] at heq
      | [c] =>
          simp only [List.replicate_zero, List.flatten_nil, List.nil_append, List.cons_append,
            List.append_assoc, List.cons.injEq, true_and] at heq
          obtain ⟨rfl, heq⟩ := heq
          match l with
          | [] => exact hmb (List.cons.inj heq).1
          | [c'] =>
              rcases hw with hw | hw
              · exact ham ((List.cons.inj hw).1.trans (List.cons.inj heq).1.symm)
              · simp at hw
          | c' :: b' :: l =>
              have hb : b = b' := (List.cons.inj (List.cons.inj heq).2).1
              exact hl (by simp [hb])
      | c :: b' :: w =>
          simp only [List.replicate_zero, List.flatten_nil, List.nil_append, List.cons_append,
            List.append_assoc, List.cons.injEq] at heq
          have hle := length_le_of_notMem hl heq.2.2
          simp only [List.length_cons] at hshort
          omega
  | 1 => rfl
  | k + 2 =>
      -- The second separator would have to stand in the label.
      exfalso
      simp only [List.replicate_succ, List.flatten_cons, List.cons_append, List.nil_append,
        List.append_assoc, List.cons.injEq, true_and] at heq
      match l with
      | [] => exact hab (List.cons.inj heq).1
      | [c] =>
          obtain ⟨rfl, htail⟩ := List.cons.inj heq
          have htail := (List.cons.inj htail).2
          match k, w with
          | k + 1, w => simp [List.replicate_succ, ham] at htail
          | 0, [] => simp [hmb.symm] at htail
          | 0, [c] =>
              rcases hw with hw | hw
              · obtain rfl := (List.cons.inj hw).1
                exact ham (List.cons.inj htail).1
              · simp at hw
          | 0, c :: c' :: w => simp at hshort
      | c :: b' :: l =>
          have hb : b = b' := (List.cons.inj (List.cons.inj heq).2).1
          exact hl (by simp [hb])

/-- **Pairs that are separated right have lost no character.** -/
theorem map_fst_eq_of_weave_eq (hab : a ≠ b) (ham : a ≠ m) (hmb : m ≠ b)
    {items : List (List α × ℕ)} {ys : List (List α)}
    (h : List.Forall₂ (Relabelled b m) ys (items.map Prod.fst))
    (heq : weave [a, b] items = [a, b].intercalate ys) : items.map Prod.fst = ys := by
  induction items generalizing ys with
  | nil => cases h; rfl
  | cons p items ih =>
      obtain ⟨x, k⟩ := p
      cases h with
      | @cons y _ ys _ hxy hrest =>
          obtain ⟨t, ht⟩ := exists_intercalate_cons [a, b] y ys
          have hx : x = y := by
            rw [ht, weave_cons, List.append_assoc] at heq
            exact hxy.eq_of_append heq
          subst hx
          cases items with
          | nil =>
              cases hrest
              rfl
          | cons q items =>
              obtain ⟨x', k'⟩ := q
              cases hrest with
              | @cons y' _ ys _ hxy' hrest' =>
                  rw [List.intercalate_cons_cons, weave_cons, List.append_assoc,
                    List.append_assoc, List.append_cancel_left_eq] at heq
                  obtain ⟨t', ht'⟩ := exists_intercalate_cons [a, b] y' ys
                  have hk : k = 1 := by
                    have heq' := heq
                    rw [ht', weave_cons, List.append_assoc x'] at heq'
                    exact hxy'.separators_eq_one hab ham hmb heq'
                  subst hk
                  rw [List.replicate_one, List.flatten_singleton,
                    List.append_cancel_left_eq] at heq
                  exact congrArg _ (ih (.cons hxy' hrest') heq)

end Relabelled

/-! ## Groups -/

/-- One more separator after the last item. -/
def bump : List (List α × ℕ) → List (List α × ℕ)
  | [] => []
  | [(x, n)] => [(x, n + 1)]
  | p :: l => p :: bump l

@[simp] theorem bump_cons_cons (p q : List α × ℕ) (l : List (List α × ℕ)) :
    bump (p :: q :: l) = p :: bump (q :: l) := by
  obtain ⟨x, n⟩ := p
  rfl

theorem weave_bump (sep : List α) {l : List (List α × ℕ)} (h : l ≠ []) :
    weave sep (bump l) = weave sep l ++ sep := by
  induction l with
  | nil => exact absurd rfl h
  | cons p l ih =>
      obtain ⟨x, n⟩ := p
      cases l with
      | nil => simp [bump, List.replicate_succ']
      | cons q l => simp [ih]

theorem map_fst_bump (l : List (List α × ℕ)) : (bump l).map Prod.fst = l.map Prod.fst := by
  induction l with
  | nil => rfl
  | cons p l ih =>
      obtain ⟨x, n⟩ := p
      cases l with
      | nil => rfl
      | cons q l => simpa using ih

/-- The groups of a list, where a group that follows a nonempty one leads with a
separator. -/
def groups (sep : List α) : Bool → List (List (List α × ℕ)) → List α
  | _, [] => []
  | comma, l :: ls =>
      (if !l.isEmpty && comma then sep else []) ++ weave sep l ++
        groups sep (comma || !l.isEmpty) ls

/-- The groups as one list: the last item of a group carries the separator that the
next nonempty group leads with. -/
def attach : List (List (List α × ℕ)) → List (List α × ℕ)
  | [] => []
  | l :: ls => if attach ls = [] then l else bump l ++ attach ls

/-- **Groups are one list.** -/
theorem groups_eq_weave (sep : List α) (ls : List (List (List α × ℕ))) (comma : Bool) :
    groups sep comma ls
      = (if comma ∧ attach ls ≠ [] then sep else []) ++ weave sep (attach ls) := by
  induction ls generalizing comma with
  | nil => simp [groups, attach]
  | cons l ls ih =>
      rw [groups, ih, attach]
      by_cases hl : l = [] <;> by_cases hls : attach ls = []
      · simp [hl, hls]
      · simp [hl, hls, bump]
      · simp [hl, hls, and_comm]
      · simp [hl, hls, weave_append, weave_bump, and_comm]

theorem map_fst_attach (ls : List (List (List α × ℕ))) :
    (attach ls).map Prod.fst = ls.flatMap fun l => l.map Prod.fst := by
  induction ls with
  | nil => rfl
  | cons l ls ih =>
      rw [attach, List.flatMap_cons, ← ih]
      split_ifs with h
      · simp [h]
      · simp [map_fst_bump]

private theorem spaced_bump_append {l l' : List (List α × ℕ)} (h : l ≠ []) (h' : l' ≠ []) :
    Spaced ((bump l ++ l').map Prod.snd)
      ↔ Spaced (l.map Prod.snd) ∧ Spaced (l'.map Prod.snd) := by
  obtain ⟨⟨y, m⟩, l', rfl⟩ := List.exists_cons_of_ne_nil h'
  induction l with
  | nil => exact absurd rfl h
  | cons p l ih =>
      obtain ⟨x, n⟩ := p
      cases l with
      | nil => simp [bump]
      | cons q l =>
          have ih := ih (by simp)
          obtain ⟨z, k⟩ := q
          cases l with
          | nil => simp [bump, and_assoc]
          | cons r l =>
              simp only [bump_cons_cons, List.cons_append, List.map_cons, spaced_cons_cons]
                at ih ⊢
              rw [ih, and_assoc, and_assoc, and_assoc]

/-- **Groups are spaced as one list when each of them is.** -/
theorem spaced_attach_iff {ls : List (List (List α × ℕ))} :
    Spaced ((attach ls).map Prod.snd) ↔ ∀ l ∈ ls, Spaced (l.map Prod.snd) := by
  induction ls with
  | nil => simp [attach]
  | cons l ls ih =>
      rw [attach, List.forall_mem_cons, ← ih]
      by_cases hls : attach ls = []
      · simp [hls]
      · by_cases hl : l = []
        · simp [hl, hls, bump]
        · rw [if_neg hls, spaced_bump_append hl hls]

/-! ## Reading back -/

/-- Split at the first symbol of the separator, and drop the rest of it, of length `n`,
from all items but the first. -/
def splitSeparated [BEq α] (a : α) (n : ℕ) (l : List α) : List (List α) :=
  match l.splitOn a with
  | [] => []
  | x :: xs => x :: xs.map (List.drop n)

/-- **The items are read back.** -/
theorem splitSeparated_intercalate [BEq α] [LawfulBEq α] {a : α} {s : List α}
    {xs : List (List α)} (hxs : xs ≠ []) (hs : a ∉ s) (ha : ∀ x ∈ xs, a ∉ x) :
    splitSeparated a s.length ((a :: s).intercalate xs) = xs := by
  obtain ⟨x, xs, rfl⟩ := List.exists_cons_of_ne_nil hxs
  have hlead : (a :: s).intercalate (x :: xs) = [a].intercalate (x :: xs.map (s ++ ·)) := by
    clear ha hxs
    induction xs generalizing x with
    | nil => simp
    | cons y xs ih =>
        have htail : (a :: s).intercalate (y :: xs) = [a].intercalate (y :: xs.map (s ++ ·)) :=
          ih y
        have hmove : ∀ l : List (List α),
            [a].intercalate ((s ++ y) :: l) = s ++ [a].intercalate (y :: l) := by
          intro l
          cases l <;> simp
        simp [htail, hmove]
  rw [splitSeparated, hlead, List.splitOn_intercalate a ?_ (by simp)]
  · have hdrop : (List.drop s.length ∘ fun x => s ++ x) = id := by
      ext1 x
      simp
    simp [hdrop]
  · intro y hy
    simp only [List.mem_cons, List.mem_map] at hy
    rcases hy with rfl | ⟨z, hz, rfl⟩
    · exact ha y (by simp)
    · simpa [hs] using ha z (by simp [hz])

/-! ## Tokens -/

section Tokens
variable (p : α → Bool) {l w t : List α} {a : α}

/-- The maximal parts of a list without separators. -/
def tokens (l : List α) : List (List α) := (l.splitOnP p).filter fun w => !w.isEmpty

@[simp] theorem tokens_nil : tokens p [] = [] := by
  simp [tokens]

variable {p}

theorem tokens_append_cons (ha : p a) (l t : List α) :
    tokens p (l ++ a :: t) = tokens p l ++ tokens p t := by
  rw [tokens, List.splitOnP_append_cons l t ha, List.filter_append]
  rfl

theorem tokens_cons (ha : p a) (t : List α) : tokens p (a :: t) = tokens p t := by
  simpa using tokens_append_cons ha [] t

theorem tokens_of_word (hw : ∀ x ∈ w, p x = false) (hne : w ≠ []) : tokens p w = [w] := by
  rw [tokens, List.splitOnP_eq_singleton hw]
  simp [hne]

/-- Separators in front make no token. -/
theorem tokens_dropWhile (l : List α) : tokens p (l.dropWhile p) = tokens p l := by
  induction l with
  | nil => rfl
  | cons a t ih =>
      rw [List.dropWhile_cons]
      split_ifs with ha
      · rw [ih, tokens_cons ha]
      · rfl

/-- Separators at the end make no token. -/
theorem tokens_rdropWhile (l : List α) : tokens p (l.rdropWhile p) = tokens p l := by
  induction l using List.reverseRecOn with
  | nil => rfl
  | append_singleton t a ih =>
      rw [List.rdropWhile_concat]
      split_ifs with ha
      · rw [ih, tokens_append_cons ha, tokens_nil, List.append_nil]
      · rfl

/-- The first token, of a list that does not begin with a separator. -/
theorem tokens_cons_of_not (ha : p a = false) (t : List α) :
    tokens p (a :: t) = (a :: t).takeWhile (fun x => !p x) ::
      tokens p ((a :: t).dropWhile fun x => !p x) := by
  have hword : ∀ x ∈ (a :: t).takeWhile (fun x => !p x), p x = false := by
    intro x hx
    simpa using List.mem_takeWhile_imp hx
  have hne : (a :: t).takeWhile (fun x => !p x) ≠ [] := by simp [ha]
  have hsplit := (List.takeWhile_append_dropWhile (p := fun x => !p x) (l := a :: t)).symm
  cases hdrop : (a :: t).dropWhile (fun x => !p x) with
  | nil =>
      rw [hdrop, List.append_nil] at hsplit
      rw [tokens_nil]
      exact (congrArg (tokens p) hsplit).trans (tokens_of_word hword hne)
  | cons b u =>
      have hb : p b := by
        have hhead := List.head?_dropWhile_not (fun x => !p x) (a :: t)
        rw [hdrop] at hhead
        simpa using hhead
      rw [hdrop] at hsplit
      conv_lhs => rw [hsplit]
      rw [tokens_append_cons hb, tokens_of_word hword hne, tokens_cons hb]
      rfl

/-- A token is not empty and holds no separator. -/
theorem of_mem_tokens (hw : w ∈ tokens p l) : w ≠ [] ∧ ∀ x ∈ w, p x = false := by
  induction hn : l.length using Nat.strong_induction_on generalizing l with
  | _ n ih =>
      cases l with
      | nil => simp at hw
      | cons a t =>
          simp only [List.length_cons] at hn
          cases ha : p a with
          | true =>
              rw [tokens_cons ha] at hw
              exact ih t.length (by omega) hw rfl
          | false =>
              rw [tokens_cons_of_not ha] at hw
              rcases List.mem_cons.mp hw with rfl | hw
              · refine ⟨by simp [ha], fun x hx => ?_⟩
                simpa using List.mem_takeWhile_imp hx
              · rw [List.dropWhile_cons_of_pos (by simp [ha])] at hw
                have hle := List.length_dropWhile_le (fun x => !p x) t
                exact ih _ (by omega) hw rfl

variable {sep : List α}

theorem tokens_append_left (hsep : ∀ a ∈ sep, p a = true) (t : List α) :
    tokens p (sep ++ t) = tokens p t := by
  induction sep with
  | nil => rfl
  | cons a sep ih =>
      rw [List.cons_append, tokens_cons (hsep a (by simp)), ih fun b hb =>
        hsep b (by simp [hb])]

/-- **The words of a joined list are read back.** -/
theorem tokens_intercalate (hne : sep ≠ []) (hsep : ∀ a ∈ sep, p a = true) {ws : List (List α)}
    (hws : ∀ w ∈ ws, w ≠ [] ∧ ∀ a ∈ w, p a = false) : tokens p (sep.intercalate ws) = ws := by
  obtain ⟨a, sep, rfl⟩ := List.exists_cons_of_ne_nil hne
  induction ws with
  | nil => simp
  | cons w ws ih =>
      obtain ⟨hw, hclear⟩ := hws w (by simp)
      have ih := ih fun w' hw' => hws w' (by simp [hw'])
      cases ws with
      | nil => simpa using tokens_of_word hclear hw
      | cons w' ws =>
          rw [List.intercalate_cons_cons, List.append_assoc, List.cons_append,
            tokens_append_cons (hsep a (by simp)), tokens_of_word hclear hw,
            tokens_append_left fun b hb => hsep b (by simp [hb]), ih]
          rfl

end Tokens

end Pscv.Lib
