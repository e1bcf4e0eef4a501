import Mathlib.Data.List.Basic
import Mathlib.Tactic.Common

/-!
# Brackets in generated text

A text is put together from fragments: what the generator writes itself, what it was given,
and the places where a definition starts. It is well formed when its brackets are balanced
as a whole and in front of each start.

## Main definitions

* `nesting`, `WellBracketed`, `Covered`.
* `Fragment`, `Fragment.WellFormed`, `Fragment.level`, `Fragment.Leads`.

## Main results

* `Fragment.wellFormed_iff_level` — one pass over the fragments decides well-formedness.
* `Fragment.wellFormed_iff_leads` — among balanced given texts, the fixed ones decide.
* `Fragment.wellFormed_iff_wellBracketed` — around fixed texts that are well formed, the given
  texts have to be balanced.
-/

namespace Pscv.Lib

section Brackets
variable {α : Type} [DecidableEq α] (l r : α)

/-- How many brackets are open after a text that begins inside `n` of them: none when one is
closed that is not open. -/
def nesting : ℕ → List α → Option ℕ
  | n, [] => some n
  | n, a :: t =>
      if a = l then nesting (n + 1) t
      else if a = r then
        match n with
        | 0 => none
        | n + 1 => nesting n t
      else nesting n t

/-- Every bracket is closed, and none that is not open. -/
def WellBracketed (t : List α) : Prop := nesting l r 0 t = some 0

instance (t : List α) : Decidable (WellBracketed l r t) := inferInstanceAs (Decidable (_ = _))

/-- No bracket is closed that is not open. -/
def Covered (t : List α) : Prop := (nesting l r 0 t).isSome

variable {l r} {n k d : ℕ} {s t : List α}

theorem nesting_append (n : ℕ) (s t : List α) :
    nesting l r n (s ++ t) = (nesting l r n s).bind fun k => nesting l r k t := by
  induction s generalizing n with
  | nil => rfl
  | cons a s ih =>
      simp only [List.cons_append, nesting]
      split_ifs
      · exact ih _
      · cases n with
        | zero => rfl
        | succ n => exact ih n
      · exact ih n

/-- A text that is read inside `n` brackets is also read inside more of them. -/
theorem nesting_add (d : ℕ) (h : nesting l r n t = some k) :
    nesting l r (n + d) t = some (k + d) := by
  induction t generalizing n with
  | nil =>
      rw [nesting, Option.some.injEq] at h
      rw [nesting, h]
  | cons a t ih =>
      simp only [nesting] at h ⊢
      split_ifs at h ⊢ with hl hr
      · rw [Nat.add_right_comm]
        exact ih h
      · cases n with
        | zero => cases h
        | succ n =>
            rw [Nat.add_right_comm]
            exact ih h
      · exact ih h

theorem WellBracketed.nesting_eq (h : WellBracketed l r t) (n : ℕ) :
    nesting l r n t = some n := by
  have hadd := nesting_add n h
  rwa [Nat.zero_add] at hadd

theorem wellBracketed_nil : WellBracketed l r [] := rfl

theorem WellBracketed.append (hs : WellBracketed l r s) (ht : WellBracketed l r t) :
    WellBracketed l r (s ++ t) := by
  rw [WellBracketed, nesting_append, hs, Option.bind_some]
  exact ht

theorem wellBracketed_flatMap {β : Type} {f : β → List α} {bs : List β}
    (h : ∀ b ∈ bs, WellBracketed l r (f b)) : WellBracketed l r (bs.flatMap f) := by
  induction bs with
  | nil => exact wellBracketed_nil
  | cons b bs ih =>
      rw [List.forall_mem_cons] at h
      exact h.1.append (ih h.2)

/-- A text without brackets. -/
theorem wellBracketed_of_notMem (hl : l ∉ t) (hr : r ∉ t) : WellBracketed l r t := by
  induction t with
  | nil => exact wellBracketed_nil
  | cons a t ih =>
      rw [List.mem_cons, not_or] at hl hr
      rw [WellBracketed, nesting, if_neg (Ne.symm hl.1), if_neg (Ne.symm hr.1)]
      exact ih hl.2 hr.2

/-- The beginning of a balanced text. -/
theorem Covered.of_append (h : WellBracketed l r (s ++ t)) : Covered l r s := by
  rw [WellBracketed, nesting_append] at h
  obtain ⟨k, hk, -⟩ := Option.bind_eq_some_iff.mp h
  exact Option.isSome_iff_exists.mpr ⟨k, hk⟩

theorem WellBracketed.covered (h : WellBracketed l r t) : Covered l r t := by
  apply Covered.of_append (t := [])
  rwa [List.append_nil]

/-- Brackets are not touched where every element becomes a text of its own nesting. -/
theorem nesting_flatMap {f : α → List α}
    (hf : ∀ a n, nesting l r n (f a) = nesting l r n [a]) (n : ℕ) (t : List α) :
    nesting l r n (t.flatMap f) = nesting l r n t := by
  induction t generalizing n with
  | nil => rfl
  | cons a t ih =>
      have hcons := nesting_append (l := l) (r := r) n [a] t
      rw [List.singleton_append] at hcons
      rw [List.flatMap_cons, nesting_append, hf, hcons]
      exact Option.bind_congr fun k _ => ih k

end Brackets

/-! ## Fragments -/

/-- A fragment of a generated text. -/
inductive Fragment (α : Type)
  /-- The generator writes it itself. -/
  | fixed (t : List α)
  /-- The generator was given it. -/
  | given (t : List α)
  /-- A definition starts here. -/
  | start

namespace Fragment

section Fragments
variable {α : Type} [DecidableEq α] (l r : α)

/-- The text of a fragment. -/
def text : Fragment α → List α
  | fixed t => t
  | given t => t
  | start => []

/-- The text is balanced, and so is what stands before a definition. -/
structure WellFormed (ps : List (Fragment α)) : Prop where
  balanced : WellBracketed l r (ps.flatMap text)
  closed : ∀ before after, ps = before ++ .start :: after →
    WellBracketed l r (before.flatMap text)

/-- How many brackets are open after fragments that begin inside `n` of them, where a
definition starts outside of all brackets. -/
def level : ℕ → List (Fragment α) → Option ℕ
  | n, [] => some n
  | n, .start :: ps => if n = 0 then level 0 ps else none
  | n, .fixed t :: ps => (nesting l r n t).bind fun k => level k ps
  | n, .given t :: ps => (nesting l r n t).bind fun k => level k ps

omit [DecidableEq α] in
/-- A given text has a property. -/
def Gives (P : List α → Prop) : Fragment α → Prop
  | given t => P t
  | _ => True

omit [DecidableEq α] in
/-- A given text is left out. -/
def erase : Fragment α → Fragment α
  | given _ => given []
  | p => p

/-- Around the given texts, fragments that begin inside `n` brackets end inside `k`. -/
abbrev Leads (n k : ℕ) (ps : List (Fragment α)) : Prop := level l r n (ps.map erase) = some k

variable {l r} {n k d j : ℕ} {ps qs : List (Fragment α)}

theorem level_append (n : ℕ) (ps qs : List (Fragment α)) :
    level l r n (ps ++ qs) = (level l r n ps).bind fun k => level l r k qs := by
  induction ps generalizing n with
  | nil => rfl
  | cons p ps ih =>
      cases p with
      | start =>
          simp only [List.cons_append, level]
          split_ifs
          · exact ih 0
          · rfl
      | fixed t => simp only [List.cons_append, level, ih, Option.bind_assoc]
      | given t => simp only [List.cons_append, level, ih, Option.bind_assoc]

/-- The level is the nesting of the text. -/
theorem nesting_of_level (h : level l r n ps = some k) :
    nesting l r n (ps.flatMap text) = some k := by
  induction ps generalizing n with
  | nil => exact h
  | cons p ps ih =>
      cases p with
      | start =>
          rw [level] at h
          split_ifs at h with hn
          subst hn
          exact ih h
      | fixed t | given t =>
          obtain ⟨m, hm, hps⟩ := Option.bind_eq_some_iff.mp h
          rw [List.flatMap_cons, nesting_append, text, hm]
          exact ih hps

/-- Whoever reaches the end has passed every start outside of all brackets. -/
theorem closed_of_level (h : level l r n ps = some k) {before after : List (Fragment α)}
    (hps : ps = before ++ .start :: after) : nesting l r n (before.flatMap text) = some 0 := by
  subst hps
  rw [level_append] at h
  obtain ⟨m, hm, hstart⟩ := Option.bind_eq_some_iff.mp h
  rw [level] at hstart
  split_ifs at hstart with hzero
  subst hzero
  exact nesting_of_level hm

/-- The level of a text of which the nesting is known. -/
theorem level_of_nesting (h : nesting l r n (ps.flatMap text) = some k)
    (hstart : ∀ before after, ps = before ++ .start :: after →
      nesting l r n (before.flatMap text) = some 0) : level l r n ps = some k := by
  induction ps generalizing n with
  | nil => exact h
  | cons p ps ih =>
      have htail : ∀ m, nesting l r n p.text = some m → ∀ before after,
          ps = before ++ .start :: after → nesting l r m (before.flatMap text) = some 0 := by
        intro m hm before after hps
        have hbefore := hstart (p :: before) after (by rw [hps, List.cons_append])
        rwa [List.flatMap_cons, nesting_append, hm] at hbefore
      rw [List.flatMap_cons, nesting_append] at h
      obtain ⟨m, hm, hrest⟩ := Option.bind_eq_some_iff.mp h
      cases p with
      | start =>
          have hzero : n = 0 := Option.some.inj (hstart [] ps rfl)
          subst hzero
          obtain rfl : 0 = m := Option.some.inj hm
          rw [level, if_pos rfl]
          exact ih hrest (htail 0 rfl)
      | fixed t | given t =>
          rw [text] at hm
          rw [level, hm]
          exact ih hrest (htail m hm)

/-- **One pass decides well-formedness.** -/
theorem wellFormed_iff_level : WellFormed l r ps ↔ level l r 0 ps = some 0 :=
  ⟨fun h => level_of_nesting h.balanced h.closed,
    fun h => ⟨nesting_of_level h, fun _ _ hps => closed_of_level h hps⟩⟩

/-- **Balanced given texts do not count.** -/
theorem level_erase (h : ∀ p ∈ ps, p.Gives (WellBracketed l r)) (n : ℕ) :
    level l r n (ps.map erase) = level l r n ps := by
  induction ps generalizing n with
  | nil => rfl
  | cons p ps ih =>
      rw [List.forall_mem_cons] at h
      cases p with
      | start => simp only [List.map_cons, erase, level, ih h.2]
      | fixed t => simp only [List.map_cons, erase, level, ih h.2]
      | given t =>
          simp only [List.map_cons, erase, level, ih h.2]
          rw [wellBracketed_nil.nesting_eq, WellBracketed.nesting_eq h.1]

/-- Among balanced given texts, the fixed ones decide. -/
theorem wellFormed_iff_leads (h : ∀ p ∈ ps, p.Gives (WellBracketed l r)) :
    WellFormed l r ps ↔ Leads l r 0 0 ps := by
  rw [wellFormed_iff_level, Leads, level_erase h]

/-- Given texts can only add to the level, and add nothing only when they are balanced. -/
theorem le_level_of_covered (h : ∀ p ∈ ps, p.Gives (Covered l r))
    (hfixed : Leads l r n k ps) (hlevel : level l r (n + d) ps = some j) :
    k + d ≤ j ∧ (j = k → ∀ p ∈ ps, p.Gives (WellBracketed l r)) := by
  induction ps generalizing n d with
  | nil =>
      rw [Leads, List.map_nil, level, Option.some.injEq] at hfixed
      rw [level, Option.some.injEq] at hlevel
      exact ⟨by omega, fun _ _ hp => absurd hp List.not_mem_nil⟩
  | cons p ps ih =>
      rw [List.forall_mem_cons] at h
      rw [Leads, List.map_cons] at hfixed
      cases p with
      | start =>
          simp only [erase, level] at hfixed hlevel
          split_ifs at hfixed hlevel with hn hd
          obtain rfl : d = 0 := by omega
          subst hn
          obtain ⟨hle, hbal⟩ := ih (d := 0) h.2 hfixed hlevel
          exact ⟨hle, fun hj => List.forall_mem_cons.mpr ⟨trivial, hbal hj⟩⟩
      | fixed t =>
          obtain ⟨m, hm, hfixed⟩ := Option.bind_eq_some_iff.mp hfixed
          rw [level, nesting_add d hm] at hlevel
          obtain ⟨hle, hbal⟩ := ih h.2 hfixed hlevel
          exact ⟨hle, fun hj => List.forall_mem_cons.mpr ⟨trivial, hbal hj⟩⟩
      | given t =>
          obtain ⟨e, he⟩ := Option.isSome_iff_exists.mp h.1
          have hadd := nesting_add (n + d) he
          rw [Nat.zero_add] at hadd
          rw [level, hadd, Option.bind_some] at hlevel
          have hsum : e + (n + d) = n + (d + e) := by omega
          rw [hsum] at hlevel
          obtain ⟨hle, hbal⟩ := ih h.2 hfixed hlevel
          refine ⟨by omega, fun hj => List.forall_mem_cons.mpr ⟨?_, hbal hj⟩⟩
          obtain rfl : e = 0 := by omega
          exact he

/-- **Around fixed texts that are well formed, the given texts have to be balanced.** -/
theorem wellFormed_iff_wellBracketed (h : ∀ p ∈ ps, p.Gives (Covered l r))
    (hfixed : Leads l r 0 0 ps) : WellFormed l r ps ↔
      ∀ p ∈ ps, p.Gives (WellBracketed l r) := by
  constructor
  · intro hwell
    rw [wellFormed_iff_level] at hwell
    exact (le_level_of_covered (d := 0) h hfixed hwell).2 rfl
  · intro hbal
    exact (wellFormed_iff_leads hbal).mpr hfixed

theorem leads_nil (n : ℕ) : Leads l r n n [] := rfl

theorem Leads.append {m : ℕ} (hp : Leads l r n m ps) (hq : Leads l r m k qs) :
    Leads l r n k (ps ++ qs) := by
  rw [Leads, List.map_append, level_append, hp]
  exact hq

theorem Leads.of_append {m : ℕ} (hp : Leads l r n m ps) (h : Leads l r n k (ps ++ qs)) :
    Leads l r m k qs := by
  rwa [Leads, List.map_append, level_append, hp] at h

/-- The text itself says how much deeper it leads. -/
theorem Leads.eq_add (h : Leads l r n k ps) (h' : Leads l r (n + d) j ps) : j = k + d := by
  have hnesting := nesting_add d (nesting_of_level h)
  rw [nesting_of_level h'] at hnesting
  exact Option.some.inj hnesting

/-- A loop of which each round ends where it begins. -/
theorem leads_flatMap {β : Type} {f : β → List (Fragment α)} {bs : List β}
    (h : ∀ b ∈ bs, Leads l r n n (f b)) : Leads l r n n (bs.flatMap f) := by
  induction bs with
  | nil => exact leads_nil n
  | cons b bs ih =>
      rw [List.forall_mem_cons] at h
      rw [List.flatMap_cons]
      exact h.1.append (ih h.2)

end Fragments

end Fragment
end Pscv.Lib
