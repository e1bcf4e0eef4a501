import Mathlib.Data.List.ReduceOption
import Pscv.Kernel.Pending
import Pscv.Kernel.PriorityQueue

/-!
# `sc_event_queue`

A queue of notifications of one event: every call of `notify` is to cause a trigger at its
time, and those for the same time trigger in different delta cycles. The queue keeps the times
in a priority queue and has the event notified for the first of them; the method `fire_event`,
which is sensitive to the event, removes that time and has the event notified for the next.

What the queue is for is said by an `Agenda`, the notifications that are still to be triggered.
A time whose trigger has happened stays in the priority queue until `fire_event` runs, so the
two differ in between. Times are words of 64 bits: a notification past the largest time would
be due too early, and is not allowed in a run.

## Main results

* `EventQueue.step_spec` — one step keeps the agenda.
* `EventQueue.agenda_run` — a run is one of the agenda, and no assertion fails.
* `EventQueue.each_once` — without `cancel_all` every notification is triggered once.
* `EventQueue.assertion_fails` — after `cancel_all` a notification may come too early.
-/

namespace Pscv.Kernel

open Pscv.Lib
open PriorityQueue (timeCompare timeCompare_compares)

/-- `sc_event_queue`: the times, when `m_e` is due, and whether it has been triggered and
`fire_event` not been run. -/
structure EventQueue where
  ppq : PriorityQueue ℕ
  due : Due
  ready : Bool
  now : ℕ

namespace EventQueue

/-- The condition of `notify`: no time of the queue is `t` or before. -/
def isFirst (t : ℕ) (q : PriorityQueue ℕ) : Option Bool :=
  if q.heapSize = 0 then some true else q.top.map fun top => decide (t < top)

/-- `operator -` of `sc_time`, a word of 64 bits. -/
def timeSub (t₁ t₂ : ℕ) : ℕ := wordSub 64 t₁ t₂

/-- `notify`. -/
def notify (memory : ℕ → ℕ) (when : ℕ) (s : EventQueue) : Option EventQueue := do
  let t := timeAdd when s.now
  let first ← isFirst t s.ppq
  let ppq ← s.ppq.insert timeCompare memory t
  some { s with ppq := ppq, due := if first then min s.due (delayed s.now when) else s.due }

/-- The loop of `cancel_all`. -/
def drain : ℕ → PriorityQueue ℕ → Option (PriorityQueue ℕ)
  | 0, _ => none
  | n + 1, q =>
      if q.heapSize > 0 then do
        let (_, q) ← q.extractTop timeCompare
        drain n q
      else some q

/-- `cancel_all`. -/
def cancelAll (s : EventQueue) : Option EventQueue := do
  let ppq ← drain (s.ppq.heapSize + 1) s.ppq
  some { s with ppq := ppq, due := ⊤ }

/-- `fire_event`; the assertion says that the first time is now. -/
def fireEvent (s : EventQueue) : Option EventQueue :=
  if s.ppq.heapSize = 0 then some s
  else do
    let (t, ppq) ← s.ppq.extractTop timeCompare
    if t = s.now then
      if ppq.heapSize > 0 then
        let top ← ppq.top
        some { s with ppq := ppq, due := min s.due (delayed s.now (timeSub top s.now)) }
      else some { s with ppq := ppq }
    else none

/-- The calls of the users' code, the run of `fire_event`, the notification phase of a delta
cycle, and the passing of time. -/
inductive Act
  | notify (memory : ℕ → ℕ) (when : ℕ)
  | cancelAll
  | fire
  | delta
  | pass (t : ℕ)

/-- One step, and the time of the trigger when there is one. -/
def step : Act → EventQueue → Option (Option ℕ × EventQueue)
  | .notify memory when, s => (s.notify memory when).map fun s => (none, s)
  | .cancelAll, s => s.cancelAll.map fun s => (none, s)
  | .fire, s => { s with ready := false }.fireEvent.map fun s => (none, s)
  | .delta, s => some (some s.now, { s with due := ⊤, ready := true })
  | .pass t, s =>
      let now := s.now + t
      if s.due = Due.time now then
        some (some now, { s with now := now, due := ⊤, ready := true })
      else some (none, { s with now := now })

/-- When a step may happen. The phase comes when no method is left to run, and time passes when
moreover nothing is due, up to the next time at the latest. A notification is for a time that
there is, and finds room in the queue. A trigger that `cancel_all` came too late for is not
followed by a `notify` before `fire_event` has run. -/
def Enabled : Act → EventQueue → Prop
  | .notify _ when, s => ¬ (s.ready = true ∧ s.ppq.heapSize = 0) ∧ when + s.now ≤ maxTime ∧
      s.ppq.heapSize < PriorityQueue.maxSize
  | .cancelAll, _ => True
  | .fire, s => s.ready = true
  | .delta, s => s.ready = false ∧ s.due = ⊥
  | .pass t, s => s.ready = false ∧ s.due ≠ ⊥ ∧ s.now + t ≤ maxTime ∧
      Due.time (s.now + t) ≤ s.due

instance : ∀ x s, Decidable (Enabled x s)
  | .notify _ when, s => inferInstanceAs (Decidable (¬ (s.ready = true ∧ s.ppq.heapSize = 0) ∧
      when + s.now ≤ maxTime ∧ s.ppq.heapSize < PriorityQueue.maxSize))
  | .cancelAll, _ => inferInstanceAs (Decidable True)
  | .fire, s => inferInstanceAs (Decidable (s.ready = true))
  | .delta, s => inferInstanceAs (Decidable (s.ready = false ∧ s.due = ⊥))
  | .pass t, s => inferInstanceAs (Decidable (s.ready = false ∧ s.due ≠ ⊥ ∧
      s.now + t ≤ maxTime ∧ Due.time (s.now + t) ≤ s.due))

/-- The constructor, before the simulation starts. -/
def start (null : ℕ) (memory : ℕ → ℕ) : Option EventQueue :=
  (PriorityQueue.new null memory 128).map fun ppq => ⟨ppq, ⊤, false, 0⟩

end EventQueue

/-- The notifications that are still to be triggered, and the time. -/
structure Agenda where
  now : ℕ
  pending : Multiset ℕ

/-- What a step means: every notification is triggered at its time, one in each delta cycle,
and time passes no notification. -/
inductive Agenda.Step : EventQueue.Act → Agenda → Option ℕ → Agenda → Prop
  | notify (memory : ℕ → ℕ) (when now : ℕ) (B : Multiset ℕ) :
      Step (.notify memory when) ⟨now, B⟩ none ⟨now, (when + now) ::ₘ B⟩
  | cancelAll (now : ℕ) (B : Multiset ℕ) : Step .cancelAll ⟨now, B⟩ none ⟨now, 0⟩
  | fire (a : Agenda) : Step .fire a none a
  | delta (now : ℕ) (B : Multiset ℕ) : Step .delta ⟨now, now ::ₘ B⟩ (some now) ⟨now, B⟩
  | pass {now t : ℕ} {B : Multiset ℕ} (h : ∀ x ∈ B, now + t < x) :
      Step (.pass t) ⟨now, B⟩ none ⟨now + t, B⟩
  | trigger {now t : ℕ} {B : Multiset ℕ} (h : ∀ x ∈ B, now + t ≤ x) :
      Step (.pass t) ⟨now, (now + t) ::ₘ B⟩ (some (now + t)) ⟨now + t, B⟩

namespace EventQueue

variable {s s' : EventQueue} {a a' : Agenda} {B : Multiset ℕ} {q : PriorityQueue ℕ}

/-! ### The invariant -/

/-- The order of the times. -/
abbrev Ahead (q : PriorityQueue ℕ) : Prop := q.Valid OrderDual.toDual

/-- `m_e` is due at the first of the times. -/
def Next (now : ℕ) (Q : Multiset ℕ) (due : Due) : Prop :=
  (Q = 0 ∧ due = ⊤) ∨ ∃ m ∈ Q, (∀ x ∈ Q, m ≤ x) ∧ due = delayed now (m - now)

/-- The queue keeps the agenda. -/
structure Keeps (s : EventQueue) (a : Agenda) : Prop where
  now : s.now = a.now
  valid : Ahead s.ppq
  future : ∀ x ∈ s.ppq.contents, s.now ≤ x
  idle : s.ready = false → a.pending = s.ppq.contents ∧ Next s.now s.ppq.contents s.due
  ready : s.ready = true → s.due = ⊤ ∧
    (s.ppq.contents = 0 ∧ a.pending = 0 ∨ s.ppq.contents = s.now ::ₘ a.pending)
  time : s.now ≤ maxTime
  bounded : ∀ x ∈ s.ppq.contents, x ≤ maxTime

theorem contents_eq_zero (q : PriorityQueue ℕ) : q.contents = 0 ↔ q.heapSize = 0 := by
  rw [← Multiset.card_eq_zero, PriorityQueue.contents, Heap.card_contents]

theorem timeAdd_of_le {now t : ℕ} (h : now + t ≤ maxTime) : timeAdd now t = now + t :=
  wordAdd_of_lt (by rw [maxTime] at h; omega)

theorem timeSub_of_le {now t : ℕ} (h : now ≤ t) (ht : t ≤ maxTime) : timeSub t now = t - now :=
  wordSub_of_le h (by rw [maxTime] at ht; omega)

theorem delayed_le {now t u : ℕ} (h : t ≤ u) (hu : now + u ≤ maxTime) :
    delayed now t ≤ delayed now u := by
  rw [delayed, delayed, timeAdd_of_le hu, timeAdd_of_le (by omega)]
  split_ifs with ht hu hu
  · exact le_rfl
  · exact bot_le
  · omega
  · exact WithTop.coe_le_coe.mpr (WithBot.coe_le_coe.mpr (by omega))

/-- The first of the times. -/
theorem top_spec (V : Ahead q) (h : q.heapSize ≠ 0) :
    ∃ m, q.top = some m ∧ m ∈ q.contents ∧ ∀ x ∈ q.contents, m ≤ x :=
  PriorityQueue.top_spec V (Nat.pos_of_ne_zero h)

/-! ### The functions -/

theorem drain_spec {n : ℕ} (V : Ahead q) (h : q.heapSize < n) :
    ∃ q', drain n q = some q' ∧ Ahead q' ∧ q'.contents = 0 := by
  induction n generalizing q with
  | zero => omega
  | succ n ih =>
      by_cases hpos : q.heapSize > 0
      · obtain ⟨x, q', hextract, -, V', hcontents, -⟩ :=
          PriorityQueue.extractTop_spec timeCompare_compares V hpos
        have hcard := congrArg Multiset.card hcontents
        rw [Multiset.card_cons, PriorityQueue.contents, PriorityQueue.contents,
          Heap.card_contents, Heap.card_contents] at hcard
        obtain ⟨q'', hdrain, V'', hnil⟩ := ih V' (by omega)
        refine ⟨q'', ?_, V'', hnil⟩
        simp only [drain, if_pos hpos, hextract, Option.bind_eq_bind, Option.bind_some, hdrain]
      · refine ⟨q, if_neg hpos, V, (contents_eq_zero q).mpr (by omega)⟩

theorem Keeps.cancelAll (K : s.Keeps a) :
    ∃ s', s.cancelAll = some s' ∧ s'.Keeps ⟨a.now, 0⟩ := by
  obtain ⟨q', hdrain, V', hnil⟩ := drain_spec K.valid (Nat.lt_succ_self _)
  have hempty : ∀ x, x ∉ q'.contents := by
    rw [hnil]
    exact Multiset.notMem_zero
  refine ⟨{ s with ppq := q', due := ⊤ }, ?_, K.now, V', fun x hx => absurd hx (hempty x),
    ?_, ?_, K.time, fun x hx => absurd hx (hempty x)⟩
  · simp only [EventQueue.cancelAll, hdrain, Option.bind_eq_bind, Option.bind_some]
  · exact fun _ => ⟨hnil.symm, .inl ⟨hnil, rfl⟩⟩
  · exact fun _ => ⟨rfl, .inl ⟨hnil, rfl⟩⟩

/-- A new time, which may be the first. -/
theorem Next.insert {now when : ℕ} {Q : Multiset ℕ} {due : Due} (N : Next now Q due)
    (hQ : ∀ x ∈ Q, now ≤ x) (hmax : ∀ x ∈ Q, x ≤ maxTime) {first : Bool}
    (hfirst : first = true ↔ ∀ x ∈ Q, when + now < x) :
    Next now ((when + now) ::ₘ Q) (if first then min due (delayed now when) else due) := by
  right
  rcases N with ⟨rfl, rfl⟩ | ⟨m, hm, hmin, rfl⟩
  · refine ⟨when + now, Multiset.mem_cons_self _ _, by simp, ?_⟩
    rw [if_pos (hfirst.mpr (by simp)), min_eq_right le_top, Nat.add_sub_cancel]
  · have hnow := hQ m hm
    by_cases hlt : when + now < m
    · refine ⟨when + now, Multiset.mem_cons_self _ _, ?_, ?_⟩
      · intro x hx
        rcases Multiset.mem_cons.mp hx with rfl | hx
        · exact le_rfl
        · exact hlt.le.trans (hmin x hx)
      · rw [if_pos (hfirst.mpr fun x hx => hlt.trans_le (hmin x hx)),
          min_eq_right (delayed_le (by omega) ?_), Nat.add_sub_cancel]
        have := hmax m hm
        omega
    · refine ⟨m, Multiset.mem_cons_of_mem hm, ?_, ?_⟩
      · intro x hx
        rcases Multiset.mem_cons.mp hx with rfl | hx
        · exact Nat.le_of_not_lt hlt
        · exact hmin x hx
      · rw [if_neg fun h => hlt (hfirst.mp h m hm)]

/-- The comparison of a new time `t` with the first one. -/
theorem first_spec (V : Ahead q) (t : ℕ) : ∃ first,
    isFirst t q = some first ∧ (first = true ↔ ∀ x ∈ q.contents, t < x) := by
  by_cases hsize : q.heapSize = 0
  · refine ⟨true, if_pos hsize, iff_of_true rfl ?_⟩
    rw [(contents_eq_zero q).mpr hsize]
    exact fun x hx => absurd hx (Multiset.notMem_zero x)
  · obtain ⟨m, htop, hm, hmin⟩ := top_spec V hsize
    refine ⟨decide (t < m), ?_, ?_⟩
    · rw [isFirst, if_neg hsize, htop]
      rfl
    · rw [decide_eq_true_iff]
      exact ⟨fun h x hx => h.trans_le (hmin x hx), fun h => h m hm⟩

theorem Keeps.notify (K : s.Keeps a) {memory : ℕ → ℕ} {when : ℕ}
    (E : Enabled (.notify memory when) s) :
    ∃ s', s.notify memory when = some s' ∧ s'.Keeps ⟨a.now, (when + a.now) ::ₘ a.pending⟩ := by
  obtain ⟨h, hwhen, hroom⟩ := E
  obtain ⟨first, hif, hfirst⟩ := first_spec K.valid (when + s.now)
  obtain ⟨q', hinsert, V', hcontents⟩ :=
    PriorityQueue.insert_spec timeCompare_compares K.valid hroom memory (when + s.now)
  have hnow := K.now
  refine ⟨{ s with ppq := q', due := if first then min s.due (delayed s.now when) else s.due },
    ?_, hnow, V', ?_, ?_, ?_, K.time, ?_⟩
  · simp only [EventQueue.notify, timeAdd_of_le hwhen, hif, hinsert, Option.bind_eq_bind,
      Option.bind_some]
  · intro x hx
    rw [hcontents] at hx
    rcases Multiset.mem_cons.mp hx with rfl | hx
    · exact Nat.le_add_left _ _
    · exact K.future x hx
  · intro hidle
    obtain ⟨hpending, N⟩ := K.idle hidle
    rw [hcontents]
    refine ⟨?_, N.insert K.future K.bounded hfirst⟩
    rw [← hnow, hpending]
  · intro hready
    obtain ⟨hdue, hcancelled | hmem⟩ := K.ready hready
    · exact absurd ⟨hready, (contents_eq_zero _).mp hcancelled.1⟩ h
    · -- the time of the trigger comes first
      have hlate : ¬ first = true := fun hf => by
        have := hfirst.mp hf s.now (by rw [hmem]; exact Multiset.mem_cons_self _ _)
        omega
      refine ⟨(if_neg hlate).trans hdue, .inr ?_⟩
      rw [hcontents, hmem, Multiset.cons_swap, hnow]
  · intro x hx
    rw [hcontents] at hx
    rcases Multiset.mem_cons.mp hx with rfl | hx
    · exact hwhen
    · exact K.bounded x hx

theorem Keeps.fire (K : s.Keeps a) (hready : s.ready = true) :
    ∃ s', { s with ready := false }.fireEvent = some s' ∧ s'.Keeps a := by
  obtain ⟨hdue, ⟨hnil, hpending⟩ | hmem⟩ := K.ready hready
  · have hsize := (contents_eq_zero _).mp hnil
    refine ⟨{ s with ready := false }, if_pos hsize, K.now, K.valid, K.future, ?_, ?_, K.time,
      K.bounded⟩
    · exact fun _ => ⟨hpending.trans hnil.symm, .inl ⟨hnil, hdue⟩⟩
    · exact fun h => by cases h
  · have hne : s.ppq.heapSize ≠ 0 := by
      rw [ne_eq, ← contents_eq_zero, hmem]
      exact Multiset.cons_ne_zero
    obtain ⟨x, q', hextract, -, V', hcontents, hmax⟩ :=
      PriorityQueue.extractTop_spec timeCompare_compares K.valid (Nat.pos_of_ne_zero hne)
    -- the first time is now
    have hx : x = s.now := by
      apply Nat.le_antisymm
      · exact hmax s.now (by rw [hmem]; exact Multiset.mem_cons_self _ _)
      · exact K.future x (by rw [hcontents]; exact Multiset.mem_cons_self _ _)
    have hrest : q'.contents = a.pending := by
      rw [hmem, hx] at hcontents
      exact ((Multiset.cons_inj_right _).mp hcontents).symm
    have hmono : ∀ x ∈ q'.contents, x ∈ s.ppq.contents := fun x hx => by
      rw [hcontents]
      exact Multiset.mem_cons_of_mem hx
    have hfuture : ∀ x ∈ q'.contents, s.now ≤ x := fun x hx => K.future x (hmono x hx)
    have hbounded : ∀ x ∈ q'.contents, x ≤ maxTime := fun x hx => K.bounded x (hmono x hx)
    by_cases hsize : q'.heapSize > 0
    · obtain ⟨m, htop, hm, hmin⟩ := top_spec V' hsize.ne'
      refine ⟨⟨q', min s.due (delayed s.now (m - s.now)), false, s.now⟩, ?_, K.now, V',
        hfuture, ?_, ?_, K.time, hbounded⟩
      · simp only [fireEvent, if_neg hne, hextract, Option.bind_eq_bind, Option.bind_some,
          if_pos hx, if_pos hsize, htop, timeSub_of_le (hfuture m hm) (hbounded m hm)]
      · refine fun _ => ⟨hrest.symm, .inr ⟨m, hm, hmin, ?_⟩⟩
        exact (congrArg (min · _) hdue).trans (min_eq_right le_top)
      · exact fun h => by cases h
    · refine ⟨⟨q', s.due, false, s.now⟩, ?_, K.now, V', hfuture, ?_, ?_, K.time, hbounded⟩
      · simp only [fireEvent, if_neg hne, hextract, Option.bind_eq_bind, Option.bind_some,
          if_pos hx, if_neg hsize]
      · exact fun _ => ⟨hrest.symm, .inl ⟨(contents_eq_zero q').mpr (by omega), hdue⟩⟩
      · exact fun h => by cases h

/-! ### Steps -/

theorem delayed_until {now m : ℕ} (hlt : now < m) (hmax : m ≤ maxTime) :
    delayed now (m - now) = Due.time m := by
  rw [delayed, if_neg (by omega), timeAdd_of_le (by omega), Nat.add_sub_cancel' hlt.le]

theorem time_le_delayed {now t m : ℕ} (hbot : delayed now (m - now) ≠ ⊥) (hm : now ≤ m)
    (hmax : m ≤ maxTime) (h : Due.time (now + t) ≤ delayed now (m - now)) :
    delayed now (m - now) = Due.time m ∧ now < m ∧ now + t ≤ m := by
  have hlt : now < m := by
    by_contra hle
    exact hbot (by rw [delayed, if_pos (by omega)])
  rw [delayed_until hlt hmax] at h ⊢
  exact ⟨rfl, hlt, WithBot.coe_le_coe.mp (WithTop.coe_le_coe.mp h)⟩

/-- The phase triggers the event for a time that is now. -/
theorem Keeps.delta (K : s.Keeps a) (hidle : s.ready = false) (hbot : s.due = ⊥) :
    ∃ B, a.pending = s.now ::ₘ B ∧ { s with due := ⊤, ready := true }.Keeps ⟨a.now, B⟩ := by
  obtain ⟨hpending, ⟨-, hdue⟩ | ⟨m, hm, -, hdue⟩⟩ := K.idle hidle
  · rw [hdue] at hbot
    cases hbot
  · have hnow : m = s.now := by
      have hle := K.future m hm
      rw [hdue, delayed] at hbot
      split_ifs at hbot with hzero
      · omega
      · cases hbot
    obtain ⟨B, hB⟩ := Multiset.exists_cons_of_mem hm
    rw [hnow] at hB
    exact ⟨B, hpending.trans hB, K.now, K.valid, K.future, (fun h => by cases h),
      fun _ => ⟨rfl, .inr hB⟩, K.time, K.bounded⟩

/-- Time passes up to the first of the times. -/
theorem Keeps.pass (K : s.Keeps a) {t : ℕ} (E : Enabled (.pass t) s) :
    ∃ o s' a', step (.pass t) s = some (o, s') ∧ Agenda.Step (.pass t) a o a' ∧
      s'.Keeps a' := by
  obtain ⟨hidle, hbot, htime, hle⟩ := E
  obtain ⟨now, B⟩ := a
  obtain rfl : s.now = now := K.now
  obtain ⟨hpending, N⟩ := K.idle hidle
  obtain rfl : B = s.ppq.contents := hpending
  rcases N with ⟨hnil, hdue⟩ | ⟨m, hm, hmin, hdue⟩
  · have hstep : step (.pass t) s = some (none, { s with now := s.now + t }) := by
      rw [step, if_neg]
      rw [hdue]
      exact fun h => by cases h
    have hnone : ∀ x ∈ s.ppq.contents, s.now + t < x := by
      rw [hnil]
      exact fun x hx => absurd hx (Multiset.notMem_zero x)
    exact ⟨none, _, _, hstep, .pass hnone, rfl, K.valid, fun x hx => (hnone x hx).le,
      fun _ => ⟨rfl, .inl ⟨hnil, hdue⟩⟩, (fun h => by simp [hidle] at h), htime, K.bounded⟩
  · rw [hdue] at hbot hle
    obtain ⟨hm', hlt, hmt⟩ := time_le_delayed hbot (K.future m hm) (K.bounded m hm) hle
    rw [hm'] at hdue
    by_cases heq : s.now + t = m
    · have hstep : step (.pass t) s = some (some (s.now + t),
          { s with now := s.now + t, due := ⊤, ready := true }) := by
        rw [step, if_pos]
        rw [hdue, heq]
      obtain ⟨B, hB⟩ := Multiset.exists_cons_of_mem hm
      rw [← heq] at hB hmin
      refine ⟨_, _, ⟨s.now + t, B⟩, hstep, ?_, rfl, K.valid, hmin, (fun h => by cases h),
        fun _ => ⟨rfl, .inr hB⟩, htime, K.bounded⟩
      rw [hB]
      exact .trigger fun x hx => hmin x (by rw [hB]; exact Multiset.mem_cons_of_mem hx)
    · have hstep : step (.pass t) s = some (none, { s with now := s.now + t }) := by
        rw [step, if_neg]
        rw [hdue]
        intro h
        exact heq (WithBot.coe_inj.mp (WithTop.coe_inj.mp h)).symm
      have hlater : ∀ x ∈ s.ppq.contents, s.now + t < x := fun x hx => by
        have := hmin x hx
        omega
      refine ⟨none, _, _, hstep, .pass hlater, rfl, K.valid, fun x hx => (hlater x hx).le,
        fun _ => ⟨rfl, .inr ⟨m, hm, hmin, ?_⟩⟩, (fun h => by simp [hidle] at h), htime,
        K.bounded⟩
      change s.due = delayed (s.now + t) (m - (s.now + t))
      rw [hdue, delayed_until (by omega) (K.bounded m hm)]

/-- **One step** keeps the agenda. -/
theorem step_spec {x : Act} (K : s.Keeps a) (E : Enabled x s) :
    ∃ o s' a', step x s = some (o, s') ∧ Agenda.Step x a o a' ∧ s'.Keeps a' := by
  cases x with
  | notify memory when =>
      obtain ⟨s', hnotify, K'⟩ := K.notify E
      exact ⟨none, s', _, by simp only [step, hnotify, Option.map_some], .notify _ _ _ _, K'⟩
  | cancelAll =>
      obtain ⟨s', hcancel, K'⟩ := K.cancelAll
      exact ⟨none, s', _, by simp only [step, hcancel, Option.map_some], .cancelAll _ _, K'⟩
  | fire =>
      obtain ⟨s', hfire, K'⟩ := K.fire E
      exact ⟨none, s', _, by simp only [step, hfire, Option.map_some], .fire _, K'⟩
  | delta =>
      obtain ⟨B, hB, K'⟩ := K.delta E.1 E.2
      obtain ⟨now, B'⟩ := a
      obtain rfl : s.now = now := K.now
      obtain rfl : B' = s.now ::ₘ B := hB
      exact ⟨some s.now, _, _, rfl, .delta _ _, K'⟩
  | pass t => exact K.pass E

theorem start_keeps (null : ℕ) (memory : ℕ → ℕ) :
    ∃ s, start null memory = some s ∧ s.Keeps ⟨0, 0⟩ := by
  obtain ⟨q, hnew, V, hsize⟩ :=
    @PriorityQueue.new_spec ℕ ℕᵒᵈ _ OrderDual.toDual null memory 128 (by decide)
  have hnil : q.contents = 0 := (contents_eq_zero q).mpr hsize
  have hempty : ∀ x, x ∉ q.contents := by
    rw [hnil]
    exact Multiset.notMem_zero
  refine ⟨⟨q, ⊤, false, 0⟩, by rw [start, hnew]; rfl, rfl, V, fun x hx => absurd hx (hempty x),
    fun _ => ⟨hnil.symm, .inl ⟨hnil, rfl⟩⟩, (fun h => by cases h), Nat.zero_le _,
    fun x hx => absurd hx (hempty x)⟩

/-- What is still to be triggered is not past. -/
theorem Keeps.pending_future (K : s.Keeps a) : ∀ x ∈ a.pending, s.now ≤ x := by
  intro x hx
  cases hready : s.ready with
  | false => exact K.future x ((K.idle hready).1 ▸ hx)
  | true =>
      rcases (K.ready hready).2 with ⟨-, hnil⟩ | hmem
      · rw [hnil] at hx
        exact absurd hx (Multiset.notMem_zero x)
      · exact K.future x (hmem ▸ Multiset.mem_cons_of_mem hx)

/-! ### Runs -/

theorem run_keeps {as : List Act} (K : s.Keeps a) (E : Along step Enabled as s) :
    ∃ os s' a', run step as s = some (os, s') ∧ Runs Agenda.Step as a os a' ∧ s'.Keeps a' := by
  have hstep : ∀ x xs s a, (Keeps s a ∧ Along step Enabled (x :: xs) s) →
      ∃ o s' a', step x s = some (o, s') ∧ Agenda.Step x a o a' ∧
        (s'.Keeps a' ∧ Along step Enabled xs s') := by
    rintro x xs s a ⟨K, hE, hrest⟩
    obtain ⟨o, s', a', hs, hA, K'⟩ := step_spec K hE
    exact ⟨o, s', a', hs, hA, K', hrest o s' hs⟩
  obtain ⟨os, s', a', hrun, hruns, K', -⟩ :=
    run_simulates (R := fun as s a => Keeps s a ∧ Along step Enabled as s) hstep ⟨K, E⟩
  exact ⟨os, s', a', hrun, hruns, K'⟩

/-- **The queue keeps an agenda.** In every run from the constructor on, no access is outside
an array, the assertion of `fire_event` does not fail, and the triggers are those of the
agenda. -/
theorem agenda_run (null : ℕ) (memory : ℕ → ℕ) :
    ∃ s₀, start null memory = some s₀ ∧ ∀ {as : List Act}, Along step Enabled as s₀ →
      ∃ os s' a', run step as s₀ = some (os, s') ∧ Runs Agenda.Step as ⟨0, 0⟩ os a' ∧
        a'.now = s'.now ∧ ∀ x ∈ a'.pending, s'.now ≤ x := by
  obtain ⟨s₀, hstart, K₀⟩ := start_keeps null memory
  refine ⟨s₀, hstart, fun E => ?_⟩
  obtain ⟨os, s', a', hrun, hruns, K⟩ := run_keeps K₀ E
  exact ⟨os, s', a', hrun, hruns, K.now.symm, K.pending_future⟩

/-- The times that are asked for, from the time `now` on. -/
def asked : ℕ → List Act → List ℕ
  | _, [] => []
  | now, .notify _ when :: as => (when + now) :: asked now as
  | now, .cancelAll :: as => asked now as
  | now, .fire :: as => asked now as
  | now, .delta :: as => asked now as
  | now, .pass t :: as => asked (now + t) as

/-- Without `cancel_all` the agenda loses nothing. -/
theorem triggered_add_pending {as : List Act} {os : List (Option ℕ)}
    (h : Runs Agenda.Step as a os a') (hcancel : .cancelAll ∉ as) :
    (os.reduceOption : Multiset ℕ) + a'.pending = a.pending +
    (asked a.now as : Multiset ℕ) := by
  induction h with
  | nil a => simp [asked]
  | cons h hs ih =>
      have ih := ih fun hmem => hcancel (List.mem_cons_of_mem _ hmem)
      cases h with
      | notify memory when now B =>
          rw [List.reduceOption_cons_of_none, ih, asked]
          rw [← Multiset.cons_coe, Multiset.cons_add, Multiset.add_cons]
      | cancelAll now B => exact absurd List.mem_cons_self hcancel
      | fire a => exact ih
      | delta now B =>
          rw [List.reduceOption_cons_of_some, ← Multiset.cons_coe, Multiset.cons_add, ih,
            asked, Multiset.cons_add]
      | pass h => exact ih
      | trigger h =>
          rw [List.reduceOption_cons_of_some, ← Multiset.cons_coe, Multiset.cons_add, ih,
            asked, Multiset.cons_add]

/-- **Every notification is triggered once**, at its time and not before: in a run without
`cancel_all`, of the notifications for a time that has passed all have been triggered. -/
theorem each_once {null : ℕ} {memory : ℕ → ℕ} (hstart : start null memory = some s)
    {as : List Act} (E : Along step Enabled as s) (hcancel : .cancelAll ∉ as) :
    ∃ os s', run step as s = some (os, s') ∧ ∀ t,
      os.reduceOption.count t ≤ (asked 0 as).count t ∧
      (t < s'.now → os.reduceOption.count t = (asked 0 as).count t) := by
  obtain ⟨s₀, hstart', K₀⟩ := start_keeps null memory
  obtain rfl := Option.some.inj (hstart.symm.trans hstart')
  obtain ⟨os, s', a', hrun, hruns, K⟩ := run_keeps K₀ E
  refine ⟨os, s', hrun, fun t => ?_⟩
  have hcount := congrArg (Multiset.count t) (triggered_add_pending hruns hcancel)
  change _ = Multiset.count t (0 + (asked 0 as : Multiset ℕ)) at hcount
  rw [Multiset.count_add, zero_add, Multiset.coe_count, Multiset.coe_count] at hcount
  refine ⟨by omega, fun ht => ?_⟩
  have hnone : Multiset.count t a'.pending = 0 := by
    apply Multiset.count_eq_zero_of_notMem
    intro hmem
    exact absurd (K.pending_future t hmem) (Nat.not_le_of_lt ht)
  omega

/-- Two notifications for now and one for later. -/
def three : List Act :=
  [.notify id 3, .notify id 0, .notify id 0, .delta, .fire, .delta, .fire, .pass 3, .fire,
    .pass 1]

/-- The queue that the constructor leaves. -/
def fresh : EventQueue := ⟨⟨fun i => if i < 128 then 0 else i, 128, 0⟩, ⊤, false, 0⟩

theorem start_fresh : start 0 id = some fresh := rfl

theorem three_enabled : Along step Enabled three fresh := by decide +kernel

theorem agenda_run_three : ∃ os s', run step three fresh = some (os, s') ∧
    os.reduceOption = [0, 0, 3] := by
  obtain ⟨s₀, hstart, hall⟩ := agenda_run 0 id
  obtain rfl := Option.some.inj (hstart.symm.trans start_fresh)
  obtain ⟨os, s', -, hrun, -⟩ := hall three_enabled
  refine ⟨os, s', hrun, ?_⟩
  obtain ⟨rfl, -⟩ := Prod.mk.inj (Option.some.inj (hrun.symm.trans rfl))
  rfl

theorem each_once_three : ∃ os s', run step three fresh = some (os, s') ∧
    os.reduceOption.count 0 = 2 ∧ os.reduceOption.count 3 = 1 := by
  obtain ⟨os, s', hrun, hcount⟩ := each_once start_fresh three_enabled (by simp [three])
  refine ⟨os, s', hrun, ?_⟩
  have hnow : s'.now = 4 := by
    obtain ⟨-, rfl⟩ := Prod.mk.inj (Option.some.inj (hrun.symm.trans rfl))
    rfl
  exact ⟨(hcount 0).2 (by omega), (hcount 3).2 (by omega)⟩

end EventQueue
end Pscv.Kernel
