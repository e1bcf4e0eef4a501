import Mathlib.Order.Lattice.Nat
import Mathlib.Order.WellFounded
import Mathlib.Order.WithBot
import Pscv.Kernel.DeltaPhase
import Pscv.Kernel.Simulate

/-!
# The pending notification of an event

An event has at most one pending notification, and a new one prevails only when it is due
earlier. The kernel keeps it as a slot of the vector of delta events or as an entry of the
timed events; a `Schedule` is a map from events to the time at which they are due.

The events of the users are scheduled by nothing but their own `notify` and `cancel`. The
timeout of a process is also cancelled when the process is triggered before it, and has no
schedule of its own here.

## Main results

* `Notifications.notify_spec`, `Notifications.cancel_spec` — one operation.
* `SimContext.schedule_run` — the kernel refines the schedule along every run.
* `SimContext.timeLoop_triggers` — the time loop triggers the events
  that are due, and no others.
-/

namespace Pscv.Kernel

/-- When a notification is due: `⊥` in the next notification phase, `⊤` never. -/
abbrev Due := WithTop (WithBot ℕ)

/-- A notification that is due at the time `t`. -/
abbrev Due.time (t : ℕ) : Due := WithTop.some (WithBot.some t)

/-- The notification that `notify` asks for, with the delay `t` at the time `now`. -/
def delayed (now t : ℕ) : Due := if t = 0 then ⊥ else Due.time (timeAdd now t)

namespace Notifications

/-- The entries of `e` in the timed events. -/
def entries (d : Notifications) (e : Event) : List EventTimed :=
  d.timedEvents.filter fun x => x.event = some e

/-- When the pending notification of `e` is due. -/
def due (d : Notifications) (e : Event) : Due :=
  if d.notifyType e = .delta then ⊥
  else (d.entries e).foldr (fun x s => min (Due.time x.notifyTime) s) ⊤

/-- The timed events have one entry for each event with a timed notification. -/
def Timely (d : Notifications) : Prop :=
  ∀ e, (d.notifyType e = .timed ∧ ∃ t, d.entries e = [⟨some e, t⟩]) ∨
    (d.notifyType e ≠ .timed ∧ d.entries e = [])

section Operations
variable {d : Notifications} {e e' x T : Event} {now t : ℕ} {ps : List Proc}

theorem due_of_delta (h : d.notifyType e = .delta) : d.due e = ⊥ := if_pos h

theorem due_of_nil (h : d.notifyType e ≠ .delta) (hnil : d.entries e = []) : d.due e = ⊤ := by
  rw [due, if_neg h, hnil]
  rfl

theorem due_of_entry (h : d.notifyType e ≠ .delta) {y : EventTimed} (hy : d.entries e = [y]) :
    d.due e = Due.time y.notifyTime := by
  rw [due, if_neg h, hy]
  exact min_eq_left le_top

theorem due_eq_bot_iff : d.due e = ⊥ ↔ d.notifyType e = .delta := by
  refine ⟨fun h => ?_, due_of_delta⟩
  by_contra hdelta
  rw [due, if_neg hdelta] at h
  generalize d.entries e = xs at h
  induction xs with
  | nil => cases h
  | cons x xs ih =>
      rw [List.foldr_cons, min_eq_bot] at h
      rcases h with h | h
      · cases h
      · exact ih h

/-- What an event has to itself. -/
theorem due_congr {d' : Notifications} (htype : d'.notifyType e = d.notifyType e)
    (hentries : d'.entries e = d.entries e) : d'.due e = d.due e := by
  rw [due, due, htype, hentries]

theorem Timely.entries_eq_nil (W : Timely d) (h : d.notifyType e ≠ .timed) :
    d.entries e = [] := by
  rcases W e with ⟨htimed, -⟩ | ⟨-, hnil⟩
  · exact absurd htimed h
  · exact hnil

theorem entries_removeTimed_self : (d.removeTimed e).entries e = [] := by
  rw [entries, List.filter_eq_nil_iff]
  intro x hx
  obtain ⟨y, -, rfl⟩ := List.mem_map.mp hx
  split_ifs with hy
  · simp
  · simpa using hy

theorem entries_removeTimed_ne (h : e' ≠ e) : (d.removeTimed e).entries e' = d.entries e' := by
  rw [entries, entries, removeTimed]
  induction d.timedEvents with
  | nil => rfl
  | cons x xs ih =>
      rw [List.map_cons, List.filter_cons, List.filter_cons, ih]
      by_cases hx : x.event = some e
      · simp [hx, Ne.symm h]
      · simp [hx]

/-- One event may change, when it is in order again. -/
theorem Timely.of_ne {d' : Notifications} (W : Timely d)
    (htype : ∀ e', e' ≠ e → d'.notifyType e' = d.notifyType e')
    (hentries : ∀ e', e' ≠ e → d'.entries e' = d.entries e')
    (he : (d'.notifyType e = .timed ∧ ∃ t, d'.entries e = [⟨some e, t⟩]) ∨
      (d'.notifyType e ≠ .timed ∧ d'.entries e = [])) : Timely d' := by
  intro e'
  by_cases hee : e' = e
  · exact hee ▸ he
  · rw [htype e' hee, hentries e' hee]
    exact W e'

/-! ### The operations -/

/-- `clear` of an event without a timed entry. -/
theorem clear_spec (W : Timely d) (he : d.entries e = []) :
    Timely (d.clear e) ∧ ∀ e', (d.clear e).due e' = if e' = e then ⊤ else d.due e' := by
  constructor
  · refine W.of_ne (e := e) (fun e' hee => ?_) (fun _ _ => rfl) (.inr ⟨by simp [clear], he⟩)
    simp [clear, hee]
  · intro e'
    split_ifs with hee
    · subst hee
      exact due_of_nil (by simp [clear]) he
    · exact due_congr (by simp [clear, hee]) rfl

theorem removeDeltaEvent_timedEvents : (d.removeDeltaEvent e).timedEvents = d.timedEvents := by
  simp only [removeDeltaEvent]
  split
  · split_ifs <;> rfl
  · rfl

theorem entries_cancel_ne (h : e' ≠ e) : (d.cancel e).entries e' = d.entries e' := by
  cases htype : d.notifyType e with
  | none => simp only [cancel, htype]
  | delta => simp only [cancel, htype, entries, removeDeltaEvent_timedEvents]
  | timed =>
      simp only [cancel, htype]
      exact entries_removeTimed_ne h

theorem entries_cancel_self (W : Timely d) : (d.cancel e).entries e = [] := by
  cases htype : d.notifyType e with
  | none =>
      simp only [cancel, htype]
      exact W.entries_eq_nil (by simp [htype])
  | delta =>
      simp only [cancel, htype, entries, removeDeltaEvent_timedEvents]
      exact W.entries_eq_nil (by simp [htype])
  | timed =>
      simp only [cancel, htype]
      exact entries_removeTimed_self

theorem notifyType_cancel :
    (d.cancel e).notifyType e' = if e' = e then .none else d.notifyType e' := by
  cases h : d.notifyType e with
  | none =>
      simp only [cancel, h]
      split_ifs with hee
      · rw [hee, h]
      · rfl
  | delta => simp [cancel, h, Function.update_apply]
  | timed => simp [cancel, h, Function.update_apply]

/-- `cancel`. -/
theorem cancel_spec (W : Timely d) :
    Timely (d.cancel e) ∧ ∀ e', (d.cancel e).due e' = if e' = e then ⊤ else d.due e' := by
  have hself : (d.cancel e).notifyType e = .none := notifyType_cancel.trans (if_pos rfl)
  constructor
  · refine W.of_ne (e := e) (fun e' hee => ?_) (fun e' hee => entries_cancel_ne hee)
      (.inr ⟨by simp [hself], entries_cancel_self W⟩)
    rw [notifyType_cancel, if_neg hee]
  · intro e'
    by_cases hee : e' = e
    · rw [if_pos hee, hee]
      exact due_of_nil (by simp [hself]) (entries_cancel_self W)
    · rw [if_neg hee]
      exact due_congr (by rw [notifyType_cancel, if_neg hee]) (entries_cancel_ne hee)

/-- Without the timed entry that `e` may have. -/
def withdraw (e : Event) (d : Notifications) : Notifications :=
  if d.notifyType e = .timed then d.removeTimed e else d

theorem withdraw_notifyType : (d.withdraw e).notifyType = d.notifyType := by
  rw [withdraw]
  split_ifs <;> rfl

theorem entries_withdraw_self (W : Timely d) : (d.withdraw e).entries e = [] := by
  rw [withdraw]
  split_ifs with h
  · exact entries_removeTimed_self
  · exact W.entries_eq_nil h

theorem entries_withdraw_ne (h : e' ≠ e) : (d.withdraw e).entries e' = d.entries e' := by
  rw [withdraw]
  split_ifs
  · exact entries_removeTimed_ne h
  · rfl

/-- A notification for the next phase. -/
theorem addDeltaEvent_spec (W : Timely d) : Timely ((d.withdraw e).addDeltaEvent e) ∧
    ∀ e', ((d.withdraw e).addDeltaEvent e).due e' = if e' = e then ⊥ else d.due e' := by
  constructor
  · refine W.of_ne (e := e) (fun e' hee => ?_) (fun e' hee => entries_withdraw_ne hee)
      (.inr ⟨by simp [addDeltaEvent], entries_withdraw_self W⟩)
    simp [addDeltaEvent, hee, withdraw_notifyType]
  · intro e'
    split_ifs with hee
    · exact hee ▸ due_of_delta (by simp [addDeltaEvent])
    · exact due_congr (by simp [addDeltaEvent, hee, withdraw_notifyType])
        (entries_withdraw_ne hee)

/-- `e` has a timed notification, for the time `t`. -/
def addTimed (e : Event) (t : ℕ) (d : Notifications) : Notifications :=
  { d with
    timedEvents := d.timedEvents ++ [⟨some e, t⟩]
    notifyType := Function.update d.notifyType e .timed }

theorem entries_addTimed :
    (d.addTimed e t).entries e' = d.entries e' ++ if e' = e then [⟨some e, t⟩] else [] := by
  rw [entries, addTimed, List.filter_append]
  split_ifs with hee
  · simp [entries, hee]
  · simp [entries, Ne.symm hee]

theorem addTimed_spec (W : Timely d) (t : ℕ) : Timely ((d.withdraw e).addTimed e t) ∧
    ∀ e', ((d.withdraw e).addTimed e t).due e' =
      if e' = e then Due.time t else d.due e' := by
  have hself : ((d.withdraw e).addTimed e t).entries e = [⟨some e, t⟩] := by
    rw [entries_addTimed, entries_withdraw_self W, if_pos rfl, List.nil_append]
  have hother : ∀ e', e' ≠ e → ((d.withdraw e).addTimed e t).entries e' = d.entries e' := by
    intro e' hee
    rw [entries_addTimed, entries_withdraw_ne hee, if_neg hee, List.append_nil]
  constructor
  · refine W.of_ne (e := e) (fun e' hee => ?_) hother (.inl ⟨by simp [addTimed], t, hself⟩)
    simp [addTimed, hee, withdraw_notifyType]
  · intro e'
    split_ifs with hee
    · exact hee ▸ due_of_entry (by simp [addTimed]) hself
    · exact due_congr (by simp [addTimed, hee, withdraw_notifyType]) (hother e' hee)

/-- The entry of a timed event says when it is due. -/
theorem Timely.due_le_iff (W : Timely d) (hdelta : d.notifyType e ≠ .delta) (u : ℕ) :
    d.due e ≤ Due.time u ↔ d.notifyType e = .timed ∧
      ∃ x ∈ d.timedEvents, x.event = some e ∧ x.notifyTime ≤ u := by
  have hentries : ∀ x, x ∈ d.entries e ↔ x ∈ d.timedEvents ∧ x.event = some e := by
    intro x
    rw [entries, List.mem_filter, decide_eq_true_iff]
  rcases W e with ⟨htimed, t', hentry⟩ | ⟨htimed, hnil⟩
  · rw [due_of_entry hdelta hentry, WithTop.coe_le_coe, WithBot.coe_le_coe]
    constructor
    · intro hle
      obtain ⟨hx, hevent⟩ := (hentries ⟨some e, t'⟩).mp (by rw [hentry]; simp)
      exact ⟨htimed, _, hx, hevent, hle⟩
    · rintro ⟨-, x, hx, hevent, hle⟩
      have hmem := (hentries x).mpr ⟨hx, hevent⟩
      rw [hentry, List.mem_singleton] at hmem
      exact hmem ▸ hle
  · rw [due_of_nil hdelta hnil]
    simp [htimed]

theorem Timely.due_eq_iff (W : Timely d) :
    d.due e = Due.time t ↔ (⟨some e, t⟩ : EventTimed) ∈ d.timedEvents := by
  have hmem : (⟨some e, t⟩ : EventTimed) ∈ d.timedEvents ↔
      (⟨some e, t⟩ : EventTimed) ∈ d.entries e := by
    rw [entries, List.mem_filter]
    simp
  rw [hmem]
  rcases W e with ⟨htype, t', hentry⟩ | ⟨htype, hnil⟩
  · rw [due_of_entry (by simp [htype]) hentry, hentry, List.mem_singleton]
    simp only [EventTimed.mk.injEq, true_and, WithTop.coe_inj, WithBot.coe_inj]
    exact eq_comm
  · rw [hnil]
    simp only [List.not_mem_nil, iff_false]
    by_cases hdelta : d.notifyType e = .delta
    · rw [due_of_delta hdelta]
      exact fun h => by cases h
    · rw [due_of_nil hdelta hnil]
      exact fun h => by cases h

/-- `notify` keeps the earlier notification. -/
theorem notify_spec (W : Timely d) (now t : ℕ) (e : Event) : Timely (d.notify now t e) ∧
    ∀ e', (d.notify now t e).due e' =
      if e' = e then min (d.due e) (delayed now t) else d.due e' := by
  have hsame : d.notify now t e = d → d.due e ≤ delayed now t → Timely (d.notify now t e) ∧
      ∀ e', (d.notify now t e).due e' =
        if e' = e then min (d.due e) (delayed now t) else d.due e' := by
    intro heq hle
    rw [heq]
    refine ⟨W, fun e' => ?_⟩
    split_ifs with hee
    · rw [min_eq_left hle, hee]
    · rfl
  by_cases hdelta : d.notifyType e = .delta
  · exact hsame (by simp only [notify, if_pos hdelta]) (due_of_delta hdelta ▸ bot_le)
  by_cases ht : t = 0
  · have hnew : d.notify now t e = (d.withdraw e).addDeltaEvent e := by
      simp only [notify, withdraw, if_neg hdelta, if_pos ht]
    rw [hnew, delayed, if_pos ht, min_eq_right bot_le]
    exact addDeltaEvent_spec W
  have hdelayed : delayed now t = Due.time (timeAdd now t) := if_neg ht
  have hle := W.due_le_iff hdelta (timeAdd now t)
  by_cases hearly : d.due e ≤ delayed now t
  · have hnow := hle.mp (hdelayed ▸ hearly)
    exact hsame (by simp only [notify, if_neg hdelta, if_neg ht, if_pos hnow]) hearly
  · have hnew : d.notify now t e = (d.withdraw e).addTimed e (timeAdd now t) := by
      simp only [notify, withdraw, addTimed, if_neg hdelta, if_neg ht,
        if_neg (mt hle.mpr (hdelayed ▸ hearly))]
      split_ifs <;> rfl
    rw [hnew, min_eq_right (le_of_not_ge hearly), hdelayed]
    exact addTimed_spec W (timeAdd now t)

/-- `cancel` and `reset`. -/
theorem drop_spec (W : Timely d) :
    Timely (d.drop T) ∧ ∀ e', (d.drop T).due e' = if e' = T then ⊤ else d.due e' := by
  obtain ⟨W', hdue⟩ := cancel_spec (e := T) W
  obtain ⟨W'', hdue'⟩ := clear_spec W' (entries_cancel_self W)
  refine ⟨W'', fun e' => ?_⟩
  rw [drop, hdue', hdue]
  split_ifs <;> rfl

theorem entries_drops {n : ℕ} : (d.drops ps).entries (.user n) = d.entries (.user n) := by
  induction ps generalizing d with
  | nil => rfl
  | cons p ps ih => exact ih.trans (entries_cancel_ne (e := .timeout p) (by simp))

theorem timedEvents_cancel (d' : Notifications) (htype : d'.notifyType T = d.notifyType T)
    (h : d'.timedEvents = d.timedEvents) :
    (d'.cancel T).timedEvents = (d.cancel T).timedEvents := by
  cases hT : d.notifyType T with
  | none => simpa only [cancel, htype, hT] using h
  | delta => simpa only [cancel, htype, hT, removeDeltaEvent_timedEvents] using h
  | timed => simp only [cancel, htype, hT, removeTimed, h]

/-- Whether the timed events are in order is said by them and the types. -/
theorem Timely.congr {d' : Notifications} (W : Timely d) (htype : d'.notifyType = d.notifyType)
    (h : d'.timedEvents = d.timedEvents) : Timely d' := by
  intro e
  rw [entries, htype, h]
  exact W e

/-- The timeouts that are dropped while `x` is triggered are no events of users. -/
theorem drops_spec (hps : ∀ p ∈ ps, .timeout p ≠ x) (W : Timely (d.clear x)) :
    Timely ((d.drops ps).clear x) ∧
      ∀ n, ((d.drops ps).clear x).due (.user n) = (d.clear x).due (.user n) := by
  induction ps generalizing d with
  | nil => exact ⟨W, fun _ => rfl⟩
  | cons p ps ih =>
      have hp := hps p List.mem_cons_self
      obtain ⟨W₁, hdue₁⟩ := drop_spec (T := .timeout p) W
      have htype : ((d.drop (.timeout p)).clear x).notifyType =
          ((d.clear x).drop (.timeout p)).notifyType := by
        funext e
        simp only [drop, clear, Function.update_apply, notifyType_cancel]
        split_ifs <;> rfl
      have htimed : ((d.drop (.timeout p)).clear x).timedEvents =
          ((d.clear x).drop (.timeout p)).timedEvents :=
        (timedEvents_cancel (d := d) (d.clear x) (by simp [clear, hp]) rfl).symm
      obtain ⟨W₂, hdue₂⟩ := ih (fun q hq => hps q (List.mem_cons_of_mem p hq))
        (W₁.congr htype htimed)
      refine ⟨W₂, fun n => (hdue₂ n).trans ?_⟩
      have hsame : ((d.drop (.timeout p)).clear x).due (.user n) =
          ((d.clear x).drop (.timeout p)).due (.user n) :=
        due_congr (congrFun htype _) (by rw [entries, htimed, entries])
      exact hsame.trans ((hdue₁ _).trans (if_neg (by simp)))

/-- An entry that is live after some timeouts were dropped was there before. -/
theorem mem_of_mem_drops {y : EventTimed} (h : y ∈ (d.drops ps).timedEvents)
    (hlive : y.event ≠ none) : y ∈ d.timedEvents := by
  have hdrop : ∀ (T : Event) (d : Notifications), y ∈ (d.drop T).timedEvents →
      y ∈ d.timedEvents := by
    intro T d hy
    cases htype : d.notifyType T with
    | none => simpa only [drop, clear, Notifications.cancel, htype] using hy
    | delta =>
        simpa only [drop, clear, Notifications.cancel, htype,
          removeDeltaEvent_timedEvents] using hy
    | timed =>
        simp only [drop, clear, Notifications.cancel, htype, removeTimed] at hy
        obtain ⟨z, hz, rfl⟩ := List.mem_map.mp hy
        split_ifs at hlive ⊢ with hT
        · exact absurd rfl hlive
        · exact hz
  induction ps generalizing d with
  | nil => exact h
  | cons p ps ih => exact hdrop _ _ (ih h)

/-- The first `m` slots of the vector, among them those in use, have no event with a timed
entry. -/
structure Untimed (m : ℕ) (d : Notifications) : Prop where
  size : d.deltaSize ≤ m
  slots : ∀ j < m, ∀ x, d.deltaEvents[j]? = some x → d.notifyType x ≠ .timed

/-- A cancelled event leaves its slot to the last one. -/
theorem Untimed.cancel {m : ℕ} (U : Untimed m d) : Untimed m (d.cancel e) := by
  have htype : ∀ x, d.notifyType x ≠ .timed →
      Function.update d.notifyType e .none x ≠ .timed := by
    intro x hx
    by_cases hxe : x = e
    · simp [hxe]
    · simpa [hxe] using hx
  cases h : d.notifyType e with
  | none => simpa [Notifications.cancel, h] using U
  | timed =>
      simp only [Notifications.cancel, h]
      exact ⟨U.size, fun j hj x hx => htype x (U.slots j hj x hx)⟩
  | delta =>
      simp only [Notifications.cancel, h]
      have hslots : (d.removeDeltaEvent e).deltaSize ≤ m ∧
          ∀ j < m, ∀ x, (d.removeDeltaEvent e).deltaEvents[j]? = some x →
            d.notifyType x ≠ .timed := by
        simp only [removeDeltaEvent]
        cases hidx : d.deltaIndex e with
        | none => exact ⟨U.size, U.slots⟩
        | some i =>
            cases hlast : d.deltaEvents[d.deltaSize - 1]? with
            | none => exact ⟨U.size, U.slots⟩
            | some last =>
                refine ⟨(Nat.sub_le _ _).trans U.size, fun j hj x hx => ?_⟩
                have hsize := U.size
                by_cases hi : i ≠ d.deltaSize - 1
                · simp only [if_pos hi] at hx
                  rw [List.getElem?_set] at hx
                  split_ifs at hx with hij
                  · obtain rfl := Option.some.inj hx
                    exact U.slots _ (by omega) _ hlast
                  · exact U.slots j hj x hx
                · simp only [if_neg hi] at hx
                  exact U.slots j hj x hx
      exact ⟨hslots.1, fun j hj x hx => htype x (hslots.2 j hj x hx)⟩

theorem Untimed.clear {m : ℕ} (U : Untimed m d) : Untimed m (d.clear e) := by
  refine ⟨U.size, fun j hj x hx => ?_⟩
  by_cases hxe : x = e
  · simp [Notifications.clear, hxe]
  · simpa [Notifications.clear, hxe] using U.slots j hj x hx

theorem Untimed.drops {m : ℕ} (U : Untimed m d) : Untimed m (d.drops ps) := by
  induction ps generalizing d with
  | nil => exact U
  | cons p ps ih => exact ih U.cancel.clear

end Operations

end Notifications

namespace SimContext
open Notifications

section Trigger
variable {k : SimContext} {x e : Event} {n : ℕ}

theorem entries_trigger (x : Event) (k : SimContext) (n : ℕ) :
    (k.trigger x).notifications.entries (.user n) = k.notifications.entries (.user n) := by
  obtain ⟨ps, k', V, htrigger⟩ := trigger_visit x k
  rw [htrigger]
  exact entries_drops

/-- A trigger of `x`, whose entry is extracted. -/
theorem trigger_spec (W : (k.notifications.clear x).Timely) :
    (k.trigger x).notifications.Timely ∧ ∀ n, (k.trigger x).notifications.due (.user n) =
      (k.notifications.clear x).due (.user n) := by
  obtain ⟨ps, k', V, htrigger⟩ := trigger_visit x k
  rw [htrigger]
  exact drops_spec V.timeouts W

theorem notifyType_trigger_self (x : Event) (k : SimContext) :
    (k.trigger x).notifications.notifyType x = .none := by
  rw [trigger]
  exact Function.update_self ..

theorem mem_of_mem_trigger {y : EventTimed} (h : y ∈ (k.trigger x).notifications.timedEvents)
    (hlive : y.event ≠ none) : y ∈ k.notifications.timedEvents := by
  obtain ⟨ps, k', V, htrigger⟩ := trigger_visit x k
  rw [htrigger] at h
  exact mem_of_mem_drops h hlive

theorem untimed_trigger {m : ℕ} (U : k.notifications.Untimed m) :
    (k.trigger x).notifications.Untimed m := by
  obtain ⟨ps, k', V, htrigger⟩ := trigger_visit x k
  rw [htrigger]
  exact U.drops.clear

/-- The loop of the notification phase leaves the timed entries of the users' events. -/
theorem deltaLoop_spec {m i : ℕ} (hi : i ≤ m) (U : k.notifications.Untimed m)
    (W : k.notifications.Timely) : (deltaLoop i k).notifications.Timely ∧
      ∀ n, (deltaLoop i k).notifications.entries (.user n) =
        k.notifications.entries (.user n) := by
  induction i generalizing k with
  | zero => exact ⟨W, fun _ => rfl⟩
  | succ i ih =>
      cases hx : k.notifications.deltaEvents[i]? with
      | none =>
          simp only [deltaLoop, hx]
          exact ih (by omega) U W
      | some x =>
          simp only [deltaLoop, hx]
          have hxtype := U.slots i (by omega) x hx
          obtain ⟨W', hentries⟩ := ih (by omega) (untimed_trigger (x := x) U)
            (trigger_spec (clear_spec W (W.entries_eq_nil hxtype)).1).1
          exact ⟨W', fun n => (hentries n).trans (entries_trigger x k n)⟩

/-- The notification phase triggers what is due in it. -/
theorem deltaPhase_spec (D : k.notifications.WellFormed) (W : k.notifications.Timely) :
    k.deltaPhase.notifications.Timely ∧ ∀ n, k.deltaPhase.notifications.due (.user n) =
      if k.notifications.due (.user n) = ⊥ then ⊤ else k.notifications.due (.user n) := by
  have U : k.notifications.Untimed k.notifications.deltaSize := by
    refine ⟨le_rfl, fun j hj x hx => ?_⟩
    obtain ⟨e, hslot, hpending, -⟩ := D.pending j hj
    obtain rfl := Option.some.inj (hslot.symm.trans hx)
    simp [hpending]
  obtain ⟨W', hentries⟩ := deltaLoop_spec le_rfl U W
  have hnone : ∀ e, k.deltaPhase.notifications.notifyType e ≠ .delta := by
    intro e he
    obtain ⟨i, hi, -⟩ := (deltaPhase_wellFormed D).below.index e he
    exact absurd hi (Nat.not_lt_zero i)
  refine ⟨W', fun n => ?_⟩
  have hafter : k.deltaPhase.notifications.entries (.user n) =
      k.notifications.entries (.user n) := hentries n
  split_ifs with hdue
  · apply due_of_nil (hnone _)
    rw [hafter]
    apply W.entries_eq_nil
    simp [due_eq_bot_iff.mp hdue]
  · rw [due, if_neg (hnone _), hafter, due, if_neg (mt due_of_delta hdue)]

end Trigger

end SimContext

/-! ## Runs -/

/-- When the users' events are due. -/
abbrev Schedule := ℕ → Due

/-- What happens to the notifications of a simulation: calls of the users' code, the phases of
the kernel, and the passing of time. `timed x` extracts an entry of the event `x`, or a
cancelled one, and triggers its event. -/
inductive EventAct
  | processes
  | notify (t : ℕ) (e : Event)
  | cancel (e : Event)
  | notifyNow (e : Event)
  | timed (x : Option Event)
  | deltaPhase
  | pass (t : ℕ)

/-- The time after an action. -/
def EventAct.clock (now : ℕ) : EventAct → ℕ
  | .pass t => now + t
  | _ => now

namespace Schedule

/-- The users' event `n` is due at `u`, unless the event was a timeout. -/
def set (e : Event) (u : ℕ → Due) (s : Schedule) : Schedule :=
  fun n => if e = .user n then u n else s n

/-- What an action means for the schedule, at the time `now`. -/
def act (now : ℕ) : EventAct → Schedule → Schedule
  | .notify t e, s => s.set e fun n => min (s n) (delayed now t)
  | .cancel e, s => s.set e fun _ => ⊤
  | .notifyNow e, s => s.set e fun _ => ⊤
  | .timed (some e), s => s.set e fun _ => ⊤
  | .deltaPhase, s => fun n => if s n = ⊥ then ⊤ else s n
  | _, s => s

/-- The schedule after some actions. -/
def after : ℕ → List EventAct → Schedule → Schedule
  | _, [], s => s
  | now, a :: as, s => after (a.clock now) as (s.act now a)

end Schedule

namespace SimContext
open Notifications

/-- The actions of the kernel. Between them processes run and wait, which may change everything
but the notifications. -/
inductive EventActs : ℕ → SimContext → EventAct → ℕ → SimContext → Prop
  | processes {now : ℕ} {k k' : SimContext} (h : k'.notifications = k.notifications) :
      EventActs now k .processes now k'
  | notify {now : ℕ} {k : SimContext} (t : ℕ) (e : Event) :
      EventActs now k (.notify t e) now
        { k with notifications := k.notifications.notify now t e }
  | cancel {now : ℕ} {k : SimContext} (e : Event) :
      EventActs now k (.cancel e) now (k.cancel e)
  | notifyNow {now : ℕ} {k : SimContext} (e : Event) :
      EventActs now k (.notifyNow e) now (k.notifyNow e)
  | timed {now : ℕ} {k : SimContext} (top : List EventTimed → ℕ) {et : EventTimed}
      (h : k.topEvent top = some et) :
      EventActs now k (.timed et.event) now ((k.extractTop top).triggerTimed et)
  | deltaPhase {now : ℕ} {k : SimContext} : EventActs now k .deltaPhase now k.deltaPhase
  | pass {now : ℕ} {k : SimContext} (t : ℕ) (h : now + t ≤ maxTime) :
      EventActs now k (.pass t) (now + t) k

/-- A sequence of actions. -/
inductive Run : ℕ → SimContext → List EventAct → ℕ → SimContext → Prop
  | nil (now : ℕ) (k : SimContext) : Run now k [] now k
  | cons {now now₁ now₂ : ℕ} {k k₁ k₂ : SimContext} {a : EventAct} {as : List EventAct}
      (h : EventActs now k a now₁ k₁) (hs : Run now₁ k₁ as now₂ k₂) :
        Run now k (a :: as) now₂ k₂

/-- The notifications of the kernel are those of the schedule. -/
structure Represents (k : SimContext) (s : Schedule) : Prop where
  wellFormed : k.notifications.WellFormed
  timely : k.notifications.Timely
  due : ∀ n, k.notifications.due (.user n) = s n

section Runs
variable {k k' : SimContext} {s : Schedule} {now now' t : ℕ} {a : EventAct}
    {as : List EventAct}
variable {top : List EventTimed → ℕ} {et : EventTimed} {e : Event}

/-- The entries that are left when one is extracted. -/
theorem entries_extractTop (h : k.topEvent top = some et) (e : Event) :
    k.notifications.entries e = (k.extractTop top).notifications.entries e ∧
      et.event ≠ some e ∨
    (∃ xs ys, k.notifications.entries e = xs ++ et :: ys ∧
      (k.extractTop top).notifications.entries e = xs ++ ys) ∧ et.event = some e := by
  obtain ⟨hlt, hget⟩ := List.getElem?_eq_some_iff.mp h
  have hsplit := List.take_append_drop (top k.notifications.timedEvents)
    k.notifications.timedEvents
  rw [List.drop_eq_getElem_cons hlt, hget] at hsplit
  have hleft : (k.extractTop top).notifications.entries e =
      (k.notifications.timedEvents.take (top k.notifications.timedEvents)).filter
        (fun x => x.event = some e) ++
      (k.notifications.timedEvents.drop (top k.notifications.timedEvents + 1)).filter
        (fun x => x.event = some e) := by
    rw [entries, extractTop, List.eraseIdx_eq_take_drop_succ, List.filter_append]
  have hall : k.notifications.entries e =
      (k.notifications.timedEvents.take (top k.notifications.timedEvents)).filter
        (fun x => x.event = some e) ++
      (et :: k.notifications.timedEvents.drop (top k.notifications.timedEvents + 1)).filter
        (fun x => x.event = some e) := by
    rw [← List.filter_append, hsplit]
    rfl
  by_cases he : et.event = some e
  · right
    rw [List.filter_cons_of_pos (by simpa using he)] at hall
    exact ⟨⟨_, _, hall, hleft⟩, he⟩
  · left
    rw [List.filter_cons_of_neg (by simpa using he), ← hleft] at hall
    exact ⟨hall, he⟩

/-- An event without a delta notification is triggered. -/
theorem Represents.trigger (R : k.Represents s) (D : k'.notifications.WellFormed)
    (hdelta : k'.notifications.notifyType e ≠ .delta) (W : (k'.notifications.clear e).Timely)
    (hdue : ∀ n, .user n ≠ e →
      k'.notifications.due (.user n) = k.notifications.due (.user n)) :
    (k'.trigger e).Represents (s.set e fun _ => ⊤) := by
  obtain ⟨W', hdue'⟩ := trigger_spec W
  refine ⟨trigger_wellFormed D hdelta, W', fun n => (hdue' n).trans ?_⟩
  rw [Schedule.set]
  split_ifs with he
  · have htype : (k'.notifications.clear e).notifyType (.user n) = .none := by simp [clear, he]
    exact due_of_nil (by simp [htype]) (W.entries_eq_nil (by simp [htype]))
  · have hne : Event.user n ≠ e := fun h => he h.symm
    have hsame : (k'.notifications.clear e).due (.user n) = k'.notifications.due (.user n) :=
      due_congr (by simp [clear, hne]) rfl
    rw [hsame, hdue n hne, R.due]

theorem wellFormed_extractTop (D : k.notifications.WellFormed) :
    (k.extractTop top).notifications.WellFormed :=
  (⟨rfl, rfl, rfl, fun _ _ => Iff.rfl, fun _ => Iff.rfl⟩ :
    Calm k.notifications (k.extractTop top).notifications).wellFormed D

/-- A cancelled entry is no event's. -/
theorem entries_extractTop_of_none (h : k.topEvent top = some et) (hnone : et.event = none)
    (e : Event) : (k.extractTop top).notifications.entries e = k.notifications.entries e := by
  rcases entries_extractTop h e with ⟨hsame, -⟩ | ⟨-, he⟩
  · exact hsame.symm
  · rw [hnone] at he
    cases he

theorem due_extractTop (h : k.topEvent top = some et) (hnone : et.event = none) (e : Event) :
    (k.extractTop top).notifications.due e = k.notifications.due e :=
  due_congr rfl (entries_extractTop_of_none h hnone e)

/-- A cancelled entry is extracted. -/
theorem Represents.extractTop (R : k.Represents s) (h : k.topEvent top = some et)
    (hnone : et.event = none) : (k.extractTop top).Represents s := by
  refine ⟨wellFormed_extractTop R.wellFormed, fun e => ?_, fun n => ?_⟩
  · rw [entries_extractTop_of_none h hnone]
    exact R.timely e
  · exact (due_extractTop h hnone _).trans (R.due n)

/-- The entry of an event is extracted, and the event triggered. -/
theorem Represents.extracted (R : k.Represents s) (h : k.topEvent top = some et)
    (he : et.event = some e) :
    k.notifications.entries e = [et] ∧ k.notifications.notifyType e = .timed ∧
      ((k.extractTop top).trigger e).Represents (s.set e fun _ => ⊤) := by
  have hself : k.notifications.entries e = [et] ∧ k.notifications.notifyType e = .timed ∧
      (k.extractTop top).notifications.entries e = [] := by
    rcases entries_extractTop h e with ⟨-, hne⟩ | ⟨⟨xs, ys, hall, hleft⟩, -⟩
    · exact absurd he hne
    · rcases R.timely e with ⟨htype, t, hentry⟩ | ⟨-, hnil⟩
      · rw [hentry] at hall
        have hlen := congrArg List.length hall
        rw [List.length_singleton, List.length_append, List.length_cons] at hlen
        have hxs : xs = [] := List.eq_nil_of_length_eq_zero (by omega)
        have hys : ys = [] := List.eq_nil_of_length_eq_zero (by omega)
        rw [hxs, hys] at hall hleft
        exact ⟨hentry.trans hall, htype, hleft⟩
      · rw [hnil] at hall
        simp at hall
  obtain ⟨hentry, htype, hleft⟩ := hself
  have hother : ∀ e', e' ≠ e → (k.extractTop top).notifications.entries e' =
      k.notifications.entries e' := by
    intro e' hee
    rcases entries_extractTop h e' with ⟨hsame, -⟩ | ⟨-, he'⟩
    · exact hsame.symm
    · exact absurd (Option.some.inj (he'.symm.trans he)) hee
  refine ⟨hentry, htype, ?_⟩
  apply R.trigger (wellFormed_extractTop R.wellFormed)
  · change k.notifications.notifyType e ≠ .delta
    simp [htype]
  · refine R.timely.of_ne (e := e) (fun e' hee => ?_) hother (.inr ⟨by simp [clear], hleft⟩)
    simp only [clear, Function.update_of_ne hee]
    rfl
  · intro n hn
    exact due_congr rfl (hother _ hn)

theorem Represents.triggerTimed (R : k.Represents s) (h : k.topEvent top = some et) :
    ((k.extractTop top).triggerTimed et).Represents (s.act now (.timed et.event)) := by
  rw [SimContext.triggerTimed]
  cases he : et.event with
  | none => exact R.extractTop h he
  | some e => exact (R.extracted h he).2.2

/-- **One action of the kernel** changes the notifications as it changes the schedule. -/
theorem Represents.acts (R : k.Represents s) (h : EventActs now k a now' k') :
    k'.Represents (s.act now a) := by
  cases h with
  | processes h =>
      obtain ⟨D, W, hdue⟩ := R
      rw [← h] at D W hdue
      exact ⟨D, W, hdue⟩
  | notify t e =>
      obtain ⟨W, hdue⟩ := notify_spec R.timely now t e
      refine ⟨R.wellFormed.notify now t e, W, fun n => (hdue _).trans ?_⟩
      simp only [Schedule.act, Schedule.set]
      by_cases he : e = .user n
      · rw [if_pos he, if_pos he.symm, he, R.due]
      · rw [if_neg he, if_neg (Ne.symm he), R.due]
  | cancel e =>
      obtain ⟨W, hdue⟩ := cancel_spec (e := e) R.timely
      refine ⟨R.wellFormed.cancel e, W, fun n => (hdue _).trans ?_⟩
      simp only [Schedule.act, Schedule.set]
      by_cases he : e = .user n
      · rw [if_pos he, if_pos he.symm]
      · rw [if_neg he, if_neg (Ne.symm he), R.due]
  | notifyNow e =>
      obtain ⟨W, hdue⟩ := cancel_spec (e := e) R.timely
      apply R.trigger (R.wellFormed.cancel e) cancel_notifyType
        (clear_spec W (entries_cancel_self R.timely)).1
      intro n hn
      exact (hdue _).trans (if_neg hn)
  | timed top htop => exact R.triggerTimed htop
  | deltaPhase =>
      obtain ⟨W, hdue⟩ := deltaPhase_spec R.wellFormed R.timely
      refine ⟨deltaPhase_wellFormed R.wellFormed, W, fun n => (hdue n).trans ?_⟩
      rw [R.due]
      rfl
  | pass t _ => exact R

/-- **The kernel refines the schedule.** In every run that starts without notifications, and
whatever the processes do, a users' event has the pending notification of the schedule: the
earliest of those that were asked for since the event was last triggered or cancelled. -/
theorem schedule_run (h : Run now k as now' k') (R : k.Represents s) :
    k'.Represents (s.after now as) := by
  induction h generalizing s with
  | nil => exact R
  | @cons now now₁ _ k k₁ _ a as h hs ih =>
      have hnow : now₁ = a.clock now := by cases h <;> rfl
      rw [Schedule.after, ← hnow]
      exact ih (R.acts h)

end Runs

/-! ## The time loop -/

/-- The entry on top is one of the earliest. -/
def TakesEarliest (top : List EventTimed → ℕ) : Prop :=
  ∀ l : List EventTimed, l ≠ [] →
    ∃ et, l[top l]? = some et ∧ ∀ x ∈ l, et.notifyTime ≤ x.notifyTime

section TimeLoop
variable {k : SimContext} {s : Schedule} {now n t : ℕ} {et : EventTimed}
variable {top : List EventTimed → ℕ}

theorem topEvent_spec (htop : TakesEarliest top) (h : k.topEvent top = some et) :
    ∀ x ∈ k.notifications.timedEvents, et.notifyTime ≤ x.notifyTime := by
  intro x hx
  obtain ⟨et', hget, hle⟩ := htop _ (List.ne_nil_of_mem hx)
  obtain rfl := Option.some.inj (h.symm.trans hget)
  exact hle x hx

theorem topEvent_eq_none (htop : TakesEarliest top) (h : k.topEvent top = none) :
    k.notifications.timedEvents = [] := by
  by_contra hne
  obtain ⟨et, hget, -⟩ := htop _ hne
  exact absurd (h.symm.trans hget) (by simp)

/-- Cancelling changes no time of an entry. -/
theorem times_drops (ps : List Proc) (d : Notifications) :
    (d.drops ps).timedEvents.map EventTimed.notifyTime =
      d.timedEvents.map EventTimed.notifyTime := by
  have hcancel : ∀ (T : Event) (d : Notifications),
      (d.drop T).timedEvents.map EventTimed.notifyTime =
        d.timedEvents.map EventTimed.notifyTime := by
    intro T d
    cases h : d.notifyType T with
    | none => simp only [drop, clear, Notifications.cancel, h]
    | delta => simp only [drop, clear, Notifications.cancel, h, removeDeltaEvent_timedEvents]
    | timed =>
        simp only [drop, clear, Notifications.cancel, h, removeTimed, List.map_map]
        apply List.map_congr_left
        intro x _
        simp only [Function.comp_apply]
        split_ifs <;> rfl
  induction ps generalizing d with
  | nil => rfl
  | cons p ps ih => exact (ih _).trans (hcancel _ _)

theorem times_triggerTimed (et : EventTimed) (k : SimContext) :
    (k.triggerTimed et).notifications.timedEvents.map EventTimed.notifyTime =
      k.notifications.timedEvents.map EventTimed.notifyTime := by
  rw [triggerTimed]
  cases et.event with
  | none => rfl
  | some e =>
      obtain ⟨ps, k', V, htrigger⟩ := trigger_visit e k
      simp only [htrigger]
      exact times_drops ps _

/-- What a turn of the loop triggers. -/
theorem triggered_triggerTimed (et : EventTimed) (k : SimContext) :
    (k.triggerTimed et).triggered = k.triggered ++ et.event.toList := by
  rw [triggerTimed]
  cases et.event with
  | none => simp
  | some e => exact (trigger_logs e k).1

/-- The entries of the users' events say when they are due. -/
theorem Represents.due_eq_iff (R : k.Represents s) :
    s n = Due.time t ↔
      (⟨some (.user n), t⟩ : EventTimed) ∈ k.notifications.timedEvents := by
  rw [← R.due n]
  exact R.timely.due_eq_iff

theorem act_timed (x : Option Event) (n : ℕ) :
    s.act now (.timed x) n = if x = some (.user n) then ⊤ else s n := by
  cases x with
  | none => rfl
  | some e => simp only [Schedule.act, Schedule.set, Option.some.injEq]

/-- What a turn of the loop leaves. -/
theorem times_turn (h : k.topEvent top = some et) {k₁ : SimContext}
    (hk₁ : k₁ = (k.extractTop top).triggerTimed et) :
    k₁.notifications.timedEvents.length + 1 = k.notifications.timedEvents.length ∧
      ∀ x ∈ k₁.notifications.timedEvents, ∃ y ∈ k.notifications.timedEvents,
        x.notifyTime = y.notifyTime := by
  obtain ⟨hlt, -⟩ := List.getElem?_eq_some_iff.mp h
  have htimes := times_triggerTimed et (k.extractTop top)
  rw [← hk₁] at htimes
  constructor
  · have hlen := congrArg List.length htimes
    simp only [List.length_map] at hlen
    rw [hlen, extractTop, List.length_eraseIdx_of_lt hlt]
    omega
  · intro x hx
    have hmem : x.notifyTime ∈ k₁.notifications.timedEvents.map EventTimed.notifyTime :=
      List.mem_map_of_mem hx
    rw [htimes] at hmem
    obtain ⟨y, hy, hxy⟩ := List.mem_map.mp hmem
    exact ⟨y, List.mem_of_mem_eraseIdx hy, hxy.symm⟩

/-- What is due at a time after a turn of the loop was due then before it, and is not what the
turn triggered. -/
theorem due_turn {e : Event} (R : k.Represents s) (h : k.topEvent top = some et)
    (hdue : ((k.extractTop top).triggerTimed et).notifications.due e = Due.time t) :
    k.notifications.due e = Due.time t ∧ et.event ≠ some e := by
  have R' : ((k.extractTop top).triggerTimed et).Represents (s.act 0 (.timed et.event)) :=
    R.triggerTimed h
  rw [R'.timely.due_eq_iff, triggerTimed] at hdue
  cases hevent : et.event with
  | none =>
      rw [hevent] at hdue
      exact ⟨R.timely.due_eq_iff.mpr (List.mem_of_mem_eraseIdx hdue), by simp⟩
  | some x =>
      rw [hevent] at hdue
      have hbefore := mem_of_mem_trigger hdue (by simp)
      refine ⟨R.timely.due_eq_iff.mpr (List.mem_of_mem_eraseIdx hbefore), fun hx => ?_⟩
      -- the event that was triggered has no entry left
      obtain rfl := Option.some.inj hx
      have htype := notifyType_trigger_self x (k.extractTop top)
      have hdue := (R.extracted h hevent).2.2.timely.due_eq_iff.mpr hdue
      rw [due_of_nil (by simp [htype])
        ((R.extracted h hevent).2.2.timely.entries_eq_nil (by simp [htype]))] at hdue
      cases hdue

/-- A turn of the loop over the entries of the time `t` triggers `x`. -/
structure TimedTurn (k k₁ : SimContext) (s s₁ : Schedule) (x : Option Event) (t : ℕ) :
    Prop where
  represents : k₁.Represents s₁
  triggered : k₁.triggered = k.triggered ++ x.toList
  schedule : ∀ n, s₁ n = if x = some (.user n) then ⊤ else s n
  /-- What is triggered was due. -/
  was : ∀ e, x = some e → k.notifications.due e = Due.time t
  left : ∀ e, k₁.notifications.due e = Due.time t →
    k.notifications.due e = Due.time t ∧ x ≠ some e

theorem timedTurn (R : k.Represents s) (h : k.topEvent top = some et)
    (htime : et.notifyTime = t) : TimedTurn k ((k.extractTop top).triggerTimed et) s
      (s.act 0 (.timed et.event)) et.event t := by
  refine ⟨R.triggerTimed h, triggered_triggerTimed et _, fun n => act_timed et.event n,
    fun e he => ?_, fun e he => due_turn R h he⟩
  have het : et = ⟨some e, t⟩ := by rw [← he, ← htime]
  rw [R.timely.due_eq_iff, ← het]
  exact List.mem_of_getElem? h

/-- The events `ts`, which were due at the time `t`, are triggered, and no entry of this time
is left. -/
structure Rings (k : SimContext) (s : Schedule) (t : ℕ) (ts : List Event) (k' : SimContext) :
    Prop where
  triggered : k'.triggered = k.triggered ++ ts
  users : ∀ n, ts.count (.user n) = if s n = Due.time t then 1 else 0
  once : ∀ e, ts.count e ≤ if k.notifications.due e = Due.time t then 1 else 0
  represents : k'.Represents fun n => if s n = Due.time t then ⊤ else s n
  later : ∀ x ∈ k'.notifications.timedEvents, t < x.notifyTime

theorem Rings.nil (R : k.Represents s)
    (hlater : ∀ x ∈ k.notifications.timedEvents, t < x.notifyTime) : Rings k s t [] k := by
  have hnone : ∀ n, s n ≠ Due.time t := by
    intro n hn
    exact absurd (hlater _ (R.due_eq_iff.mp hn)) (lt_irrefl t)
  have hsame : s = fun n => if s n = Due.time t then ⊤ else s n := by
    funext n
    rw [if_neg (hnone n)]
  refine ⟨(List.append_nil _).symm, fun n => ?_, fun e => Nat.zero_le _, hsame ▸ R, hlater⟩
  rw [if_neg (hnone n), List.count_nil]

theorem TimedTurn.rings {k₁ k' : SimContext} {s₁ : Schedule} {x : Option Event}
    {ts : List Event} (R : k.Represents s) (T : TimedTurn k k₁ s s₁ x t)
    (H : Rings k₁ s₁ t ts k') : Rings k s t (x.toList ++ ts) k' := by
  have hdue : ∀ n, x = some (.user n) → s n = Due.time t := fun n hx =>
    (R.due n).symm.trans (T.was _ hx)
  have hcount : ∀ e, x.toList.count e = if x = some e then 1 else 0 := by
    intro e
    cases x with
    | none => rfl
    | some e' => simp [List.count_singleton]
  constructor
  · rw [H.triggered, T.triggered, List.append_assoc]
  · intro n
    rw [List.count_append, hcount, H.users, T.schedule]
    by_cases hx : x = some (.user n)
    · simp [hx, hdue n hx]
    · simp [hx]
  · intro e
    have hrest := H.once e
    rw [List.count_append, hcount]
    by_cases hx : x = some e
    · rw [if_neg fun hk => (T.left e hk).2 hx] at hrest
      rw [if_pos hx, if_pos (T.was e hx)]
      omega
    · rw [if_neg hx, Nat.zero_add]
      refine hrest.trans ?_
      split_ifs with hnew hold
      · exact le_rfl
      · exact absurd (T.left e hnew).1 hold
      · exact Nat.zero_le _
      · exact le_rfl
  · have hsame : (fun n => if s n = Due.time t then ⊤ else s n) =
        fun n => if s₁ n = Due.time t then ⊤ else s₁ n := by
      funext n
      rw [T.schedule]
      by_cases hx : x = some (.user n)
      · simp [hx, hdue n hx]
      · rw [if_neg hx]
    rw [hsame]
    exact H.represents
  · exact H.later

/-- The loop over the entries of the time `t`. -/
theorem notifyTimedLoop_spec (htop : TakesEarliest top) {m : ℕ} (R : k.Represents s)
    (hm : k.notifications.timedEvents.length ≤ m) (h : k.topEvent top = some et)
    (htime : et.notifyTime = t) : ∃ ts, Rings k s t ts (k.notifyTimedLoop top t m) := by
  induction m generalizing k s et with
  | zero =>
      obtain ⟨hlt, -⟩ := List.getElem?_eq_some_iff.mp h
      omega
  | succ m ih =>
      obtain ⟨k₁, hk₁⟩ : ∃ k₁, k₁ = (k.extractTop top).triggerTimed et := ⟨_, rfl⟩
      have T := timedTurn R h htime
      rw [← hk₁] at T
      obtain ⟨hlen, hold⟩ := times_turn h hk₁
      simp only [notifyTimedLoop, h, ← hk₁]
      split_ifs with hany
      · obtain ⟨et₁, h₁, htime₁⟩ : ∃ et₁, k₁.topEvent top = some et₁ ∧ et₁.notifyTime = t := by
          simpa [Option.any_eq_true] using hany
        obtain ⟨ts, H⟩ := ih T.represents (by omega) h₁ htime₁
        exact ⟨_, T.rings R H⟩
      · refine ⟨_, T.rings R (Rings.nil T.represents fun x hx => ?_)⟩
        -- the next entry is not of this time, and no entry is of an earlier one
        obtain ⟨et₁, hget, hle⟩ := htop _ (List.ne_nil_of_mem hx)
        have hne : et₁.notifyTime ≠ t := by
          intro heq
          exact hany (by rw [topEvent, hget]; simpa using heq)
        obtain ⟨y, hy, hxy⟩ := hold et₁ (List.mem_of_getElem? hget)
        have hge := topEvent_spec htop h y hy
        have hx := hle x hx
        omega

/-- The loop of `next_time` drops cancelled entries and stops at a live one. -/
theorem nextTimeLoop_spec (htop : TakesEarliest top) {m : ℕ} (R : k.Represents s)
    (hm : k.notifications.timedEvents.length ≤ m) :
    (k.nextTimeLoop top m).2.Represents s ∧
    (k.nextTimeLoop top m).2.triggered = k.triggered ∧
    (∀ e, (k.nextTimeLoop top m).2.notifications.due e = k.notifications.due e) ∧
    ((k.nextTimeLoop top m).1 = none ∧
        (k.nextTimeLoop top m).2.notifications.timedEvents = [] ∨
      ∃ et e, (k.nextTimeLoop top m).2.topEvent top = some et ∧ et.event = some e ∧
        (k.nextTimeLoop top m).1 = some et.notifyTime) := by
  induction m generalizing k with
  | zero =>
      have hnil := List.eq_nil_of_length_eq_zero (Nat.le_zero.mp hm)
      rw [nextTimeLoop]
      exact ⟨R, rfl, fun _ => rfl, .inl ⟨rfl, hnil⟩⟩
  | succ m ih =>
      cases h : k.topEvent top with
      | none =>
          have hnext : k.nextTimeLoop top (m + 1) = (none, k) := by simp only [nextTimeLoop, h]
          rw [hnext]
          exact ⟨R, rfl, fun _ => rfl, .inl ⟨rfl, topEvent_eq_none htop h⟩⟩
      | some et =>
          simp only [nextTimeLoop, h]
          split_ifs with hlive
          · obtain ⟨e, he⟩ := Option.isSome_iff_exists.mp hlive
            exact ⟨R, rfl, fun _ => rfl, .inr ⟨et, e, h, he, rfl⟩⟩
          · have hnone : et.event = none := by simpa using hlive
            have hk₁ : k.extractTop top = (k.extractTop top).triggerTimed et := by
              rw [triggerTimed, hnone]
            have hlen := (times_turn h hk₁).1
            obtain ⟨R', htriggered, hdue, hnext⟩ := ih (R.extractTop h hnone) (by omega)
            exact ⟨R', htriggered, fun e => (hdue e).trans (due_extractTop h hnone e), hnext⟩

/-- **The time loop.** There is a next time when some event is due at a time, a timeout among
them, and then it is the earliest of these times. The loop triggers the users' events that are
due then, each once. A timeout is triggered at most once, and only when it is due then: it is
dropped when its process is triggered before it. -/
theorem timeLoop_triggers (htop : TakesEarliest top) (R : k.Represents s) :
    ((k.nextTime top).1 = none ↔ ∀ e t, k.notifications.due e ≠ Due.time t) ∧
    ∀ t, (k.nextTime top).1 = some t →
      (∃ e, k.notifications.due e = Due.time t) ∧
      (∀ e u, k.notifications.due e = Due.time u → t ≤ u) ∧
      ∃ ts, ((k.nextTime top).2.notifyTimed top t).triggered = k.triggered ++ ts ∧
        (∀ n, ts.count (.user n) = if s n = Due.time t then 1 else 0) ∧
        (∀ e, ts.count e ≤ if k.notifications.due e = Due.time t then 1 else 0) ∧
        ((k.nextTime top).2.notifyTimed top t).Represents
          (fun n => if s n = Due.time t then ⊤ else s n) := by
  obtain ⟨R', htriggered, hsame, hnext⟩ := nextTimeLoop_spec htop R le_rfl
  change (k.nextTime top).2.Represents s at R'
  change (k.nextTime top).2.triggered = k.triggered at htriggered
  change ∀ e, (k.nextTime top).2.notifications.due e = k.notifications.due e at hsame
  have hentry : ∀ e t, k.notifications.due e = Due.time t ↔
      (⟨some e, t⟩ : EventTimed) ∈ (k.nextTime top).2.notifications.timedEvents := by
    intro e t
    rw [← hsame]
    exact R'.timely.due_eq_iff
  rcases hnext with ⟨hnone, hnil⟩ | ⟨et, e, htopEvent, he, hsome⟩
  · change (k.nextTime top).1 = none at hnone
    change (k.nextTime top).2.notifications.timedEvents = [] at hnil
    refine ⟨iff_of_true hnone fun e t hdue => ?_, fun t ht => ?_⟩
    · rw [hentry, hnil] at hdue
      cases hdue
    · exact absurd (ht.symm.trans hnone) (by simp)
  · change (k.nextTime top).1 = some et.notifyTime at hsome
    have hdue : k.notifications.due e = Due.time et.notifyTime := by
      rw [hentry, ← he]
      exact List.mem_of_getElem? htopEvent
    refine ⟨iff_of_false (by simp [hsome]) fun hnot => hnot e _ hdue, fun t ht => ?_⟩
    obtain rfl : et.notifyTime = t := Option.some.inj (hsome.symm.trans ht)
    refine ⟨⟨e, hdue⟩, fun e' u hu => topEvent_spec htop htopEvent _ ((hentry e' u).mp hu), ?_⟩
    obtain ⟨ts, hts, hcount, hbound, R'', -⟩ :=
      notifyTimedLoop_spec htop R' le_rfl htopEvent rfl
    refine ⟨ts, hts.trans (by rw [htriggered]), hcount, fun e' => ?_, R''⟩
    rw [← hsame]
    exact hbound e'

end TimeLoop

/-! ### From a start without notifications -/

theorem represents_idle {k : SimContext}
    (h : k.notifications = ⟨[], 0, [], fun _ => .none, fun _ => none, []⟩) :
    k.Represents fun _ => ⊤ := by
  refine ⟨?_, fun e => .inr ?_, fun n => ?_⟩
  · rw [h]
    exact ⟨⟨le_rfl, by simp⟩, by simp⟩
  · rw [h]
    exact ⟨by simp, rfl⟩
  · rw [h]
    exact due_of_nil (by simp) rfl

/-- The first of the earliest entries. -/
def firstEarliest (l : List EventTimed) : ℕ :=
  l.findIdx fun x => l.all fun y => decide (x.notifyTime ≤ y.notifyTime)

theorem firstEarliest_takesEarliest : TakesEarliest firstEarliest := by
  intro l hl
  obtain ⟨x, hx, hmin⟩ := (measure EventTimed.notifyTime).wf.has_min {x | x ∈ l}
    (List.exists_mem_of_ne_nil l hl)
  have hlt : firstEarliest l < l.length := by
    apply List.findIdx_lt_length_of_exists
    refine ⟨x, hx, List.all_eq_true.mpr fun y hy => decide_eq_true ?_⟩
    exact Nat.le_of_not_lt (hmin y hy)
  refine ⟨l[firstEarliest l], List.getElem?_eq_getElem hlt, fun y hy => ?_⟩
  have hfirst := List.findIdx_getElem (w := hlt)
  exact of_decide_eq_true (List.all_eq_true.mp hfirst y hy)

/-- Two notifications of one event, and a notification after the phase that triggers the
other. -/
theorem schedule_run_twice : ∃ k', Run 0 (Simulator.oneMethodMachine []).context
    [.notify 5 (.user 0), .notify 3 (.user 0), .notify 0 (.user 1), .notify 2 (.user 1),
      .deltaPhase, .notify 9 (.user 1)] 0 k' ∧
    k'.notifications.due (.user 0) = Due.time 3 ∧
    k'.notifications.due (.user 1) = Due.time 9 := by
  refine ⟨_, .cons (.notify 5 (.user 0))
    (.cons (.notify 3 (.user 0)) (.cons (.notify 0 (.user 1))
    (.cons (.notify 2 (.user 1)) (.cons .deltaPhase
      (.cons (.notify 9 (.user 1)) (.nil 0 _)))))),
    ?_⟩
  have R := schedule_run (.cons (.notify 5 (.user 0)) (.cons (.notify 3 (.user 0))
    (.cons (.notify 0 (.user 1)) (.cons (.notify 2 (.user 1)) (.cons .deltaPhase
      (.cons (.notify 9 (.user 1)) (.nil 0 _)))))))
    (represents_idle (k := (Simulator.oneMethodMachine []).context) rfl)
  exact ⟨(R.due 0).trans rfl, (R.due 1).trans rfl⟩

/-- Two events are due at 4, and one later. -/
def threeTimed : SimContext :=
  let k := (Simulator.oneMethodMachine []).context
  let d := (k.notifications.notify 0 4 (.user 0)).notify 0 7 (.user 1)
  { k with notifications := d.notify 0 4 (.user 2) }

theorem threeTimed_represents : threeTimed.Represents
    (((Schedule.act 0 (.notify 4 (.user 0)) fun _ => ⊤).act 0 (.notify 7 (.user 1))).act
      0 (.notify 4 (.user 2))) := by
  have R := represents_idle (k := (Simulator.oneMethodMachine []).context) rfl
  exact ((R.acts (.notify 4 (.user 0))).acts (.notify 7 (.user 1))).acts (.notify 4 (.user 2))

theorem timeLoop_triggers_three : ∃ ts,
    ((threeTimed.nextTime firstEarliest).2.notifyTimed firstEarliest 4).triggered = ts ∧
      ts.count (.user 0) = 1 ∧ ts.count (.user 1) = 0 ∧ ts.count (.user 2) = 1 := by
  obtain ⟨-, hnext⟩ := timeLoop_triggers firstEarliest_takesEarliest threeTimed_represents
  obtain ⟨-, -, ts, htriggered, hcount, -⟩ := hnext 4 rfl
  exact ⟨ts, htriggered, (hcount 0).trans (if_pos rfl), (hcount 1).trans (if_neg (by decide)),
    (hcount 2).trans (if_pos rfl)⟩

end SimContext

end Pscv.Kernel
