import Pscv.Kernel.Event

/-!
# Cancelling delta notifications while they are triggered

`remove_delta_event` puts the last event of `m_delta_events` in the place of the
cancelled one. Between phases that keeps every slot up to the size pending. Inside the
notification phase the last event may have been triggered already, and then a slot that
is still to be visited holds it again.

## Main results

* `Notifications.WellFormed` and its preservation by `notify` and `cancel`.
* `Notifications.Below.drop` — what holds inside the phase too.
* `Notifications.drops_calm_or` — no timeout is cancelled, or the last event comes back.
-/

namespace Pscv.Kernel.Notifications

variable {d d₁ d₂ : Notifications} {e x T L : Event} {n m i j pos : ℕ} {ps : List Proc}

/-- `e` is pending in the delta notifications, with index `i`. -/
def Pending (d : Notifications) (i : ℕ) (e : Event) : Prop :=
  d.notifyType e = .delta ∧ d.deltaIndex e = some i

/-- Every event with a delta notification is found at its index, which is below `n`. -/
structure Below (n : ℕ) (d : Notifications) : Prop where
  size : d.deltaSize ≤ d.deltaEvents.length
  index : ∀ e, d.notifyType e = .delta →
    ∃ i < n, i < d.deltaSize ∧ d.deltaIndex e = some i ∧ d.deltaEvents[i]? = some e

/-- Outside the phase every slot up to the size is pending, and only those. -/
structure WellFormed (d : Notifications) : Prop where
  below : d.Below d.deltaSize
  pending : ∀ i < d.deltaSize, ∃ e, d.deltaEvents[i]? = some e ∧ d.Pending i e

/-- `cancel` and `reset` of one event. -/
def drop (T : Event) (d : Notifications) : Notifications := (d.cancel T).clear T

/-- The timeouts of the given processes are dropped. -/
def drops (ps : List Proc) (d : Notifications) : Notifications :=
  ps.foldl (fun d p => d.drop (.timeout p)) d

/-- From `d` to `d₁` no delta notification is added, moved or removed. -/
structure Calm (d d₁ : Notifications) : Prop where
  deltaEvents : d₁.deltaEvents = d.deltaEvents
  deltaSize : d₁.deltaSize = d.deltaSize
  cancelled : d₁.cancelled = d.cancelled
  pending : ∀ i e, d₁.Pending i e ↔ d.Pending i e
  delta : ∀ e, d₁.notifyType e = .delta ↔ d.notifyType e = .delta

theorem Calm.refl (d : Notifications) : Calm d d :=
  ⟨rfl, rfl, rfl, fun _ _ => Iff.rfl, fun _ => Iff.rfl⟩

theorem Calm.trans (C : Calm d d₁) (C' : Calm d₁ d₂) : Calm d d₂ where
  deltaEvents := C'.deltaEvents.trans C.deltaEvents
  deltaSize := C'.deltaSize.trans C.deltaSize
  cancelled := C'.cancelled.trans C.cancelled
  pending i e := (C'.pending i e).trans (C.pending i e)
  delta e := (C'.delta e).trans (C.delta e)

theorem Calm.symm (C : Calm d d₁) : Calm d₁ d where
  deltaEvents := C.deltaEvents.symm
  deltaSize := C.deltaSize.symm
  cancelled := C.cancelled.symm
  pending i e := (C.pending i e).symm
  delta e := (C.delta e).symm

theorem Calm.below (C : Calm d d₁) (B : Below n d) : Below n d₁ where
  size := by
    rw [C.deltaSize, C.deltaEvents]
    exact B.size
  index e he := by
    obtain ⟨i, hin, hi, hidx, hslot⟩ := B.index e ((C.delta e).mp he)
    have hpend := (C.pending i e).mpr ⟨(C.delta e).mp he, hidx⟩
    refine ⟨i, hin, ?_, hpend.2, ?_⟩
    · rwa [C.deltaSize]
    · rwa [C.deltaEvents]

/-- Clearing an event that is not pending changes no delta notification. -/
theorem calm_clear (h : d.notifyType e ≠ .delta) : Calm d (d.clear e) where
  deltaEvents := rfl
  deltaSize := rfl
  cancelled := rfl
  pending i e' := by
    by_cases he : e' = e
    · subst he
      simp [Pending, clear, h]
    · simp [Pending, clear, he]
  delta e' := by
    by_cases he : e' = e
    · subst he
      simp [clear, h]
    · simp [clear, he]

/-- Dropping an event that is not pending changes no delta notification. -/
theorem calm_drop (h : d.notifyType T ≠ .delta) : Calm d (d.drop T) := by
  cases hT : d.notifyType T with
  | delta => exact absurd hT h
  | none =>
      have hcancel : d.cancel T = d := by simp [cancel, hT]
      rw [drop, hcancel]
      exact calm_clear h
  | timed =>
      have hcancel : d.drop T = (d.removeTimed T).clear T := by
        simp [drop, cancel, hT, clear, removeTimed]
      rw [hcancel]
      have C : Calm d (d.removeTimed T) :=
        ⟨rfl, rfl, rfl, fun _ _ => Iff.rfl, fun _ => Iff.rfl⟩
      exact C.trans (calm_clear h)

/-- What dropping a pending event does: the last event takes its place. -/
theorem drop_pending (hT : d.Pending i T) (hslot : d.deltaEvents[i]? = some T)
    (hlast : d.deltaEvents[d.deltaSize - 1]? = some L) :
    d.drop T = { d with
      deltaEvents := d.deltaEvents.set i L
      deltaSize := d.deltaSize - 1
      notifyType := Function.update d.notifyType T .none
      deltaIndex := Function.update (Function.update d.deltaIndex L (some i)) T none
      cancelled := d.cancelled ++ [T] } := by
  by_cases hend : i = d.deltaSize - 1
  · -- the last event itself: the vector only gets shorter
    have hLT : L = T := by
      rw [hend, hlast] at hslot
      exact Option.some.inj hslot
    have hset : d.deltaEvents.set i L = d.deltaEvents := by
      obtain ⟨hlt, hget⟩ := List.getElem?_eq_some_iff.mp hslot
      rw [hLT, ← hget]
      exact List.set_getElem_self hlt
    rw [hset, hLT]
    simp [drop, cancel, hT.1, removeDeltaEvent, hT.2, hlast, hend, clear]
  · simp [drop, cancel, hT.1, removeDeltaEvent, hT.2, hlast, hend, clear]

/-- The last event, which takes the place of a dropped one. -/
theorem Below.last (B : Below n d) (hi : i < d.deltaSize) :
    ∃ L, d.deltaEvents[d.deltaSize - 1]? = some L := by
  have hsize := B.size
  exact ⟨_, List.getElem?_eq_getElem (by omega)⟩

theorem Below.drop (B : Below n d) : Below n (d.drop T) := by
  by_cases hT : d.notifyType T = .delta
  · obtain ⟨i, hin, hi, hidx, hslot⟩ := B.index T hT
    obtain ⟨L, hlast⟩ := B.last hi
    rw [drop_pending ⟨hT, hidx⟩ hslot hlast]
    constructor
    · have hsize := B.size
      simp only [List.length_set]
      omega
    · intro e he
      have hne : e ≠ T := by
        intro heT
        subst heT
        simp at he
      simp only [Function.update_of_ne hne] at he
      obtain ⟨j, hjn, hj, hjdx, hjslot⟩ := B.index e he
      by_cases heL : e = L
      · -- the last event is found where `T` was
        subst heL
        have hi' : i ≠ d.deltaSize - 1 := by
          intro h
          rw [← h, hslot] at hlast
          exact hne (Option.some.inj hlast).symm
        have hlt : i < d.deltaEvents.length := (List.getElem?_eq_some_iff.mp hslot).1
        refine ⟨i, hin, by simp only; omega, by simp [hne], ?_⟩
        simp [hlt]
      · have hj' : j ≠ d.deltaSize - 1 := by
          intro h
          rw [← h, hjslot] at hlast
          exact heL (Option.some.inj hlast)
        have hij : i ≠ j := by
          intro h
          rw [← h, hslot] at hjslot
          exact hne (Option.some.inj hjslot).symm
        refine ⟨j, hjn, by simp only; omega, by simp [hne, heL, hjdx], ?_⟩
        rwa [List.getElem?_set_ne hij]
  · exact (calm_drop hT).below B

theorem Below.drops (B : Below n d) : Below n (d.drops ps) := by
  induction ps generalizing d with
  | nil => exact B
  | cons p ps ih => exact ih B.drop

/-- Dropping timeouts makes no event pending. -/
theorem drop_delta (h : (d.drop T).notifyType e = .delta) :
    d.notifyType e = .delta ∧ e ≠ T := by
  by_cases he : e = T
  · subst he
    simp [drop, clear] at h
  · refine ⟨?_, he⟩
    cases hT : d.notifyType T with
    | none => simpa [drop, cancel, hT, clear, he] using h
    | timed => simpa [drop, cancel, hT, clear, he] using h
    | delta => simpa [drop, cancel, hT, clear, he] using h

theorem drops_delta (h : (d.drops ps).notifyType e = .delta) : d.notifyType e = .delta := by
  induction ps generalizing d with
  | nil => exact h
  | cons p ps ih => exact (drop_delta (ih h)).1

/-- Slot `pos` holds `L`, which is not pending unless it is the event being triggered. -/
structure Spent (x : Event) (pos : ℕ) (L : Event) (d : Notifications) : Prop where
  slot : d.deltaEvents[pos]? = some L
  only : d.notifyType L = .delta → L = x

/-- A spent slot survives the drop of another event, and its event is not cancelled. -/
theorem Spent.drop (S : Spent x pos L d) (B : Below n d) (hT : T ≠ x) :
    Spent x pos L (d.drop T) ∧ (d.drop T).cancelled.count L = d.cancelled.count L := by
  by_cases hd : d.notifyType T = .delta
  · obtain ⟨i, _, hi, hidx, hslot⟩ := B.index T hd
    obtain ⟨last, hlast⟩ := B.last hi
    have hTL : T ≠ L := by
      intro h
      subst h
      exact hT (S.only hd)
    have hpos : i ≠ pos := by
      intro h
      rw [h, S.slot] at hslot
      exact hTL (Option.some.inj hslot).symm
    refine ⟨⟨?_, fun h => S.only (drop_delta h).1⟩, ?_⟩
    · rw [drop_pending ⟨hd, hidx⟩ hslot hlast]
      simpa [List.getElem?_set_ne hpos] using S.slot
    · rw [drop_pending ⟨hd, hidx⟩ hslot hlast]
      simp [hTL]
  · have C := calm_drop hd
    refine ⟨⟨?_, fun h => S.only (drop_delta h).1⟩, by rw [C.cancelled]⟩
    rw [C.deltaEvents]
    exact S.slot

theorem Spent.drops (S : Spent x pos L d) (B : Below n d)
    (hps : ∀ p ∈ ps, Event.timeout p ≠ x) :
    Spent x pos L (d.drops ps) ∧ (d.drops ps).cancelled.count L = d.cancelled.count L := by
  induction ps generalizing d with
  | nil => exact ⟨S, rfl⟩
  | cons p ps ih =>
      obtain ⟨S', hcount⟩ := S.drop B (hps p (by simp))
      obtain ⟨S'', hcount'⟩ := ih S' B.drop (fun q hq => hps q (by simp [hq]))
      exact ⟨S'', hcount'.trans hcount⟩

/-- While `x` is triggered, dropping timeouts changes no delta notification, or the last
event comes back in a slot of a dropped one. -/
theorem drops_calm_or (B : Below n d) (hps : ∀ p ∈ ps, Event.timeout p ≠ x)
    (hlast : d.deltaEvents[d.deltaSize - 1]? = some L)
    (honly : d.notifyType L = .delta → L = x) :
    (Calm d (d.drops ps) ∧ ∀ p ∈ ps, d.notifyType (.timeout p) ≠ .delta) ∨
      ∃ pos p, p ∈ ps ∧ d.Pending pos (.timeout p) ∧ Spent x pos L (d.drops ps) ∧
        (d.drops ps).cancelled.count L = d.cancelled.count L := by
  induction ps generalizing d with
  | nil => exact Or.inl ⟨Calm.refl d, by simp⟩
  | cons p ps ih =>
      have hp : Event.timeout p ≠ x := hps p (by simp)
      have hps' : ∀ q ∈ ps, Event.timeout q ≠ x := fun q hq => hps q (by simp [hq])
      by_cases hd : d.notifyType (.timeout p) = .delta
      · right
        obtain ⟨pos, _, hi, hidx, hslot⟩ := B.index _ hd
        have hpL : Event.timeout p ≠ L := by
          intro h
          rw [← h] at honly
          exact hp (honly hd)
        have S : Spent x pos L (d.drop (.timeout p)) := by
          refine ⟨?_, fun h => honly (drop_delta h).1⟩
          have hlt : pos < d.deltaEvents.length := (List.getElem?_eq_some_iff.mp hslot).1
          rw [drop_pending ⟨hd, hidx⟩ hslot hlast]
          simp [hlt]
        have hcount : (d.drop (.timeout p)).cancelled.count L = d.cancelled.count L := by
          rw [drop_pending ⟨hd, hidx⟩ hslot hlast]
          simp [hpL]
        obtain ⟨S', hcount'⟩ := S.drops B.drop hps'
        exact ⟨pos, p, by simp, ⟨hd, hidx⟩, S', hcount'.trans hcount⟩
      · have C := calm_drop hd
        have hlast' : (d.drop (.timeout p)).deltaEvents[(d.drop (.timeout p)).deltaSize - 1]? =
            some L := by
          rw [C.deltaEvents, C.deltaSize]
          exact hlast
        obtain ⟨C', hnone⟩ | ⟨pos, q, hq, hpend, S, hcount⟩ :=
          ih B.drop hps' hlast' (fun h => honly (drop_delta h).1)
        · left
          refine ⟨C.trans C', ?_⟩
          intro q hq
          rcases List.mem_cons.mp hq with hqp | hq
          · rwa [hqp]
          · intro h
            exact hnone q hq ((C.delta _).mpr h)
        · right
          refine ⟨pos, q, by simp [hq], (C.pending _ _).mp hpend, S, ?_⟩
          rw [← C.cancelled]
          exact hcount

/-- The trigger of the event in slot `i` leaves only the slots below pending. -/
theorem Below.clear_drops (B : Below (i + 1) d) (hslot : d.deltaEvents[i]? = some x)
    (hps : ∀ p ∈ ps, Event.timeout p ≠ x) : Below i ((d.drops ps).clear x) := by
  have B' : Below (i + 1) (d.drops ps) := B.drops
  obtain ⟨hslot', _⟩ := (Spent.mk hslot (fun _ => rfl)).drops B hps
  refine ⟨B'.size, ?_⟩
  intro e he
  have hne : e ≠ x := by
    intro h
    subst h
    simp [clear] at he
  have he' : (d.drops ps).notifyType e = .delta := by simpa [clear, hne] using he
  obtain ⟨j, hj, hsize, hidx, hjslot⟩ := B'.index e he'
  have hji : j ≠ i := by
    intro h
    rw [h, hslot'.slot] at hjslot
    exact hne (Option.some.inj hjslot).symm
  exact ⟨j, by omega, hsize, by simpa [clear, hne] using hidx, hjslot⟩

/-- Pending events have one slot each. -/
theorem Pending.index_unique (h : d.Pending i e) (h' : d.Pending j e) : i = j :=
  Option.some.inj (h.2.symm.trans h'.2)

theorem Below.toSize (B : Below n d) : Below d.deltaSize d where
  size := B.size
  index e he := by
    obtain ⟨i, _, hi, hrest⟩ := B.index e he
    exact ⟨i, hi, hi, hrest⟩

theorem Calm.wellFormed (C : Calm d d₁) (W : WellFormed d) : WellFormed d₁ where
  below := by
    rw [C.deltaSize]
    exact C.below W.below
  pending i hi := by
    rw [C.deltaSize] at hi
    obtain ⟨e, hslot, hpend⟩ := W.pending i hi
    exact ⟨e, by rwa [C.deltaEvents], (C.pending i e).mpr hpend⟩

theorem WellFormed.drop (W : WellFormed d) (T : Event) : WellFormed (d.drop T) := by
  by_cases hT : d.notifyType T = .delta
  · refine ⟨W.below.drop.toSize, ?_⟩
    obtain ⟨i, _, hi, hidx, hslot⟩ := W.below.index T hT
    obtain ⟨L, hlast, hL⟩ := W.pending (d.deltaSize - 1) (by omega)
    rw [drop_pending ⟨hT, hidx⟩ hslot hlast]
    intro j hj
    simp only at hj
    obtain ⟨e, hjslot, he⟩ := W.pending j (by omega)
    by_cases hji : j = i
    · -- the last event has come to slot `i`
      subst hji
      have hLT : L ≠ T := by
        intro h
        subst h
        have h := Option.some.inj (hL.2.symm.trans hidx)
        omega
      have hlt : j < d.deltaEvents.length := (List.getElem?_eq_some_iff.mp hslot).1
      refine ⟨L, by simp [hlt], ?_⟩
      simp [Pending, hLT, hL.1]
    · have heT : e ≠ T := by
        intro h
        subst h
        exact hji (Option.some.inj (he.2.symm.trans hidx))
      have heL : e ≠ L := by
        intro h
        subst h
        have h := he.index_unique hL
        omega
      refine ⟨e, by rwa [List.getElem?_set_ne (Ne.symm hji)], ?_⟩
      simpa [Pending, heT, heL] using he
  · exact (calm_drop hT).wellFormed W

theorem WellFormed.drops (W : WellFormed d) (ps : List Proc) : WellFormed (d.drops ps) := by
  induction ps generalizing d with
  | nil => exact W
  | cons p ps ih => exact ih (W.drop _)

theorem cancel_notifyType : (d.cancel e).notifyType e ≠ .delta := by
  cases he : d.notifyType e with
  | none => simp [cancel, he]
  | timed => simp [cancel, he]
  | delta => simp [cancel, he]

theorem WellFormed.cancel (W : WellFormed d) (e : Event) : WellFormed (d.cancel e) :=
  (calm_clear cancel_notifyType).symm.wellFormed (W.drop e)

theorem WellFormed.addDeltaEvent (W : WellFormed d) (he : d.notifyType e ≠ .delta) :
    WellFormed (d.addDeltaEvent e) := by
  have hlen : (d.deltaEvents.take d.deltaSize).length = d.deltaSize := by
    rw [List.length_take]
    exact Nat.min_eq_left W.below.size
  have hold : ∀ i < d.deltaSize,
      (d.deltaEvents.take d.deltaSize ++ [e])[i]? = d.deltaEvents[i]? := by
    intro i hi
    rw [List.getElem?_append_left (by omega), List.getElem?_take_of_lt hi]
  refine ⟨⟨?_, ?_⟩, ?_⟩
  · simp [Notifications.addDeltaEvent, hlen]
  · intro e' he'
    by_cases hee : e' = e
    · refine ⟨d.deltaSize, by simp [Notifications.addDeltaEvent],
        by simp [Notifications.addDeltaEvent], by simp [Notifications.addDeltaEvent, hee], ?_⟩
      have hend := List.getElem?_concat_length (l := d.deltaEvents.take d.deltaSize) (a := e)
      rw [hlen] at hend
      rw [hee]
      exact hend
    · have hd : d.notifyType e' = .delta := by
        simpa [Notifications.addDeltaEvent, hee] using he'
      obtain ⟨i, _, hi, hidx, hslot⟩ := W.below.index e' hd
      refine ⟨i, ?_, ?_, by simpa [Notifications.addDeltaEvent, hee] using hidx,
        (hold i hi).trans hslot⟩
      · exact Nat.lt_succ_of_lt hi
      · exact Nat.lt_succ_of_lt hi
  · intro i hi
    by_cases hend : i = d.deltaSize
    · refine ⟨e, ?_, by simp [Pending, Notifications.addDeltaEvent, hend]⟩
      have hend' := List.getElem?_concat_length (l := d.deltaEvents.take d.deltaSize) (a := e)
      rw [hlen] at hend'
      rw [hend]
      exact hend'
    · have hi' : i < d.deltaSize := by
        have hi : i < d.deltaSize + 1 := hi
        omega
      obtain ⟨e', hslot, hpend⟩ := W.pending i hi'
      have hee : e' ≠ e := by
        intro h
        exact he (h ▸ hpend.1)
      refine ⟨e', (hold i hi').trans hslot, ?_⟩
      simpa [Pending, Notifications.addDeltaEvent, hee] using hpend

/-- An event that is not pending as a delta notification may get a timed one. -/
theorem calm_timed (he : d.notifyType e ≠ .delta) (ts : List EventTimed) :
    Calm d { d with
      timedEvents := ts, notifyType := Function.update d.notifyType e .timed } where
  deltaEvents := rfl
  deltaSize := rfl
  cancelled := rfl
  pending i e' := by
    by_cases hee : e' = e
    · simp [Pending, hee, he]
    · simp [Pending, hee]
  delta e' := by
    by_cases hee : e' = e
    · simp [hee, he]
    · simp [hee]

theorem calm_removeTimed : Calm d (d.removeTimed e) :=
  ⟨rfl, rfl, rfl, fun _ _ => Iff.rfl, fun _ => Iff.rfl⟩

theorem WellFormed.notify (W : WellFormed d) (now t : ℕ) (e : Event) :
    WellFormed (d.notify now t e) := by
  by_cases hd : d.notifyType e = .delta
  · simpa [Notifications.notify, hd] using W
  -- the earlier timed notification is removed first, if there is one
  obtain ⟨d₁, hd₁⟩ : ∃ d₁, d₁ = if d.notifyType e = .timed then d.removeTimed e else d :=
    ⟨_, rfl⟩
  have hC : Calm d d₁ ∧ d₁.notifyType = d.notifyType := by
    rw [hd₁]
    split_ifs
    · exact ⟨calm_removeTimed, rfl⟩
    · exact ⟨Calm.refl d, rfl⟩
  obtain ⟨C, htype⟩ := hC
  have hne : d₁.notifyType e ≠ .delta := by rwa [htype]
  simp only [Notifications.notify, ← hd₁, if_neg hd]
  by_cases ht : t = 0
  · rw [if_pos ht]
    exact (C.wellFormed W).addDeltaEvent hne
  · rw [if_neg ht]
    split_ifs
    · exact W
    · rw [← htype]
      exact (calm_timed hne _).wellFormed (C.wellFormed W)

/-- After the notification phase the vector is empty. -/
theorem Below.wellFormed_reset (B : Below 0 d) : WellFormed { d with deltaSize := 0 } where
  below :=
    { size := Nat.zero_le _
      index := by
        intro e he
        obtain ⟨i, hi, _⟩ := B.index e he
        omega }
  pending i hi := absurd hi (Nat.not_lt_zero i)

end Pscv.Kernel.Notifications
