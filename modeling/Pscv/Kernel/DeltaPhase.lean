import Pscv.Kernel.Observer
import Pscv.Kernel.Trigger

/-!
# The notification phase of `crunch`

The loop triggers the events of `m_delta_events` from the last to the first. A trigger
can end the wait of a process before its timeout, and then cancels the timeout event. If
that event is pending in a slot that is still to be visited, the last event of the vector,
which has been triggered already, is put there and triggered again. `Doomed` says from the
state at the start when that happens.

## Main results

* `SimContext.Visit` and `SimContext.trigger_visit` — what one trigger does.
* `SimContext.visit_step` — one iteration of the loop.
* `SimContext.delta_exactly_once_iff` — every event is triggered exactly once if and only
  if no timeout is doomed.
-/

namespace Pscv.Kernel

open Pscv.Lib

namespace Notifications

theorem drops_concat (ps : List Proc) (p : Proc) (d : Notifications) :
    d.drops (ps ++ [p]) = (d.drops ps).drop (.timeout p) := by
  simp [drops]

end Notifications

namespace SimContext

variable {k k₀ k' : SimContext} {p q : Proc} {e x L : Event} {ps : List Proc}
  {R R₀ S : Multiset Proc} {i pos : ℕ}

/-! ### One trigger -/

/-- The dynamic calls that a trigger of `x` makes. -/
def sensitive (k : SimContext) (x : Event) : Multiset Proc :=
  (k.dynamics .method x : Multiset Handle).map (Kind.method, ·) +
    (k.dynamics .thread x : Multiset Handle).map (Kind.thread, ·)

theorem count_map_pair (l : Multiset Handle) (d : Kind) (q : Proc) :
    (l.map (d, ·)).count q = if q.1 = d then l.count q.2 else 0 := by
  obtain ⟨d', h⟩ := q
  by_cases hd : d' = d
  · subst hd
    rw [if_pos rfl]
    exact Multiset.count_map_eq_count' _ _ (Prod.mk_right_injective d') h
  · rw [if_neg hd]
    apply Multiset.count_eq_zero_of_notMem
    intro h'
    obtain ⟨_, _, heq⟩ := Multiset.mem_map.mp h'
    exact hd (Prod.mk.inj heq).1.symm

theorem count_sensitive (k : SimContext) (x : Event) (q : Proc) :
    (k.sensitive x).count q = (k.dynamics q.1 x).count q.2 := by
  rw [sensitive, Multiset.count_add, count_map_pair, count_map_pair]
  obtain ⟨d, h⟩ := q
  cases d <;> simp

/-- The trigger of `x` has come from `k₀` to `k`: of the calls `R₀` it still has to make
`R`, and it dropped the timeouts of `ps`. -/
structure Visit (x : Event) (k₀ : SimContext) (R₀ : Multiset Proc) (ps : List Proc)
    (R : Multiset Proc) (k : SimContext) : Prop where
  timeouts : ∀ p ∈ ps, .timeout p ≠ x
  notifications : k.notifications = k₀.notifications.drops ps
  observed : k.observed = k₀.observed
  triggered : k.triggered = k₀.triggered
  notified : k.notified = (k₀.notifyObserver x).notified
  dropped : ∀ q ∈ ps, k₀.Armed q ∧ 1 ≤ k₀.budget q ∧
    k₀.budget q + R.count q ≤ R₀.count q ∧ ¬ k.Armed q
  armed : ∀ q, .timeout q ≠ x → k.Armed q → k₀.Armed q ∧
    k.budget q + R₀.count q = k₀.budget q + R.count q ∧ (1 ≤ k₀.budget q ↔ 1 ≤ k.budget q) ∧
    ∀ e, e ≠ x → (∀ p ∈ ps, e ≠ .timeout p) →
      (k.dynamics q.1 e).count q.2 = (k₀.dynamics q.1 e).count q.2
  disarmed : ∀ q, .timeout q ≠ x → k₀.Armed q → ¬ k.Armed q → q ∈ ps

theorem notifyObserver_armed : (k.notifyObserver x).Armed q ↔ k.Armed q := by
  unfold notifyObserver
  split_ifs
  · exact ⟨fun ⟨a, b, c, d⟩ => ⟨a, b, c, d⟩, fun ⟨a, b, c, d⟩ => ⟨a, b, c, d⟩⟩
  · exact Iff.rfl

theorem visit_start : Visit x k R₀ [] R₀ (k.notifyObserver x) where
  timeouts := by simp
  notifications := by
    unfold notifyObserver
    split_ifs <;> rfl
  observed := by
    unfold notifyObserver
    split_ifs <;> rfl
  triggered := by
    unfold notifyObserver
    split_ifs <;> rfl
  notified := rfl
  dropped := by simp
  armed q _ A := by
    refine ⟨notifyObserver_armed.mp A, ?_⟩
    unfold notifyObserver
    split_ifs <;> simp [budget]
  disarmed q _ A hA := absurd (notifyObserver_armed.mpr A) hA

/-- A step that leaves the waits of the armed processes alone. -/
theorem Visit.neutral (V : Visit x k₀ R₀ ps R k) (hn : k'.notifications = k.notifications)
    (ho : k'.observed = k.observed) (ht : k'.triggered = k.triggered)
    (hl : k'.notified = k.notified) (hA : ∀ q, k'.Armed q ↔ k.Armed q)
    (hb : ∀ q, k.Armed q → k'.budget q = k.budget q)
    (hd : ∀ d e, e ≠ x → k'.dynamics d e = k.dynamics d e) : Visit x k₀ R₀ ps R k' where
  timeouts := V.timeouts
  notifications := hn.trans V.notifications
  observed := ho.trans V.observed
  triggered := ht.trans V.triggered
  notified := hl.trans V.notified
  dropped q hq := by
    obtain ⟨A, h1, hle, hna⟩ := V.dropped q hq
    exact ⟨A, h1, hle, fun A' => hna ((hA q).mp A')⟩
  armed q hq A := by
    obtain ⟨A₀, hcount, hone, hdyn⟩ := V.armed q hq ((hA q).mp A)
    rw [hb q ((hA q).mp A)]
    refine ⟨A₀, hcount, hone, ?_⟩
    intro e he hps
    rw [hd q.1 e he]
    exact hdyn e he hps
  disarmed q hq A hna := V.disarmed q hq A fun A' => hna ((hA q).mpr A')

/-- One dynamic call. -/
theorem Visit.call (V : Visit x k₀ R₀ ps (p ::ₘ R) k) (O : Outcome x p k k') :
    ∃ ps', Visit x k₀ R₀ ps' R k' := by
  cases O with
  | plain F hn armed keeps =>
      refine ⟨ps, V.timeouts, hn.trans V.notifications, F.observed.trans V.observed,
        F.triggered.trans V.triggered, F.notified.trans V.notified, ?_, ?_, ?_⟩
      · intro q hq
        obtain ⟨A, h1, hle, hna⟩ := V.dropped q hq
        by_cases hqp : q = p
        · subst hqp
          rw [Multiset.count_cons_self] at hle
          push_cast at hle
          exact ⟨A, h1, by omega, fun A' => hna (armed (V.timeouts q hq) A').1⟩
        · rw [Multiset.count_cons_of_ne hqp] at hle
          exact ⟨A, h1, hle, fun A' => hna ((F.armed hqp).mp A')⟩
      · intro q hq A
        by_cases hqp : q = p
        · subst hqp
          obtain ⟨A', hdyn, hb, hne⟩ := armed hq A
          obtain ⟨A₀, hcount, hone, hdyn₀⟩ := V.armed q hq A'
          rw [Multiset.count_cons_self] at hcount
          push_cast at hcount
          refine ⟨A₀, by omega, by omega, ?_⟩
          rw [hdyn]
          exact hdyn₀
        · obtain ⟨A₀, hcount, hone, hdyn₀⟩ := V.armed q hq ((F.armed hqp).mp A)
          rw [Multiset.count_cons_of_ne hqp] at hcount
          rw [F.budget hqp]
          refine ⟨A₀, hcount, hone, ?_⟩
          intro e he hps
          rw [F.dynamics q hqp e nofun]
          exact hdyn₀ e he hps
      · intro q hq A hna
        by_cases hqp : q = p
        · subst hqp
          exact V.disarmed q hq A fun A' => hna (keeps hq A')
        · exact V.disarmed q hq A fun A' => hna ((F.armed hqp).mpr A')
  | dropped F hx A hb hn hna =>
      have hnot : p ∉ ps := fun hp => (V.dropped p hp).2.2.2 A
      refine ⟨ps ++ [p], ?_, ?_, F.observed.trans V.observed, F.triggered.trans V.triggered,
        F.notified.trans V.notified, ?_, ?_, ?_⟩
      · intro q hq
        rcases List.mem_append.mp hq with hq | hq
        · exact V.timeouts q hq
        · rwa [List.mem_singleton.mp hq]
      · rw [hn, V.notifications, Notifications.drops_concat]
      · intro q hq
        by_cases hqp : q = p
        · subst hqp
          obtain ⟨A₀, hcount, hone, _⟩ := V.armed q hx A
          rw [Multiset.count_cons_self] at hcount
          push_cast at hcount
          exact ⟨A₀, by omega, by omega, hna⟩
        · have hq : q ∈ ps := by simpa [hqp] using hq
          obtain ⟨A₀, h1, hle, hna'⟩ := V.dropped q hq
          rw [Multiset.count_cons_of_ne hqp] at hle
          exact ⟨A₀, h1, hle, fun A' => hna' ((F.armed hqp).mp A')⟩
      · intro q hq A'
        have hqp : q ≠ p := by
          intro h
          exact hna (h ▸ A')
        obtain ⟨A₀, hcount, hone, hdyn₀⟩ := V.armed q hq ((F.armed hqp).mp A')
        rw [Multiset.count_cons_of_ne hqp] at hcount
        rw [F.budget hqp]
        refine ⟨A₀, hcount, hone, ?_⟩
        intro e he hps
        have hep : e ≠ .timeout p := hps p (by simp)
        rw [F.dynamics q hqp e (by simpa using hep)]
        exact hdyn₀ e he fun p' hp' => hps p' (by simp [hp'])
      · intro q hq A' hna'
        by_cases hqp : q = p
        · simp [hqp]
        · have h := V.disarmed q hq A' fun A'' => hna' ((F.armed hqp).mpr A'')
          simp [h]

/-- One static call. -/
theorem Visit.static (V : Visit x k₀ R₀ ps R k) (p : Proc) :
    Visit x k₀ R₀ ps R (k.triggerStatic p) := by
  obtain ⟨F, hn, hdyn, hA, hb⟩ := triggerStatic_outcome p k
  refine V.neutral hn F.observed F.triggered F.notified ?_ ?_ (fun d e _ => by rw [hdyn])
  · intro q
    by_cases hqp : q = p
    · rw [hqp]
      exact hA
    · exact F.armed hqp
  · intro q A
    by_cases hqp : q = p
    · subst hqp
      exact hb A
    · exact F.budget hqp

/-- The static calls of one kind; they leave the dynamic lists alone. -/
theorem Visit.statics (V : Visit x k₀ R₀ ps R k) (d : Kind) :
    Visit x k₀ R₀ ps R (k.triggerStatics d x) ∧
      (k.triggerStatics d x).dynamics = k.dynamics := by
  unfold triggerStatics
  induction k.statics d x with
  | nil => exact ⟨V, rfl⟩
  | cons h hs ih =>
      obtain ⟨V', hdyn⟩ := ih
      exact ⟨V'.static (d, h), (triggerStatic_outcome (d, h) _).2.2.1.trans hdyn⟩

theorem Outcome.count_other {d d' : Kind} {h : Handle} (O : Outcome x (d, h) k k')
    (hd : d' ≠ d) (h' : Handle) :
      (k'.dynamics d' x).count h' = (k.dynamics d' x).count h' := by
  have hne : ((d', h') : Proc) ≠ (d, h) := fun heq => hd (Prod.mk.inj heq).1
  cases O with
  | plain F _ _ _ => exact F.dynamics (d', h') hne x nofun
  | dropped F hx _ _ _ _ =>
      refine F.dynamics (d', h') hne x ?_
      intro heq
      exact hx (Option.some.inj heq).symm

/-- During the dynamic calls of the kind `d`, started in `k`: those of `R` and `S` are still
to be made, and the lists of the other kind keep their processes. -/
def Sweeping (x : Event) (k₀ : SimContext) (R₀ : Multiset Proc) (d : Kind) (S : Multiset Proc)
    (k : SimContext) (R : Multiset Handle) (s : SimContext) : Prop :=
  (∃ ps, Visit x k₀ R₀ ps (R.map (d, ·) + S) s) ∧
    ∀ d' ≠ d, ∀ h, (s.dynamics d' x).count h = (k.dynamics d' x).count h

theorem Sweeping.call {d : Kind} {h : Handle} {R : Multiset Handle} {s : SimContext}
    (H : Sweeping x k₀ R₀ d S k (h ::ₘ R) s) :
    Sweeping x k₀ R₀ d S k R (s.triggerDynamic x (d, h)).2 := by
  obtain ⟨⟨ps, V⟩, hcount⟩ := H
  have O := triggerDynamic_outcome x (d, h) s
  rw [Multiset.map_cons, Multiset.cons_add] at V
  refine ⟨V.call O, ?_⟩
  intro d' hd h'
  rw [O.count_other hd]
  exact hcount d' hd h'

/-- The dynamic calls of one kind. The lists of the other kind keep their processes. -/
theorem Visit.dynamics {d : Kind} (V : Visit x k₀ R₀ ps R k)
    (hR : R = (k.dynamics d x : Multiset Handle).map (d, ·) + S) :
    ∃ ps', Visit x k₀ R₀ ps' S (k.triggerDynamics d x) ∧ ∀ d' ≠ d, ∀ h,
      ((k.triggerDynamics d x).dynamics d' x).count h = (k.dynamics d' x).count h := by
  -- the sweep makes all the calls, in an order that depends on their results
  have hstart : Sweeping x k₀ R₀ d S k (k.dynamics d x) k := ⟨⟨ps, hR ▸ V⟩, fun _ _ _ => rfl⟩
  have hsweep : Sweeping x k₀ R₀ d S k 0 (sweep (fun h => triggerDynamic x (d, h))
      (k.dynamics d x).length [] (k.dynamics d x) k).2 :=
    sweep_induction (fun _ _ _ H => H.call) le_rfl hstart
  obtain ⟨⟨ps', V'⟩, hcount⟩ := hsweep
  rw [Multiset.map_zero, zero_add] at V'
  refine ⟨ps', V'.neutral rfl rfl rfl rfl (fun q => ?_) (fun _ _ => rfl) ?_, ?_⟩
  · exact ⟨fun ⟨a, b, c, d⟩ => ⟨a, b, c, d⟩, fun ⟨a, b, c, d⟩ => ⟨a, b, c, d⟩⟩
  · intro d' e he
    by_cases hd : d' = d
    · subst hd
      simp [triggerDynamics, he]
    · simp [triggerDynamics, hd]
  · intro d' hd h
    simpa [triggerDynamics, hd] using hcount d' hd h

/-- The trigger of `x` makes all its calls, and `x` is no longer pending. -/
theorem trigger_visit (x : Event) (k : SimContext) :
    ∃ ps k', Visit x k (k.sensitive x) ps 0 k' ∧
      k.trigger x = { k' with
        notifications := (k.notifications.drops ps).clear x
        triggered := k.triggered ++ [x] } := by
  have V₀ : Visit x k (k.sensitive x) [] (k.sensitive x) (k.notifyObserver x) := visit_start
  have hdyn₀ : (k.notifyObserver x).dynamics = k.dynamics := by
    unfold notifyObserver
    split_ifs <;> rfl
  obtain ⟨V₁, hdyn₁⟩ := V₀.statics .method
  obtain ⟨ps₂, V₂, hcount⟩ := V₁.dynamics (d := .method)
    (S := (k.dynamics .thread x : Multiset Handle).map (Kind.thread, ·)) (by
      rw [hdyn₁, hdyn₀]
      rfl)
  obtain ⟨V₃, hdyn₃⟩ := V₂.statics .thread
  obtain ⟨ps₄, V₄, _⟩ := V₃.dynamics (d := .thread) (S := 0) (by
    have hperm : (((k.notifyObserver x).triggerStatics .method x).triggerDynamics .method
        x).dynamics .thread x |>.Perm (k.dynamics .thread x) := by
      rw [List.perm_iff_count]
      intro h
      rw [hcount .thread nofun h, hdyn₁, hdyn₀]
    rw [hdyn₃, Multiset.coe_eq_coe.mpr hperm, add_zero])
  refine ⟨ps₄, _, V₄, ?_⟩
  simp only [trigger, triggerProcesses]
  rw [V₄.notifications, V₄.triggered]

/-! ### One iteration -/

/-- The dynamic calls that the events in the slots from `pos + 1` to `i - 1` make on `q`. -/
def calls (k : SimContext) (i pos : ℕ) (q : Proc) : ℕ :=
  (((k.notifications.deltaEvents.take i).drop (pos + 1)).map fun e =>
    (k.dynamics q.1 e).count q.2).sum

/-- The timeout of `q` is pending in slot `pos`, and the events in the slots above it, up
to `i - 1`, end the wait of `q`. -/
structure Doomed (k : SimContext) (i pos : ℕ) (q : Proc) : Prop where
  below : pos < i
  pending : k.notifications.Pending pos (.timeout q)
  armed : k.Armed q
  positive : 1 ≤ k.budget q
  ends : k.budget q ≤ k.calls i pos q

/-- The slots below `i` are still to be visited, and no slot was refilled. The last event
`L` of the vector has been visited, unless none has. -/
structure Stage (i : ℕ) (L : Event) (d : Notifications) : Prop where
  below : d.Below i
  slots : ∀ j < i, ∃ e, d.deltaEvents[j]? = some e ∧ d.Pending j e
  last : d.deltaEvents[d.deltaSize - 1]? = some L
  visited : d.notifyType L = .delta → d.deltaSize = i

theorem calls_succ (hslot : k.notifications.deltaEvents[i]? = some x) (hpos : pos < i)
    (q : Proc) : k.calls (i + 1) pos q = k.calls i pos q + (k.dynamics q.1 x).count q.2 := by
  have hlt : i < k.notifications.deltaEvents.length := (List.getElem?_eq_some_iff.mp hslot).1
  have htake : k.notifications.deltaEvents.take (i + 1) =
      k.notifications.deltaEvents.take i ++ [x] := by
    rw [List.take_add_one, hslot]
    rfl
  have hlen : pos + 1 ≤ (k.notifications.deltaEvents.take i).length := by
    rw [List.length_take]
    omega
  simp [calls, htake, List.drop_append_of_le_length hlen]

theorem calls_self (i : ℕ) (q : Proc) : k.calls (i + 1) i q = 0 := by
  have hnil : (k.notifications.deltaEvents.take (i + 1)).drop (i + 1) = [] :=
    List.drop_eq_nil_of_le (List.length_take_le _ _)
  simp [calls, hnil]

/-- The number of calls depends on the events in the slots only. -/
theorem calls_congr (hd : k'.notifications.deltaEvents = k.notifications.deltaEvents)
    (h : ∀ j < i, ∀ e, k.notifications.deltaEvents[j]? = some e →
      (k'.dynamics q.1 e).count q.2 = (k.dynamics q.1 e).count q.2) :
    k'.calls i pos q = k.calls i pos q := by
  unfold calls
  rw [hd]
  congr 1
  apply List.map_congr_left
  intro e he
  obtain ⟨j, hj, hget⟩ := List.getElem_of_mem (List.mem_of_mem_drop he)
  rw [List.length_take] at hj
  rw [List.getElem_take] at hget
  exact h j (by omega) e (List.getElem?_eq_some_iff.mpr ⟨by omega, hget⟩)

/-- Only the notifications and the log change at the end of a trigger. -/
theorem armed_end {d : Notifications} {l : List Event} :
    ({ k with notifications := d, triggered := l } : SimContext).Armed q ↔ k.Armed q :=
  ⟨fun ⟨a, b, c, d⟩ => ⟨a, b, c, d⟩, fun ⟨a, b, c, d⟩ => ⟨a, b, c, d⟩⟩

theorem Stage.pending {d : Notifications} (G : Stage (i + 1) L d)
    (hx : d.deltaEvents[i]? = some x) : d.Pending i x := by
  obtain ⟨e, he, hpend⟩ := G.slots i (Nat.lt_succ_self i)
  obtain rfl : x = e := Option.some.inj (hx.symm.trans he)
  exact hpend

/-- The timeouts pending in the slots to be visited, but the one being triggered. -/
theorem Stage.lt {d : Notifications} (G : Stage (i + 1) L d) (hx : d.deltaEvents[i]? = some x)
    (he : d.Pending pos e) (hne : e ≠ x) : pos < i := by
  obtain ⟨j, hj, _, hidx, hslot⟩ := G.below.index _ he.1
  obtain rfl : j = pos := Option.some.inj (hidx.symm.trans he.2)
  have hji : j ≠ i := by
    intro h
    rw [h, hx] at hslot
    exact hne (Option.some.inj hslot).symm
  omega

theorem Stage.ne {d : Notifications} (G : Stage (i + 1) L d) (hx : d.deltaEvents[i]? = some x)
    (he : d.Pending pos e) (hpos : pos < i) : e ≠ x := by
  intro h
  subst h
  have h := he.index_unique (G.pending hx)
  omega

/-- The slots below stay pending when no delta notification is dropped. -/
theorem Stage.step {d : Notifications} (G : Stage (i + 1) L d)
    (hx : d.deltaEvents[i]? = some x)
    (hps : ∀ p ∈ ps, .timeout p ≠ x) (C : d.Calm (d.drops ps)) :
    Stage i L ((d.drops ps).clear x) where
  below := G.below.clear_drops hx hps
  slots j hj := by
    obtain ⟨e, hslot, hpend⟩ := G.slots j (by omega)
    have hne : e ≠ x := G.ne hx hpend hj
    have hpend' := (C.pending j e).mpr hpend
    refine ⟨e, by simpa [Notifications.clear, C.deltaEvents] using hslot, ?_⟩
    simpa [Notifications.Pending, Notifications.clear, hne] using hpend'
  last := by simpa [Notifications.clear, C.deltaEvents, C.deltaSize] using G.last
  visited hL := by
    have hLx : L ≠ x := by
      intro h
      simp [h, Notifications.clear] at hL
    have hL' : d.notifyType L = .delta := by
      rw [← C.delta]
      simpa [Notifications.clear, hLx] using hL
    have hlast := G.last
    rw [G.visited hL', Nat.add_sub_cancel, hx] at hlast
    exact absurd (Option.some.inj hlast).symm hLx

/-- The state after a trigger that dropped no delta notification. -/
theorem Doomed.step_iff {d : Notifications} {l : List Event}
    (G : Stage (i + 1) L k.notifications)
    (hx : k.notifications.deltaEvents[i]? = some x) (V : Visit x k (k.sensitive x) ps 0 k')
    (C : k.notifications.Calm (k.notifications.drops ps))
    (hnone : ∀ p ∈ ps, k.notifications.notifyType (.timeout p) ≠ .delta)
    (hd : d = (k.notifications.drops ps).clear x) :
    ({ k' with notifications := d, triggered := l } : SimContext).Doomed i pos q ↔
      k.Doomed (i + 1) pos q := by
  subst hd
  have hcount := count_sensitive k x q
  -- an armed process whose timeout is still to come has its lists for the slots below
  have hcalls : .timeout q ≠ x → k'.Armed q → ({ k' with
      notifications := (k.notifications.drops ps).clear x, triggered := l } : SimContext).calls
        i pos q = k.calls i pos q := by
    intro hq A
    obtain ⟨_, _, _, hdyn⟩ := V.armed q hq A
    apply calls_congr C.deltaEvents
    intro j hj e he
    obtain ⟨e', hslot, hpend⟩ := G.slots j (by omega)
    obtain rfl : e = e' := Option.some.inj (he.symm.trans hslot)
    refine hdyn e (G.ne hx hpend hj) ?_
    intro p hp hep
    exact hnone p hp (hep ▸ hpend.1)
  constructor
  · rintro ⟨hpos, hpend, A, h1, hends⟩
    have A' : k'.Armed q := armed_end.mp A
    have hq : .timeout q ≠ x := by
      intro h
      simp [Notifications.Pending, Notifications.clear, h] at hpend
    have hpend' : k.notifications.Pending pos (.timeout q) := by
      rw [← C.pending]
      simpa [Notifications.Pending, Notifications.clear, hq] using hpend
    obtain ⟨A₀, hbudget, hone, _⟩ := V.armed q hq A'
    rw [hcalls hq A'] at hends
    have h1' : 1 ≤ k'.budget q := h1
    have hends' : k'.budget q ≤ k.calls i pos q := hends
    rw [hcount, Multiset.count_zero] at hbudget
    push_cast at hbudget
    refine ⟨by omega, hpend', A₀, hone.mpr h1', ?_⟩
    rw [calls_succ hx hpos]
    push_cast
    omega
  · rintro ⟨_, hpend, A, h1, hends⟩
    have hpos : pos < i := by
      by_contra h
      have hi : pos = i := by omega
      rw [hi, calls_self] at hends
      push_cast at hends
      omega
    have hq : .timeout q ≠ x := G.ne hx hpend hpos
    have A' : k'.Armed q := by
      by_contra hna
      exact hnone q (V.disarmed q hq A hna) hpend.1
    obtain ⟨_, hbudget, hone, _⟩ := V.armed q hq A'
    rw [hcount, Multiset.count_zero] at hbudget
    rw [calls_succ hx hpos] at hends
    push_cast at hbudget hends
    refine ⟨hpos, ?_, armed_end.mpr A', hone.mp h1, ?_⟩
    · have hpend' := (C.pending pos _).mpr hpend
      simpa [Notifications.Pending, Notifications.clear, hq] using hpend'
    · rw [hcalls hq A']
      have hends' : k'.budget q ≤ k.calls i pos q := by omega
      exact hends'

/-- One iteration: the slots below stay as they are and so do the doomed timeouts, or a
timeout is doomed and the last event comes back in a slot below. -/
theorem visit_step (G : Stage (i + 1) L k.notifications)
    (hx : k.notifications.deltaEvents[i]? = some x) :
    (Stage i L (k.trigger x).notifications ∧
        (k.trigger x).notifications.deltaEvents = k.notifications.deltaEvents ∧
        (k.trigger x).notifications.cancelled = k.notifications.cancelled ∧
        ∀ pos q, (k.trigger x).Doomed i pos q ↔ k.Doomed (i + 1) pos q) ∨
      (∃ pos q, k.Doomed (i + 1) pos q) ∧
        (k.trigger x).notifications.cancelled.count L = k.notifications.cancelled.count L ∧
        (k.trigger x).notifications.notifyType L ≠ .delta ∧
        ∃ pos < i, (k.trigger x).notifications.deltaEvents[pos]? = some L := by
  obtain ⟨ps, k', V, htrigger⟩ := trigger_visit x k
  have honly : k.notifications.notifyType L = .delta → L = x := by
    intro hL
    have hlast := G.last
    rw [G.visited hL, Nat.add_sub_cancel, hx] at hlast
    exact (Option.some.inj hlast).symm
  rw [htrigger]
  obtain ⟨C, hnone⟩ | ⟨pos, q, hq, hqpend, Sp, hcount⟩ :=
    Notifications.drops_calm_or G.below V.timeouts G.last honly
  · left
    refine ⟨G.step hx V.timeouts C, C.deltaEvents, C.cancelled, ?_⟩
    intro pos q
    exact Doomed.step_iff G hx V C hnone rfl
  · right
    obtain ⟨A, h1, hle, _⟩ := V.dropped q hq
    have hpos := G.lt hx hqpend (V.timeouts q hq)
    refine ⟨⟨pos, q, by omega, hqpend, A, h1, ?_⟩, hcount, ?_, pos, hpos, Sp.slot⟩
    · rw [calls_succ hx hpos, ← count_sensitive k x q]
      rw [Multiset.count_zero] at hle
      push_cast at hle ⊢
      omega
    · intro hL
      by_cases hLx : L = x
      · simp [hLx, Notifications.clear] at hL
      · exact hLx (Sp.only (by simpa [Notifications.clear, hLx] using hL))

/-! ### The loop -/

theorem trigger_logs (x : Event) (k : SimContext) :
    (k.trigger x).triggered = k.triggered ++ [x] ∧ (k.trigger x).observed = k.observed ∧
      (k.trigger x).notified = k.notified ++ [x].filter fun e => k.observed e := by
  obtain ⟨ps, k', V, htrigger⟩ := trigger_visit x k
  rw [htrigger]
  refine ⟨rfl, V.observed, ?_⟩
  simp only [V.notified, notifyObserver]
  by_cases h : k.observed x = true
  · simp [h]
  · simp [h]

/-- The observer is notified of the observed events among those triggered. -/
theorem loop_logs (i : ℕ) (k : SimContext) : ∃ ts,
    (deltaLoop i k).triggered = k.triggered ++ ts ∧
      (deltaLoop i k).notified = k.notified ++ ts.filter fun e => k.observed e := by
  induction i generalizing k with
  | zero => exact ⟨[], by simp [deltaLoop]⟩
  | succ i ih =>
      cases hx : k.notifications.deltaEvents[i]? with
      | none =>
          simp only [deltaLoop, hx]
          exact ih k
      | some x =>
          simp only [deltaLoop, hx]
          obtain ⟨ts, hts, hns⟩ := ih (k.trigger x)
          obtain ⟨htrig, hobs, hnot⟩ := trigger_logs x k
          refine ⟨x :: ts, ?_, ?_⟩
          · rw [hts, htrig]
            simp
          · rw [hns, hnot, hobs]
            simp [List.filter_cons]
            split_ifs <;> simp

/-- No doomed timeout: the events in the slots are triggered from the last to the first,
and none is cancelled. -/
theorem loop_once (G : Stage i L k.notifications) (h : ∀ pos q, ¬ k.Doomed i pos q) :
    (deltaLoop i k).triggered =
        k.triggered ++ (k.notifications.deltaEvents.take i).reverse ∧
      (deltaLoop i k).notifications.cancelled = k.notifications.cancelled := by
  induction i generalizing k with
  | zero => simp [deltaLoop]
  | succ i ih =>
      obtain ⟨x, hx, _⟩ := G.slots i (Nat.lt_succ_self i)
      simp only [deltaLoop, hx]
      obtain ⟨G', hslots, hcancel, hdoomed⟩ | ⟨⟨pos, q, hq⟩, _⟩ := visit_step G hx
      · obtain ⟨htrig, hcancel'⟩ := ih G' (fun pos q hq => h pos q ((hdoomed pos q).mp hq))
        refine ⟨?_, hcancel'.trans hcancel⟩
        rw [htrig, hslots, (trigger_logs x k).1, List.take_add_one, hx]
        simp
      · exact absurd hq (h pos q)

/-- The loop leaves no delta notification pending. -/
theorem trigger_below (B : k.notifications.Below (i + 1))
    (hx : k.notifications.deltaEvents[i]? = some x) : (k.trigger x).notifications.Below i := by
  obtain ⟨ps, k', V, htrigger⟩ := trigger_visit x k
  rw [htrigger]
  exact B.clear_drops hx V.timeouts

/-- An empty slot is skipped. -/
theorem below_of_none {d : Notifications} (B : d.Below (i + 1))
    (hx : d.deltaEvents[i]? = none) :
    d.Below i := by
  refine ⟨B.size, ?_⟩
  intro e he
  obtain ⟨j, hj, hsize, hidx, hslot⟩ := B.index e he
  have hji : j ≠ i := by
    intro h
    rw [h, hx] at hslot
    exact nomatch hslot
  exact ⟨j, by omega, hsize, hidx, hslot⟩

theorem loop_below (B : k.notifications.Below i) : (deltaLoop i k).notifications.Below 0 := by
  induction i generalizing k with
  | zero => exact B
  | succ i ih =>
      cases hx : k.notifications.deltaEvents[i]? with
      | some x =>
          simp only [deltaLoop, hx]
          exact ih (trigger_below B hx)
      | none =>
          simp only [deltaLoop, hx]
          exact ih (below_of_none B hx)

/-- A trigger leaves an event that is back in a slot there, not pending. -/
theorem spent_step (B : k.notifications.Below i)
    (hslot : k.notifications.deltaEvents[pos]? = some L)
    (hL : k.notifications.notifyType L ≠ .delta) (x : Event) :
    (k.trigger x).notifications.deltaEvents[pos]? = some L ∧
      (k.trigger x).notifications.notifyType L ≠ .delta ∧
      (k.trigger x).notifications.cancelled.count L = k.notifications.cancelled.count L := by
  obtain ⟨ps, k', V, htrigger⟩ := trigger_visit x k
  have Sp : k.notifications.Spent x pos L := ⟨hslot, fun h => absurd h hL⟩
  obtain ⟨Sp', hcount⟩ := Sp.drops B V.timeouts
  rw [htrigger]
  refine ⟨Sp'.slot, ?_, hcount⟩
  intro h
  by_cases hLx : L = x
  · simp [hLx, Notifications.clear] at h
  · exact hLx (Sp'.only (by simpa [Notifications.clear, hLx] using h))

/-- An event that is back in a slot is not cancelled, and is triggered again when the slot
is still to be visited. -/
theorem loop_returned (B : k.notifications.Below i)
    (hslot : k.notifications.deltaEvents[pos]? = some L)
    (hL : k.notifications.notifyType L ≠ .delta) :
    (deltaLoop i k).notifications.cancelled.count L = k.notifications.cancelled.count L ∧
      (pos < i → k.triggered.count L + 1 ≤ (deltaLoop i k).triggered.count L) := by
  induction i generalizing k with
  | zero => exact ⟨rfl, fun h => absurd h (Nat.not_lt_zero pos)⟩
  | succ i ih =>
      cases hx : k.notifications.deltaEvents[i]? with
      | none =>
          simp only [deltaLoop, hx]
          obtain ⟨hcancel, hcount⟩ := ih (below_of_none B hx) hslot hL
          refine ⟨hcancel, fun hpos => hcount ?_⟩
          have hne : pos ≠ i := by
            intro h
            rw [← h, hslot] at hx
            exact nomatch hx
          omega
      | some x =>
          simp only [deltaLoop, hx]
          obtain ⟨hslot', hL', hcancel⟩ := spent_step B hslot hL x
          obtain ⟨hcancel', hcount⟩ := ih (trigger_below B hx) hslot' hL'
          refine ⟨hcancel'.trans hcancel, ?_⟩
          intro hpos
          have htrig : (k.trigger x).triggered.count L = k.triggered.count L +
            [x].count L := by
            rw [(trigger_logs x k).1, List.count_append]
          by_cases hpi : pos = i
          · have hxL : x = L := by
              rw [hpi, hx] at hslot
              exact Option.some.inj hslot
            obtain ⟨ts, hts, _⟩ := loop_logs i (k.trigger x)
            rw [hts, List.count_append, htrig, hxL, List.count_singleton_self]
            omega
          · have h := hcount (by omega)
            omega

/-- A doomed timeout: the last event is triggered once more. -/
theorem loop_again (G : Stage i L k.notifications) (h : ∃ pos q, k.Doomed i pos q) :
    (deltaLoop i k).notifications.cancelled.count L = k.notifications.cancelled.count L ∧
      k.triggered.count L + 1 ≤ (deltaLoop i k).triggered.count L := by
  induction i generalizing k with
  | zero =>
      obtain ⟨pos, q, hq⟩ := h
      exact absurd hq.below (Nat.not_lt_zero pos)
  | succ i ih =>
      obtain ⟨x, hx, _⟩ := G.slots i (Nat.lt_succ_self i)
      simp only [deltaLoop, hx]
      have htrig : k.triggered.count L ≤ (k.trigger x).triggered.count L := by
        rw [(trigger_logs x k).1, List.count_append]
        omega
      obtain ⟨G', _, hcancel, hdoomed⟩ | ⟨_, hcancel, hL, pos, hpos, hslot⟩ := visit_step G hx
      · obtain ⟨pos, q, hq⟩ := h
        obtain ⟨hcancel', hcount⟩ := ih G' ⟨pos, q, (hdoomed pos q).mpr hq⟩
        rw [hcancel] at hcancel'
        exact ⟨hcancel', by omega⟩
      · obtain ⟨hcancel', hcount⟩ := loop_returned (trigger_below G.below hx) hslot hL
        have h := hcount hpos
        exact ⟨hcancel'.trans hcancel, by omega⟩

/-! ### The phase -/

/-- The state in which the loop starts. -/
theorem stage_start {d : Notifications} (W : d.WellFormed) (h : 0 < d.deltaSize) :
    ∃ L, d.Pending (d.deltaSize - 1) L ∧ Stage d.deltaSize L d := by
  obtain ⟨L, hlast, hL⟩ := W.pending (d.deltaSize - 1) (by omega)
  exact ⟨L, hL, W.below, W.pending, hlast, fun _ => rfl⟩

/-- The phase leaves no delta notification, and the vector in order. -/
theorem deltaPhase_wellFormed (W : k.notifications.WellFormed) :
    k.deltaPhase.notifications.WellFormed := (loop_below W.below).wellFormed_reset

/-- Events that are triggered by the loop: twice the last one when a timeout is doomed. -/
theorem deltaPhase_twice (W : k.notifications.WellFormed)
    (h : ∃ pos q, k.Doomed k.notifications.deltaSize pos q) :
    ∃ L, k.notifications.notifyType L = .delta ∧
      k.deltaPhase.notifications.cancelled.count L = k.notifications.cancelled.count L ∧
      k.triggered.count L + 2 ≤ k.deltaPhase.triggered.count L := by
  have hsize : 0 < k.notifications.deltaSize := by
    obtain ⟨pos, q, hq⟩ := h
    have hpos := hq.below
    omega
  obtain ⟨L, hL, G⟩ := stage_start W hsize
  obtain ⟨i, hi⟩ : ∃ i, k.notifications.deltaSize = i + 1 :=
    ⟨_, (Nat.sub_add_cancel hsize).symm⟩
  refine ⟨L, hL.1, ?_⟩
  rw [hi] at G h
  obtain ⟨x, hx, _⟩ := G.slots i (Nat.lt_succ_self i)
  have hxL : x = L := by
    have hlast := G.last
    rw [hi, Nat.add_sub_cancel, hx] at hlast
    exact Option.some.inj hlast
  subst hxL
  have htrig : (k.trigger x).triggered.count x = k.triggered.count x + 1 := by
    rw [(trigger_logs x k).1, List.count_append, List.count_singleton_self]
  have hloop : (deltaLoop i (k.trigger x)).notifications.cancelled.count x =
        k.notifications.cancelled.count x ∧
      (k.trigger x).triggered.count x + 1 ≤ (deltaLoop i (k.trigger x)).triggered.count x := by
    obtain ⟨G', _, hcancel, hdoomed⟩ | ⟨_, hcancel, hL', pos, hpos, hslot⟩ := visit_step G hx
    · obtain ⟨pos, q, hq⟩ := h
      rw [← hcancel]
      exact loop_again G' ⟨pos, q, (hdoomed pos q).mpr hq⟩
    · obtain ⟨hcancel', hcount⟩ := loop_returned (trigger_below G.below hx) hslot hL'
      exact ⟨hcancel'.trans hcancel, hcount hpos⟩
  rw [htrig] at hloop
  simp only [deltaPhase, hi, deltaLoop, hx]
  exact hloop

/-- The slots up to the size hold every pending event once. -/
theorem count_slots {d : Notifications} (W : d.WellFormed) (he : d.notifyType e = .delta) :
    (d.deltaEvents.take d.deltaSize).count e = 1 := by
  obtain ⟨i, _, hi, _, hslot⟩ := W.below.index e he
  have hlen : (d.deltaEvents.take d.deltaSize).length = d.deltaSize := by
    rw [List.length_take]
    exact Nat.min_eq_left W.below.size
  have hnodup : (d.deltaEvents.take d.deltaSize).Nodup := by
    rw [List.nodup_iff_getElem?_ne_getElem?]
    intro j j' hlt hj' heq
    rw [hlen] at hj'
    rw [List.getElem?_take_of_lt (by omega), List.getElem?_take_of_lt (by omega)] at heq
    obtain ⟨e₁, hslot₁, hpend₁⟩ := W.pending j (by omega)
    obtain ⟨e₂, hslot₂, hpend₂⟩ := W.pending j' hj'
    rw [hslot₁, hslot₂] at heq
    obtain rfl := Option.some.inj heq
    have h := hpend₁.index_unique hpend₂
    omega
  have hmem : e ∈ d.deltaEvents.take d.deltaSize :=
    List.mem_iff_getElem?.mpr ⟨i, by rw [List.getElem?_take_of_lt hi, hslot]⟩
  exact List.count_eq_one_of_mem hnodup hmem

/-- No doomed timeout: every pending event is triggered once. -/
theorem deltaPhase_once (W : k.notifications.WellFormed)
    (h : ∀ pos q, ¬ k.Doomed k.notifications.deltaSize pos q)
    (he : k.notifications.notifyType e = .delta) :
    ∃ ts, k.deltaPhase.triggered = k.triggered ++ ts ∧ ts.count e = 1 := by
  obtain ⟨i, _, hi, _⟩ := W.below.index e he
  obtain ⟨L, _, G⟩ := stage_start W (by omega)
  refine ⟨_, (loop_once G h).1, ?_⟩
  rw [List.count_reverse]
  exact count_slots W he

/-! ### The states in which the phase starts -/

/-- What happens to the notifications of a simulation. Everything else may change at any
step, as processes run and wait. -/
inductive Step : SimContext → SimContext → Prop
  | processes (k k' : SimContext) (h : k'.notifications = k.notifications) : Step k k'
  | notify (now t : ℕ) (e : Event) (k : SimContext) :
      Step k { k with notifications := k.notifications.notify now t e }
  | cancel (e : Event) (k : SimContext) : Step k (k.cancel e)
  | notifyNow (e : Event) (k : SimContext) : Step k (k.notifyNow e)
  | timed (e : Event) (k : SimContext) (h : k.notifications.notifyType e = .timed) :
      Step k (k.trigger e)
  | deltaPhase (k : SimContext) : Step k k.deltaPhase

theorem trigger_wellFormed (W : k.notifications.WellFormed)
    (hx : k.notifications.notifyType x ≠ .delta) : (k.trigger x).notifications.WellFormed := by
  obtain ⟨ps, k', V, htrigger⟩ := trigger_visit x k
  rw [htrigger]
  apply (Notifications.calm_clear _).wellFormed (W.drops ps)
  intro h
  exact hx (Notifications.drops_delta h)

theorem Step.wellFormed (h : Step k k') (W : k.notifications.WellFormed) :
    k'.notifications.WellFormed := by
  cases h with
  | processes _ _ h => exact h ▸ W
  | notify now t e => exact W.notify now t e
  | cancel e => exact W.cancel e
  | notifyNow e => exact trigger_wellFormed (W.cancel e) Notifications.cancel_notifyType
  | timed e _ h => exact trigger_wellFormed W (by simp [h])
  | deltaPhase => exact deltaPhase_wellFormed W

/-- In every run of a simulation that starts with no notification, the vector of delta
events is in order. -/
theorem wellFormed_run (h : Relation.ReflTransGen Step k k')
    (hnone : ∀ e, k.notifications.notifyType e = .none)
    (hsize : k.notifications.deltaSize = 0) :
    k'.notifications.WellFormed := by
  induction h with
  | refl =>
      refine ⟨⟨by omega, ?_⟩, ?_⟩
      · intro e he
        simp [hnone e] at he
      · intro i hi
        omega
  | tail _ hstep ih => exact hstep.wellFormed ih

/-! ### Exactly once -/

section Monitors
variable {M : Type*} [DecidableEq M] {getId : M → MonId} {w : World Event getId}
  {calls : List (Call M Event)}

/-- The callbacks that the observer makes in the phase. -/
def phaseCallbacks (w : World Event getId) (k : SimContext) : List (M × Callback Event) :=
  (k.deltaPhase.notified.drop k.notified.length).flatMap fun e => (w.trigger e).getD []

/-- Every event that is pending and not cancelled in the phase is triggered once, and each
monitor registered for it is called back once. -/
def ExactlyOnce (calls : List (Call M Event)) (w : World Event getId) (k : SimContext) :
    Prop :=
  ∀ e, k.notifications.notifyType e = .delta →
    k.deltaPhase.notifications.cancelled.count e = k.notifications.cancelled.count e →
    k.deltaPhase.triggered.count e = k.triggered.count e + 1 ∧
      ∀ m, .registerEvent m e ∈ calls → (k.phaseCallbacks w).count (m, .eventNotified e) = 1

/-- One notification of an observed event calls back a registered monitor once. -/
theorem count_trigger (I : w.Inv calls) {m : M} (hm : .registerEvent m e ∈ calls)
    (e' : Event) :
    ((w.trigger e').getD []).count (m, .eventNotified e) = if e' = e then 1 else 0 := by
  obtain ⟨out, hout, ms, hms, hsorted, hmem⟩ := I.trigger e'
  rw [hout, Option.getD_some, hms]
  by_cases he : e' = e
  · subst he
    have hnodup : (ms.map fun m => (m, Callback.eventNotified e')).Nodup := by
      apply List.Nodup.map
      · intro a b hab
        exact (Prod.mk.inj hab).1
      · apply hsorted.imp
        intro a b hlt hab
        exact absurd hlt (by rw [hab]; exact lt_irrefl _)
    rw [if_pos rfl]
    exact List.count_eq_one_of_mem hnodup (List.mem_map.mpr ⟨m, (hmem m).mpr hm, rfl⟩)
  · rw [if_neg he, List.count_eq_zero]
    intro h
    obtain ⟨m', _, heq⟩ := List.mem_map.mp h
    exact he (Callback.eventNotified.inj (Prod.mk.inj heq).2)

theorem count_callbacks (I : w.Inv calls) {m : M} (hm : .registerEvent m e ∈ calls)
    (es : List Event) :
    (es.flatMap fun e => (w.trigger e).getD []).count (m, .eventNotified e) = es.count e := by
  induction es with
  | nil => rfl
  | cons e' es ih =>
      rw [List.flatMap_cons, List.count_append, ih, count_trigger I hm, List.count_cons]
      simp only [beq_iff_eq]
      omega

/-- **The notification phase.** Every event that is pending at the start of the phase, and
is not cancelled in it, is triggered exactly once, with one callback to each registered
monitor, if and only if no timeout is doomed. -/
theorem delta_exactly_once_iff (hid : Function.Injective getId)
    (hnodup : (World.eventRegistrations calls).Nodup) {outs : List (List (M × Callback Event))}
    (hw : run World.step calls World.new = some (outs, w)) (hobs : k.observed = w.observed)
    (W : k.notifications.WellFormed) :
    k.ExactlyOnce calls w ↔ ∀ pos q, ¬ k.Doomed k.notifications.deltaSize pos q := by
  have I : w.Inv calls := by
    obtain ⟨outs', w', hw', I⟩ := World.inv_run hid hnodup
    rw [hw] at hw'
    obtain ⟨_, rfl⟩ := Prod.mk.inj (Option.some.inj hw')
    exact I
  constructor
  · intro honce pos q hq
    obtain ⟨L, hL, hcancel, htwice⟩ := deltaPhase_twice W ⟨pos, q, hq⟩
    have h := (honce L hL hcancel).1
    omega
  · intro h e he _
    obtain ⟨ts, hts, hcount⟩ := deltaPhase_once W h he
    refine ⟨by rw [hts, List.count_append, hcount], ?_⟩
    intro m hm
    obtain ⟨ts', hts', hnot⟩ := loop_logs k.notifications.deltaSize k
    have heq : ts = ts' := List.append_cancel_left (hts.symm.trans hts')
    have hnew : k.deltaPhase.notified.drop k.notified.length =
        ts'.filter fun e => k.observed e := by
      simp only [deltaPhase, hnot]
      exact List.drop_left
    have hseen : k.observed e = true := by
      rw [hobs]
      exact I.observed hm
    rw [phaseCallbacks, hnew, count_callbacks I hm, List.count_filter hseen, ← heq, hcount]

end Monitors

/-- A thread waits for event 0 with a zero timeout, and one monitor is registered for the
event. The delta notifications are made in the given order. -/
def zeroTimeoutWait (es : List Event) : SimContext where
  notifications := es.foldl (fun d e => d.notify 0 0 e)
    ⟨[], 0, [], fun _ => .none, fun _ => none, []⟩
  statics := fun _ _ => []
  dynamics := fun d e =>
    if d = .thread ∧ (e = .user 0 ∨ e = .timeout (.thread, 1)) then [1] else []
  procs := fun _ => ⟨.eventTimeout, some 0, [], 0, 0, false, false, false, false⟩
  runnable := ⟨⟨[], []⟩, ⟨[], []⟩⟩
  currProc := none
  observed := Function.update (fun _ => false) (.user 0) true
  triggered := []
  notified := []

/-- The monitor of event 0. -/
def oneMonitor : List (Call (Fin 1) Event) := [.registerEvent 0 (.user 0)]

theorem zeroTimeoutWait_wellFormed (es : List Event) :
    (zeroTimeoutWait es).notifications.WellFormed := by
  have W : (⟨[], 0, [], fun _ => .none, fun _ => none, []⟩ : Notifications).WellFormed :=
    ⟨⟨le_rfl, nofun⟩, nofun⟩
  simp only [zeroTimeoutWait]
  generalize (⟨[], 0, [], fun _ => .none, fun _ => none, []⟩ : Notifications) = d at W
  induction es generalizing d with
  | nil => exact W
  | cons e es ih => exact ih _ (W.notify 0 0 e)

/-- The event is notified after the wait began: it cancels the pending timeout, comes back
in its slot and is triggered twice. -/
theorem triggered_twice : ∃ outs,
    ∃ w : World Event (Fin.castLE (by decide : 1 ≤ 2 ^ 31)),
      run World.step oneMonitor World.new = some (outs, w) ∧
      (zeroTimeoutWait [.timeout (.thread, 1), .user 0]).observed = w.observed ∧
      (zeroTimeoutWait [.timeout (.thread, 1), .user 0]).notifications.WellFormed ∧
      (zeroTimeoutWait [.timeout (.thread, 1), .user 0]).deltaPhase.triggered =
        [.user 0, .user 0] ∧
      ¬ (zeroTimeoutWait [.timeout (.thread, 1), .user 0]).ExactlyOnce oneMonitor w := by
  refine ⟨_, _, rfl, rfl, zeroTimeoutWait_wellFormed _, by decide, ?_⟩
  intro h
  have htwice := (h (.user 0) (by decide) (by decide)).1
  revert htwice
  decide

/-- The event is notified before the wait began: nothing is cancelled. -/
theorem delta_exactly_once_iff_wait : ∃ outs,
    ∃ w : World Event (Fin.castLE (by decide : 1 ≤ 2 ^ 31)),
      run World.step oneMonitor World.new = some (outs, w) ∧
      (zeroTimeoutWait [.user 0, .timeout (.thread, 1)]).ExactlyOnce oneMonitor w := by
  refine ⟨_, _, rfl, (delta_exactly_once_iff (Fin.castLE_injective (by decide : 1 ≤ 2 ^ 31))
    (by decide) rfl rfl (zeroTimeoutWait_wellFormed _)).mpr ?_⟩
  intro pos q hq
  have W := zeroTimeoutWait_wellFormed [.user 0, .timeout (.thread, 1)]
  obtain ⟨j, _, _, hidx, hslot⟩ := W.below.index _ hq.pending.1
  obtain rfl : j = pos := Option.some.inj (hidx.symm.trans hq.pending.2)
  have hj : j < 2 := hq.below
  obtain rfl | rfl : j = 0 ∨ j = 1 := by omega
  · -- the first slot holds the user's event
    exact Event.noConfusion (Option.some.inj hslot)
  · -- no slot is above the one of the timeout
    have hends := hq.ends
    rw [show (zeroTimeoutWait [.user 0, .timeout (.thread, 1)]).notifications.deltaSize = 1 + 1
      from rfl, calls_self] at hends
    exact absurd (hq.positive.trans hends) (by decide)

end SimContext
end Pscv.Kernel
