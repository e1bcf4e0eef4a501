import Pscv.Kernel.RunQueue

/-!
# The operations of a run queue refine list operations

Each operation of `RunQueue` is the list operation of the same name on the lists
that the queue represents. The pointer argument is the same throughout: a write
to a cell outside a segment frames it, a write to its last cell relinks it.

## Main results

* `pushBack_spec`, `pushFront_spec`, `executeNext_spec`, `toggle_spec`.
* `unlinkPop_spec`, `unlinkPush_spec` — one element leaves a queue, wherever it is.
* `pop_spec`, `popRandom_spec`, `popRandom_eq_none` — the two pops.
* `remove_spec`.
-/

namespace Pscv.Kernel.RunQueue

open Pscv.Lib

variable {q : RunQueue} {a : Queues} {h : Handle}

@[simp] theorem next_setNextRunnable (q : RunQueue) (h v : Handle) :
    (q.setNextRunnable h v).next = Function.update q.next h v := rfl
@[simp] theorem pushHead_setNextRunnable (q : RunQueue) (h v : Handle) :
    (q.setNextRunnable h v).pushHead = q.pushHead := rfl
@[simp] theorem pushTail_setNextRunnable (q : RunQueue) (h v : Handle) :
    (q.setNextRunnable h v).pushTail = q.pushTail := rfl
@[simp] theorem popQueue_setNextRunnable (q : RunQueue) (h v : Handle) :
    (q.setNextRunnable h v).popQueue = q.popQueue := rfl

theorem scNo_ne_null : scNo ≠ null := by decide

namespace Represents

theorem nodup_cells (H : q.Represents a) : (q.pushHead :: a.push).Nodup := by
  refine List.nodup_cons.mpr ⟨fun hm => H.head_notMem (by simp [hm]), ?_⟩
  exact (List.nodup_append'.mp H.nodup).2.1

/-- The push queue, dummy head included, ends at the tail. -/
theorem push_cells (H : q.Represents a) :
    ∃ ys, q.pushHead :: a.push = ys ++ [q.pushTail] ∧ q.pushTail ∉ ys := by
  have hnd := H.nodup_cells
  rcases List.eq_nil_or_concat a.push with hnil | ⟨zs, z, hz⟩
  · exact ⟨[], by simp [hnil, H.tail_eq], by simp⟩
  · have htail : q.pushTail = z := by simp [H.tail_eq, hz]
    refine ⟨q.pushHead :: zs, by simp [hz, htail], ?_⟩
    rw [hz, List.concat_eq_append, ← List.cons_append, List.nodup_append'] at hnd
    exact fun hm => hnd.2.2 hm (by simp [htail])

theorem tail_eq_head_or_mem (H : q.Represents a) :
    q.pushTail = q.pushHead ∨ q.pushTail ∈ a.push := by
  obtain ⟨ys, hys, _⟩ := H.push_cells
  have hm : q.pushTail ∈ q.pushHead :: a.push := by rw [hys]; simp
  simpa using hm

theorem tail_notMem_pop (H : q.Represents a) : q.pushTail ∉ a.pop := by
  intro hm
  rcases H.tail_eq_head_or_mem with heq | hpush
  · exact H.head_notMem (by rw [← heq]; simp [hm])
  · exact H.disjoint hm hpush

end Represents

/-- `init` on fresh queues represents two empty queues. -/
theorem init_spec {newHead : Handle} (hn : newHead ≠ null) (hs : newHead ≠ scNo) :
    (fresh.init newHead).Represents ⟨[], []⟩ where
  pop_segment := rfl
  push_segment := by simp [init, fresh]
  tail_eq := by simp [init, fresh]
  nodup := List.nodup_nil
  process := by simp
  head_ne := by simpa [init, fresh] using ⟨hn, hs⟩
  queued_iff := by
    intro h hp
    have hne : h ≠ newHead := by simpa [init, fresh] using hp.2.2
    simp [init, fresh, hne]

theorem executeNext_spec (H : q.Represents a) (hp : q.IsProcess h) (hn : q.next h = null) :
    (q.executeNext h).Represents (a.executeNext h) := by
  have hnot : h ∉ a.all := H.notMem_of_next hp hn
  have hpop : h ∉ a.pop := fun hm => hnot (by simp [hm])
  have hpush : h ∉ a.push := fun hm => hnot (by simp [hm])
  have hpopQueue : q.popQueue ≠ null := by
    cases hpop' : a.pop with
    | nil => rw [H.popQueue_eq_scNo_iff.mpr hpop']; exact scNo_ne_null
    | cons x xs =>
        have hseg := H.pop_segment
        rw [hpop'] at hseg
        rw [hseg.1]
        exact (H.process x (by simp [hpop'])).1
  exact {
    pop_segment := by
      refine ⟨rfl, ?_⟩
      simpa [executeNext] using H.pop_segment.frame hpop
    push_segment := by
      refine H.push_segment.frame ?_
      simpa [hpush] using hp.2.2
    tail_eq := H.tail_eq
    nodup := List.nodup_cons.mpr ⟨hnot, H.nodup⟩
    process := by
      intro x hx
      rcases List.mem_cons.mp hx with rfl | hx
      · exact hp
      · exact H.process x hx
    head_ne := H.head_ne
    queued_iff := by
      intro x hx
      by_cases hxh : x = h
      · subst x; simp [executeNext, Queues.executeNext, hpopQueue]
      · have hiff := H.queued_iff x hx
        simpa [executeNext, Queues.executeNext, hxh] using hiff }

theorem pushBack_spec (H : q.Represents a) (hp : q.IsProcess h) (hn : q.next h = null) :
    (q.pushBack h).Represents (a.pushBack h) := by
  have hnot : h ∉ a.all := H.notMem_of_next hp hn
  have hpop : h ∉ a.pop := fun hm => hnot (by simp [hm])
  have hcells : h ∉ q.pushHead :: a.push := by
    have hpush : h ∉ a.push := fun hm => hnot (by simp [hm])
    simpa [hpush] using hp.2.2
  obtain ⟨ys, hys, hty⟩ := H.push_cells
  have hth : q.pushTail ≠ h := by
    rintro rfl
    exact hcells (by rw [hys]; simp)
  exact {
    pop_segment := (H.pop_segment.frame hpop).frame H.tail_notMem_pop
    push_segment := by
      have hseg : Segment (q.pushBack h).next q.pushHead (ys ++ [q.pushTail]) h :=
        (hys ▸ H.push_segment.frame hcells).relink hty
      have hlast : (q.pushBack h).next h = scNo := by simp [pushBack, Ne.symm hth]
      have happ : q.pushHead :: (a.pushBack h).push = ys ++ [q.pushTail] ++ [h] := by
        rw [← hys]; simp [Queues.pushBack]
      change Segment _ q.pushHead (q.pushHead :: (a.pushBack h).push) _
      rw [happ]
      exact Segment.append_iff.mpr ⟨h, hseg, rfl, hlast⟩
    tail_eq := by simp [pushBack, Queues.pushBack]
    nodup := by
      rw [Queues.all, Queues.pushBack, ← List.append_assoc, List.nodup_append']
      exact ⟨H.nodup, List.nodup_singleton h, by simpa using hnot⟩
    process := by
      intro x hx
      rw [Queues.mem_all, Queues.pushBack, List.mem_append, List.mem_singleton] at hx
      rcases hx with hx | hx | rfl
      · exact H.process x (by simp [hx])
      · exact H.process x (by simp [hx])
      · exact hp
    head_ne := H.head_ne
    queued_iff := by
      intro x hx
      have hiff := H.queued_iff x hx
      rw [Queues.mem_all] at hiff ⊢
      simp only [Queues.pushBack, List.mem_append, List.mem_singleton]
      by_cases hxt : x = q.pushTail
      · -- the old tail is queued: it is a process, so not the dummy head
        have hmem : x ∈ a.push := by
          rcases H.tail_eq_head_or_mem with heq | hm
          · exact absurd (hxt.trans heq) hx.2.2
          · rw [hxt]; exact hm
        simp [pushBack, hxt ▸ hmem, hxt, hp.1]
      · by_cases hxh : x = h
        · simp [pushBack, hxh, Ne.symm hth, scNo_ne_null]
        · simpa [pushBack, hxt, hxh] using hiff }

/-- With an empty queue the tail is the head, so both branches write to the head. -/
theorem next_pushFront : (q.pushFront h).next =
    Function.update (Function.update q.next h (q.next q.pushHead)) q.pushHead h := by
  unfold pushFront
  by_cases ht : q.pushTail = q.pushHead
  · simp [ht]
  · simp [ht]

theorem fields_pushFront : (q.pushFront h).pushHead = q.pushHead ∧
    (q.pushFront h).popQueue = q.popQueue := by
  unfold pushFront
  by_cases ht : q.pushTail = q.pushHead <;> simp [ht]

theorem tail_pushFront (H : q.Represents a) :
    (q.pushFront h).pushTail = (h :: a.push).getLastD q.pushHead := by
  rcases List.eq_nil_or_concat a.push with hnil | ⟨zs, z, hz⟩
  · have ht : q.pushTail = q.pushHead := by simp [H.tail_eq, hnil]
    simp [pushFront, ht, hnil]
  · have hne : z ≠ q.pushHead := (H.process z (by simp [hz])).2.2
    have ht : q.pushTail = z := by simp [H.tail_eq, hz]
    rw [hz, List.concat_eq_append, ← List.cons_append, List.getLastD_concat]
    simp [pushFront, ht, hne]

theorem pushFront_spec (H : q.Represents a) (hp : q.IsProcess h) (hn : q.next h = null) :
    (q.pushFront h).Represents (a.pushFront h) := by
  have hnot : h ∉ a.all := H.notMem_of_next hp hn
  have hpop : h ∉ a.pop := fun hm => hnot (by simp [hm])
  have hpush : h ∉ a.push := fun hm => hnot (by simp [hm])
  have hfirst : Segment q.next (q.next q.pushHead) a.push scNo := H.push_segment.2
  have hhead : q.pushHead ∉ a.pop ∧ q.pushHead ∉ a.push := by
    simpa using H.head_notMem
  have hnext := next_pushFront (q := q) (h := h)
  have hfields := fields_pushFront (q := q) (h := h)
  have hproc : ∀ x, (q.pushFront h).IsProcess x ↔ q.IsProcess x := by
    intro x; unfold IsProcess; rw [hfields.1]
  exact {
    pop_segment := by
      rw [hnext, hfields.2]
      exact (H.pop_segment.frame hpop).frame hhead.1
    push_segment := by
      have hseg : Segment (q.pushFront h).next (q.next q.pushHead) a.push scNo := by
        rw [hnext]
        exact (hfirst.frame hpush).frame hhead.2
      have h₁ : (q.pushFront h).next q.pushHead = h := by simp [hnext]
      have h₂ : (q.pushFront h).next h = q.next q.pushHead := by simp [hnext, hp.2.2]
      rw [hfields.1]
      refine ⟨rfl, ?_⟩
      rw [h₁]
      refine ⟨rfl, ?_⟩
      rw [h₂]
      exact hseg
    tail_eq := by
      rw [hfields.1]
      exact tail_pushFront H
    nodup := by
      rw [Queues.all, Queues.pushFront, List.nodup_append']
      have hnd := List.nodup_append'.mp H.nodup
      refine ⟨hnd.1, List.nodup_cons.mpr ⟨hpush, hnd.2.1⟩, ?_⟩
      exact List.disjoint_cons_right.mpr ⟨hpop, hnd.2.2⟩
    process := by
      intro x hx
      rw [Queues.mem_all, Queues.pushFront, List.mem_cons] at hx
      rw [hproc]
      rcases hx with hx | rfl | hx
      · exact H.process x (by simp [hx])
      · exact hp
      · exact H.process x (by simp [hx])
    head_ne := by rw [hfields.1]; exact H.head_ne
    queued_iff := by
      intro x hx
      rw [hproc] at hx
      have hiff := H.queued_iff x hx
      rw [Queues.mem_all] at hiff ⊢
      simp only [Queues.pushFront, List.mem_cons, hnext]
      rw [Function.update_of_ne hx.2.2]
      by_cases hxh : x = h
      · have hcell : q.next q.pushHead ≠ null := by
          cases hl : a.push with
          | nil =>
              rw [hl] at hfirst
              rw [show q.next q.pushHead = scNo from hfirst]
              exact scNo_ne_null
          | cons y ys =>
              rw [hl] at hfirst
              rw [hfirst.1]
              exact (H.process y (by simp [hl])).1
        simp [hxh, hcell]
      · simpa [hxh] using hiff }

theorem toggle_spec (H : q.Represents a) : q.toggle.Represents a.toggle := by
  by_cases hpop : a.pop = []
  · have hq : q.popQueue = scNo := H.popQueue_eq_scNo_iff.mpr hpop
    have hall : a.all = a.push := by simp [Queues.all, hpop]
    have htoggle : a.toggle = ⟨a.push, []⟩ := by simp [Queues.toggle, hpop]
    have hhead : q.pushHead ∉ a.push := by simpa [hall] using H.head_notMem
    rw [htoggle, toggle, if_pos hq]
    exact {
      pop_segment := H.push_segment.2.frame hhead
      push_segment := by simp
      tail_eq := by simp
      nodup := by simpa [Queues.all, hpop] using H.nodup
      process := fun x hx => H.process x (by simpa [Queues.all, hpop] using hx)
      head_ne := H.head_ne
      queued_iff := by
        intro x hx
        have hne : x ≠ q.pushHead := hx.2.2
        have hiff := H.queued_iff x hx
        rw [hall] at hiff
        simpa [Queues.all, hne] using hiff }
  · have hq : q.popQueue ≠ scNo := fun heq => hpop (H.popQueue_eq_scNo_iff.mp heq)
    simpa [toggle, hq, Queues.toggle, hpop] using H

/-- Taking `x` out of either list: what remains to be shown is the two segments
and the tail, and that no other process changes between queued and not queued. -/
theorem Represents.shrink {q' : RunQueue} {a' : Queues} {x : Handle} (H : q.Represents a)
    (hhead : q'.pushHead = q.pushHead) (hsub : a'.all.Sublist a.all)
    (hmem : ∀ y, y ∈ a'.all ↔ y ∈ a.all ∧ y ≠ x) (hx : q'.next x = null)
    (hother : ∀ y, y ≠ x → q'.IsProcess y → (q'.next y = null ↔ q.next y = null))
    (hpop : Segment q'.next q'.popQueue a'.pop scNo)
    (hpush : Segment q'.next q'.pushHead (q'.pushHead :: a'.push) scNo)
    (htail : q'.pushTail = a'.push.getLastD q'.pushHead) : q'.Represents a' := by
  have hproc : ∀ y, q'.IsProcess y ↔ q.IsProcess y := by
    intro y; unfold IsProcess; rw [hhead]
  exact {
    pop_segment := hpop
    push_segment := hpush
    tail_eq := htail
    nodup := H.nodup.sublist hsub
    process := fun y hy => (hproc y).mpr (H.process y (hsub.subset hy))
    head_ne := by rw [hhead]; exact H.head_ne
    queued_iff := by
      intro y hy
      rw [hmem]
      by_cases hyx : y = x
      · simp [hyx, hx]
      · have hiff := H.queued_iff y ((hproc y).mp hy)
        simp only [ne_eq, hother y hyx hy, hyx, not_false_eq_true, and_true]
        exact hiff }

/-- Taking the first process out of the pop queue. -/
theorem unlinkPop_first_spec {x : Handle} {xs : List Handle} (H : q.Represents a)
    (hpop : a.pop = x :: xs) : (q.unlinkPop null x).Represents { a with pop := xs } := by
  have hnd : x ∉ xs ∧ xs.Nodup := by
    simpa [hpop] using (List.nodup_append'.mp H.nodup).1
  have hxp : q.IsProcess x := H.process x (by simp [hpop])
  have hxpush : x ∉ a.push := H.disjoint (by simp [hpop])
  have hseg := hpop ▸ H.pop_segment
  refine H.shrink (x := x) rfl ?_ ?_ (by simp [unlinkPop]) ?_ ?_ ?_ H.tail_eq
  · simp [Queues.all, hpop]
  · intro y
    simp only [Queues.mem_all, hpop, List.mem_cons]
    constructor
    · rintro (hy | hy)
      · exact ⟨.inl (.inr hy), by rintro rfl; exact hnd.1 hy⟩
      · exact ⟨.inr hy, by rintro rfl; exact hxpush hy⟩
    · rintro ⟨(rfl | hy) | hy, hne⟩
      · exact absurd rfl hne
      · exact .inl hy
      · exact .inr hy
  · intro y hne _
    simp [unlinkPop, hne]
  · exact hseg.2.frame hnd.1
  · refine H.push_segment.frame ?_
    simpa [hxpush] using hxp.2.2

/-- Taking a later process out of the pop queue. -/
theorem unlinkPop_inner_spec {u x : Handle} {ys zs : List Handle} (H : q.Represents a)
    (hpop : a.pop = ys ++ u :: x :: zs) :
    (q.unlinkPop u x).Represents { a with pop := ys ++ u :: zs } := by
  have hnd := (List.nodup_append'.mp H.nodup).1
  rw [hpop] at hnd
  have hndt := (List.nodup_append'.mp hnd).2.1
  rw [List.nodup_cons, List.nodup_cons, List.mem_cons] at hndt
  have hup : q.IsProcess u := H.process u (by simp [hpop])
  have hxp : q.IsProcess x := H.process x (by simp [hpop])
  have hupush : u ∉ a.push := H.disjoint (by simp [hpop])
  have hxpush : x ∉ a.push := H.disjoint (by simp [hpop])
  have hux : u ≠ x := fun heq => hndt.1 (.inl heq)
  have hxnext : q.next x ≠ null := (H.queued_iff x hxp).mpr (by simp [hpop])
  have hunext : q.next u ≠ null := (H.queued_iff u hup).mpr (by simp [hpop])
  have hnext : (q.unlinkPop u x).next =
      Function.update (Function.update q.next u (q.next x)) x null := by
    simp [unlinkPop, hup.1]
  have hfields : (q.unlinkPop u x).pushHead = q.pushHead ∧
      (q.unlinkPop u x).pushTail = q.pushTail ∧ (q.unlinkPop u x).popQueue = q.popQueue := by
    simp [unlinkPop, hup.1]
  refine H.shrink (x := x) hfields.1 ?_ ?_ (by simp [hnext]) ?_ ?_ ?_ ?_
  · rw [Queues.all, Queues.all, hpop]
    exact List.Sublist.append_right (by simp) _
  · intro y
    have hx₁ : x ∉ ys := by
      intro hm
      exact (List.nodup_append'.mp hnd).2.2 hm (by simp)
    have hx₂ : x ∉ zs := hndt.2.1
    simp only [Queues.mem_all, hpop, List.mem_append, List.mem_cons]
    constructor
    · rintro ((hy | rfl | hy) | hy)
      · exact ⟨.inl (.inl hy), by rintro rfl; exact hx₁ hy⟩
      · exact ⟨.inl (.inr (.inl rfl)), hux⟩
      · exact ⟨.inl (.inr (.inr (.inr hy))), by rintro rfl; exact hx₂ hy⟩
      · exact ⟨.inr hy, by rintro rfl; exact hxpush hy⟩
    · tauto
  · intro y hne _
    by_cases hyu : y = u
    · simp [hnext, hyu, hux, hxnext, hunext]
    · simp [hnext, hne, hyu]
  · rw [hnext, hfields.2.2]
    exact (hpop ▸ H.pop_segment).unlink hnd
  · rw [hnext, hfields.1]
    refine (H.push_segment.frame ?_).frame ?_
    · simpa [hupush] using hup.2.2
    · simpa [hxpush] using hxp.2.2
  · rw [hfields.1, hfields.2.1]
    exact H.tail_eq

private theorem getLastD_of_cons_eq {d t : Handle} {xs ys : List Handle}
    (h : d :: xs = ys ++ [t]) : xs.getLastD d = t := by
  rcases List.eq_nil_or_concat xs with hnil | ⟨zs, z, hz⟩
  · rw [hnil] at h
    cases ys with
    | nil => simpa [hnil] using h
    | cons y ys => simp at h
  · rw [hz, List.concat_eq_append, ← List.cons_append] at h
    rw [hz, List.concat_eq_append, List.getLastD_concat]
    exact (List.append_inj' h rfl).2 |> List.head_eq_of_cons_eq

section UnlinkPush
variable {u x : Handle} {ys zs : List Handle}

theorem next_unlinkPush : (q.unlinkPush u x).next =
    Function.update (Function.update q.next u (q.next x)) x null := by
  unfold unlinkPush
  by_cases ht : x = q.pushTail <;> simp [ht]

theorem fields_unlinkPush : (q.unlinkPush u x).pushHead = q.pushHead ∧
    (q.unlinkPush u x).popQueue = q.popQueue := by
  unfold unlinkPush
  by_cases ht : x = q.pushTail <;> simp [ht]

/-- The cells that stay begin with the dummy head. -/
theorem cells_of_unlinked (hpush : q.pushHead :: a.push = ys ++ u :: x :: zs) :
    q.pushHead :: (ys ++ u :: zs).tail = ys ++ u :: zs := by
  cases ys with
  | nil => simpa using (List.cons.inj hpush).1
  | cons y ys => simpa using (List.cons.inj hpush).1

/-- What is pushed is the process taken out and what stays. -/
theorem perm_of_unlinked (hpush : q.pushHead :: a.push = ys ++ u :: x :: zs) :
    a.push.Perm (x :: (ys ++ u :: zs).tail) := by
  have hmiddle : (ys ++ u :: x :: zs).Perm (x :: (ys ++ u :: zs)) := by
    simpa using (List.perm_middle : ((ys ++ [u]) ++ x :: zs).Perm _)
  rw [← hpush, ← cells_of_unlinked hpush] at hmiddle
  exact (hmiddle.trans (List.Perm.swap _ _ _)).cons_inv

/-- The tail steps back when the last process is taken out. -/
theorem tail_unlinkPush (H : q.Represents a)
    (hpush : q.pushHead :: a.push = ys ++ u :: x :: zs) :
    (q.unlinkPush u x).pushTail = (ys ++ u :: zs).tail.getLastD q.pushHead := by
  have hcells := cells_of_unlinked hpush
  rcases List.eq_nil_or_concat zs with hnil | ⟨ws, t, ht⟩
  · have hlast : x = q.pushTail := by
      rw [H.tail_eq]
      exact (getLastD_of_cons_eq (hpush.trans (by simp [hnil] :
        _ = (ys ++ [u]) ++ [x]))).symm
    rw [getLastD_of_cons_eq (hcells.trans (by rw [hnil]))]
    simp [unlinkPush, hlast]
  · rw [List.concat_eq_append] at ht
    have hlast : q.pushTail = t := by
      rw [H.tail_eq]
      exact getLastD_of_cons_eq (hpush.trans (by simp [ht] :
        _ = (ys ++ u :: x :: ws) ++ [t]))
    have hxt : x ≠ t := by
      rintro rfl
      have hnd := (List.nodup_append'.mp (hpush ▸ H.nodup_cells)).2.1
      simp [ht] at hnd
    rw [getLastD_of_cons_eq (hcells.trans (by simp [ht] : _ = (ys ++ u :: ws) ++ [t]))]
    simp [unlinkPush, hlast, hxt]

/-- Taking a process out of the push queue; the cell before the first one is the
dummy head. -/
theorem unlinkPush_spec (H : q.Represents a)
    (hpush : q.pushHead :: a.push = ys ++ u :: x :: zs) :
    (q.unlinkPush u x).Represents { a with push := (ys ++ u :: zs).tail } := by
  have hcells := cells_of_unlinked hpush
  have hperm := perm_of_unlinked hpush
  have hnd : (ys ++ u :: x :: zs).Nodup := hpush ▸ H.nodup_cells
  have hxpush : x ∈ a.push := hperm.mem_iff.mpr List.mem_cons_self
  have hnot := (List.nodup_cons.mp (hperm.nodup_iff.mp (List.nodup_append'.mp H.nodup).2.1)).1
  have hpushed : ∀ y, y ∈ (ys ++ u :: zs).tail ↔ y ∈ a.push ∧ y ≠ x := by
    intro y
    rw [hperm.mem_iff, List.mem_cons]
    constructor
    · intro hy
      exact ⟨.inr hy, by rintro rfl; exact hnot hy⟩
    · rintro ⟨hy, hyx⟩
      exact hy.resolve_left hyx
  have hu : u = q.pushHead ∨ u ∈ a.push := by
    have hmem : u ∈ q.pushHead :: a.push := by simp [hpush]
    simpa using hmem
  have hxpop : x ∉ a.pop := fun hm => H.disjoint hm hxpush
  have hupop : u ∉ a.pop := by
    intro hm
    rcases hu with heq | hu
    · exact H.head_notMem (by rw [← heq]; simp [hm])
    · exact H.disjoint hm hu
  refine H.shrink (x := x) fields_unlinkPush.1 ?_ ?_ (by simp [next_unlinkPush]) ?_ ?_ ?_ ?_
  · rw [Queues.all, Queues.all]
    refine List.Sublist.append_left ?_ _
    rw [← List.cons_sublist_cons (a := q.pushHead), hcells, hpush]
    simp
  · intro y
    simp only [Queues.mem_all, hpushed]
    constructor
    · rintro (hy | ⟨hy, hyx⟩)
      · exact ⟨.inl hy, by rintro rfl; exact hxpop hy⟩
      · exact ⟨.inr hy, hyx⟩
    · tauto
  · intro y hyx hy
    rw [next_unlinkPush, Function.update_of_ne hyx]
    by_cases hyu : y = u
    · have hyp : q.IsProcess y := by unfold IsProcess at hy ⊢; rwa [fields_unlinkPush.1] at hy
      have hypush : y ∈ a.push := by
        rw [hyu]
        exact hu.resolve_left (hyu ▸ hyp.2.2)
      have hxp : q.IsProcess x := H.process x (by simp [hxpush])
      have h₁ : q.next y ≠ null := (H.queued_iff y hyp).mpr (by simp [hypush])
      have h₂ : q.next x ≠ null := (H.queued_iff x hxp).mpr (by simp [hxpush])
      simp [hyu ▸ h₁, hyu, h₂]
    · rw [Function.update_of_ne hyu]
  · rw [next_unlinkPush, fields_unlinkPush.2]
    exact (H.pop_segment.frame hupop).frame hxpop
  · rw [next_unlinkPush, fields_unlinkPush.1, hcells]
    exact (hpush ▸ H.push_segment).unlink hnd
  · rw [fields_unlinkPush.1]
    exact tail_unlinkPush H hpush

end UnlinkPush

/-- Taking a process out of the pop queue, given the process before it. -/
theorem unlinkPop_spec {x : Handle} {pre post : List Handle} (H : q.Represents a)
    (hpop : a.pop = pre ++ x :: post) :
    (q.unlinkPop (pre.getLastD null) x).Represents { a with pop := pre ++ post } := by
  rcases List.eq_nil_or_concat pre with rfl | ⟨ys, u, rfl⟩
  · exact unlinkPop_first_spec H hpop
  · have hsplit : a.pop = ys ++ u :: x :: post := by simpa using hpop
    simpa using unlinkPop_inner_spec H hsplit

theorem pop_spec (H : q.Represents a) :
    q.pop.1 = (a.takeAt 0).1 ∧ q.pop.2.Represents (a.takeAt 0).2 := by
  cases hpop : a.pop with
  | nil =>
      have hq : q.popQueue = scNo := H.popQueue_eq_scNo_iff.mpr hpop
      simpa [pop, hq, Queues.takeAt, hpop] using H
  | cons x xs =>
      have hq : q.popQueue = x := by
        have hseg := H.pop_segment
        rw [hpop] at hseg
        exact hseg.1
      have hne : x ≠ scNo := (H.process x (by simp [hpop])).2.1
      have hunlink : q.pop.2 = q.unlinkPop null x := by
        simp [pop, hne, unlinkPop, hq, setNextRunnable]
      refine ⟨by simp [pop, hne, hq, Queues.takeAt, hpop], ?_⟩
      rw [hunlink]
      simpa [Queues.takeAt, hpop] using unlinkPop_first_spec H hpop

section Walks
variable {next : Handle → Handle} {p x : Handle} {xs mid post : List Handle} {w fuel : ℕ}

/-- The counting loop returns the length of the queue, modulo the counter's width. -/
theorem countFrom_eq (hseg : Segment next p xs scNo) (hs : scNo ∉ xs) (hf : xs.length < fuel)
    (n : ℕ) : countFrom next w fuel p (n % 2 ^ w) = some ((n + xs.length) % 2 ^ w) := by
  induction xs generalizing p n fuel with
  | nil =>
      obtain ⟨fuel, rfl⟩ := Nat.exists_eq_add_of_lt hf
      rw [show p = scNo from hseg]
      simp [countFrom]
  | cons y ys ih =>
      obtain ⟨fuel, rfl⟩ : ∃ k, fuel = k + 1 := ⟨fuel - 1, by omega⟩
      obtain ⟨rfl, hseg⟩ := hseg
      have hne : p ≠ scNo := by rintro rfl; exact hs (by simp)
      have hf' : ys.length < fuel := by simpa using hf
      have hrec := ih hseg (fun hm => hs (by simp [hm])) hf' (n + 1)
      rw [countFrom, if_neg hne, Nat.mod_add_mod, hrec, List.length_cons]
      congr 2
      omega

/-- The searching loop takes the process at its target position. -/
theorem takeAt_eq {prior : Handle} {index target : ℕ} {q : RunQueue}
    (hseg : Segment q.next p (mid ++ x :: post) scNo) (hs : scNo ∉ mid ++ x :: post)
    (hf : mid.length < fuel) (hi : index + mid.length = target) (hw : target < 2 ^ w) :
    takeAt w target q fuel prior p index = some (x, q.unlinkPop (mid.getLastD prior) x) := by
  induction mid generalizing p prior index fuel with
  | nil =>
      obtain ⟨fuel, rfl⟩ : ∃ k, fuel = k + 1 := ⟨fuel - 1, by omega⟩
      obtain ⟨rfl, _⟩ := hseg
      have hne : p ≠ scNo := by rintro rfl; exact hs (by simp)
      have hidx : index = target := by simpa using hi
      simp [takeAt, hne, hidx]
  | cons y ys ih =>
      obtain ⟨fuel, rfl⟩ : ∃ k, fuel = k + 1 := ⟨fuel - 1, by omega⟩
      obtain ⟨rfl, hseg⟩ := hseg
      have hne : p ≠ scNo := by rintro rfl; exact hs (by simp)
      rw [List.length_cons] at hf hi
      have hidx : index ≠ target := by omega
      have hmod : (index + 1) % 2 ^ w = index + 1 := Nat.mod_eq_of_lt (by omega)
      rw [takeAt, if_neg hne, if_neg hidx, hmod,
        ih hseg (fun hm => hs (by simp [hm])) (by omega) (by omega), List.getLastD_cons]

/-- The removing search finds the cell before its target. -/
theorem findFrom_eq_some (prior : Handle) (hseg : Segment next p (mid ++ x :: post) scNo)
    (hs : scNo ∉ mid ++ x :: post) (hx : x ∉ mid) (hf : mid.length < fuel) :
    findFrom next x fuel prior p = some (some (mid.getLastD prior)) := by
  induction mid generalizing p prior fuel with
  | nil =>
      obtain ⟨fuel, rfl⟩ : ∃ k, fuel = k + 1 := ⟨fuel - 1, by omega⟩
      obtain ⟨rfl, _⟩ := hseg
      have hne : p ≠ scNo := by rintro rfl; exact hs (by simp)
      simp [findFrom, hne]
  | cons y ys ih =>
      obtain ⟨fuel, rfl⟩ : ∃ k, fuel = k + 1 := ⟨fuel - 1, by omega⟩
      obtain ⟨rfl, hseg⟩ := hseg
      have hne : p ≠ scNo := by rintro rfl; exact hs (by simp)
      have hxp : x ≠ p := fun heq => hx (by simp [heq])
      rw [List.length_cons] at hf
      rw [findFrom, if_neg hne, if_neg hxp,
        ih _ hseg (fun hm => hs (by simp [hm])) (fun hm => hx (by simp [hm])) (by omega),
        List.getLastD_cons]

/-- A removing search that starts at the sentinel ends there. -/
theorem findFrom_scNo {prior : Handle} :
    findFrom next x addressSpace prior scNo = some none :=
  rfl

/-- The removing search reaches the sentinel when its target is not queued. -/
theorem findFrom_eq_none {prior : Handle} (hseg : Segment next p xs scNo) (hs : scNo ∉ xs)
    (hx : x ∉ xs) (hf : xs.length < fuel) : findFrom next x fuel prior p = some none := by
  induction xs generalizing p prior fuel with
  | nil =>
      obtain ⟨fuel, rfl⟩ : ∃ k, fuel = k + 1 := ⟨fuel - 1, by omega⟩
      rw [show p = scNo from hseg]
      simp [findFrom]
  | cons y ys ih =>
      obtain ⟨fuel, rfl⟩ : ∃ k, fuel = k + 1 := ⟨fuel - 1, by omega⟩
      obtain ⟨rfl, hseg⟩ := hseg
      have hne : p ≠ scNo := by rintro rfl; exact hs (by simp)
      have hxp : x ≠ p := fun heq => hx (by simp [heq])
      rw [findFrom, if_neg hne, if_neg hxp]
      exact ih hseg (fun hm => hs (by simp [hm])) (fun hm => hx (by simp [hm]))
        (by simpa using hf)

end Walks

section Random
variable {w : ℕ} (rand : ℕ)

/-- The counting loop of a random pop, on the queue it is run on. -/
theorem countFrom_popQueue (H : q.Represents a) :
    countFrom q.next w addressSpace q.popQueue 0 = some (a.pop.length % 2 ^ w) := by
  simpa using countFrom_eq (w := w) H.pop_segment H.scNo_notMem_pop H.length_pop_lt 0

/-- A random pop divides by zero when its counter wraps to zero. -/
theorem popRandom_eq_none (H : q.Represents a) (hne : a.pop ≠ [])
    (hw : a.pop.length % 2 ^ w = 0) : q.popRandom w rand = none := by
  have hq : q.popQueue ≠ scNo := fun heq => hne (H.popQueue_eq_scNo_iff.mp heq)
  simp [popRandom, hq, countFrom_popQueue H, hw]

/-- A random pop of an empty queue returns null. -/
theorem popRandom_nil (H : q.Represents a) (hpop : a.pop = []) :
    q.popRandom w rand = some (null, q) := by
  simp [popRandom, H.popQueue_eq_scNo_iff.mpr hpop]

/-- A random pop takes the process at position `rand` modulo what its counter shows. -/
theorem popRandom_counted_spec (H : q.Represents a) (hw : a.pop.length % 2 ^ w ≠ 0) :
    ∃ q', q.popRandom w rand = some ((a.takeAt (rand % (a.pop.length % 2 ^ w))).1, q') ∧
      q'.Represents (a.takeAt (rand % (a.pop.length % 2 ^ w))).2 := by
  have hnil : a.pop ≠ [] := by
    rintro hnil
    simp [hnil] at hw
  obtain ⟨i, hi⟩ : ∃ i, rand % (a.pop.length % 2 ^ w) = i := ⟨_, rfl⟩
  have hlt : i < a.pop.length % 2 ^ w := hi ▸ Nat.mod_lt _ (Nat.pos_of_ne_zero hw)
  have hlen : i < a.pop.length := hlt.trans_le (Nat.mod_le _ _)
  have hiw : i < 2 ^ w := hlt.trans (Nat.mod_lt _ (Nat.two_pow_pos w))
  obtain ⟨pre, x, post, hpop, hpre⟩ : ∃ pre x post, a.pop = pre ++ x :: post ∧
    pre.length = i :=
    ⟨a.pop.take i, a.pop[i], _,
      by rw [List.cons_getElem_drop_succ, List.take_append_drop], by simp [hlen.le]⟩
  have hq : q.popQueue ≠ scNo := fun heq => hnil (H.popQueue_eq_scNo_iff.mp heq)
  have htake : a.takeAt i = (x, { a with pop := pre ++ post }) := by
    rw [Queues.takeAt, ← hpre, hpop]
    simp [List.eraseIdx_append_of_length_le]
  have hwalk : takeAt w i q addressSpace null q.popQueue 0 =
      some (x, q.unlinkPop (pre.getLastD null) x) := by
    refine takeAt_eq (hpop ▸ H.pop_segment) (hpop ▸ H.scNo_notMem_pop) ?_ (by omega) hiw
    exact lt_of_le_of_lt (by rw [hpre]; exact hlen.le) H.length_pop_lt
  refine ⟨q.unlinkPop (pre.getLastD null) x, ?_, ?_⟩
  · rw [popRandom, if_pos hq, countFrom_popQueue H, hi, htake]
    simp only [Option.bind_eq_bind, Option.bind_some, if_neg hw, hi, hwalk]
  · rw [hi, htake]
    exact unlinkPop_spec H hpop

/-- A random pop takes the process at position `rand` modulo the number of queued
processes, when its counter can hold that number. -/
theorem popRandom_spec (H : q.Represents a) (hw : a.pop.length < 2 ^ w) :
    ∃ q', q.popRandom w rand = some ((a.takeAt (rand % a.pop.length)).1, q') ∧
      q'.Represents (a.takeAt (rand % a.pop.length)).2 := by
  by_cases hnil : a.pop = []
  · refine ⟨q, ?_, ?_⟩
    · simp [popRandom_nil rand H hnil, Queues.takeAt, hnil]
    · simpa [Queues.takeAt, hnil] using H
  have hmod : a.pop.length % 2 ^ w = a.pop.length := Nat.mod_eq_of_lt hw
  have hpos : a.pop.length % 2 ^ w ≠ 0 := by simpa [hmod] using hnil
  simpa only [hmod] using popRandom_counted_spec rand H hpos

/-- With a draw of zero a random pop is the ordinary pop. -/
theorem popRandom_zero (H : q.Represents a) (hw : a.pop.length < 2 ^ w)
    (hr : rand % a.pop.length = 0) : q.popRandom w rand = some q.pop := by
  by_cases hq : q.popQueue = scNo
  · simp [popRandom, pop, hq]
  have hlen : a.pop.length ≠ 0 := by
    rw [Ne, List.length_eq_zero_iff]
    exact fun hnil => hq (H.popQueue_eq_scNo_iff.mpr hnil)
  have hfirst : takeAt w 0 q addressSpace null q.popQueue 0 =
      some (q.popQueue, q.unlinkPop null q.popQueue) := by
    obtain ⟨fuel, hfuel⟩ : ∃ k, addressSpace = k + 1 := ⟨addressSpace - 1, rfl⟩
    simp [hfuel, takeAt, hq]
  rw [popRandom, if_pos hq, countFrom_popQueue H, Nat.mod_eq_of_lt hw]
  simp only [Option.bind_eq_bind, Option.bind_some, if_neg hlen, hr, hfirst]
  simp [pop, hq, unlinkPop, setNextRunnable]

end Random

/-- The cells around a queued process of the push queue; some cell stands before
it, at least the dummy head. -/
theorem Represents.push_split (H : q.Represents a) (hpush : h ∈ a.push) :
    ∃ ys u zs, q.pushHead :: a.push = ys ++ u :: h :: zs ∧ h ∉ ys ++ [u] ∧
      a.push.erase h = (ys ++ u :: zs).tail := by
  obtain ⟨pre, zs, hsplit, hpre⟩ :=
    List.eq_append_cons_of_mem (List.mem_cons_of_mem q.pushHead hpush)
  have hhead : q.pushHead ≠ h := (H.process h (by simp [hpush])).2.2.symm
  have herase : q.pushHead :: a.push.erase h = pre ++ zs := by
    rw [← List.erase_cons_tail (by simpa using hhead), hsplit, List.erase_append_right _ hpre,
      List.erase_cons_head]
  rcases List.eq_nil_or_concat pre with rfl | ⟨ys, u, rfl⟩
  · exact absurd (List.cons.inj hsplit).1 hhead
  · refine ⟨ys, u, zs, by simpa using hsplit, by simpa using hpre, ?_⟩
    rw [List.concat_eq_append, List.append_assoc, List.singleton_append] at herase
    rw [← herase, List.tail_cons]

/-- `remove` erases its argument from whichever list holds it. -/
theorem remove_spec (H : q.Represents a) (hp : q.IsProcess h) :
    ∃ q', q.remove h = some q' ∧ q'.Represents (a.remove h) := by
  have hscNo : scNo ∉ q.pushHead :: a.push := by
    simpa [H.scNo_notMem_push] using H.head_ne.2.symm
  have hcells := H.length_cells_lt
  by_cases hpush : h ∈ a.push
  · obtain ⟨ys, u, zs, hsplit, hnot, herase⟩ := H.push_split hpush
    have hpop : h ∉ a.pop := fun hm => H.disjoint hm hpush
    have hsplit' : q.pushHead :: a.push = (ys ++ [u]) ++ h :: zs := by simpa using hsplit
    have hlen : (ys ++ [u]).length < addressSpace := by
      rw [hsplit', List.length_append] at hcells
      omega
    have hfind : findFrom q.next h addressSpace q.pushHead q.pushHead = some (some u) := by
      simpa using findFrom_eq_some q.pushHead (hsplit' ▸ H.push_segment)
        (hsplit' ▸ hscNo) hnot hlen
    refine ⟨q.unlinkPush u h, by simp [remove, hfind], ?_⟩
    rw [Queues.remove, List.erase_of_not_mem hpop, herase]
    exact unlinkPush_spec H hsplit
  have hfind : findFrom q.next h addressSpace q.pushHead q.pushHead = some none :=
    findFrom_eq_none H.push_segment hscNo (by simpa [hpush] using hp.2.2) hcells
  by_cases hpop : h ∈ a.pop
  · obtain ⟨pre, post, hsplit, hpre⟩ := List.eq_append_cons_of_mem hpop
    have hlen : pre.length < addressSpace := by
      have hlt := H.length_pop_lt
      rw [hsplit, List.length_append] at hlt
      omega
    have hfind' : findFrom q.next h addressSpace null q.popQueue =
        some (some (pre.getLastD null)) :=
      findFrom_eq_some null (hsplit ▸ H.pop_segment) (hsplit ▸ H.scNo_notMem_pop) hpre hlen
    refine ⟨q.unlinkPop (pre.getLastD null) h, by simp [remove, hfind, hfind'], ?_⟩
    have herase : a.pop.erase h = pre ++ post := by
      rw [hsplit, List.erase_append_right _ hpre, List.erase_cons_head]
    rw [Queues.remove, List.erase_of_not_mem hpush, herase]
    exact unlinkPop_spec H hsplit
  · have hfind' : findFrom q.next h addressSpace null q.popQueue = some none :=
      findFrom_eq_none H.pop_segment H.scNo_notMem_pop hpop H.length_pop_lt
    refine ⟨q, by simp [remove, hfind, hfind'], ?_⟩
    rw [Queues.remove, List.erase_of_not_mem hpush, List.erase_of_not_mem hpop]
    exact H

section Head
variable {w rand : ℕ} {q' : RunQueue} {x : Handle}

@[simp] theorem pushHead_unlinkPop (q : RunQueue) (prior now : Handle) :
    (q.unlinkPop prior now).pushHead = q.pushHead := by
  unfold unlinkPop
  by_cases h : prior = null <;> simp [h]

@[simp] theorem pushHead_unlinkPush (q : RunQueue) (prior now : Handle) :
    (q.unlinkPush prior now).pushHead = q.pushHead := by
  unfold unlinkPush
  by_cases h : now = q.pushTail <;> simp [h]

theorem pushHead_takeAt {target fuel index : ℕ} {prior now : Handle}
    (h : takeAt w target q fuel prior now index = some (x, q')) :
      q'.pushHead = q.pushHead := by
  induction fuel generalizing prior now index with
  | zero => cases h
  | succ fuel ih =>
      rw [takeAt] at h
      split_ifs at h
      · cases h; rfl
      · cases h; simp
      · exact ih h

/-- No operation moves the dummy head. -/
theorem pushHead_popRandom (h : q.popRandom w rand = some (x, q')) :
    q'.pushHead = q.pushHead := by
  unfold popRandom at h
  split_ifs at h
  · obtain ⟨n, _, h⟩ := Option.bind_eq_some_iff.mp h
    split_ifs at h
    exact pushHead_takeAt h
  · cases h; rfl

theorem pushHead_pop (q : RunQueue) : q.pop.2.pushHead = q.pushHead := by
  unfold pop
  split_ifs <;> rfl

theorem pushHead_remove (h : q.remove x = some q') : q'.pushHead = q.pushHead := by
  obtain ⟨f, _, h⟩ := Option.bind_eq_some_iff.mp h
  cases f with
  | some prior => cases h; simp
  | none =>
      obtain ⟨f', _, h⟩ := Option.bind_eq_some_iff.mp h
      cases f' with
      | some prior => cases h; simp
      | none => cases h; rfl

/-- An empty pop queue stays empty when a process is removed. -/
theorem popQueue_remove (h : q.remove x = some q') (hq : q.popQueue = scNo) :
    q'.popQueue = scNo := by
  obtain ⟨f, _, h⟩ := Option.bind_eq_some_iff.mp h
  cases f with
  | some prior =>
      cases h
      unfold unlinkPush
      split_ifs <;> simpa using hq
  | none =>
      obtain ⟨f', hfind, h⟩ := Option.bind_eq_some_iff.mp h
      have hnone : f' = none := by
        rw [hq] at hfind
        simpa [findFrom_scNo] using hfind.symm
      rw [hnone] at h
      cases h
      exact hq

end Head

end Pscv.Kernel.RunQueue
