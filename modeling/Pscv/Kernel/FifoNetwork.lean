import Pscv.Kernel.Fifo
import Pscv.Lib.Program

/-!
# Threads that communicate by `sc_fifo`

The threads of an evaluation phase run one after the other, each up to its next wait; a
blocking call that has to wait is tried again when its event is notified. Any number of threads
and channels is considered; a channel has one reader and one writer where this is said.

## Main results

* `FifoNetwork.schedule_irrelevant` — the order of the threads in a phase does not matter.
* `FifoNetwork.no_lost_wakeup` — a thread that sleeps could not go on.
-/

namespace Pscv.Kernel

open Pscv.Lib

/-- The calls of a channel that do not wait. -/
inductive FifoCall (C T : Type)
  | nbRead (c : C)
  | nbWrite (c : C) (v : T)
  | numAvailable (c : C)
  | numFree (c : C)

namespace FifoCall
variable {C T : Type}

/-- What a call returns. -/
def Return : FifoCall C T → Type
  | .nbRead _ => Bool × Option T
  | .nbWrite _ _ => Bool
  | .numAvailable _ => ℤ
  | .numFree _ => ℤ

def channel : FifoCall C T → C
  | .nbRead c | .nbWrite c _ | .numAvailable c | .numFree c => c

/-- The interface of the call is that of a reader. -/
def reads : FifoCall C T → Bool
  | .nbRead _ | .numAvailable _ => true
  | .nbWrite _ _ | .numFree _ => false

/-- The call, on its channel. -/
def onFifo [Inhabited T] : (i : FifoCall C T) → Fifo T → i.Return × Fifo T
  | .nbRead _, f => f.nbRead
  | .nbWrite _ v, f => f.nbWrite v
  | .numAvailable _, f => (f.numAvailable, f)
  | .numFree _, f => (f.numFree, f)

/-- The call, on all channels. -/
def act [Inhabited T] [DecidableEq C] (i : FifoCall C T) (s : C → Fifo T) :
    i.Return × (C → Fifo T) :=
  ((i.onFifo (s i.channel)).1, Function.update s i.channel (i.onFifo (s i.channel)).2)

end FifoCall

/-- A thread: its calls of channels and its other waits, and a result. -/
inductive Thread (C T R : Type)
  | halt (r : R)
  | wait (k : Thread C T R)
  | read (c : C) (k : T → Thread C T R)
  | write (c : C) (v : T) (k : Thread C T R)
  | nbRead (c : C) (k : Bool × Option T → Thread C T R)
  | nbWrite (c : C) (v : T) (k : Bool → Thread C T R)
  | numAvailable (c : C) (k : ℤ → Thread C T R)
  | numFree (c : C) (k : ℤ → Thread C T R)

namespace Thread
variable {C T R : Type} [Inhabited T]

/-- What runs up to the next wait; `read` and `write` begin as `nb_read` and `nb_write` do. -/
def code : Thread C T R → Program (FifoCall C T) FifoCall.Return (Thread C T R)
  | .halt r => .ret (.halt r)
  | .wait k => .ret (.wait k)
  | .read c k => .op (.nbRead c) fun (x : Bool × Option T) =>
      if x.1 then (k (x.2.getD default)).code else .ret (.read c k)
  | .write c v k => .op (.nbWrite c v) fun (ok : Bool) =>
      if ok then k.code else .ret (.write c v k)
  | .nbRead c k => .op (.nbRead c) fun (x : Bool × Option T) => (k x).code
  | .nbWrite c v k => .op (.nbWrite c v) fun (ok : Bool) => (k ok).code
  | .numAvailable c k => .op (.numAvailable c) fun (n : ℤ) => (k n).code
  | .numFree c k => .op (.numFree c) fun (n : ℤ) => (k n).code

/-- Where a thread goes on. -/
def resume : Thread C T R → Thread C T R
  | .wait k => k
  | t => t

/-- The thread waits for the event of a channel. -/
def sleeps : Thread C T R → Bool
  | .read _ _ | .write _ _ _ => true
  | _ => false

/-- The event for which a thread waits. -/
def notified (e : C → Fifo.Events) : Thread C T R → Bool
  | .read c _ => (e c).dataWritten
  | .write c _ _ => (e c).dataRead
  | _ => false

end Thread

/-- The channels and the threads, and which of these wait for an event of a channel. -/
structure FifoNetwork (P C T R : Type) where
  fifo : C → Fifo T
  thread : P → Thread C T R
  asleep : P → Bool

namespace FifoNetwork
variable {P C T R : Type} [DecidableEq P] [DecidableEq C] [Inhabited T]

/-- A thread runs. -/
def runThread (S : FifoNetwork P C T R) (p : P) : FifoNetwork P C T R :=
  let (t, fifo) := (S.thread p).resume.code.exec FifoCall.act S.fifo
  ⟨fifo, Function.update S.thread p t, Function.update S.asleep p t.sleeps⟩

/-- The evaluation phase. -/
def evaluate (ps : List P) (S : FifoNetwork P C T R) : FifoNetwork P C T R :=
  ps.foldl runThread S

/-- The update phase, and the notification phase. -/
def notify (S : FifoNetwork P C T R) : (C → Fifo.Events) × FifoNetwork P C T R :=
  let e := fun c => (S.fifo c).updatePhase.1
  (e, ⟨fun c => (S.fifo c).updatePhase.2, S.thread,
    fun p => S.asleep p && !(S.thread p).notified e⟩)

/-- A delta cycle in which the threads `ps` run, and the events of its update phase. -/
def deltaCycle (ps : List P) (S : FifoNetwork P C T R) :
    (C → Fifo.Events) × FifoNetwork P C T R :=
  (S.evaluate ps).notify

/-! ### The calls -/

section Calls
variable {s : C → Fifo T} {p q : P} {reader writer : C → P}

/-- The channels are well-formed. -/
def Fifos (s : C → Fifo T) : Prop := ∀ c, ∃ q, (s c).Represents q

omit [DecidableEq C] in
/-- A call keeps its channel well-formed. -/
theorem onFifo_represents (i : FifoCall C T) {f : Fifo T} {q : Fifo.Channel T}
    (R : f.Represents q) : ∃ q', (i.onFifo f).2.Represents q' := by
  cases i with
  | nbRead c => exact ⟨_, R.read_spec.2⟩
  | nbWrite c v => exact ⟨_, (R.write_spec v).2⟩
  | numAvailable c => exact ⟨q, R⟩
  | numFree c => exact ⟨q, R⟩

theorem act_fifos (i : FifoCall C T) (s : C → Fifo T) (h : Fifos s) : Fifos (i.act s).2 := by
  intro c
  simp only [FifoCall.act]
  by_cases hc : c = i.channel
  · obtain ⟨q, R⟩ := h i.channel
    rw [hc, Function.update_self]
    exact onFifo_represents i R
  · rw [Function.update_of_ne hc]
    exact h c

/-- Calls of two channels. -/
theorem independent_of_ne {i j : FifoCall C T} (h : i.channel ≠ j.channel) :
    Independent FifoCall.act Fifos i j := by
  intro s _
  simp only [FifoCall.act, Function.update_of_ne h, Function.update_of_ne h.symm, true_and]
  exact Function.update_comm h _ _ _

/-- Calls of one channel. -/
theorem independent_of_eq {i j : FifoCall C T} (h : i.channel = j.channel)
    (hfifo : ∀ (f : Fifo T) q, f.Represents q →
      (j.onFifo (i.onFifo f).2).1 = (j.onFifo f).1 ∧
      (i.onFifo (j.onFifo f).2).1 = (i.onFifo f).1 ∧
        (j.onFifo (i.onFifo f).2).2 = (i.onFifo (j.onFifo f).2).2) :
    Independent FifoCall.act Fifos i j := by
  intro s hs
  obtain ⟨q, R⟩ := hs j.channel
  obtain ⟨hj, hi, hstate⟩ := hfifo _ q R
  simp only [FifoCall.act, h, Function.update_self, Function.update_idem]
  exact ⟨hj, hi, by rw [hstate]⟩

/-- The thread that may make the call: a channel has a reader and a writer. -/
def owner (reader writer : C → P) (i : FifoCall C T) : P :=
  if i.reads then reader i.channel else writer i.channel

/-- Calls on the two ends of a channel. -/
theorem independent_of_reads {i j : FifoCall C T} (h : i.channel = j.channel)
    (hi : i.reads = true) (hj : j.reads = false) : Independent FifoCall.act Fifos i j := by
  refine independent_of_eq h fun f q R => ?_
  cases i with
  | nbRead c =>
      cases j with
      | nbWrite d v =>
          obtain ⟨hread, hwrite, hstate⟩ := R.nbRead_nbWrite v
          exact ⟨hwrite, hread, hstate.symm⟩
      | numFree d => exact ⟨f.numFree_nbRead, rfl, rfl⟩
      | nbRead d => cases hj
      | numAvailable d => cases hj
  | numAvailable c =>
      cases j with
      | nbWrite d v => exact ⟨rfl, f.numAvailable_nbWrite v, rfl⟩
      | numFree d => exact ⟨rfl, rfl, rfl⟩
      | nbRead d => cases hj
      | numAvailable d => cases hj
  | nbWrite c v => cases hi
  | numFree c => cases hi

omit [DecidableEq P] in
/-- **Calls of two threads.** -/
theorem independent_of_owner {i j : FifoCall C T}
    (h : owner reader writer i ≠ owner reader writer j) :
    Independent FifoCall.act Fifos i j := by
  by_cases hc : i.channel = j.channel
  · rw [owner, owner, hc] at h
    cases hi : i.reads <;> cases hj : j.reads
    · simp [hi, hj] at h
    · exact (independent_of_reads hc.symm hj hi).symm
    · exact independent_of_reads hc hi hj
    · simp [hi, hj] at h
  · exact independent_of_ne hc

end Calls

end FifoNetwork

/-! ### The order of the threads -/

namespace Thread
variable {P C T R : Type} [DecidableEq C] [Inhabited T] {reader writer : C → P} {p : P}

/-- Every channel that the thread reads has `p` as its reader, and every channel that it writes
has `p` as its writer. -/
def Obeys (reader writer : C → P) (p : P) : Thread C T R → Prop
  | .halt _ => True
  | .wait k => k.Obeys reader writer p
  | .read c k => reader c = p ∧ ∀ x, (k x).Obeys reader writer p
  | .write c _ k => writer c = p ∧ k.Obeys reader writer p
  | .nbRead c k => reader c = p ∧ ∀ x, (k x).Obeys reader writer p
  | .nbWrite c _ k => writer c = p ∧ ∀ ok, (k ok).Obeys reader writer p
  | .numAvailable c k => reader c = p ∧ ∀ n, (k n).Obeys reader writer p
  | .numFree c k => writer c = p ∧ ∀ n, (k n).Obeys reader writer p

omit [DecidableEq C] [Inhabited T] in
theorem Obeys.resume {t : Thread C T R} (h : t.Obeys reader writer p) :
    t.resume.Obeys reader writer p := by
  cases t <;> exact h

omit [DecidableEq C] in
/-- The calls of a thread. -/
theorem Obeys.owner_eq {t : Thread C T R} (h : t.Obeys reader writer p) {i : FifoCall C T}
    (hi : t.code.Uses i) : FifoNetwork.owner reader writer i = p := by
  induction t with
  | halt r => exact (Program.not_uses_ret hi).elim
  | wait k => exact (Program.not_uses_ret hi).elim
  | read c k ih =>
      rcases Program.uses_op_iff.mp hi with rfl | ⟨x, hi⟩
      · exact h.1
      · split_ifs at hi
        · exact ih _ (h.2 _) hi
        · exact (Program.not_uses_ret hi).elim
  | write c v k ih =>
      rcases Program.uses_op_iff.mp hi with rfl | ⟨ok, hi⟩
      · exact h.1
      · split_ifs at hi
        · exact ih h.2 hi
        · exact (Program.not_uses_ret hi).elim
  | nbRead c k ih | nbWrite c v k ih | numAvailable c k ih | numFree c k ih =>
      rcases Program.uses_op_iff.mp hi with rfl | ⟨x, hi⟩
      · exact h.1
      · exact ih x (h.2 x) hi

/-- What is left of a thread. -/
theorem Obeys.exec {t : Thread C T R} (h : t.Obeys reader writer p) (s : C → Fifo T) :
    (t.code.exec FifoCall.act s).1.Obeys reader writer p := by
  induction t generalizing s with
  | halt r => exact h
  | wait k => exact h
  | read c k ih =>
      simp only [code, Program.exec]
      split_ifs
      · exact ih _ (h.2 _) _
      · exact h
  | write c v k ih =>
      simp only [code, Program.exec]
      split_ifs
      · exact ih h.2 _
      · exact h
  | nbRead c k ih | nbWrite c v k ih | numAvailable c k ih | numFree c k ih =>
      exact ih _ (h.2 _) _

end Thread

namespace FifoNetwork
variable {P C T R : Type} [DecidableEq P] [DecidableEq C] [Inhabited T] {reader writer : C → P}
  {S : FifoNetwork P C T R} {p q : P}

/-- The channels are well-formed, and the threads obey the rule of one reader and one writer.
-/
structure Good (reader writer : C → P) (S : FifoNetwork P C T R) : Prop where
  fifos : Fifos S.fifo
  obeys : ∀ p, (S.thread p).Obeys reader writer p

theorem runThread_good (h : S.Good reader writer) (p : P) :
    (S.runThread p).Good reader writer := by
  refine ⟨Program.exec_inv act_fifos h.fifos, fun q => ?_⟩
  by_cases hq : q = p
  · subst hq
    simp only [runThread, Function.update_self]
    exact (h.obeys q).resume.exec S.fifo
  · simp only [runThread, Function.update_of_ne hq]
    exact h.obeys q

/-- **Two threads** can run in either order. -/
theorem runThread_comm (h : S.Good reader writer) (hne : p ≠ q) :
    (S.runThread p).runThread q = (S.runThread q).runThread p := by
  have howner : ∀ i j, (S.thread p).resume.code.Uses i → (S.thread q).resume.code.Uses j →
      owner reader writer i ≠ owner reader writer j := by
    intro i j hi hj
    rw [(h.obeys p).resume.owner_eq hi, (h.obeys q).resume.owner_eq hj]
    exact hne
  obtain ⟨hq, hp, hstate⟩ := Program.exec_independent act_fifos
    (fun i j hi hj => independent_of_owner (howner i j hi hj)) h.fifos
  simp only [runThread, Function.update_of_ne hne, Function.update_of_ne hne.symm, hq, hp,
    hstate]
  rw [Function.update_comm hne, Function.update_comm hne]

theorem evaluate_good (h : S.Good reader writer) (ps : List P) :
    (S.evaluate ps).Good reader writer := by
  rw [evaluate]
  induction ps generalizing S with
  | nil => exact h
  | cons p ps ih => exact ih (runThread_good h p)

omit [DecidableEq P] [DecidableEq C] [Inhabited T] in
theorem notify_good (h : S.Good reader writer) : S.notify.2.Good reader writer := by
  refine ⟨fun c => ?_, h.obeys⟩
  obtain ⟨q, R⟩ := h.fifos c
  exact ⟨_, R.update_spec.2⟩

theorem deltaCycle_good (h : S.Good reader writer) (ps : List P) :
    (S.deltaCycle ps).2.Good reader writer := notify_good (evaluate_good h ps)

theorem deltaCycle_perm (h : S.Good reader writer) {ps ps' : List P} (hps : ps.Perm ps') :
    S.deltaCycle ps = S.deltaCycle ps' := by
  rw [deltaCycle, deltaCycle, evaluate, evaluate, foldl_perm (fun S p h => runThread_good h p)
    (fun p q S hne h => runThread_comm h hne) hps h]

/-- **The order of the threads does not matter.** When every channel has one reader and one
writer, two simulations whose phases run the same threads are the same, cycle by cycle: the
same values are read, also by the calls that do not wait, the same events are notified, and the
channels and the threads are in the same states. -/
theorem schedule_irrelevant (h : S.Good reader writer) {pss pss' : List (List P)}
    (hpss : List.Forall₂ List.Perm pss pss') :
    runTotal deltaCycle pss S = runTotal deltaCycle pss' S := by
  induction hpss generalizing S with
  | nil => rfl
  | cons hps _ ih =>
      rw [runTotal, runTotal, deltaCycle_perm h hps, ih (deltaCycle_good h _)]

/-- A producer of three values and their consumer, with a channel of two places. -/
def pair : FifoNetwork Bool Unit ℕ ℕ where
  fifo _ := ⟨2, fun _ => 0, 2, 0, 0, 0, 0, 0, false⟩
  thread p :=
    if p then .read () fun x => .read () fun y => .read () fun z =>
      .halt (100 * x + 10 * y + z)
    else .write () 1 (.write () 2 (.write () 3 (.halt 0)))
  asleep _ := false

theorem pair_obeys (p : Bool) :
    (pair.thread p).Obeys (fun _ => true) (fun _ => false) p := by
  cases p
  · exact ⟨rfl, rfl, rfl, trivial⟩
  · exact ⟨rfl, fun _ => ⟨rfl, fun _ => ⟨rfl, fun _ => trivial⟩⟩⟩

theorem pair_good : pair.Good (fun _ => true) (fun _ => false) := by
  have hinit : ∀ c, Fifo.init (fun _ => 0) 2 = some (pair.fifo c) := fun _ => rfl
  exact ⟨fun c => ⟨_, Fifo.init_represents (hinit c)⟩, pair_obeys⟩

theorem schedule_irrelevant_pair :
    runTotal deltaCycle [[true, false], [true], [false]] pair =
      runTotal deltaCycle [[false, true], [true], [false]] pair :=
  schedule_irrelevant pair_good
    (.cons (.swap false true []) (.cons (.refl _) (.cons (.refl _) .nil)))

end FifoNetwork

/-! ### Sleeping threads -/

namespace Thread
variable {C T R : Type} {s : C → Fifo T}

/-- A thread that cannot go on. -/
def Blocked (s : C → Fifo T) : Thread C T R → Prop
  | .read c _ => (s c).numAvailable = 0
  | .write c _ _ => (s c).numFree = 0
  | _ => False

variable [DecidableEq C] [Inhabited T]

/-- No call of this phase unblocks a thread. -/
theorem Blocked.act {t : Thread C T R} (h : t.Blocked s) (i : FifoCall C T) :
    t.Blocked (i.act s).2 := by
  have hread : ∀ f : Fifo T, f.numAvailable = 0 → (i.onFifo f).2.numAvailable = 0 := by
    intro f hf
    cases i with
    | nbRead c => rw [FifoCall.onFifo, Fifo.nbRead_of_eq hf]; exact hf
    | nbWrite c v => exact (f.numAvailable_nbWrite v).trans hf
    | numAvailable c => exact hf
    | numFree c => exact hf
  have hwrite : ∀ f : Fifo T, f.numFree = 0 → (i.onFifo f).2.numFree = 0 := by
    intro f hf
    cases i with
    | nbRead c => exact f.numFree_nbRead.trans hf
    | nbWrite c v => rw [FifoCall.onFifo, Fifo.nbWrite_of_eq hf]; exact hf
    | numAvailable c => exact hf
    | numFree c => exact hf
  have hother : ∀ (Q : Fifo T → Prop) c, (∀ f, Q f → Q (i.onFifo f).2) → Q (s c) →
      Q ((i.act s).2 c) := by
    intro Q c hQ hc
    simp only [FifoCall.act]
    by_cases hi : c = i.channel
    · subst hi
      rw [Function.update_self]
      exact hQ _ hc
    · rwa [Function.update_of_ne hi]
  cases t with
  | read c k => exact hother _ c hread h
  | write c v k => exact hother _ c hwrite h
  | halt | wait | nbRead | nbWrite | numAvailable | numFree => exact h.elim

/-- A thread that has run, and sleeps. -/
theorem blocked_exec (t : Thread C T R) (s : C → Fifo T)
    (h : (t.code.exec FifoCall.act s).1.sleeps = true) :
    (t.code.exec FifoCall.act s).1.Blocked (t.code.exec FifoCall.act s).2 := by
  induction t generalizing s with
  | halt r => cases h
  | wait k => cases h
  | read c k ih =>
      simp only [code, Program.exec] at h ⊢
      split_ifs at h ⊢ with hok
      · exact ih _ _ h
      · have hnone : (s c).numAvailable = 0 := by
          by_contra hne
          exact hok (Fifo.nbRead_fst_iff.mpr hne)
        exact Blocked.act (t := .read c k) hnone _
  | write c v k ih =>
      simp only [code, Program.exec] at h ⊢
      split_ifs at h ⊢ with hok
      · exact ih _ h
      · have hfull : (s c).numFree = 0 := by
          by_contra hne
          exact hok ((Fifo.nbWrite_fst_iff v).mpr hne)
        exact Blocked.act (t := .write c v k) hfull _
  | nbRead c k ih | nbWrite c v k ih | numAvailable c k ih | numFree c k ih => exact ih _ _ h

end Thread

namespace FifoNetwork
variable {P C T R : Type} [DecidableEq P] [DecidableEq C] [Inhabited T]
    {S : FifoNetwork P C T R}

/-- A thread that sleeps cannot go on. -/
def Sound (S : FifoNetwork P C T R) : Prop :=
  ∀ p, S.asleep p = true → (S.thread p).Blocked S.fifo

theorem runThread_sound (h : S.Sound) (p : P) : (S.runThread p).Sound := by
  intro q hq
  by_cases hne : q = p
  · subst hne
    simp only [runThread, Function.update_self] at hq ⊢
    exact Thread.blocked_exec _ _ hq
  · simp only [runThread, Function.update_of_ne hne] at hq ⊢
    have hact : ∀ (i : FifoCall C T) s, (S.thread q).Blocked s →
      (S.thread q).Blocked (i.act s).2 :=
      fun i s hs => hs.act i
    exact Program.exec_inv hact (h q hq)

theorem evaluate_sound (h : S.Sound) (ps : List P) : (S.evaluate ps).Sound := by
  rw [evaluate]
  induction ps generalizing S with
  | nil => exact h
  | cons p ps ih => exact ih (runThread_sound h p)

/-- Between delta cycles all values can be read, and all other places are free. -/
def Rested (s : C → Fifo T) : Prop := ∀ c, ∃ size l, (s c).Represents ⟨size, l, 0, []⟩

omit [DecidableEq P] [DecidableEq C] [Inhabited T] in
theorem notify_rested (h : Fifos S.fifo) : Rested S.notify.2.fifo := by
  intro c
  obtain ⟨q, R⟩ := h c
  exact ⟨_, _, R.update_spec.2⟩

omit [DecidableEq P] [DecidableEq C] [Inhabited T] in
/-- A thread that is not notified still cannot go on. -/
theorem notify_sound (hfifos : Fifos S.fifo) (h : S.Sound) : S.notify.2.Sound := by
  intro p hp
  obtain ⟨hasleep, hnot⟩ := Bool.and_eq_true_iff.mp hp
  have hblocked := h p hasleep
  change (S.thread p).Blocked fun c => (S.fifo c).updatePhase.2
  cases ht : S.thread p with
  | read c k =>
      obtain ⟨q, R⟩ := hfifos c
      rw [ht] at hblocked hnot
      exact R.numAvailable_updatePhase hblocked (Bool.not_eq_true' _ |>.mp hnot)
  | write c v k =>
      obtain ⟨q, R⟩ := hfifos c
      rw [ht] at hblocked hnot
      exact R.numFree_updatePhase hblocked (Bool.not_eq_true' _ |>.mp hnot)
  | halt | wait | nbRead | nbWrite | numAvailable | numFree =>
      rw [ht] at hblocked
      exact hblocked.elim

/-- The channels are new, and no thread sleeps. -/
structure Fresh (S : FifoNetwork P C T R) : Prop where
  init : ∀ c, ∃ memory size, Fifo.init memory size = some (S.fifo c)
  awake : ∀ p, S.asleep p = false

omit [DecidableEq P] [DecidableEq C] [Inhabited T] in
theorem Fresh.rested (h : S.Fresh) : Rested S.fifo := by
  intro c
  obtain ⟨memory, size, hinit⟩ := h.init c
  exact ⟨_, _, Fifo.init_represents hinit⟩

omit [DecidableEq P] [DecidableEq C] [Inhabited T] in
theorem Rested.fifos {s : C → Fifo T} (h : Rested s) : Fifos s := fun c => by
  obtain ⟨size, l, R⟩ := h c
  exact ⟨_, R⟩

theorem evaluate_fifos (h : Fifos S.fifo) (ps : List P) : Fifos (S.evaluate ps).fifo := by
  rw [evaluate]
  induction ps generalizing S with
  | nil => exact h
  | cons p ps ih => exact ih (Program.exec_inv act_fifos h)

/-- What holds between delta cycles. -/
theorem run_sound_rested (h : S.Fresh) (pss : List (List P)) :
    (runTotal deltaCycle pss S).2.Sound ∧ Rested (runTotal deltaCycle pss S).2.fifo := by
  have hrun : ∀ S : FifoNetwork P C T R, S.Sound → Rested S.fifo →
      (runTotal deltaCycle pss S).2.Sound ∧ Rested (runTotal deltaCycle pss S).2.fifo := by
    induction pss with
    | nil => exact fun S hsound hrested => ⟨hsound, hrested⟩
    | cons ps pss ih =>
        intro S hsound hrested
        have hfifos := evaluate_fifos hrested.fifos ps
        exact ih _ (notify_sound hfifos (evaluate_sound hsound ps)) (notify_rested hfifos)
  exact hrun S (fun p hp => by simp [h.awake p] at hp) h.rested

/-- **No wake-up is lost.** After every run, whatever the threads are and however many of them
share a channel, a thread that sleeps could not go on if it ran: there is nothing to read, or
no place to write. So no two threads sleep at the two ends of one channel. -/
theorem no_lost_wakeup (h : S.Fresh) (pss : List (List P)) {S' : FifoNetwork P C T R}
    (hrun : (runTotal deltaCycle pss S).2 = S') :
    (∀ p, S'.asleep p = true → (S'.thread p).Blocked S'.fifo) ∧
      ∀ p q c k v k', S'.asleep p = true → S'.asleep q = true → S'.thread p = .read c k →
        S'.thread q ≠ .write c v k' := by
  subst hrun
  obtain ⟨hsound, hrested⟩ := run_sound_rested h pss
  refine ⟨hsound, fun p q c k v k' hp hq hread hwrite => ?_⟩
  have hempty := hsound p hp
  have hfull := hsound q hq
  rw [hread] at hempty
  rw [hwrite] at hfull
  obtain ⟨size, l, R⟩ := hrested c
  have hempty : (l.length : ℤ) = 0 := R.numAvailable_eq.symm.trans hempty
  have hfull : ¬ 0 + l.length + 0 < size := R.numFree_eq_zero_iff.mp hfull
  have hsize : 0 < size := Nat.zero_lt_of_lt (R.size ▸ R.ring.ri)
  omega

theorem pair_fresh : pair.Fresh := ⟨fun _ => ⟨fun _ => 0, 2, rfl⟩, fun _ => rfl⟩

/-- The producer has no place for its third value, and the consumer has been woken. -/
theorem no_lost_wakeup_pair :
    (runTotal deltaCycle [[true, false]] pair).2.asleep true = false ∧
      (runTotal deltaCycle [[true, false]] pair).2.asleep false = true ∧
      ((runTotal deltaCycle [[true, false]] pair).2.fifo ()).numFree = 0 :=
  ⟨rfl, rfl, (no_lost_wakeup pair_fresh [[true, false]] rfl).1 false rfl⟩

end FifoNetwork
end Pscv.Kernel
