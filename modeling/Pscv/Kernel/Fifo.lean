import Mathlib.Data.Int.Basic
import Pscv.Lib.Machine
import Pscv.Lib.Ring

/-!
# `sc_fifo`

The values are in a ring buffer. A value that is written can be read from the next update phase
on, and the place of a value that is read is free from then on: `m_num_readable` stays during
an evaluation phase, and the values that are read and written in it are counted. The value that
`buf_write` and `buf_read` return is ignored.

## Main results

* `Fifo.read_spec`, `Fifo.write_spec`, `Fifo.update_spec` — one operation.
* `Fifo.fifo_run` — the channel is a bounded queue with a stage for the values of one phase.
* `Fifo.nbRead_nbWrite` — a reader and a writer do not notice each other in a phase.
-/

namespace Pscv.Kernel

open Pscv.Lib

/-- `sc_fifo`; `requested` is whether it is linked into the list of the update phase. -/
structure Fifo (T : Type) where
  size : ℕ
  buf : ℕ → T
  free : ℕ
  ri : ℕ
  wi : ℕ
  numReadable : ℕ
  numRead : ℕ
  numWritten : ℕ
  requested : Bool

namespace Fifo

/-- The events that are notified. -/
structure Events where
  dataRead : Bool
  dataWritten : Bool
  deriving DecidableEq

section Source
variable {T : Type} [Inhabited T]

/-- `init`, with what the memory holds; a size that is not positive is an error. -/
def init (memory : ℕ → T) (size : ℤ) : Option (Fifo T) :=
  if size ≤ 0 then none else some ⟨size.toNat, memory, size.toNat, 0, 0, 0, 0, 0, false⟩

/-- `num_available`. -/
def numAvailable (f : Fifo T) : ℤ := f.numReadable - f.numRead

/-- `num_free`. -/
def numFree (f : Fifo T) : ℤ := f.size - f.numReadable - f.numWritten

/-- `buf_write`. -/
def bufWrite (v : T) (f : Fifo T) : Bool × Fifo T :=
  if f.free = 0 then (false, f)
  else (true, { f with
    buf := Function.update f.buf f.wi v
    wi := (f.wi + 1) % f.size
    free := f.free - 1 })

/-- `buf_read`, and what is assigned to its argument; the cell is cleared. -/
def bufRead (f : Fifo T) : Option T × Fifo T :=
  if f.free = f.size then (none, f)
  else (some (f.buf f.ri), { f with
    buf := Function.update f.buf f.ri default
    ri := (f.ri + 1) % f.size
    free := f.free + 1 })

/-- `nb_read`: what it returns, and what it assigns. -/
def nbRead (f : Fifo T) : (Bool × Option T) × Fifo T :=
  if f.numAvailable = 0 then ((false, none), f)
  else
    let (x, f) := bufRead { f with numRead := f.numRead + 1 }
    ((true, x), { f with requested := true })

/-- `nb_write`. -/
def nbWrite (v : T) (f : Fifo T) : Bool × Fifo T :=
  if f.numFree = 0 then (false, f)
  else
    let (_, f) := bufWrite v { f with numWritten := f.numWritten + 1 }
    (true, { f with requested := true })

/-- `update`. -/
def update (f : Fifo T) : Events × Fifo T :=
  (⟨decide (0 < f.numRead), decide (0 < f.numWritten)⟩,
    { f with numReadable := f.size - f.free, numRead := 0, numWritten := 0 })

/-- The update phase, as far as this channel is concerned. -/
def updatePhase (f : Fifo T) : Events × Fifo T :=
  if f.requested then update { f with requested := false } else (⟨false, false⟩, f)

/-- The `do` loop of `print`; `none` is a loop that does not end. -/
def printLoop (f : Fifo T) : ℕ → ℕ → Option (List T)
  | 0, _ => none
  | n + 1, i =>
      let j := (i + 1) % f.size
      if j ≠ f.wi then (f.buf i :: ·) <$> printLoop f n j else some [f.buf i]

/-- `print`. -/
def print (n : ℕ) (f : Fifo T) : Option (List T) :=
  if f.free ≠ f.size then printLoop f n f.ri else some []

end Source

/-- The calls of a channel. -/
inductive Op (T : Type)
  | nbRead
  | nbWrite (v : T)
  | updatePhase

/-- What a call returns. -/
inductive Answer (T : Type)
  | read (ok : Bool) (x : Option T)
  | written (ok : Bool)
  | events (e : Events)

variable {T : Type} [Inhabited T]

/-- One call. -/
def step : Op T → Fifo T → Option (Answer T × Fifo T)
  | .nbRead, f => some (.read f.nbRead.1.1 f.nbRead.1.2, f.nbRead.2)
  | .nbWrite v, f => some (.written (f.nbWrite v).1, (f.nbWrite v).2)
  | .updatePhase, f => some (.events f.updatePhase.1, f.updatePhase.2)

/-! ### The queue -/

/-- A bounded queue: the values that can be read, the number of those that have been read since
the last update, and the values written since. -/
structure Channel (T : Type) where
  size : ℕ
  unread : List T
  taken : ℕ
  written : List T

namespace Channel

/-- A value is read. -/
def read (q : Channel T) : Answer T × Channel T :=
  match q.unread with
  | [] => (.read false none, q)
  | x :: unread => (.read true (some x), { q with unread := unread, taken := q.taken + 1 })

/-- A value is written, when there is a place that was free at the last update. -/
def write (v : T) (q : Channel T) : Answer T × Channel T :=
  if q.taken + q.unread.length + q.written.length < q.size then
    (.written true, { q with written := q.written ++ [v] })
  else (.written false, q)

/-- The update makes the written values readable and the places of the others free. -/
def update (q : Channel T) : Answer T × Channel T :=
  (.events ⟨decide (0 < q.taken), decide (q.written ≠ [])⟩,
    ⟨q.size, q.unread ++ q.written, 0, []⟩)

def step : Op T → Channel T → Answer T × Channel T
  | .nbRead, q => q.read
  | .nbWrite v, q => q.write v
  | .updatePhase, q => q.update

end Channel

/-- The values `l` are in the ring. -/
structure Ring (f : Fifo T) (l : List T) : Prop where
  ri : f.ri < f.size
  wi : f.wi = (f.ri + l.length) % f.size
  free : f.free + l.length = f.size
  window : window f.buf f.size f.ri l.length = l

omit [Inhabited T] in
theorem Channel.read_room (q : Channel T) :
    q.read.2.taken + q.read.2.unread.length + q.read.2.written.length =
      q.taken + q.unread.length + q.written.length ∧ q.read.2.size = q.size := by
  rw [read]
  cases hunread : q.unread with
  | nil => simp [hunread]
  | cons x u =>
      refine ⟨?_, rfl⟩
      change q.taken + 1 + u.length + q.written.length = _
      rw [List.length_cons]
      omega

/-- The values are in the ring, and the counters tell the stages apart. -/
structure Represents (f : Fifo T) (q : Channel T) : Prop where
  size : f.size = q.size
  ring : f.Ring (q.unread ++ q.written)
  numRead : f.numRead = q.taken
  numReadable : f.numReadable = q.taken + q.unread.length
  numWritten : f.numWritten = q.written.length
  bounded : q.taken + q.unread.length + q.written.length ≤ q.size
  requested : f.requested = false → q.taken = 0 ∧ q.written = []

variable {f : Fifo T} {q : Channel T} {l : List T} {x : T}

/-- `buf_read`, when there is a value. -/
theorem bufRead_spec (H : f.Ring (x :: l)) :
    f.bufRead = (some x, { f with
      buf := Function.update f.buf f.ri default
      ri := (f.ri + 1) % f.size
      free := f.free + 1 }) ∧ f.bufRead.2.Ring l := by
  have hlen := H.free
  have hwindow := H.window
  rw [List.length_cons] at hlen
  rw [List.length_cons, window_cons, Nat.mod_eq_of_lt H.ri] at hwindow
  obtain ⟨hx, hl⟩ := List.cons.inj hwindow
  rw [bufRead, if_neg (by omega), hx]
  refine ⟨rfl, Nat.mod_lt _ (by omega), ?_, ?_, ?_⟩
  · change f.wi = ((f.ri + 1) % f.size + l.length) % f.size
    rw [H.wi, List.length_cons, Nat.mod_add_mod, Nat.add_assoc, Nat.add_comm 1]
  · change f.free + 1 + l.length = f.size
    omega
  · change window (Function.update f.buf f.ri default) f.size
      ((f.ri + 1) % f.size) l.length = l
    have hpop := window_pop f.buf f.ri (show l.length < f.size by omega) default
    rw [Nat.mod_eq_of_lt H.ri] at hpop
    rw [window_mod, hpop, hl]

omit [Inhabited T] in
/-- `buf_write`, when there is a free cell. -/
theorem bufWrite_spec (H : f.Ring l) (h : l.length < f.size) (v : T) :
    f.bufWrite v = (true, { f with
      buf := Function.update f.buf f.wi v
      wi := (f.wi + 1) % f.size
      free := f.free - 1 }) ∧ (f.bufWrite v).2.Ring (l ++ [v]) := by
  have hlen := H.free
  rw [bufWrite, if_neg (by omega)]
  refine ⟨rfl, H.ri, ?_, ?_, ?_⟩
  · change (f.wi + 1) % f.size = (f.ri + (l ++ [v]).length) % f.size
    rw [H.wi, List.length_append, List.length_singleton, Nat.mod_add_mod, Nat.add_assoc]
  · change f.free - 1 + (l ++ [v]).length = f.size
    rw [List.length_append, List.length_singleton]
    omega
  · change window (Function.update f.buf f.wi v) f.size f.ri (l ++ [v]).length = l ++ [v]
    rw [List.length_append, List.length_singleton, H.wi, window_push h, H.window]

omit [Inhabited T] in
theorem init_represents {memory : ℕ → T} {size : ℤ} (h : init memory size = some f) :
    f.Represents ⟨size.toNat, [], 0, []⟩ := by
  rw [init] at h
  split_ifs at h with hsize
  obtain rfl := Option.some.inj h
  have hpos : 0 < size.toNat := by omega
  exact ⟨rfl, ⟨hpos, (Nat.zero_mod _).symm, rfl, rfl⟩, rfl, rfl, rfl, Nat.zero_le _,
    fun _ => ⟨rfl, rfl⟩⟩

/-- Reading frees no place for this phase. -/
theorem numFree_nbRead (f : Fifo T) : f.nbRead.2.numFree = f.numFree := by
  rw [nbRead]
  split_ifs
  · rfl
  · rw [bufRead]
    split_ifs <;> rfl

omit [Inhabited T] in
/-- Writing gives nothing to read in this phase. -/
theorem numAvailable_nbWrite (v : T) (f : Fifo T) :
    (f.nbWrite v).2.numAvailable = f.numAvailable := by
  rw [nbWrite]
  split_ifs
  · rfl
  · rw [bufWrite]
    split_ifs <;> rfl

/-- A read that has no value changes nothing. -/
theorem nbRead_of_eq (h : f.numAvailable = 0) : f.nbRead = ((false, none), f) := if_pos h

omit [Inhabited T] in
theorem nbWrite_of_eq (h : f.numFree = 0) (v : T) : f.nbWrite v = (false, f) := if_pos h

theorem nbRead_fst_iff : f.nbRead.1.1 = true ↔ f.numAvailable ≠ 0 := by
  rw [nbRead]
  split_ifs with h <;> simp [h]

omit [Inhabited T] in
theorem nbWrite_fst_iff (v : T) : (f.nbWrite v).1 = true ↔ f.numFree ≠ 0 := by
  rw [nbWrite]
  split_ifs with h <;> simp [h]

omit [Inhabited T] in
theorem Represents.size_pos (R : f.Represents q) : 0 < q.size := by
  rw [← R.size]
  exact Nat.zero_lt_of_lt R.ring.ri

namespace Represents

omit [Inhabited T] in
theorem numAvailable_eq (R : f.Represents q) : f.numAvailable = q.unread.length := by
  rw [numAvailable, R.numReadable, R.numRead]
  omega

omit [Inhabited T] in
/-- A value may be written exactly when there is a free place. -/
theorem numFree_eq_zero_iff (R : f.Represents q) :
    f.numFree = 0 ↔ ¬ q.taken + q.unread.length + q.written.length < q.size := by
  have := R.bounded
  rw [numFree, R.size, R.numReadable, R.numWritten]
  omega

/-- `nb_read`, when there is a value. -/
theorem nbRead_eq (R : f.Represents q) {u : List T} (h : q.unread = x :: u) :
    f.nbRead = ((true, some x), { f with
      buf := Function.update f.buf f.ri default
      ri := (f.ri + 1) % f.size
      free := f.free + 1
      numRead := f.numRead + 1
      requested := true }) ∧ f.nbRead.2.Ring (u ++ q.written) := by
  have hsome : f.numAvailable ≠ 0 := by
    rw [R.numAvailable_eq, h, List.length_cons]
    omega
  have H : Ring { f with numRead := f.numRead + 1 } (x :: (u ++ q.written)) := by
    have hring := R.ring
    rw [h] at hring
    exact ⟨hring.ri, hring.wi, hring.free, hring.window⟩
  obtain ⟨hread, H'⟩ := bufRead_spec H
  rw [hread] at H'
  rw [nbRead, if_neg hsome, hread]
  exact ⟨rfl, H'.ri, H'.wi, H'.free, H'.window⟩

omit [Inhabited T] in
/-- `nb_write`, when there is a place. -/
theorem nbWrite_eq (R : f.Represents q)
    (h : q.taken + q.unread.length + q.written.length < q.size) (v : T) :
    f.nbWrite v = (true, { f with
      buf := Function.update f.buf f.wi v
      wi := (f.wi + 1) % f.size
      free := f.free - 1
      numWritten := f.numWritten + 1
      requested := true }) ∧ (f.nbWrite v).2.Ring (q.unread ++ (q.written ++ [v])) := by
  have H : Ring { f with numWritten := f.numWritten + 1 } (q.unread ++ q.written) :=
    ⟨R.ring.ri, R.ring.wi, R.ring.free, R.ring.window⟩
  have hlen : (q.unread ++ q.written).length < f.size := by
    rw [List.length_append, R.size]
    omega
  obtain ⟨hwrite, H'⟩ := bufWrite_spec H hlen v
  rw [hwrite, List.append_assoc] at H'
  rw [nbWrite, if_neg fun hfull => R.numFree_eq_zero_iff.mp hfull h, hwrite]
  exact ⟨rfl, H'.ri, H'.wi, H'.free, H'.window⟩

/-- `nb_read`. -/
theorem read_spec (R : f.Represents q) :
    .read f.nbRead.1.1 f.nbRead.1.2 = q.read.1 ∧ f.nbRead.2.Represents q.read.2 := by
  rw [Channel.read]
  cases hunread : q.unread with
  | nil =>
      have hnone : f.nbRead = ((false, none), f) :=
        nbRead_of_eq (by simp [R.numAvailable_eq, hunread])
      rw [hnone]
      exact ⟨rfl, R⟩
  | cons x u =>
      obtain ⟨hread, H⟩ := R.nbRead_eq hunread
      have hreadable := R.numReadable
      have hbounded := R.bounded
      rw [hunread, List.length_cons] at hreadable hbounded
      rw [hread] at H ⊢
      refine ⟨rfl, R.size, H, congrArg (· + 1) R.numRead, ?_, R.numWritten, ?_, by simp⟩
      · change f.numReadable = q.taken + 1 + u.length
        omega
      · change q.taken + 1 + u.length + q.written.length ≤ q.size
        omega

omit [Inhabited T] in
/-- `nb_write`. -/
theorem write_spec (R : f.Represents q) (v : T) :
    .written (f.nbWrite v).1 = (q.write v).1 ∧ (f.nbWrite v).2.Represents (q.write v).2 := by
  rw [Channel.write]
  split_ifs with hroom
  · obtain ⟨hwrite, H⟩ := R.nbWrite_eq hroom v
    rw [hwrite] at H ⊢
    refine ⟨rfl, R.size, H, R.numRead, R.numReadable, ?_, ?_, by simp⟩
    · change f.numWritten + 1 = (q.written ++ [v]).length
      rw [R.numWritten, List.length_append, List.length_singleton]
    · change q.taken + q.unread.length + (q.written ++ [v]).length ≤ q.size
      rw [List.length_append, List.length_singleton]
      omega
  · have hfull : f.nbWrite v = (false, f) := nbWrite_of_eq (R.numFree_eq_zero_iff.mpr hroom) v
    rw [hfull]
    exact ⟨rfl, R⟩

omit [Inhabited T] in
/-- `update`, which a channel without a request does not need. -/
theorem update_spec (R : f.Represents q) :
    .events f.updatePhase.1 = q.update.1 ∧ f.updatePhase.2.Represents q.update.2 := by
  have hfree := R.ring.free
  have hbounded := R.bounded
  have hreadable := R.numReadable
  have hsize := R.size
  rw [List.length_append] at hfree
  have hwritten : 0 < f.numWritten ↔ q.written ≠ [] := by
    rw [R.numWritten, List.length_pos_iff]
  rw [updatePhase, Channel.update]
  by_cases hreq : f.requested = true
  · rw [if_pos hreq, update]
    have hring : (q.unread ++ q.written ++ []) = q.unread ++ q.written := List.append_nil _
    refine ⟨by simp only [R.numRead, hwritten], R.size, ?_, rfl, ?_, rfl, ?_, fun _ =>
      ⟨rfl, rfl⟩⟩
    · simp only [hring]
      exact ⟨R.ring.ri, R.ring.wi, R.ring.free, R.ring.window⟩
    · simp only [List.length_append]
      omega
    · simp only [List.length_append, List.length_nil]
      omega
  · obtain ⟨htaken, hnone⟩ := R.requested (by simpa using hreq)
    obtain ⟨size, unread, taken, written⟩ := q
    obtain rfl : taken = 0 := htaken
    obtain rfl : written = [] := hnone
    rw [if_neg hreq]
    simp only [List.append_nil]
    exact ⟨by simp, R⟩

omit [Inhabited T] in
/-- Without the event there is nothing new to read. -/
theorem numAvailable_updatePhase (R : f.Represents q) (h : f.numAvailable = 0)
    (hevent : f.updatePhase.1.dataWritten = false) : f.updatePhase.2.numAvailable = 0 := by
  obtain ⟨hevents, R'⟩ := R.update_spec
  rw [Answer.events.inj hevents] at hevent
  have hwritten : q.written = [] := by simpa using hevent
  rw [R.numAvailable_eq] at h
  rw [R'.numAvailable_eq, Channel.update, hwritten, List.append_nil]
  exact h

omit [Inhabited T] in
/-- Without the event there is no new place. -/
theorem numFree_updatePhase (R : f.Represents q) (h : f.numFree = 0)
    (hevent : f.updatePhase.1.dataRead = false) : f.updatePhase.2.numFree = 0 := by
  obtain ⟨hevents, R'⟩ := R.update_spec
  rw [Answer.events.inj hevents] at hevent
  have htaken : q.taken = 0 := by simpa using hevent
  rw [R.numFree_eq_zero_iff, htaken] at h
  rw [R'.numFree_eq_zero_iff]
  change ¬ 0 + (q.unread ++ q.written).length + 0 < q.size
  rw [List.length_append]
  omega

theorem step_spec (R : f.Represents q) (op : Op T) :
    ∃ f', step op f = some ((Channel.step op q).1, f') ∧
      f'.Represents (Channel.step op q).2 := by
  cases op with
  | nbRead => exact ⟨_, by rw [step, R.read_spec.1]; rfl, R.read_spec.2⟩
  | nbWrite v => exact ⟨_, by rw [step, (R.write_spec v).1]; rfl, (R.write_spec v).2⟩
  | updatePhase => exact ⟨_, by rw [step, R.update_spec.1]; rfl, R.update_spec.2⟩

/-- **A reader and a writer** do not notice each other before the update. -/
theorem nbRead_nbWrite (R : f.Represents q) (v : T) :
    (f.nbWrite v).2.nbRead.1 = f.nbRead.1 ∧ (f.nbRead.2.nbWrite v).1 = (f.nbWrite v).1 ∧
      (f.nbWrite v).2.nbRead.2 = (f.nbRead.2.nbWrite v).2 := by
  obtain ⟨g, hg⟩ : ∃ g, g = (f.nbWrite v).2 := ⟨_, rfl⟩
  by_cases hroom : q.taken + q.unread.length + q.written.length < q.size
  · have Rg := (R.write_spec v).2
    rw [← hg, Channel.write, if_pos hroom] at Rg
    rw [← hg]
    cases hunread : q.unread with
    | nil =>
        have hread : f.nbRead = ((false, none), f) :=
          nbRead_of_eq (by simp [R.numAvailable_eq, hunread])
        have hread' : g.nbRead = ((false, none), g) :=
          nbRead_of_eq (by simp [Rg.numAvailable_eq, hunread])
        rw [hread, hread']
        exact ⟨rfl, rfl, hg⟩
    | cons x u =>
        have Rh := R.read_spec.2
        have hread := (R.nbRead_eq hunread).1
        have hwrite := (R.nbWrite_eq hroom v).1
        have hread' := (Rg.nbRead_eq hunread).1
        have hroom' : q.read.2.taken + q.read.2.unread.length + q.read.2.written.length <
            q.read.2.size := by rwa [q.read_room.1, q.read_room.2]
        have hwrite' := (Rh.nbWrite_eq hroom' v).1
        -- the ring is neither empty nor full
        have hother : f.ri ≠ f.wi := by
          have hlen : 0 < (q.unread ++ q.written).length := by simp [hunread]
          have hfull : (q.unread ++ q.written).length < f.size := by
            rw [List.length_append, R.size]
            omega
          have hne := window_ne (i := f.ri) hlen hfull
          rwa [Nat.add_zero, Nat.mod_eq_of_lt R.ring.ri, ← R.ring.wi] at hne
        have hfree : f.free - 1 + 1 = f.free + 1 - 1 := by
          have := R.ring.free
          rw [List.length_append, R.size] at this
          omega
        rw [hwrite', hread', hread, hwrite]
        rw [hwrite] at hg
        refine ⟨rfl, rfl, ?_⟩
        simp only [hg, hfree, Function.update_comm hother.symm]
  · have hfull : f.nbWrite v = (false, f) := nbWrite_of_eq (R.numFree_eq_zero_iff.mpr hroom) v
    rw [hfull] at hg
    subst hg
    have Rh := R.read_spec.2
    have hfull' : (nbRead g).2.nbWrite v = (false, (nbRead g).2) := by
      refine nbWrite_of_eq (Rh.numFree_eq_zero_iff.mpr ?_) v
      rwa [q.read_room.1, q.read_room.2]
    rw [hfull, hfull']
    exact ⟨rfl, rfl, rfl⟩

omit [Inhabited T] in
/-- The loop of `print` ends at the cell that is written next. -/
theorem printLoop_eq {n m i : ℕ} (hm : m < n) (hsize : m < f.size) (hi : i < f.size)
    (hwi : f.wi = (i + (m + 1)) % f.size) :
    f.printLoop n i = some (window f.buf f.size i (m + 1)) := by
  induction m generalizing n i with
  | zero =>
      obtain ⟨n, rfl⟩ := Nat.exists_eq_add_one_of_ne_zero hm.ne'
      rw [printLoop, window_cons, Nat.mod_eq_of_lt hi, if_neg (not_not.mpr hwi.symm)]
      rfl
  | succ m ih =>
      obtain ⟨n, rfl⟩ := Nat.exists_eq_add_one_of_ne_zero (Nat.ne_of_gt (Nat.zero_lt_of_lt hm))
      have hnext : (i + 1) % f.size ≠ f.wi := by
        have hne := window_ne (i := i + 1) (Nat.succ_pos m) hsize
        rwa [Nat.add_zero, Nat.add_assoc i, Nat.add_comm 1, ← hwi] at hne
      have hj := Nat.mod_lt (i + 1) (Nat.zero_lt_of_lt hsize)
      have hend : f.wi = ((i + 1) % f.size + (m + 1)) % f.size := by
        rw [Nat.mod_add_mod, hwi]
        congr 1
        omega
      rw [printLoop, if_pos hnext, ih (by omega) (by omega) hj hend, window_mod,
        window_cons (n := m + 1), Nat.mod_eq_of_lt hi]
      rfl

omit [Inhabited T] in
/-- `print` shows the values in the order in which they are read, also those of a full ring. -/
theorem print_eq (R : f.Represents q) {n : ℕ} (hn : f.size ≤ n) :
    f.print n = some (q.unread ++ q.written) := by
  have H := R.ring
  have hfree := H.free
  rw [print]
  cases hl : q.unread ++ q.written with
  | nil =>
      rw [hl, List.length_nil, Nat.add_zero] at hfree
      rw [if_neg (not_not.mpr hfree)]
  | cons x l =>
      rw [hl] at H
      rw [hl, List.length_cons] at hfree
      rw [if_pos (by omega), printLoop_eq (m := l.length) (by omega) (by omega) H.ri H.wi,
        ← hl]
      exact congrArg some (hl ▸ H.window)

end Represents

/-! ### Without the stages -/

/-- All values in the ring. -/
def contents (f : Fifo T) : List T := window f.buf f.size f.ri (f.size - f.free)

namespace Represents

omit [Inhabited T] in
theorem contents_eq (R : f.Represents q) : f.contents = q.unread ++ q.written := by
  have hfree := R.ring.free
  rw [contents, show f.size - f.free = (q.unread ++ q.written).length by omega, R.ring.window]

/-- A read that has a value takes the first one. -/
theorem contents_nbRead (R : f.Represents q) (h : f.numAvailable ≠ 0) :
    ∃ x, f.nbRead.1 = (true, some x) ∧ f.contents = x :: f.nbRead.2.contents := by
  cases hunread : q.unread with
  | nil => exact (h (by simp [R.numAvailable_eq, hunread])).elim
  | cons x u =>
      have R' := R.read_spec.2
      refine ⟨x, by rw [(R.nbRead_eq hunread).1], ?_⟩
      rw [R.contents_eq, R'.contents_eq, Channel.read, hunread]
      rfl

omit [Inhabited T] in
/-- A write that has a place adds a last value. -/
theorem contents_nbWrite (R : f.Represents q) (h : f.numFree ≠ 0) (v : T) :
    f.contents.length < f.size ∧ (f.nbWrite v).2.contents = f.contents ++ [v] := by
  have hroom := not_not.mp (R.numFree_eq_zero_iff.not.mp h)
  have R' := (R.write_spec v).2
  refine ⟨?_, ?_⟩
  · rw [R.contents_eq, R.size, List.length_append]
    omega
  · rw [R.contents_eq, R'.contents_eq, Channel.write, if_pos hroom, List.append_assoc]

omit [Inhabited T] in
theorem contents_updatePhase (R : f.Represents q) : f.updatePhase.2.contents = f.contents := by
  rw [R.update_spec.2.contents_eq, R.contents_eq]
  exact List.append_nil _

end Represents

theorem nbRead_size (f : Fifo T) : f.nbRead.2.size = f.size := by
  rw [nbRead]
  split_ifs
  · rfl
  · rw [bufRead]
    split_ifs <;> rfl

omit [Inhabited T] in
theorem nbWrite_size (v : T) (f : Fifo T) : (f.nbWrite v).2.size = f.size := by
  rw [nbWrite]
  split_ifs
  · rfl
  · rw [bufWrite]
    split_ifs <;> rfl

omit [Inhabited T] in
theorem updatePhase_size (f : Fifo T) : f.updatePhase.2.size = f.size := by
  rw [updatePhase]
  split_ifs <;> rfl

/-! ### Runs -/

/-- The values that a call gives to its caller. -/
def Answer.delivered : Answer T → List T
  | .read _ x => x.toList
  | _ => []

/-- The values that a call takes. -/
def Op.accepted : Op T → Answer T → List T
  | .nbWrite v, .written true => [v]
  | _, _ => []

/-- All values in the channel. -/
def Channel.held (q : Channel T) : List T := q.unread ++ q.written

omit [Inhabited T] in
theorem Channel.step_size (op : Op T) (q : Channel T) : (q.step op).2.size = q.size := by
  cases op with
  | nbRead =>
      simp only [Channel.step, Channel.read]
      cases q.unread <;> rfl
  | nbWrite v =>
      simp only [Channel.step, Channel.write]
      split_ifs <;> rfl
  | updatePhase => rfl

omit [Inhabited T] in
/-- One call neither loses nor copies a value. -/
theorem Channel.held_step (op : Op T) (q : Channel T) :
    q.held ++ op.accepted (q.step op).1 = (q.step op).1.delivered ++ (q.step op).2.held := by
  cases op with
  | nbRead =>
      simp only [Channel.step, Channel.read, held]
      cases h : q.unread <;> simp [h, Op.accepted, Answer.delivered]
  | nbWrite v =>
      simp only [Channel.step, Channel.write]
      split_ifs <;> simp [held, Op.accepted, Answer.delivered]
  | updatePhase => simp [Channel.step, Channel.update, held, Op.accepted, Answer.delivered]

omit [Inhabited T] in
/-- What a run delivers, and holds in the end, is what it held and accepts, in this order. -/
theorem Channel.held_run (ops : List (Op T)) (q : Channel T) :
    q.held ++ (List.zipWith Op.accepted ops (runTotal Channel.step ops q).1).flatten =
      (runTotal Channel.step ops q).1.flatMap Answer.delivered ++
        (runTotal Channel.step ops q).2.held := by
  induction ops generalizing q with
  | nil => simp [runTotal]
  | cons op ops ih =>
      simp only [runTotal, List.zipWith_cons_cons, List.flatten_cons, List.flatMap_cons]
      rw [← List.append_assoc, held_step, List.append_assoc, ih, List.append_assoc]

/-- **The channel is a bounded queue.** From the constructor on, every call returns what a
queue with a stage for the values of the phase returns. The values that are read are the first
ones of those that were written, in their order, and the others are in the channel, which never
holds more than its size, and prints them. -/
theorem fifo_run (memory : ℕ → T) {size : ℤ} (hsize : 0 < size) (ops : List (Op T)) :
    ∃ f as f' q', init memory size = some f ∧ run step ops f = some (as, f') ∧
      (as, q') = runTotal Channel.step ops ⟨size.toNat, [], 0, []⟩ ∧ f'.Represents q' ∧
      (List.zipWith Op.accepted ops as).flatten = as.flatMap Answer.delivered ++ q'.held ∧
      q'.held.length ≤ size.toNat ∧ f'.print size.toNat = some q'.held := by
  have hinit : init memory size = some ⟨size.toNat, memory, size.toNat, 0, 0, 0, 0, 0,
    false⟩ :=
    if_neg (by omega)
  have R := init_represents hinit
  have hstep : ∀ op (f : Fifo T) q, f.Represents q ∧ q.size = size.toNat → True → True →
      ∃ f', step op f = some ((Channel.step op q).1, f') ∧
        (f'.Represents (Channel.step op q).2 ∧ (Channel.step op q).2.size = size.toNat) := by
    intro op f q ⟨R, hq⟩ _ _
    obtain ⟨f', hf', R'⟩ := R.step_spec op
    exact ⟨f', hf', R', (Channel.step_size op q).trans hq⟩
  obtain ⟨f', hrun, R', hq⟩ := run_refines hstep ⟨R, rfl⟩
    (along_of_forall (fun _ _ _ => trivial) _) (alongTotal_of_forall (fun _ _ _ => trivial) _)
  have hheld := Channel.held_run ops ⟨size.toNat, [], 0, []⟩
  refine ⟨_, _, f', _, hinit, hrun, rfl, R', hheld, ?_, R'.print_eq (R'.size.trans hq).le⟩
  have := R'.bounded
  rw [Channel.held, List.length_append]
  omega

/-- A channel of two places: the third value is refused, and there is a place for another one
from the update on. -/
theorem fifo_run_two : ∃ f as f', init (fun _ => 0) 2 = some f ∧
    run step [.nbWrite 5, .nbRead, .nbWrite 6, .nbWrite 7, .updatePhase, .nbRead, .nbWrite 8,
      .updatePhase, .nbWrite 8, .nbRead] f = some (as, f') ∧
    as.flatMap Answer.delivered = [5, 6] ∧ f'.print 2 = some [8] := by
  obtain ⟨f, as, f', q', hf, hrun, hq, -, -, -, hprint⟩ := fifo_run (fun _ => 0)
    (show (0 : ℤ) < 2 by decide) [.nbWrite 5, .nbRead, .nbWrite 6, .nbWrite 7, .updatePhase,
      .nbRead, .nbWrite 8, .updatePhase, .nbWrite 8, .nbRead]
  obtain ⟨rfl, rfl⟩ := Prod.mk.inj hq
  exact ⟨f, _, f', hf, hrun, rfl, hprint⟩

end Fifo
end Pscv.Kernel
