import Pscv.Kernel.PrimChannel
import Pscv.Lib.Keyed

/-!
# `sc_signal`

A process that writes a signal changes its new value; the current value, which is the one that
is read, changes in the update phase, and then the value-changed event is notified for the
notification phase of the same delta cycle. A writer policy refuses the writes of a second
process with an error, which ends the simulation; `none` is this outcome.

A process of an evaluation phase is what it writes, as a function of what it reads.

## Main results

* `Signals.deltaCycle_spec` — one delta cycle.
* `Signals.signals_run` — the values are those that were written last, cycle by cycle.
* `Signals.order_irrelevant` — with one writer for each signal the order in which the processes
  of an evaluation phase run does not matter.
-/

namespace Pscv.Kernel

open Pscv.Lib

/-- `sc_writer_policy`. -/
inductive WriterPolicy
  | oneWriter
  | manyWriters
  | uncheckedWriters
  deriving DecidableEq

/-- `sc_signal`: of the value-changed event, whether it exists and whether it is pending, and
whether it was notified while it was. The stamp of a signal that has not changed is none that a
simulation reaches. -/
structure Signal (P T : Type) where
  curVal : T
  newVal : T
  writer : Option P
  changeEvent : Bool
  pending : Bool
  fault : Bool
  changeStamp : Option ℕ

namespace Signal
variable {P T : Type} [DecidableEq P] [DecidableEq T]

/-- `sc_writer_policy_check_write::check_write`; there may be no current writer. -/
def checkWriter (p : Option P) (s : Signal P T) : Option (Signal P T) :=
  if s.writer = none then some { s with writer := p }
  else if s.writer ≠ p ∧ p ≠ none then none
  else some s

/-- `check_write` of the policies. -/
def checkWrite (p : Option P) (valueChanged : Bool) (s : Signal P T) :
    WriterPolicy → Option (Signal P T)
  | .oneWriter => s.checkWriter p
  | .manyWriters => if valueChanged then s.checkWriter p else some s
  | .uncheckedWriters => some s

/-- `write`, without the request for the update. -/
def write (pol : WriterPolicy) (p : Option P) (v : T) (s : Signal P T) : Option (Signal P T) :=
  (s.checkWrite p (decide (s.curVal ≠ v)) pol).map fun s => { s with newVal := v }

/-- `update` at the change stamp `stamp`. -/
def update (pol : WriterPolicy) (stamp : ℕ) (s : Signal P T) : Signal P T :=
  let s := if pol = .manyWriters then { s with writer := none } else s
  if s.newVal ≠ s.curVal then
    { s with
      curVal := s.newVal
      pending := s.pending || s.changeEvent
      fault := s.fault || (s.changeEvent && s.pending)
      changeStamp := some stamp }
  else s

end Signal

/-- One call of `write`. -/
structure Write (P T : Type) where
  writer : Option P
  channel : Handle
  value : T

/-- A process that runs in an evaluation phase: what it writes depends on what it reads. -/
structure Writer (P T : Type) where
  id : P
  body : (Handle → T) → List (Handle × T)

/-- The signals of a simulation, and its change stamp. -/
structure Signals (P T : Type) where
  registry : PrimChannelRegistry
  signal : Handle → Signal P T
  changeStamp : ℕ

namespace Signals
variable {P T : Type} [DecidableEq P] [DecidableEq T]

/-- `read`. -/
def read (S : Signals P T) (c : Handle) : T := (S.signal c).curVal

/-- `event`: the value changed in the last update phase. -/
def event (S : Signals P T) (c : Handle) : Bool :=
  (S.signal c).changeStamp = some S.changeStamp

/-- `write`. -/
def write (pol : WriterPolicy) (S : Signals P T) (w : Write P T) : Option (Signals P T) :=
  let s := S.signal w.channel
  (s.write pol w.writer w.value).map fun s' =>
    { S with
      signal := Function.update S.signal w.channel s'
      registry := if s.curVal ≠ w.value then S.registry.requestUpdate w.channel
        else S.registry }

/-- What a process writes. -/
def Writer.writes (p : Writer P T) (read : Handle → T) : List (Write P T) :=
  (p.body read).map fun x => ⟨some p.id, x.1, x.2⟩

/-- The run of a process. -/
def runProcess (pol : WriterPolicy) (S : Signals P T) (p : Writer P T) :
    Option (Signals P T) :=
  (Writer.writes p S.read).foldlM (write pol) S

/-- The evaluation phase. -/
def evaluate (pol : WriterPolicy) (ps : List (Writer P T)) (S : Signals P T) :
    Option (Signals P T) :=
  ps.foldlM (runProcess pol) S

/-- The `update` of a signal, which requests no updates. -/
def updateSignal (pol : WriterPolicy) (stamp : ℕ) (c : Handle) (signal : Handle → Signal P T) :
    List Handle × (Handle → Signal P T) :=
  ([], Function.update signal c ((signal c).update pol stamp))

/-- The update phase; the stamp stays when no process has run. -/
def updatePhase (pol : WriterPolicy) (emptyEvalPhase : Bool) (S : Signals P T) :
    Option (Signals P T) := do
  let stamp := if emptyEvalPhase then S.changeStamp else S.changeStamp + 1
  let (_, registry, signal) ← S.registry.performUpdate (updateSignal pol stamp) S.signal
  some ⟨registry, signal, stamp⟩

/-- The notification phase. -/
def notificationPhase (S : Signals P T) : Signals P T :=
  { S with signal := fun c => { S.signal c with pending := false } }

/-- A delta cycle, and the signals whose event it triggers. -/
def deltaCycle (pol : WriterPolicy) (ps : List (Writer P T)) (S : Signals P T) :
    Option ((Handle → Bool) × Signals P T) := do
  let S ← S.evaluate pol ps
  let S ← S.updatePhase pol ps.isEmpty
  some (fun c => (S.signal c).pending, S.notificationPhase)

/-! ### The evaluation phase -/

variable {pol : WriterPolicy} {S S' : Signals P T} {ps ps' : List (Writer P T)}
  {ws : List (Write P T)} {c : Handle} {stamp : ℕ}

/-- What a write does to its signal. -/
def writeSignal (pol : WriterPolicy) (w : Write P T) (s : Signal P T) : Option (Signal P T) :=
  s.write pol w.writer w.value

omit [DecidableEq T] in
/-- A write changes the new value and the writer, and nothing else. -/
theorem checkWrite_eq {p : Option P} {b : Bool} {s s' : Signal P T}
    (h : s.checkWrite p b pol = some s') : ∃ q, s' = { s with writer := q } := by
  have hcheck : ∀ {s'}, s.checkWriter p = some s' → ∃ q, s' = { s with writer := q } := by
    intro s' h
    rw [Signal.checkWriter] at h
    split_ifs at h
    · exact ⟨p, (Option.some.inj h).symm⟩
    · exact ⟨s.writer, (Option.some.inj h).symm⟩
  cases pol with
  | oneWriter => exact hcheck h
  | manyWriters =>
      rw [Signal.checkWrite] at h
      split_ifs at h
      · exact hcheck h
      · exact ⟨s.writer, (Option.some.inj h).symm⟩
  | uncheckedWriters => exact ⟨s.writer, (Option.some.inj h).symm⟩

theorem write_eq {p : Option P} {v : T} {s s' : Signal P T} (h : s.write pol p v = some s') :
    ∃ q, s' = { s with writer := q, newVal := v } := by
  obtain ⟨s₁, hcheck, rfl⟩ := Option.map_eq_some_iff.mp h
  obtain ⟨q, rfl⟩ := checkWrite_eq hcheck
  exact ⟨q, rfl⟩

/-- The writes that change the value that is read. -/
def changes (read : Handle → T) (ws : List (Write P T)) : List Handle :=
  (ws.filter fun w => read w.channel ≠ w.value).map Write.channel

omit [DecidableEq P] in
theorem changes_cons (read : Handle → T) (w : Write P T) (ws : List (Write P T)) :
    changes read (w :: ws) =
      if read w.channel ≠ w.value then w.channel :: changes read ws else changes read ws := by
  rw [changes, List.filter_cons]
  split_ifs with h <;> simp_all [changes]

/-- The writes act on their signals, and the registry has the requests. -/
theorem foldlM_write (ws : List (Write P T)) (S : Signals P T) :
    ws.foldlM (write pol) S =
      (ws.foldlM (keyedStep Write.channel (writeSignal pol)) S.signal).map fun signal =>
        { S with
          signal := signal, registry := S.registry.requestUpdates (changes S.read ws) } := by
  induction ws generalizing S with
  | nil => rfl
  | cons w ws ih =>
      rw [List.foldlM_cons, List.foldlM_cons, write, keyedStep, writeSignal]
      cases hw : (S.signal w.channel).write pol w.writer w.value with
      | none => rfl
      | some s' =>
          obtain ⟨q, rfl⟩ := write_eq hw
          simp only [Option.map_some, Option.bind_eq_bind, Option.bind_some]
          rw [ih]
          have hread : ∀ r : PrimChannelRegistry, read { S with
              registry := r
              signal := Function.update S.signal w.channel
                { S.signal w.channel with writer := q, newVal := w.value } } = S.read := by
            intro r
            funext c
            simp only [read]
            by_cases hc : c = w.channel
            · rw [hc, Function.update_self]
            · rw [Function.update_of_ne hc]
          rw [hread]
          congr 1
          funext signal
          congr 1
          rw [changes_cons]
          change (if S.read w.channel ≠ w.value then _ else
            _ : PrimChannelRegistry).requestUpdates
            _ = _
          split_ifs <;> rfl

/-- The value that some writes leave in the signal `c`. -/
def lastValue (c : Handle) (ws : List (Write P T)) (v : T) : T :=
  ((own Write.channel c ws).getLast?.map Write.value).getD v

/-- Some writes of one signal. -/
theorem ownLoop_write {s s' : Signal P T}
    (h : ownLoop Write.channel (writeSignal pol) c ws s = some s') :
    ∃ q, s' = { s with writer := q, newVal := lastValue c ws s.newVal } := by
  rw [ownLoop] at h
  rw [lastValue]
  generalize own Write.channel c ws = l at h
  induction l generalizing s with
  | nil => exact ⟨s.writer, (Option.some.inj h).symm⟩
  | cons w l ih =>
      rw [List.foldlM_cons] at h
      obtain ⟨s₁, hw, hrest⟩ := Option.bind_eq_some_iff.mp h
      obtain ⟨q₁, rfl⟩ := write_eq hw
      obtain ⟨q, rfl⟩ := ih hrest
      refine ⟨q, ?_⟩
      cases l with
      | nil => rfl
      | cons w' l =>
          obtain ⟨x, hx⟩ : ∃ x, (w' :: l).getLast? = some x :=
            Option.isSome_iff_exists.mp (by simp)
          rw [List.getLast?_cons_cons, hx]
          rfl

/-- The values that are read do not change. -/
theorem read_foldlM_write (h : ws.foldlM (write pol) S = some S') : S'.read = S.read := by
  rw [foldlM_write] at h
  obtain ⟨signal, hloop, rfl⟩ := Option.map_eq_some_iff.mp h
  funext c
  obtain ⟨q, hq⟩ := ownLoop_write (foldlM_keyed_iff.mp hloop c)
  simp only [read, hq]

/-- The writes of an evaluation phase. -/
def allWrites (ps : List (Writer P T)) (read : Handle → T) : List (Write P T) :=
  ps.flatMap fun p => Writer.writes p read

theorem evaluate_eq (ps : List (Writer P T)) (S : Signals P T) :
    S.evaluate pol ps = (allWrites ps S.read).foldlM (write pol) S := by
  rw [evaluate]
  induction ps generalizing S with
  | nil => rfl
  | cons p ps ih =>
      rw [List.foldlM_cons, allWrites, List.flatMap_cons, List.foldlM_append]
      cases hp : runProcess pol S p with
      | none =>
          rw [runProcess] at hp
          rw [hp]
          rfl
      | some S₁ =>
          have hread : S₁.read = S.read := read_foldlM_write hp
          rw [runProcess] at hp
          rw [hp, Option.bind_eq_bind, Option.bind_some, ih, hread]
          rfl

/-! ### The update phase -/

omit [DecidableEq P] in
/-- The updates of signals, each of which has one turn. -/
theorem visit_updateSignal {cs : List Handle} (h : cs.Nodup) (signal : Handle → Signal P T) :
    PrimChannelRegistry.visit (updateSignal pol stamp) cs signal =
      fun c => if c ∈ cs then (signal c).update pol stamp else signal c := by
  rw [PrimChannelRegistry.visit]
  induction cs generalizing signal with
  | nil => simp
  | cons d cs ih =>
      obtain ⟨hd, hnodup⟩ := List.nodup_cons.mp h
      rw [List.foldl_cons, ih hnodup]
      funext c
      simp only [updateSignal, List.mem_cons]
      by_cases hc : c = d
      · subst hc
        rw [Function.update_self, if_neg hd, if_pos (.inl rfl)]
      · simp only [Function.update_of_ne hc, hc, false_or]

omit [DecidableEq P] in
/-- A phase leaves no request. -/
theorem step_updateSignal (cs : List Handle) (signal : Handle → Signal P T) :
    PrimChannelRegistry.Requests.step (updateSignal pol stamp) .performUpdate
      (⟨cs, []⟩, signal) =
        (cs, ⟨[], []⟩, PrimChannelRegistry.visit (updateSignal pol stamp) cs signal) := by
  have hnone : ∀ signal, (PrimChannelRegistry.Requests.turns (updateSignal (T := T) (P := P)
      pol stamp) cs [] signal).1 = [] := by
    induction cs with
    | nil => exact fun _ => rfl
    | cons c cs ih => exact fun signal => ih _
  simp only [PrimChannelRegistry.Requests.step, List.foldl_nil, hnone,
    PrimChannelRegistry.turns_state]

/-- Between delta cycles. -/
structure Settled (channels : List Handle) (S : Signals P T) : Prop where
  registry : S.registry = .new channels
  valid : ∀ c ∈ channels, c ≠ null ∧ c ≠ PrimChannelRegistry.listEnd
  settled : ∀ c, (S.signal c).newVal = (S.signal c).curVal
  calm : ∀ c, (S.signal c).pending = false ∧ (S.signal c).fault = false
  stamps : ∀ c n, (S.signal c).changeStamp = some n → n ≤ S.changeStamp

/-- The signals after the update phase. -/
def updated (pol : WriterPolicy) (stamp : ℕ) (changed : List Handle)
    (signal : Handle → Signal P T) (c : Handle) : Signal P T :=
  if changed.contains c then (signal c).update pol stamp else signal c

/-- **A delta cycle** is the writes of its processes, signal by signal, and the updates. -/
theorem deltaCycle_eq {channels : List Handle} (D : Settled channels S)
    (hps : ∀ p ∈ ps, ∀ x ∈ p.body S.read, x.1 ∈ channels) :
    deltaCycle pol ps S =
      ((allWrites ps S.read).foldlM (keyedStep Write.channel (writeSignal pol)) S.signal).map
        fun signal =>
          let stamp := if ps.isEmpty then S.changeStamp else S.changeStamp + 1
          let signal := updated pol stamp (changes S.read (allWrites ps S.read)) signal
          (fun c => (signal c).pending,
            ⟨.new channels, fun c => { signal c with pending := false }, stamp⟩) := by
  obtain ⟨stamp, hstamp⟩ : ∃ n, n = if ps.isEmpty then S.changeStamp else S.changeStamp + 1 :=
    ⟨_, rfl⟩
  obtain ⟨cs, hcs⟩ : ∃ cs, cs = changes S.read (allWrites ps S.read) := ⟨_, rfl⟩
  have hknown : cs ⊆ channels := by
    rw [hcs]
    intro c hc
    obtain ⟨w, hw, rfl⟩ := List.mem_map.mp hc
    obtain ⟨p, hp, hw⟩ := List.mem_flatMap.mp (List.mem_filter.mp hw).1
    obtain ⟨x, hx, rfl⟩ := List.mem_map.mp hw
    exact hps p hp x hx
  rw [deltaCycle, evaluate_eq, foldlM_write, D.registry, ← hcs]
  cases (allWrites ps S.read).foldlM (keyedStep Write.channel (writeSignal pol)) S.signal with
  | none => rfl
  | some signal =>
      have R := (PrimChannelRegistry.new_represents D.valid).requestUpdates hknown
      have hupd : ∀ c (signal : Handle → Signal P T),
        (updateSignal pol stamp c signal).1 = [] :=
        fun _ _ => rfl
      obtain ⟨r', hperform, R', hvec⟩ := R.performUpdate (s := signal)
        fun c _ signal => (hupd c signal).symm ▸ List.nil_subset _
      rw [step_updateSignal, visit_updateSignal
        (PrimChannelRegistry.nodup_requests List.nodup_nil)] at hperform
      rw [step_updateSignal] at R'
      have hr' : r' = .new channels := by
        rw [R'.eq_new, hvec, PrimChannelRegistry.requestUpdates_channelVec]
        rfl
      have hphase : updatePhase pol ps.isEmpty
        ⟨(PrimChannelRegistry.new channels).requestUpdates
            cs, signal, S.changeStamp⟩ =
          some ⟨.new channels, updated pol stamp cs signal, stamp⟩ := by
        have hupdated : updated pol stamp cs signal =
            fun c => if c ∈ cs then (signal c).update pol stamp else signal c := by
          funext d
          simp only [updated, List.contains_iff_mem]
        simp only [updatePhase, ← hstamp, hperform, Option.bind_eq_bind, Option.bind_some, hr',
          PrimChannelRegistry.mem_requests, List.not_mem_nil, or_false, hupdated]
      simp only [Option.map_some, Option.bind_eq_bind, Option.bind_some, hphase, ← hstamp]
      rfl

/-- The signal `s` of an evaluation phase gets the value `v` in the update phase. -/
structure Becomes (stamp : ℕ) (v : T) (s s' : Signal P T) : Prop where
  curVal : s'.curVal = v
  newVal : s'.newVal = v
  pending : s'.pending = (s.changeEvent && decide (v ≠ s.curVal))
  fault : s'.fault = false
  changeEvent : s'.changeEvent = s.changeEvent
  changeStamp : s'.changeStamp = if v ≠ s.curVal then some stamp else s.changeStamp

omit [DecidableEq P] in
/-- The update of a signal whose event is not pending. -/
theorem update_becomes (s : Signal P T) (hpending : s.pending = false)
    (hfault : s.fault = false) :
    Becomes stamp s.newVal s (s.update pol stamp) := by
  have hwriter : ∀ q, Becomes stamp s.newVal s (if s.newVal ≠ s.curVal then
      { s with
        writer := q
        curVal := s.newVal
        pending := s.pending || s.changeEvent
        fault := s.fault || (s.changeEvent && s.pending)
        changeStamp := some stamp }
      else { s with writer := q }) := by
    intro q
    split_ifs with hchange
    · exact ⟨rfl, rfl, by simp [hpending, hchange], by simp [hpending, hfault], rfl,
        (if_pos hchange).symm⟩
    · have hsame := not_not.mp hchange
      exact ⟨hsame.symm, rfl, by simp [hpending, hsame], hfault, rfl, (if_neg hchange).symm⟩
  rw [Signal.update]
  by_cases hpol : pol = .manyWriters
  · rw [if_pos hpol]
    exact hwriter none
  · rw [if_neg hpol]
    exact hwriter s.writer

omit [DecidableEq P] in
theorem update_writer (h : pol ≠ .manyWriters) (s : Signal P T) :
    (s.update pol stamp).writer = s.writer := by
  simp only [Signal.update, if_neg h]
  split_ifs <;> rfl

omit [DecidableEq P] in
/-- Writes that change nothing. -/
theorem lastValue_of_notMem {read : Handle → T} (h : c ∉ changes read ws) :
    lastValue c ws (read c) = read c := by
  rw [lastValue]
  cases hlast : (own Write.channel c ws).getLast? with
  | none => rfl
  | some w =>
      obtain ⟨hw, hchannel⟩ := List.mem_filter.mp (List.mem_of_getLast? hlast)
      obtain rfl := of_decide_eq_true hchannel
      by_contra hne
      exact h (List.mem_map.mpr ⟨w, List.mem_filter.mpr
        ⟨hw, decide_eq_true fun heq => hne heq.symm⟩, rfl⟩)

/-- **One delta cycle.** A signal has the value written last, or its old one; it is the old one
that the processes have read. The event is triggered, and `event` is true, when the value is a
new one. -/
theorem deltaCycle_spec {channels : List Handle} {o : Handle → Bool} (D : Settled channels S)
    (hps : ∀ p ∈ ps, ∀ x ∈ p.body S.read, x.1 ∈ channels)
    (h : deltaCycle pol ps S = some (o, S')) : Settled channels S' ∧ ∀ c,
      S'.read c = lastValue c (allWrites ps S.read) (S.read c) ∧
      o c = ((S.signal c).changeEvent && decide (S'.read c ≠ S.read c)) ∧
      (S'.signal c).changeEvent = (S.signal c).changeEvent ∧
      (ps ≠ [] → S'.event c = decide (S'.read c ≠ S.read c)) := by
  rw [deltaCycle_eq D hps] at h
  obtain ⟨signal, hloop, heq⟩ := Option.map_eq_some_iff.mp h
  obtain ⟨rfl, rfl⟩ := Prod.mk.inj heq
  obtain ⟨stamp, hstamp⟩ : ∃ n, n = if ps.isEmpty then S.changeStamp else S.changeStamp + 1 :=
    ⟨_, rfl⟩
  obtain ⟨ws, hws⟩ : ∃ ws, ws = allWrites ps S.read := ⟨_, rfl⟩
  simp only [← hstamp, ← hws] at hloop ⊢
  have hbecomes : ∀ c, Becomes stamp (lastValue c ws (S.read c)) (S.signal c)
      (updated pol stamp (changes S.read ws) signal c) := by
    intro c
    obtain ⟨q, hq⟩ := ownLoop_write (foldlM_keyed_iff.mp hloop c)
    obtain ⟨hpending, hfault⟩ := D.calm c
    rw [D.settled] at hq
    change signal c = { S.signal c with
      writer := q, newVal := lastValue c ws (S.read c) } at hq
    rw [updated, hq]
    split_ifs with hc
    · obtain ⟨s, hs⟩ : ∃ s, s = { S.signal c with
          writer := q, newVal := lastValue c ws (S.read c) } := ⟨_, rfl⟩
      have B : Becomes stamp s.newVal s (s.update pol stamp) :=
        update_becomes s (by rw [hs, hpending]) (by rw [hs, hfault])
      rw [← hs]
      subst hs
      exact ⟨B.curVal, B.newVal, B.pending, B.fault, B.changeEvent, B.changeStamp⟩
    · have hsame := lastValue_of_notMem fun hmem => hc (List.contains_iff_mem.mpr hmem)
      have hnot : ¬ lastValue c ws (S.read c) ≠ (S.signal c).curVal := not_not.mpr hsame
      exact ⟨hsame.symm, rfl, hpending.trans (by simp [hnot]), hfault, rfl, (if_neg hnot).symm⟩
  have hle : S.changeStamp ≤ stamp := by
    rw [hstamp]
    split_ifs
    · exact le_rfl
    · exact Nat.le_succ _
  have hread : ∀ c, read ⟨.new channels, fun c => { updated pol stamp
      (changes S.read ws) signal c with pending := false }, stamp⟩ c =
      lastValue c ws (S.read c) := fun c => (hbecomes c).curVal
  refine ⟨⟨rfl, D.valid, fun c => ?_, fun c => ⟨rfl, (hbecomes c).fault⟩, fun c n hn => ?_⟩,
    fun c => ⟨(hbecomes c).curVal, ?_, (hbecomes c).changeEvent, fun hne => ?_⟩⟩
  · exact (hbecomes c).newVal.trans (hbecomes c).curVal.symm
  · have hn := (hbecomes c).changeStamp.symm.trans hn
    split_ifs at hn
    · exact (Option.some.inj hn).symm.le
    · exact (D.stamps c n hn).trans hle
  · rw [(hbecomes c).pending, hread]
    rfl
  · have hnew : stamp = S.changeStamp + 1 := by
      rw [hstamp, if_neg (by simpa using hne)]
    rw [hread]
    refine decide_eq_decide.mpr ((hbecomes c).changeStamp ▸ ?_)
    by_cases hchange : lastValue c ws (S.read c) ≠ S.read c
    · exact iff_of_true (if_pos hchange) hchange
    · refine iff_of_false (fun hs => ?_) hchange
      have := D.stamps c stamp ((if_neg hchange).symm.trans hs)
      omega

/-! ### One writer for each signal -/

theorem writeSignal_oneWriter {w : Write P T} {s : Signal P T}
    (h : w.writer ≠ none) :
    writeSignal .oneWriter w s =
      if s.writer = none ∨ s.writer = w.writer then
        some { s with writer := w.writer, newVal := w.value }
      else none := by
  rw [writeSignal, Signal.write, Signal.checkWrite, Signal.checkWriter]
  by_cases hnone : s.writer = none
  · rw [if_pos hnone, if_pos (.inl hnone)]
    rfl
  · rw [if_neg hnone]
    by_cases hsame : s.writer = w.writer
    · rw [if_neg fun hne => hne.1 hsame, if_pos (.inr hsame), ← hsame]
      rfl
    · rw [if_pos ⟨hsame, h⟩, if_neg (not_or.mpr ⟨hnone, hsame⟩)]
      rfl

/-- `q` has written the signal, if any process has. -/
def Held (s : Signal P T) (q : Option P) : Prop := s.writer ≠ none → s.writer = q

/-- The writes of one signal: they are not refused exactly when one process is the writer of
all of them, and it is the writer that the signal then has. -/
theorem foldlM_oneWriter {l : List (Write P T)} (hl : ∀ w ∈ l, w.writer ≠ none)
    (s : Signal P T) :
    ((∃ s', l.foldlM (fun s w => writeSignal .oneWriter w s) s = some s') ↔
      ∃ q, Held s q ∧ ∀ w ∈ l, w.writer = q) ∧
    ∀ s', l.foldlM (fun s w => writeSignal .oneWriter w s) s = some s' →
      ∀ q, Held s' q ↔ Held s q ∧ ∀ w ∈ l, w.writer = q := by
  induction l generalizing s with
  | nil =>
      refine ⟨iff_of_true ⟨s, rfl⟩ ⟨s.writer, fun _ => rfl, by simp⟩, ?_⟩
      intro s' h q
      obtain rfl := Option.some.inj h
      simp
  | cons w l ih =>
      obtain ⟨hw, hl⟩ := List.forall_mem_cons.mp hl
      simp only [List.foldlM_cons, writeSignal_oneWriter hw, List.forall_mem_cons]
      split_ifs with hfree
      · have hheld : ∀ q, Held { s with writer := w.writer, newVal := w.value } q ↔
            Held s q ∧ w.writer = q := by
          intro q
          refine ⟨fun h => ⟨fun hs => ?_, h hw⟩, fun h _ => h.2⟩
          exact (hfree.resolve_left hs).trans (h hw)
        obtain ⟨hsome, hafter⟩ := ih hl { s with writer := w.writer, newVal := w.value }
        simp only [Option.bind_eq_bind, Option.bind_some, hheld, and_assoc] at hsome hafter ⊢
        exact ⟨hsome, hafter⟩
      · obtain ⟨hs, hother⟩ := not_or.mp hfree
        refine ⟨iff_of_false (by simp) ?_, by simp⟩
        rintro ⟨q, hheld, hq, -⟩
        exact hother ((hheld hs).trans hq.symm)

omit [DecidableEq P] [DecidableEq T] in
theorem allWrites_writer {read : Handle → T} : ∀ w ∈ allWrites ps read, w.writer ≠ none := by
  intro w hw
  obtain ⟨p, -, hp⟩ := List.mem_flatMap.mp hw
  obtain ⟨x, -, rfl⟩ := List.mem_map.mp hp
  exact Option.some_ne_none _

omit [DecidableEq T] in
theorem mem_allWrites_congr {read : Handle → T} (h : SameOrder Writer.id ps ps')
    {w : Write P T} : w ∈ allWrites ps read ↔ w ∈ allWrites ps' read := by
  simp only [allWrites, List.mem_flatMap, h.mem_iff]

omit [DecidableEq T] in
/-- A signal does not tell the orders of the processes apart. -/
theorem own_allWrites_congr {read : Handle → T} (h : SameOrder Writer.id ps ps') {q : Option P}
    (hq : ∀ w ∈ own Write.channel c (allWrites ps read), w.writer = q) :
    own Write.channel c (allWrites ps read) = own Write.channel c (allWrites ps' read) := by
  have hwriter : ∀ p ∈ ps, own Write.channel c (Writer.writes p read) ≠ [] →
    some p.id = q := by
    intro p hp hne
    obtain ⟨w, hw⟩ := List.exists_mem_of_ne_nil _ hne
    have hall : w ∈ own Write.channel c (allWrites ps read) := by
      rw [allWrites, own_flatMap]
      exact List.mem_flatMap.mpr ⟨p, hp, hw⟩
    obtain ⟨x, -, rfl⟩ := List.mem_map.mp (List.mem_filter.mp hw).1
    exact hq _ hall
  rw [allWrites, allWrites, own_flatMap, own_flatMap]
  cases q with
  | none =>
      have hnil : ∀ p ∈ ps, own Write.channel c (Writer.writes p read) = [] := fun p hp => by
        by_contra hne
        cases hwriter p hp hne
      rw [List.flatMap_eq_nil_iff.mpr hnil,
        List.flatMap_eq_nil_iff.mpr fun p hp => hnil p (h.mem_iff.mpr hp)]
  | some i =>
      have hid : ∀ p ∈ ps, own Write.channel c (Writer.writes p read) ≠ [] → p.id = i :=
        fun p hp hne => Option.some.inj (hwriter p hp hne)
      rw [flatMap_own hid, flatMap_own fun p hp => hid p (h.mem_iff.mpr hp), h i]

/-- Both evaluation phases have the same outcome. -/
theorem foldlM_allWrites_congr {read : Handle → T} (h : SameOrder Writer.id ps ps')
    (signal : Handle → Signal P T) :
    (allWrites ps read).foldlM (keyedStep Write.channel (writeSignal .oneWriter)) signal =
      (allWrites ps' read).foldlM (keyedStep Write.channel (writeSignal .oneWriter))
        signal := by
  have hsome : ∀ {c} {ps ps' : List (Writer P T)} {s'}, SameOrder Writer.id ps ps' →
      ownLoop Write.channel (writeSignal .oneWriter) c (allWrites ps read)
        (signal c) = some s' →
      ownLoop Write.channel (writeSignal .oneWriter) c (allWrites ps' read) (signal c) =
        some s' := by
    intro c ps ps' s' h hs
    have hwriter : ∀ w ∈ own Write.channel c (allWrites ps read), w.writer ≠ none :=
      fun w hw => allWrites_writer w (List.mem_filter.mp hw).1
    have hheld := ((foldlM_oneWriter hwriter (signal c)).2 s' hs s'.writer).mp fun _ => rfl
    rw [ownLoop, ← own_allWrites_congr h hheld.2]
    exact hs
  exact foldlM_keyed_congr fun c => Option.ext fun s' => ⟨hsome h, hsome fun i => (h i).symm⟩

/-- A delta cycle, as far as the writers are concerned. -/
theorem deltaCycle_held {channels : List Handle} (D : Settled channels S)
    (hps : ∀ p ∈ ps, ∀ x ∈ p.body S.read, x.1 ∈ channels) :
    ((∃ r, deltaCycle .oneWriter ps S = some r) ↔ ∀ c, ∃ q, Held (S.signal c) q ∧
      ∀ w ∈ own Write.channel c (allWrites ps S.read), w.writer = q) ∧
    ∀ r, deltaCycle .oneWriter ps S = some r → ∀ c q, Held (r.2.signal c) q ↔
      Held (S.signal c) q ∧ ∀ w ∈ own Write.channel c (allWrites ps S.read), w.writer = q := by
  have hwriter : ∀ c, ∀ w ∈ own Write.channel c (allWrites ps S.read), w.writer ≠ none :=
    fun c w hw => allWrites_writer w (List.mem_filter.mp hw).1
  rw [deltaCycle_eq D hps]
  refine ⟨?_, fun r hr c q => ?_⟩
  · rw [← forall_congr' fun c => (foldlM_oneWriter (hwriter c) (S.signal c)).1]
    refine Iff.trans ?_ exists_foldlM_keyed
    refine ⟨fun ⟨r, hr⟩ => ?_, fun ⟨signal, h⟩ =>
      ⟨_, Option.map_eq_some_iff.mpr ⟨signal, h, rfl⟩⟩⟩
    obtain ⟨signal, h, -⟩ := Option.map_eq_some_iff.mp hr
    exact ⟨signal, h⟩
  · obtain ⟨signal, h, rfl⟩ := Option.map_eq_some_iff.mp hr
    rw [← (foldlM_oneWriter (hwriter c) (S.signal c)).2 _ (foldlM_keyed_iff.mp h c) q]
    have hkeeps : ∀ stamp cs,
        (updated .oneWriter stamp cs signal c).writer = (signal c).writer := by
      intro stamp cs
      rw [updated]
      split_ifs
      · exact update_writer (by decide) _
      · rfl
    simp only [Held, hkeeps]

/-- The processes of a delta cycle can run in another order. -/
theorem deltaCycle_congr {channels : List Handle} (D : Settled channels S)
    (hps : ∀ p ∈ ps, ∀ x ∈ p.body S.read, x.1 ∈ channels) (h : SameOrder Writer.id ps ps') :
    deltaCycle .oneWriter ps S = deltaCycle .oneWriter ps' S := by
  have hchanges : ∀ c, c ∈ changes S.read (allWrites ps S.read) ↔
      c ∈ changes S.read (allWrites ps' S.read) := by
    intro c
    simp only [changes, List.mem_map, List.mem_filter, mem_allWrites_congr h]
  have hupdated : ∀ stamp (signal : Handle → Signal P T),
      updated .oneWriter stamp (changes S.read (allWrites ps S.read)) signal =
        updated .oneWriter stamp (changes S.read (allWrites ps' S.read)) signal := by
    intro stamp signal
    funext c
    simp only [updated, List.contains_iff_mem, hchanges]
  rw [deltaCycle_eq D hps, deltaCycle_eq D fun p hp => hps p (h.mem_iff.mpr hp),
    foldlM_allWrites_congr h]
  simp only [h.isEmpty_eq, hupdated]

/-! ### Runs -/

/-- The signals before the simulation. -/
def start (channels : List Handle) (init : Handle → T) (changeEvent : Handle → Bool) :
    Signals P T where
  registry := .new channels
  signal c := ⟨init c, init c, none, changeEvent c, false, false, none⟩
  changeStamp := 0

/-- What the processes of an evaluation phase mean for the values. -/
def evolve (changeEvent : Handle → Bool) (ps : List (Writer P T)) (values : Handle → T) :
    (Handle → Bool) × (Handle → T) :=
  let values' := fun c => lastValue c (allWrites ps values) (values c)
  (fun c => changeEvent c && decide (values' c ≠ values c), values')

/-- The processes write known signals only. -/
def Known (channels : List Handle) (ps : List (Writer P T)) : Prop :=
  ∀ p ∈ ps, ∀ read, ∀ x ∈ p.body read, x.1 ∈ channels

omit [DecidableEq P] [DecidableEq T] in
theorem start_settled {channels : List Handle} {init : Handle → T}
    {changeEvent : Handle → Bool}
    (h : ∀ c ∈ channels, c ≠ null ∧ c ≠ PrimChannelRegistry.listEnd) :
    (start channels init changeEvent : Signals P T).Settled channels where
  registry := rfl
  valid := h
  settled _ := rfl
  calm _ := ⟨rfl, rfl⟩
  stamps c n hn := by cases hn

/-- **The values evolve cycle by cycle.** Unless a write is refused, the processes of every
evaluation phase read the values of the cycle before, the signals get the values that were
written last, and the events of those that change are triggered, none of them while it is
pending. -/
theorem signals_run {channels : List Handle}
    (h : ∀ c ∈ channels, c ≠ null ∧ c ≠ PrimChannelRegistry.listEnd) {init : Handle → T}
    {changeEvent : Handle → Bool} {pss : List (List (Writer P T))}
    (hpss : ∀ ps ∈ pss, Known channels ps) {os : List (Handle → Bool)}
    (hrun : run (deltaCycle pol) pss (start channels init changeEvent) = some (os, S')) :
    os = (runTotal (evolve changeEvent) pss init).1 ∧
      S'.read = (runTotal (evolve changeEvent) pss init).2 ∧
      ∀ c, (S'.signal c).fault = false := by
  have hstep : ∀ (ps : List (Writer P T)) (S : Signals P T) values o S', (Settled channels S ∧
      S.read = values ∧ ∀ c, (S.signal c).changeEvent = changeEvent c) → Known channels ps →
      deltaCycle pol ps S = some (o, S') → o = (evolve changeEvent ps values).1 ∧
        (Settled channels S' ∧ S'.read = (evolve changeEvent ps values).2 ∧
          ∀ c, (S'.signal c).changeEvent = changeEvent c) := by
    rintro ps S _ o S' ⟨D, rfl, hevent⟩ hps hcycle
    obtain ⟨D', hcs⟩ := deltaCycle_spec D (fun p hp => hps p hp S.read) hcycle
    have hread : S'.read = (evolve changeEvent ps S.read).2 := funext fun c => (hcs c).1
    refine ⟨funext fun c => ?_, D', hread, fun c => (hcs c).2.2.1.trans (hevent c)⟩
    rw [(hcs c).2.1, hevent c, hread]
    rfl
  obtain ⟨hos, D, hread, -⟩ := run_sound hstep ⟨start_settled h, rfl, fun _ => rfl⟩ hpss hrun
  exact ⟨hos, hread, fun c => (D.calm c).2⟩

/-- Two processes, each of which assigns the value of the other's signal to its own. -/
def swap : List (Writer ℕ ℕ) :=
  [⟨1, fun read => [(8, read 16)]⟩, ⟨2, fun read => [(16, read 8)]⟩]

theorem swap_known : ∀ ps ∈ [swap, swap], Known [8, 16] ps := by
  simp [swap, Known]

theorem swap_channels :
    ∀ c ∈ ([8, 16] : List Handle), c ≠ null ∧ c ≠ PrimChannelRegistry.listEnd := by
  simp only [List.forall_mem_cons, List.not_mem_nil, false_implies, implies_true]
  decide

theorem signals_run_swap : ∃ os S', run (deltaCycle .oneWriter) [swap, swap]
    (start [8, 16] (fun c => c.toNat) fun c => decide (c = 8)) = some (os, S') ∧
    os.map (fun o => (o 8, o 16)) = [(true, false), (true, false)] ∧
    (S'.read 8, S'.read 16) = (8, 16) := by
  have hsome : (run (deltaCycle .oneWriter) [swap, swap]
      (start [8, 16] (fun c => c.toNat) fun c => decide (c = 8))).isSome := rfl
  obtain ⟨⟨os, S'⟩, hrun⟩ := Option.isSome_iff_exists.mp hsome
  obtain ⟨rfl, hread, -⟩ := signals_run swap_channels swap_known hrun
  exact ⟨_, S', hrun, rfl, by rw [hread]; rfl⟩

/-- **The order of the processes does not matter.** When every signal has one writer, two runs
whose evaluation phases run the same processes, each process as often and in the order of its
own runs, are the same: cycle by cycle the same values, events and refusals. -/
theorem order_irrelevant {channels : List Handle}
    (h : ∀ c ∈ channels, c ≠ null ∧ c ≠ PrimChannelRegistry.listEnd) (init : Handle → T)
    (changeEvent : Handle → Bool) {pss pss' : List (List (Writer P T))}
    (hpss : ∀ ps ∈ pss, Known channels ps)
    (horder : List.Forall₂ (SameOrder Writer.id) pss pss') :
    run (deltaCycle .oneWriter) pss (start channels init changeEvent) =
      run (deltaCycle .oneWriter) pss' (start channels init changeEvent) := by
  have hrun : ∀ S : Signals P T, Settled channels S →
      run (deltaCycle .oneWriter) pss S = run (deltaCycle .oneWriter) pss' S := by
    induction horder with
    | nil => exact fun S _ => rfl
    | cons hps _ ih =>
        intro S D
        obtain ⟨hknown, hpss⟩ := List.forall_mem_cons.mp hpss
        rw [run_cons, run_cons, ← deltaCycle_congr D (fun p hp => hknown p hp S.read) hps]
        cases hcycle : deltaCycle .oneWriter _ S with
        | none => rfl
        | some r =>
            have D' := (deltaCycle_spec D (fun p hp => hknown p hp S.read) hcycle).1
            rw [Option.bind_some, Option.bind_some, ih hpss r.2 D']
  exact hrun _ (start_settled h)

theorem order_irrelevant_swap :
    run (deltaCycle .oneWriter) [swap] (start [8, 16] (fun c => c.toNat) fun c =>
      decide (c = 8)) =
      run (deltaCycle .oneWriter) [swap.reverse]
        (start [8, 16] (fun c => c.toNat) fun c => decide (c = 8)) := by
  have horder : SameOrder Writer.id swap swap.reverse := by
    intro i
    by_cases h₁ : 1 = i
    · subst h₁
      rfl
    · by_cases h₂ : 2 = i <;> simp [own, swap, h₁, h₂]
  exact order_irrelevant swap_channels _ _ (fun ps hps => swap_known ps (by simp_all))
    (.cons horder .nil)

/-- The writes of a run, which depend on the values. -/
def runWrites : List (List (Writer P T)) → (Handle → T) → List (Write P T)
  | [], _ => []
  | ps :: pss, values =>
      allWrites ps values ++ runWrites pss fun c => lastValue c (allWrites ps values)
        (values c)

/-- **When a write is refused.** With one writer for each signal, a simulation runs to its end
exactly when no signal is written by two processes in it. -/
theorem accepted_iff {channels : List Handle}
    (h : ∀ c ∈ channels, c ≠ null ∧ c ≠ PrimChannelRegistry.listEnd) (init : Handle → T)
    (changeEvent : Handle → Bool) {pss : List (List (Writer P T))}
    (hpss : ∀ ps ∈ pss, Known channels ps) :
    (∃ r, run (deltaCycle .oneWriter) pss (start channels init changeEvent) = some r) ↔
      ∀ c, ∃ p, ∀ w ∈ own Write.channel c (runWrites pss init), w.writer = p := by
  have hrun : ∀ S : Signals P T, Settled channels S →
      ((∃ r, run (deltaCycle .oneWriter) pss S = some r) ↔ ∀ c, ∃ q, Held (S.signal c) q ∧
        ∀ w ∈ own Write.channel c (runWrites pss S.read), w.writer = q) := by
    induction pss with
    | nil =>
        intro S _
        refine iff_of_true ⟨_, rfl⟩ fun c => ⟨(S.signal c).writer, fun _ => rfl, ?_⟩
        intro w hw
        cases hw
    | cons ps pss ih =>
        intro S D
        obtain ⟨hknown, hpss⟩ := List.forall_mem_cons.mp hpss
        have hps := fun p hp => hknown p hp S.read
        obtain ⟨hcycle, hafter⟩ := deltaCycle_held D hps
        simp only [runWrites, own_append, List.forall_mem_append]
        rw [run_cons]
        cases hr : deltaCycle .oneWriter ps S with
        | none =>
            refine iff_of_false (by simp) fun hall => ?_
            obtain ⟨r, hsome⟩ := hcycle.mpr fun c => (hall c).imp fun q h => ⟨h.1, h.2.1⟩
            cases hr.symm.trans hsome
        | some r =>
            obtain ⟨D', hcs⟩ := deltaCycle_spec D hps hr
            have hread : r.2.read = fun c => lastValue c (allWrites ps S.read) (S.read c) :=
              funext fun c => (hcs c).1
            have hrest := ih hpss r.2 D'
            simp only [hafter r hr, hread, and_assoc] at hrest
            rw [← hrest, Option.bind_some]
            refine ⟨fun ⟨r', h⟩ => ?_, fun ⟨r', h⟩ =>
              ⟨_, Option.map_eq_some_iff.mpr ⟨r', h, rfl⟩⟩⟩
            obtain ⟨r', h, -⟩ := Option.map_eq_some_iff.mp h
            exact ⟨r', h⟩
  have hstart : ∀ (c : Handle) q,
    Held ((start channels init changeEvent : Signals P T).signal c)
      q := fun c q hne => absurd rfl hne
  have := hrun (start channels init changeEvent) (start_settled h)
  simp only [hstart, true_and] at this
  exact this

theorem accepted_iff_clash :
    ¬ ∃ r, run (deltaCycle .oneWriter) [swap, [⟨2, fun _ => [(8, 5)]⟩]]
    (start [8, 16] (fun c => c.toNat) fun c => decide (c = 8)) = some r := by
  rw [accepted_iff swap_channels _ _ (by simp [swap, Known])]
  intro h
  obtain ⟨p, hp⟩ := h 8
  cases (hp ⟨some 1, 8, 16⟩ (by simp [own, runWrites, allWrites, swap, Writer.writes])).trans
    (hp ⟨some 2, 8, 5⟩ (by simp [own, runWrites, allWrites, swap, Writer.writes])).symm

end Signals
end Pscv.Kernel
