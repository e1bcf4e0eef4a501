import Pscv.Mag.Main

/-!
# The events of the event clocks

The expression of an `eventclock` line is the event, followed by `.notified`. The generators
remove the last characters of the expression, whatever they are.

## Main results

* `eventclock_named_iff`.
-/

namespace Pscv.Mag

open Pscv.Lib

/-- A string ends with the extension of the event clocks, and has more than it. -/
def EndsNotified (clock : String) : Prop :=
  eventClockExtension.length < clock.length ∧ eventClockExtension.toList <:+ clock.toList

instance (clock : String) : Decidable (EndsNotified clock) :=
  inferInstanceAs (Decidable (_ ∧ _))

/-- The registration and both passes of the callback name an event for a label. -/
structure NamesEvent (gp : GlobalParams) (mp : MonitorParams) (label event : String) :
    Prop where
  registered : ∀ expr, .event expr ∈ registerClock gp label ↔ expr = event
  before_step : ∀ expr, .ifEvent expr label true ∈ (eventFunc gp mp).body ↔ expr = event
  after_step : ∀ expr, .ifEvent expr label false ∈ (eventFunc gp mp).body ↔ expr = event

/-! ## The extension -/

section Extension
variable {clock event : String}

theorem eq_append_iff_endsNotified :
    (∃ event ≠ "", clock = event ++ eventClockExtension) ↔ EndsNotified clock := by
  constructor
  · rintro ⟨event, hne, rfl⟩
    refine ⟨?_, ?_⟩
    · rw [String.length_append]
      have hpos : 0 < event.length := by
        rw [Nat.pos_iff_ne_zero, Ne, String.length_eq_zero_iff]
        exact hne
      omega
    · rw [String.toList_append]
      exact List.suffix_append _ _
  · rintro ⟨hlen, rest, hrest⟩
    have happend : clock = String.ofList rest ++ eventClockExtension := by
      rw [← String.toList_inj, String.toList_append, String.toList_ofList, hrest]
    refine ⟨String.ofList rest, ?_, happend⟩
    intro hempty
    rw [happend, hempty, String.length_append] at hlen
    exact absurd hlen (by simp)

theorem int32_add (n : ℕ) : int32 (n + 2 ^ 64) = int32 n := by
  rw [int32, int32]
  omega

/-- The extension is removed from the expressions that are not too long. -/
theorem getEventFromClock_append :
    getEventFromClock (event ++ eventClockExtension) = event ↔ event.length < 2 ^ 31 := by
  have hindex : int32 ((event ++ eventClockExtension).length +
    2 ^ 64 - eventClockExtension.length)
      = int32 event.length := by
    have hsub : (event ++ eventClockExtension).length + 2 ^ 64 - eventClockExtension.length
        = event.length + 2 ^ 64 := by
      rw [String.length_append]
      omega
    rw [hsub, int32_add]
  have hlen : event.toList.length = event.length := String.length_toList
  simp only [getEventFromClock, hindex]
  constructor
  · intro h
    by_contra hlong
    by_cases hneg : int32 event.length < 0
    · rw [if_pos hneg] at h
      have := congrArg String.length h
      rw [String.length_append] at this
      exact absurd this (by simp [eventClockExtension])
    · rw [if_neg hneg] at h
      have htake := congrArg (fun s => s.toList.length) h
      simp only [String.toList_ofList, List.length_take] at htake
      rw [int32] at htake hneg
      omega
  · intro hshort
    have hsame : int32 event.length = event.length := by
      rw [int32]
      omega
    rw [hsame, if_neg (by omega), Int.toNat_natCast, String.toList_append, ← hlen,
      List.take_left, String.ofList_toList]

end Extension

/-! ## The generated events -/

section Named
variable {gp : GlobalParams} {mp : MonitorParams} {label expr event : String}

theorem mem_eventFunc_pass {b : Bool} : .ifEvent expr label b ∈ (eventFunc gp mp).body ↔
    label ∈ (eventClockLabels gp mp).toList ∧ expr = eventName gp label := by
  have hpass : ∀ b', .ifEvent expr label b ∈ ((eventClockLabels gp mp).toList.map fun l =>
      Action.ifEvent (eventName gp l) l b') ↔
        b = b' ∧ label ∈ (eventClockLabels gp mp).toList ∧ expr = eventName gp label := by
    intro b'
    rw [List.mem_map]
    constructor
    · intro h
      obtain ⟨l, hl, heq⟩ := h
      obtain ⟨hexpr, rfl, hb⟩ := Action.ifEvent.inj heq
      exact ⟨hb.symm, hl, hexpr.symm⟩
    · intro h
      obtain ⟨hb, hl, hexpr⟩ := h
      exact ⟨label, hl, by rw [hb, hexpr]⟩
  have hstep : .ifEvent expr label b ≠ Action.step := Action.noConfusion
  rw [eventFunc]
  simp only [List.mem_append, List.mem_singleton, hstep, or_false, hpass]
  cases b <;> simp

/-- The one event that is named for a label in the clocks. -/
theorem namesEvent_iff (hclk : label ∈ mp.clocks.toList)
    (hexpr : gp.eventclocklabels.find label = some expr) :
    NamesEvent gp mp label event ↔ getEventFromClock expr = event := by
  have hevent : gp.isEventClock label := by
    rw [GlobalParams.isEventClock, hexpr]
    rfl
  have hname : eventName gp label = getEventFromClock expr := by
    rw [eventName, GlobalParams.getEventClock, hexpr]
    rfl
  constructor
  · intro h
    rw [← hname]
    exact (h.registered _).mp (mem_registerClock_event.mpr ⟨hevent, rfl⟩)
  · intro h
    subst h
    have hlabel := mem_eventClockLabels.mpr ⟨hclk, hevent⟩
    constructor
    · intro e
      rw [mem_registerClock_event, hname]
      exact and_iff_right hevent
    · intro e
      rw [mem_eventFunc_pass, hname]
      exact and_iff_right hlabel
    · intro e
      rw [mem_eventFunc_pass, hname]
      exact and_iff_right hlabel

end Named

/-! ## The lines -/

section Lines
variable {lines pre post : List (String × String)} {m : SSMap} {line : String × String}
  {k : String}

theorem find_setPairs_of_not_mem (h : k ∉ lines.map Prod.snd) :
    (Config.setPairs lines m).find k = m.find k := by
  induction lines generalizing m with
  | nil => rfl
  | cons line lines ih =>
      rw [List.map_cons, List.mem_cons, not_or] at h
      rw [Config.setPairs, List.foldl_cons, ← Config.setPairs, ih h.2, SSMap.find_set,
        if_neg h.1]

/-- The last line of a label gives its expression. -/
theorem find_setPairs_of_last (h : lines = pre ++ line :: post)
    (hlast : line.2 ∉ post.map Prod.snd) :
    (Config.setPairs lines m).find line.2 = some line.1 := by
  rw [h, Config.setPairs, List.foldl_append, List.foldl_cons, ← Config.setPairs,
    ← Config.setPairs, find_setPairs_of_not_mem hlast, SSMap.find_set, if_pos rfl]

/-- **The events of the lines.** An accepted line names an event, which the registration and
both passes of the callback name as well where no later line defines the label, exactly when
the expression ends with the extension and is not too long. -/
theorem eventclock_named_iff (args : List (String × String)) (text : String) {c : Config}
    (hc : globalParams args text = some c) (pre post : List (String × String))
    (line : String × String) (hline : Config.pairLines "eventclock" text = pre ++ line ::
      post) :
    (∃ event, event ≠ "" ∧ line.1 = event ++ eventClockExtension ∧
      (line.2 ∉ post.map Prod.snd → ∀ mp : MonitorParams, line.2 ∈ mp.clocks.toList →
        NamesEvent c.toGlobalParams mp line.2 event)) ↔
    EndsNotified line.1 ∧
      (line.2 ∉ post.map Prod.snd → line.1.length < 2 ^ 31 + eventClockExtension.length) := by
  have hfind : line.2 ∉ post.map Prod.snd → c.eventclocklabels.find line.2 = some line.1 := by
    intro hlast
    obtain ⟨c₀, hparse, w, hw⟩ := parseConfigFile_of_globalParams hc
    rw [Config.parseConfigFile, parse_eq_foldlM] at hparse
    rw [hw]
    change c₀.eventclocklabels.find line.2 = some line.1
    rw [Config.eventclocklabels_foldlM hparse]
    exact find_setPairs_of_last hline hlast
  have hlen : ∀ event, line.1 = event ++ eventClockExtension →
      (line.1.length < 2 ^ 31 + eventClockExtension.length ↔ event.length < 2 ^ 31) := by
    intro event h
    rw [h, String.length_append]
    omega
  rw [← eq_append_iff_endsNotified]
  constructor
  · intro h
    obtain ⟨event, hne, heq, hnames⟩ := h
    refine ⟨⟨event, hne, heq⟩, fun hlast => ?_⟩
    have hmem : line.2 ∈ (KeyedSet.empty.insert line.2 : Bool × SSet).2.toList := by
      rw [KeyedSet.mem_insert Function.injective_id]
      exact .inl rfl
    have hname := (namesEvent_iff hmem (hfind hlast)).mp (hnames hlast ⟨0, _⟩ hmem)
    rw [hlen event heq, ← getEventFromClock_append, ← heq]
    exact hname
  · intro h
    obtain ⟨⟨event, hne, heq⟩, hshort⟩ := h
    refine ⟨event, hne, heq, fun hlast mp hmem => ?_⟩
    rw [namesEvent_iff hmem (hfind hlast), heq, getEventFromClock_append, ← hlen event heq]
    exact hshort hlast

/-- An event clock as the manual defines it. -/
theorem eventclock_named_iff_notified : ∃ c,
    globalParams [] "eventclock a->e.notified e_notified\n" = some c ∧
      ∃ event, event ≠ "" ∧ "a->e.notified" = event ++ eventClockExtension := by
  have hc : (globalParams [] "eventclock a->e.notified e_notified\n").isSome := rfl
  obtain ⟨c, hc⟩ := Option.isSome_iff_exists.mp hc
  obtain ⟨event, hne, heq, -⟩ := (eventclock_named_iff [] _ hc [] []
    ("a->e.notified", "e_notified") rfl).mpr (by decide)
  exact ⟨c, hc, event, hne, heq⟩

/-- The words in the order of an example of the manual: the event that is named is the first
of them, and nothing is removed. -/
theorem swappedWords_named : ∃ c,
    globalParams [] "eventclock wevent write_event.notified\n" = some c ∧
      Config.pairLines "eventclock" "eventclock wevent write_event.notified\n"
        = [("wevent", "write_event.notified")] ∧
      ¬ EndsNotified "wevent" ∧
      .event "wevent" ∈ registerClock c.toGlobalParams "write_event.notified" :=
  ⟨_, rfl, rfl, by decide, by decide⟩

end Lines

end Pscv.Mag
