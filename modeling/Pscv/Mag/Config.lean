import Mathlib.Algebra.Group.Int.Defs
import Mathlib.Algebra.Group.Nat.Defs
import Mathlib.Data.String.Basic
import Pscv.Lib.KeyedSet

/-!
# The configuration

What the generators read of `global_params` and `monitor_params`. Labels and names are
the words of the configuration file; an `sset_t` is traversed in the order of its
strings, an `ssmap_t` in the order of its keys.

## Main definitions

* `GlobalParams`, `MonitorParams`.
* `GlobalParams.getEventClockLabelsSubset`, `getEventFromClock`.
-/

namespace Pscv.Mag

open Pscv.Lib

/-- `sset_t`. -/
abbrev SSet := KeyedSet (id : String → String)

/-- `ssmap_t`. -/
abbrev SSMap := KeyedSet (Prod.fst : String × String → String)

/-- The value of a key. -/
def SSMap.find (m : SSMap) (k : String) : Option String :=
  (m.toList.find? fun p => p.1 = k).map Prod.snd

/-- What a C function sees of a string. -/
def cString (t : List Char) : List Char := t.takeWhile (· ≠ '\x00')

/-- `c_str`, of a string that is printed. -/
def cStr (s : String) : String := String.ofList (cString s.toList)

/-- A count in an `int`. -/
def int32 (n : ℕ) : ℤ := if n % 2 ^ 32 < 2 ^ 31 then n % 2 ^ 32 else n % 2 ^ 32 - 2 ^ 32

/-- `func_befter_t`. -/
inductive FuncBefter
  | entry | exit | call | return | dummy
  deriving DecidableEq

/-- `func_loc_t`. -/
structure FuncLoc where
  locName : String
  funcIdentifier : String
  funcBefter : FuncBefter

/-- `plocation_t`. -/
structure PLocation where
  locName : String
  pattern : String

/-- `user_val_t`. Index zero is the return value of the function. -/
structure UserVal where
  valType : String
  valName : String
  funcIdentifier : String
  paramIndex : ℤ

/-- `global_params`. -/
structure GlobalParams where
  monName : String
  /-- `all_objects`: the observed objects and their types. -/
  vartypes : SSMap
  /-- The expression of each attribute label. -/
  attributelabels : SSMap
  /-- The type of each attribute label. -/
  attributetypes : SSMap
  /-- The clock expression of each event clock label. -/
  eventclocklabels : SSMap
  funcLocs : List FuncLoc
  plocations : List PLocation
  userVals : List UserVal
  writeToFile : Bool
  /-- The classes that declare the monitor a friend. -/
  userObjects : SSet
  /-- The clocks of all monitors. -/
  timeresolution : SSet

/-- `monitor_params`: the number of objects created before this one, an `int`, and the
clocks. -/
structure MonitorParams where
  id : ℤ
  clocks : SSet

namespace GlobalParams
variable (gp : GlobalParams)

/-- `is_event_clock`. -/
def isEventClock (label : String) : Bool := (gp.eventclocklabels.find label).isSome

/-- `get_event_clock_labels_subset`. -/
def getEventClockLabelsSubset (labels : SSet) : SSet :=
  ⟨labels.toList.filter gp.isEventClock, labels.sorted.filter _⟩

/-- `get_event_clock`, for a label that has one. -/
def getEventClock (label : String) : String := (gp.eventclocklabels.find label).getD ""

end GlobalParams

/-- `get_event_clock_extension`. -/
def eventClockExtension : String := ".notified"

/-- `get_event_from_clock`: the difference of two `size_t` in an `int`. A negative length of
the substring, as for a clock shorter than the extension, takes the whole string. -/
def getEventFromClock (clock : String) : String :=
  let lastIndex := int32 (clock.length + 2 ^ 64 - eventClockExtension.length)
  if lastIndex < 0 then clock else String.ofList (clock.toList.take lastIndex.toNat)

end Pscv.Mag
