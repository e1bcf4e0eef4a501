import Pscv.Lib.Scope
import Pscv.Mag.Main

/-!
# The objects of the monitor

The objects that the user passes to `createInstance` go through three parameter lists and
two argument lists, which two generators emit: `createInstance` constructs the local
observer, its constructor constructs the monitor, and the constructor of the monitor
assigns its parameters, which are numbered, to members. Arguments are passed by position.

## Main results

* `createInstance_passes_objects`.
-/

namespace Pscv.Mag

open Pscv.Lib

/-! ## The emitted lists -/

section Generators
variable {alloc : ℕ → ℕ} (gp : GlobalParams) (mp : MonitorParams) (mons : MpSet alloc)

/-- `observer_objects`. -/
def observerObjects : List (Decl String String) := gp.vartypes.toList.map fun p => ⟨p.2, p.1⟩

/-- `observer_object_firsts`. -/
def observerObjectFirsts : List String := gp.vartypes.toList.map Prod.fst

/-- The parameters of the constructor `local_observer`. -/
def localObserverParams : List (Decl String String) :=
  ⟨"unsigned int", "verbosity"⟩ :: observerObjects gp

/-- The parameters of `createInstance`. -/
def createInstanceParams : List (Decl String String) :=
  ⟨"unsigned int", "verbosity"⟩ :: observerObjects gp

/-- The arguments of `new local_observer`. -/
def newLocalObserverArgs : List String := "verbosity" :: observerObjectFirsts gp

/-- The arguments of `new`, for the monitor, after `this`. -/
def newMonitorArgs : List String := gp.vartypes.toList.map Prod.fst

/-- The variable that the constructor `local_observer` declares for the monitor. -/
def monitorInst : String := monitorName gp mp ++ "_inst"

/-- The names of the class of the monitor and of its member functions. -/
def functionNames : List String :=
  [monitorName gp mp, "step"] ++
  (if (eventClockLabels gp mp).toList.isEmpty then [] else ["callback_event_notified"]) ++
  ((kernelClocks.filter fun p => mp.clocks.toList.any fun clk =>
    strcaseEq clk (clockName p) || strcaseEq clk "DEFAULT_CLOCK").map pointCallback) ++
  ((mp.clocks.toList.filter fun clk => !isKernelClock clk && !gp.isEventClock clk).map
    fun clk => "callback_userloc_" ++ clk) ++
  (userValNames gp).map fun name => "value_callback_" ++ name

/-- The names in a type. A qualified name stays whole, since no member hides it. -/
def typeWords (type : String) : List String :=
  (tokens (fun ch => !(ch.isAlphanum || ch = '_' || ch = ':')) type.toList).map String.ofList

/-- The names that the class uses from outside: functions, the types of its members, which no
member may have the name of, and the sample points that it registers for. -/
def outsideNames : List String :=
  ["strcmp", "sc_stop", "sc_time_stamp", "exit"] ++
  ((declaredMembers gp mp).flatMap fun m => typeWords m.1) ++
  mp.clocks.toList.flatMap fun clk =>
    if strcaseEq clk "DEFAULT_CLOCK" then kernelClocks.map clockName
    else if isKernelClock clk then [clk] else []

/-- `constructor_arguments`, and the observer in front of them. -/
def constructorArguments : List (Decl String String) :=
  ⟨"sc_core::mon_observer*", "obs"⟩ ::
    gp.vartypes.toList.zipIdx.map fun p => ⟨p.1.2, "obj" ++ toString p.2⟩

end Generators

/-! ## Running the constructors -/

/-- What a parameter or a member holds. -/
inductive Content (O : Type)
  | verbosity (n : ℕ)
  /-- The local observer, as a pointer to its base class. -/
  | observer
  | object (o : O)
  | bool (b : Bool)
  | zero

/-- A statement of the constructor of the monitor, as an assignment. -/
def Action.assign? {O : Type} : Action → Option (Assign String (Content O))
  | assignObj name param => some ⟨name, .var param⟩
  | assignBool name b => some ⟨name, .const (.bool b)⟩
  | assignZero name => some ⟨name, .const .zero⟩
  | _ => none

/-- The members of a monitor; those that are not assigned hold nothing. -/
abbrev Members (O : Type) := String → Option (Content O)

/-- The local observer: what its base class is given, and `mons`. -/
structure LocalObserver (O : Type) where
  verbosity : Content O
  mons : List (String × Members O)

section Constructors
variable {O : Type} {alloc : ℕ → ℕ} (gp : GlobalParams) (mp : MonitorParams)
    (mons : MpSet alloc)

/-- The constructor of the monitor. A member with the name of another member, of the class,
of one of its functions, or of something that it uses from outside is an error of the
compiler. -/
def newMonitor (args : List (String × Content O)) : Option (Members O) := do
  let f ← monitorConstructor gp mp
  if ∃ name ∈ observerObjectFirsts gp,
      name ∈ ["observer", "status"] ++ functionNames gp mp ++ outsideNames gp mp ++
        boolLabels gp mp ++ userValNames gp then none
  else
    let fr ← bindArgs (constructorArguments gp) args
    let s ← execAll (f.body.filterMap Action.assign?) ⟨fr, fun _ => none⟩
    return s.outer

/-- The constructor `local_observer`. A parameter that hides `mons` or the class of the
monitor, or that has the name of the variable or of another parameter, is an error of the
compiler. -/
def newLocalObserver (args : List (String × Content O)) : Option (LocalObserver O) := do
  let fr ← bindArgs (localObserverParams gp) args
  let verbosity ← fr.find "verbosity"
  match firstMonitor gp mons with
  | some mp =>
      if ∃ name ∈ observerObjectFirsts gp, name ∈ ["verbosity", "mons", monitorName gp mp,
        monitorInst gp mp] then
        none
      else
        let objs ← fr.args (newMonitorArgs gp)
        let members ← newMonitor gp mp (("sc_core::mon_observer*", .observer) :: objs)
        return ⟨verbosity.2, [(monitorName gp mp, members)]⟩
  | none => return ⟨verbosity.2, []⟩

/-- `createInstance`, called with `m_instance`: the instance that it leaves and returns.
A parameter that hides `m_instance` or the class, or that has the name of another one, is an
error of the compiler, and so is a call with another number of arguments. -/
def createInstance (mInstance : Option (LocalObserver O)) (verbosity : ℕ) (objs : List O) :
    Option (LocalObserver O) :=
  if (∃ name ∈ observerObjectFirsts gp,
      name ∈ ["verbosity", "m_instance", "local_observer"]) ∨
      objs.length ≠ (observerObjects gp).length then none
  else
    match mInstance with
    | none =>
        let fr := (createInstanceParams gp).zip (.verbosity verbosity :: objs.map .object)
        (Frame.args fr (newLocalObserverArgs gp)).bind (newLocalObserver gp mons)
    | some obs => some obs

end Constructors

/-- The names that the generators declare or use besides those of the type lines. -/
def introducedNames (gp : GlobalParams) (mp : MonitorParams) : List String :=
  ["verbosity", "m_instance", "local_observer", "mons", monitorInst gp mp, "observer",
    "status"] ++ functionNames gp mp ++ outsideNames gp mp ++ ctorParams gp ++
      boolLabels gp mp ++ userValNames gp

/-- The emitted lists agree position by position. -/
structure ListsAgree (gp : GlobalParams) (mp : MonitorParams) (ctor : Func) : Prop where
  /-- `createInstance` passes each of its parameters to one of the same type. -/
  instanceArgs : newLocalObserverArgs gp = (createInstanceParams gp).map Decl.name
  instanceTypes : (localObserverParams gp).map Decl.type =
    (createInstanceParams gp).map Decl.type
  /-- So does the constructor of the local observer, but for the verbosity. -/
  monitorArgs : newMonitorArgs gp = (localObserverParams gp).tail.map Decl.name
  monitorTypes :
    (constructorArguments gp).tail.map Decl.type = (localObserverParams gp).tail.map Decl.type
  /-- The parameters of the constructor are assigned to the members of these names. -/
  ctorParams : (constructorArguments gp).map Decl.name = ctor.params
  members : ∃ rest, ctor.body = .assignObj "observer" "obs" ::
    List.zipWith .assignObj (newMonitorArgs gp) ctor.params.tail ++ rest ∧
      ∀ name param, .assignObj name param ∉ rest
  memberTypes : ∀ d ∈ observerObjects gp, (d.type, d.name) ∈ declaredMembers gp mp

/-- Each member holds the object that is passed for it. -/
def HoldsObjects {O : Type} (gp : GlobalParams) (objs : List O) (members : Members O) : Prop :=
  ∀ d o, (d, o) ∈ (observerObjects gp).zip objs → members d.name = some (.object o)

/-! ## The lists -/

section Lists
variable {gp : GlobalParams} {mp : MonitorParams}

theorem nodup_observerObjectFirsts (gp : GlobalParams) : (observerObjectFirsts gp).Nodup := by
  have hsorted := List.pairwise_map.mpr gp.vartypes.sorted
  exact hsorted.imp fun h => h.ne

theorem names_observerObjects (gp : GlobalParams) :
    (observerObjects gp).map Decl.name = observerObjectFirsts gp := by
  rw [observerObjects, List.map_map]
  rfl

theorem types_constructorArguments (gp : GlobalParams) :
    (constructorArguments gp).map Decl.type
    = "sc_core::mon_observer*" :: (observerObjects gp).map Decl.type := by
  have hfst := congrArg (List.map Prod.snd) (List.zipIdx_map_fst 0 gp.vartypes.toList)
  rw [List.map_map] at hfst
  rw [constructorArguments, observerObjects, List.map_cons, List.map_map, List.map_map]
  exact congrArg _ hfst

theorem names_constructorArguments (gp : GlobalParams) :
    (constructorArguments gp).map Decl.name = ctorParams gp := by
  have hsnd := congrArg (List.map fun i => "obj" ++ toString i)
    (List.zipIdx_map_snd 0 gp.vartypes.toList)
  rw [List.map_map, ← List.range_eq_range'] at hsnd
  rw [constructorArguments, ctorParams, List.map_cons, List.map_map]
  exact congrArg _ hsnd

theorem objName_inj {i j : ℕ} (h : "obj" ++ toString i = "obj" ++ toString j) : i = j := by
  have hrepr : i.repr = j.repr := (String.append_right_inj _).mp h
  have hdigits := congrArg (fun s => Nat.ofDigitChars 10 s.toList 0) hrepr
  simpa using hdigits

theorem objName_ne (s : String) : "obj" ++ s ≠ "obs" := by
  intro h
  have hlist := congrArg String.toList h
  rw [String.toList_append] at hlist
  simp at hlist

/-- The parameters of the constructor have different names. -/
theorem nodup_ctorParams (gp : GlobalParams) : (ctorParams gp).Nodup := by
  rw [ctorParams, List.nodup_cons]
  constructor
  · intro hmem
    obtain ⟨i, -, hi⟩ := List.mem_map.mp hmem
    exact objName_ne _ hi
  · exact List.nodup_range.map fun i j => objName_inj

theorem observer_not_mem_ctorParams (gp : GlobalParams) : "observer" ∉ ctorParams gp := by
  intro hmem
  rcases List.mem_cons.mp hmem with heq | hmem
  · exact absurd heq (by decide)
  · obtain ⟨i, -, hi⟩ := List.mem_map.mp hmem
    have hlist := congrArg String.toList hi
    rw [String.toList_append] at hlist
    simp at hlist

/-- The assignments of the parameters to the members. -/
theorem objectAssigns_eq (gp : GlobalParams) :
    (gp.vartypes.toList.zipIdx.map fun p => Action.assignObj p.1.1 ("obj" ++ toString p.2))
      = List.zipWith .assignObj (newMonitorArgs gp) (ctorParams gp).tail := by
  rw [List.zipIdx_eq_zip_range', newMonitorArgs, ctorParams, List.tail_cons, List.zipWith_map,
    List.map_zip_eq_zipWith, List.range_eq_range']
  rfl

end Lists

/-! ## The constructor of the monitor -/

section Monitor
variable {O : Type} {gp : GlobalParams} {mp : MonitorParams} {ctor : Func}

/-- The type names are no parameters of the constructor and no other members, and no names
that the class needs. -/
structure TypesApart (gp : GlobalParams) (mp : MonitorParams) : Prop where
  needed : ∀ name ∈ observerObjectFirsts gp,
    name ∉ ["observer", "status"] ++ functionNames gp mp ++ outsideNames gp mp
  params : ∀ name ∈ observerObjectFirsts gp, name ∉ ctorParams gp
  labels : ∀ name ∈ observerObjectFirsts gp, name ∉ boolLabels gp mp
  values : ∀ name ∈ observerObjectFirsts gp, name ∉ userValNames gp

theorem TypesApart.observer (h : TypesApart gp mp) :
    ∀ name ∈ observerObjectFirsts gp, name ≠ "observer" := by
  rintro name hname rfl
  exact h.needed _ hname (by simp)

/-- The assignments of constants. -/
def ctorConstants (gp : GlobalParams) (mp : MonitorParams) : List Action :=
  (gp.funcLocs.map fun l => .assignBool l.locName false) ++
  (gp.plocations.map fun l => .assignBool l.locName false) ++
  (gp.userVals.map fun v => .assignZero v.valName) ++
  ((eventClockLabels gp mp).toList.map fun label => .assignBool label false)

theorem ctorBody_eq (gp : GlobalParams) (mp : MonitorParams) :
    ctorBody gp mp = .assignObj "observer" "obs" ::
      List.zipWith .assignObj (newMonitorArgs gp) (ctorParams gp).tail ++
        ctorConstants gp mp := by
  simp only [ctorBody, ctorConstants, objectAssigns_eq, List.append_assoc, List.cons_append,
    List.nil_append]

/-- What the assignments of constants assign. -/
theorem mem_ctorConstants {a : Action} (ha : a ∈ ctorConstants gp mp) :
    ∃ name, (name ∈ boolLabels gp mp ∨ name ∈ userValNames gp) ∧
      (a = .assignBool name false ∨ a = .assignZero name) := by
  simp only [ctorConstants, List.mem_append, List.mem_map] at ha
  simp only [boolLabels, userValNames, List.mem_append, List.mem_map]
  rcases ha with ((⟨l, hl, rfl⟩ | ⟨l, hl, rfl⟩) | ⟨v, hv, rfl⟩) | ⟨label, hlabel, rfl⟩
  · exact ⟨_, .inl (.inl (.inr ⟨l, hl, rfl⟩)), .inl rfl⟩
  · exact ⟨_, .inl (.inr ⟨l, hl, rfl⟩), .inl rfl⟩
  · exact ⟨_, .inr ⟨v, hv, rfl⟩, .inr rfl⟩
  · exact ⟨_, .inl (.inl (.inl hlabel)), .inl rfl⟩

/-- The assignments of the observer and of the objects. -/
def ctorObjects (O : Type) (gp : GlobalParams) : List (Assign String (Content O)) :=
  ⟨"observer", .var "obs"⟩ ::
    gp.vartypes.toList.zipIdx.map fun p => ⟨p.1.1, .var ("obj" ++ toString p.2)⟩

theorem filterMap_ctorBody (gp : GlobalParams) (mp : MonitorParams) :
    (ctorBody gp mp).filterMap Action.assign?
      = ctorObjects O gp ++ (ctorConstants gp mp).filterMap Action.assign? := by
  have hobjects : (gp.vartypes.toList.zipIdx.map fun p =>
      Action.assignObj p.1.1 ("obj" ++ toString p.2)).filterMap Action.assign?
      = (ctorObjects O gp).tail := by
    have hcomp : (Action.assign? ∘ fun p : (String × String) × ℕ =>
        Action.assignObj p.1.1 ("obj" ++ toString p.2)) =
        some ∘ fun p => (⟨p.1.1, .var ("obj" ++ toString p.2)⟩ : Assign String (Content O)) :=
          rfl
    rw [List.filterMap_map, hcomp, List.filterMap_eq_map]
    rfl
  rw [ctorBody_eq, ← objectAssigns_eq, List.cons_append, List.filterMap_cons,
    List.filterMap_append, hobjects]
  rfl

theorem targets_ctorObjects (gp : GlobalParams) :
    (ctorObjects O gp).map Assign.target = "observer" :: observerObjectFirsts gp := by
  have hfst := congrArg (List.map Prod.fst) (List.zipIdx_map_fst 0 gp.vartypes.toList)
  rw [List.map_map] at hfst
  rw [ctorObjects, observerObjectFirsts, List.map_cons, List.map_map]
  exact congrArg _ hfst

theorem constants_assign? {a : Assign String (Content O)}
    (ha : a ∈ (ctorConstants gp mp).filterMap Action.assign?) :
    (∃ v, a.rhs = .const v) ∧ (a.target ∈ boolLabels gp mp ∨ a.target ∈ userValNames gp) := by
  obtain ⟨b, hb, hba⟩ := List.mem_filterMap.mp ha
  obtain ⟨name, hname, rfl | rfl⟩ := mem_ctorConstants hb
  · obtain rfl := Option.some.inj hba
    exact ⟨⟨_, rfl⟩, hname⟩
  · obtain rfl := Option.some.inj hba
    exact ⟨⟨_, rfl⟩, hname⟩

/-- A name that is a parameter is found. -/
theorem find_constructorArguments {vals : List (Content O)}
    (hlen : vals.length = (constructorArguments gp).length) {name : String} :
    (Frame.find ((constructorArguments gp).zip vals) name).isSome ↔ name ∈ ctorParams gp := by
  rw [← not_iff_not, Option.not_isSome_iff_eq_none, Frame.find_eq_none_iff, names_zip hlen,
    names_constructorArguments]

/-- The assignments of the objects go from parameters to members. -/
theorem outward_ctorObjects (happ : TypesApart gp mp) {vals : List (Content O)}
    (hlen : vals.length = (constructorArguments gp).length) :
    ∀ a ∈ ctorObjects O gp, a.Outward ((constructorArguments gp).zip vals) := by
  have hnone : ∀ {name}, name ∉ ctorParams gp →
      Frame.find ((constructorArguments gp).zip vals) name = none := fun h =>
    Option.not_isSome_iff_eq_none.mp (mt (find_constructorArguments hlen).mp h)
  intro a ha
  rcases List.mem_cons.mp ha with rfl | ha
  · refine ⟨hnone (observer_not_mem_ctorParams gp), ?_⟩
    intro name hname
    obtain rfl := Rhs.var.inj hname
    exact (find_constructorArguments hlen).mpr List.mem_cons_self
  · obtain ⟨⟨p, i⟩, hp, rfl⟩ := List.mem_map.mp ha
    have hmem : p ∈ gp.vartypes.toList := List.fst_mem_of_mem_zipIdx hp
    refine ⟨hnone (happ.params p.1 (List.mem_map_of_mem hmem)), ?_⟩
    intro name hname
    obtain rfl := Rhs.var.inj hname
    rw [find_constructorArguments hlen]
    have hi : i < gp.vartypes.toList.length := by
      have := List.snd_lt_of_mem_zipIdx hp
      omega
    exact List.mem_cons_of_mem _ (List.mem_map_of_mem (List.mem_range.mpr hi))

/-- The arguments of the constructor. -/
def ctorVals (objs : List O) : List (Content O) := .observer :: objs.map .object

theorem length_ctorVals {objs : List O} (hlen : objs.length = (observerObjects gp).length) :
    (ctorVals objs).length = (constructorArguments gp).length := by
  have hcount := congrArg List.length (types_constructorArguments gp)
  simp only [List.length_map, List.length_cons] at hcount
  rw [ctorVals, List.length_cons, List.length_map, hlen, hcount]

/-- The constructor accepts the observer and the objects. -/
theorem bindArgs_constructorArguments {objs : List O}
    (hlen : objs.length = (observerObjects gp).length) :
    bindArgs (constructorArguments gp) (("sc_core::mon_observer*", .observer) ::
      typed (observerObjects gp) (objs.map .object))
      = some ((constructorArguments gp).zip (ctorVals objs)) := by
  have hvals : (ctorVals objs).length = (observerObjects gp).length + 1 := by
    rw [ctorVals, List.length_cons, List.length_map, hlen]
  have hbind : bindArgs (constructorArguments gp)
      (typed (⟨"sc_core::mon_observer*", "obs"⟩ :: observerObjects gp) (ctorVals objs))
      = some ((constructorArguments gp).zip (ctorVals objs)) :=
    bindArgs_typed hvals (types_constructorArguments gp)
  exact hbind

/-- The object at a position is the parameter of this number. -/
theorem find_objName {objs : List O} {i : ℕ} {p : String × String} {o : O}
    (hp : gp.vartypes.toList[i]? = some p) (ho : objs[i]? = some o) :
    Frame.find ((constructorArguments gp).zip (ctorVals objs)) ("obj" ++ toString i)
      = some (p.2, .object o) := by
  have hparam : (⟨p.2, "obj" ++ toString i⟩, Content.object o) ∈
      (constructorArguments gp).zip (ctorVals objs) := by
    refine List.mem_iff_getElem?.mpr ⟨i + 1, List.getElem?_zip_eq_some.mpr ⟨?_, ?_⟩⟩
    · simp [constructorArguments, hp]
    · simp [ctorVals, ho]
  refine find_zip ?_ hparam
  rw [names_constructorArguments]
  exact nodup_ctorParams gp

/-- **The constructor of the monitor leaves each type member with the object at its
position**, where the types have names of their own. -/
theorem newMonitor_holds (hctor : monitorConstructor gp mp = some ctor)
    (happ : TypesApart gp mp)
    {objs : List O} (hlen : objs.length = (observerObjects gp).length) :
    ∃ members, newMonitor gp mp (("sc_core::mon_observer*", .observer) ::
      typed (observerObjects gp) (objs.map .object)) = some members ∧
      HoldsObjects gp objs members := by
  have hbody : ctor.body = ctorBody gp mp := by
    rw [monitorConstructor] at hctor
    split_ifs at hctor
    rw [← Option.some.inj hctor]
  have hnodup : ((ctorObjects O gp).map Assign.target).Nodup := by
    rw [targets_ctorObjects, List.nodup_cons]
    exact ⟨fun h => happ.observer _ h rfl, nodup_observerObjectFirsts gp⟩
  -- the objects are assigned first, and the constants then leave them alone
  obtain ⟨s₁, hrun₁, -, hheld⟩ := execAll_outward
    (s := ⟨(constructorArguments gp).zip (ctorVals objs), fun _ => none⟩)
    (outward_ctorObjects happ (length_ctorVals hlen)) hnodup
  obtain ⟨s₂, hrun₂⟩ := execAll_const
    (fun a (ha : a ∈ (ctorConstants gp mp).filterMap (@Action.assign? O)) =>
      (constants_assign? ha).1) s₁
  refine ⟨s₂.outer, ?_, ?_⟩
  · have hneeded : ¬ ∃ name ∈ observerObjectFirsts gp, name ∈ ["observer", "status"] ++
        functionNames gp mp ++ outsideNames gp mp ++ boolLabels gp mp ++ userValNames gp := by
      rintro ⟨name, hname, hmem⟩
      rcases List.mem_append.mp hmem with hmem | hmem
      · rcases List.mem_append.mp hmem with hmem | hmem
        · exact happ.needed name hname hmem
        · exact happ.labels name hname hmem
      · exact happ.values name hname hmem
    simp only [newMonitor, hctor, if_neg hneeded, bindArgs_constructorArguments hlen, hbody,
      filterMap_ctorBody, execAll_append, hrun₁, hrun₂, Option.bind_eq_bind, Option.bind_some]
    rfl
  · intro d o hd
    obtain ⟨i, hi⟩ := List.mem_iff_getElem?.mp hd
    obtain ⟨hdi, hoi⟩ := List.getElem?_zip_eq_some.mp hi
    rw [observerObjects, List.getElem?_map] at hdi
    obtain ⟨p, hp, rfl⟩ := Option.map_eq_some_iff.mp hdi
    have hmem : p.1 ∈ observerObjectFirsts gp := List.mem_map_of_mem (List.mem_of_getElem? hp)
    have hassign : (⟨p.1, .var ("obj" ++ toString i)⟩ : Assign String (Content O))
        ∈ ctorObjects O gp :=
      List.mem_cons_of_mem _ (List.mem_map.mpr ⟨(p, i),
        List.mk_mem_zipIdx_iff_getElem?.mpr hp, rfl⟩)
    have hkeep : s₂.outer p.1 = s₁.outer p.1 := by
      refine outer_execAll hrun₂ fun h => ?_
      obtain ⟨a, ha, htarget⟩ := List.mem_map.mp h
      rw [← htarget] at hmem
      exact (constants_assign? ha).2.elim (happ.labels _ hmem) (happ.values _ hmem)
    rw [hkeep, hheld _ hassign, Rhs.eval, Scope.read, find_objName hp hoi]

end Monitor

/-! ## The local observer -/

section Observer
variable {O : Type} {alloc : ℕ → ℕ} {gp : GlobalParams} {mp : MonitorParams}
    {mons : MpSet alloc}
variable {ctor : Func} {objs : List O}

/-- No type has a name that the generators declare or use besides. -/
def TypesFresh (gp : GlobalParams) (mp : MonitorParams) : Prop :=
  ∀ name ∈ observerObjectFirsts gp, name ∉ introducedNames gp mp

theorem TypesFresh.apart (h : TypesFresh gp mp) : TypesApart gp mp := by
  have hintro := h
  simp only [TypesFresh, introducedNames, List.mem_append, not_or] at hintro
  constructor
  · intro name hname hmem
    obtain ⟨⟨⟨⟨⟨hown, hfunctions⟩, houtside⟩, -⟩, -⟩, -⟩ := hintro name hname
    rcases List.mem_append.mp hmem with hmem | hmem
    · rcases List.mem_append.mp hmem with hmem | hmem
      · simp only [List.mem_cons, List.not_mem_nil, or_false] at hown hmem
        tauto
      · exact hfunctions hmem
    · exact houtside hmem
  · exact fun name hname => (hintro name hname).1.1.2
  · exact fun name hname => (hintro name hname).1.2
  · exact fun name hname => (hintro name hname).2

theorem TypesFresh.not_mem (h : TypesFresh gp mp) {name : String}
    (hname : name ∈ introducedNames gp mp) : name ∉ observerObjectFirsts gp :=
  fun hmem => h name hmem hname

/-- No parameter of `createInstance` hides what it uses. -/
theorem TypesFresh.not_hidden (h : TypesFresh gp mp) :
    ¬ ∃ name ∈ observerObjectFirsts gp,
      name ∈ ["verbosity", "m_instance", "local_observer"] := by
  rintro ⟨name, hname, hmem⟩
  refine h name hname ?_
  simp only [introducedNames, List.mem_append, List.mem_cons] at hmem ⊢
  tauto

theorem nodup_createInstanceParams (h : TypesFresh gp mp) :
    ((createInstanceParams gp).map Decl.name).Nodup := by
  rw [createInstanceParams, List.map_cons, names_observerObjects, List.nodup_cons]
  exact ⟨h.not_mem (by simp [introducedNames]), nodup_observerObjectFirsts gp⟩

theorem listsAgree (hctor : monitorConstructor gp mp = some ctor) : ListsAgree gp mp ctor := by
  have hparams : ctor.params = ctorParams gp ∧ ctor.body = ctorBody gp mp := by
    rw [monitorConstructor] at hctor
    split_ifs at hctor
    rw [← Option.some.inj hctor]
    exact ⟨rfl, rfl⟩
  constructor
  · rw [newLocalObserverArgs, createInstanceParams, List.map_cons, names_observerObjects]
  · rfl
  · exact (names_observerObjects gp).symm
  · have htypes := congrArg List.tail (types_constructorArguments gp)
    exact (List.map_tail (f := Decl.type)).trans htypes
  · rw [names_constructorArguments, hparams.1]
  · refine ⟨ctorConstants gp mp, ?_, fun name param hmem => ?_⟩
    · rw [hparams.1, hparams.2, ctorBody_eq]
    · obtain ⟨_, -, h | h⟩ := mem_ctorConstants hmem <;> cases h
  · intro d hd
    obtain ⟨p, hp, rfl⟩ := List.mem_map.mp hd
    simp only [declaredMembers, List.mem_append]
    exact .inl (.inl (.inl (.inl (.inr (List.mem_map_of_mem hp)))))

/-- **The first call of `createInstance` leaves a monitor whose type members hold the
objects that are passed for them.** -/
theorem createInstance_none (hmon : firstMonitor gp mons = some mp)
    (hctor : monitorConstructor gp mp = some ctor) (hfresh : TypesFresh gp mp) (verbosity : ℕ)
    (hlen : objs.length = (observerObjects gp).length) :
    ∃ members, createInstance gp mons none verbosity objs
        = some ⟨.verbosity verbosity, [(monitorName gp mp, members)]⟩ ∧
      HoldsObjects gp objs members := by
  obtain ⟨members, hmembers, hholds⟩ := newMonitor_holds hctor hfresh.apart hlen
  refine ⟨members, ?_, hholds⟩
  have hverbosity : "verbosity" ∉ observerObjectFirsts gp :=
    hfresh.not_mem (by simp [introducedNames])
  have hhides : ¬ ∃ name ∈ observerObjectFirsts gp,
      name ∈ ["verbosity", "mons", monitorName gp mp, monitorInst gp mp] := by
    rintro ⟨name, hname, hmem⟩
    refine hfresh name hname ?_
    simp only [introducedNames, functionNames, List.mem_append, List.mem_cons] at hmem ⊢
    tauto
  have hvals : (Content.verbosity verbosity :: objs.map .object).length
      = (createInstanceParams gp).length := by
    rw [createInstanceParams, List.length_cons, List.length_cons, List.length_map, hlen]
  -- the parameters are passed on to the constructor of the local observer
  have hargs := args_zip (nodup_createInstanceParams hfresh) hvals
  rw [← (listsAgree hctor).instanceArgs] at hargs
  have hbind := bindArgs_typed hvals (listsAgree hctor).instanceTypes
  -- and those after the verbosity to the constructor of the monitor
  have hobjs : Frame.args ((localObserverParams gp).zip
      (Content.verbosity verbosity :: objs.map .object)) (newMonitorArgs gp)
      = some (typed (observerObjects gp) (objs.map .object)) := by
    rw [localObserverParams, List.zip_cons_cons, newMonitorArgs, ← observerObjectFirsts,
      Frame.args_cons_of_not_mem hverbosity, ← names_observerObjects]
    refine args_zip ?_ (by rw [List.length_map, hlen])
    rw [names_observerObjects]
    exact nodup_observerObjectFirsts gp
  have hfind : Frame.find ((localObserverParams gp).zip
      (Content.verbosity verbosity :: objs.map .object)) "verbosity"
      = some ("unsigned int", .verbosity verbosity) :=
    Frame.find_cons_self ⟨"unsigned int", "verbosity"⟩ _ _
  have hconstruct : newLocalObserver gp mons (typed (createInstanceParams gp)
      (Content.verbosity verbosity :: objs.map .object))
      = some ⟨.verbosity verbosity, [(monitorName gp mp, members)]⟩ := by
    simp only [newLocalObserver, hbind, hfind, hmon, hobjs, hmembers, if_neg hhides,
      Option.bind_eq_bind, Option.bind_some]
    rfl
  rw [createInstance, if_neg (not_or.mpr ⟨hfresh.not_hidden, not_not.mpr hlen⟩)]
  simp only [hargs, Option.bind_some, hconstruct]

end Observer

/-! ## The type lines -/

/-- The type and the name of a `type` line. -/
def typeLine (p : List Char) (args : List (List Char)) : Option (String × String) :=
  if p = "type".toList then
    some (String.ofList (args.getD 0 []), String.ofList (args.getD 1 []))
  else none

/-- The `type` lines of a configuration file. -/
def typeLines (text : String) : List (String × String) :=
  (readings Config.directive (Config.confLength text.toList) text.toList defaults).filterMap
    fun r => typeLine r.keyword r.args

/-- `add_vartype`, for lines one after the other. -/
def addVartypes (lines : List (String × String)) (m : SSMap) : SSMap :=
  lines.foldl (fun m line => m.set line.2 line.1) m

section Lines
variable {c c' : Config} {m : SSMap} {lines lines' : List (String × String)}

theorem vartypes_foldlM {rs : List Reading}
    (h : rs.foldlM (fun c r => (Config.directive r.keyword).act r.args c) c = some c') :
    c'.vartypes = addVartypes (rs.filterMap fun r => typeLine r.keyword r.args) c.vartypes :=
  Config.vartypes_foldlM h

/-- The map holds what the type lines set. -/
theorem vartypes_eq {args : List (String × String)} {text : String}
    (h : globalParams args text = some c) :
      c.vartypes = addVartypes (typeLines text) .empty := by
  obtain ⟨c₀, hparse, w, hw⟩ := parseConfigFile_of_globalParams h
  rw [Config.parseConfigFile, parse_eq_foldlM] at hparse
  rw [hw]
  exact vartypes_foldlM hparse

/-- Lines of different names all stay in the map. -/
theorem mem_addVartypes (hnodup : (lines.map Prod.snd).Nodup)
    (hnew : ∀ p ∈ m.toList, p.1 ∉ lines.map Prod.snd) {p : String × String} :
    p ∈ (addVartypes lines m).toList ↔ (p.2, p.1) ∈ lines ∨ p ∈ m.toList := by
  induction lines generalizing m with
  | nil => simp [addVartypes]
  | cons line lines ih =>
      obtain ⟨hline, hnodup⟩ := List.nodup_cons.mp hnodup
      have hset : ∀ p, p ∈ (m.set line.2 line.1).toList ↔ p = (line.2, line.1) ∨
        p ∈ m.toList := by
        intro p
        rw [SSMap.mem_set, and_iff_left_of_imp]
        intro hp heq
        exact hnew p hp (by rw [heq]; exact List.mem_cons_self)
      have hnew' : ∀ p ∈ (m.set line.2 line.1).toList, p.1 ∉ lines.map Prod.snd := by
        intro p hp
        rcases (hset p).mp hp with rfl | hp
        · exact hline
        · exact fun hmem => hnew p hp (List.mem_cons_of_mem _ hmem)
      have hpair : p = (line.2, line.1) ↔ (p.2, p.1) = line := by
        rw [← Prod.swap_inj]
        rfl
      rw [addVartypes, List.foldl_cons, ← addVartypes, ih hnodup hnew', hset, hpair,
        List.mem_cons]
      tauto

/-- **The order of lines of different names does not matter.** -/
theorem addVartypes_perm (hnodup : (lines.map Prod.snd).Nodup) (hperm : lines'.Perm lines) :
    addVartypes lines' .empty = addVartypes lines .empty := by
  have hnodup' : (lines'.map Prod.snd).Nodup := (hperm.map _).nodup_iff.mpr hnodup
  refine KeyedSet.ext_mem fun p => ?_
  rw [mem_addVartypes hnodup' (by simp), mem_addVartypes hnodup (by simp), hperm.mem_iff]

end Lines

/-- **The objects reach the members of their names.** The emitted lists agree position by
position; where no type has a name that the generators introduce, the first call of
`createInstance` leaves a monitor that holds the objects that are passed for its members, and
the later calls return it; and the lists are those of the type lines, whatever the order of
these. -/
theorem createInstance_passes_objects (args : List (String × String)) (text : String)
    {c : Config}
    (hc : globalParams args text = some c) {alloc : ℕ → ℕ} {mp : MonitorParams}
    (hmon : firstMonitor c.toGlobalParams (c.monitors alloc) = some mp) {ctor : Func}
    (hctor : monitorConstructor c.toGlobalParams mp = some ctor) :
    ListsAgree c.toGlobalParams mp ctor ∧
    (TypesFresh c.toGlobalParams mp → ∀ (O : Type) (verbosity : ℕ) (objs : List O),
      objs.length = (observerObjects c.toGlobalParams).length →
      ∃ obs members, createInstance c.toGlobalParams (c.monitors alloc) none verbosity objs
          = some obs ∧
        obs.mons = [(monitorName c.toGlobalParams mp, members)] ∧
        HoldsObjects c.toGlobalParams objs members ∧
        ∀ verbosity' (objs' : List O),
          objs'.length = (observerObjects c.toGlobalParams).length →
          createInstance c.toGlobalParams (c.monitors alloc) (some obs) verbosity' objs'
            = some obs) ∧
    (((typeLines text).map Prod.snd).Nodup →
      (∀ type name, ⟨type, name⟩ ∈ observerObjects c.toGlobalParams ↔
        (type, name) ∈ typeLines text) ∧
      ∀ args' text' c', globalParams args' text' = some c' →
        (typeLines text').Perm (typeLines text) → c'.vartypes = c.vartypes) := by
  refine ⟨listsAgree hctor, ?_, ?_⟩
  · intro hfresh O verbosity objs hlen
    obtain ⟨members, hcreate, hholds⟩ := createInstance_none hmon hctor hfresh verbosity hlen
    refine ⟨_, members, hcreate, rfl, hholds, ?_⟩
    intro verbosity' objs' hlen'
    rw [createInstance, if_neg (not_or.mpr ⟨hfresh.not_hidden, not_not.mpr hlen'⟩)]
  · intro hnodup
    constructor
    · intro type name
      have hmem := mem_addVartypes (m := .empty) hnodup (by simp) (p := (name, type))
      rw [← vartypes_eq hc] at hmem
      simp only [KeyedSet.toList_empty, List.not_mem_nil, or_false] at hmem
      rw [← hmem, observerObjects, List.mem_map]
      constructor
      · rintro ⟨p, hp, heq⟩
        obtain ⟨rfl, rfl⟩ := Decl.mk.inj heq
        exact hp
      · exact fun hp => ⟨_, hp, rfl⟩
    · intro args' text' c' hc' hperm
      rw [vartypes_eq hc, vartypes_eq hc', addVartypes_perm hnodup hperm]

/-- A configuration file with two types, not in the order of their names. -/
def twoTypes : String := "type b* y\ntype a* x\nformula G f\n"

/-- The first object is that of `x`. -/
theorem createInstance_passes_objects_two : ∃ c obs members,
    globalParams [] twoTypes = some c ∧
    createInstance c.toGlobalParams (c.monitors upwards) none 1 [10, 20] = some obs ∧
    obs.mons = [("monitor0", members)] ∧
    members "x" = some (.object 10) ∧ members "y" = some (.object 20) := by
  obtain ⟨-, hcreate, -⟩ :=
    @createInstance_passes_objects [] twoTypes _ rfl upwards _ rfl _ rfl
  obtain ⟨obs, members, hrun, hmons, hholds, -⟩ :=
    hcreate (by rw [TypesFresh]; decide) ℕ 1 [10, 20] rfl
  exact ⟨_, obs, members, rfl, hrun, hmons, hholds ⟨"a*", "x"⟩ 10 (by decide),
    hholds ⟨"b*", "y"⟩ 20 (by decide)⟩

end Pscv.Mag
