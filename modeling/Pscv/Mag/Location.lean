import Pscv.Mag.Parser

/-!
# Location definitions

`add_location` looks for one of five words anywhere behind the last colon of a definition.
The form of the documentation, `name pattern : word`, is compared with it, and so is the
printed form of a location.

## Main results

* `addLocation_reads` — definitions of the documented form are read, those without a word
  are rejected, and a printed location is not read back.
-/

namespace Pscv.Mag

open Pscv.Lib

/-- `funcbefter2str`. -/
def funcbefter2str : FuncBefter → String
  | .entry => "entry"
  | .exit => "exit"
  | .call => "call"
  | .return => "return"
  | .dummy => "dummy"

/-- `func_loc_to_stream`. -/
def funcLocToStream (loc : FuncLoc) : String :=
  "\t\t" ++ loc.locName ++ "=" ++ loc.funcIdentifier ++ ":" ++ funcbefter2str loc.funcBefter

/-- A text of white space. -/
def Blank (t : List Char) : Prop := ∀ ch ∈ t, isSpace ch = true

instance (t : List Char) : Decidable (Blank t) := List.decidableBAll _ t

/-- A text that is a name, and a rest behind white space. -/
structure Named (t name rest : List Char) : Prop where
  name_ne : name ≠ []
  name_clear : ∀ ch ∈ name, isSpace ch = false
  rest_head : ∀ ch ∈ rest.head?, isSpace ch = false
  eq : ∃ lead gap, Blank lead ∧ Blank gap ∧ (rest ≠ [] → gap ≠ []) ∧
    t = lead ++ (name ++ (gap ++ rest))

/-- A definition `name pattern : word`, with the white space `spaces` before the colon. -/
structure LocationForm (t name pattern spaces : List Char) (befter : FuncBefter) : Prop where
  pattern_ne : pattern ≠ []
  pattern_last : ∀ ch ∈ pattern.getLast?, isSpace ch = false
  spaces_blank : Blank spaces
  named : ∃ after tail, Blank after ∧ Blank tail ∧ Named t name
    (pattern ++ spaces ++ ':' :: (after ++ (funcbefter2str befter).toList ++ tail))

/-! ## Occurrences -/

section Infix
variable {α : Type*} {w a b l : List α}

/-- A word that has nothing of the front of a list occurs behind it. -/
theorem infix_of_append_left (hw : w ≠ []) (ha : ∀ x ∈ a, x ∉ w) (h : w <:+: a ++ l) :
    w <:+: l := by
  induction a with
  | nil => exact h
  | cons x a ih =>
      rcases List.infix_cons_iff.mp h with hfront | hinfix
      · obtain ⟨y, w, rfl⟩ := List.exists_cons_of_ne_nil hw
        obtain ⟨hyx, -⟩ := List.cons_prefix_cons.mp hfront
        exact absurd (hyx ▸ List.mem_cons_self) (ha x List.mem_cons_self)
      · exact ih (fun y hy => ha y (List.mem_cons_of_mem x hy)) hinfix

theorem infix_of_append_right (hw : w ≠ []) (hb : ∀ x ∈ b, x ∉ w) (h : w <:+: l ++ b) :
    w <:+: l := by
  rw [← List.reverse_infix, List.reverse_append] at h
  rw [← List.reverse_infix]
  exact infix_of_append_left (by simpa using hw) (by simpa using hb) h

end Infix

variable {c c' : Config} {loc : String} {t name rest ident befter pattern spaces : List Char}
  {fb : FuncBefter}

theorem containsText_iff (s t : List Char) : containsText s t = true ↔ s <:+: t := by
  rw [containsText, List.any_eq_true]
  constructor
  · rintro ⟨u, hu, hs⟩
    exact (List.isPrefixOf_iff_prefix.mp hs).isInfix.trans ((List.mem_tails _ _).mp hu).isInfix
  · rintro ⟨u, v, rfl⟩
    refine ⟨s ++ v, (List.mem_tails _ _).mpr ⟨u, by simp⟩, ?_⟩
    exact List.isPrefixOf_iff_prefix.mpr (List.prefix_append s v)

/-! ## The words -/

theorem funcbefter2str_clear (fb : FuncBefter) :
    ∀ ch ∈ (funcbefter2str fb).toList, isSpace ch = false ∧ ch ≠ ':' := by
  apply forall_mem_of_all
  cases fb <;> decide

theorem funcbefter2str_ne (fb : FuncBefter) : (funcbefter2str fb).toList ≠ [] := by
  cases fb <;> decide

/-- No word occurs in another one. -/
theorem eq_of_infix_funcbefter2str {fb fb' : FuncBefter}
    (h : (funcbefter2str fb).toList <:+: (funcbefter2str fb').toList) : fb = fb' := by
  rw [← containsText_iff] at h
  cases fb <;> cases fb' <;> first | rfl | exact absurd h (by decide)

/-- A word that is found occurs. -/
theorem infix_of_funcBefterOf (h : Config.funcBefterOf t = some fb) :
    (funcbefter2str fb).toList <:+: t := by
  rw [Config.funcBefterOf] at h
  rw [← containsText_iff]
  split_ifs at h with h₁ h₂ h₃ h₄ h₅ <;> cases h
  · exact h₁
  · exact h₂
  · exact h₃
  · exact h₄
  · exact h₅

/-- The only word that occurs is found. -/
theorem funcBefterOf_eq (h : ∀ fb', (funcbefter2str fb').toList <:+: t ↔ fb' = fb) :
    Config.funcBefterOf t = some fb := by
  have hcontains : ∀ fb', containsText (funcbefter2str fb').toList t = decide (fb' = fb) := by
    intro fb'
    rw [Bool.eq_iff_iff, containsText_iff, h fb', decide_eq_true_iff]
  have hentry := hcontains .entry
  have hexit := hcontains .exit
  have hcall := hcontains .call
  have hreturn := hcontains .return
  have hdummy := hcontains .dummy
  simp only [funcbefter2str] at hentry hexit hcall hreturn hdummy
  rw [Config.funcBefterOf, hentry, hexit, hcall, hreturn, hdummy]
  cases fb <;> rfl

/-- White space around a word makes no difference. -/
theorem funcBefterOf_padded {after tail : List Char} (hafter : Blank after)
    (htail : Blank tail) :
    Config.funcBefterOf (after ++ (funcbefter2str fb).toList ++ tail) = some fb := by
  refine funcBefterOf_eq fun fb' => ⟨fun h => ?_, ?_⟩
  · have hclear : ∀ b, Blank b → ∀ ch ∈ b, ch ∉ (funcbefter2str fb').toList := by
      intro b hb ch hch hmem
      have hspace := hb ch hch
      rw [(funcbefter2str_clear fb' ch hmem).1] at hspace
      cases hspace
    have hne := funcbefter2str_ne fb'
    have hleft := infix_of_append_right hne (hclear tail htail) h
    exact eq_of_infix_funcbefter2str (infix_of_append_left hne (hclear after hafter) hleft)
  · rintro rfl
    exact ⟨after, tail, rfl⟩

/-! ## The parts of a definition -/

theorem skip_eq_nil (h : Blank t) : skip t = [] := List.dropWhile_eq_nil_iff.mpr h

theorem skip_of_head (h : ∀ ch ∈ t.head?, isSpace ch = false) : skip t = t := by
  cases t with
  | nil => rfl
  | cons ch t => exact List.dropWhile_cons_of_neg (by simp [h ch rfl])

theorem locationName_eq (h : Named t name rest) :
    Config.locationName t = (String.ofList name, rest) := by
  obtain ⟨lead, gap, hlead, hgap, hgap_ne, rfl⟩ := h.eq
  have hstart : skip (lead ++ (name ++ (gap ++ rest))) = name ++ (gap ++ rest) := by
    rw [skip_append_of_blank (skip_eq_nil hlead)]
    refine skip_of_head fun ch hch => h.name_clear ch ?_
    rw [List.head?_append_of_ne_nil _ h.name_ne] at hch
    exact List.mem_of_mem_head? hch
  have hgap_head : ∀ ch ∈ (gap ++ rest).head?, isSpace ch = true := by
    intro ch hch
    cases gap with
    | nil =>
        by_cases hrest : rest = []
        · simp [hrest] at hch
        · exact absurd rfl (hgap_ne hrest)
    | cons x gap =>
        obtain rfl := Option.some.inj hch
        exact hgap x List.mem_cons_self
  have hneg : ∀ ch ∈ name, (!isSpace ch) = true := by
    intro ch hch
    rw [h.name_clear ch hch]
    rfl
  have hstop : (gap ++ rest).takeWhile (fun ch => !isSpace ch) = [] ∧
      (gap ++ rest).dropWhile (fun ch => !isSpace ch) = gap ++ rest := by
    cases hgr : gap ++ rest with
    | nil => exact ⟨rfl, rfl⟩
    | cons x l =>
        have hx := hgap_head x (by simp [hgr])
        exact ⟨List.takeWhile_cons_of_neg (by simp [hx]), List.dropWhile_cons_of_neg
          (by simp [hx])⟩
  rw [Config.locationName, hstart, List.takeWhile_append_of_pos hneg,
    List.dropWhile_append_of_pos hneg, hstop.1, hstop.2, List.append_nil,
    skip_append_of_blank (skip_eq_nil hgap), skip_of_head h.rest_head]

/-- A text that is not blank has a name. -/
theorem named_locationName (h : ¬ Blank t) :
    Named t (Config.locationName t).1.toList (Config.locationName t).2 := by
  rw [Config.locationName, String.toList_ofList]
  have hsplit := (List.takeWhile_append_dropWhile (p := isSpace) (l := t)).symm
  have hname :=
    (List.takeWhile_append_dropWhile (p := fun ch => !isSpace ch) (l := skip t)).symm
  generalize htail : (skip t).dropWhile (fun ch => !isSpace ch) = tail at *
  have hgap := (List.takeWhile_append_dropWhile (p := isSpace) (l := tail)).symm
  constructor
  · have hne : skip t ≠ [] := mt List.dropWhile_eq_nil_iff.mp h
    have hhead := List.head?_dropWhile_not isSpace t
    rw [← skip] at hhead
    obtain ⟨ch, u, hu⟩ := List.exists_cons_of_ne_nil hne
    rw [hu] at hhead ⊢
    rw [List.takeWhile_cons_of_pos (by simpa using hhead)]
    exact List.cons_ne_nil _ _
  · intro ch hch
    simpa using List.mem_takeWhile_imp hch
  · intro ch hch
    have hhead := List.head?_dropWhile_not isSpace tail
    rw [← skip, Option.mem_def.mp hch] at hhead
    simpa using hhead
  · refine ⟨t.takeWhile isSpace, tail.takeWhile isSpace, fun _ => List.mem_takeWhile_imp,
      fun _ => List.mem_takeWhile_imp, ?_, ?_⟩
    · intro hrest
      have hhead := List.head?_dropWhile_not (fun ch => !isSpace ch) (skip t)
      rw [htail] at hhead
      cases tail with
      | nil => exact absurd skip_nil hrest
      | cons ch u =>
          rw [List.takeWhile_cons_of_pos (by simpa using hhead)]
          exact List.cons_ne_nil _ _
    · change t = _ ++ (_ ++ (tail.takeWhile isSpace ++ tail.dropWhile isSpace))
      rw [← hgap, ← hname]
      exact hsplit

theorem splitLast_eq {ch : Char} (hbefter : ch ∉ befter) :
    splitLast ch (ident ++ ch :: befter) = some (ident, befter) := by
  have hclear : ∀ x ∈ befter.reverse, decide (x ≠ ch) = true := by
    intro x hx
    rw [decide_eq_true_iff]
    rintro rfl
    exact hbefter (List.mem_reverse.mp hx)
  have hmem : ch ∈ ident ++ ch :: befter := by simp
  rw [splitLast, if_pos hmem, List.rdropWhile, List.rtakeWhile, List.reverse_append,
    List.reverse_cons, List.append_assoc, List.dropWhile_append_of_pos hclear,
    List.takeWhile_append_of_pos hclear]
  simp

theorem splitLast_spec {ch : Char} (h : splitLast ch t = some (ident, befter)) :
    t = ident ++ ch :: befter ∧ ch ∉ befter := by
  have hmem : ch ∈ t := by
    by_contra hnot
    rw [splitLast, if_neg hnot] at h
    cases h
  obtain ⟨u, v, huv, hu⟩ := List.eq_append_cons_of_mem (List.mem_reverse.mpr hmem)
  have ht : t = v.reverse ++ ch :: u.reverse := by
    rw [← List.reverse_reverse t, huv]
    simp
  have hnot : ch ∉ u.reverse := fun hmem => hu (List.mem_reverse.mp hmem)
  rw [ht, splitLast_eq hnot] at h
  obtain ⟨rfl, rfl⟩ := Prod.mk.inj (Option.some.inj h)
  exact ⟨ht, hnot⟩

/-! ## Definitions -/

theorem addLocation_eq (c : Config) (loc : String) : c.addLocation loc =
    (splitLast ':' (Config.locationName loc.toList).2).bind fun p =>
      (Config.funcBefterOf p.2).map fun fb => { c with funcLocs := c.funcLocs ++
        [⟨(Config.locationName loc.toList).1, String.ofList p.1, fb⟩] } := by
  simp only [Option.map_eq_bind]
  rfl

/-- What is read: a name, and a word somewhere behind the last colon. -/
theorem exists_named_of_addLocation (h : c.addLocation loc = some c') :
    ∃ name ident befter fb, Named loc.toList name (ident ++ ':' :: befter) ∧ ':' ∉ befter ∧
      (funcbefter2str fb).toList <:+: befter ∧
      c' = { c with funcLocs := c.funcLocs ++ [⟨String.ofList name, String.ofList ident,
        fb⟩] } := by
  rw [addLocation_eq] at h
  obtain ⟨⟨ident, befter⟩, hsplit, h⟩ := Option.bind_eq_some_iff.mp h
  obtain ⟨fb, hfb, h⟩ := Option.map_eq_some_iff.mp h
  obtain ⟨hrest, hbefter⟩ := splitLast_spec hsplit
  have hblank : ¬ Blank loc.toList := by
    intro hblank
    have hnil : Config.locationName loc.toList = ("", []) := by
      rw [Config.locationName, skip_eq_nil hblank]
      rfl
    rw [hnil] at hrest
    simp at hrest
  have hnamed := named_locationName hblank
  rw [hrest] at hnamed
  refine ⟨_, ident, befter, fb, hnamed, hbefter, infix_of_funcBefterOf hfb, ?_⟩
  rw [String.ofList_toList]
  exact h.symm

theorem addLocation_of_form (h : LocationForm loc.toList name pattern spaces fb) :
    c.addLocation loc = some { c with funcLocs := c.funcLocs ++
      [⟨String.ofList name, String.ofList (pattern ++ spaces), fb⟩] } := by
  obtain ⟨after, tail, hafter, htail, hnamed⟩ := h.named
  have hblank : ∀ b, Blank b → ':' ∉ b := by
    intro b hb hmem
    exact absurd (hb ':' hmem) (by decide)
  have hcolon : ':' ∉ after ++ (funcbefter2str fb).toList ++ tail := by
    simp only [List.mem_append, not_or]
    exact ⟨⟨hblank after hafter, fun hmem => (funcbefter2str_clear fb ':' hmem).2 rfl⟩,
      hblank tail htail⟩
  rw [addLocation_eq, locationName_eq hnamed, splitLast_eq hcolon, Option.bind_some,
    funcBefterOf_padded hafter htail, Option.map_some]

/-- The printed form of a location has a longer name. -/
theorem locationName_funcLocToStream {l : FuncLoc}
    (hname : ∀ ch ∈ l.locName.toList, isSpace ch = false) :
    (Config.locationName (funcLocToStream l).toList).1 ≠ l.locName := by
  intro heq
  have htext : (funcLocToStream l).toList = "\t\t".toList ++ (l.locName.toList ++ '=' ::
      (l.funcIdentifier ++ ":" ++ funcbefter2str l.funcBefter).toList) := by
    simp [funcLocToStream]
  generalize (l.funcIdentifier ++ ":" ++ funcbefter2str l.funcBefter).toList = t at htext
  have hstart : skip (funcLocToStream l).toList = l.locName.toList ++ '=' :: t := by
    rw [htext, skip_append_of_blank (by decide)]
    refine skip_of_head fun ch hch => ?_
    cases hl : l.locName.toList with
    | nil =>
        rw [hl] at hch
        obtain rfl := Option.some.inj hch
        decide
    | cons x w =>
        rw [hl] at hch
        obtain rfl := Option.some.inj hch
        exact hname x (by simp [hl])
  have hneg : ∀ ch ∈ l.locName.toList, (!isSpace ch) = true := by
    intro ch hch
    rw [hname ch hch]
    rfl
  have hlen := congrArg (fun s => s.toList.length) heq
  rw [Config.locationName, hstart, List.takeWhile_append_of_pos hneg,
    List.takeWhile_cons_of_pos (by decide)] at hlen
  simp at hlen

/-- **Location definitions.** A definition of the documented form is accepted: the location has
the name, the text between the name and the last colon, and the word behind it. A text without
a name, a colon behind the name, or one of the words behind the last colon is rejected. A
location that was read is not read back from its printed form. -/
theorem addLocation_reads (c : Config) (loc : String) :
    (∀ name pattern spaces fb, LocationForm loc.toList name pattern spaces fb →
      c.addLocation loc = some { c with funcLocs := c.funcLocs ++
        [⟨String.ofList name, String.ofList (pattern ++ spaces), fb⟩] }) ∧
    ((∀ name ident befter fb, Named loc.toList name (ident ++ ':' :: befter) → ':' ∉ befter →
      ¬ (funcbefter2str fb).toList <:+: befter) → c.addLocation loc = none) ∧
    ∀ c' l, c.addLocation loc = some c' → c'.funcLocs = c.funcLocs ++ [l] →
      c.addLocation (funcLocToStream l) ≠ some c' := by
  refine ⟨fun name pattern spaces fb h => addLocation_of_form h, fun hnone => ?_, ?_⟩
  · by_contra h
    obtain ⟨c', h⟩ := Option.ne_none_iff_exists'.mp h
    obtain ⟨name, ident, befter, fb, hnamed, hbefter, hword, -⟩ :=
      exists_named_of_addLocation h
    exact hnone name ident befter fb hnamed hbefter hword
  · intro c' l h hl hprinted
    obtain ⟨name, ident, befter, fb, hnamed, -, -, rfl⟩ := exists_named_of_addLocation h
    obtain rfl := List.singleton_inj.mp (List.append_cancel_left hl)
    rw [addLocation_eq] at hprinted
    obtain ⟨p, -, hprinted⟩ := Option.bind_eq_some_iff.mp hprinted
    obtain ⟨fb', -, hprinted⟩ := Option.map_eq_some_iff.mp hprinted
    have hlocs := List.append_cancel_left (congrArg (fun c => c.funcLocs) hprinted)
    have hname := congrArg FuncLoc.locName (List.singleton_inj.mp hlocs)
    refine locationName_funcLocToStream ?_ hname
    rw [String.toList_ofList]
    exact hnamed.name_clear

/-- A definition with white space around its colon. -/
theorem locationForm_entry : LocationForm "loc1 int A::f() : entry".toList "loc1".toList
    "int A::f()".toList " ".toList .entry where
  pattern_ne := by decide
  pattern_last := by
    intro ch hch
    obtain rfl := Option.some.inj hch
    decide
  spaces_blank := by decide
  named := by
    refine ⟨" ".toList, [], by decide, by decide, by decide, forall_mem_of_all (by decide), ?_,
      [], " ".toList, by decide, by decide, by decide, by decide⟩
    intro ch hch
    obtain rfl := Option.some.inj hch
    decide

/-- It is read, and not read back. -/
theorem addLocation_reads_entry :
    ∃ c', defaults.addLocation "loc1 int A::f() : entry" = some c' ∧
    c'.funcLocs = [⟨"loc1", "int A::f() ", .entry⟩] ∧
    defaults.addLocation (funcLocToStream ⟨"loc1", "int A::f() ", .entry⟩) ≠ some c' := by
  obtain ⟨hform, -, hprinted⟩ := addLocation_reads defaults "loc1 int A::f() : entry"
  have hread := hform _ _ _ _ locationForm_entry
  exact ⟨_, hread, rfl, hprinted _ _ hread rfl⟩

/-- The printed form of the location gives another location. -/
theorem printed_location_differs :
    LocationForm "loc1 int A::f() : entry".toList "loc1".toList "int A::f()".toList
      " ".toList .entry ∧
    (defaults.addLocation "loc1 int A::f() : entry").map (fun c => c.funcLocs) =
      some [⟨"loc1", "int A::f() ", .entry⟩] ∧
    (defaults.addLocation (funcLocToStream ⟨"loc1", "int A::f() ", .entry⟩)).map
      (fun c => c.funcLocs) = some [⟨"loc1=int", "A::f() ", .entry⟩] :=
  ⟨locationForm_entry, rfl, rfl⟩

end Pscv.Mag
