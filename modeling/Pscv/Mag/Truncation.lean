import Pscv.Mag.Parser

/-!
# A configuration that is cut off

Some directives test the stream before they store a word, some store what they have. Where the
text ends behind a keyword, or behind the first of two words, the second kind stores an empty
word.

## Main results

* `Config.cutOff_keeps_iff`.
-/

namespace Pscv.Mag

open Pscv.Lib

namespace Config

/-- The text that is left ends behind the keyword, or before the words that it takes. -/
def CutOff (r : Reading) : Prop :=
  ∃ rest, nextWord r.before = some (r.keyword, rest) ∧ (directive r.keyword).shape.Short rest

/-- What is read of a configuration file. -/
def readingsOf (text : String) : List Reading :=
  readings directive (confLength text.toList) text.toList defaults

/-- The parameters after some directives. -/
def afterReadings (rs : List Reading) : Option Config :=
  rs.foldlM (fun c r => (directive r.keyword).act r.args c) defaults

/-- The keywords that store a word, or create a monitor, without a test of the stream. -/
def untested : List String :=
  ["usertype", "attribute", "eventclock", "formula", "type", "att_type", "include"]

/-- A keyword without its arguments stores nothing: it tests the stream, or clears a flag that
is not set. -/
structure KeepsCutOff (kw : String) (c : Config) : Prop where
  tested : kw ∉ untested
  write_to_file : kw = "write_to_file" → c.writeToFile = false
  plasma_project_only : kw = "plasma_project_only" → c.plasmaProjectOnly = false

/-! ## Directives without their arguments -/

section Short
variable {c : Config} {d d' : Directive Config} {rest : List Char}

/-- A directive without its arguments leaves the parameters as they are. -/
def KeepsShort (c : Config) (d : Directive Config) : Prop :=
  ∀ rest, d.shape.Short rest → d.act (d.shape.onLine rest) c = some c

theorem KeepsShort.ite {P : Prop} [Decidable P] (h : P → KeepsShort c d)
    (h' : ¬ P → KeepsShort c d') : KeepsShort c (if P then d else d') := by
  split_ifs with hP
  · exact h hP
  · exact h' hP

/-- One word, of which nothing is there. -/
theorem onLine_one_of_short (h : (Shape.words 1).Short rest) :
    (Shape.words 1).onLine rest = [] :=
  List.length_eq_zero_iff.mp (Nat.lt_one_iff.mp h)

theorem keepsShort_guardedWord (set : String → Config → Config) :
    KeepsShort c (guardedWord set) := by
  intro rest h
  rw [guardedWord, onLine_one_of_short h]

theorem keepsShort_wholeLine (set : String → Config → Option Config) :
    KeepsShort c (wholeLine set) := by
  intro rest h
  obtain rfl : rest = [] := h
  rfl

theorem keepsShort_ignored : KeepsShort c ignored := fun _ _ => rfl

theorem keepsShort_firstWord {set : String → Config → Config} (hset : set "" c = c) :
    KeepsShort c (firstWord set) := by
  intro rest h
  rw [firstWord, onLine_one_of_short h]
  exact congrArg some hset

/-- A keyword that tests the stream. -/
theorem keepsShort_directiveOf {kw : String} (h : KeepsCutOff kw c) :
    KeepsShort c (directiveOf kw) := by
  have hne : ∀ k ∈ untested, kw ≠ k := fun k hk heq => h.tested (heq ▸ hk)
  have hwrite : kw = "write_to_file" → c.setWriteToFile "" = c := by
    intro hkw
    change { c with writeToFile := false } = c
    rw [← h.write_to_file hkw]
  have hplasma : kw = "plasma_project_only" → c.setPlasmaProjectOnly "" = c := by
    intro hkw
    change { c with plasmaProjectOnly := false } = c
    rw [← h.plasma_project_only hkw]
  rw [directiveOf]
  iterate 4 refine .ite (fun _ => keepsShort_guardedWord _) fun _ => ?_
  refine .ite (fun hp => absurd hp (hne _ (by decide))) fun _ => ?_
  refine .ite (fun _ => keepsShort_wholeLine _) fun _ => ?_
  refine .ite (fun hp => keepsShort_firstWord (hplasma hp)) fun _ => ?_
  refine .ite (fun _ => keepsShort_wholeLine _) fun _ => ?_
  iterate 2 refine .ite (fun _ => keepsShort_guardedWord _) fun _ => ?_
  refine .ite (fun _ => keepsShort_wholeLine _) fun _ => ?_
  refine .ite (fun hp => keepsShort_firstWord (hwrite hp)) fun _ => ?_
  iterate 4 refine .ite (fun _ => keepsShort_wholeLine _) fun _ => ?_
  iterate 2 refine .ite (fun hp => absurd hp (hne _ (by decide))) fun _ => ?_
  refine .ite (fun _ => keepsShort_wholeLine _) fun _ => ?_
  iterate 4 refine .ite (fun hp => absurd hp (hne _ (by decide))) fun _ => ?_
  exact keepsShort_ignored

end Short

/-! ## The words of the earlier directives -/

section Earlier
variable {text kw : String} {rs : List Reading} {r q : Reading} {c c' : Config}

/-- The directives before the last one have all their words. -/
theorem words_of_earlier (h : readingsOf text = rs ++ [r]) (hq : q ∈ rs) {k : ℕ}
    (hshape : (directive q.keyword).shape = .words k) :
    q.args.length = k ∧ ∀ w ∈ q.args, w ≠ [] := by
  obtain ⟨pre, post, rfl⟩ := List.append_of_mem hq
  rw [List.append_assoc, List.cons_append] at h
  have hmem : q ∈ readingsOf text := by simp [h]
  obtain ⟨rest, hword, hargs⟩ := exists_of_mem_readings hmem
  have hlong := not_short_of_later h (by simp) hword
  rw [hshape] at hargs hlong
  have hle := length_takeWords_le k rest
  rw [hargs]
  refine ⟨?_, fun w hw => ne_nil_of_mem_takeWords hw⟩
  change (takeWords k rest).1.length = k
  simp only [Shape.Short] at hlong
  omega

theorem ofList_ne_empty {w : List Char} (h : w ≠ []) : String.ofList w ≠ "" := by
  intro heq
  apply h
  rw [← String.toList_ofList (l := w), heq]
  rfl

/-- The second word of an earlier directive is not empty. -/
theorem empty_not_mem_pairLine (h : readingsOf text = rs ++ [r])
    (hshape : (directive kw.toList).shape = .words 2) :
    "" ∉ (rs.filterMap fun r => pairLine kw r.keyword r.args).map Prod.snd := by
  intro hmem
  obtain ⟨line, hline, hempty⟩ := List.mem_map.mp hmem
  obtain ⟨q, hq, hpair⟩ := List.mem_filterMap.mp hline
  rw [pairLine] at hpair
  split_ifs at hpair with hkw
  obtain rfl := Option.some.inj hpair
  obtain ⟨hlen, hne⟩ := words_of_earlier h hq (hkw ▸ hshape)
  obtain ⟨v, w, hargs⟩ := List.length_eq_two.mp hlen
  rw [hargs] at hne hempty
  exact ofList_ne_empty (hne w (by simp)) hempty

theorem empty_not_mem_wordLine (h : readingsOf text = rs ++ [r])
    (hshape : (directive kw.toList).shape = .words 1) :
    "" ∉ rs.filterMap fun r => wordLine kw r.keyword r.args := by
  intro hmem
  obtain ⟨q, hq, hword⟩ := List.mem_filterMap.mp hmem
  rw [wordLine] at hword
  split_ifs at hword with hkw
  obtain ⟨hlen, hne⟩ := words_of_earlier h hq (hkw ▸ hshape)
  obtain ⟨v, hargs⟩ := List.length_eq_one_iff.mp hlen
  rw [hargs] at hne hword
  exact ofList_ne_empty (hne v (by simp)) (Option.some.inj hword)

/-- A map without an empty key is changed by an empty key. -/
theorem set_empty_ne {m : SSMap} {lines : List (String × String)}
    (hm : m = setPairs lines .empty)
    (hne : "" ∉ lines.map Prod.snd) (v : String) : m.set "" v ≠ m := by
  intro heq
  have hsome : (m.find "").isSome := by
    rw [← heq, SSMap.find_set, if_pos rfl]
    rfl
  rw [SSMap.find_isSome_iff, hm, mem_keys_setPairs] at hsome
  rcases hsome with hmem | hmem
  · exact hne hmem
  · simp at hmem

/-- A set without an empty word is changed by it. -/
theorem insert_empty_ne {s : SSet} {vs : List String}
    (hs : s = vs.foldl (fun s v => (s.insert v).2) .empty) (hne : "" ∉ vs) :
    (s.insert "").2 ≠ s := by
  intro heq
  have hmem : "" ∈ s.toList := by
    rw [← heq, KeyedSet.mem_insert Function.injective_id]
    exact .inl rfl
  rw [hs, mem_foldl_insert] at hmem
  rcases hmem with hmem | hmem
  · exact hne hmem
  · simp at hmem

/-- Two words, of which the second is not there. -/
theorem getD_one_of_short {rest : List Char} (h : (Shape.words 2).Short rest) :
    ((Shape.words 2).onLine rest).getD 1 [] = [] := by
  rw [List.getD_eq_getElem?_getD, List.getElem?_eq_none]
  · rfl
  · exact Nat.le_of_lt_succ h

/-- The words that are stored without a test are empty. -/
theorem act_untested_ne (h : readingsOf text = rs ++ [r]) (hc : afterReadings rs = some c)
    {rest : List Char} (hkw : kw ∈ untested) (hshort : (directiveOf kw).shape.Short rest) :
    (directiveOf kw).act ((directiveOf kw).shape.onLine rest) c ≠ some c := by
  intro hact
  have hpair : ∀ {kw : String}, (directive kw.toList).shape = .words 2 →
      "" ∉ (rs.filterMap fun r => pairLine kw r.keyword r.args).map Prod.snd :=
    fun hshape => empty_not_mem_pairLine h hshape
  have hword : ∀ {kw : String}, (directive kw.toList).shape = .words 1 →
      "" ∉ rs.filterMap fun r => wordLine kw r.keyword r.args :=
    fun hshape => empty_not_mem_wordLine h hshape
  simp only [untested, List.mem_cons, List.not_mem_nil, or_false] at hkw
  rcases hkw with rfl | rfl | rfl | rfl | rfl | rfl | rfl
  · have hfield := congrArg (fun c => c.userObjects) (Option.some.inj hact)
    have hargs : (directiveOf "usertype").shape.onLine rest = [] := onLine_one_of_short hshort
    rw [hargs] at hfield
    exact insert_empty_ne (userObjects_foldlM hc) (hword rfl) hfield
  · have hfield := congrArg (fun c => c.attributelabels) (Option.some.inj hact)
    have hargs := getD_one_of_short hshort
    exact set_empty_ne (attributelabels_foldlM hc) (hpair rfl) _ (hargs ▸ hfield)
  · have hfield := congrArg (fun c => c.eventclocklabels) (Option.some.inj hact)
    have hargs := getD_one_of_short hshort
    exact set_empty_ne (eventclocklabels_foldlM hc) (hpair rfl) _ (hargs ▸ hfield)
  · have hfield := congrArg (fun c => c.formulas.length) (Option.some.inj hact)
    simp only [addMp, List.length_append, List.length_singleton] at hfield
    omega
  · have hfield := congrArg (fun c => c.vartypes) (Option.some.inj hact)
    have hargs := getD_one_of_short hshort
    exact set_empty_ne (vartypes_foldlM hc) (hpair rfl) _ (hargs ▸ hfield)
  · have hfield := congrArg (fun c => c.attributetypes) (Option.some.inj hact)
    have hargs := getD_one_of_short hshort
    exact set_empty_ne (attributetypes_foldlM hc) (hpair rfl) _ (hargs ▸ hfield)
  · have hfield := congrArg (fun c => c.includefiles) (Option.some.inj hact)
    have hargs : (directiveOf "include").shape.onLine rest = [] := onLine_one_of_short hshort
    rw [hargs] at hfield
    exact insert_empty_ne (includefiles_foldlM hc) (hword rfl) hfield

/-- A flag that an empty word leaves as it is was not set. -/
theorem keepsCutOff_of_act (h : readingsOf text = rs ++ [r]) (hc : afterReadings rs = some c)
    {rest : List Char} (hshort : (directiveOf kw).shape.Short rest)
    (hact : (directiveOf kw).act ((directiveOf kw).shape.onLine rest) c = some c) :
    KeepsCutOff kw c := by
  constructor
  · intro hkw
    exact act_untested_ne h hc hkw hshort hact
  · intro hkw
    subst hkw
    have hargs : (directiveOf "write_to_file").shape.onLine rest = [] :=
      onLine_one_of_short hshort
    rw [hargs] at hact
    exact (congrArg (fun c => c.writeToFile) (Option.some.inj hact)).symm
  · intro hkw
    subst hkw
    have hargs : (directiveOf "plasma_project_only").shape.onLine rest = [] :=
      onLine_one_of_short hshort
    rw [hargs] at hact
    exact (congrArg (fun c => c.plasmaProjectOnly) (Option.some.inj hact)).symm

end Earlier

/-! ## The last directive -/

/-- **What a directive without its arguments leaves as it is.** The directives before the last
one give parameters, and the file gives the same ones exactly when the last keyword tests the
stream, or clears a flag that is not set. -/
theorem cutOff_keeps_iff (text : String) (rs : List Reading) (r : Reading)
    (h : readingsOf text = rs ++ [r]) (hcut : CutOff r) :
    ∃ c, afterReadings rs = some c ∧
      (defaults.parseConfigFile text = some c ↔ KeepsCutOff (String.ofList r.keyword) c) := by
  obtain ⟨c, hfold⟩ := exists_foldlM_of_readings h
  have hc : afterReadings rs = some c := hfold
  refine ⟨c, hc, ?_⟩
  have hmem : r ∈ readingsOf text := by simp [h]
  obtain ⟨rest, hword, hshort⟩ := hcut
  obtain ⟨rest', hword', hargs⟩ := exists_of_mem_readings hmem
  obtain ⟨-, rfl⟩ := Prod.mk.inj (Option.some.inj (hword.symm.trans hword'))
  have hparse : defaults.parseConfigFile text = (directive r.keyword).act r.args c := by
    rw [parseConfigFile, parse_eq_foldlM]
    change (readingsOf text).foldlM _ defaults = _
    rw [h, List.foldlM_append, hfold]
    exact bind_pure ((directive r.keyword).act r.args c)
  rw [hparse, hargs]
  constructor
  · intro hact
    exact keepsCutOff_of_act h hc hshort hact
  · intro hkeeps
    exact keepsShort_directiveOf hkeeps rest hshort

/-- The text that ends behind a keyword with a test. -/
theorem cutOff_keeps_iff_scratch : ∃ c, afterReadings [] = some c ∧
    (defaults.parseConfigFile "scratch" = some c ↔ KeepsCutOff "scratch" c) := by
  have hcut : CutOff ⟨"scratch".toList, [], "scratch".toList, []⟩ :=
    ⟨[], rfl, Nat.zero_lt_one⟩
  exact cutOff_keeps_iff "scratch" [] _ rfl hcut

/-- A text that ends behind a keyword leaves an empty user type, and one that ends behind the
first word an object without a name. -/
theorem cutOff_stores_empty :
    (∃ r, readingsOf "usertype" = [r] ∧ CutOff r) ∧
      defaults.parseConfigFile "usertype" ≠ afterReadings [] ∧
      (defaults.parseConfigFile "usertype").map (fun c => c.userObjects.toList) = some [""] ∧
      (defaults.parseConfigFile "type int").map (fun c => c.vartypes.toList)
        = some [("", "int")] := by
  have huser : (defaults.parseConfigFile "usertype").map (fun c => c.userObjects.toList)
      = some [""] := rfl
  have hbefore : (afterReadings []).map (fun c => c.userObjects.toList) = some [] := rfl
  refine ⟨⟨_, rfl, [], rfl, Nat.zero_lt_one⟩, ?_, huser, rfl⟩
  intro heq
  rw [heq, hbefore] at huser
  cases huser

end Config
end Pscv.Mag
