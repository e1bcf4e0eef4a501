import Pscv.Mag.Location
import Pscv.Mag.Main

/-!
# The name of the header file

Where no header file is given, `sanity_checks` puts `.h` for what stands behind the last dot of
the output file, in whichever part of the path that dot is.

## Main results

* `derivedHeader_iff`.
-/

namespace Pscv.Mag

open Pscv.Lib

/-! ## Paths -/

/-- The directory of a path, with its last slash. -/
def directory (t : List Char) : List Char := t.rdropWhile (· ≠ '/')

/-- What stands behind the last slash of a path. -/
def baseName (t : List Char) : List Char := t.rtakeWhile (· ≠ '/')

/-- A base name with the extension `.h` for its own. A dot at the front of it begins no
extension. -/
def withHeaderExtension (b : List Char) : List Char :=
  match splitLast '.' b with
  | some (ch :: stem, _) => ch :: stem ++ ".h".toList
  | _ => b ++ ".h".toList

/-- What the header of an output file is expected to be, and that `main` opens two files. -/
structure IsHeaderOf (out header : List Char) : Prop where
  directory_eq : directory header = directory out
  differs : header ≠ out
  baseName_eq : baseName header = withHeaderExtension (baseName out)
  opened_differ : cString header ≠ cString out

/-- The last dot of the path begins an extension of the base name, which is not that of a
header. -/
def HasOwnHeader (out : List Char) : Prop :=
  match splitLast '.' out with
  | none => '\x00' ∉ out
  | some (stem, ext) =>
      '\x00' ∉ stem ∧ '/' ∉ ext ∧ baseName stem ≠ [] ∧ cString ext ≠ ['h']

section Paths
variable {t b stem ext : List Char}

theorem baseName_append (hb : '/' ∉ b) : baseName (t ++ b) = baseName t ++ b := by
  have hclear : ∀ x ∈ b.reverse, decide (x ≠ '/') = true := by
    intro x hx
    rw [decide_eq_true_iff]
    intro heq
    exact hb (heq ▸ List.mem_reverse.mp hx)
  rw [baseName, List.rtakeWhile, List.reverse_append, List.takeWhile_append_of_pos hclear,
    List.reverse_append, List.reverse_reverse]
  rfl

theorem directory_append (hb : '/' ∉ b) : directory (t ++ b) = directory t := by
  have hclear : ∀ x ∈ b.reverse, decide (x ≠ '/') = true := by
    intro x hx
    rw [decide_eq_true_iff]
    intro heq
    exact hb (heq ▸ List.mem_reverse.mp hx)
  rw [directory, List.rdropWhile, List.reverse_append, List.dropWhile_append_of_pos hclear]
  rfl

theorem length_directory_le (t : List Char) : (directory t).length ≤ t.length :=
  (List.rdropWhile_prefix _ _).length_le

/-- A slash is in the directory, with what stands before it. -/
theorem lt_length_directory (hext : '/' ∈ ext) : t.length < (directory (t ++ ext)).length := by
  obtain ⟨u, v, huv, hu⟩ := List.eq_append_cons_of_mem (List.mem_reverse.mpr hext)
  have hsplit : ext = v.reverse ++ '/' :: u.reverse := by
    rw [← List.reverse_reverse ext, huv]
    simp
  have hnot : '/' ∉ u.reverse := fun hmem => hu (List.mem_reverse.mp hmem)
  have happend : t ++ ext = (t ++ v.reverse ++ ['/']) ++ u.reverse := by
    rw [hsplit]
    simp
  have hlast : directory (t ++ v.reverse ++ ['/']) = t ++ v.reverse ++ ['/'] := by
    rw [directory, List.rdropWhile_concat_neg]
    simp
  rw [happend, directory_append hnot, hlast]
  simp only [List.length_append, List.length_singleton]
  omega

theorem not_mem_baseName {ch : Char} (h : ch ∉ t) : ch ∉ baseName t :=
  fun hmem => h ((List.rtakeWhile_suffix _ _).subset hmem)

/-- A name without an end is followed by what is put behind it. -/
theorem cString_append (h : '\x00' ∉ t) : cString (t ++ b) = t ++ cString b := by
  rw [cString, List.takeWhile_append_of_pos]
  · rfl
  · intro x hx
    rw [decide_eq_true_iff]
    intro heq
    exact h (heq ▸ hx)

/-- What stands behind the end of a name is not seen. -/
theorem cString_append_of_mem (h : '\x00' ∈ t) : cString (t ++ b) = cString t := by
  obtain ⟨u, v, hsplit, hu⟩ := List.eq_append_cons_of_mem h
  rw [hsplit, List.append_assoc, cString_append hu, cString_append hu]
  rfl

theorem withHeaderExtension_of_not_mem (h : '.' ∉ b) :
    withHeaderExtension b = b ++ ".h".toList := by
  rw [withHeaderExtension, splitLast, if_neg h]

/-- The extension of a base name is what stands behind its last dot. -/
theorem withHeaderExtension_append (hext : '.' ∉ ext) (hstem : stem ≠ []) :
    withHeaderExtension (stem ++ '.' :: ext) = stem ++ ".h".toList := by
  obtain ⟨ch, stem, rfl⟩ := List.exists_cons_of_ne_nil hstem
  rw [withHeaderExtension, splitLast_eq hext]

theorem withHeaderExtension_hidden (hext : '.' ∉ ext) :
    withHeaderExtension ('.' :: ext) = '.' :: ext ++ ".h".toList := by
  have hsplit : splitLast '.' ([] ++ '.' :: ext) = some ([], ext) := splitLast_eq hext
  rw [withHeaderExtension]
  rw [List.nil_append] at hsplit
  rw [hsplit]

end Paths

/-! ## The derived name -/

section Derived
variable {out stem ext : List Char}

theorem slash_not_mem_h : '/' ∉ ".h".toList := by decide

/-- Without a dot, only the end of a C string is in the way. -/
theorem isHeaderOf_of_no_dot (h : '.' ∉ out) :
    IsHeaderOf out (out ++ ".h".toList) ↔ '\x00' ∉ out := by
  constructor
  · intro hheader hnul
    exact hheader.opened_differ (cString_append_of_mem hnul)
  · intro hnul
    have hself : cString out = out := by
      rw [← List.append_nil out, cString_append hnul]
      rfl
    constructor
    · exact directory_append slash_not_mem_h
    · intro heq
      have hlen := congrArg List.length heq
      simp at hlen
    · rw [baseName_append slash_not_mem_h,
        withHeaderExtension_of_not_mem (not_mem_baseName h)]
    · intro heq
      rw [cString_append hnul, hself] at heq
      have hlen := congrArg List.length heq
      simp [cString] at hlen

/-- Where the last dot is, its place in the path counts. -/
theorem isHeaderOf_of_dot (hext : '.' ∉ ext) :
    IsHeaderOf (stem ++ '.' :: ext) (stem ++ ".h".toList) ↔
      '\x00' ∉ stem ∧ '/' ∉ ext ∧ baseName stem ≠ [] ∧ cString ext ≠ ['h'] := by
  have hbase : '/' ∉ ext → baseName (stem ++ '.' :: ext) = baseName stem ++ '.' :: ext := by
    intro hslash
    apply baseName_append
    simp [hslash]
  constructor
  · intro h
    have hnul : '\x00' ∉ stem := by
      intro hmem
      apply h.opened_differ
      rw [cString_append_of_mem hmem, cString_append_of_mem hmem]
    have hslash : '/' ∉ ext := by
      intro hmem
      have hlt := lt_length_directory (t := stem) (List.mem_cons_of_mem '.' hmem)
      rw [← h.directory_eq, directory_append slash_not_mem_h] at hlt
      have hle := length_directory_le stem
      omega
    refine ⟨hnul, hslash, ?_, ?_⟩
    · intro hempty
      have heq := h.baseName_eq
      rw [hbase hslash, baseName_append slash_not_mem_h, hempty, List.nil_append,
        List.nil_append, withHeaderExtension_hidden hext] at heq
      have hlen := congrArg List.length heq
      simp at hlen
    · intro hh
      apply h.opened_differ
      rw [cString_append hnul, cString_append hnul]
      change _ = stem ++ '.' :: cString ext
      rw [hh]
      rfl
  · intro h
    obtain ⟨hnul, hslash, hne, hh⟩ := h
    have hopened : cString (stem ++ ".h".toList) ≠ cString (stem ++ '.' :: ext) := by
      intro heq
      rw [cString_append hnul, cString_append hnul] at heq
      have htail : ['.', 'h'] = '.' :: cString ext := List.append_cancel_left heq
      exact hh (List.cons.inj htail).2.symm
    constructor
    · rw [directory_append slash_not_mem_h, directory_append]
      simp [hslash]
    · intro heq
      exact hopened (congrArg cString heq)
    · rw [hbase hslash, baseName_append slash_not_mem_h, withHeaderExtension_append hext hne]
    · exact hopened

/-- **The derived header file.** It is the header of the output file, and another file,
exactly when the last dot of the path begins an extension of the base name other than `.h`. -/
theorem derivedHeader_iff {c c' : Config} (h : c.sanityChecks = some c')
    (hnone : c.headerOutputFile = "") :
    IsHeaderOf c'.outputFile.toList c'.headerOutputFile.toList ↔
      HasOwnHeader c.outputFile.toList := by
  rw [Config.sanityChecks] at h
  split_ifs at h
  rw [← Option.some.inj h]
  simp only [Config.derivedHeader, HasOwnHeader]
  cases hsplit : splitLast '.' c.outputFile.toList with
  | none =>
      have hdot : '.' ∉ c.outputFile.toList := by
        intro hmem
        rw [splitLast, if_pos hmem] at hsplit
        cases hsplit
      rw [String.toList_append]
      exact isHeaderOf_of_no_dot hdot
  | some p =>
      obtain ⟨stem, ext⟩ := p
      obtain ⟨hout, hext⟩ := splitLast_spec hsplit
      rw [String.toList_append, String.toList_ofList, hout]
      exact isHeaderOf_of_dot hext

/-- An output file with an extension. -/
theorem derivedHeader_iff_monitor : ∃ c, ({ defaults with outputFile := "out/monitor.cc" } :
      Config).sanityChecks = some c ∧
    IsHeaderOf c.outputFile.toList c.headerOutputFile.toList := by
  have hname : HasOwnHeader "out/monitor.cc".toList :=
    ⟨by decide, by decide, by decide, by decide⟩
  exact ⟨_, rfl, (derivedHeader_iff (c := { defaults with outputFile := "out/monitor.cc" })
    rfl rfl).mpr hname⟩

/-- An output file with the extension of a header is its own header, and a name without an
extension in a directory above gives a header in another directory. -/
theorem monitorHeader_opened_twice :
    ((globalParams [] "output_file monitor.h\n").map fun c =>
        (c.outputFile, c.headerOutputFile)) = some ("monitor.h", "monitor.h") ∧
      ((globalParams [] "output_file ../out/monitor\n").map fun c =>
        (c.outputFile, c.headerOutputFile)) = some ("../out/monitor", "..h") ∧
      ¬ IsHeaderOf "monitor.h".toList "monitor.h".toList :=
  ⟨rfl, rfl, fun h => h.differs rfl⟩

end Derived

end Pscv.Mag
