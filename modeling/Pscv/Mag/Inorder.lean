import Pscv.Lib.IStream
import Pscv.Lib.Prefix

/-!
# `prefix2inorder`

The conversion of a formula in prefix notation: recursive descent on a stream, which reads one
character beyond an atom.

## Main results

* `prefix2inorder_spec`.
-/

namespace Pscv.Mag

open Pscv.Lib

/-! ## The function -/

/-- The loop over the initial white space, `fuel` times at most. -/
def skipSpaces : ℕ → IStream → Option (Char × IStream)
  | 0, _ => none
  | fuel + 1, is => if isSpace is.get.1 then skipSpaces fuel is.get.2 else some is.get

/-- The loop over the characters of an atom, `fuel` times at most. -/
def readAtom : ℕ → Char → List Char → IStream → Option (List Char × IStream)
  | 0, _, _, _ => none
  | fuel + 1, ch, dest, is =>
      if !isSpace ch && is.good then readAtom fuel is.get.1 (dest ++ [ch]) is.get.2
      else some (dest, is)

/-- The text of a binary operator: the second `switch`. -/
def opText (ch : Char) : List Char :=
  if ch ∈ "UuVv".toList then [ch]
  else if ch ∈ "&|".toList then [ch, ch]
  else if ch = 'i' then "->".toList
  else if ch = 'e' then "<->".toList
  else []

/-- `prefix2inorder`, at most `fuel` calls deep: the result, the stream and `dest`. -/
def prefix2inorder : ℕ → IStream → List Char → Option (Bool × IStream × List Char)
  | 0, _, _ => none
  | fuel + 1, is, dest => do
      let (ch, is) ← skipSpaces (fuel + 1) is
      if ch ∈ "UuVvie&|".toList then
        match ← prefix2inorder fuel is [] with
        | (true, is, left) =>
            match ← prefix2inorder fuel is [] with
            | (true, is, right) =>
                pure (true, is, "(".toList ++ left ++ " ".toList ++ opText ch ++ " ".toList ++
                  right ++ ")".toList)
            | (false, is, _) => pure (false, is, dest)
        | (false, is, _) => pure (false, is, dest)
      else if ch ∈ "!XGF".toList then
        match ← prefix2inorder fuel is [] with
        | (true, is, right) =>
            pure (true, is, "(".toList ++ [ch] ++ " ".toList ++ right ++ ")".toList)
        | (false, is, _) => pure (false, is, dest)
      else if ch = 't' then pure (true, is, "1".toList)
      else if ch = 'f' then pure (true, is, "0".toList)
      else if ch = 'p' then
        (readAtom (fuel + 1) ch dest is).map fun p => (true, p.2, p.1)
      -- the end of the input, and illegal characters
      else pure (false, is, dest)

/-! ## Formulas -/

/-- The binary operators, by their characters. -/
inductive BinOp
  | U | u | V | v | implies | iff | and | or
  deriving DecidableEq

def BinOp.char : BinOp → Char
  | U => 'U'
  | u => 'u'
  | V => 'V'
  | v => 'v'
  | implies => 'i'
  | iff => 'e'
  | and => '&'
  | or => '|'

/-- An operator between its operands. -/
def BinOp.text : BinOp → List Char
  | U => "U".toList
  | u => "u".toList
  | V => "V".toList
  | v => "v".toList
  | implies => "->".toList
  | iff => "<->".toList
  | and => "&&".toList
  | or => "||".toList

/-- The unary operators. -/
inductive UnOp
  | not | X | G | F
  deriving DecidableEq

def UnOp.char : UnOp → Char
  | not => '!'
  | X => 'X'
  | G => 'G'
  | F => 'F'

/-- A word that starts with `p`. -/
structure Atom where
  tail : List Char
  noSpace : ∀ c ∈ tail, isSpace c = false
  deriving DecidableEq

def Atom.text (a : Atom) : List Char := 'p' :: a.tail

/-- The constants and the atoms. -/
inductive Leaf
  | const (b : Bool)
  | atom (a : Atom)
  deriving DecidableEq

/-- An LTL formula. -/
abbrev Ltl := Term BinOp UnOp Leaf

/-- The in-order text of a formula. -/
def inorder : Ltl → List Char
  | .leaf (.const true) => "1".toList
  | .leaf (.const false) => "0".toList
  | .leaf (.atom a) => a.text
  | .unary u t => "(".toList ++ [u.char] ++ " ".toList ++ inorder t ++ ")".toList
  | .binary b s t =>
      "(".toList ++ inorder s ++ " ".toList ++ b.text ++ " ".toList ++ inorder t ++ ")".toList

/-! ## The prefix notation -/

/-- The character of a constant. -/
def constChar (b : Bool) : Char := if b then 't' else 'f'

/-- The state of a stream whose end has been read. -/
def atEnd : IStream := ⟨[], true, true⟩

/-- An input begins with a symbol, behind any white space. An atom ends with a character of
white space, which is read, or with the input. -/
inductive Reads : IStream → Symbol BinOp UnOp Leaf → IStream → Prop
  | binary {ws r : List Char} (b : BinOp) (hws : ∀ c ∈ ws, isSpace c = true) :
      Reads (.ofText (ws ++ b.char :: r)) (.binary b) (.ofText r)
  | unary {ws r : List Char} (u : UnOp) (hws : ∀ c ∈ ws, isSpace c = true) :
      Reads (.ofText (ws ++ u.char :: r)) (.unary u) (.ofText r)
  | const {ws r : List Char} (b : Bool) (hws : ∀ c ∈ ws, isSpace c = true) :
      Reads (.ofText (ws ++ constChar b :: r)) (.leaf (.const b)) (.ofText r)
  | atom {ws r : List Char} {ch : Char} (a : Atom) (hws : ∀ c ∈ ws, isSpace c = true)
      (hch : isSpace ch = true) :
      Reads (.ofText (ws ++ (a.text ++ ch :: r))) (.leaf (.atom a)) (.ofText r)
  | lastAtom {ws : List Char} (a : Atom) (hws : ∀ c ∈ ws, isSpace c = true) :
      Reads (.ofText (ws ++ a.text)) (.leaf (.atom a)) atEnd

/-! ## The loops -/

section Loops
variable {t dest : List Char} {ch : Char} {is : IStream} {fuel : ℕ}

/-- What is found behind white space. -/
def firstOf : List Char → Char × IStream
  | c :: r => (c, .ofText r)
  | [] => (IStream.eofChar, atEnd)

theorem skipSpaces_ofText (hfuel : t.length < fuel) :
    skipSpaces fuel (.ofText t) = some (firstOf (skip t)) := by
  induction t generalizing fuel with
  | nil =>
      obtain ⟨fuel, rfl⟩ := Nat.exists_eq_succ_of_ne_zero (Nat.ne_zero_of_lt hfuel)
      rfl
  | cons c t ih =>
      obtain ⟨fuel, rfl⟩ := Nat.exists_eq_succ_of_ne_zero (Nat.ne_zero_of_lt hfuel)
      have hget : (IStream.ofText (c :: t)).get = (c, .ofText t) := rfl
      rw [skipSpaces, hget]
      by_cases hc : isSpace c = true
      · rw [if_pos hc, skip, List.dropWhile_cons_of_pos hc]
        exact ih (Nat.lt_of_succ_lt_succ hfuel)
      · rw [if_neg hc, skip, List.dropWhile_cons_of_neg hc]
        rfl

/-- From a stream that is not good nothing is read. -/
theorem skipSpaces_of_not_good (h : is.good = false) (hfuel : 0 < fuel) :
    ∃ is', skipSpaces fuel is = some (IStream.eofChar, is') := by
  obtain ⟨fuel, rfl⟩ := Nat.exists_eq_succ_of_ne_zero (Nat.ne_zero_of_lt hfuel)
  have hget : is.get = (IStream.eofChar, { is with fail := true }) := by
    rw [IStream.get, h]
    rfl
  have heof : ¬ isSpace IStream.eofChar = true := by decide
  rw [skipSpaces, hget, if_neg heof]
  exact ⟨_, rfl⟩

/-- The stream behind the characters of an atom. -/
def behindAtom : List Char → IStream
  | _ :: r => .ofText r
  | [] => atEnd

theorem readAtom_stop (h : (!isSpace ch && is.good) = false) (hfuel : 0 < fuel) :
    readAtom fuel ch dest is = some (dest, is) := by
  obtain ⟨fuel, rfl⟩ := Nat.exists_eq_succ_of_ne_zero (Nat.ne_zero_of_lt hfuel)
  rw [readAtom, h]
  rfl

/-- An atom is read up to the next white space. -/
theorem readAtom_ofText (hch : isSpace ch = false) (hfuel : t.length + 1 < fuel) :
    readAtom fuel ch dest (.ofText t) = some (dest ++ ch :: t.takeWhile fun c => !isSpace c,
      behindAtom (t.dropWhile fun c => !isSpace c)) := by
  have hgood : ∀ u, (!isSpace ch && (IStream.ofText u).good) = true := by
    intro u
    rw [hch]
    rfl
  obtain ⟨fuel, rfl⟩ := Nat.exists_eq_succ_of_ne_zero (Nat.ne_zero_of_lt hfuel)
  rw [readAtom, if_pos (hgood t)]
  induction t generalizing ch dest fuel with
  | nil =>
      have hget : (IStream.ofText []).get = (IStream.eofChar, atEnd) := rfl
      rw [hget, readAtom_stop (Bool.and_false _) (by omega)]
      rfl
  | cons c t ih =>
      have hget : (IStream.ofText (c :: t)).get = (c, .ofText t) := rfl
      rw [hget]
      by_cases hc : isSpace c = true
      · rw [readAtom_stop (by rw [hc]; rfl) (by omega), List.takeWhile_cons_of_neg
          (by simp [hc]), List.dropWhile_cons_of_neg (by simp [hc])]
        rfl
      · rw [Bool.not_eq_true] at hc
        have hgood' : ∀ u, (!isSpace c && (IStream.ofText u).good) = true := by
          intro u
          rw [hc]
          rfl
        rw [List.length_cons] at hfuel
        obtain ⟨fuel, rfl⟩ := Nat.exists_eq_succ_of_ne_zero (show fuel ≠ 0 by omega)
        rw [readAtom, if_pos (hgood' t), ih hc hgood' fuel (by omega),
          List.takeWhile_cons_of_pos (by simp [hc]), List.dropWhile_cons_of_pos (by simp [hc]),
          List.append_assoc]
        rfl

end Loops

/-! ## Symbols -/

/-- The symbol of one character. -/
def symbolOf : Char → Option (Symbol BinOp UnOp Leaf)
  | 'U' => some (.binary .U)
  | 'u' => some (.binary .u)
  | 'V' => some (.binary .V)
  | 'v' => some (.binary .v)
  | 'i' => some (.binary .implies)
  | 'e' => some (.binary .iff)
  | '&' => some (.binary .and)
  | '|' => some (.binary .or)
  | '!' => some (.unary .not)
  | 'X' => some (.unary .X)
  | 'G' => some (.unary .G)
  | 'F' => some (.unary .F)
  | 't' => some (.leaf (.const true))
  | 'f' => some (.leaf (.const false))
  | _ => none

/-- The atom that begins in front of a text. -/
def atomBefore (t : List Char) : Atom where
  tail := t.takeWhile fun c => !isSpace c
  noSpace := by
    intro c hc
    have h := List.mem_takeWhile_imp hc
    rwa [Bool.not_eq_true'] at h

/-- The symbol that an input begins with, and what it leaves. -/
def symbolAt (is : IStream) : Option (Symbol BinOp UnOp Leaf × IStream) :=
  if is.good then
    match skip is.rest with
    | [] => none
    | c :: r =>
        if c = 'p' then
          some (.leaf (.atom (atomBefore r)), behindAtom (r.dropWhile fun c => !isSpace c))
        else (symbolOf c).map fun a => (a, .ofText r)
  else none

section Symbols
variable {is is' : IStream} {a : Symbol BinOp UnOp Leaf} {t r ws : List Char} {c : Char}

/-- The characters of the symbols. -/
theorem symbolOf_eq_some (h : symbolOf c = some a) :
    (∃ b : BinOp, c = b.char ∧ a = .binary b) ∨ (∃ u : UnOp, c = u.char ∧ a = .unary u) ∨
      ∃ b, c = constChar b ∧ a = .leaf (.const b) := by
  rw [symbolOf.eq_def] at h
  split at h
  · exact .inl ⟨.U, rfl, (Option.some.inj h).symm⟩
  · exact .inl ⟨.u, rfl, (Option.some.inj h).symm⟩
  · exact .inl ⟨.V, rfl, (Option.some.inj h).symm⟩
  · exact .inl ⟨.v, rfl, (Option.some.inj h).symm⟩
  · exact .inl ⟨.implies, rfl, (Option.some.inj h).symm⟩
  · exact .inl ⟨.iff, rfl, (Option.some.inj h).symm⟩
  · exact .inl ⟨.and, rfl, (Option.some.inj h).symm⟩
  · exact .inl ⟨.or, rfl, (Option.some.inj h).symm⟩
  · exact .inr (.inl ⟨.not, rfl, (Option.some.inj h).symm⟩)
  · exact .inr (.inl ⟨.X, rfl, (Option.some.inj h).symm⟩)
  · exact .inr (.inl ⟨.G, rfl, (Option.some.inj h).symm⟩)
  · exact .inr (.inl ⟨.F, rfl, (Option.some.inj h).symm⟩)
  · exact .inr (.inr ⟨true, rfl, (Option.some.inj h).symm⟩)
  · exact .inr (.inr ⟨false, rfl, (Option.some.inj h).symm⟩)
  · cases h

theorem symbolOf_binary (b : BinOp) : symbolOf b.char = some (.binary b) := by cases b <;> rfl

theorem symbolOf_unary (u : UnOp) : symbolOf u.char = some (.unary u) := by cases u <;> rfl

theorem symbolOf_const (b : Bool) : symbolOf (constChar b) = some (.leaf (.const b)) := by
  cases b <;> rfl

/-- White space is skipped up to another character. -/
theorem skip_append (hws : ∀ c ∈ ws, isSpace c = true) (hc : isSpace c = false) :
    skip (ws ++ c :: r) = c :: r := by
  rw [skip, List.dropWhile_append_of_pos hws, List.dropWhile_cons_of_neg (by simp [hc])]

theorem symbolAt_of_skip (hskip : skip t = c :: r) : symbolAt (.ofText t) =
    if c = 'p' then
      some (.leaf (.atom (atomBefore r)), behindAtom (r.dropWhile fun c => !isSpace c))
    else (symbolOf c).map fun a => (a, .ofText r) := by
  have hgood : (IStream.ofText t).good = true := rfl
  have hrest : skip (IStream.ofText t).rest = c :: r := hskip
  rw [symbolAt, if_pos hgood, hrest]

/-- A symbol of one character. -/
theorem symbolAt_char (hws : ∀ c ∈ ws, isSpace c = true) (hc : isSpace c = false)
    (hp : c ≠ 'p')
    (ha : symbolOf c = some a) : symbolAt (.ofText (ws ++ c :: r)) = some (a, .ofText r) := by
  rw [symbolAt_of_skip (skip_append hws hc), if_neg hp, ha]
  rfl

theorem takeWhile_atom (a : Atom) (h : ∀ c ∈ r.head?, isSpace c = true) :
    (a.tail ++ r).takeWhile (fun c => !isSpace c) = a.tail ∧
      (a.tail ++ r).dropWhile (fun c => !isSpace c) = r := by
  have hclear : ∀ c ∈ a.tail, (!isSpace c) = true := by
    intro c hc
    rw [a.noSpace c hc]
    rfl
  rw [List.takeWhile_append_of_pos hclear, List.dropWhile_append_of_pos hclear]
  cases r with
  | nil => exact ⟨List.append_nil _, rfl⟩
  | cons c r =>
      have hc : isSpace c = true := h c rfl
      rw [List.takeWhile_cons_of_neg (by simp [hc]), List.dropWhile_cons_of_neg (by simp [hc])]
      exact ⟨List.append_nil _, rfl⟩

/-- An atom, up to white space or the end of the input. -/
theorem symbolAt_atom (a : Atom) (hws : ∀ c ∈ ws, isSpace c = true)
    (h : ∀ c ∈ r.head?, isSpace c = true) :
    symbolAt (.ofText (ws ++ (a.text ++ r))) = some (.leaf (.atom a), behindAtom r) := by
  have htext : ws ++ (a.text ++ r) = ws ++ 'p' :: (a.tail ++ r) := rfl
  obtain ⟨htake, hdrop⟩ := takeWhile_atom a h
  have hatom : atomBefore (a.tail ++ r) = a := by
    obtain ⟨tail, htail⟩ := a
    rw [atomBefore]
    congr
  rw [htext, symbolAt_of_skip (skip_append hws (by decide)), if_pos rfl, hatom, hdrop]

theorem symbolAt_of_reads (h : Reads is a is') : symbolAt is = some (a, is') := by
  cases h with
  | binary b hws =>
      exact symbolAt_char hws (by cases b <;> decide) (by cases b <;> decide)
        (symbolOf_binary b)
  | unary u hws =>
      exact symbolAt_char hws (by cases u <;> decide) (by cases u <;> decide)
        (symbolOf_unary u)
  | const b hws =>
      exact symbolAt_char hws (by cases b <;> decide) (by cases b <;> decide)
        (symbolOf_const b)
  | atom a hws hch =>
      refine symbolAt_atom a hws ?_
      intro c hc
      obtain rfl := Option.some.inj hc
      exact hch
  | lastAtom a hws =>
      rw [← List.append_nil a.text]
      exact symbolAt_atom a hws (by simp)

/-- The text in front of the first character that is no white space. -/
theorem exists_spaces (h : skip t = c :: r) :
    ∃ ws, (∀ c ∈ ws, isSpace c = true) ∧ t = ws ++ c :: r := by
  refine ⟨t.takeWhile isSpace, fun c hc => List.mem_takeWhile_imp hc, ?_⟩
  rw [← h, skip, List.takeWhile_append_dropWhile]

theorem reads_of_symbolAt (h : symbolAt is = some (a, is')) : Reads is a is' := by
  obtain ⟨t, eof, fail⟩ := is
  rw [symbolAt] at h
  split_ifs at h with hgood
  obtain ⟨rfl, rfl⟩ : eof = false ∧ fail = false := by simpa [IStream.good] using hgood
  cases hskip : skip t with
  | nil =>
      simp only [hskip] at h
      cases h
  | cons c r =>
      simp only [hskip] at h
      obtain ⟨ws, hws, rfl⟩ := exists_spaces hskip
      split_ifs at h with hp
      · subst hp
        obtain ⟨rfl, rfl⟩ := Prod.mk.inj (Option.some.inj h)
        have hr : r = (atomBefore r).tail ++ r.dropWhile fun c => !isSpace c :=
          List.takeWhile_append_dropWhile.symm
        cases hdrop : r.dropWhile fun c => !isSpace c with
        | nil =>
            rw [hdrop, List.append_nil] at hr
            have hreads := Reads.lastAtom (atomBefore r) hws
            rwa [Atom.text, ← hr] at hreads
        | cons ch u =>
            have hch : isSpace ch = true := by
              have hhead := List.head?_dropWhile_not (fun c => !isSpace c) r
              rw [hdrop] at hhead
              simpa using hhead
            rw [hdrop] at hr
            have hreads := Reads.atom (r := u) (atomBefore r) hws hch
            rwa [Atom.text, List.cons_append, ← hr] at hreads
      · obtain ⟨b, hb, hpair⟩ := Option.map_eq_some_iff.mp h
        obtain ⟨rfl, rfl⟩ := Prod.mk.inj hpair
        rcases symbolOf_eq_some hb with ⟨b, rfl, rfl⟩ | ⟨u, rfl, rfl⟩ | ⟨b, rfl, rfl⟩
        · exact .binary b hws
        · exact .unary u hws
        · exact .const b hws

theorem symbolAt_iff (is : IStream) (a : Symbol BinOp UnOp Leaf) (is' : IStream) :
    symbolAt is = some (a, is') ↔ Reads is a is' :=
  ⟨reads_of_symbolAt, symbolAt_of_reads⟩

/-- A symbol takes a character at least. -/
theorem length_rest_of_reads (is : IStream) (a : Symbol BinOp UnOp Leaf) (is' : IStream)
    (h : Reads is a is') : is'.rest.length < is.rest.length := by
  cases h with
  | atom a _ _ =>
      simp only [IStream.ofText, Atom.text, List.length_append, List.length_cons]
      omega
  | lastAtom a _ =>
      simp only [IStream.ofText, atEnd, Atom.text, List.length_append, List.length_cons,
        List.length_nil]
      omega
  | _ =>
      simp only [IStream.ofText, List.length_append, List.length_cons]
      omega

end Symbols

/-! ## The conversion -/

section Conversion
variable {is is₁ is' : IStream} {fuel : ℕ} {ch : Char} {a : Symbol BinOp UnOp Leaf}
  {t r ws : List Char}

theorem skipSpaces_append (hws : ∀ c ∈ ws, isSpace c = true) (hch : isSpace ch = false)
    (hfuel : (ws ++ ch :: r).length < fuel) :
    skipSpaces fuel (.ofText (ws ++ ch :: r)) = some (ch, .ofText r) := by
  rw [skipSpaces_ofText hfuel, skip_append hws hch]
  rfl

/-- A binary operator is the character behind the white space. -/
theorem skipSpaces_binary {b : BinOp} (h : Reads is (.binary b) is₁)
    (hfuel : is.rest.length < fuel) : skipSpaces fuel is = some (b.char, is₁) := by
  cases h with
  | binary b hws => exact skipSpaces_append hws (by cases b <;> decide) hfuel

theorem skipSpaces_unary {u : UnOp} (h : Reads is (.unary u) is₁)
    (hfuel : is.rest.length < fuel) : skipSpaces fuel is = some (u.char, is₁) := by
  cases h with
  | unary u hws => exact skipSpaces_append hws (by cases u <;> decide) hfuel

theorem skipSpaces_const {b : Bool} (h : Reads is (.leaf (.const b)) is₁)
    (hfuel : is.rest.length < fuel) : skipSpaces fuel is = some (constChar b, is₁) := by
  cases h with
  | const b hws => exact skipSpaces_append hws (by cases b <;> decide) hfuel

/-- The characters of an atom are read behind its first one. -/
theorem readAtom_of_reads {a : Atom} (h : Reads is (.leaf (.atom a)) is₁)
    (hfuel : is.rest.length < fuel) : ∃ is', skipSpaces fuel is = some ('p', is') ∧
      readAtom fuel 'p' [] is' = some (a.text, is₁) := by
  have hp : isSpace 'p' = false := by decide
  have hread : ∀ ws r, (∀ c ∈ ws, isSpace c = true) → (∀ c ∈ r.head?, isSpace c = true) →
      (ws ++ (a.text ++ r)).length < fuel → ∃ is',
        skipSpaces fuel (.ofText (ws ++ (a.text ++ r))) = some ('p', is') ∧
          readAtom fuel 'p' [] is' = some (a.text, behindAtom r) := by
    intro ws r hws hr hfuel
    refine ⟨.ofText (a.tail ++ r), skipSpaces_append hws hp hfuel, ?_⟩
    obtain ⟨htake, hdrop⟩ := takeWhile_atom a hr
    have hlen : (a.tail ++ r).length + 1 < fuel := by
      simp only [Atom.text, List.length_append, List.length_cons] at hfuel ⊢
      omega
    rw [readAtom_ofText hp hlen, htake, hdrop]
    rfl
  cases h with
  | atom a hws hch =>
      refine hread _ _ hws ?_ hfuel
      intro c hc
      obtain rfl := Option.some.inj hc
      exact hch
  | lastAtom a hws =>
      have hlast := hread _ [] hws (by simp)
      rw [List.append_nil] at hlast
      exact hlast hfuel

/-- Without a symbol, the character behind the white space has no case. -/
theorem skipSpaces_of_no_symbol (h : symbolAt is = none) (hfuel : is.rest.length < fuel) :
    ∃ ch is', skipSpaces fuel is = some (ch, is') ∧ symbolOf ch = none ∧ ch ≠ 'p' := by
  by_cases hgood : is.good = true
  · obtain ⟨t, eof, fail⟩ := is
    obtain ⟨rfl, rfl⟩ : eof = false ∧ fail = false := by simpa [IStream.good] using hgood
    refine ⟨(firstOf (skip t)).1, (firstOf (skip t)).2, skipSpaces_ofText hfuel, ?_⟩
    cases hskip : skip t with
    | nil => exact ⟨rfl, by decide⟩
    | cons c r =>
        rw [← IStream.ofText, symbolAt_of_skip hskip] at h
        split_ifs at h with hp
        exact ⟨Option.map_eq_none_iff.mp h, hp⟩
  · rw [Bool.not_eq_true] at hgood
    obtain ⟨is', hskip⟩ := skipSpaces_of_not_good hgood (Nat.zero_lt_of_lt hfuel)
    exact ⟨_, is', hskip, rfl, by decide⟩

/-- The characters with a case, and `p`. -/
theorem not_mem_cases (h : symbolOf ch = none) :
    ch ∉ "UuVvie&|".toList ∧ ch ∉ "!XGF".toList ∧ ch ≠ 't' ∧ ch ≠ 'f' := by
  have hne : ∀ c, (symbolOf c).isSome → ch ≠ c := by
    intro c hc heq
    rw [heq] at h
    rw [h] at hc
    cases hc
  refine ⟨?_, ?_, hne 't' rfl, hne 'f' rfl⟩
  · intro hmem
    have hsome : ∀ c ∈ "UuVvie&|".toList, (symbolOf c).isSome := List.all_eq_true.mp rfl
    exact hne ch (hsome ch hmem) rfl
  · intro hmem
    have hsome : ∀ c ∈ "!XGF".toList, (symbolOf c).isSome := List.all_eq_true.mp rfl
    exact hne ch (hsome ch hmem) rfl

/-- The result of the recursive descent, and that of the conversion. -/
def Converts (x : Option (Ltl × IStream)) (y : Option (Bool × IStream × List Char)) : Prop :=
  match x with
  | some (t, is') => y = some (true, is', inorder t)
  | none => ∃ is', y = some (false, is', [])

theorem opText_char (b : BinOp) : opText b.char = b.text := by cases b <;> rfl

theorem prefix2inorder_binary {b : BinOp} (h : skipSpaces (fuel + 1) is = some (b.char, is₁)) :
    prefix2inorder (fuel + 1) is [] = (do
      match ← prefix2inorder fuel is₁ [] with
      | (true, is, left) =>
          match ← prefix2inorder fuel is [] with
          | (true, is, right) =>
              pure (true, is, "(".toList ++ left ++ " ".toList ++ b.text ++ " ".toList ++
                right ++ ")".toList)
          | (false, is, _) => pure (false, is, [])
      | (false, is, _) => pure (false, is, [])) := by
  have hmem : b.char ∈ "UuVvie&|".toList := by cases b <;> decide
  rw [prefix2inorder, h, Option.bind_eq_bind, Option.bind_some]
  simp only
  rw [if_pos hmem, opText_char]

theorem prefix2inorder_unary {u : UnOp} (h : skipSpaces (fuel + 1) is = some (u.char, is₁)) :
    prefix2inorder (fuel + 1) is [] = (do
      match ← prefix2inorder fuel is₁ [] with
      | (true, is, right) =>
          pure (true, is, "(".toList ++ [u.char] ++ " ".toList ++ right ++ ")".toList)
      | (false, is, _) => pure (false, is, [])) := by
  have hnot : u.char ∉ "UuVvie&|".toList := by cases u <;> decide
  have hmem : u.char ∈ "!XGF".toList := by cases u <;> decide
  rw [prefix2inorder, h, Option.bind_eq_bind, Option.bind_some]
  simp only
  rw [if_neg hnot, if_pos hmem]

theorem prefix2inorder_const {b : Bool} (h : skipSpaces (fuel + 1) is = some (constChar b,
    is₁)) :
    prefix2inorder (fuel + 1) is [] = some (true, is₁, inorder (.leaf (.const b))) := by
  rw [prefix2inorder, h, Option.bind_eq_bind, Option.bind_some]
  cases b <;> rfl

theorem prefix2inorder_atom (h : skipSpaces (fuel + 1) is = some ('p', is₁)) :
    prefix2inorder (fuel + 1) is []
      = (readAtom (fuel + 1) 'p' [] is₁).map fun p => (true, p.2, p.1) := by
  rw [prefix2inorder, h, Option.bind_eq_bind, Option.bind_some]
  rfl

theorem prefix2inorder_illegal (h : skipSpaces (fuel + 1) is = some (ch, is₁))
    (hsymbol : symbolOf ch = none) (hp : ch ≠ 'p') :
    prefix2inorder (fuel + 1) is [] = some (false, is₁, []) := by
  obtain ⟨hbinary, hunary, ht, hf⟩ := not_mem_cases hsymbol
  rw [prefix2inorder, h, Option.bind_eq_bind, Option.bind_some]
  simp only
  rw [if_neg hbinary, if_neg hunary, if_neg ht, if_neg hf, if_neg hp]
  rfl

/-- **The conversion is recursive descent.** -/
theorem converts_of_parse {x : Option (Ltl × IStream)} (hfuel : is.rest.length < fuel)
    (h : parseTerm symbolAt fuel is = some x) : Converts x (prefix2inorder fuel is []) := by
  induction fuel generalizing is x with
  | zero => cases h
  | succ fuel ih =>
      rw [parseTerm] at h
      cases hsym : symbolAt is with
      | none =>
          rw [hsym] at h
          obtain rfl := Option.some.inj h
          obtain ⟨ch, is₁, hskip, hnone, hp⟩ := skipSpaces_of_no_symbol hsym hfuel
          exact ⟨is₁, prefix2inorder_illegal hskip hnone hp⟩
      | some p =>
          obtain ⟨a, is₁⟩ := p
          rw [hsym] at h
          have hreads := reads_of_symbolAt hsym
          have hlt := length_rest_of_reads _ _ _ hreads
          cases a with
          | leaf l =>
              obtain rfl := Option.some.inj h
              cases l with
              | const b => exact prefix2inorder_const (skipSpaces_const hreads hfuel)
              | atom a =>
                  obtain ⟨is₂, hskip, hread⟩ := readAtom_of_reads hreads hfuel
                  rw [Converts, prefix2inorder_atom hskip, hread]
                  rfl
          | unary u =>
              obtain ⟨y, hy, rfl⟩ := Option.map_eq_some_iff.mp h
              rw [prefix2inorder_unary (skipSpaces_unary hreads hfuel)]
              have hy' := ih (by omega) hy
              cases y with
              | none =>
                  obtain ⟨is₂, heq⟩ := hy'
                  rw [heq]
                  exact ⟨is₂, rfl⟩
              | some q =>
                  rw [Converts] at hy'
                  rw [hy']
                  rfl
          | binary b =>
              obtain ⟨y, hy, hrest⟩ := Option.bind_eq_some_iff.mp h
              rw [prefix2inorder_binary (skipSpaces_binary hreads hfuel)]
              have hy' := ih (by omega) hy
              cases y with
              | none =>
                  obtain rfl := Option.some.inj hrest
                  obtain ⟨is₂, heq⟩ := hy'
                  rw [heq]
                  exact ⟨is₂, rfl⟩
              | some q =>
                  obtain ⟨z, hz, hmap⟩ := Option.bind_eq_some_iff.mp hrest
                  obtain rfl := Option.some.inj hmap
                  have hlt₂ :=
                    (encodes_of_parseTerm symbolAt_iff hy).size_lt length_rest_of_reads
                  have hz' := ih (by omega) hz
                  rw [Converts] at hy'
                  rw [hy', Option.bind_eq_bind, Option.bind_some]
                  simp only
                  cases z with
                  | none =>
                      obtain ⟨is₃, heq⟩ := hz'
                      rw [heq]
                      exact ⟨is₃, rfl⟩
                  | some w =>
                      rw [Converts] at hz'
                      rw [hz']
                      rfl

/-- **Prefix notation to in-order text.** On every text the conversion ends. It returns true
exactly when the text begins with the prefix notation of a formula, and then it writes the
in-order text of the formula and leaves the stream behind the notation. -/
theorem prefix2inorder_spec (text : List Char) (fuel : ℕ) (hfuel : text.length < fuel) :
    (∀ t is', Encodes Reads t (.ofText text) is' →
      prefix2inorder fuel (.ofText text) [] = some (true, is', inorder t)) ∧
    ∃ result is' dest, prefix2inorder fuel (.ofText text) [] = some (result, is', dest) ∧
      (result = true ↔ ∃ t is', Encodes Reads t (.ofText text) is') := by
  constructor
  · intro t is' h
    exact converts_of_parse hfuel
      (parseTerm_of_encodes symbolAt_iff length_rest_of_reads h hfuel)
  · have hsome : (parseTerm symbolAt fuel (.ofText text)).isSome :=
      parseTerm_isSome symbolAt_iff length_rest_of_reads hfuel
    obtain ⟨x, hx⟩ := Option.isSome_iff_exists.mp hsome
    have hconverts := converts_of_parse hfuel hx
    cases x with
    | none =>
        obtain ⟨is', heq⟩ := hconverts
        refine ⟨false, is', [], heq, iff_of_false (by decide) ?_⟩
        intro h
        obtain ⟨t, is'', hencodes⟩ := h
        have hparse := parseTerm_of_encodes symbolAt_iff length_rest_of_reads hencodes hfuel
        rw [hx] at hparse
        cases hparse
    | some p =>
        exact ⟨true, p.2, inorder p.1, hconverts,
          iff_of_true rfl ⟨p.1, p.2, encodes_of_parseTerm symbolAt_iff hx⟩⟩

/-- A text with an atom behind each of two operators, and a further word. -/
theorem prefix2inorder_spec_until :
    prefix2inorder 20 (.ofText " U p1 !p2 rest".toList) []
      = some (true, .ofText "rest".toList, "(p1 U (! p2))".toList) := by
  let p1 : Ltl := .leaf (.atom ⟨['1'], List.forall_mem_singleton.mpr rfl⟩)
  let p2 : Ltl := .leaf (.atom ⟨['2'], List.forall_mem_singleton.mpr rfl⟩)
  have hparse : parseTerm symbolAt 20 (.ofText " U p1 !p2 rest".toList)
      = some (some (.binary .U p1 (.unary .not p2), .ofText "rest".toList)) := rfl
  exact (prefix2inorder_spec _ 20 (by decide)).1 _ _ (encodes_of_parseTerm symbolAt_iff hparse)

/-- A prefix notation of a formula, with a blank behind each atom. -/
def spell : Ltl → List Char
  | .leaf (.const b) => [constChar b]
  | .leaf (.atom a) => a.text ++ [' ']
  | .unary u t => u.char :: spell t
  | .binary b s t => b.char :: (spell s ++ spell t)

/-- Every formula has a prefix notation, which further text may follow. -/
theorem encodes_spell (t : Ltl) (u : List Char) :
    Encodes Reads t (.ofText (spell t ++ u)) (.ofText u) := by
  have hws : ∀ c ∈ ([] : List Char), isSpace c = true := by simp
  induction t generalizing u with
  | leaf l =>
      cases l with
      | const b => exact .leaf (.const b hws)
      | atom a =>
          rw [spell, List.append_assoc]
          exact .leaf (.atom a hws (by decide))
  | unary op t ih => exact .unary (.unary op hws) (ih u)
  | binary op s t ihs iht =>
      rw [spell, List.cons_append, List.append_assoc]
      exact .binary (.binary op hws) (ihs _) (iht u)

end Conversion

end Pscv.Mag
