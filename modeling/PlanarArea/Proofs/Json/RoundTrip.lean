import Mathlib.Tactic.Common
import PlanarArea.Json.Read
import PlanarArea.Json.Write

/-!
# Values that are read back

The text of a value, on one line or indented, is read back as the value: strings whatever they hold,
since every character that cannot stand between quotes is written as an escape that reads as the
character, and arrays and objects as far as they may be nested. A number is read back if its text is
a numeral of the same value; this is shown of natural numbers of 64 bits and left open for doubles.
A numeral ends before whatever follows a value in a text.
-/
namespace PlanarArea.Json

section Strings

/-- Three ways to write a character: an escape of one letter, the code of a control, the
character. -/
theorem escape_cases (c : Char) :
    (∃ letter, escape c = ['\\', letter] ∧ letter ≠ 'u' ∧ escaped? letter = some c) ∨
      (c.toNat < 0x20 ∧ escape c = '\\' :: 'u' :: '0' :: '0' :: hexByte c.toNat) ∨
      (escape c = [c] ∧ c ≠ '"' ∧ c ≠ '\\' ∧ ¬ c.toNat < 0x20) := by
  unfold escape
  split_ifs with hquote hslash hnewline htab hreturn hback hfeed hcontrol
  · exact .inl ⟨'"', rfl, by decide, congrArg some hquote.symm⟩
  · exact .inl ⟨'\\', rfl, by decide, congrArg some hslash.symm⟩
  · exact .inl ⟨'n', rfl, by decide, congrArg some hnewline.symm⟩
  · exact .inl ⟨'t', rfl, by decide, congrArg some htab.symm⟩
  · exact .inl ⟨'r', rfl, by decide, congrArg some hreturn.symm⟩
  · exact .inl ⟨'b', rfl, by decide, congrArg some hback.symm⟩
  · exact .inl ⟨'f', rfl, by decide, congrArg some hfeed.symm⟩
  · exact .inr (.inl ⟨hcontrol, rfl⟩)
  · exact .inr (.inr ⟨rfl, hquote, hslash, hcontrol⟩)

theorem hexWord?_control :
    ∀ n < 0x20, hexWord? '0' '0' (Nat.digitChar (n / 16)) (Nat.digitChar (n % 16)) = some n := by
  decide

/-- What is written for a character is read as the character. -/
theorem splitString?_escape (c : Char) (cs : List Char) :
    splitString? (escape c ++ cs) = (splitString? cs).map fun (s, rest) => (c :: s, rest) := by
  rcases escape_cases c with ⟨letter, hescape, hletter, hread⟩ | ⟨hcontrol, hescape⟩ |
    ⟨hescape, hquote, hslash, hcontrol⟩
  · rw [hescape, List.cons_append, List.singleton_append, splitString?, hread]
    exact fun _ _ _ _ _ h => absurd h hletter
  · -- The code of a control is no half of a pair.
    have hhigh : isHighSurrogate c.toNat = false := by
      simp only [isHighSurrogate, Bool.and_eq_false_iff, decide_eq_false_iff_not]
      omega
    have hlow : isLowSurrogate c.toNat = false := by
      simp only [isLowSurrogate, Bool.and_eq_false_iff, decide_eq_false_iff_not]
      omega
    rw [hescape]
    simp only [hexByte, List.cons_append, List.nil_append]
    rw [splitString?]
    simp only [hexWord?_control c.toNat hcontrol, hhigh, hlow, Bool.false_eq_true, if_false,
      Char.ofNat_toNat]
  · rw [hescape, List.singleton_append, splitString?, if_neg hcontrol]
    · exact hquote
    · exact fun _ _ _ _ _ h => absurd h hslash
    · exact fun _ _ h => absurd h hslash

theorem splitString?_quoted (s rest : List Char) :
    splitString? (s.flatMap escape ++ '"' :: rest) = some (s, rest) := by
  induction s with
  | nil => rfl
  | cons c s ih =>
    rw [List.flatMap_cons, List.append_assoc, splitString?_escape, ih, Option.map_some]

end Strings

section Numerals

open Decimal (splitDigits splitSign splitExponent?)

/-- What may follow a value in a text: nothing, a space, a comma or a closing bracket or brace. -/
def Delimited (rest : List Char) : Prop :=
  ∀ c ∈ rest.head?, isSpace c = true ∨ c = ',' ∨ c = ']' ∨ c = '\x7d'

theorem delimited_nil : Delimited [] := fun _ h => absurd h (by simp)

theorem delimited_cons {c : Char} (h : c = ',' ∨ c = ']' ∨ c = '\x7d') (rest : List Char) :
    Delimited (c :: rest) := by
  simpa [Delimited] using Or.inr h

theorem delimited_append {gap : List Char} (hgap : gap.all isSpace) {c : Char}
    (h : c = ',' ∨ c = ']' ∨ c = '\x7d') (rest : List Char) : Delimited (gap ++ c :: rest) := by
  cases gap with
  | nil => exact delimited_cons h rest
  | cons d gap =>
    rw [List.all_cons, Bool.and_eq_true] at hgap
    simpa [Delimited] using Or.inl hgap.1

variable {rest : List Char}

/-- No part of a numeral is found at the start of what follows. -/
theorem Delimited.not_numeral (h : Delimited rest) :
    splitDigits rest = ([], rest) ∧ splitSign rest = (false, rest) ∧
      splitFraction? rest = some (none, rest) ∧ splitExponent? rest = some (none, rest) := by
  cases rest with
  | nil => exact ⟨rfl, rfl, rfl, rfl⟩
  | cons c rest =>
    have hc := h c rfl
    simp only [isSpace, Bool.or_eq_true, decide_eq_true_eq, or_assoc] at hc
    rcases hc with rfl | rfl | rfl | rfl | rfl | rfl | rfl <;> exact ⟨rfl, rfl, rfl, rfl⟩

theorem splitDigits_append (h : Delimited rest) (cs : List Char) :
    splitDigits (cs ++ rest) = ((splitDigits cs).1, (splitDigits cs).2 ++ rest) := by
  induction cs with
  | nil => exact h.not_numeral.1
  | cons c cs ih =>
    simp only [splitDigits, Prod.mk.injEq] at ih ⊢
    rw [List.cons_append, List.takeWhile_cons, List.dropWhile_cons, List.takeWhile_cons,
      List.dropWhile_cons]
    split
    · exact ⟨congrArg (c :: ·) ih.1, ih.2⟩
    · exact ⟨rfl, rfl⟩

theorem splitSign_append (h : Delimited rest) (cs : List Char) :
    splitSign (cs ++ rest) = ((splitSign cs).1, (splitSign cs).2 ++ rest) := by
  cases cs with
  | nil => exact h.not_numeral.2.1
  | cons c cs =>
    by_cases hminus : c = '-'
    · subst hminus
      rfl
    by_cases hplus : c = '+'
    · subst hplus
      rfl
    have hnone : ∀ tail, splitSign (c :: tail) = (false, c :: tail) := by
      intro tail
      rw [splitSign]
      · exact fun _ heq => hminus (List.cons.inj heq).1
      · exact fun _ heq => hplus (List.cons.inj heq).1
    rw [List.cons_append, hnone, hnone]
    rfl

theorem splitWhole?_append (h : Delimited rest) {cs ds tail : List Char}
    (hwhole : splitWhole? cs = some (ds, tail)) :
    splitWhole? (cs ++ rest) = some (ds, tail ++ rest) := by
  rcases hdigits : splitDigits cs with ⟨found, left⟩
  rw [splitWhole?, hdigits] at hwhole
  rw [splitWhole?, splitDigits_append h, hdigits]
  split at hwhole
  · cases hwhole
  · cases hwhole
  · rename_i hempty hzero
    cases hwhole
    split
    · rename_i heq
      cases heq
      exact (hempty _ rfl).elim
    · rename_i heq
      cases heq
      exact (hzero _ _ _ rfl).elim
    · rfl

theorem splitFraction?_append (h : Delimited rest) {cs tail : List Char}
    {places : Option (List Char)} (hfraction : splitFraction? cs = some (places, tail)) :
    splitFraction? (cs ++ rest) = some (places, tail ++ rest) := by
  cases cs with
  | nil =>
    cases hfraction
    exact h.not_numeral.2.2.1
  | cons c cs =>
    by_cases hpoint : c = '.'
    · subst hpoint
      rw [splitFraction?] at hfraction
      rw [List.cons_append, splitFraction?, splitDigits_append h]
      rcases hdigits : splitDigits cs with ⟨found, left⟩
      rw [hdigits] at hfraction
      cases found with
      | nil => cases hfraction
      | cons d ds =>
        cases hfraction
        rfl
    · have hnone : ∀ tail, splitFraction? (c :: tail) = some (none, c :: tail) := by
        intro tail
        rw [splitFraction?]
        exact fun _ heq => hpoint (List.cons.inj heq).1
      rw [hnone] at hfraction
      cases hfraction
      exact hnone (cs ++ rest)

theorem splitExponent?_append (h : Delimited rest) {cs tail : List Char}
    {exponent : Option Int} (hexponent : splitExponent? cs = some (exponent, tail)) :
    splitExponent? (cs ++ rest) = some (exponent, tail ++ rest) := by
  cases cs with
  | nil =>
    cases hexponent
    exact h.not_numeral.2.2.2
  | cons c cs =>
    rw [splitExponent?] at hexponent
    rw [List.cons_append, splitExponent?]
    split at hexponent
    · rename_i hmark
      rcases hsign : splitSign cs with ⟨negative, unsigned⟩
      rcases hdigits : splitDigits unsigned with ⟨found, left⟩
      rw [hsign] at hexponent
      rw [if_pos hmark, splitSign_append h, hsign]
      dsimp only at hexponent ⊢
      rw [hdigits] at hexponent
      rw [splitDigits_append h, hdigits]
      cases found with
      | nil => cases hexponent
      | cons d ds =>
        cases hexponent
        rfl
    · rename_i hmark
      cases hexponent
      rw [if_neg hmark]
      rfl

/-- The parts of a numeral stand one after the other, its sign aside. -/
def Numeral.FoundIn (n : Numeral) (cs tail : List Char) : Prop :=
  ∃ afterWhole, splitWhole? cs = some (n.whole, afterWhole) ∧
    ∃ afterFraction, splitFraction? afterWhole = some (n.fraction, afterFraction) ∧
      splitExponent? afterFraction = some (n.exponent, tail)

theorem Numeral.FoundIn.append {n : Numeral} {cs tail : List Char} (h : Delimited rest)
    (hfound : n.FoundIn cs tail) : n.FoundIn (cs ++ rest) (tail ++ rest) := by
  obtain ⟨afterWhole, hwhole, afterFraction, hfraction, hexponent⟩ := hfound
  exact ⟨_, splitWhole?_append h hwhole, _, splitFraction?_append h hfraction,
    splitExponent?_append h hexponent⟩

section Sign

variable {n : Numeral} {cs tail : List Char}

/-- What is read behind a sign. -/
theorem foundIn_iff {negative : Bool} :
    (do let (whole, cs) ← splitWhole? cs
        let (fraction, cs) ← splitFraction? cs
        let (exponent, cs) ← splitExponent? cs
        return ((⟨negative, whole, fraction, exponent⟩ : Numeral), cs)) = some (n, tail) ↔
      n.negative = negative ∧ n.FoundIn cs tail := by
  obtain ⟨_, whole, fraction, exponent⟩ := n
  simp only [Option.bind_eq_bind, Option.bind_eq_some_iff, Option.pure_def, Option.some.injEq,
    Prod.mk.injEq, Numeral.mk.injEq, Prod.exists, Numeral.FoundIn]
  constructor
  · rintro ⟨_, afterWhole, hwhole, _, afterFraction, hfraction, _, _, hexponent,
      ⟨rfl, rfl, rfl, rfl⟩, rfl⟩
    exact ⟨rfl, afterWhole, hwhole, afterFraction, hfraction, hexponent⟩
  · rintro ⟨rfl, afterWhole, hwhole, afterFraction, hfraction, hexponent⟩
    exact ⟨_, afterWhole, hwhole, _, afterFraction, hfraction, _, _, hexponent,
      ⟨rfl, rfl, rfl, rfl⟩, rfl⟩

theorem splitNumeral?_minus_iff :
    splitNumeral? ('-' :: cs) = some (n, tail) ↔ n.negative = true ∧ n.FoundIn cs tail :=
  foundIn_iff

theorem splitNumeral?_iff_of_ne (hminus : ∀ unsigned, cs ≠ '-' :: unsigned) :
    splitNumeral? cs = some (n, tail) ↔ n.negative = false ∧ n.FoundIn cs tail := by
  rw [splitNumeral?]
  · exact foundIn_iff
  · exact hminus

end Sign

/-- A numeral is found before what follows as it is found alone. -/
theorem splitNumeral?_append (h : Delimited rest) {cs tail : List Char} {n : Numeral}
    (hnumeral : splitNumeral? cs = some (n, tail)) :
    splitNumeral? (cs ++ rest) = some (n, tail ++ rest) := by
  cases cs with
  | nil => cases hnumeral
  | cons c cs =>
    by_cases hminus : c = '-'
    · subst hminus
      obtain ⟨hnegative, hfound⟩ := splitNumeral?_minus_iff.mp hnumeral
      exact splitNumeral?_minus_iff.mpr ⟨hnegative, hfound.append h⟩
    · have hne : ∀ cs unsigned, c :: cs ≠ '-' :: unsigned :=
        fun _ _ heq => hminus (List.cons.inj heq).1
      obtain ⟨hnegative, hfound⟩ := (splitNumeral?_iff_of_ne (hne cs)).mp hnumeral
      exact (splitNumeral?_iff_of_ne (hne _)).mpr ⟨hnegative, hfound.append h⟩

end Numerals

section Lists

variable {α β : Type} {read? : β → Option α}

/-- A list is read back if each of its items is. -/
theorem mapM_map_of_read {write : α → β} {as : List α}
    (h : ∀ a ∈ as, read? (write a) = some a) : (as.map write).mapM read? = some as := by
  induction as with
  | nil => rfl
  | cons a as ih =>
    obtain ⟨ha, has⟩ := List.forall_mem_cons.mp h
    rw [List.map_cons, List.mapM_cons, ha, ih has]
    rfl

/-- What holds of whatever is read holds of every item of a list that is read. -/
theorem forall_mem_of_mapM {p : α → Prop} (h : ∀ b a, read? b = some a → p a) {bs : List β}
    {as : List α} (hread : bs.mapM read? = some as) : ∀ a ∈ as, p a := by
  induction bs generalizing as with
  | nil =>
    cases hread
    exact List.forall_mem_nil _
  | cons b bs ih =>
    simp only [List.mapM_cons, Option.bind_eq_bind, Option.bind_eq_some_iff, Option.pure_def,
      Option.some.injEq] at hread
    obtain ⟨a, ha, as, has, rfl⟩ := hread
    exact List.forall_mem_cons.mpr ⟨h b a ha, ih has⟩

end Lists

section Values

/-- The front of `cs` reads as `a` up to `rest`. -/
def Reads {α : Type} {cs : List Char} (front : Option (Front α cs)) (a : α) (rest : List Char) :
    Prop :=
  ∃ shorter, front = some ⟨a, rest, shorter⟩

theorem reads_some {α : Type} {cs : List Char} (f : Front α cs) : Reads (some f) f.value f.rest :=
  ⟨f.shorter, rfl⟩

theorem skipSpace_cons {c : Char} (h : isSpace c = false) (cs : List Char) :
    skipSpace (c :: cs) = c :: cs := by
  rw [skipSpace, List.dropWhile_cons, h]
  rfl

theorem skipSpace_append {gap : List Char} (hgap : gap.all isSpace) (cs : List Char) :
    skipSpace (gap ++ cs) = skipSpace cs :=
  List.dropWhile_append_of_pos (List.all_eq_true.mp hgap)

theorem toList_quoted (s : String) (rest : List Char) :
    (quoted s).toList ++ rest = '"' :: (s.toList.flatMap escape ++ '"' :: rest) := by
  simp [quoted]

variable {room : Nat} {c : Char} {cs tail rest : List Char} {j : Json}

theorem string?_of_splitString? {s : List Char} (h : splitString? tail = some (s, rest)) :
    Reads (string? ('"' :: tail)) (String.ofList s) rest := by
  rw [string?]
  split
  · rename_i h'
    cases h.symm.trans h'
    exact reads_some _
  · rename_i h'
    cases h.symm.trans h'

theorem string?_quoted (s : String) (rest : List Char) :
    Reads (string? ((quoted s).toList ++ rest)) s rest := by
  rw [toList_quoted]
  simpa using string?_of_splitString? (splitString?_quoted s.toList rest)

/-- A name is read behind spaces. -/
theorem string?_skipSpace {gap : List Char} (hgap : gap.all isSpace) (s : String)
    (rest : List Char) :
    Reads (string? (skipSpace (gap ++ ((quoted s).toList ++ rest)))) s rest := by
  have hquote : skipSpace (gap ++ ((quoted s).toList ++ rest)) = (quoted s).toList ++ rest := by
    rw [skipSpace_append hgap, toList_quoted]
    rfl
  rw [hquote]
  exact string?_quoted s rest

/-- What starts like no array and no object is read as it is without others in it. -/
theorem value?_of_scalar (hfront : skipSpace cs = c :: tail) (harray : c ≠ '[')
    (hobject : c ≠ '\x7b') (h : Reads (scalar? (c :: tail)) j rest) :
    Reads (value? room cs) j rest := by
  rw [← hfront] at h
  obtain ⟨_, h⟩ := h
  rw [value?]
  split
  · rename_i heq
    rw [hfront] at heq
    exact absurd (List.cons.inj heq).1 harray
  · rename_i heq
    rw [hfront] at heq
    exact absurd (List.cons.inj heq).1 hobject
  · rw [h]
    exact reads_some _

/-- No item starts with the closing bracket. -/
theorem items?_close (h : skipSpace cs = ']' :: tail) : items? room cs = none := by
  have hvalue : value? room cs = none := by
    rw [value?]
    split
    · rename_i heq
      cases h.symm.trans heq
    · rename_i heq
      cases h.symm.trans heq
    · have hscalar : scalar? (skipSpace cs) = none := by
        rw [h]
        rfl
      rw [hscalar]
  rw [items?, hvalue]

/-- No name starts with the closing brace. -/
theorem members?_close (h : skipSpace cs = '\x7d' :: tail) : members? room cs = none := by
  have hname : string? (skipSpace cs) = none := by
    rw [h]
    rfl
  rw [members?]
  split
  · rfl
  · rename_i hsome
    cases hname.symm.trans hsome

/-- An array is closed at once or holds items. -/
theorem value?_array {items : List Json} (hopen : skipSpace cs = '[' :: tail)
    (h : skipSpace tail = ']' :: rest ∧ items = [] ∨ Reads (items? room tail) items rest) :
    Reads (value? (room + 1) cs) (.arr items) rest := by
  rw [value?]
  split
  · rename_i heq
    cases hopen.symm.trans heq
    dsimp only
    split
    · rename_i hclose
      obtain ⟨hempty, rfl⟩ | ⟨_, hitems⟩ := h
      · cases hempty.symm.trans hclose
        exact reads_some _
      · cases (items?_close hclose).symm.trans hitems
    · rename_i hfirst
      obtain ⟨hempty, -⟩ | ⟨_, hitems⟩ := h
      · exact absurd hempty (hfirst rest)
      · rw [hitems]
        exact reads_some _
  · rename_i heq
    cases hopen.symm.trans heq
  · rename_i heq _
    exact absurd hopen (heq _)

/-- An object is closed at once or holds members. -/
theorem value?_object {members : List (String × Json)} (hopen : skipSpace cs = '\x7b' :: tail)
    (h : skipSpace tail = '\x7d' :: rest ∧ members = [] ∨
      Reads (members? room tail) members rest) :
    Reads (value? (room + 1) cs) (.obj members) rest := by
  rw [value?]
  split
  · rename_i heq
    cases hopen.symm.trans heq
  · rename_i heq
    cases hopen.symm.trans heq
    dsimp only
    split
    · rename_i hclose
      obtain ⟨hempty, rfl⟩ | ⟨_, hmembers⟩ := h
      · cases hempty.symm.trans hclose
        exact reads_some _
      · cases (members?_close hclose).symm.trans hmembers
    · rename_i hfirst
      obtain ⟨hempty, -⟩ | ⟨_, hmembers⟩ := h
      · exact absurd hempty (hfirst rest)
      · rw [hmembers]
        exact reads_some _
  · rename_i heq
    exact absurd hopen (heq _)

variable {after : List Char}

/-- An item is followed by the end of the array or by more items. -/
theorem items?_cons {items : List Json} (h : Reads (value? room cs) j after)
    (hafter : skipSpace after = ']' :: rest ∧ items = [] ∨
      ∃ more, skipSpace after = ',' :: more ∧ Reads (items? room more) items rest) :
    Reads (items? room cs) (j :: items) rest := by
  obtain ⟨_, h⟩ := h
  rw [items?, h]
  dsimp only
  obtain ⟨hclose, rfl⟩ | ⟨more, hcomma, _, hmore⟩ := hafter
  · split
    · rename_i heq
      cases hclose.symm.trans heq
      exact reads_some _
    · rename_i heq
      cases hclose.symm.trans heq
    · rename_i heq _
      exact absurd hclose (heq _)
  · split
    · rename_i heq
      cases hcomma.symm.trans heq
    · rename_i heq
      cases hcomma.symm.trans heq
      rw [hmore]
      exact reads_some _
    · rename_i heq
      exact absurd hcomma (heq _)

/-- A member is followed by the end of the object or by more members. -/
theorem members?_cons {name : String} {members : List (String × Json)}
    (hname : Reads (string? (skipSpace cs)) name (':' :: tail))
    (h : Reads (value? room tail) j after)
    (hafter : skipSpace after = '\x7d' :: rest ∧ members = [] ∨
      ∃ more, skipSpace after = ',' :: more ∧ Reads (members? room more) members rest) :
    Reads (members? room cs) ((name, j) :: members) rest := by
  obtain ⟨_, hname⟩ := hname
  obtain ⟨_, h⟩ := h
  rw [members?]
  split
  · rename_i hnone
    cases hname.symm.trans hnone
  · rename_i hsome
    cases hname.symm.trans hsome
    have hcolon : skipSpace (':' :: tail) = ':' :: tail := rfl
    dsimp only
    split
    · rename_i heq
      cases hcolon.symm.trans heq
      rw [h]
      dsimp only
      obtain ⟨hclose, rfl⟩ | ⟨more, hcomma, _, hmore⟩ := hafter
      · split
        · rename_i heq
          cases hclose.symm.trans heq
          exact reads_some _
        · rename_i heq
          cases hclose.symm.trans heq
        · rename_i heq _
          exact absurd hclose (heq _)
      · split
        · rename_i heq
          cases hcomma.symm.trans heq
        · rename_i heq
          cases hcomma.symm.trans heq
          rw [hmore]
          exact reads_some _
        · rename_i heq
          exact absurd hcomma (heq _)
    · rename_i heq
      exact absurd hcolon (heq _)

end Values

/-- The text of a number is a numeral with the value. -/
def IsNumeral (j : Json) : Prop :=
  ∃ n, splitNumeral? j.compact.toList = some (n, []) ∧ n.value? = some j

/-- A finite double is read back from the numeral that is written for it. -/
def ReadsBack (x : Float) : Prop :=
  x.isFinite = true → IsNumeral (.float x)

theorem readsBack_of_float? {x : Float} {n : Numeral}
    (htext : splitNumeral? (floatText x).toList = some (n, [])) (hint : n.int? = none)
    (hvalue : n.float? = some x) : ReadsBack x := by
  intro _
  refine ⟨n, htext, ?_⟩
  rw [Numeral.value?, hint, hvalue]
  rfl

/-- A value whose numbers read back, in no more than `room` arrays and objects. -/
inductive Readable : Nat → Json → Prop where
  | null (room : Nat) : Readable room .null
  | bool (room : Nat) (b : Bool) : Readable room (.bool b)
  | number (room : Nat) {j : Json} (h : j.IsNumeral) : Readable room j
  | str (room : Nat) (s : String) : Readable room (.str s)
  | arr {room : Nat} {items : List Json} (h : ∀ item ∈ items, Readable room item) :
    Readable (room + 1) (.arr items)
  | obj {room : Nat} {members : List (String × Json)} (h : ∀ m ∈ members, Readable room m.2) :
    Readable (room + 1) (.obj members)

theorem readable_ofFloat {x : Float} (h : ReadsBack x) (room : Nat) :
    Readable room (.ofFloat x) := by
  unfold ofFloat
  split
  · rename_i hfinite
    exact .number room (h hfinite)
  · exact .null room

section Texts

variable {room : Nat} {gap last : List Char} {j : Json}

/-- The value is read from the text, whatever spaces stand before it and whatever follows it. -/
def IsRead (room : Nat) (text : String) (j : Json) : Prop :=
  ∀ gap rest, gap.all isSpace → Delimited rest →
    Reads (value? room (gap ++ (text.toList ++ rest))) j rest

theorem splitNumeral?_head {cs tail : List Char} {n : Numeral}
    (h : splitNumeral? cs = some (n, tail)) :
    ∃ c unread, cs = c :: unread ∧ (c = '-' ∨ c.isDigit = true) := by
  cases cs with
  | nil => cases h
  | cons c cs =>
    refine ⟨c, cs, rfl, or_iff_not_imp_left.mpr fun hminus => ?_⟩
    obtain ⟨-, _, hwhole, -⟩ :=
      (splitNumeral?_iff_of_ne fun _ heq => hminus (List.cons.inj heq).1).mp h
    by_contra hdigit
    have hnone : Decimal.splitDigits (c :: cs) = ([], c :: cs) := by
      simp [Decimal.splitDigits, hdigit]
    rw [splitWhole?, hnone] at hwhole
    cases hwhole

theorem IsNumeral.isRead (h : j.IsNumeral) : IsRead room j.compact j := by
  obtain ⟨n, hnumeral, hvalue⟩ := h
  intro gap rest hgap hrest
  have hlong := splitNumeral?_append hrest hnumeral
  obtain ⟨c, unread, htext, hhead⟩ := splitNumeral?_head hnumeral
  have hother : ∀ d, d ≠ '-' → d.isDigit = false → c ≠ d := by
    rintro d hminus hdigit rfl
    rcases hhead with hhead | hhead
    · exact hminus hhead
    · cases hdigit.symm.trans hhead
  have hspace : isSpace c = false := by
    simp [isSpace, hother ' ' (by decide) (by decide), hother '\n' (by decide) (by decide),
      hother '\t' (by decide) (by decide), hother '\r' (by decide) (by decide)]
  rw [htext, List.cons_append] at hlong ⊢
  refine value?_of_scalar ((skipSpace_append hgap _).trans (skipSpace_cons hspace _))
    (hother '[' (by decide) (by decide)) (hother '\x7b' (by decide) (by decide)) ?_
  rw [scalar?]
  simp only [if_neg (hother '"' (by decide) (by decide))]
  rw [if_pos (by simpa using hhead), number?, hlong]
  dsimp only
  rw [dif_pos, hvalue]
  · exact reads_some _
  · simp only [List.nil_append, List.length_cons, List.length_append]
    omega

theorem isRead_str (s : String) : IsRead room (quoted s) (.str s) := by
  intro gap rest hgap _
  have hread := string?_quoted s rest
  rw [toList_quoted] at hread ⊢
  obtain ⟨_, hread⟩ := hread
  refine value?_of_scalar (skipSpace_append hgap _) (by decide) (by decide) ?_
  rw [scalar?, if_pos rfl, hread]
  exact reads_some _

/-- Texts with commas between them, each after the same spaces. -/
def separated (gap : List Char) : List (List Char) → List Char
  | [] => []
  | [text] => gap ++ text
  | text :: next :: rest => gap ++ (text ++ ',' :: separated gap (next :: rest))

theorem separated_single_append (gap text rest : List Char) :
    separated gap [text] ++ rest = gap ++ (text ++ rest) := by
  rw [separated, List.append_assoc]

theorem separated_cons_append (gap text next : List Char) (texts : List (List Char))
    (rest : List Char) : separated gap (text :: next :: texts) ++ rest =
      gap ++ (text ++ ',' :: (separated gap (next :: texts) ++ rest)) := by
  rw [separated, List.append_assoc, List.append_assoc, List.cons_append]

theorem items?_separated (hgap : gap.all isSpace) (hlast : last.all isSpace)
    {text : Json → String} {items : List Json} (hne : items ≠ [])
    (h : ∀ item ∈ items, IsRead room (text item) item) (rest : List Char) :
    Reads (items? room (separated gap (items.map fun item => (text item).toList) ++
      (last ++ ']' :: rest))) items rest := by
  induction items with
  | nil => exact absurd rfl hne
  | cons item items ih =>
    obtain ⟨hitem, hitems⟩ := List.forall_mem_cons.mp h
    cases items with
    | nil =>
      rw [List.map_singleton, separated_single_append]
      exact items?_cons (hitem gap _ hgap (delimited_append hlast (by simp) rest))
        (.inl ⟨skipSpace_append hlast _, rfl⟩)
    | cons next items =>
      have hmore := ih (List.cons_ne_nil _ _) hitems
      rw [List.map_cons, List.map_cons, separated_cons_append]
      exact items?_cons (hitem gap _ hgap (delimited_cons (by simp) _))
        (.inr ⟨_, rfl, hmore⟩)

theorem members?_separated (hgap : gap.all isSpace) (hlast : last.all isSpace) {pad : List Char}
    (hpad : pad.all isSpace) {text : Json → String} {members : List (String × Json)}
    (hne : members ≠ []) (h : ∀ m ∈ members, IsRead room (text m.2) m.2) (rest : List Char) :
    Reads (members? room (separated gap (members.map fun m =>
      (quoted m.1).toList ++ ':' :: (pad ++ (text m.2).toList)) ++ (last ++ '\x7d' :: rest)))
      members rest := by
  induction members with
  | nil => exact absurd rfl hne
  | cons m members ih =>
    obtain ⟨name, value⟩ := m
    obtain ⟨hvalue, hmembers⟩ := List.forall_mem_cons.mp h
    cases members with
    | nil =>
      rw [List.map_singleton, separated_single_append, List.append_assoc, List.cons_append,
        List.append_assoc]
      exact members?_cons (string?_skipSpace hgap name _)
        (hvalue pad _ hpad (delimited_append hlast (by simp) rest))
        (.inl ⟨skipSpace_append hlast _, rfl⟩)
    | cons next members =>
      have hmore := ih (List.cons_ne_nil _ _) hmembers
      rw [List.map_cons, List.map_cons, separated_cons_append, List.append_assoc, List.cons_append,
        List.append_assoc]
      exact members?_cons (string?_skipSpace hgap name _)
        (hvalue pad _ hpad (delimited_cons (by simp) _)) (.inr ⟨_, rfl, hmore⟩)

/-- A value that is read at the start of a text with nothing after it is the value of the text. -/
theorem IsRead.ofText?_eq {text : String} (h : IsRead maxDepth text j) : ofText? text = some j := by
  have hread := h [] [] rfl delimited_nil
  rw [List.append_nil, List.nil_append] at hread
  obtain ⟨_, hread⟩ := hread
  rw [ofText?, hread]
  rfl

end Texts

section Compact

variable {room : Nat} {j : Json}

theorem toList_compactItems (items : List Json) :
    (compactItems items).toList = separated [] (items.map fun item => item.compact.toList) := by
  induction items with
  | nil => rfl
  | cons item items ih =>
    cases items with
    | nil => simp [compactItems, separated]
    | cons next items =>
      rw [List.map_cons] at ih
      simp [compactItems, separated, ih]

theorem toList_compactMembers (members : List (String × Json)) :
    (compactMembers members).toList = separated [] (members.map fun m =>
      (quoted m.1).toList ++ ':' :: ([] ++ m.2.compact.toList)) := by
  induction members with
  | nil => rfl
  | cons m members ih =>
    cases members with
    | nil => simp [compactMembers, separated]
    | cons next members =>
      rw [List.map_cons] at ih
      simp [compactMembers, separated, ih]

/-- A value is read from its text on one line. -/
theorem Readable.isRead_compact (h : Readable room j) : IsRead room j.compact j := by
  induction h with
  | null room =>
    intro gap rest hgap _
    exact value?_of_scalar (skipSpace_append hgap _) (by decide) (by decide) (reads_some _)
  | bool room b =>
    intro gap rest hgap _
    cases b
    · exact value?_of_scalar (skipSpace_append hgap _) (by decide) (by decide) (reads_some _)
    · exact value?_of_scalar (skipSpace_append hgap _) (by decide) (by decide) (reads_some _)
  | number room h => exact h.isRead
  | str room s => exact isRead_str s
  | @arr room items _ ih =>
    intro gap rest hgap _
    have htext : (compact (.arr items)).toList ++ rest =
        '[' :: ((compactItems items).toList ++ ([] ++ ']' :: rest)) := by
      simp [compact]
    rw [htext, toList_compactItems]
    refine value?_array (skipSpace_append hgap _) ?_
    by_cases hne : items = []
    · subst hne
      exact .inl ⟨rfl, rfl⟩
    · exact .inr (items?_separated rfl rfl hne ih rest)
  | @obj room members _ ih =>
    intro gap rest hgap _
    have htext : (compact (.obj members)).toList ++ rest =
        '\x7b' :: ((compactMembers members).toList ++ ([] ++ '\x7d' :: rest)) := by
      simp [compact]
    rw [htext, toList_compactMembers]
    refine value?_object (skipSpace_append hgap _) ?_
    by_cases hne : members = []
    · subst hne
      exact .inl ⟨rfl, rfl⟩
    · exact .inr (members?_separated rfl rfl rfl hne ih rest)

/-- A value that is written on a line is read back. -/
theorem ofText?_compact (h : Readable maxDepth j) : ofText? j.compact = some j :=
  h.isRead_compact.ofText?_eq

end Compact

end PlanarArea.Json
