import PlanarArea.Proofs.Json.RoundTrip

/-!
# Natural numbers in digits

The digits of a natural number have its value, do not start with a zero that could be left out, and
end before a character that is no digit. So a number of 64 bits is read back from its digits, as a
JSON value too.
-/
namespace PlanarArea

namespace Decimal

theorem digitsValue_digits (n : Nat) : digitsValue (digits n) = n := by
  rw [digitsValue, ← Nat.ofDigitChars_eq_foldl]
  exact Nat.ofDigitChars_ten_toDigits

theorem isDigit_of_mem_digits {n : Nat} {c : Char} (h : c ∈ digits n) : c.isDigit = true :=
  Nat.isDigit_of_mem_toDigits (by decide) (by decide) h

theorem splitDigits_digits_append (n : Nat) {rest : List Char}
    (hrest : splitDigits rest = ([], rest)) :
    splitDigits (digits n ++ rest) = (digits n, rest) := by
  have hdigits : ∀ c ∈ digits n, c.isDigit = true := fun c hc => isDigit_of_mem_digits hc
  rw [splitDigits, Prod.mk.injEq] at hrest
  rw [splitDigits, List.takeWhile_append_of_pos hdigits, List.dropWhile_append_of_pos hdigits,
    hrest.1, hrest.2, List.append_nil]

theorem digitChar_ne_zero : ∀ d < 10, 0 < d → Nat.digitChar d ≠ '0' := by
  decide

/-- A positive number does not start with a zero. -/
theorem head?_digits_ne_zero {n : Nat} (h : 0 < n) : (digits n).head? ≠ some '0' := by
  induction n using Nat.strongRecOn with
  | ind n ih =>
    rw [digits, Nat.toDigits_eq_if (by decide)]
    split
    · rename_i hlt
      simpa using digitChar_ne_zero n hlt h
    · have hhead := ih (n / 10) (by omega) (by omega)
      rw [digits] at hhead
      cases hlead : Nat.toDigits 10 (n / 10) with
      | nil => exact absurd hlead Nat.toDigits_ne_nil
      | cons c cs =>
        rw [hlead] at hhead
        exact hhead

end Decimal

namespace Json

open Decimal (digits splitDigits)

theorem Numeral.le_ofDigitChars (cs : List Char) (n : Nat) : n ≤ Nat.ofDigitChars 10 cs n := by
  induction cs generalizing n with
  | nil => exact Nat.le_refl n
  | cons c cs ih =>
    rw [Nat.ofDigitChars_cons]
    exact Nat.le_trans (by omega) (ih _)

/-- All digits are appended if the number fits 64 bits. -/
theorem Numeral.appendDigits_eq {cs : List Char} {n : Nat}
    (h : Nat.ofDigitChars 10 cs n < wordEnd) :
    appendDigits n cs = (Nat.ofDigitChars 10 cs n, 0) := by
  induction cs generalizing n with
  | nil => rfl
  | cons c cs ih =>
    rw [Nat.ofDigitChars_cons] at h ⊢
    rw [appendDigits, if_pos (Nat.lt_of_le_of_lt (le_ofDigitChars cs _) h), ih h]

theorem splitWhole?_digits (n : Nat) : splitWhole? (digits n) = some (digits n, []) := by
  have hsplit : splitDigits (digits n ++ []) = (digits n, []) :=
    Decimal.splitDigits_digits_append n rfl
  rw [List.append_nil] at hsplit
  rw [splitWhole?, hsplit]
  split
  · rename_i heq
    exact absurd (Prod.mk.inj heq).1 Nat.toDigits_ne_nil
  · rename_i heq
    obtain ⟨heq, -⟩ := Prod.mk.inj heq
    cases Nat.eq_zero_or_pos n with
    | inl hzero =>
      rw [hzero] at heq
      cases heq
    | inr hpos =>
      refine absurd ?_ (Decimal.head?_digits_ne_zero hpos)
      rw [heq]
      rfl
  · rfl

/-- A natural number of 64 bits is read back from its digits. -/
theorem isNumeral_nat {n : Nat} (h : n < Numeral.wordEnd) : (nat n).IsNumeral := by
  have htext : (nat n).compact = n.repr := rfl
  have hdigits : (nat n).compact.toList = digits n := by
    rw [htext, Nat.toList_repr, digits]
  have hminus : ∀ unsigned, digits n ≠ '-' :: unsigned := by
    intro unsigned heq
    have hmem : '-' ∈ digits n := heq ▸ List.mem_cons_self
    exact absurd (Decimal.isDigit_of_mem_digits hmem) (by decide)
  have hvalue : Nat.ofDigitChars 10 (digits n) 0 = n := Nat.ofDigitChars_ten_toDigits
  have hword : Numeral.appendDigits 0 (digits n) = (n, 0) := by
    rw [Numeral.appendDigits_eq (hvalue.symm ▸ h), hvalue]
  refine ⟨⟨false, digits n, none, none⟩, ?_, ?_⟩
  · rw [hdigits, splitNumeral?_iff_of_ne hminus]
    exact ⟨rfl, [], splitWhole?_digits n, [], rfl, rfl⟩
  · rw [Numeral.value?, Numeral.int?, hword]
    rfl

end Json

end PlanarArea
