import CallAtlas.Timestamp
import Mathlib.Data.Nat.Init

/-! Decimal numbers read back from their digits. -/
namespace CallAtlas

theorem Text.isDigit_eq (c : Char) : Text.isDigit c = c.isDigit := by
  simp only [Text.isDigit, Char.isDigit, Char.le_def]

namespace Decimal

theorem isDigit_of_mem {n : Nat} {c : Char} (member : c ∈ Nat.toDigits 10 n) : Text.isDigit c = true := by
  rw [Text.isDigit_eq]
  exact Nat.isDigit_of_mem_toDigits (by decide) (by decide) member

/-- Only zero starts with a zero. -/
theorem head?_ne_zero {n : Nat} (positive : 0 < n) : (Nat.toDigits 10 n).head? ≠ some '0' := by
  induction n using Nat.base_induction 10 (by decide) with
  | single m small =>
    rw [Nat.toDigits_of_lt_base small]
    simp
    omega
  | digit m k small nonzero ih =>
    obtain ⟨first, rest, digits⟩ : ∃ first rest, Nat.toDigits 10 m = first :: rest :=
      List.exists_cons_of_ne_nil Nat.toDigits_ne_nil
    have known := ih nonzero
    rw [digits] at known
    rw [← Nat.toDigits_append_toDigits (by decide) nonzero small, digits]
    exact known

theorem foldl_digits (digits : List Char) :
    digits.foldl (fun value digit => value * 10 + (digit.toNat - '0'.toNat)) 0 = Nat.ofDigitChars 10 digits 0 := by
  simp only [Nat.ofDigitChars, Nat.mul_comm 10]

end Decimal
end CallAtlas
