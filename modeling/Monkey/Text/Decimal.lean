/-!
Decimal notation of whole numbers: reading the written form of a number gives the number back.
-/

namespace Monkey.Text.Decimal

/-- The value of one more digit behind those that already make up `n`. -/
def shift (n : Nat) (digit : Char) : Nat := 10 * n + (digit.toNat - '0'.toNat)

/-- The number that a run of digits denotes, leading zeros or not. -/
def value (digits : List Char) : Nat := digits.foldl shift 0

/-- The digits of a number, without leading zeros. -/
def digits (n : Nat) : List Char := Nat.toDigits 10 n

/-- A whole number, with a minus sign if it is negative. -/
def text : Int → String
  | .ofNat n => String.ofList (digits n)
  | .negSucc n => String.ofList ('-' :: digits (n + 1))

theorem isDigit_of_mem_digits {c : Char} {n : Nat} (h : c ∈ digits n) : c.isDigit :=
  Nat.isDigit_of_mem_toDigits (by decide) (by decide) h

theorem value_append_singleton (cs : List Char) (c : Char) :
    value (cs ++ [c]) = shift (value cs) c := by
  simp [value]

private theorem toNat_digitChar (d : Fin 10) : d.val.digitChar.toNat - '0'.toNat = d := by
  revert d; decide

@[simp] theorem value_digits (n : Nat) : value (digits n) = n := by
  induction n using Nat.strongRecOn with
  | ind n ih =>
    unfold digits
    rw [Nat.toDigits_eq_if (by decide)]
    split
    · next h => simpa [value, shift] using toNat_digitChar ⟨n, h⟩
    · next h =>
      have hd := toNat_digitChar ⟨n % 10, Nat.mod_lt n (by decide)⟩
      have hq : value (Nat.toDigits 10 (n / 10)) = n / 10 :=
        ih (n / 10) (Nat.div_lt_self (by omega) (by decide))
      rw [value_append_singleton, hq, shift, hd]
      simp only
      omega

end Monkey.Text.Decimal
