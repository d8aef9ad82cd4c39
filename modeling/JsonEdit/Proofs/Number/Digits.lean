import JsonEdit.Number.Digit
import JsonEdit.Number.Power
import Mathlib.Data.List.Induction
import Mathlib.Tactic.Ring
import Mathlib.Algebra.Order.Ring.Nat

/-!
# What digit strings write

The number that a digit string writes, the digits of a number, and the zeros at either end of them.
-/

namespace JsonEdit

@[simp]
theorem pow10_eq (n : Nat) : pow10 n = 10 ^ n := rfl

@[simp]
theorem pow2_eq (n : Nat) : pow2 n = 2 ^ n := rfl

namespace Digit

@[simp]
theorem value_nil : value [] = 0 := rfl

theorem value_concat (digits : List Digit) (last : Digit) :
    value (digits ++ [last]) = value digits * 10 + last.val := by
  rw [value, List.foldl_append]
  rfl

theorem value_append (front back : List Digit) :
    value (front ++ back) = value front * 10 ^ back.length + value back := by
  induction back using List.reverseRecOn with
  | nil => simp
  | append_singleton back last ih =>
      rw [← List.append_assoc, value_concat, ih, value_concat, List.length_append,
        List.length_singleton]
      ring

theorem value_cons (first : Digit) (rest : List Digit) :
    value (first :: rest) = first.val * 10 ^ rest.length + value rest := by
  have happend := value_append [first] rest
  simpa [value] using happend

@[simp]
theorem value_replicate_zero (count : Nat) : value (List.replicate count 0) = 0 := by
  induction count with
  | zero => rfl
  | succ count ih => rw [List.replicate_succ', value_concat, ih]; rfl

@[simp]
theorem value_ofNat (n : Nat) : value (ofNat n) = n := by
  induction n using Nat.strong_induction_on with
  | _ n ih =>
      rw [ofNat]
      split
      · rename_i hsmall
        simp [value, Nat.mod_eq_of_lt hsmall]
      · rw [value_concat, ih (n / 10) (by omega), Fin.val_ofNat]
        omega

theorem ofNat_mul_ten {n : Nat} (hpos : n ≠ 0) : ofNat (n * 10) = ofNat n ++ [0] := by
  rw [ofNat, if_neg (by omega), Nat.mul_div_cancel n (by omega)]
  congr 2
  exact Fin.ext (by simp)

theorem ofNat_ne_nil (n : Nat) : ofNat n ≠ [] := by
  rw [ofNat]
  split <;> simp

@[simp]
theorem length_lastDigits (count n : Nat) : (lastDigits count n).length = count := by
  induction count generalizing n with
  | zero => rfl
  | succ count ih => rw [lastDigits, List.length_append, ih, List.length_singleton]

@[simp]
theorem value_lastDigits (count n : Nat) : value (lastDigits count n) = n % 10 ^ count := by
  induction count generalizing n with
  | zero => rw [lastDigits, value_nil, pow_zero, Nat.mod_one]
  | succ count ih =>
      rw [lastDigits, value_concat, ih, Fin.val_ofNat, pow_succ, mul_comm (10 ^ count), Nat.mod_mul]
      omega

/-! ### Zeros at the ends -/

theorem dropTrailingZeros_concat_zero (digits : List Digit) :
    dropTrailingZeros (digits ++ [0]) = dropTrailingZeros digits := by
  simp [dropTrailingZeros]

/-- The dropped digits are zeros. -/
theorem exists_dropTrailingZeros_append (digits : List Digit) :
    ∃ count, dropTrailingZeros digits ++ List.replicate count 0 = digits := by
  induction digits using List.reverseRecOn with
  | nil => exact ⟨0, rfl⟩
  | append_singleton digits last ih =>
      by_cases hlast : last = 0
      · obtain ⟨count, hcount⟩ := ih
        refine ⟨count + 1, ?_⟩
        rw [hlast, dropTrailingZeros_concat_zero, List.replicate_succ', ← List.append_assoc, hcount]
      · refine ⟨0, ?_⟩
        simp [dropTrailingZeros, hlast]

theorem dropTrailingZeros_ne_nil {digits : List Digit} (hvalue : value digits ≠ 0) :
    dropTrailingZeros digits ≠ [] := by
  intro hnil
  obtain ⟨count, hcount⟩ := exists_dropTrailingZeros_append digits
  rw [← hcount, hnil] at hvalue
  simp at hvalue

theorem value_dropLeadingZeros (digits : List Digit) :
    value (dropLeadingZeros digits) = value digits := by
  induction digits with
  | nil => rfl
  | cons first rest ih =>
      by_cases hfirst : first = 0
      · have hzero : value (first :: rest) = value rest := by
          rw [value_cons, hfirst]
          simp
        rw [hzero, ← ih]
        simp [dropLeadingZeros, hfirst]
      · simp [dropLeadingZeros, hfirst]

theorem head?_dropLeadingZeros_ne (digits : List Digit) :
    (dropLeadingZeros digits).head? ≠ some 0 := by
  intro hzero
  have hfirst := List.head?_dropWhile_not (p := (· == (0 : Digit))) digits
  rw [← dropLeadingZeros, hzero] at hfirst
  simp at hfirst

theorem getLast?_dropTrailingZeros_ne (digits : List Digit) :
    (dropTrailingZeros digits).getLast? ≠ some 0 := by
  rw [dropTrailingZeros, List.getLast?_reverse]
  exact head?_dropLeadingZeros_ne digits.reverse

/-- A digit string that does not begin with a zero writes a large number. -/
theorem le_value_of_length {digits : List Digit} {count : Nat}
    (hlength : count < (dropLeadingZeros digits).length) : 10 ^ count ≤ value digits := by
  rw [← value_dropLeadingZeros]
  have hhead := head?_dropLeadingZeros_ne digits
  match hcons : dropLeadingZeros digits with
  | [] => simp [hcons] at hlength
  | first :: rest =>
      rw [hcons] at hhead hlength
      have hfirst : 1 ≤ first.val :=
        Nat.one_le_iff_ne_zero.mpr fun hzero => hhead (congrArg some (Fin.ext hzero))
      rw [List.length_cons] at hlength
      calc
        10 ^ count ≤ 10 ^ rest.length := Nat.pow_le_pow_right (by omega) (by omega)
        _ ≤ first.val * 10 ^ rest.length := Nat.le_mul_of_pos_left _ hfirst
        _ ≤ value (first :: rest) := by
          rw [value_cons]
          exact Nat.le_add_right _ _

/-- A whole part has no zero in front. -/
theorem exists_ofNat_cons {n : Nat} (hpos : n ≠ 0) :
    ∃ first rest, ofNat n = first :: rest ∧ first ≠ 0 := by
  induction n using ofNat.induct with
  | case1 n hlt =>
      refine ⟨Fin.ofNat 10 n, [], by rw [ofNat, if_pos hlt], ?_⟩
      rw [Ne, Fin.ext_iff]
      simp only [Fin.val_ofNat]
      change ¬n % 10 = 0
      omega
  | case2 n hlt ih =>
      obtain ⟨first, rest, heq, hfirst⟩ := ih (by omega)
      refine ⟨first, rest ++ [Fin.ofNat 10 n], ?_, hfirst⟩
      rw [ofNat, if_neg hlt, heq, List.cons_append]

/-- Digits that do not begin with a zero are those of the number that they write. -/
theorem ofNat_value {digits : List Digit} (hne : digits ≠ []) (hfirst : digits.head? ≠ some 0) :
    ofNat (value digits) = digits := by
  induction digits using List.reverseRecOn with
  | nil => exact absurd rfl hne
  | append_singleton digits last ih =>
      have hlast := last.isLt
      rw [value_concat, ofNat]
      cases digits with
      | nil => simp
      | cons first rest =>
          have hlength : 0 < (dropLeadingZeros (first :: rest)).length := by
            rw [dropLeadingZeros, List.dropWhile_cons_of_neg]
            · exact Nat.zero_lt_succ _
            · simpa using hfirst
          have hpos := le_value_of_length hlength
          have hdiv : (value (first :: rest) * 10 + last.val) / 10 = value (first :: rest) := by omega
          rw [if_neg (by omega), hdiv, ih (List.cons_ne_nil first rest) (by simpa using hfirst)]
          congr 2
          exact Fin.ext (by rw [Fin.val_ofNat]; omega)

theorem dropLeadingZeros_of_value_ne {digits : List Digit} (hvalue : value digits ≠ 0) :
    dropLeadingZeros digits = ofNat (value digits) := by
  have hne : dropLeadingZeros digits ≠ [] := by
    intro hnil
    rw [← value_dropLeadingZeros, hnil] at hvalue
    exact hvalue rfl
  rw [← value_dropLeadingZeros, ofNat_value hne (head?_dropLeadingZeros_ne digits)]

theorem dropLeadingZeros_of_value_eq {digits : List Digit} (hvalue : value digits = 0) :
    dropLeadingZeros digits = [] := by
  by_contra hne
  have hlarge := le_value_of_length (List.length_pos_iff.mpr hne)
  omega

end Digit

end JsonEdit
