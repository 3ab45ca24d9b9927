/-
  Numbers written with a radix of its own at each place, least significant first.

  Below the product of the radices, numbers and lists of digits in range correspond one to one
  (`number_digits`, `digits_number`).
-/
import Mathlib.Tactic

namespace Blut.Lib

def digits : List Nat → Nat → List Nat
  | [], _ => []
  | radix :: radices, n => n % radix :: digits radices (n / radix)

/-- The number that a list of digits stands for. -/
def number : List Nat → List Nat → Nat
  | radix :: radices, digit :: rest => digit + radix * number radices rest
  | _, _ => 0

variable {radices ds : List Nat}

theorem number_digits (radices : List Nat) (n : Nat) :
    number radices (digits radices n) = n % radices.prod := by
  induction radices generalizing n with
  | nil => rw [List.prod_nil, Nat.mod_one]; rfl
  | cons radix radices ih => rw [digits, number, ih, List.prod_cons, Nat.mod_mul]

theorem digits_number (h : List.Forall₂ (· < ·) ds radices) :
    digits radices (number radices ds) = ds := by
  induction h with
  | nil => rfl
  | @cons digit radix _ _ hlt _ ih =>
    have hpos : 0 < radix := by omega
    rw [number, digits, Nat.add_mul_mod_self_left, Nat.mod_eq_of_lt hlt,
      Nat.add_mul_div_left _ _ hpos, Nat.div_eq_of_lt hlt, zero_add, ih]

theorem prod_pos_of_digits (h : List.Forall₂ (· < ·) ds radices) : 0 < radices.prod := by
  induction h with
  | nil => decide
  | cons hlt _ ih =>
    rw [List.prod_cons]
    exact Nat.mul_pos (by omega) ih

theorem number_lt (h : List.Forall₂ (· < ·) ds radices) : number radices ds < radices.prod := by
  have hmod := number_digits radices (number radices ds)
  rw [digits_number h] at hmod
  exact hmod ▸ Nat.mod_lt _ (prod_pos_of_digits h)

theorem mod_eq_of_digits_eq {n m : Nat} (h : digits radices n = digits radices m) :
    n % radices.prod = m % radices.prod := by
  rw [← number_digits, h, number_digits]

end Blut.Lib
