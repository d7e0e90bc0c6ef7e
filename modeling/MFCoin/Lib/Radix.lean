/-
Module: MFCoin.Lib.Radix
Purpose: Numbers as lists of digits in a base, least significant digit first
  (`Nat.ofDigits`). A list with zeros at its end denotes what the list without them
  denotes, and the list without them is the number's `Nat.digits`. A bound between powers
  of two bases, `a ^ n ≤ c ^ (n * p / q + 1)` (the ratio of their logarithms below `p / q`),
  holds at every `n` once it holds over one period of `q`.
Trusted boundary: none
  A number's digits written as symbols, most significant first, do not start with the
  symbol of zero, and symbols that do not start with it are the digits of the number they
  denote.
Main exports: Radix.ofDigits_rdropWhile, Radix.digits_ofDigits_rdropWhile,
  Radix.pow_le_pow_ratio, Radix.head?_digits_symbols, Radix.digits_symbols
-/
import Mathlib.Data.Nat.Digits.Lemmas
import Mathlib.Data.List.DropRight

namespace Radix

theorem ofDigits_eq_zero (b : Nat) : ∀ {l : List Nat}, (∀ x ∈ l, x = 0) → Nat.ofDigits b l = 0
  | [], _ => rfl
  | x :: l, zero => by
    rw [Nat.ofDigits_cons, zero x List.mem_cons_self,
      ofDigits_eq_zero b fun y mem => zero y (List.mem_cons_of_mem x mem)]
    simp

/-- Zeros at the end, the most significant digits, denote nothing. -/
theorem ofDigits_rdropWhile (b : Nat) (l : List Nat) :
    Nat.ofDigits b (l.rdropWhile (· == 0)) = Nat.ofDigits b l := by
  have zeros : Nat.ofDigits b (l.rtakeWhile (· == 0)) = 0 :=
    ofDigits_eq_zero b fun x mem => by simpa using List.mem_rtakeWhile_imp mem
  conv => rhs; rw [← List.rdropWhile_append_rtakeWhile (p := (· == 0)) (l := l)]
  rw [Nat.ofDigits_append, zeros, Nat.mul_zero, Nat.add_zero]

/-- Digits below the base, with the zeros at the end taken off, are the number's digits. -/
theorem digits_ofDigits_rdropWhile {b : Nat} (hb : 1 < b) {l : List Nat} (lt : ∀ x ∈ l, x < b) :
    Nat.digits b (Nat.ofDigits b l) = l.rdropWhile (· == 0) := by
  rw [← ofDigits_rdropWhile b l]
  apply Nat.digits_ofDigits b hb
  · exact fun x mem => lt x ((List.rdropWhile_prefix _ l).subset mem)
  · intro nonempty
    simpa using List.rdropWhile_last_not (p := (· == 0)) l nonempty

/-- `a ^ n ≤ c ^ (n * p / q + 1)` at every `n`, from a period of `q` and the `q` lengths
below it. -/
theorem pow_le_pow_ratio {a c p q : Nat} (positive : 0 < q) (period : a ^ q ≤ c ^ p)
    (short : ∀ r < q, a ^ r ≤ c ^ (r * p / q + 1)) (n : Nat) : a ^ n ≤ c ^ (n * p / q + 1) := by
  -- `n` is `k` periods and a remainder `r`; the periods scale both sides alike
  obtain ⟨k, r, below, rfl⟩ : ∃ k r, r < q ∧ n = q * k + r :=
    ⟨n / q, n % q, Nat.mod_lt n positive, (Nat.div_add_mod n q).symm⟩
  have exponent : (q * k + r) * p / q + 1 = p * k + (r * p / q + 1) := by
    rw [Nat.add_mul, Nat.mul_assoc, Nat.mul_comm k p, Nat.add_comm (q * (p * k)),
      Nat.add_mul_div_left _ _ positive]
    omega
  calc a ^ (q * k + r) = (a ^ q) ^ k * a ^ r := by rw [pow_add, pow_mul]
    _ ≤ (c ^ p) ^ k * c ^ (r * p / q + 1) :=
      Nat.mul_le_mul (Nat.pow_le_pow_left period k) (short r below)
    _ = c ^ ((q * k + r) * p / q + 1) := by rw [exponent, pow_add c (p * k), pow_mul]

/-! ### Digits written as symbols -/

section Symbols

variable {β : Type} {b : Nat} (sym : Nat → β)

/-- A number's digits, most significant first, do not start with the symbol of zero. -/
theorem head?_digits_symbols (hb : 1 < b) (distinct : ∀ d < b, sym d = sym 0 → d = 0) (v : Nat) :
    ((Nat.digits b v).reverse.map sym).head? ≠ some (sym 0) := by
  rw [List.head?_map, List.head?_reverse]
  cases last : (Nat.digits b v).getLast? with
  | none => simp
  | some d =>
    intro zero
    have nonempty : Nat.digits b v ≠ [] := by
      intro empty
      rw [empty] at last
      cases last
    have isLast : (Nat.digits b v).getLast nonempty = d := by
      rw [List.getLast?_eq_some_getLast nonempty] at last
      exact Option.some.inj last
    have positive : v ≠ 0 := fun vanishes => nonempty (by rw [vanishes, Nat.digits_zero])
    have notZero := Nat.getLast_digit_ne_zero b positive
    rw [isLast] at notZero
    have below : d < b := Nat.digits_lt_base hb (isLast ▸ List.getLast_mem nonempty)
    exact notZero (distinct d below (Option.some.inj zero))

/-- Symbols that do not start with the symbol of zero are the digits of the number they
denote. -/
theorem digits_symbols (hb : 1 < b) (idx : β → Nat) {l : List β}
    (inverse : ∀ c ∈ l, idx c < b ∧ sym (idx c) = c) (first : l.head? ≠ some (sym 0)) :
    (Nat.digits b (Nat.ofDigits b (l.map idx).reverse)).reverse.map sym = l := by
  have lastNonzero : ∀ nonempty : (l.map idx).reverse ≠ [], (l.map idx).reverse.getLast nonempty ≠ 0 := by
    intro nonempty zero
    rw [List.getLast_reverse] at zero
    have headNonempty : l ≠ [] := by simpa using nonempty
    rw [List.head_map] at zero
    apply first
    rw [List.head?_eq_some_head headNonempty, ← (inverse _ (List.head_mem headNonempty)).2, zero]
  rw [Nat.digits_ofDigits b hb _ (fun d mem => by
      obtain ⟨c, inside, rfl⟩ := List.mem_map.mp (List.mem_reverse.mp mem)
      exact (inverse c inside).1) lastNonzero,
    List.reverse_reverse, List.map_map]
  exact (List.map_congr_left fun c mem => (inverse c mem).2).trans (List.map_id l)

end Symbols

end Radix
