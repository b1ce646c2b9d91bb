import EndpointAtlas.Number.Literal
import EndpointAtlas.Number.Decimal
import Mathlib.Tactic

set_option autoImplicit false

namespace EndpointAtlas.Number

theorem digit?_digitChar : ∀ d < 10, digit? (Nat.digitChar d) = some d := by decide

theorem foldl_digits (base : Nat) (t : List Char) (acc : Nat) :
    t.foldl (fun sum c => sum * base + (digit? c).getD 0) acc =
      acc * base ^ t.length + ofDigits base t := by
  induction t generalizing acc with
  | nil => simp [ofDigits]
  | cons c t ih =>
    rw [List.foldl_cons, ih]
    conv_rhs => rw [ofDigits, List.foldl_cons, ih]
    simp only [List.length_cons, pow_succ]
    ring

theorem ofDigits_append (base : Nat) (s t : List Char) :
    ofDigits base (s ++ t) = ofDigits base s * base ^ t.length + ofDigits base t := by
  rw [ofDigits, List.foldl_append, foldl_digits]
  rfl

theorem ofDigits_toDigits (n : Nat) : ofDigits 10 (Nat.toDigits 10 n) = n := by
  induction n using Nat.strongRecOn with
  | ind n ih =>
    rw [Nat.toDigits_eq_if (by decide)]
    split
    · rename_i h
      simp [ofDigits, digit?_digitChar n h]
    · have hd : n % 10 < 10 := Nat.mod_lt _ (by decide)
      rw [ofDigits_append, ih (n / 10) (by omega)]
      simp [ofDigits, digit?_digitChar _ hd]
      omega

theorem isAsciiDigit_of_mem_toDigits {n : Nat} {c : Char} (h : c ∈ Nat.toDigits 10 n) :
    Text.isAsciiDigit c = true := by
  have hd := Nat.isDigit_of_mem_toDigits (by decide) (by decide) h
  simp only [Char.isDigit, ge_iff_le, Bool.and_eq_true, decide_eq_true_eq] at hd
  simp only [Text.isAsciiDigit, Bool.and_eq_true, decide_eq_true_eq]
  exact hd

theorem ofDigits_zeros (k : Nat) : ofDigits 10 (zeros k) = 0 := by
  induction k with
  | zero => rfl
  | succ k ih =>
    have h : zeros (k + 1) = zeros k ++ ['0'] := by
      simp [zeros, List.replicate_succ']
    rw [h, ofDigits_append, ih]
    decide

theorem isAsciiDigit_of_mem_zeros {k : Nat} {c : Char} (h : c ∈ zeros k) :
    Text.isAsciiDigit c = true := by
  rw [List.eq_of_mem_replicate h]
  decide

theorem head?_toDigits_ne_zero {n : Nat} (h : 0 < n) : (Nat.toDigits 10 n).head? ≠ some '0' := by
  induction n using Nat.strongRecOn with
  | ind n ih =>
    rw [Nat.toDigits_eq_if (by decide)]
    split
    · rename_i hn
      have hz : ∀ d < 10, 0 < d → [Nat.digitChar d].head? ≠ some '0' := by decide
      exact hz n hn h
    · rw [List.head?_append_of_ne_nil _ Nat.toDigits_ne_nil]
      exact ih (n / 10) (by omega) (by omega)

def DigitsEnd (s : List Char) : Prop := ∀ c ∈ s.head?, Text.isAsciiDigit c = false

theorem spanDigits_append {digits rest : List Char}
    (hd : ∀ c ∈ digits, Text.isAsciiDigit c = true) (hr : DigitsEnd rest) :
    spanDigits (digits ++ rest) = (digits, rest) := by
  have ht : rest.takeWhile Text.isAsciiDigit = [] ∧ rest.dropWhile Text.isAsciiDigit = rest := by
    cases rest with
    | nil => simp
    | cons c rest =>
      have hc : Text.isAsciiDigit c = false := hr c rfl
      simp [hc]
  unfold spanDigits
  rw [List.takeWhile_append_of_pos hd, List.dropWhile_append_of_pos hd, ht.1, ht.2,
    List.append_nil]

theorem countDigits_pos (n : Nat) : 0 < Decimal.countDigits n :=
  Nat.length_toDigits_pos

theorem countDigits_le {n k : Nat} (hk : 0 < k) (h : n < 10 ^ k) : Decimal.countDigits n ≤ k :=
  (Nat.length_toDigits_le_iff (by decide) hk).mpr h

end EndpointAtlas.Number
