import EndpointAtlas.Proofs.Number.Digits
import Mathlib.Tactic

set_option autoImplicit false

namespace EndpointAtlas

namespace Number

theorem tenPow_eq_zpow (e : Int) : tenPow e = (10 : Rat) ^ e := by
  unfold tenPow
  split
  · rename_i he
    obtain ⟨n, rfl⟩ := Int.eq_ofNat_of_zero_le he
    simp
  · obtain ⟨n, hn⟩ := Int.eq_ofNat_of_zero_le (show 0 ≤ -e by omega)
    obtain rfl : e = -(n : Int) := by omega
    simp [Rat.mkRat_eq_div, zpow_neg]

theorem twoPow_eq_zpow (e : Int) : twoPow e = (2 : Rat) ^ e := by
  unfold twoPow
  split
  · rename_i he
    obtain ⟨n, rfl⟩ := Int.eq_ofNat_of_zero_le he
    simp
  · obtain ⟨n, hn⟩ := Int.eq_ofNat_of_zero_le (show 0 ≤ -e by omega)
    obtain rfl : e = -(n : Int) := by omega
    simp [Rat.mkRat_eq_div, zpow_neg]

theorem greatest_eq : greatest = ((2 ^ 53 - 1 : Nat) : Rat) * (2 : Rat) ^ (971 : Int) := by
  have hd : 0x1FFFFFFFFFFFFF = 2 ^ 53 - 1 := by decide
  rw [greatest, twoPow_eq_zpow, hd]

def IsExact (q : Rat) : Prop := round q = .finite q

theorem nearest_intCast (n : Int) : nearest (n : Rat) = n := by
  simp [nearest]

theorem lastPlace_ge (q : Rat) : -1074 ≤ lastPlace q := le_max_right _ _

theorem lastPlace_le (q : Rat) :
    lastPlace q ≤ max ((q.num.natAbs.log2 : Int) - (q.den.log2 : Int) - 52) (-1074) := by
  unfold lastPlace
  refine max_le_max ?_ le_rfl
  split <;> omega

theorem round_of_pos {q : Rat} (h : 0 < q) : round q = roundPositive q := by
  rw [round, if_neg h.ne', if_pos h]

theorem IsExact.spelled {q : Rat} (h : IsExact q) (h0 : 0 < q) :
    ∃ (m : Nat) (e : Int), -1074 ≤ e ∧ 0 < m ∧ q = m * (2 : Rat) ^ e ∧ q ≤ greatest := by
  rw [IsExact, round_of_pos h0, roundPositive] at h
  split at h
  · cases h
  · rename_i hg
    rw [Number.finite.injEq] at h
    rw [h] at hg
    have hp : (0 : Rat) < twoPow (lastPlace q) := by
      rw [twoPow_eq_zpow]
      positivity
    have hm : 0 < nearest (q * twoPow (-lastPlace q)) := by
      rw [← h] at h0
      exact_mod_cast (mul_pos_iff_of_pos_right hp).1 h0
    obtain ⟨m, hm'⟩ := Int.eq_ofNat_of_zero_le hm.le
    refine ⟨m, lastPlace q, lastPlace_ge q, by omega, ?_, le_of_not_gt hg⟩
    rw [← twoPow_eq_zpow, ← Int.cast_natCast, ← hm']
    exact h.symm

theorem IsExact.neg {q : Rat} (h : IsExact q) : IsExact (-q) := by
  rcases lt_trichotomy q 0 with hq | rfl | hq
  · have hn : 0 < -q := neg_pos.2 hq
    rw [IsExact, round, if_neg hq.ne, if_neg hq.not_gt] at h
    rw [IsExact, round_of_pos hn]
    split at h
    · rename_i r hr
      rw [hr, Number.finite.injEq]
      rw [Number.finite.injEq] at h
      linarith
    · cases h
  · simpa using h
  · have hn : ¬0 < -q := by linarith
    rw [IsExact, round_of_pos hq] at h
    rw [IsExact, round, if_neg (by linarith), if_neg hn, neg_neg, h]

theorem isExact_natCast {n : Nat} (h : n < 2 ^ 53) : IsExact n := by
  rcases Nat.eq_zero_or_pos n with rfl | hn
  · simp [IsExact, round]
  have h0 : (0 : Rat) < n := by exact_mod_cast hn
  have hl : (n.log2 : Int) ≤ 52 := by
    have := (Nat.log2_lt hn.ne').2 h
    omega
  have he : lastPlace n ≤ 0 := by
    have hp := lastPlace_le n
    rw [Rat.num_natCast, Rat.den_natCast, Int.natAbs_natCast, show Nat.log2 1 = 0 by decide] at hp
    omega
  obtain ⟨k, hk⟩ := Int.eq_ofNat_of_zero_le (show 0 ≤ -lastPlace n by omega)
  have hscaled : (n : Rat) * twoPow (-lastPlace n) = ((n * 2 ^ k : Nat) : Int) := by
    rw [hk, twoPow_eq_zpow]
    push_cast
    simp
  have hback : (nearest ((n : Rat) * twoPow (-lastPlace n)) : Rat) * twoPow (lastPlace n) = n := by
    rw [hscaled, nearest_intCast, Int.cast_natCast,
      show lastPlace n = -(k : Int) by omega, twoPow_eq_zpow, zpow_neg, zpow_natCast]
    push_cast
    rw [mul_assoc, mul_inv_cancel₀ (by positivity), mul_one]
  have hg : ¬greatest < n := by
    have h1 : (n : Rat) ≤ ((2 ^ 53 - 1 : Nat) : Rat) := by exact_mod_cast Nat.le_sub_one_of_lt h
    have h2 : (1 : Rat) ≤ (2 : Rat) ^ (971 : Int) := one_le_zpow₀ (by norm_num) (by norm_num)
    rw [greatest_eq, not_lt]
    calc (n : Rat) ≤ ((2 ^ 53 - 1 : Nat) : Rat) * 1 := by rw [mul_one]; exact h1
      _ ≤ _ := mul_le_mul_of_nonneg_left h2 (by positivity)
  rw [IsExact, round_of_pos h0, roundPositive]
  simp only [hback, if_neg hg]

theorem isExact_intCast {n : Int} (h : n.natAbs < 2 ^ 53) : IsExact n := by
  rcases Int.natAbs_eq n with hn | hn
  · rw [hn, Int.cast_natCast]
    exact isExact_natCast h
  · rw [hn, Int.cast_neg, Int.cast_natCast]
    exact (isExact_natCast h).neg

end Number

namespace Decimal

open Number

theorem value_eq (d : Decimal) : d.value = (d.digits : Rat) * (10 : Rat) ^ d.exponent := by
  rw [value, tenPow_eq_zpow]

theorem countDigits_spec {n : Nat} (h : 0 < n) :
    10 ^ (countDigits n - 1) ≤ n ∧ n < 10 ^ countDigits n := by
  have hc := countDigits_pos n
  refine ⟨?_, (Nat.length_toDigits_le_iff (by decide) hc).1 le_rfl⟩
  rcases Nat.eq_zero_or_pos (countDigits n - 1) with hz | hp
  · rw [hz]
    exact h
  · by_contra hlt
    have := countDigits_le hp (Nat.lt_of_not_le hlt)
    omega

def point (d : Decimal) : Int := countDigits d.digits + d.exponent

theorem value_bounds {d : Decimal} (h : 0 < d.digits) :
    (10 : Rat) ^ (d.point - 1) ≤ d.value ∧ d.value < (10 : Rat) ^ d.point := by
  obtain ⟨hl, hu⟩ := countDigits_spec h
  have hc := countDigits_pos d.digits
  have hp : (0 : Rat) < (10 : Rat) ^ d.exponent := by positivity
  have hl' : (10 : Rat) ^ ((countDigits d.digits : Int) - 1) ≤ d.digits := by
    rw [show ((countDigits d.digits : Int) - 1) = ((countDigits d.digits - 1 : Nat) : Int) by omega,
      zpow_natCast]
    exact_mod_cast hl
  have hu' : (d.digits : Rat) < (10 : Rat) ^ (countDigits d.digits : Int) := by
    rw [zpow_natCast]
    exact_mod_cast hu
  rw [value_eq, point]
  constructor
  · calc (10 : Rat) ^ ((countDigits d.digits : Int) + d.exponent - 1)
        = (10 : Rat) ^ ((countDigits d.digits : Int) - 1) * (10 : Rat) ^ d.exponent := by
          rw [← zpow_add₀ (by norm_num)]
          ring_nf
      _ ≤ _ := mul_le_mul_of_nonneg_right hl' hp.le
  · rw [zpow_add₀ (by norm_num)]
    exact mul_lt_mul_of_pos_right hu' hp

theorem point_bounds {d : Decimal} (h : 0 < d.digits) {a b : Int} (ha : (10 : Rat) ^ a ≤ d.value)
    (hb : d.value ≤ (10 : Rat) ^ b) : a < d.point ∧ d.point ≤ b + 1 := by
  obtain ⟨hl, hu⟩ := value_bounds h
  constructor
  · exact (zpow_lt_zpow_iff_right₀ (by norm_num : (1 : Rat) < 10)).1 (ha.trans_lt hu)
  · have := (zpow_le_zpow_iff_right₀ (by norm_num : (1 : Rat) < 10)).1 (hl.trans hb)
    omega

theorem leading_spec {q : Rat} (h : 0 < q) :
    (10 : Rat) ^ leading q ≤ q ∧ q < (10 : Rat) ^ (leading q + 1) := by
  have hnum : 0 < q.num := Rat.num_pos.2 h
  have ha : 0 < q.num.natAbs := by omega
  have hq : q = (q.num.natAbs : Rat) / (q.den : Rat) := by
    conv_lhs => rw [← Rat.num_div_den q]
    congr 1
    rw [← Int.cast_natCast, Int.natAbs_of_nonneg hnum.le]
  obtain ⟨hal, hau⟩ := value_bounds (d := ⟨q.num.natAbs, 0⟩) ha
  obtain ⟨hbl, hbu⟩ := value_bounds (d := ⟨q.den, 0⟩) q.den_pos
  simp only [value_eq, point, zpow_zero, mul_one, add_zero] at hal hau hbl hbu
  have hb : (0 : Rat) < q.den := by exact_mod_cast q.den_pos
  set guess : Int := (countDigits q.num.natAbs : Int) - (countDigits q.den : Int) with hguess
  have lower : (10 : Rat) ^ (guess - 1) ≤ q := by
    rw [hq, le_div_iff₀ hb]
    calc (10 : Rat) ^ (guess - 1) * (q.den : Rat)
        ≤ (10 : Rat) ^ (guess - 1) * (10 : Rat) ^ (countDigits q.den : Int) :=
          mul_le_mul_of_nonneg_left hbu.le (by positivity)
      _ = (10 : Rat) ^ ((countDigits q.num.natAbs : Int) - 1) := by
          rw [← zpow_add₀ (by norm_num), hguess]
          ring_nf
      _ ≤ _ := hal
  have upper : q < (10 : Rat) ^ (guess + 1) := by
    rw [hq, div_lt_iff₀ hb]
    calc (q.num.natAbs : Rat) < (10 : Rat) ^ (countDigits q.num.natAbs : Int) := hau
      _ = (10 : Rat) ^ (guess + 1) * (10 : Rat) ^ ((countDigits q.den : Int) - 1) := by
          rw [← zpow_add₀ (by norm_num), hguess]
          ring_nf
      _ ≤ _ := mul_le_mul_of_nonneg_left hbl (by positivity)
  have hlead : leading q = if q < (10 : Rat) ^ guess then guess - 1 else guess := by
    rw [← tenPow_eq_zpow]
    rfl
  rw [hlead]
  split
  · rename_i hlt
    exact ⟨lower, by rwa [sub_add_cancel]⟩
  · rename_i hge
    exact ⟨le_of_not_gt hge, upper⟩

def Near (q : Rat) (d : Decimal) : Prop :=
  0 < d.digits ∧ (10 : Rat) ^ leading q ≤ d.value ∧ d.value ≤ (10 : Rat) ^ (leading q + 1)

theorem near_neighbours {x : Number} {q : Rat} (h : 0 < q) {count : Nat} (hc : 1 ≤ count)
    {d : Decimal} (hd : d ∈ neighbours x q count) : Near q d ∧ Number.round d.value = x := by
  obtain ⟨hl, hu⟩ := leading_spec h
  have hmem := List.mem_filter.1 hd
  refine ⟨?_, by simpa using hmem.2⟩
  set exponent : Int := leading q - count + 1 with hexp
  have hp : (0 : Rat) < (10 : Rat) ^ exponent := by positivity
  have hback : ∀ e : Int, (10 : Rat) ^ e * (10 : Rat) ^ (-exponent) = (10 : Rat) ^ (e - exponent) :=
    fun e => by rw [← zpow_add₀ (by norm_num), sub_eq_add_neg]
  have htwo : ∀ e : Int, (10 : Rat) ^ (e - exponent) * (10 : Rat) ^ exponent = (10 : Rat) ^ e :=
    fun e => by rw [← zpow_add₀ (by norm_num), sub_add_cancel]
  have hpow : (10 : Rat) ^ (leading q - exponent) = ((10 ^ (count - 1) : Nat) : Int) := by
    rw [show leading q - exponent = ((count - 1 : Nat) : Int) by omega, zpow_natCast]
    push_cast
    rfl
  have hpow' : (10 : Rat) ^ (leading q + 1 - exponent) = ((10 ^ count : Nat) : Int) := by
    rw [show leading q + 1 - exponent = (count : Int) by omega, zpow_natCast]
    push_cast
    rfl
  set scaled := q * (10 : Rat) ^ (-exponent) with hscaled
  have hsl : ((10 ^ (count - 1) : Nat) : Int) ≤ scaled.floor := by
    rw [Rat.le_floor_iff, ← hpow, ← hback]
    exact mul_le_mul_of_nonneg_right hl (by positivity)
  have hsu : scaled.floor < ((10 ^ count : Nat) : Int) := by
    rw [Rat.floor_lt_iff, ← hpow', ← hback]
    exact mul_lt_mul_of_pos_right hu (by positivity)
  have hpos : 0 < 10 ^ (count - 1) := by positivity
  have inside : ∀ n : Nat, 10 ^ (count - 1) ≤ n → n ≤ 10 ^ count → Near q ⟨n, exponent⟩ := by
    intro n hn hm
    refine ⟨hpos.trans_le hn, ?_, ?_⟩
    · rw [value_eq, ← htwo (leading q), hpow, Int.cast_natCast]
      exact mul_le_mul_of_nonneg_right (by exact_mod_cast hn) hp.le
    · rw [value_eq, ← htwo (leading q + 1), hpow', Int.cast_natCast]
      exact mul_le_mul_of_nonneg_right (by exact_mod_cast hm) hp.le
  have hcases : d = ⟨scaled.floor.toNat, exponent⟩ ∨ d = ⟨scaled.floor.toNat + 1, exponent⟩ := by
    have hm := hmem.1
    rw [← tenPow_eq_zpow] at hscaled
    rw [← hscaled] at hm
    split at hm <;> simp only [List.mem_cons, List.not_mem_nil, or_false] at hm
    · exact hm
    · exact hm.symm
  have hle : 10 ^ (count - 1) ≤ 10 ^ count := Nat.pow_le_pow_right (by decide) (by omega)
  generalize 10 ^ (count - 1) = least at *
  generalize 10 ^ count = most at *
  rcases hcases with rfl | rfl
  · exact inside _ (by omega) (by omega)
  · exact inside _ (by omega) (by omega)

theorem value_exact {q : Rat} (h : 0 < q) {k : Nat} (hk : q.den = 2 ^ k) :
    0 < (exact q).digits ∧ (exact q).value = q := by
  have hnum : 0 < q.num := Rat.num_pos.2 h
  have hlog : q.den.log2 = k := by rw [hk, Nat.log2_two_pow]
  refine ⟨?_, ?_⟩
  · have : 0 < q.num.natAbs := by omega
    exact Nat.mul_pos this (Nat.pow_pos (by decide))
  · have hn : (q.num.natAbs : Rat) = q.num := by
      rw [← Int.cast_natCast, Int.natAbs_of_nonneg hnum.le]
    rw [value_eq, exact, hlog]
    conv_rhs => rw [← Rat.num_div_den q, hk, ← hn]
    simp only [Nat.pow_eq, Nat.cast_mul, Nat.cast_pow, Nat.cast_ofNat]
    rw [zpow_neg, zpow_natCast, show (10 : Rat) = 5 * 2 by norm_num, mul_pow]
    field_simp

theorem trimZeros_spec (fuel : Nat) {d : Decimal} (h : 0 < d.digits) :
    0 < (trimZeros fuel d).digits ∧ (trimZeros fuel d).value = d.value := by
  induction fuel generalizing d with
  | zero => exact ⟨h, rfl⟩
  | succ fuel ih =>
    rw [trimZeros]
    split
    · rename_i hz
      have hd : d.digits = d.digits / 10 * 10 := by omega
      obtain ⟨hp, hv⟩ := ih (d := ⟨d.digits / 10, d.exponent + 1⟩) (by simp only; omega)
      refine ⟨hp, hv.trans ?_⟩
      rw [value_eq, value_eq, zpow_add₀ (by norm_num), zpow_one]
      conv_rhs => rw [hd]
      push_cast
      ring
    · exact ⟨h, rfl⟩

end Decimal

namespace Number

theorem IsExact.den_eq {q : Rat} (h : IsExact q) (h0 : 0 < q) : ∃ k, q.den = 2 ^ k := by
  obtain ⟨m, e, -, -, hq, -⟩ := h.spelled h0
  have hd : ∃ k : Nat, q.den ∣ 2 ^ k := by
    rcases le_total 0 e with he | he
    · obtain ⟨n, rfl⟩ := Int.eq_ofNat_of_zero_le he
      refine ⟨0, ?_⟩
      have hn : q = ((m * 2 ^ n : Nat) : Rat) := by
        rw [hq, zpow_natCast]
        push_cast
        rfl
      rw [hn, Rat.den_natCast]
      decide
    · obtain ⟨n, hn⟩ := Int.eq_ofNat_of_zero_le (show 0 ≤ -e by omega)
      refine ⟨n, ?_⟩
      have hf : q = ((m : Int) : Rat) / ((2 ^ n : Nat) : Int) := by
        rw [hq, show e = -(n : Int) by omega, zpow_neg, zpow_natCast]
        push_cast
        rfl
      have := Rat.den_dvd (m : Int) ((2 ^ n : Nat) : Int)
      rw [Rat.divInt_eq_div, ← hf] at this
      exact_mod_cast this
  obtain ⟨k, hk⟩ := hd
  obtain ⟨j, -, hj⟩ := (Nat.dvd_prime_pow Nat.prime_two).1 hk
  exact ⟨j, hj⟩

theorem ten_zpow_neg_lt {a b : Nat} (h : 2 ^ a < 10 ^ b) :
    (10 : Rat) ^ (-(b : Int)) < (2 : Rat) ^ (-(a : Int)) := by
  rw [zpow_neg, zpow_neg, zpow_natCast, zpow_natCast, inv_lt_inv₀ (by positivity) (by positivity)]
  exact_mod_cast h

theorem mul_two_zpow_lt {m a b : Nat} (h : m * 2 ^ a < 10 ^ b) :
    (m : Rat) * (2 : Rat) ^ (a : Int) < (10 : Rat) ^ (b : Int) := by
  rw [zpow_natCast, zpow_natCast]
  exact_mod_cast h

theorem leading_bounds {q : Rat} (h : IsExact q) (h0 : 0 < q) :
    -325 < Decimal.leading q ∧ Decimal.leading q < 309 := by
  obtain ⟨m, e, he, hm, hq, hg⟩ := h.spelled h0
  obtain ⟨hl, hu⟩ := Decimal.leading_spec h0
  have low : (10 : Rat) ^ (-324 : Int) < q := by
    calc (10 : Rat) ^ (-324 : Int) < (2 : Rat) ^ (-1074 : Int) :=
          ten_zpow_neg_lt (a := 1074) (b := 324) (by decide +kernel)
      _ ≤ (2 : Rat) ^ e := zpow_le_zpow_right₀ (by norm_num) he
      _ ≤ m * (2 : Rat) ^ e := le_mul_of_one_le_left (by positivity) (by exact_mod_cast hm)
      _ = q := hq.symm
  have high : q < (10 : Rat) ^ (309 : Int) := by
    refine hg.trans_lt ?_
    rw [greatest_eq]
    exact mul_two_zpow_lt (m := 2 ^ 53 - 1) (a := 971) (b := 309) (by decide +kernel)
  constructor
  · have := (zpow_lt_zpow_iff_right₀ (by norm_num : (1 : Rat) < 10)).1 (low.trans hu)
    omega
  · exact (zpow_lt_zpow_iff_right₀ (by norm_num : (1 : Rat) < 10)).1 (hl.trans_lt high)

theorem shortest_spec {q : Rat} (h : IsExact q) (h0 : 0 < q) :
    0 < (Decimal.shortest q).digits ∧ round (Decimal.shortest q).value = .finite q ∧
      -325 < (Decimal.shortest q).point ∧ (Decimal.shortest q).point ≤ 310 := by
  have hnear : ∃ d : Decimal, Decimal.Near q d ∧ round d.value = .finite q ∧
      Decimal.shortest q = Decimal.trimZeros (Decimal.countDigits d.digits) d := by
    cases hf : (List.range 17).findSome? fun k =>
        (Decimal.neighbours (.finite q) q (k + 1)).head? with
    | some d =>
      obtain ⟨k, -, hk⟩ := List.exists_of_findSome?_eq_some hf
      obtain ⟨hn, hr⟩ := Decimal.near_neighbours h0 (by omega) (List.mem_of_mem_head? hk)
      exact ⟨d, hn, hr, by rw [Decimal.shortest, hf, Option.getD_some]⟩
    | none =>
      obtain ⟨k, hk⟩ := h.den_eq h0
      obtain ⟨hp, hv⟩ := Decimal.value_exact h0 hk
      obtain ⟨hl, hu⟩ := Decimal.leading_spec h0
      refine ⟨Decimal.exact q, ⟨hp, by rwa [hv], by rw [hv]; exact hu.le⟩, by rwa [hv], ?_⟩
      rw [Decimal.shortest, hf, Option.getD_none]
  obtain ⟨d, ⟨hd, hl, hu⟩, hr, hs⟩ := hnear
  obtain ⟨hp, hv⟩ := Decimal.trimZeros_spec (Decimal.countDigits d.digits) hd
  obtain ⟨ha, hb⟩ := leading_bounds h h0
  rw [← hs] at hp hv
  rw [← hv] at hl hu hr
  obtain ⟨hpl, hpu⟩ := Decimal.point_bounds hp hl hu
  exact ⟨hp, hr, by omega, by omega⟩

end Number

end EndpointAtlas
