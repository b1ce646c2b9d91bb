import EndpointAtlas.Json.Printer
import EndpointAtlas.Json.Reader
import EndpointAtlas.Proofs.Number.Shortest

set_option autoImplicit false

namespace EndpointAtlas

namespace Number

theorem scaled_eq_round {whole fraction : List Char} {exponent : Int} {n : Nat}
    (hn : ofDigits 10 (whole ++ fraction) = n) (h0 : 0 < n) {power : Int}
    (hp : exponent - fraction.length = power) (hu : power ≤ 400)
    (hl : -400 ≤ power + (whole ++ fraction).length) :
    scaled whole fraction exponent = round ((n : Rat) * (10 : Rat) ^ power) := by
  unfold scaled
  simp only [hn, hp, tenPow_eq_zpow]
  rw [if_neg (by omega), if_neg (by omega), if_neg (by omega)]

end Number

namespace Json

open Number

def NumberEnd (s : List Char) : Prop :=
  ∀ c ∈ s.head?, Text.isAsciiDigit c = false ∧ c ≠ '.' ∧ c ≠ 'e' ∧ c ≠ 'E'

theorem NumberEnd.digitsEnd {s : List Char} (h : NumberEnd s) : DigitsEnd s :=
  fun c hc => (h c hc).1

theorem readExponent_end {s : List Char} (h : NumberEnd s) : readExponent s = some (0, s) := by
  cases s with
  | nil => rfl
  | cons c s =>
    obtain ⟨-, -, he, hE⟩ := h c rfl
    simp [readExponent, he, hE]

def fractionText (fraction : List Char) : List Char := if fraction = [] then [] else '.' :: fraction

theorem readFraction_append {fraction tail : List Char}
    (hf : ∀ c ∈ fraction, Text.isAsciiDigit c = true) (ht : DigitsEnd tail)
    (hdot : tail.head? ≠ some '.') :
    readFraction (fractionText fraction ++ tail) = some (fraction, tail) := by
  unfold fractionText
  split
  · rename_i h
    subst h
    cases tail with
    | nil => rfl
    | cons c tail =>
      have hc : c ≠ '.' := by simpa using hdot
      simp [readFraction, hc]
  · rename_i h
    simp [readFraction, spanDigits_append hf ht, h]

theorem readUnsigned_parts {whole fraction tail rest : List Char} {exponent : Int}
    (hw : ∀ c ∈ whole, Text.isAsciiDigit c = true) (hne : whole ≠ [])
    (hz : whole.head? = some '0' → whole.length = 1)
    (hf : ∀ c ∈ fraction, Text.isAsciiDigit c = true) (ht : DigitsEnd tail)
    (hdot : tail.head? ≠ some '.') (he : readExponent tail = some (exponent, rest)) :
    readUnsigned (whole ++ (fractionText fraction ++ tail)) =
      some (scaled whole fraction exponent, rest) := by
  have hend : DigitsEnd (fractionText fraction ++ tail) := by
    unfold fractionText
    split
    · exact ht
    · intro c hc
      simp only [List.cons_append, List.head?_cons, Option.mem_def, Option.some.injEq] at hc
      rw [← hc]
      decide
  have hwhole : ¬(whole.isEmpty = true ∨ (whole.head? = some '0' ∧ whole.length ≠ 1)) := by
    rintro (h | ⟨h, h'⟩)
    · exact hne (List.isEmpty_iff.1 h)
    · exact h' (hz h)
  simp only [readUnsigned, spanDigits_append hw hend, if_neg hwhole, readFraction_append hf ht hdot,
    Option.bind_eq_bind, Option.bind_some, he]
  rfl

theorem NumberEnd.head?_ne_dot {s : List Char} (h : NumberEnd s) : s.head? ≠ some '.' :=
  fun hc => (h '.' hc).2.1 rfl

theorem readExponent_signed (power : Int) {rest : List Char} (h : NumberEnd rest) :
    readExponent ('e' :: (if power < 0 then '-' else '+') ::
      (Nat.toDigits 10 power.natAbs ++ rest)) = some (power, rest) := by
  have hs : spanDigits (Nat.toDigits 10 power.natAbs ++ rest) =
      (Nat.toDigits 10 power.natAbs, rest) :=
    spanDigits_append (fun c hc => isAsciiDigit_of_mem_toDigits hc) h.digitsEnd
  have hd : (Nat.toDigits 10 power.natAbs).isEmpty = false := by simp [Nat.toDigits_ne_nil]
  by_cases hp : power < 0
  · simp only [readExponent, true_or, if_true, hp, spanSign, hs, hd, Bool.false_eq_true, if_false,
      ofDigits_toDigits, Option.some.injEq, Prod.mk.injEq, and_true]
    omega
  · simp only [readExponent, true_or, if_true, hp, if_false, spanSign, hs, hd, Bool.false_eq_true,
      ofDigits_toDigits, Option.some.injEq, Prod.mk.injEq, and_true]
    omega

theorem exponent_head {power : Int} {rest : List Char} :
    DigitsEnd ('e' :: (if power < 0 then '-' else '+') :: rest) ∧
      ('e' :: (if power < 0 then '-' else '+') :: rest).head? ≠ some '.' := by
  refine ⟨fun c hc => ?_, by simp⟩
  simp only [List.head?_cons, Option.mem_def, Option.some.injEq] at hc
  rw [← hc]
  decide

section decimalText

variable {d : Decimal} {rest : List Char}

theorem scaled_eq_value {whole fraction : List Char} {exponent : Int} (h : 0 < d.digits)
    (hn : ofDigits 10 (whole ++ fraction) = d.digits) (hp : exponent - fraction.length = d.exponent)
    (hu : d.exponent ≤ 400) (hl : -400 ≤ d.exponent + (whole ++ fraction).length) :
    scaled whole fraction exponent = Number.round d.value := by
  rw [scaled_eq_round hn h hp hu hl, Decimal.value_eq]

theorem readUnsigned_whole (h : 0 < d.digits) (he : 0 ≤ d.exponent) (hr : NumberEnd rest) :
    readUnsigned (Nat.toDigits 10 d.digits ++ zeros d.exponent.toNat ++ rest) =
      some (Number.round d.value, rest) := by
  have hw : ∀ c ∈ Nat.toDigits 10 d.digits ++ zeros d.exponent.toNat, Text.isAsciiDigit c = true :=
    fun c hc => (List.mem_append.1 hc).elim isAsciiDigit_of_mem_toDigits isAsciiDigit_of_mem_zeros
  have hhead : (Nat.toDigits 10 d.digits ++ zeros d.exponent.toNat).head? ≠ some '0' := by
    rw [List.head?_append_of_ne_nil _ Nat.toDigits_ne_nil]
    exact head?_toDigits_ne_zero h
  have hn : ofDigits 10 (Nat.toDigits 10 d.digits ++ zeros d.exponent.toNat ++ []) =
      d.digits * 10 ^ d.exponent.toNat := by
    rw [List.append_nil, ofDigits_append, ofDigits_toDigits, ofDigits_zeros, zeros,
      List.length_replicate, Nat.add_zero]
  have hread := readUnsigned_parts hw (by simp [Nat.toDigits_ne_nil]) (fun hz => absurd hz hhead)
    (List.forall_mem_nil _) hr.digitsEnd hr.head?_ne_dot (readExponent_end hr)
  rw [fractionText, if_pos rfl, List.nil_append] at hread
  rw [hread, scaled_eq_round hn (by positivity) (sub_zero 0) (by decide) (by omega),
    Decimal.value_eq, zpow_zero, mul_one, Nat.cast_mul, Nat.cast_pow, Nat.cast_ofNat,
    ← zpow_natCast, Int.toNat_of_nonneg he]

theorem readUnsigned_pointed (h : 0 < d.digits) (hp : 0 < d.point) (he : d.exponent < 0)
    (hr : NumberEnd rest) :
    readUnsigned ((Nat.toDigits 10 d.digits).take d.point.toNat ++
      '.' :: (Nat.toDigits 10 d.digits).drop d.point.toNat ++ rest) =
      some (Number.round d.value, rest) := by
  have hc : (Nat.toDigits 10 d.digits).length = Decimal.countDigits d.digits := rfl
  unfold Decimal.point at hp ⊢
  generalize hk : ((Decimal.countDigits d.digits : Int) + d.exponent).toNat = k
  have hdigits : ∀ c ∈ Nat.toDigits 10 d.digits, Text.isAsciiDigit c = true :=
    fun c hm => isAsciiDigit_of_mem_toDigits hm
  have hhead : ((Nat.toDigits 10 d.digits).take k).head? ≠ some '0' := by
    rw [List.head?_take, if_neg (by omega)]
    exact head?_toDigits_ne_zero h
  have hw : (Nat.toDigits 10 d.digits).take k ≠ [] := by
    intro hn
    have := congrArg List.length hn
    simp only [List.length_take, List.length_nil] at this
    omega
  have hf : (Nat.toDigits 10 d.digits).drop k ≠ [] := by
    intro hn
    have := congrArg List.length hn
    simp only [List.length_drop, List.length_nil] at this
    omega
  have hafter : ∀ c ∈ (Nat.toDigits 10 d.digits).drop k, Text.isAsciiDigit c = true :=
    fun c hm => hdigits c (List.mem_of_mem_drop hm)
  have hread := readUnsigned_parts (fun c hm => hdigits c (List.mem_of_mem_take hm)) hw
    (fun hz => absurd hz hhead) hafter hr.digitsEnd hr.head?_ne_dot (readExponent_end hr)
  rw [fractionText, if_neg hf] at hread
  rw [List.append_assoc, hread, scaled_eq_value h]
  · rw [List.take_append_drop, ofDigits_toDigits]
  · rw [List.length_drop]
    omega
  · omega
  · rw [List.take_append_drop]
    omega

theorem readUnsigned_small (h : 0 < d.digits) (hp : d.point ≤ 0) (hr : NumberEnd rest) :
    readUnsigned ('0' :: '.' :: zeros (-d.point).toNat ++ Nat.toDigits 10 d.digits ++ rest) =
      some (Number.round d.value, rest) := by
  have hc : (Nat.toDigits 10 d.digits).length = Decimal.countDigits d.digits := rfl
  have hpos := countDigits_pos d.digits
  unfold Decimal.point at hp ⊢
  generalize hk : (-((Decimal.countDigits d.digits : Int) + d.exponent)).toNat = k
  have hfraction : ∀ c ∈ zeros k ++ Nat.toDigits 10 d.digits, Text.isAsciiDigit c = true :=
    fun c hm => (List.mem_append.1 hm).elim isAsciiDigit_of_mem_zeros isAsciiDigit_of_mem_toDigits
  have hlength : (zeros k ++ Nat.toDigits 10 d.digits).length =
      k + Decimal.countDigits d.digits := by
    rw [List.length_append, zeros, List.length_replicate, hc]
  have hread :=
    readUnsigned_parts (List.forall_mem_singleton.2 (by decide)) (List.cons_ne_nil '0' [])
    (fun _ => rfl) hfraction hr.digitsEnd hr.head?_ne_dot (readExponent_end hr)
  rw [fractionText, if_neg (by simp [Nat.toDigits_ne_nil])] at hread
  have hsame : '0' :: '.' :: zeros k ++ Nat.toDigits 10 d.digits ++ rest =
      ['0'] ++ ('.' :: (zeros k ++ Nat.toDigits 10 d.digits) ++ rest) := by simp
  rw [hsame, hread, scaled_eq_value h]
  · have hz : ['0'] ++ (zeros k ++ Nat.toDigits 10 d.digits) =
        zeros (k + 1) ++ Nat.toDigits 10 d.digits := by simp [zeros, List.replicate_succ]
    rw [hz, ofDigits_append, ofDigits_zeros, ofDigits_toDigits, Nat.zero_mul, Nat.zero_add]
  · rw [hlength]
    omega
  · omega
  · rw [List.length_append, hlength]
    omega

theorem readUnsigned_scientific (h : 0 < d.digits) (hu : d.point ≤ 400) (hl : -400 ≤ d.point)
    {first : Char} {more : List Char} (hs : Nat.toDigits 10 d.digits = first :: more)
    (hr : NumberEnd rest) :
    readUnsigned ([first] ++ (fractionText more ++
      ('e' :: (if d.point - 1 < 0 then '-' else '+') ::
        (Nat.toDigits 10 (d.point - 1).natAbs ++ rest)))) = some (Number.round d.value, rest) := by
  have hc : Decimal.countDigits d.digits = more.length + 1 := by
    rw [Decimal.countDigits, hs, List.length_cons]
  have hdigits : ∀ c ∈ first :: more, Text.isAsciiDigit c = true :=
    fun c hm => isAsciiDigit_of_mem_toDigits (hs ▸ hm)
  have hw : ∀ c ∈ [first], Text.isAsciiDigit c = true := fun c hm =>
    hdigits c (List.mem_cons.2 (.inl (List.mem_singleton.1 hm)))
  rw [readUnsigned_parts hw (List.cons_ne_nil first []) (fun _ => rfl)
    (fun c hm => hdigits c (List.mem_cons_of_mem first hm)) exponent_head.1 exponent_head.2
    (readExponent_signed (d.point - 1) hr), scaled_eq_value h]
  · rw [List.singleton_append, ← hs, ofDigits_toDigits]
  · unfold Decimal.point
    omega
  · unfold Decimal.point at hu
    omega
  · rw [List.singleton_append, List.length_cons]
    unfold Decimal.point at hl
    omega

theorem readUnsigned_decimalText (h : 0 < d.digits) (hl : -400 ≤ d.point) (hu : d.point ≤ 400)
    (hr : NumberEnd rest) :
    readUnsigned (decimalText d ++ rest) = some (Number.round d.value, rest) := by
  have hpoint : (((Nat.toDigits 10 d.digits).length : Nat) : Int) + d.exponent = d.point := rfl
  have hcount : ((Nat.toDigits 10 d.digits).length : Int) = d.point - d.exponent := by omega
  unfold decimalText
  simp only [hpoint]
  split
  · rename_i hc
    rw [show d.point - ((Nat.toDigits 10 d.digits).length : Int) = d.exponent by omega]
    exact readUnsigned_whole h (by omega) hr
  · split
    · rename_i hn hc
      exact readUnsigned_pointed h hc.1 (by omega) hr
    · split
      · rename_i hc
        exact readUnsigned_small h hc.2 hr
      · split
        · rename_i one hs
          simpa [fractionText] using readUnsigned_scientific h hu hl hs hr
        · rename_i first more hmore hs
          have hne : more ≠ [] := hmore
          simpa [fractionText, hne] using readUnsigned_scientific h hu hl hs hr
        · rename_i hs
          exact absurd hs Nat.toDigits_ne_nil

end decimalText

theorem readUnsigned_minus (s : List Char) : readUnsigned ('-' :: s) = none := by
  have hm : Text.isAsciiDigit '-' = false := by decide
  simp [readUnsigned, spanDigits, hm]

theorem readNumber_of_readUnsigned {s rest : List Char} {x : Number}
    (h : readUnsigned s = some (x, rest)) : readNumber s = some (x, rest) := by
  unfold readNumber
  split
  · rw [readUnsigned_minus] at h
    cases h
  · exact h

theorem readNumber_numeral {q : Rat} (h : IsExact q) {rest : List Char} (hr : NumberEnd rest) :
    readNumber (numeral (.finite q) ++ rest) = some (.finite q, rest) := by
  have positive : ∀ p : Rat, IsExact p → 0 < p →
      readUnsigned (decimalText (Decimal.shortest p) ++ rest) = some (.finite p, rest) := by
    intro p hp h0
    obtain ⟨hd, hround, hl, hu⟩ := shortest_spec hp h0
    rw [readUnsigned_decimalText hd (by omega) (by omega) hr, hround]
  simp only [numeral, Number.text]
  rcases lt_trichotomy q 0 with hq | rfl | hq
  · rw [if_neg hq.ne, if_neg hq.not_gt, String.toList_ofList, List.cons_append]
    simp only [readNumber, positive (-q) h.neg (neg_pos.2 hq), Option.map_some,
      Number.negate, neg_neg]
  · rw [if_pos rfl]
    refine readNumber_of_readUnsigned ?_
    exact readUnsigned_parts (List.forall_mem_singleton.2 (by decide)) (List.cons_ne_nil '0' [])
      (fun _ => rfl) (List.forall_mem_nil _) hr.digitsEnd hr.head?_ne_dot (readExponent_end hr)
  · rw [if_neg hq.ne', if_pos hq, String.toList_ofList]
    exact readNumber_of_readUnsigned (positive q h hq)

end Json

end EndpointAtlas
