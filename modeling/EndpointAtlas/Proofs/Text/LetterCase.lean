import EndpointAtlas.Text.LetterCase
import Mathlib.Data.List.Basic

set_option autoImplicit false

namespace EndpointAtlas.Text

def IsCommon (c : Char) : Prop := c = '.' ∨ 'a' ≤ c ∧ c ≤ 'z' ∧ c ≠ 'k'

instance (c : Char) : Decidable (IsCommon c) := inferInstanceAs (Decidable (_ ∨ _))

theorem IsCommon.toNat {k : Char} (h : IsCommon k) :
    k.toNat = 46 ∨ 97 ≤ k.toNat ∧ k.toNat ≤ 122 ∧ k.toNat ≠ 107 := by
  rcases h with rfl | ⟨low, high, other⟩
  · exact .inl rfl
  · exact .inr ⟨low, high, fun same => other (Char.toNat_inj.1 same)⟩

theorem eq_of_ofNat {n : Nat} {k : Char} (h : Char.ofNat n = k) (hk : 0 < k.toNat) :
    n = k.toNat := by
  subst h
  have number : (Char.ofNat n).toNat = n ∨ (Char.ofNat n).toNat = 0 := by
    unfold Char.ofNat
    by_cases valid : n.isValidChar
    · rw [dif_pos valid]
      exact .inl rfl
    · rw [dif_neg valid]
      exact .inr rfl
  omega

theorem run_cases {run : CapitalRun} (h : run ∈ capitalRuns) :
    (run.first = 65 ∧ run.last = 90 ∧ run.shift = 32) ∨
      (run.first = 0x212A ∧ run.last = 0x212A ∧ run.shift = -8383) ∨
      128 ≤ run.first ∧ 128 ≤ run.first + run.shift := by
  revert run
  decide +kernel

/-! ### Letters of ASCII -/

theorem capitalNumber_ascii {n : Nat} (h : n < 128) :
    capitalNumber n = if 97 ≤ n ∧ n ≤ 122 then n - 32 else n := by
  have ordinary : ∀ n : Fin 128, otherCapitals.lookup n.val = none := by decide +kernel
  unfold capitalNumber
  rw [if_neg (by omega), ordinary ⟨n, h⟩]
  simp only
  by_cases letter : 97 ≤ n ∧ n ≤ 122
  · -- The run of ASCII comes first, so that a small k leads to the letter and not to the sign
    -- for kelvin.
    have back : ((n : Int) - 32).toNat = n - 32 := by omega
    have title : 65 ∉ titleRuns := by decide
    rw [if_pos letter, capitalRuns, List.find?_cons_of_pos]
    · exact back
    · simp [back, title]
      omega
  · have none_ : capitalRuns.find? (fun run => run.first ≤ ((n : Int) - run.shift).toNat &&
        ((n : Int) - run.shift).toNat ≤ run.last &&
        (((n : Int) - run.shift).toNat - run.first) % run.step == 0 &&
          !titleRuns.contains run.first) = none := by
      rw [List.find?_eq_none]
      intro run hr held
      simp only [Bool.and_eq_true, decide_eq_true_eq] at held
      rcases run_cases hr with ⟨_, _, _⟩ | ⟨_, _, _⟩ | _ <;> omega
    rw [if_neg letter, none_]

theorem toNat_caseless {c : Char} (h : c.toNat < 128) :
    (caseless c).toNat = if 97 ≤ c.toNat ∧ c.toNat ≤ 122 then c.toNat - 32 else c.toNat := by
  have ascii : ∀ n : Fin 128, (Char.ofNat n).toNat = n := by decide
  have bound : capitalNumber c.toNat < 128 := by
    rw [capitalNumber_ascii h]
    split <;> omega
  rw [← capitalNumber_ascii h]
  exact ascii ⟨_, bound⟩

theorem small_eq_iff {c k : Char} (h : c.toNat < 128) :
    small c = [k] ↔ (if 65 ≤ c.toNat ∧ c.toNat ≤ 90 then c.toNat + 32 else c.toNat) = k.toNat := by
  have all : ∀ n : Fin 128, (small (Char.ofNat n)).map Char.toNat =
      [if 65 ≤ n.val ∧ n.val ≤ 90 then n.val + 32 else n.val] := by decide +kernel
  have here := all ⟨c.toNat, h⟩
  rw [Char.ofNat_toNat] at here
  rw [← List.map_inj_right fun _ _ => Char.toNat_inj.1, here, List.map_singleton,
    List.singleton_inj]

/-! ### Other letters -/

theorem capitalNumber_ge {n : Nat} (h : 128 ≤ n) : 128 ≤ capitalNumber n := by
  have beyond : ∀ pair ∈ otherCapitals, 128 ≤ pair.2 := by decide +kernel
  unfold capitalNumber
  split
  · exact h
  · split
    · rename_i capital hl
      obtain ⟨before, after, held, -⟩ := List.lookup_eq_some_iff.1 hl
      exact beyond (n, capital) (by rw [held]; simp)
    · simp only
      split
      · rename_i run hr
        have held := List.find?_some hr
        simp only [Bool.and_eq_true, decide_eq_true_eq] at held
        rcases run_cases (List.mem_of_find?_eq_some hr) with ⟨_, _, _⟩ | ⟨_, _, _⟩ | _ <;> omega
      · exact h

theorem caseless_ne {c k : Char} (hc : 128 ≤ c.toNat) (hk : 0 < k.toNat) (ascii : k.toNat < 128) :
    caseless c ≠ k := by
  intro h
  have same := eq_of_ofNat h hk
  have := capitalNumber_ge hc
  omega

theorem small_ne {c k : Char} (hc : 128 ≤ c.toNat) (hk : IsCommon k) : small c ≠ [k] := by
  have range := hk.toNat
  intro h
  unfold small at h
  rw [if_neg (by omega)] at h
  split at h
  · cases h
  · split at h
    · rename_i run hr
      have held := List.find?_some hr
      simp only [Bool.and_eq_true, decide_eq_true_eq, beq_iff_eq] at held
      have := eq_of_ofNat (List.singleton_inj.1 h) (by omega)
      rcases run_cases (List.mem_of_find?_eq_some hr) with ⟨_, _, _⟩ | ⟨_, _, _⟩ | _ <;> omega
    · obtain rfl := List.singleton_inj.1 h
      omega

/-! ### Words -/

theorem caseless_eq_iff_small {c k : Char} (hk : IsCommon k) :
    caseless c = caseless k ↔ small c = [k] := by
  have range := hk.toNat
  have capital := @toNat_caseless k (by omega)
  by_cases hc : c.toNat < 128
  · rw [← Char.toNat_inj, toNat_caseless hc, small_eq_iff hc, capital]
    split <;> split <;> split <;> omega
  · exact iff_of_false (caseless_ne (by omega) (by split at capital <;> omega)
      (by split at capital <;> omega))
      (small_ne (by omega) hk)

theorem eq_dot_of_caseless {c : Char} (h : caseless c = caseless '.') : c = '.' := by
  have same := (caseless_eq_iff_small (.inl rfl)).1 h
  by_cases hc : c.toNat < 128
  · rw [small_eq_iff hc, show ('.' : Char).toNat = 46 from rfl] at same
    refine Char.toNat_inj.1 (Eq.trans ?_ (show 46 = ('.' : Char).toNat from rfl))
    split at same <;> omega
  · exact absurd same (small_ne (by omega) (.inl rfl))

theorem small_cases (c : Char) : (∃ d, small c = [d]) ∨ small c = ['i', Char.ofNat 0x307] := by
  unfold small
  split
  · exact .inl ⟨_, rfl⟩
  · split
    · exact .inr rfl
    · split <;> exact .inl ⟨_, rfl⟩

section

variable {before : Bool} {c k : Char} {s rest word : List Char}

theorem lowerFrom_cons_ne_nil : lowerFrom before (c :: rest) ≠ [] := by
  rw [lowerFrom]
  split
  · exact List.cons_ne_nil _ _
  · rcases small_cases c with ⟨d, hd⟩ | hd <;> simp [hd]

theorem lowerFrom_cons_eq_iff (common : ∀ other ∈ k :: word, IsCommon other) :
    lowerFrom before (c :: rest) = k :: word ↔ small c = [k] ∧
    lowerFrom (hasCase c) rest = word := by
  obtain ⟨hk, others⟩ := List.forall_mem_cons.1 common
  rw [lowerFrom]
  split
  · -- Either small sigma is no common letter.
    rename_i sigma
    refine iff_of_false (fun h => ?_) fun h => small_ne (by simp [beq_iff_eq.1 sigma]) hk h.1
    have head := (List.cons.inj h).1
    split at head <;> exact absurd (head ▸ hk) (by decide)
  · rcases small_cases c with ⟨d, hd⟩ | hd
    · simp [hd]
    · -- The dot of a capital I is no common letter.
      refine iff_of_false (fun h => ?_) fun h => by simp [hd] at h
      rw [hd] at h
      obtain rfl := (List.cons.inj h).2
      exact absurd (others _ List.mem_cons_self) (by decide)

theorem lowerFrom_eq_iff (common : ∀ k ∈ word, IsCommon k) :
    lowerFrom before s = word ↔ s.map caseless = word.map caseless := by
  induction s generalizing before word with
  | nil => cases word <;> simp [lowerFrom]
  | cons c rest ih =>
    cases word with
    | nil => simp [lowerFrom_cons_ne_nil]
    | cons k word =>
      obtain ⟨hk, others⟩ := List.forall_mem_cons.1 common
      rw [List.map_cons, List.map_cons, List.cons.injEq, caseless_eq_iff_small hk,
        lowerFrom_cons_eq_iff common, ih others]

theorem lower_eq_iff (common : ∀ k ∈ word, IsCommon k) :
    lower s = word ↔ s.map caseless = word.map caseless :=
  lowerFrom_eq_iff common

end

end EndpointAtlas.Text
