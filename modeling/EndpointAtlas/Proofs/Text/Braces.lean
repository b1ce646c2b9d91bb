import EndpointAtlas.Proofs.Text.Encoded
import EndpointAtlas.Text.Braces

/-!
Matching braces. Main statement: the match of an opening brace is the first place behind it up to
which as many braces close as open, there is none exactly if there is no such place, and two matches
never cross.
-/

set_option autoImplicit false

namespace EndpointAtlas.Text

theorem isPlain_opening : IsPlain '{' := show _ < _ by decide

theorem isPlain_closing : IsPlain '}' := show _ < _ by decide

/-! ### Nesting -/

def excess (s : List Char) : Int := s.count '{' - s.count '}'

theorem excess_append (s t : List Char) : excess (s ++ t) = excess s + excess t := by
  simp [excess]
  omega

theorem excess_other {c : Char} (ho : c ≠ '{') (hc : c ≠ '}') : excess [c] = 0 := by
  simp [excess, ho, hc]

def nesting (source : List Char) (offset : Nat) : Int := excess (takeUnits offset source)

section Place

variable (front back : List Char) (c : Char)

theorem nesting_units : nesting (front ++ back) (units front) = excess front := by
  rw [nesting, takeUnits_units]

theorem nesting_behind :
    nesting (front ++ c :: back) (units front + width c) = excess front + excess [c] := by
  have h := nesting_units (front ++ [c]) back
  rwa [List.append_assoc, List.singleton_append, units_append, units_cons, units_nil, Nat.add_zero,
    excess_append] at h

theorem nesting_within {k : Nat} (start : units front ≤ k) (stop : k < units front + width c) :
    nesting (front ++ c :: back) k = excess front := by
  by_cases first : k = units front
  · rw [first, nesting_units]
  · have hk : k - units front ≠ 0 := by omega
    have hend : k - units front - width c = 0 := by omega
    have ho : c ≠ '{' := by
      rintro rfl
      have := isPlain_opening.width
      omega
    have hc : c ≠ '}' := by
      rintro rfl
      have := isPlain_closing.width
      omega
    rw [nesting, takeUnits_append, takeUnits_of_le start, takeUnits, if_neg hk, hend,
      takeUnits_zero, excess_append, excess_other ho hc, Int.add_zero]

end Place

/-! ### The search -/

/-- What a search from an offset on can give: the first brace that takes the nesting down to a
level, or nothing if it stays above. -/
def Finds (source : List Char) (level : Int) (offset : Nat) : Option Nat → Prop
  | some j => offset ≤ j ∧ j < units source ∧ nesting source (j + 1) = level ∧
      ∀ k, offset ≤ k → k ≤ j → level < nesting source k
  | none => ∀ k, offset ≤ k → level < nesting source k

theorem Finds.back {source : List Char} {level : Int} {offset next : Nat} {found : Option Nat}
    (h : Finds source level next found) (le : offset ≤ next)
    (between : ∀ k, offset ≤ k → k < next → level < nesting source k) :
    Finds source level offset found := by
  have on (k : Nat) (hk : offset ≤ k) (above : next ≤ k → level < nesting source k) :
      level < nesting source k := by
    by_cases hn : k < next
    · exact between k hk hn
    · exact above (by omega)
  cases found with
  | none => exact fun k hk => on k hk (h k)
  | some j =>
    obtain ⟨hj, inside, level, above⟩ := h
    exact ⟨by omega, inside, level, fun k hk hkj => on k hk fun hn => above k hn hkj⟩

theorem finds_closingFrom {level depth : Int} {front s : List Char} (above : 0 < depth)
    (count : excess front = level + depth) :
    Finds (front ++ s) level (units front) (closingFrom (units front) depth s) := by
  induction s generalizing front depth with
  | nil =>
    intro k hk
    rw [List.append_nil, nesting, takeUnits_of_le hk]
    omega
  | cons c rest ih =>
    have wide := width_pos c
    have behind := nesting_behind front rest c
    have between (k : Nat) (hk : units front ≤ k) (hn : k < units front + width c) :
        level < nesting (front ++ c :: rest) k := by
      rw [nesting_within front rest c hk hn]
      omega
    -- The search goes on behind the character with the depth that it has there.
    have onward (next : Int) (hnext : next = depth + excess [c]) (hpos : 0 < next) :
        Finds (front ++ c :: rest) level (units front)
          (closingFrom (units front + width c) next rest) := by
      have later : Finds (front ++ [c] ++ rest) level (units (front ++ [c]))
          (closingFrom (units (front ++ [c])) next rest) := ih hpos (by rw [excess_append]; omega)
      rw [List.append_assoc, List.singleton_append, units_append, units_cons, units_nil,
        Nat.add_zero] at later
      exact later.back (by omega) between
    rw [closingFrom]
    by_cases ho : c = '{'
    · rw [if_pos ho]
      exact onward (depth + 1) (by rw [ho]; rfl) (by omega)
    · rw [if_neg ho]
      by_cases hc : c = '}'
      · rw [if_pos hc]
        have step : excess [c] = -1 := by rw [hc]; rfl
        by_cases last : depth = 1
        · rw [if_pos last]
          have one : width c = 1 := by rw [hc, isPlain_closing.width]
          rw [one] at behind
          refine ⟨Nat.le_refl _, by simp; omega, by omega, fun k hk hkj => between k hk (by omega)⟩
        · rw [if_neg last]
          exact onward (depth - 1) (by omega) (by omega)
      · rw [if_neg hc]
        exact onward depth (by rw [excess_other ho hc, Int.add_zero]) above

theorem finds_matchingBrace? {source : List Char} {index : Nat}
    (opens : (encoded source)[index]? = some '{'.toNat) :
    Finds source (nesting source index) (index + 1) (matchingBrace? source index) := by
  obtain ⟨front, back, rfl, rfl⟩ := (getElem?_encoded_iff isPlain_opening source index).1 opens
  have one := isPlain_opening.width
  have found : matchingBrace? (front ++ '{' :: back) (units front) =
      closingFrom (units (front ++ ['{'])) 1 back := by
    rw [matchingBrace?, takeUnits_units, dropUnits_units, closingFrom, if_pos rfl, units_append,
      units_cons, units_nil]
    rfl
  have spec : Finds (front ++ ['{'] ++ back) (excess front) (units (front ++ ['{']))
      (closingFrom (units (front ++ ['{'])) 1 back) :=
        finds_closingFrom (by omega) (excess_append front ['{'])
  rwa [← found, List.append_assoc, List.singleton_append, units_append, units_cons, units_nil, one,
    ← nesting_units front ('{' :: back)] at spec

theorem Finds.within {source : List Char} {outer inner stop : Nat} {found : Option Nat}
    (ho : Finds source (nesting source outer) (outer + 1) (some stop))
    (hi : Finds source (nesting source inner) (inner + 1) found) (start : outer < inner)
    (upTo : inner ≤ stop) : ∃ j, found = some j ∧ j < stop := by
  obtain ⟨-, -, level, above⟩ := ho
  have deeper := above inner start upTo
  cases found with
  | none =>
    have := hi (stop + 1) (by omega)
    omega
  | some j =>
    obtain ⟨hj, -, back, higher⟩ := hi
    refine ⟨j, rfl, ?_⟩
    -- Behind the outer pair the nesting is below what it was at the inner brace.
    rcases Nat.lt_trichotomy j stop with inside | rfl | beyond
    · exact inside
    · omega
    · have := higher (stop + 1) (by omega) (by omega)
      omega

theorem Finds.apart {source : List Char} {one other j k : Nat}
    (ho : Finds source (nesting source one) (one + 1) (some j))
    (hi : Finds source (nesting source other) (other + 1) (some k)) (differ : other ≠ one) :
    (one < other ∧ k < j) ∨ (other < one ∧ j < k) ∨ j < other ∨ k < one := by
  rcases Nat.lt_or_gt_of_ne differ with before | after
  · by_cases beyond : k < one
    · exact .inr (.inr (.inr beyond))
    · obtain ⟨_, ⟨⟩, inner⟩ := hi.within ho before (by omega)
      exact .inr (.inl ⟨before, inner⟩)
  · by_cases beyond : j < other
    · exact .inr (.inr (.inl beyond))
    · obtain ⟨_, ⟨⟩, inner⟩ := ho.within hi after (by omega)
      exact .inl ⟨after, inner⟩

/-! ### Matches told by counting -/

/-- The units from one offset up to but without another close as many braces as they open. -/
def Balanced (source : List Char) (start stop : Nat) : Prop :=
  ((encoded source).extract start stop).count '{'.toNat =
    ((encoded source).extract start stop).count '}'.toNat

/-- The units from one offset up to but without another open more braces than they close. -/
def OpensMore (source : List Char) (start stop : Nat) : Prop :=
  ((encoded source).extract start stop).count '}'.toNat <
    ((encoded source).extract start stop).count '{'.toNat

instance (source : List Char) (start stop : Nat) : Decidable (Balanced source start stop) :=
  inferInstanceAs (Decidable (_ = _))

/-- A place is the first behind an opening brace up to which as many braces close as open. -/
structure IsMatch (source : List Char) (index j : Nat) : Prop where
  behind : index < j
  inside : j < units source
  balanced : Balanced source index (j + 1)
  first : ∀ k, index < k → k < j → ¬ Balanced source index (k + 1)

theorem count_extract (source : List Char) {c : Char} (plain : IsPlain c) {start stop : Nat}
    (h : start ≤ stop) :
    (takeUnits start source).count c + ((encoded source).extract start stop).count c.toNat =
      (takeUnits stop source).count c := by
  obtain ⟨n, rfl⟩ := Nat.exists_eq_add_of_le h
  rw [← count_take_encoded plain, ← count_take_encoded plain, List.take_add, List.count_append,
    List.extract_eq_take_drop, Nat.add_sub_cancel_left]

section Counting

variable {source : List Char} {start stop : Nat}

theorem balanced_iff (h : start ≤ stop) :
    Balanced source start stop ↔ nesting source stop = nesting source start := by
  have ho := count_extract source isPlain_opening h
  have hc := count_extract source isPlain_closing h
  unfold Balanced nesting excess
  omega

theorem opensMore_iff (h : start ≤ stop) :
    OpensMore source start stop ↔ nesting source start < nesting source stop := by
  have ho := count_extract source isPlain_opening h
  have hc := count_extract source isPlain_closing h
  unfold OpensMore nesting excess
  omega

theorem closing_of_lt {j : Nat} (h : nesting source (j + 1) < nesting source j) :
    (encoded source)[j]? = some '}'.toNat := by
  have ho := count_extract source isPlain_opening (Nat.le_add_right j 1)
  have hc := count_extract source isPlain_closing (Nat.le_add_right j 1)
  have closes : 0 < ((encoded source).extract j (j + 1)).count '}'.toNat := by
    unfold nesting excess at h
    omega
  have mem := List.count_pos_iff.1 closes
  rw [List.extract_eq_take_drop, Nat.add_sub_cancel_left, List.take_one, List.head?_drop] at mem
  simpa using mem

theorem Finds.isMatch {j : Nat} (h : Finds source (nesting source start) (start + 1) (some j)) :
    IsMatch source start j := by
  obtain ⟨hj, inside, level, above⟩ := h
  refine ⟨hj, inside, (balanced_iff (by omega)).2 level, fun k hk hkj again => ?_⟩
  have deeper := above (k + 1) (by omega) (by omega)
  rw [balanced_iff (by omega)] at again
  omega

theorem IsMatch.unique {j k : Nat} (hj : IsMatch source start j)
    (hk : IsMatch source start k) : j = k := by
  rcases Nat.lt_trichotomy j k with h | h | h
  · exact absurd hj.balanced (hk.first j hj.behind h)
  · exact h
  · exact absurd hk.balanced (hj.first k hk.behind h)

theorem Finds.eq_some_iff {found : Option Nat}
    (h : Finds source (nesting source start) (start + 1) found) (j : Nat) :
    found = some j ↔ IsMatch source start j := by
  constructor
  · rintro rfl
    exact h.isMatch
  · intro isMatch
    have behind := isMatch.behind
    cases found with
    | none =>
      have deeper := h (j + 1) (by omega)
      have level := (balanced_iff (by omega)).1 isMatch.balanced
      omega
    | some k => rw [h.isMatch.unique isMatch]

theorem Finds.eq_none_iff {found : Option Nat}
    (h : Finds source (nesting source start) (start + 1) found) :
    found = none ↔ ¬∃ j, start < j ∧ j < units source ∧ Balanced source start (j + 1) := by
  constructor
  · rintro rfl ⟨j, hj, -, balanced⟩
    have deeper := h (j + 1) (by omega)
    have level := (balanced_iff (by omega)).1 balanced
    omega
  · intro nowhere
    cases found with
    | none => rfl
    | some j => exact absurd ⟨j, h.isMatch.behind, h.isMatch.inside, h.isMatch.balanced⟩ nowhere

theorem Finds.closes {j : Nat} (h : Finds source (nesting source start) (start + 1) (some j)) :
    (encoded source)[j]? = some '}'.toNat ∧ ∀ k, start < k → k ≤ j → OpensMore source start k := by
  obtain ⟨hj, -, level, above⟩ := h
  have last := above j hj (Nat.le_refl j)
  exact ⟨closing_of_lt (by omega), fun k hk hkj => (opensMore_iff (by omega)).2 (above k hk hkj)⟩

end Counting

/-- The match of an opening brace is the first place behind it up to which as many braces close
as open; a brace that closes stands there, and more have opened than closed all the way. There is
none exactly if there is no such place. Two pairs with different opening braces lie one inside the
other or apart. -/
theorem matchingBrace?_isFirst {source : List Char} {index : Nat}
    (opens : (encoded source)[index]? = some '{'.toNat) :
    (∀ j, matchingBrace? source index = some j ↔ IsMatch source index j) ∧
      (∀ j, matchingBrace? source index = some j → (encoded source)[j]? = some '}'.toNat ∧
        ∀ k, index < k → k ≤ j → OpensMore source index k) ∧
      (matchingBrace? source index = none ↔
        ¬∃ j, index < j ∧ j < units source ∧ Balanced source index (j + 1)) ∧
      ∀ other j k, (encoded source)[other]? = some '{'.toNat → other ≠ index →
        matchingBrace? source index = some j → matchingBrace? source other = some k →
          (index < other ∧ k < j) ∨ (other < index ∧ j < k) ∨ j < other ∨ k < index := by
  have finds := finds_matchingBrace? opens
  refine ⟨finds.eq_some_iff, fun j h => ?_, finds.eq_none_iff,
    fun other j k opensOther differ hj hk => ?_⟩
  · rw [h] at finds
    exact finds.closes
  · have findsOther := finds_matchingBrace? opensOther
    rw [hj] at finds
    rw [hk] at findsOther
    exact finds.apart findsOther differ

def pairInPair : List Char := Char.ofNat 0x1F600 :: "\x7ba\x7bb\x7dc\x7d".toList

theorem matchingBrace?_isFirst_nested :
    (encoded pairInPair)[2]? = some '{'.toNat ∧ matchingBrace? pairInPair 2 = some 8 ∧
    IsMatch pairInPair 2 8 ∧
      OpensMore pairInPair 2 7 ∧ matchingBrace? pairInPair 4 = some 6 ∧
      ((2 < 4 ∧ 6 < 8) ∨ (4 < 2 ∧ 8 < 6) ∨ 8 < 4 ∨ 6 < 2) := by
  have opens : (encoded pairInPair)[2]? = some '{'.toNat := by decide
  have outer : matchingBrace? pairInPair 2 = some 8 := by decide
  have inner : matchingBrace? pairInPair 4 = some 6 := by decide
  obtain ⟨first, open_, -, apart⟩ := matchingBrace?_isFirst opens
  exact ⟨opens, outer, (first 8).1 outer, (open_ 8 outer).2 7 (by decide) (by decide), inner,
    apart 4 8 6 (by decide) (by decide) outer inner⟩

end EndpointAtlas.Text
