import EndpointAtlas.Proofs.Text.Overwritten
import EndpointAtlas.Proofs.Text.Units

set_option autoImplicit false

namespace EndpointAtlas.Text

def insertAt (inserted : List Char) (place : Nat) (s : List Char) : List Char :=
  takeUnits place s ++ (inserted ++ dropUnits place s)

def removeAt (size place : Nat) (s : List Char) : List Char :=
  takeUnits place s ++ dropUnits (place + size) s

/-- A text with another one put in at places told by their offsets before anything is put in. -/
def insertAll (inserted : List Char) (places : List Nat) (s : List Char) : List Char :=
  places.foldr (insertAt inserted) s

/-- A text without the units that start at a place, for one place after the other. -/
def removeAll (size : Nat) (places : List Nat) (s : List Char) : List Char :=
  places.foldl (fun left place => removeAt size place left) s

def shifted (size : Nat) (places : List Nat) (offset : Nat) : Nat :=
  offset + size * places.countP (· ≤ offset)

theorem isBoundary_append (s t : List Char) : IsBoundary (s ++ t) (units s) := by
  rw [IsBoundary, takeUnits_units]

theorem IsBoundary.split {s : List Char} {place : Nat} (h : IsBoundary s place) :
    ∃ front back, s = front ++ back ∧ units front = place :=
  ⟨takeUnits place s, dropUnits place s, (takeUnits_append_dropUnits place s).symm, h⟩

/-! ### One place -/

section One

variable {s : List Char} {place : Nat}

theorem insertAt_append (inserted front back : List Char) :
    insertAt inserted (units front) (front ++ back) = front ++ (inserted ++ back) := by
  rw [insertAt, takeUnits_units, dropUnits_units]

theorem removeAt_insertAt (inserted : List Char) (h : IsBoundary s place) :
    removeAt (units inserted) place (insertAt inserted place s) = s := by
  obtain ⟨front, back, rfl, rfl⟩ := h.split
  rw [insertAt_append, removeAt, takeUnits_units, dropUnits_units_add, dropUnits_units]

theorem takeUnits_insertAt (inserted : List Char) (h : IsBoundary s place) {n : Nat}
    (hn : n ≤ place) : takeUnits n (insertAt inserted place s) = takeUnits n s := by
  obtain ⟨front, back, rfl, rfl⟩ := h.split
  rw [insertAt_append, takeUnits_append_of_le hn, takeUnits_append_of_le hn]

theorem lineAt_insertAt_of_le (inserted : List Char) (h : IsBoundary s place) {offset : Nat}
    (before : offset ≤ place) : lineAt (insertAt inserted place s) offset = lineAt s offset := by
  rw [lineAt_eq, takeUnits_insertAt inserted h before, lineAt_eq]

theorem lineAt_insertAt_add {inserted : List Char} (flat : '\n' ∉ inserted) (h : IsBoundary s place)
    {offset : Nat} (behind : place ≤ offset) :
    lineAt (insertAt inserted place s) (offset + units inserted) = lineAt s offset := by
  obtain ⟨front, back, rfl, rfl⟩ := h.split
  obtain ⟨n, rfl⟩ := Nat.exists_eq_add_of_le behind
  have none_inserted : inserted.count '\n' = 0 := List.count_eq_zero.2 flat
  rw [insertAt_append, lineAt_eq, lineAt_eq, show units front + n + units inserted =
    units front +
      (units inserted + n) by omega, takeUnits_units_add, takeUnits_units_add, takeUnits_units_add]
  simp [none_inserted]

theorem insertAt_character (inserted : List Char) (h : IsBoundary s place)
    {before after : List Char} {c : Char} (hs : s = before ++ c :: after) :
    ∃ before' after', insertAt inserted place s = before' ++ c :: after' ∧
      units before' = units before + if place ≤ units before then units inserted else 0 := by
  obtain ⟨front, back, rfl, rfl⟩ := h.split
  rw [insertAt_append]
  rcases List.append_eq_append_iff.1 hs with ⟨middle, rfl, rfl⟩ | ⟨middle, rfl, hafter⟩
  · exact ⟨front ++ (inserted ++ middle), after, by simp, by simp; omega⟩
  · cases middle with
    | nil =>
      rw [List.nil_append] at hafter
      subst hafter
      exact ⟨before ++ inserted, after, by simp, by simp⟩
    | cons d middle =>
      obtain ⟨rfl, rfl⟩ := List.cons.inj hafter
      have hw := width_pos c
      exact ⟨before, middle ++ (inserted ++ back), by simp, by simp; omega⟩

end One

/-! ### Many places -/

theorem insertAll_cons (inserted : List Char) (place : Nat) (places : List Nat) (s : List Char) :
    insertAll inserted (place :: places) s =
      insertAt inserted place (insertAll inserted places s) := rfl

theorem removeAll_cons (size place : Nat) (places : List Nat) (s : List Char) :
    removeAll size (place :: places) s = removeAll size places (removeAt size place s) := rfl

@[simp] theorem shifted_nil (size offset : Nat) :
    shifted size [] offset = offset := by simp [shifted]

theorem shifted_cons (size place : Nat) (places : List Nat) (offset : Nat) :
    shifted size (place :: places) offset =
      shifted size places offset + if place ≤ offset then size else 0 := by
  by_cases h : place ≤ offset
  · simp [shifted, h, Nat.mul_add, Nat.add_assoc]
  · simp [shifted, h]

theorem shifted_of_lt {size offset : Nat} {places : List Nat}
    (h : ∀ place ∈ places, offset < place) : shifted size places offset = offset := by
  have none_before : places.countP (· ≤ offset) = 0 := by
    rw [List.countP_eq_zero]
    intro place hp
    have := h place hp
    simp [this]
  simp [shifted, none_before]

theorem le_shifted_iff {size offset place : Nat} {places : List Nat} (h : ∀ p ∈ places, place < p) :
    place ≤ shifted size places offset ↔ place ≤ offset := by
  by_cases hp : place ≤ offset
  · simp only [hp, iff_true]
    unfold shifted
    omega
  · rw [shifted_of_lt fun p hmem => by have := h p hmem; omega]

/-- Places in the order of a text, each where a character starts or at its end. -/
structure AreCuts (s : List Char) (places : List Nat) : Prop where
  ascending : places.Pairwise (· < ·)
  aligned : ∀ place ∈ places, IsBoundary s place

namespace AreCuts

variable {s : List Char} {place : Nat} {places : List Nat}

theorem tail (h : AreCuts s (place :: places)) : AreCuts s places where
  ascending := h.ascending.tail
  aligned p hp := h.aligned p (by simp [hp])

theorem head_lt (h : AreCuts s (place :: places)) : ∀ p ∈ places, place < p :=
  (List.pairwise_cons.1 h.ascending).1

theorem takeUnits_insertAll (inserted : List Char) (h : AreCuts s places) {n : Nat}
    (hn : ∀ p ∈ places, n ≤ p) : takeUnits n (insertAll inserted places s) = takeUnits n s := by
  induction places generalizing n with
  | nil => rfl
  | cons place places ih =>
    have first : IsBoundary (insertAll inserted places s) place := by
      rw [IsBoundary, ih h.tail fun p hp => Nat.le_of_lt (h.head_lt p hp)]
      exact h.aligned place (by simp)
    rw [insertAll_cons, takeUnits_insertAt inserted first (hn place (by simp))]
    exact ih h.tail fun p hp => hn p (by simp [hp])

theorem isBoundary_insertAll (inserted : List Char) (h : AreCuts s (place :: places)) :
    IsBoundary (insertAll inserted places s) place := by
  rw [IsBoundary, h.tail.takeUnits_insertAll inserted fun p hp => Nat.le_of_lt (h.head_lt p hp)]
  exact h.aligned place (by simp)

theorem removeAll_insertAll (inserted : List Char) (h : AreCuts s places) :
    removeAll (units inserted) places (insertAll inserted places s) = s := by
  induction places with
  | nil => rfl
  | cons place places ih =>
    rw [insertAll_cons, removeAll_cons,
      removeAt_insertAt inserted (h.isBoundary_insertAll inserted)]
    exact ih h.tail

theorem lineAt_insertAll {inserted : List Char} (flat : '\n' ∉ inserted) (h : AreCuts s places)
    (offset : Nat) :
    lineAt (insertAll inserted places s) (shifted (units inserted) places offset) =
      lineAt s offset := by
  induction places with
  | nil => simp [insertAll]
  | cons place places ih =>
    have cut := h.isBoundary_insertAll inserted
    have same : place ≤ shifted (units inserted) places offset ↔ place ≤ offset :=
      le_shifted_iff h.head_lt
    rw [insertAll_cons, shifted_cons, ← ih h.tail]
    by_cases hp : place ≤ offset
    · rw [if_pos hp, lineAt_insertAt_add flat cut (same.2 hp)]
    · rw [if_neg hp, Nat.add_zero,
        lineAt_insertAt_of_le inserted cut (by have := mt same.1 hp; omega)]

theorem insertAll_character (inserted : List Char) (h : AreCuts s places)
    {before after : List Char} {c : Char} (hs : s = before ++ c :: after) :
    ∃ before' after', insertAll inserted places s = before' ++ c :: after' ∧
      units before' = shifted (units inserted) places (units before) := by
  induction places with
  | nil => exact ⟨before, after, hs, by simp⟩
  | cons place places ih =>
    obtain ⟨before₁, after₁, hs₁, moved⟩ := ih h.tail
    obtain ⟨before₂, after₂, hs₂, moved₂⟩ :=
      insertAt_character inserted (h.isBoundary_insertAll inserted) hs₁
    refine ⟨before₂, after₂, hs₂, ?_⟩
    rw [moved₂, moved, shifted_cons]
    simp only [le_shifted_iff h.head_lt]

end AreCuts

end EndpointAtlas.Text
