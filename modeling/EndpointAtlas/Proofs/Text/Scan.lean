import EndpointAtlas.Endpoint.Scanned
import Mathlib.Data.List.Induction
import Mathlib.Logic.Relation

set_option autoImplicit false

namespace EndpointAtlas.Text

variable {α : Type} {here : Option Char → List Char → Option (α × Nat)}

/-- A place in a text: the character before it, if there is one, and what follows. -/
abbrev Place := Option Char × List Char

/-- One step of a scan from a place at which it looks to the next one. -/
inductive Advance (here : Option Char → List Char → Option (α × Nat)) : Place → Place → Prop where
  | past {before : Option Char} {c : Char} {rest : List Char} (h : here before (c :: rest) = none) :
      Advance here (before, c :: rest) (some c, rest)
  | beyond {before : Option Char} {s passed : List Char} {last : Char} {rest : List
      Char} {value : α}
      (split : s = passed ++ last :: rest) (h : here before s = some (value, passed.length + 1)) :
      Advance here (before, s) (some last, rest)

/-- The places at which a scan of a text looks. -/
def Looked (here : Option Char → List Char → Option (α × Nat)) (source : List Char) :
    Place → Prop :=
  Relation.ReflTransGen (Advance here) (none, source)

/-- A place that a scan passes over, inside of what it has found at an earlier one. -/
def Covered (here : Option Char → List Char → Option (α × Nat)) (source s : List Char)
    (place : Place) (value : α) : Prop :=
  Looked here source place ∧ ∃ count passed, here place.1 place.2 = some (value, count) ∧
    place.2 = passed ++ s ∧ 0 < passed.length ∧ passed.length < count

def Consumes (here : Option Char → List Char → Option (α × Nat)) : Prop :=
  ∀ before s value count, here before s = some (value, count) → 1 ≤ count ∧ count ≤ s.length

theorem looked_or_covered (hc : Consumes here) (front s : List Char) :
    Looked here (front ++ s) (front.getLast?, s) ∨
      ∃ place value, Covered here (front ++ s) s place value := by
  induction front using List.reverseRecOn generalizing s with
  | nil => exact .inl .refl
  | append_singleton front c ih =>
    rw [List.append_assoc, List.singleton_append, List.getLast?_concat]
    rcases ih (c :: s) with hl | ⟨place, value, hl, count, passed, hh, hp, hpos, hlt⟩
    · cases h : here front.getLast? (c :: s) with
      | none => exact .inl (hl.tail (.past h))
      | some found =>
        obtain ⟨value, count⟩ := found
        by_cases hone : count = 1
        · subst hone
          exact .inl (hl.tail (.beyond (List.nil_append (c :: s)).symm h))
        · have := (hc _ _ _ _ h).1
          exact .inr ⟨_, value, hl, count, [c], h, rfl, by simp, by simp; omega⟩
    · by_cases hend : count = passed.length + 1
      · subst hend
        exact .inl (hl.tail (.beyond hp hh))
      · refine .inr ⟨place, value, hl, count, passed ++ [c], hh, by simp [hp], by simp, ?_⟩
        rw [List.length_append, List.length_singleton]
        omega

theorem findAll_skip (before : Option Char) (offset : Nat) (passed : List Char) (last : Char)
    (rest : List Char) :
    findAll here (passed.length + 1) before offset (passed ++ last :: rest) =
      findAll here 0 (some last) (offset + units (passed ++ [last])) rest := by
  induction passed generalizing before offset with
  | nil => simp [findAll]
  | cons c passed ih =>
    rw [List.length_cons, List.cons_append, findAll, ih]
    simp [Nat.add_assoc]

theorem findAll_none {before : Option Char} {c : Char} {rest : List Char} (offset : Nat)
    (h : here before (c :: rest) = none) :
    findAll here 0 before offset (c :: rest) = findAll here 0 (some c) (offset + width c) rest := by
  rw [findAll, h]

theorem findAll_some {before : Option Char} {passed : List Char} {last : Char} {rest : List Char}
    {value : α} (offset : Nat)
    (h : here before (passed ++ last :: rest) = some (value, passed.length + 1)) :
    ∃ stop next, findAll here 0 before offset (passed ++ last :: rest) =
      ⟨offset, stop, value⟩ :: findAll here 0 (some last) next rest := by
  cases passed with
  | nil =>
    rw [List.nil_append] at h ⊢
    rw [findAll, h]
    exact ⟨_, _, rfl⟩
  | cons c passed =>
    rw [List.cons_append] at h ⊢
    rw [findAll, h]
    simp only [List.length_cons, Nat.add_sub_cancel]
    rw [findAll_skip]
    exact ⟨_, _, rfl⟩

theorem split_at {s : List Char} {count : Nat} (hl : 1 ≤ count) (hu : count ≤ s.length) :
    ∃ passed last rest, s = passed ++ last :: rest ∧ count = passed.length + 1 := by
  have hlt : count - 1 < s.length := by omega
  refine ⟨s.take (count - 1), s[count - 1], s.drop count, ?_, ?_⟩
  · have := List.take_append_drop (count - 1) s
    rw [List.drop_eq_getElem_cons hlt, show count - 1 + 1 = count by omega] at this
    exact this.symm
  · rw [List.length_take]
    omega

def Reaches (here : Option Char → List Char → Option (α × Nat)) (place : Place)
    (value : α) : Prop :=
  ∃ later count, Relation.ReflTransGen (Advance here) place later ∧
    here later.1 later.2 = some (value, count)

theorem not_reaches_end (hc : Consumes here) (before : Option Char) (value : α) :
    ¬Reaches here (before, []) value := by
  rintro ⟨later, count, hr, hp⟩
  rcases Relation.ReflTransGen.cases_head hr with rfl | ⟨next, hs, -⟩
  · have hcount := hc _ _ _ _ hp
    rw [List.length_nil] at hcount
    omega
  · cases hs with
    | beyond split h => simp at split

theorem reaches_past_iff {before : Option Char} {c : Char} {rest : List Char}
    (h : here before (c :: rest) = none) (value : α) :
    Reaches here (before, c :: rest) value ↔ Reaches here (some c, rest) value := by
  constructor
  · rintro ⟨later, count, hr, hp⟩
    rcases Relation.ReflTransGen.cases_head hr with rfl | ⟨next, hs, hr⟩
    · simp [h] at hp
    · cases hs with
      | past _ => exact ⟨later, count, hr, hp⟩
      | beyond _ hs => simp [h] at hs
  · rintro ⟨later, count, hr, hp⟩
    exact ⟨later, count, .head (.past h) hr, hp⟩

theorem reaches_beyond_iff {before : Option Char} {passed : List Char} {last : Char}
    {rest : List Char} {first : α}
    (h : here before (passed ++ last :: rest) = some (first, passed.length + 1)) (value : α) :
    Reaches here (before, passed ++ last :: rest) value ↔
      first = value ∨ Reaches here (some last, rest) value := by
  constructor
  · rintro ⟨later, count, hr, hp⟩
    rcases Relation.ReflTransGen.cases_head hr with rfl | ⟨mid, hs, hr⟩
    · rw [h] at hp
      cases hp
      exact .inl rfl
    · refine .inr ⟨later, count, ?_, hp⟩
      generalize hs0 : passed ++ last :: rest = s at hs h
      cases hs with
      | past hnone => simp [hnone] at h
      | beyond split hsome =>
        rw [hsome] at h
        simp only [Option.some.injEq, Prod.mk.injEq, Nat.add_right_cancel_iff] at h
        obtain ⟨-, hrest⟩ := List.append_inj (hs0.trans split) h.2.symm
        rw [List.cons.injEq] at hrest
        rw [hrest.1, hrest.2]
        exact hr
  · rintro (rfl | ⟨later, count, hr, hp⟩)
    · exact ⟨_, _, .refl, h⟩
    · exact ⟨later, count, .head (.beyond rfl h) hr, hp⟩

theorem found_iff_reached (hc : Consumes here) (before : Option Char) (offset : Nat) (s : List Char)
    (value : α) :
    (∃ found ∈ findAll here 0 before offset s, found.value = value) ↔
      Reaches here (before, s) value := by
  induction hn : s.length using Nat.strongRecOn generalizing before offset s with
  | ind n ih =>
    subst hn
    cases s with
    | nil => exact iff_of_false (by simp [findAll]) (not_reaches_end hc before value)
    | cons c rest =>
      cases h : here before (c :: rest) with
      | none =>
        rw [findAll_none offset h, ih rest.length (by simp) (some c) _ rest rfl,
          reaches_past_iff h]
      | some match_ =>
        obtain ⟨first, count⟩ := match_
        obtain ⟨passed, last, later, hsplit, rfl⟩ := split_at (hc _ _ _ _ h).1 (hc _ _ _ _ h).2
        rw [hsplit] at h ⊢
        obtain ⟨stop, next, hf⟩ := findAll_some offset h
        have hl : later.length < (c :: rest).length := by
          rw [hsplit, List.length_append, List.length_cons]
          omega
        rw [hf, reaches_beyond_iff h, ← ih _ hl (some last) next later rfl]
        simp only [List.mem_cons, exists_eq_or_imp]

end EndpointAtlas.Text
