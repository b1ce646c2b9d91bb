import EndpointAtlas.Syntax.Span
import EndpointAtlas.Text.Quoted

set_option autoImplicit false

namespace EndpointAtlas

namespace Span

/-- Two stretches that share no character. -/
def Apart (a b : Span) : Prop := a.stop ≤ b.start ∨ b.stop ≤ a.start

instance (a b : Span) : Decidable (a.Apart b) := inferInstanceAs (Decidable (_ ∨ _))

end Span

namespace Text

def endsLine (c : Char) : Bool := c == '\n' || c == '\r' || c.toNat == 0x2028 || c.toNat == 0x2029

/-- A text of which the first character stands at `offset`, with a space for every unit of a
character that lies in one of the spans and ends no line. -/
def overwriteFrom (spans : List Span) : Nat → List Char → List Char
  | _, [] => []
  | offset, c :: rest =>
    (if spans.any (fun span => span.start ≤ offset && offset + width c ≤ span.stop) &&
      !endsLine c then
      List.replicate (width c) ' '
    else [c]) ++ overwriteFrom spans (offset + width c) rest

/-- A text with the characters of some spans overwritten by spaces. -/
def overwrite (spans : List Span) (s : List Char) : List Char := overwriteFrom spans 0 s

@[simp] theorem units_replicate_space (n : Nat) : units (List.replicate n ' ') = n := by
  have hone : width ' ' = 1 := by decide
  induction n with
  | zero => rfl
  | succ n ih => simp [List.replicate_succ, ih, hone]; omega

theorem overwriteFrom_append (spans : List Span) (offset : Nat) (s t : List Char) :
    overwriteFrom spans offset (s ++ t) =
      overwriteFrom spans offset s ++ overwriteFrom spans (offset + units s) t := by
  induction s generalizing offset with
  | nil => simp [overwriteFrom]
  | cons c rest ih => simp [overwriteFrom, ih, Nat.add_assoc]

@[simp] theorem units_overwriteFrom (spans : List Span) (offset : Nat) (s : List Char) :
    units (overwriteFrom spans offset s) = units s := by
  induction s generalizing offset with
  | nil => rfl
  | cons c rest ih =>
    rw [overwriteFrom, units_append, ih]
    split <;> simp

/-! ### Lines -/

@[simp] theorem lineAt_zero (s : List Char) : lineAt s 0 = 1 := by
  cases s <;> simp [lineAt]

theorem lineAt_spaces (n : Nat) (s : List Char) (offset : Nat) :
    lineAt (List.replicate n ' ' ++ s) offset = lineAt s (offset - n) := by
  have hone : width ' ' = 1 := by decide
  induction n generalizing offset with
  | zero => simp
  | succ n ih =>
    by_cases h : offset = 0
    · simp [h]
    · simp [List.replicate_succ, lineAt, h, hone, ih, Nat.sub_sub, Nat.add_comm]

theorem lineAt_overwriteFrom (spans : List Span) (start : Nat) (s : List Char) (offset : Nat) :
    lineAt (overwriteFrom spans start s) offset = lineAt s offset := by
  induction s generalizing start offset with
  | nil => rfl
  | cons c rest ih =>
    rw [overwriteFrom]
    split
    · rename_i h
      have hc : c ≠ '\n' := by
        rintro rfl
        simp [endsLine] at h
      by_cases ho : offset = 0
      · simp [ho]
      · rw [lineAt_spaces, ih, lineAt, if_neg ho, if_neg hc]
    · simp [lineAt, ih]

theorem lineAt_overwrite (spans : List Span) (s : List Char) (offset : Nat) :
    lineAt (overwrite spans s) offset = lineAt s offset := lineAt_overwriteFrom spans 0 s offset

/-! ### Slices -/

/-- An offset at which a character starts, or at which the text ends. -/
def IsBoundary (s : List Char) (offset : Nat) : Prop := units (takeUnits offset s) = offset

instance (s : List Char) (offset : Nat) : Decidable (IsBoundary s offset) :=
  inferInstanceAs (Decidable (_ = _))

@[simp] theorem takeUnits_zero (s : List Char) : takeUnits 0 s = [] := by
  cases s <;> simp [takeUnits]

theorem takeUnits_overwriteFrom {spans : List Span} {offset n : Nat} (s : List Char)
    (h : ∀ span ∈ spans, span.stop ≤ offset ∨ offset + n ≤ span.start) :
    takeUnits n (overwriteFrom spans offset s) = takeUnits n s := by
  induction s generalizing offset n with
  | nil => rfl
  | cons c rest ih =>
    have hw := width_pos c
    by_cases hn : n = 0
    · simp [hn]
    · have hkept : (spans.any fun span => span.start ≤ offset && offset + width c ≤ span.stop) =
          false := by
        rw [List.any_eq_false]
        intro span hs
        have := h span hs
        simp
        omega
      rw [overwriteFrom, if_neg (by simp [hkept]), List.singleton_append, takeUnits,
        if_neg hn, takeUnits, if_neg hn]
      by_cases hc : n ≤ width c
      · simp [Nat.sub_eq_zero_of_le hc]
      · rw [ih fun span hs => by have := h span hs; omega]

theorem dropUnits_overwrite (spans : List Span) {s : List Char} {offset : Nat}
    (h : IsBoundary s offset) :
    dropUnits offset (overwrite spans s) = overwriteFrom spans offset (dropUnits offset s) := by
  have hu : units (overwriteFrom spans 0 (takeUnits offset s)) = offset := by
    rw [units_overwriteFrom, h]
  have hcut : overwrite spans s = overwriteFrom spans 0 (takeUnits offset s) ++
      overwriteFrom spans offset (dropUnits offset s) := by
    have := overwriteFrom_append spans 0 (takeUnits offset s) (dropUnits offset s)
    rwa [takeUnits_append_dropUnits, h, Nat.zero_add] at this
  calc dropUnits offset (overwrite spans s)
      = dropUnits (units (overwriteFrom spans 0 (takeUnits offset s)))
          (overwrite spans s) := by rw [hu]
    _ = overwriteFrom spans offset (dropUnits offset s) := by rw [hcut, dropUnits_units]

theorem slice_overwrite {spans : List Span} {s : List Char} {start stop : Nat}
    (aligned : IsBoundary s start) (ordered : start ≤ stop)
    (apart : ∀ span ∈ spans, span.stop ≤ start ∨ stop ≤ span.start) :
    slice (overwrite spans s) start stop = slice s start stop := by
  rw [slice, dropUnits_overwrite spans aligned, takeUnits_overwriteFrom, slice]
  intro span hs
  have := apart span hs
  omega

/-! ### What overwriting cannot bring in -/

section contained

variable {spans : List Span} {part : List Char} (spaceless : ' ' ∉ part)

include spaceless

theorem prefix_of_prefix_overwriteFrom {offset n : Nat} {s : List Char}
    (h : part <+: takeUnits n (overwriteFrom spans offset s)) : part <+: takeUnits n s := by
  induction s generalizing part offset n with
  | nil => exact h
  | cons c rest ih =>
    cases part with
    | nil => exact List.nil_prefix
    | cons first part =>
      have hw := width_pos c
      by_cases hn : n = 0
      · simp [hn] at h
      · rw [overwriteFrom] at h
        split at h
        · obtain ⟨w, hw⟩ : ∃ w, width c = w + 1 := ⟨width c - 1, by omega⟩
          rw [hw, List.replicate_succ, List.cons_append, takeUnits, if_neg hn,
            List.cons_prefix_cons] at h
          exact absurd h.1 fun hf => spaceless (by simp [hf])
        · rw [List.singleton_append, takeUnits, if_neg hn, List.cons_prefix_cons] at h
          rw [takeUnits, if_neg hn, List.cons_prefix_cons]
          exact ⟨h.1, ih (fun hm => spaceless (List.mem_cons_of_mem _ hm)) h.2⟩

theorem infix_of_infix_spaces {k n : Nat} {s : List Char} (hne : part ≠ [])
    (h : part <:+: takeUnits n (List.replicate k ' ' ++ s)) : part <:+: takeUnits (n - k) s := by
  have hone : width ' ' = 1 := by decide
  obtain ⟨first, part, rfl⟩ := List.exists_cons_of_ne_nil hne
  induction k generalizing n with
  | zero => exact h
  | succ k ih =>
    by_cases hn : n = 0
    · simp [hn] at h
    · rw [List.replicate_succ, List.cons_append, takeUnits, if_neg hn,
        List.infix_cons_iff, hone] at h
      rcases h with h | h
      · rw [List.cons_prefix_cons] at h
        exact absurd h.1 fun hf => spaceless (by simp [hf])
      · rw [Nat.sub_add_eq, Nat.sub_right_comm]
        exact ih h

theorem infix_of_infix_overwriteFrom {offset n : Nat} {s : List Char} (hne : part ≠ [])
    (h : part <:+: takeUnits n (overwriteFrom spans offset s)) : part <:+: takeUnits n s := by
  induction s generalizing offset n with
  | nil => exact h
  | cons c rest ih =>
    by_cases hn : n = 0
    · simpa [hn] using h
    · have hfront := @prefix_of_prefix_overwriteFrom spans part spaceless offset n (c :: rest)
      rw [takeUnits, if_neg hn] at hfront ⊢
      rw [List.infix_cons_iff]
      rw [overwriteFrom] at h hfront
      split at h
      · exact .inr (ih (infix_of_infix_spaces spaceless hne h))
      · rename_i kept
        rw [if_neg kept] at hfront
        rw [List.singleton_append, takeUnits, if_neg hn] at h hfront
        rw [List.infix_cons_iff] at h
        exact h.imp hfront ih

end contained

theorem contains_iff_isInfix {part s : List Char} : contains part s = true ↔ part <:+: s := by
  induction s with
  | nil => simp [contains]
  | cons c rest ih =>
    rw [contains, Bool.or_eq_true, List.isPrefixOf_iff_prefix, ih, List.infix_cons_iff]

theorem contains_of_overwrite {spans : List Span} {s part : List Char} {start stop : Nat}
    (aligned : IsBoundary s start) (spaceless : ' ' ∉ part) (hne : part ≠ [])
    (h : contains part (slice (overwrite spans s) start stop) = true) :
    contains part (slice s start stop) = true := by
  rw [contains_iff_isInfix, slice, dropUnits_overwrite spans aligned] at h
  rw [contains_iff_isInfix]
  exact infix_of_infix_overwriteFrom spaceless hne h

end Text

end EndpointAtlas
