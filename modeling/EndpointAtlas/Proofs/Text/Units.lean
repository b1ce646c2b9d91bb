import EndpointAtlas.Text.Lines

set_option autoImplicit false

namespace EndpointAtlas.Text

theorem takeUnits_append (n : Nat) (s t : List Char) :
    takeUnits n (s ++ t) = takeUnits n s ++ takeUnits (n - units s) t := by
  induction s generalizing n with
  | nil => simp [takeUnits]
  | cons c rest ih =>
    by_cases h : n = 0
    · cases t <;> simp [takeUnits, h]
    · simp [takeUnits, h, ih, Nat.sub_sub]

theorem dropUnits_append (n : Nat) (s t : List Char) :
    dropUnits n (s ++ t) = dropUnits n s ++ dropUnits (n - units s) t := by
  induction s generalizing n with
  | nil => simp [dropUnits]
  | cons c rest ih =>
    by_cases h : n = 0
    · cases t <;> simp [dropUnits, h]
    · simp [dropUnits, h, ih, Nat.sub_sub]

theorem takeUnits_of_le {n : Nat} {s : List Char} (h : units s ≤ n) : takeUnits n s = s := by
  induction s generalizing n with
  | nil => rfl
  | cons c rest ih =>
    have hw := width_pos c
    simp at h
    simp [takeUnits, show n ≠ 0 by omega, ih (n := n - width c) (by omega)]

theorem dropUnits_of_le {n : Nat} {s : List Char} (h : units s ≤ n) : dropUnits n s = [] := by
  have whole := takeUnits_append_dropUnits n s
  rw [takeUnits_of_le h] at whole
  simpa using whole

theorem takeUnits_append_of_le {n : Nat} {s : List Char} (h : n ≤ units s) (t : List Char) :
    takeUnits n (s ++ t) = takeUnits n s := by
  cases t with
  | nil => rw [List.append_nil]
  | cons c t => simp [takeUnits_append, Nat.sub_eq_zero_of_le h, takeUnits]

theorem takeUnits_units_add (s t : List Char) (n : Nat) :
    takeUnits (units s + n) (s ++ t) = s ++ takeUnits n t := by
  rw [takeUnits_append, takeUnits_of_le (by omega), Nat.add_sub_cancel_left]

theorem dropUnits_units_add (s t : List Char) (n : Nat) :
    dropUnits (units s + n) (s ++ t) = dropUnits n t := by
  rw [dropUnits_append, dropUnits_of_le (by omega), Nat.add_sub_cancel_left, List.nil_append]

@[simp] theorem takeUnits_units (s t : List Char) : takeUnits (units s) (s ++ t) = s := by
  rw [takeUnits_append_of_le (by omega), takeUnits_of_le (by omega)]

theorem lineAt_eq (s : List Char) (offset : Nat) :
    lineAt s offset = (takeUnits offset s).count '\n' + 1 := by
  induction s generalizing offset with
  | nil => rfl
  | cons c rest ih =>
    rw [lineAt, takeUnits]
    by_cases h : offset = 0
    · simp [h]
    · rw [if_neg h, if_neg h, List.count_cons, ih]
      by_cases hc : c = '\n'
      · simp [hc]
      · simp [hc]

theorem count_takeUnits_le (c : Char) (n : Nat) (s : List Char) :
    (takeUnits n s).count c ≤ s.count c := by
  have hp : takeUnits n s <+: s := ⟨dropUnits n s, takeUnits_append_dropUnits n s⟩
  exact hp.sublist.count_le c

theorem lineAt_slice_le (s : List Char) (start stop offset : Nat) :
    lineAt s start + lineAt (slice s start stop) offset ≤ lineCount s + 1 := by
  have hall : (takeUnits start s).count '\n' + (dropUnits start s).count '\n' = s.count '\n' := by
    rw [← List.count_append, takeUnits_append_dropUnits]
  have hpart := count_takeUnits_le '\n' (stop - start) (dropUnits start s)
  have hbefore := count_takeUnits_le '\n' offset (slice s start stop)
  rw [lineAt_eq, lineAt_eq, lineCount]
  unfold slice at *
  omega

end EndpointAtlas.Text
