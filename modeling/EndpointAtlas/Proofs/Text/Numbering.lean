import EndpointAtlas.Proofs.Path
import EndpointAtlas.Proofs.Text.Encoded

set_option autoImplicit false

namespace EndpointAtlas.Text

theorem isPlain_feed : IsPlain '\n' := show _ < _ by decide

theorem isPlain_return : IsPlain '\r' := show _ < _ by decide

/-! ### Numbers told from the units alone -/

/-- The number of the line on which the unit at an offset stands, for units that may start inside of
a character. -/
def lineIn : List Nat → Nat → Nat
  | [], _ => 1
  | _ :: _, 0 => 1
  | unit :: rest, offset + 1 =>
    if unit = '\n'.toNat then lineIn rest offset + 1 else lineIn rest offset

theorem lineIn_eq (code : List Nat) (offset : Nat) :
    lineIn code offset = (code.take offset).count '\n'.toNat + 1 := by
  fun_induction lineIn code offset with
  | case1 => simp
  | case2 => simp
  | case3 rest offset ih => simp [ih]
  | case4 unit rest offset hu ih => rw [ih, List.take_succ_cons, List.count_cons_of_ne hu]

theorem lineIn_encoded (s : List Char) (offset : Nat) :
    lineIn (encoded s) offset = lineAt s offset := by
  rw [lineIn_eq, count_take_encoded isPlain_feed, lineAt_eq]

theorem lineIn_add (code : List Nat) (a b : Nat) :
    lineIn code a + lineIn (code.drop a) b - 1 = lineIn code (a + b) := by
  rw [lineIn_eq, lineIn_eq, lineIn_eq, List.take_add, List.count_append]
  omega

/-! ### One line after the other -/

section Line

variable {line : List Char}

theorem splitOn_flat (flat : '\n' ∉ line) : splitOn (· == '\n') line = [line] :=
  splitOn_unbroken fun c hc => by
    have : c ≠ '\n' := fun same => flat (same ▸ hc)
    simpa using this

theorem lines_flat (flat : '\n' ∉ line) : lines line = [line] := by
  rw [lines, splitOn_flat flat, withoutReturns]

theorem lines_append (flat : '\n' ∉ line) (rest : List Char) :
    lines (line ++ '\n' :: rest) = withoutReturn line :: lines rest := by
  obtain ⟨piece, pieces, hp⟩ := List.exists_cons_of_ne_nil (splitOn_ne_nil (· == '\n') rest)
  rw [lines, splitOn_append_break (by simp), splitOn_flat flat, lines, hp, List.singleton_append]
  rfl

theorem line_induction {motive : List Char → Prop} (last : ∀ line, '\n' ∉ line → motive line)
    (next : ∀ line rest, '\n' ∉ line → motive rest → motive (line ++ '\n' :: rest))
    (s : List Char) : motive s := by
  induction hs : s.length using Nat.strongRecOn generalizing s with
  | ind n ih =>
    by_cases ended : '\n' ∈ s
    · obtain ⟨line, rest, rfl, flat⟩ := List.eq_append_cons_of_mem ended
      exact next line rest flat (ih rest.length (by simp at hs; omega) rest rfl)
    · exact last s ended

theorem lineAt_flat (flat : '\n' ∉ line) {offset : Nat} (h : offset ≤ units line)
    (rest : List Char) : lineAt (line ++ rest) offset = 1 := by
  have none_before : '\n' ∉ takeUnits offset line := fun mem =>
    flat (takeUnits_append_dropUnits offset line ▸ List.mem_append_left _ mem)
  rw [lineAt_eq, takeUnits_append_of_le h, List.count_eq_zero.2 none_before]

theorem lineAt_next (flat : '\n' ∉ line) (rest : List Char) (offset : Nat) :
    lineAt (line ++ '\n' :: rest) (units line + (offset + 1)) = lineAt rest offset + 1 := by
  have one : width '\n' = 1 := isPlain_feed.width
  rw [lineAt_eq, takeUnits_units_add, takeUnits, if_neg (by omega), one, Nat.add_sub_cancel,
    List.count_append, List.count_eq_zero.2 flat, List.count_cons_self, lineAt_eq]
  omega

end Line

theorem lineAt_end (s : List Char) : lineAt s (units s) = lineCount s := by
  rw [lineAt_eq, takeUnits_of_le (Nat.le_refl _), lineCount]

/-! ### Where a character stands in its line -/

/-- The line of an offset starts at `start`: with the text, or behind the line feed before the
offset. -/
structure StartsLine (s : List Char) (start offset : Nat) : Prop where
  le : start ≤ offset
  behind : start = 0 ∨ (encoded s)[start - 1]? = some '\n'.toNat
  unbroken : ∀ k, start ≤ k → k < offset → (encoded s)[k]? ≠ some '\n'.toNat

/-- A line end stands at an offset: a line feed, or a carriage return directly before one. -/
def IsLineEnd (s : List Char) (offset : Nat) : Prop :=
  (encoded s)[offset]? = some '\n'.toNat ∨
    ((encoded s)[offset]? = some '\r'.toNat ∧ (encoded s)[offset + 1]? = some '\n'.toNat)

instance (s : List Char) (offset : Nat) : Decidable (IsLineEnd s offset) :=
  inferInstanceAs (Decidable (_ ∨ _))

theorem startsLine_zero {line : List Char} (flat : '\n' ∉ line) {offset : Nat}
    (h : offset ≤ units line) (rest : List Char) : StartsLine (line ++ rest) 0 offset where
  le := Nat.zero_le offset
  behind := .inl rfl
  unbroken k _ hk feed := by
    rw [getElem?_encoded_of_lt (by omega), getElem?_encoded_iff isPlain_feed] at feed
    obtain ⟨front, back, rfl, -⟩ := feed
    simp at flat

theorem getElem?_next (line rest : List Char) (k : Nat) :
    (encoded (line ++ '\n' :: rest))[units line + (k + 1)]? = (encoded rest)[k]? := by
  rw [getElem?_encoded_add, encoded_cons, isPlain_feed.unitsOf, List.singleton_append,
    List.getElem?_cons_succ]

theorem getElem?_feed (line rest : List Char) :
    (encoded (line ++ '\n' :: rest))[units line]? = some '\n'.toNat :=
  (getElem?_encoded_iff isPlain_feed _ _).2 ⟨line, rest, rfl, rfl⟩

theorem StartsLine.next {rest : List Char} {start offset : Nat} (h : StartsLine rest start offset)
    (line : List Char) :
    StartsLine (line ++ '\n' :: rest) (units line + (start + 1)) (units line + (offset + 1)) where
  le := by have := h.le; omega
  behind := .inr (by
    rcases h.behind with rfl | behind
    · exact getElem?_feed line rest
    · by_cases first : start = 0
      · rw [first]
        exact getElem?_feed line rest
      · rw [show units line + (start + 1) - 1 =
          units line + (start - 1 + 1) by omega, getElem?_next, behind])
  unbroken k hk hlt := by
    obtain ⟨n, rfl⟩ := Nat.exists_eq_add_of_le (show units line + 1 ≤ k by omega)
    rw [show units line + 1 + n = units line + (n + 1) by omega, getElem?_next]
    exact h.unbroken n (by omega) (by omega)

theorem isLineEnd_next {line rest : List Char} {offset : Nat} :
    IsLineEnd (line ++ '\n' :: rest) (units line + (offset + 1)) ↔ IsLineEnd rest offset := by
  rw [IsLineEnd, Nat.add_assoc (units line), getElem?_next, getElem?_next, IsLineEnd]

theorem getElem?_withoutReturn {line rest : List Char} {offset : Nat} (h : offset < units line)
    (inner : ¬IsLineEnd (line ++ '\n' :: rest) offset) :
    (encoded (withoutReturn line))[offset]? = (encoded line)[offset]? := by
  unfold withoutReturn
  split
  · rename_i ends
    obtain ⟨front, rfl⟩ := List.getLast?_eq_some_iff.1 ends
    have one : width '\r' = 1 := isPlain_return.width
    rw [units_append, units_cons, units_nil, one] at h
    have before : offset ≠ units front := by
      rintro rfl
      refine inner (.inr ⟨?_, ?_⟩)
      · exact (getElem?_encoded_iff isPlain_return _ _).2 ⟨front, '\n' :: rest, by simp, rfl⟩
      · exact (getElem?_encoded_iff isPlain_feed _ _).2 ⟨front ++ ['\r'],
          rest, by simp, by simp [one]⟩
    rw [List.dropLast_concat, getElem?_encoded_of_lt (by omega)]
  · rfl

theorem getElem?_lines {s : List Char} {offset unit : Nat} (h : (encoded s)[offset]? = some unit)
    (inner : ¬IsLineEnd s offset) :
    ∃ start line, StartsLine s start offset ∧ (lines s)[lineAt s offset - 1]? = some line ∧
      (encoded line)[offset - start]? = some unit := by
  induction s using line_induction generalizing offset with
  | last line flat =>
    have inside : offset ≤ units line := by
      have := (List.getElem?_eq_some_iff.1 h).1
      rw [length_encoded] at this
      omega
    have starts := startsLine_zero flat inside []
    have number := lineAt_flat flat inside []
    rw [List.append_nil] at starts number
    exact ⟨0, line, starts, by rw [lines_flat flat, number]; rfl, h⟩
  | next line rest flat ih =>
    rcases Nat.lt_trichotomy offset (units line) with before | rfl | behind
    · have starts := startsLine_zero flat (Nat.le_of_lt before) ('\n' :: rest)
      have number := lineAt_flat flat (Nat.le_of_lt before) ('\n' :: rest)
      rw [getElem?_encoded_of_lt before] at h
      exact ⟨0, withoutReturn line, starts, by rw [lines_append flat, number]; rfl, by
        rw [Nat.sub_zero, getElem?_withoutReturn before inner, h]⟩
    · exact absurd (.inl (getElem?_feed line rest)) inner
    · obtain ⟨n, rfl⟩ := Nat.exists_eq_add_of_le (Nat.succ_le_of_lt behind)
      rw [Nat.succ_add, ← Nat.add_succ] at h inner ⊢
      rw [getElem?_next] at h
      rw [isLineEnd_next] at inner
      obtain ⟨start, found, starts, entry, column⟩ := ih h inner
      have one := one_le_lineAt rest n
      refine ⟨units line + (start + 1), found, starts.next line, ?_, ?_⟩
      · rw [lines_append flat, lineAt_next flat, Nat.add_sub_cancel,
          List.getElem?_cons, if_neg (by omega), entry]
      · rw [← column]
        congr 1
        omega

/-! ### Parts -/

theorem lineIn_drop {s : List Char} {start : Nat} (h : IsBoundary s start) (offset : Nat) :
    lineIn ((encoded s).drop start) offset = lineAt (dropUnits start s) offset := by
  have split := takeUnits_append_dropUnits start s
  have part := drop_encoded (takeUnits start s) (dropUnits start s)
  rw [split, h] at part
  rw [part, lineIn_encoded]

theorem lineAt_slice {s : List Char} {start : Nat} (h : IsBoundary s start) {stop offset : Nat}
    (inside : offset ≤ units (slice s start stop)) :
    lineAt s start + lineAt (slice s start stop) offset - 1 = lineAt s (start + offset) := by
  have cut : slice s start stop ++ dropUnits (stop - start) (dropUnits start s) =
      dropUnits start s :=
    takeUnits_append_dropUnits (stop - start) (dropUnits start s)
  have whole : lineAt (slice s start stop) offset = lineAt (dropUnits start s) offset := by
    rw [lineAt_eq, lineAt_eq, ← cut, takeUnits_append_of_le inside]
  rw [whole, ← lineIn_drop h, ← lineIn_encoded, ← lineIn_encoded, lineIn_add]

end EndpointAtlas.Text
