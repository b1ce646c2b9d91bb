import EndpointAtlas.Bundle.Build

set_option autoImplicit false

namespace EndpointAtlas

namespace Text

theorem length_splitOn (isBreak : Char → Bool) (s : List Char) :
    (splitOn isBreak s).length = s.countP isBreak + 1 := by
  induction s with
  | nil => rfl
  | cons c rest ih =>
    rw [splitOn, List.countP_cons]
    cases hp : splitOn isBreak rest with
    | nil => exact absurd hp (splitOn_ne_nil isBreak rest)
    | cons piece pieces =>
      rw [hp] at ih
      by_cases hc : isBreak c = true <;> simp_all

@[simp] theorem length_lineTexts (s : String) : (lineTexts s).length = lineCount s.toList := by
  simp [lineTexts, lines, length_splitOn, lineCount, List.count]

end Text

namespace Bundle

/-- Lines are those of a range: as many as it counts, and each the line of the file at its place. -/
structure AreLines (all : List String) (range : LineRange) (lines : List String) : Prop where
  count : (lines.length : Int) = range.last - range.first + 1
  literal : ∀ k < lines.length, lines[k]? = all[range.first.toNat - 1 + k]?

theorem areLines_cut {all : List String} {range : LineRange} (hf : 1 ≤ range.first)
    (ho : range.first ≤ range.last) (hl : range.last ≤ all.length) :
    AreLines all range (cut all (range.first - 1) range.last) := by
  obtain ⟨first, last⟩ := range
  have hstart : cutIndex all.length (first - 1) = first.toNat - 1 := by
    rw [cutIndex, if_neg (by simp only at hf; omega)]
    omega
  have hstop : cutIndex all.length last = last.toNat := by
    rw [cutIndex, if_neg (by simp only at hf ho; omega)]
  have hcut : cut all (first - 1) last =
      (all.drop (first.toNat - 1)).take (last.toNat - (first.toNat - 1)) := by
    rw [cut, hstart, hstop]
  simp only at hf ho hl
  simp only [hcut]
  refine ⟨?_, fun k hk => ?_⟩
  · simp
    omega
  · have hk : k < last.toNat - (first.toNat - 1) := by simp at hk; omega
    rw [List.getElem?_take_of_lt hk, List.getElem?_drop]

theorem spanIn_eq_some {tree : FileTree} {path : String} {all : List String} {range : LineRange}
    (h : linesOf tree path = some all) (hf : 1 ≤ range.first) (ho : range.first ≤ range.last)
    (hl : range.last ≤ all.length) :
    spanIn tree path range = some (cut all (range.first - 1) range.last) := by
  have inside : ¬(range.first < 1 ∨ all.length < range.first ∨ range.last < range.first) := by omega
  unfold spanIn
  rw [h]
  simp only [inside, if_false]

end Bundle

end EndpointAtlas
