import EndpointAtlas.Proofs.Bundle.Closure

set_option autoImplicit false

namespace EndpointAtlas.Declaration

/-- What a call on a line means: of the declarations around that line one that starts first; where
there are none, of those that start at or before it one that starts last; where there are none of
these either, one that starts first. -/
structure IsMeant (candidates : List Declaration) (line : Int) (d : Declaration) : Prop where
  mem : d ∈ candidates
  around : ∀ c ∈ candidates, c.lines.contains line = true →
    d.lines.contains line = true ∧ d.lines.first ≤ c.lines.first
  before : (∀ c ∈ candidates, c.lines.contains line = false) →
    ∀ c ∈ candidates, c.lines.first ≤ line → d.lines.first ≤ line ∧ c.lines.first ≤ d.lines.first
  behind : (∀ c ∈ candidates, line < c.lines.first) →
    ∀ c ∈ candidates, d.lines.first ≤ c.lines.first

variable {candidates sorted : List Declaration} {line : Int} {d : Declaration}

theorem first_le_of_contains (h : d.lines.contains line = true) : d.lines.first ≤ line := by
  simp [LineRange.contains] at h
  omega

/-! ### Declarations in order -/

theorem mem_byFirstLine : d ∈ byFirstLine candidates ↔ d ∈ candidates := by simp [byFirstLine]

theorem pairwise_byFirstLine (candidates : List Declaration) :
    (byFirstLine candidates).Pairwise fun a b => a.lines.first ≤ b.lines.first := by
  have sorted : (byFirstLine candidates).Pairwise fun a b =>
      decide (a.lines.first ≤ b.lines.first) = true :=
    List.pairwise_mergeSort (fun a b c hab hbc => by simp at *; omega)
      (fun a b => by simp; omega) candidates
  simpa using sorted

theorem first_le_of_head? (hs : sorted.Pairwise fun a b => a.lines.first ≤ b.lines.first)
    (h : sorted.head? = some d) : ∀ c ∈ sorted, d.lines.first ≤ c.lines.first := by
  cases sorted with
  | nil => simp at h
  | cons first rest =>
    simp only [List.head?_cons, Option.some.injEq] at h
    subst first
    intro c hc
    cases hc with
    | head => omega
    | tail _ hc => exact List.rel_of_pairwise_cons hs hc

theorem first_le_of_getLast? (hs : sorted.Pairwise fun a b => a.lines.first ≤ b.lines.first)
    (h : sorted.getLast? = some d) : ∀ c ∈ sorted, c.lines.first ≤ d.lines.first := by
  obtain ⟨front, rfl⟩ := List.getLast?_eq_some_iff.mp h
  intro c hc
  cases List.mem_append.mp hc with
  | inl hc => exact (List.pairwise_append.mp hs).2.2 c hc d (by simp)
  | inr hc => simp_all

/-! ### The choice -/

theorem choose_cases (h : choose candidates line = some d) :
    ((byFirstLine candidates).filter (·.lines.contains line)).head? = some d ∨
    ((∀ c ∈ candidates, c.lines.contains line = false) ∧
      ((byFirstLine candidates).filter (·.lines.first ≤ line)).getLast? = some d) ∨
    ((∀ c ∈ candidates, line < c.lines.first) ∧ (byFirstLine candidates).head? = some d) := by
  unfold choose at h
  simp only at h
  split at h
  · rename_i found hf
    left
    rw [List.head?_filter, hf, h]
  · rename_i hnone
    have hout : ∀ c ∈ candidates, c.lines.contains line = false := by
      simpa [List.find?_eq_none, mem_byFirstLine] using hnone
    right
    split at h
    · rename_i found hf
      left
      exact ⟨hout, hf.trans h⟩
    · rename_i hlast
      right
      refine ⟨?_, h⟩
      simpa [List.getLast?_eq_none_iff, List.filter_eq_nil_iff, mem_byFirstLine] using hlast

theorem isMeant_of_choose (h : choose candidates line = some d) : IsMeant candidates line d := by
  have hm := Dependency.choose_mem h
  have hs := pairwise_byFirstLine candidates
  cases choose_cases h with
  | inl hhead =>
    have hd : d.lines.contains line = true := by
      have := List.mem_of_head? hhead
      simp_all
    have hleast := first_le_of_head? (hs.filter _) hhead
    refine ⟨hm, ?_, ?_, ?_⟩
    · intro c hc hcon
      exact ⟨hd, hleast c (by simp [mem_byFirstLine, hc, hcon])⟩
    · intro hout
      simp [hout d hm] at hd
    · intro hlater
      have := hlater d hm
      have := first_le_of_contains hd
      omega
  | inr h =>
    cases h with
    | inl h =>
      obtain ⟨hout, hlast⟩ := h
      have hd : d.lines.first ≤ line := by
        have := List.mem_of_getLast? hlast
        simp_all
      have hgreatest := first_le_of_getLast? (hs.filter _) hlast
      refine ⟨hm, ?_, ?_, ?_⟩
      · intro c hc hcon
        simp [hout c hc] at hcon
      · intro _ c hc hle
        exact ⟨hd, hgreatest c (by simp [mem_byFirstLine, hc, hle])⟩
      · intro hlater
        have := hlater d hm
        omega
    | inr h =>
      obtain ⟨hlater, hhead⟩ := h
      have hleast := first_le_of_head? hs hhead
      refine ⟨hm, ?_, ?_, ?_⟩
      · intro c hc hcon
        have := hlater c hc
        have := first_le_of_contains hcon
        omega
      · intro _ c hc hle
        have := hlater c hc
        omega
      · intro _ c hc
        exact hleast c (mem_byFirstLine.mpr hc)

/-! ### The order of the candidates -/

theorem IsMeant.of_perm {other : List Declaration} (hp : other.Perm candidates)
    (h : IsMeant other line d) : IsMeant candidates line d where
  mem := hp.mem_iff.mp h.mem
  around c hc := h.around c (hp.mem_iff.mpr hc)
  before hout c hc := h.before (fun c hc => hout c (hp.mem_iff.mp hc)) c (hp.mem_iff.mpr hc)
  behind hlater c hc := h.behind (fun c hc => hlater c (hp.mem_iff.mp hc)) c (hp.mem_iff.mpr hc)

theorem IsMeant.first_eq {d' : Declaration} (h : IsMeant candidates line d)
    (h' : IsMeant candidates line d') : d.lines.first = d'.lines.first := by
  by_cases hin : ∃ c ∈ candidates, c.lines.contains line = true
  · obtain ⟨c, hc, hcon⟩ := hin
    have hd := (h.around c hc hcon).1
    have hd' := (h'.around c hc hcon).1
    have := (h.around d' h'.mem hd').2
    have := (h'.around d h.mem hd).2
    omega
  · have hout : ∀ c ∈ candidates, c.lines.contains line = false := by simpa using hin
    by_cases hle : ∃ c ∈ candidates, c.lines.first ≤ line
    · obtain ⟨c, hc, hle⟩ := hle
      have hd := (h.before hout c hc hle).1
      have hd' := (h'.before hout c hc hle).1
      have := (h.before hout d' h'.mem hd').2
      have := (h'.before hout d h.mem hd).2
      omega
    · have hlater : ∀ c ∈ candidates, line < c.lines.first := by simpa using hle
      have := h.behind hlater d' h'.mem
      have := h'.behind hlater d h.mem
      omega

theorem choose_eq_none_iff : choose candidates line = none ↔ candidates = [] := by
  constructor
  · intro h
    by_contra hne
    obtain ⟨d, hd⟩ : ∃ d, choose candidates line = some d := Dependency.choose_isSome hne
    simp [h] at hd
  · intro h
    subst h
    simp [choose, byFirstLine]

/-- Some candidate is chosen unless there is none, what is chosen is what the call means, and where
no two candidates start on one line their order does not matter. -/
theorem choose_isMeant (candidates : List Declaration) (line : Int) :
    (choose candidates line = none ↔ candidates = []) ∧
    (∀ d, choose candidates line = some d → IsMeant candidates line d) ∧
    ∀ other, other.Perm candidates → (candidates.map (·.lines.first)).Nodup →
      choose other line = choose candidates line := by
  refine ⟨choose_eq_none_iff, fun d h => isMeant_of_choose h, ?_⟩
  intro other hp hdistinct
  cases hc : choose candidates line with
  | none =>
    rw [choose_eq_none_iff] at *
    subst candidates
    exact hp.eq_nil
  | some d =>
    cases ho : choose other line with
    | none =>
      have := choose_eq_none_iff.mp ho
      subst this
      simp [hp.symm.eq_nil, choose_eq_none_iff.mpr] at hc
    | some d' =>
      have h := isMeant_of_choose hc
      have h' := (isMeant_of_choose ho).of_perm hp
      rw [List.inj_on_of_nodup_map hdistinct h'.mem h.mem (h'.first_eq h)]

def nested : List Declaration := [⟨"f", ⟨10, 20⟩⟩, ⟨"f", ⟨12, 14⟩⟩, ⟨"f", ⟨3, 16⟩⟩, ⟨"f", ⟨30, 31⟩⟩]

theorem choose_isMeant_nested :
    nested.reverse.Perm nested ∧ (nested.map (·.lines.first)).Nodup ∧
    choose nested.reverse 13 = choose nested 13 ∧ choose nested.reverse 25 = choose nested 25 ∧
    IsMeant nested 13 ⟨"f", ⟨3, 16⟩⟩ ∧ IsMeant nested 25 ⟨"f", ⟨12, 14⟩⟩ := by
  have hp : nested.reverse.Perm nested := List.reverse_perm nested
  have hn : (nested.map (·.lines.first)).Nodup := by decide
  have sorted : byFirstLine nested = [⟨"f", ⟨3, 16⟩⟩, ⟨"f", ⟨10, 20⟩⟩, ⟨"f", ⟨12, 14⟩⟩,
      ⟨"f", ⟨30, 31⟩⟩] := by
    simp [byFirstLine, nested, List.mergeSort, List.MergeSort.Internal.splitInTwo]
  have around :
      choose nested 13 = some ⟨"f", ⟨3, 16⟩⟩ := by simp [choose, sorted, LineRange.contains]
  have before :
      choose nested 25 = some ⟨"f", ⟨12, 14⟩⟩ := by simp [choose, sorted, LineRange.contains]
  obtain ⟨-, inside, order⟩ := choose_isMeant nested 13
  obtain ⟨-, between, order'⟩ := choose_isMeant nested 25
  exact ⟨hp, hn, order _ hp hn, order' _ hp hn, inside _ around, between _ before⟩

end EndpointAtlas.Declaration
