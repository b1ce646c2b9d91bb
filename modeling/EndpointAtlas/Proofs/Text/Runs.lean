import Mathlib.Data.List.TakeWhile

set_option autoImplicit false

namespace EndpointAtlas.Text

variable {p : Char → Bool} {s t : List Char}

theorem dropWhile_append_stop (hs : ∀ c ∈ s, p c = true) (ht : ∀ c ∈ t.head?, p c = false) :
    (s ++ t).dropWhile p = t := by
  rw [List.dropWhile_append_of_pos hs]
  cases t with
  | nil => rfl
  | cons c t => simp [ht c rfl]

theorem takeWhile_append_stop (hs : ∀ c ∈ s, p c = true) (ht : ∀ c ∈ t.head?, p c = false) :
    (s ++ t).takeWhile p = s := by
  rw [List.takeWhile_append_of_pos hs]
  cases t with
  | nil => simp
  | cons c t => simp [ht c rfl]

theorem ne_of_not_mem {c : Char} (h : c ∉ s) : ∀ d ∈ s, decide (d ≠ c) = true := by
  intro d hd
  simp only [ne_eq, decide_not, Bool.not_eq_true', decide_eq_false_iff_not]
  intro same
  exact h (same ▸ hd)

theorem append_cons_inj_of_first {c : Char} {s' t' : List Char} (hs : c ∉ s) (hs' : c ∉ s')
    (h : s ++ c :: t = s' ++ c :: t') : s = s' ∧ t = t' := by
  have run := congrArg (List.takeWhile fun d => decide (d ≠ c)) h
  have rest := congrArg (List.dropWhile fun d => decide (d ≠ c)) h
  rw [takeWhile_append_stop (ne_of_not_mem hs) (by simp),
    takeWhile_append_stop (ne_of_not_mem hs') (by simp)] at run
  rw [dropWhile_append_stop (ne_of_not_mem hs) (by simp),
    dropWhile_append_stop (ne_of_not_mem hs') (by simp)] at rest
  exact ⟨run, (List.cons.inj rest).2⟩

theorem exists_run (p : Char → Bool) (s : List Char) :
    ∃ run rest, s = run ++ rest ∧ (∀ c ∈ run, p c = true) ∧ ∀ c ∈ rest.head?, p c = false := by
  refine ⟨s.takeWhile p, s.dropWhile p, List.takeWhile_append_dropWhile.symm, fun c =>
    List.mem_takeWhile_imp, fun c hc => ?_⟩
  have stops := List.head?_dropWhile_not p s
  rw [Option.mem_def.1 hc] at stops
  exact stops

end EndpointAtlas.Text
