import EndpointAtlas.Text.Units

set_option autoImplicit false

namespace EndpointAtlas.Text

theorem unitsBefore_cons (a b : Nat) (s t : List Nat) :
    unitsBefore (a :: s) (b :: t) = true ↔ a < b ∨ a = b ∧ unitsBefore s t = true := by
  simp [unitsBefore]

theorem unitsBefore_total (s t : List Nat) : unitsBefore s t = true ∨ unitsBefore t s = true := by
  induction s generalizing t with
  | nil => exact .inl rfl
  | cons a s ih =>
    cases t with
    | nil => exact .inr rfl
    | cons b t =>
      rw [unitsBefore_cons, unitsBefore_cons]
      rcases Nat.lt_trichotomy a b with hab | rfl | hba
      · exact .inl (.inl hab)
      · exact (ih t).imp (fun h => .inr ⟨rfl, h⟩) (fun h => .inr ⟨rfl, h⟩)
      · exact .inr (.inl hba)

theorem unitsBefore_trans {s t u : List Nat} (hst : unitsBefore s t = true)
    (htu : unitsBefore t u = true) : unitsBefore s u = true := by
  induction s generalizing t u with
  | nil => rfl
  | cons a s ih =>
    cases t with
    | nil => cases hst
    | cons b t =>
      cases u with
      | nil => cases htu
      | cons c u =>
        rw [unitsBefore_cons] at *
        rcases hst with hab | ⟨rfl, hst⟩
        · exact .inl (by omega)
        · rcases htu with hac | ⟨rfl, htu⟩
          · exact .inl hac
          · exact .inr ⟨rfl, ih hst htu⟩

theorem unitsBefore_antisymm {s t : List Nat} (hst : unitsBefore s t = true)
    (hts : unitsBefore t s = true) : s = t := by
  induction s generalizing t with
  | nil =>
    cases t with
    | nil => rfl
    | cons b t => cases hts
  | cons a s ih =>
    cases t with
    | nil => cases hst
    | cons b t =>
      rw [unitsBefore_cons] at hst hts
      rcases hst with hab | ⟨rfl, hst⟩
      · rcases hts with hba | ⟨rfl, -⟩ <;> omega
      · rcases hts with haa | ⟨-, hts⟩
        · omega
        · rw [ih hst hts]

theorem toNat_cases (c : Char) :
    (c.toNat < 0xD800 ∨ (0xDFFF < c.toNat ∧ c.toNat < 0x10000)) ∨
      (0x10000 ≤ c.toNat ∧ c.toNat < 0x110000) := by
  rcases c.valid with h | ⟨h, hu⟩
  · exact .inl (.inl h)
  · by_cases hs : c.toNat < 0x10000
    · exact .inl (.inr ⟨h, hs⟩)
    · exact .inr ⟨by omega, hu⟩

theorem unitsOf_ne_nil (c : Char) : unitsOf c ≠ [] := by
  unfold unitsOf
  split <;> simp

theorem unitsOf_append_inj {c d : Char} {s t : List Nat} (h : unitsOf c ++ s = unitsOf d ++ t) :
    c = d ∧ s = t := by
  have hc := toNat_cases c
  have hd := toNat_cases d
  unfold unitsOf at h
  split at h <;> split at h <;>
    simp only [List.cons_append, List.nil_append, List.cons.injEq] at h
  · exact ⟨Char.toNat_inj.1 h.1, h.2⟩
  · omega
  · omega
  · obtain ⟨hhigh, hlow, hs⟩ := h
    exact ⟨Char.toNat_inj.1 (by omega), hs⟩

theorem units_inj {s t : List Char} (h : s.flatMap unitsOf = t.flatMap unitsOf) : s = t := by
  induction s generalizing t with
  | nil =>
    cases t with
    | nil => rfl
    | cons d t => simp [unitsOf_ne_nil] at h
  | cons c s ih =>
    cases t with
    | nil => simp [unitsOf_ne_nil] at h
    | cons d t =>
      obtain ⟨rfl, hr⟩ := unitsOf_append_inj h
      rw [ih hr]

theorem atMost_total (s t : String) : atMost s t = true ∨ atMost t s = true :=
  unitsBefore_total _ _

theorem atMost_trans {s t u : String} (hst : atMost s t = true) (htu : atMost t u = true) :
    atMost s u = true := unitsBefore_trans hst htu

theorem atMost_antisymm {s t : String} (hst : atMost s t = true) (hts : atMost t s = true) :
    s = t := String.toList_inj.1 (units_inj (unitsBefore_antisymm hst hts))

theorem sorted_perm (names : List String) : (sorted names).Perm names :=
  List.mergeSort_perm names atMost

theorem pairwise_sorted (names : List String) :
    (sorted names).Pairwise fun earlier later => atMost earlier later = true := by
  have htrans : ∀ s t u, atMost s t = true → atMost t u = true → atMost s u = true :=
    fun _ _ _ => atMost_trans
  have htotal : ∀ s t, (atMost s t || atMost t s) = true := fun s t => by
    rw [Bool.or_eq_true]
    exact atMost_total s t
  exact List.pairwise_mergeSort htrans htotal names

end EndpointAtlas.Text
