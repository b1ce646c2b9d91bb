import EndpointAtlas.Proofs.Text.Listing
import EndpointAtlas.Proofs.Text.Overwritten
import EndpointAtlas.Proofs.Text.Units

set_option autoImplicit false

namespace EndpointAtlas.Text

def encoded (s : List Char) : List Nat := s.flatMap unitsOf

@[simp] theorem encoded_nil : encoded [] = [] := rfl

@[simp] theorem encoded_cons (c : Char) (rest : List Char) :
    encoded (c :: rest) = unitsOf c ++ encoded rest := by
  simp [encoded]

@[simp] theorem encoded_append (s t : List Char) : encoded (s ++ t) = encoded s ++ encoded t := by
  simp [encoded]

@[simp] theorem length_unitsOf (c : Char) : (unitsOf c).length = width c := by
  unfold unitsOf width
  split <;> simp

@[simp] theorem length_encoded (s : List Char) : (encoded s).length = units s := by
  induction s with
  | nil => rfl
  | cons c rest ih => simp [ih]

def IsPlain (c : Char) : Prop := c.toNat < 0xD800

theorem IsPlain.unitsOf {c : Char} (plain : IsPlain c) : unitsOf c = [c.toNat] := by
  unfold IsPlain at plain
  rw [Text.unitsOf, if_pos (by omega)]

theorem IsPlain.width {c : Char} (plain : IsPlain c) : width c = 1 := by
  rw [← length_unitsOf, plain.unitsOf, List.length_singleton]

theorem IsPlain.eq_of_mem_unitsOf {c d : Char} (plain : IsPlain c)
    (h : c.toNat ∈ Text.unitsOf d) : c = d := by
  unfold IsPlain at plain
  unfold Text.unitsOf at h
  split at h
  · exact Char.toNat_inj.1 (List.mem_singleton.1 h)
  · simp only [List.mem_cons, List.not_mem_nil, or_false] at h
    omega

variable {c : Char}

theorem count_take_unitsOf (plain : IsPlain c) (d : Char) {n : Nat} (hn : n ≠ 0) :
    ((unitsOf d).take n).count c.toNat = if d = c then 1 else 0 := by
  by_cases same : d = c
  · subst same
    rw [plain.unitsOf, List.take_of_length_le (by simp; omega), if_pos rfl,
      List.count_singleton_self]
  · rw [if_neg same, List.count_eq_zero]
    intro h
    exact same (plain.eq_of_mem_unitsOf (List.mem_of_mem_take h)).symm

theorem count_take_encoded (plain : IsPlain c) (n : Nat) (s : List Char) :
    ((encoded s).take n).count c.toNat = (takeUnits n s).count c := by
  induction s generalizing n with
  | nil => simp [takeUnits]
  | cons d rest ih =>
    by_cases hn : n = 0
    · simp [takeUnits, hn]
    · rw [encoded_cons, List.take_append, List.count_append, count_take_unitsOf plain d hn,
        length_unitsOf, ih, takeUnits, if_neg hn, List.count_cons, Nat.add_comm]
      simp only [beq_iff_eq]

theorem getElem?_encoded_iff (plain : IsPlain c) (s : List Char) (i : Nat) :
    (encoded s)[i]? = some c.toNat ↔ ∃ front back, s = front ++ c :: back ∧ units front = i := by
  constructor
  · intro h
    induction s generalizing i with
    | nil => simp at h
    | cons d rest ih =>
      by_cases first : i < width d
      · rw [encoded_cons, List.getElem?_append_left (by simpa using first)] at h
        obtain rfl := plain.eq_of_mem_unitsOf (List.mem_of_getElem? h)
        rw [plain.width] at first
        exact ⟨[], rest, rfl, by simp; omega⟩
      · rw [encoded_cons, List.getElem?_append_right (by simpa using first), length_unitsOf] at h
        obtain ⟨front, back, rfl, hi⟩ := ih _ h
        exact ⟨d :: front, back, rfl, by rw [units_cons]; omega⟩
  · rintro ⟨front, back, rfl, rfl⟩
    rw [encoded_append, List.getElem?_append_right (by simp), length_encoded, Nat.sub_self,
      encoded_cons, plain.unitsOf]
    rfl

theorem drop_encoded (front back : List Char) :
    (encoded (front ++ back)).drop (units front) = encoded back := by
  rw [encoded_append, ← length_encoded, List.drop_left]

theorem getElem?_encoded_add (front back : List Char) (k : Nat) :
    (encoded (front ++ back))[units front + k]? = (encoded back)[k]? := by
  rw [← List.getElem?_drop, drop_encoded]

theorem getElem?_encoded_of_lt {front : List Char} {i : Nat} (h : i < units front)
    (back : List Char) : (encoded (front ++ back))[i]? = (encoded front)[i]? := by
  rw [encoded_append, List.getElem?_append_left (by simpa using h)]

end EndpointAtlas.Text
