import EndpointAtlas.Json.Entries

set_option autoImplicit false

namespace EndpointAtlas.Entries

variable {α : Type}

/-! ### Names -/

theorem mem_keys_replace {name other : String} {value : α} {entries : Entries α} :
    other ∈ (entries.replace name value).keys ↔ other ∈ entries.keys := by
  induction entries with
  | nil => rfl
  | cons entry rest ih =>
    obtain ⟨key, old⟩ := entry
    simp only [keys] at ih
    rw [replace]
    split <;> simp_all [keys]

theorem mem_keys_insertNew {name other : String} {value : α} {entries : Entries α} :
    other ∈ (entries.insertNew name value).keys ↔ other = name ∨ other ∈ entries.keys := by
  induction entries with
  | nil => simp [insertNew, keys]
  | cons entry rest ih =>
    obtain ⟨key, old⟩ := entry
    simp only [keys] at ih
    rw [insertNew]
    split
    · simp [keys]
    · simp [keys, ih, or_left_comm]

theorem get?_isSome_iff {name : String} {entries : Entries α} :
    (entries.get? name).isSome = true ↔ name ∈ entries.keys := by
  induction entries with
  | nil => simp [get?, keys]
  | cons entry rest ih =>
    obtain ⟨key, old⟩ := entry
    simp only [keys] at ih
    by_cases hk : key = name
    · simp [get?, keys, hk]
    · simp [get?, keys, hk, ih, Ne.symm hk]

theorem nodup_keys_replace {name : String} {value : α} {entries : Entries α}
    (h : entries.keys.Nodup) : (entries.replace name value).keys.Nodup := by
  induction entries with
  | nil => exact h
  | cons entry rest ih =>
    obtain ⟨key, old⟩ := entry
    obtain ⟨hk, hr⟩ := List.nodup_cons.1 h
    rw [replace]
    split
    · exact List.nodup_cons.2 ⟨hk, hr⟩
    · exact List.nodup_cons.2 ⟨fun hm => hk (mem_keys_replace.1 hm), ih hr⟩

theorem nodup_keys_insertNew {name : String} {value : α} {entries : Entries α}
    (h : entries.keys.Nodup) (new : name ∉ entries.keys) :
    (entries.insertNew name value).keys.Nodup := by
  induction entries with
  | nil => simp [insertNew, keys]
  | cons entry rest ih =>
    obtain ⟨key, old⟩ := entry
    obtain ⟨hk, hr⟩ := List.nodup_cons.1 h
    rw [insertNew]
    split
    · exact List.nodup_cons.2 ⟨new, h⟩
    · refine List.nodup_cons.2 ⟨fun hm => ?_, ih hr fun hm => new (List.mem_cons_of_mem _ hm)⟩
      rcases mem_keys_insertNew.1 hm with rfl | hm
      · exact new List.mem_cons_self
      · exact hk hm

theorem nodup_keys_put {name : String} {value : α} {entries : Entries α} (h : entries.keys.Nodup) :
    (entries.put name value).keys.Nodup := by
  unfold put
  split
  · exact nodup_keys_replace h
  · rename_i hs
    exact nodup_keys_insertNew h fun hm => hs (get?_isSome_iff.2 hm)

theorem keys_put {name : String} (value : α) {entries : Entries α}
    (h : (entries.get? name).isSome = true) : (entries.put name value).keys = entries.keys := by
  rw [put, if_pos h]
  clear h
  induction entries with
  | nil => rfl
  | cons entry rest ih =>
    obtain ⟨key, old⟩ := entry
    rw [replace]
    split
    · rfl
    · exact congrArg (key :: ·) ih

theorem nodup_keys_putAll {entries : Entries α} (added : Entries α) (h : entries.keys.Nodup) :
    (entries.putAll added).keys.Nodup := by
  induction added generalizing entries with
  | nil => exact h
  | cons entry rest ih => exact ih (nodup_keys_put h)

theorem keys_erase (name : String) (entries : Entries α) :
    (entries.erase name).keys = entries.keys.filter (· ≠ name) := by
  rw [keys, erase, keys, List.filter_map]
  rfl

theorem nodup_keys_erase (name : String) {entries : Entries α} (h : entries.keys.Nodup) :
    (entries.erase name).keys.Nodup := by
  rw [keys_erase]
  exact h.filter _

theorem erase_of_not_mem {name : String} {entries : Entries α} (h : name ∉ entries.keys) :
    entries.erase name = entries := by
  refine List.filter_eq_self.2 fun entry he => ?_
  simpa using fun same : entry.1 = name => h (same ▸ List.mem_map_of_mem he)

theorem erase_eq_self_iff {name : String} {entries : Entries α} :
    entries.erase name = entries ↔ name ∉ entries.keys := by
  refine ⟨fun same there => ?_, erase_of_not_mem⟩
  rw [← same, keys_erase] at there
  simpa using (List.mem_filter.1 there).2

/-! ### Entries -/

theorem mem_of_get? {name : String} {value : α} {entries : Entries α}
    (h : entries.get? name = some value) : (name, value) ∈ entries := by
  induction entries with
  | nil => cases h
  | cons entry rest ih =>
    obtain ⟨key, old⟩ := entry
    rw [get?] at h
    split at h
    · rename_i same
      rw [same, Option.some.inj h]
      exact List.mem_cons_self
    · exact List.mem_cons_of_mem _ (ih h)

theorem getD_get? {P : α → Prop} {entries : Entries α} {other : α}
    (h : ∀ entry ∈ entries, P entry.2) (none : P other)
    (name : String) : P ((entries.get? name).getD other) := by
  cases there : entries.get? name with
  | none => exact none
  | some value => exact h _ (mem_of_get? there)

theorem mem_replace {name : String} {value : α} {entries : Entries α} {entry : String × α}
    (h : entry ∈ entries.replace name value) : entry = (name, value) ∨ entry ∈ entries := by
  induction entries with
  | nil => cases h
  | cons first rest ih =>
    obtain ⟨key, old⟩ := first
    rw [replace] at h
    split at h
    · rename_i same
      rw [same] at h
      exact (List.mem_cons.1 h).imp_right (List.mem_cons_of_mem _)
    · rcases List.mem_cons.1 h with rfl | h
      · exact .inr List.mem_cons_self
      · exact (ih h).imp_right (List.mem_cons_of_mem _)

theorem mem_insertNew {name : String} {value : α} {entries : Entries α} {entry : String × α}
    (h : entry ∈ entries.insertNew name value) : entry = (name, value) ∨ entry ∈ entries := by
  induction entries with
  | nil => exact .inl (List.mem_singleton.1 h)
  | cons first rest ih =>
    obtain ⟨key, old⟩ := first
    rw [insertNew] at h
    split at h
    · exact List.mem_cons.1 h
    · rcases List.mem_cons.1 h with rfl | h
      · exact .inr List.mem_cons_self
      · exact (ih h).imp_right (List.mem_cons_of_mem _)

theorem mem_put {name : String} {value : α} {entries : Entries α} {entry : String × α}
    (h : entry ∈ entries.put name value) : entry = (name, value) ∨ entry ∈ entries := by
  unfold put at h
  split at h
  · exact mem_replace h
  · exact mem_insertNew h

theorem mem_putAll {entries added : Entries α} {entry : String × α}
    (h : entry ∈ entries.putAll added) : entry ∈ added ∨ entry ∈ entries := by
  induction added generalizing entries with
  | nil => exact .inr h
  | cons first rest ih =>
    rcases ih h with later | there
    · exact .inl (List.mem_cons_of_mem _ later)
    · rcases mem_put there with rfl | there
      · exact .inl List.mem_cons_self
      · exact .inr there

/-! ### Values -/

def values (name : String) (entries : Entries α) : List α :=
  entries.filterMap fun entry => if entry.1 = name then some entry.2 else none

theorem values_cons (name key : String) (value : α) (rest : Entries α) :
    values name ((key, value) :: rest) = (if key = name then [value] else []) ++
    values name rest := by
  by_cases hk : key = name <;> simp [values, hk]

theorem get?_putAll (entries added : Entries α) (name : String) :
    (entries.putAll added).get? name = (values name added).getLast?.or (entries.get? name) := by
  induction added generalizing entries with
  | nil => rfl
  | cons entry rest ih =>
    obtain ⟨key, value⟩ := entry
    rw [putAll, List.foldl_cons]
    refine (ih _).trans ?_
    rw [get?_put, values_cons, List.getLast?_append, Option.or_assoc]
    by_cases hk : key = name <;> simp [hk]

theorem getLast?_values {entries : Entries α} (h : entries.keys.Nodup) (name : String) :
    (values name entries).getLast? = entries.get? name := by
  induction entries with
  | nil => rfl
  | cons entry rest ih =>
    obtain ⟨key, value⟩ := entry
    obtain ⟨hk, hr⟩ := List.nodup_cons.1 h
    rw [values_cons, get?]
    split
    · rename_i same
      subst same
      have none : get? key rest = none := by
        rw [← Option.not_isSome_iff_eq_none, get?_isSome_iff]
        exact hk
      rw [List.getLast?_append, ih hr, none]
      rfl
    · exact ih hr

theorem put_of_get? {name : String} {value : α} {entries : Entries α}
    (h : entries.get? name = some value) : entries.put name value = entries := by
  rw [put, if_pos (by rw [h]; rfl)]
  induction entries with
  | nil => rfl
  | cons entry rest ih =>
    obtain ⟨key, old⟩ := entry
    rw [get?] at h
    rw [replace]
    split at h
    · rename_i same
      rw [if_pos same, Option.some.inj h]
    · rename_i other
      rw [if_neg other, ih h]

theorem erase_cons (name key : String) (value : α) (rest : Entries α) :
    erase name ((key, value) :: rest) =
      if key = name then erase name rest else (key, value) :: erase name rest := by
  by_cases same : key = name <;> simp [erase, same]

theorem erase_replace (name : String) (value : α) (entries : Entries α) :
    (entries.replace name value).erase name = entries.erase name := by
  induction entries with
  | nil => rfl
  | cons entry rest ih =>
    obtain ⟨key, old⟩ := entry
    rw [replace]
    split
    · rename_i same
      rw [erase_cons, erase_cons, if_pos same, if_pos same]
    · rw [erase_cons, erase_cons, ih]

theorem erase_insertNew (name : String) (value : α) (entries : Entries α) :
    (entries.insertNew name value).erase name = entries.erase name := by
  induction entries with
  | nil => simp [insertNew, erase]
  | cons entry rest ih =>
    obtain ⟨key, old⟩ := entry
    rw [insertNew]
    split
    · rw [erase_cons, if_pos rfl]
    · rw [erase_cons, erase_cons, ih]

theorem erase_put (name : String) (value : α) (entries : Entries α) :
    (entries.put name value).erase name = entries.erase name := by
  unfold put
  split
  · exact erase_replace name value entries
  · exact erase_insertNew name value entries

theorem get?_map {β : Type} (f : α → β) (entries : Entries α) (name : String) :
    get? name (entries.map fun entry => (entry.1, f entry.2)) = (entries.get? name).map f := by
  induction entries with
  | nil => rfl
  | cons entry rest ih =>
    obtain ⟨key, value⟩ := entry
    by_cases hk : key = name <;> simp [get?, hk, ih]

theorem map_eq_self_iff {f : α → α} {entries : Entries α} :
    (entries.map fun (name, value) => (name, f value)) = entries ↔
    ∀ entry ∈ entries, f entry.2 = entry.2 := by
  induction entries with
  | nil => simp
  | cons entry rest ih =>
    rw [List.map_cons, List.cons.injEq, ih, List.forall_mem_cons, Prod.ext_iff]
    simp

/-! ### Entries in order -/

/-- Names as an object lists them: each once, and none that would be put before an earlier one. -/
def InOrder (names : List String) : Prop :=
  names.Pairwise fun earlier later => earlier ≠ later ∧ precedes later earlier = false

instance (names : List String) : Decidable (InOrder names) :=
  inferInstanceAs (Decidable (names.Pairwise _))

theorem insertNew_last {name : String} {entries : Entries α} (value : α)
    (h : ∀ entry ∈ entries, precedes name entry.1 = false) :
    entries.insertNew name value = entries ++ [(name, value)] := by
  induction entries with
  | nil => rfl
  | cons entry rest ih =>
    obtain ⟨key, old⟩ := entry
    rw [insertNew, h _ List.mem_cons_self, if_neg Bool.false_ne_true,
      ih fun other hm => h other (List.mem_cons_of_mem _ hm), List.cons_append]

theorem get?_eq_none {name : String} {entries : Entries α} (h : ∀ entry ∈ entries, entry.1 ≠ name) :
    entries.get? name = none := by
  induction entries with
  | nil => rfl
  | cons entry rest ih =>
    obtain ⟨key, old⟩ := entry
    rw [get?, if_neg (h _ List.mem_cons_self)]
    exact ih fun other hm => h other (List.mem_cons_of_mem _ hm)

theorem putAll_of_inOrder {entries added : Entries α}
    (h : InOrder ((entries ++ added).map Prod.fst)) : entries.putAll added = entries ++ added := by
  induction added generalizing entries with
  | nil => exact (List.append_nil entries).symm
  | cons entry rest ih =>
    obtain ⟨name, value⟩ := entry
    have hlast : ∀ other ∈ entries, other.1 ≠ name ∧ precedes name other.1 = false := by
      rw [InOrder, List.map_append, List.pairwise_append] at h
      exact fun other hm => h.2.2 other.1 (List.mem_map_of_mem hm) name List.mem_cons_self
    have hput : entries.put name value = entries ++ [(name, value)] := by
      rw [put, get?_eq_none fun other hm => (hlast other hm).1]
      exact insertNew_last value fun other hm => (hlast other hm).2
    rw [List.append_cons] at h
    rw [putAll, List.foldl_cons, hput]
    exact (ih h).trans (List.append_cons entries (name, value) rest).symm

theorem ofList_of_inOrder {fields : Entries α} (h : InOrder (fields.map Prod.fst)) :
    ofList fields = fields := putAll_of_inOrder h

end EndpointAtlas.Entries
