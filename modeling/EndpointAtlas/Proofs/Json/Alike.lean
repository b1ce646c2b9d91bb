import EndpointAtlas.Json.Value
import EndpointAtlas.Proofs.Json.Entries
import Mathlib.Data.List.Forall2

set_option autoImplicit false

namespace EndpointAtlas.Json

/-- Equality up to the order of the fields of objects. -/
inductive Alike : Json → Json → Prop where
  | refl (value : Json) : Alike value value
  | list {first second : List Json} (lengths : first.length = second.length)
      (items : ∀ (i : Nat) (a b : Json), first[i]? = some a → second[i]? = some b → Alike a b) :
      Alike (.list first) (.list second)
  | object {first second : Entries Json}
      (names : ∀ name, (first.get? name).isSome = (second.get? name).isSome)
      (values : ∀ (name : String) (a b : Json), first.get? name = some a →
        second.get? name = some b → Alike a b) :
      Alike (.object first) (.object second)

theorem Alike.symm {a b : Json} (h : Alike a b) : Alike b a := by
  induction h with
  | refl value => exact .refl value
  | list lengths items ih => exact .list lengths.symm fun i b a hb ha => ih i a b ha hb
  | object names values ih =>
    exact .object (fun name => (names name).symm) fun name b a hb ha => ih name a b ha hb

theorem Alike.trans {a b c : Json} (h : Alike a b) (k : Alike b c) : Alike a c := by
  induction h generalizing c with
  | refl value => exact k
  | @list first second lengths items ih =>
    cases k with
    | refl => exact .list lengths items
    | @list _ third lengths' items' =>
      refine .list (lengths.trans lengths') fun i a c ha hc => ?_
      have hi : i < second.length := lengths ▸ (List.getElem?_eq_some_iff.1 ha).1
      have hb := List.getElem?_eq_getElem hi
      exact ih i a _ ha hb (items' i _ c hb hc)
  | @object first second names values ih =>
    cases k with
    | refl => exact .object names values
    | object names' values' =>
      refine .object (fun name => (names name).trans (names' name)) fun name a c ha hc => ?_
      obtain ⟨b, hb⟩ : ∃ b, second.get? name = some b := by
        rw [← Option.isSome_iff_exists, ← names name, ha]
        rfl
      exact ih name a b ha hb (values' name b c hb hc)

/-- Do two lists of fields give each name alike values? -/
def FieldsAlike (first second : Entries Json) : Prop :=
  ∀ name, Option.Rel Alike (first.get? name) (second.get? name)

theorem optionRel_iff {a b : Option Json} : Option.Rel Alike a b ↔
    a.isSome = b.isSome ∧ ∀ v w, a = some v → b = some w → Alike v w := by
  constructor
  · rintro (⟨h⟩ | _)
    · exact ⟨rfl, fun v w hv hw => Option.some.inj hv ▸ Option.some.inj hw ▸ h⟩
    · exact ⟨rfl, fun v w hv => nomatch hv⟩
  · rintro ⟨hs, h⟩
    cases a <;> cases b
    · exact .none
    · cases hs
    · cases hs
    · exact .some (h _ _ rfl rfl)

theorem optionRel_refl (value : Option Json) : Option.Rel Alike value value :=
  optionRel_iff.2 ⟨rfl, fun v _ hv hw => Option.some.inj (hv.symm.trans hw) ▸ .refl v⟩

theorem alike_object_iff {first second : Entries Json} :
    Alike (.object first) (.object second) ↔ FieldsAlike first second := by
  simp only [FieldsAlike, optionRel_iff, forall_and]
  constructor
  · rintro (_ | _ | ⟨names, values⟩)
    · exact ⟨fun _ => rfl, fun name v w hv hw => Option.some.inj (hv.symm.trans hw) ▸ .refl v⟩
    · exact ⟨names, values⟩
  · exact fun h => .object h.1 h.2

theorem alike_list_iff {first second : List Json} :
    Alike (.list first) (.list second) ↔ List.Forall₂ Alike first second := by
  rw [List.forall₂_iff_get]
  constructor
  · rintro (_ | ⟨lengths, items⟩ | _)
    · exact ⟨rfl, fun i _ _ => .refl _⟩
    · exact ⟨lengths, fun i hi hj =>
        items i _ _ (List.getElem?_eq_getElem hi) (List.getElem?_eq_getElem hj)⟩
  · rintro ⟨lengths, items⟩
    refine .list lengths fun i a b ha hb => ?_
    obtain ⟨hi, rfl⟩ := List.getElem?_eq_some_iff.1 ha
    obtain ⟨hj, rfl⟩ := List.getElem?_eq_some_iff.1 hb
    exact items i hi hj

namespace FieldsAlike

theorem refl (fields : Entries Json) : FieldsAlike fields fields :=
  fun name => optionRel_refl (fields.get? name)

variable {first second : Entries Json}

theorem put (h : FieldsAlike first second) (name : String) {a b : Json} (value : Alike a b) :
    FieldsAlike (first.put name a) (second.put name b) := by
  intro other
  rw [Entries.get?_put, Entries.get?_put]
  split
  · exact .some value
  · exact h other

theorem erase (h : FieldsAlike first second) (name : String) :
    FieldsAlike (first.erase name) (second.erase name) := by
  intro other
  rw [Entries.get?_erase, Entries.get?_erase]
  split
  · exact .none
  · exact h other

end FieldsAlike

theorem Alike.fields? {a b : Json} (h : Alike a b) :
    Option.Rel FieldsAlike a.fields? b.fields? := by
  cases h with
  | refl =>
    cases a with
    | object fields => exact .some (.refl fields)
    | _ => exact .none
  | list => exact .none
  | object names values => exact .some (alike_object_iff.1 (.object names values))

theorem Alike.field? {a b : Json} (h : Alike a b) (name : String) :
    Option.Rel Alike (a.field? name) (b.field? name) := by
  have := h.fields?
  unfold Json.field?
  revert this
  generalize a.fields? = first
  generalize b.fields? = second
  rintro (h | _)
  · exact h name
  · exact .none

end EndpointAtlas.Json
