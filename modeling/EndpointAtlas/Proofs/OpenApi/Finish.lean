import EndpointAtlas.Proofs.Json.Alike
import EndpointAtlas.Proofs.OpenApi.Merge

set_option autoImplicit false

namespace EndpointAtlas.Document

variable {paths : Paths}

theorem get?_withoutWildcards (paths : Paths) (route : String) :
    (withoutWildcards paths).get? route = if route ∈ wildcards then none else paths.get? route := by
  simp only [withoutWildcards, wildcards, List.foldl_cons, List.foldl_nil, Entries.get?_erase,
    List.mem_cons, List.not_mem_nil, or_false, eq_comm (a := route)]
  by_cases hs : "*" = route
  · simp [hs]
  · simp [hs]

theorem rekeyAll_of_braced (h : Braced paths) : rekeyAll paths = paths := by
  have same : ∀ names : List String, (∀ name ∈ names, Route.normalize name = name) →
      names.foldl rekey paths = paths := by
    intro names hn
    induction names with
    | nil => rfl
    | cons name rest ih =>
      obtain ⟨first, hn⟩ := List.forall_mem_cons.1 hn
      have stays : rekey paths name = paths := by rw [rekey, if_pos first]
      rw [List.foldl_cons, stays, ih hn]
  exact same paths.keys fun name hm => h name (Entries.get?_isSome_iff.2 hm)

theorem operation?_changeAt (paths : Paths) (path key : String) (change : Json → Json)
    (route method : String) :
    operation? (changeAt paths path key change) route method =
      if path = route ∧ key = method then (operation? paths route method).map change
      else operation? paths route method := by
  unfold changeAt
  cases hi : paths.get? path with
  | none =>
    by_cases hp : path = route
    · subst hp
      simp [operation?, hi]
    · simp [hp]
  | some item =>
    cases ho : Entries.get? key item with
    | none =>
      by_cases hp : path = route ∧ key = method
      · obtain ⟨rfl, rfl⟩ := hp
        simp [operation?, hi, ho]
      · simp [ho, hp]
    | some operation =>
      simp only [ho, operation?, Entries.get?_put]
      by_cases hp : path = route
      · subst hp
        by_cases hk : key = method
        · subst hk
          simp [hi, ho, Entries.get?_put]
        · simp [hk, hi, Entries.get?_put]
      · simp [hp]

theorem isSome_get?_changeAt (paths : Paths) (path key : String) (change : Json → Json)
    (route : String) :
    ((changeAt paths path key change).get? route).isSome = (paths.get? route).isSome := by
  unfold changeAt
  split
  · rename_i item hi
    split
    · rw [Entries.get?_put]
      split
      · rename_i h
        rw [← h, hi]
        rfl
      · rfl
    · rfl
  · rfl

theorem operation?_withoutWildcards (paths : Paths) (route method : String) :
    operation? (withoutWildcards paths) route method =
      if route ∈ wildcards then none else operation? paths route method := by
  rw [operation?, get?_withoutWildcards]
  split <;> rfl

/-- What the last pass makes of the operation at a path and a method. -/
def mended (route method : String) (operation : Json) : Except BareOperation Json :=
  if route = "/{name}" ∧ method = "post" then repairCreate operation
  else if route = "/{name}" ∧ method = "get" then .ok (repairRead operation)
  else if route = "/{name}/{id}" ∧ method = "delete" then .ok (repairRemove operation)
  else .ok operation

theorem operation?_repaired {created : Json}
    (h : ∀ operation, operation? paths "/{name}" "post" = some operation →
      repairCreate operation = .ok created) (route method : String) :
    (operation? (changeAt (changeAt (changeAt paths "/{name}" "post" fun _ => created)
      "/{name}" "get" repairRead) "/{name}/{id}" "delete" repairRemove) route method).map .ok =
      (operation? paths route method).map (mended route method) := by
  simp only [operation?_changeAt]
  cases ho : operation? paths route method with
  | none => simp
  | some operation =>
    by_cases post : route = "/{name}" ∧ method = "post"
    · obtain ⟨rfl, rfl⟩ := post
      simp [mended, h operation ho]
    · by_cases get : route = "/{name}" ∧ method = "get"
      · obtain ⟨rfl, rfl⟩ := get
        simp [mended]
      · by_cases delete : route = "/{name}/{id}" ∧ method = "delete"
        · obtain ⟨rfl, rfl⟩ := delete
          simp [mended]
        · simp [mended, post, get, delete, eq_comm (b := route), eq_comm (b := method)]

theorem changeAt_of_none {path method : String} (h : operation? paths path method = none)
    (change : Json → Json) : changeAt paths path method change = paths := by
  unfold changeAt
  unfold operation? at h
  split
  · rename_i item hi
    rw [hi, Option.bind_some] at h
    rw [h]
  · rfl

/-- How a document that has gone through the last pass stands to the one before. -/
structure Finished (document final : Document) : Prop where
  head : final.head = document.head
  generatedAt : final.generatedAt = document.generatedAt
  paths : ∀ route, (final.paths.get? route).isSome =
    (decide (route ∉ wildcards) && (document.paths.get? route).isSome)
  operations : ∀ route method, (operation? final.paths route method).map .ok =
    if route ∈ wildcards then none
    else (operation? document.paths route method).map (mended route method)

inductive Finishes (document : Document) : Except BareOperation Document → Prop where
  | done (final : Document) (finished : Finished document final) : Finishes document (.ok final)
  | bare (operation : Json) (cause : BareOperation)
      (there : operation? document.paths "/{name}" "post" = some operation)
      (fails : repairCreate operation = .error cause) : Finishes document (.error cause)

theorem finished_repaired (document : Document) {created : Json}
    (h : ∀ operation, operation? document.paths "/{name}" "post" = some operation →
      repairCreate operation = .ok created) :
    Finished document { document with
      paths := changeAt (changeAt (changeAt (withoutWildcards document.paths) "/{name}" "post"
        fun _ => created) "/{name}" "get" repairRead) "/{name}/{id}" "delete" repairRemove } where
  head := rfl
  generatedAt := rfl
  paths route := by
    simp only [isSome_get?_changeAt, get?_withoutWildcards]
    split <;> simp_all
  operations route method := by
    rw [operation?_repaired, operation?_withoutWildcards]
    · split <;> rfl
    · intro operation ho
      rw [operation?_withoutWildcards, if_neg (by decide)] at ho
      exact h operation ho

theorem finishes_finish {document : Document} (h : Braced document.paths) :
    Finishes document document.finish := by
  have kept : Braced (withoutWildcards document.paths) := by
    intro path hp
    rw [get?_withoutWildcards] at hp
    split at hp
    · cases hp
    · exact h path hp
  have same : operation? (withoutWildcards document.paths) "/{name}" "post" =
      operation? document.paths "/{name}" "post" := by
    rw [operation?_withoutWildcards, if_neg (by decide)]
  rw [finish, rekeyAll_of_braced kept, same]
  cases hc : operation? document.paths "/{name}" "post" with
  | none =>
    have none : ∀ operation, operation? document.paths "/{name}" "post" = some operation →
        repairCreate operation = .ok .null := by simp [hc]
    have finished := finished_repaired document none
    rw [changeAt_of_none (same.trans hc)] at finished
    exact .done _ finished
  | some operation =>
    cases hr : repairCreate operation with
    | error cause =>
      simp only [hr]
      exact .bare operation cause hc hr
    | ok created =>
      simp only [hr]
      refine .done _ (finished_repaired document fun other ho => ?_)
      rw [← Option.some.inj (hc.symm.trans ho), hr]

end EndpointAtlas.Document
