import EndpointAtlas.OpenApi.Repair
import EndpointAtlas.Proofs.Json.Entries
import EndpointAtlas.Proofs.Route.Template

set_option autoImplicit false

namespace EndpointAtlas

namespace Fragment

/-- The operations that a fragment gives for a path and a method, however it spells the path, in
order. -/
def operations (fragment : Fragment) (route method : String) : List Json :=
  fragment.paths.flatMap fun (path, item) =>
    if Route.normalize path = route then Entries.values method item else []

/-- The operation that a fragment leaves at a path and a method. -/
def operation? (fragment : Fragment) (route method : String) : Option Json :=
  (fragment.operations route method).getLast?

def hasPath (fragment : Fragment) (route : String) : Bool :=
  fragment.paths.any fun entry => Route.normalize entry.1 = route

theorem hasPath_iff {fragment : Fragment} {route : String} :
    fragment.hasPath route = true ↔ ∃ path ∈ fragment.paths.keys, Route.normalize path = route := by
  simp [hasPath, Entries.keys]

end Fragment

namespace Document

/-- Gives a path operations as if no name meant anything but itself. -/
def addPath (paths : Paths) (path : String) (item : PathItem) : Paths :=
  let route := Route.normalize path
  paths.put route (((paths.get? route).getD []).putAll item)

def add (document : Document) (fragment : Fragment) : Document :=
  { document with
    paths :=
      fragment.paths.foldl (fun paths entry => addPath paths entry.1 entry.2) document.paths }

variable (paths : Paths) (route method : String)

theorem operation?_addPath (path : String) (item : PathItem) :
    operation? (addPath paths path item) route method =
      (if Route.normalize path = route then Entries.values method item else []).getLast?.or
        (operation? paths route method) := by
  rw [addPath, operation?, Entries.get?_put]
  split
  · rename_i h
    subst h
    rw [Option.bind_some, Entries.get?_putAll, operation?]
    cases paths.get? (Route.normalize path) <;> rfl
  · rfl

theorem isSome_get?_addPath (path : String) (item : PathItem) :
    ((addPath paths path item).get? route).isSome =
      (decide (Route.normalize path = route) || (paths.get? route).isSome) := by
  rw [addPath, Entries.get?_put]
  split <;> simp_all

theorem operation?_add (document : Document) (fragment : Fragment) :
    operation? (document.add fragment).paths route method =
      (fragment.operation? route method).or (operation? document.paths route method) := by
  obtain ⟨entries⟩ := fragment
  obtain ⟨head, moment, paths⟩ := document
  simp only [add, Fragment.operation?, Fragment.operations]
  induction entries generalizing paths with
  | nil => rfl
  | cons entry rest ih =>
    obtain ⟨path, item⟩ := entry
    rw [List.foldl_cons, ih, operation?_addPath, List.flatMap_cons, List.getLast?_append,
      Option.or_assoc]

theorem isSome_get?_add (document : Document) (fragment : Fragment) :
    ((document.add fragment).paths.get? route).isSome =
      (fragment.hasPath route || (document.paths.get? route).isSome) := by
  obtain ⟨entries⟩ := fragment
  obtain ⟨head, moment, paths⟩ := document
  simp only [add, Fragment.hasPath]
  induction entries generalizing paths with
  | nil => rfl
  | cons entry rest ih =>
    obtain ⟨path, item⟩ := entry
    rw [List.foldl_cons, ih, isSome_get?_addPath, List.any_cons, Bool.or_left_comm, Bool.or_assoc]

theorem operation?_addAll (document : Document) (fragments : List Fragment) :
    operation? (fragments.foldl add document).paths route method =
      (fragments.filterMap fun fragment => fragment.operation? route method).getLast?.or
        (operation? document.paths route method) := by
  induction fragments generalizing document with
  | nil => rfl
  | cons fragment rest ih =>
    rw [List.foldl_cons, ih, operation?_add]
    cases h : fragment.operation? route method with
    | none => simp [h]
    | some operation =>
      simp only [List.filterMap_cons, h, List.getLast?_cons, Option.some_or]
      cases (rest.filterMap fun fragment => fragment.operation? route method).getLast? <;> rfl

theorem operation?_addAll_new {document : Document} (new : document.paths = [])
    (fragments : List Fragment) :
    operation? (fragments.foldl add document).paths route method =
      (fragments.filterMap fun fragment => fragment.operation? route method).getLast? := by
  rw [operation?_addAll, new]
  exact Option.or_none

theorem isSome_get?_addAll (document : Document) (fragments : List Fragment) :
    ((fragments.foldl add document).paths.get? route).isSome =
      (fragments.any (·.hasPath route) || (document.paths.get? route).isSome) := by
  induction fragments generalizing document with
  | nil => rfl
  | cons fragment rest ih =>
    rw [List.foldl_cons, ih, isSome_get?_add, List.any_cons, Bool.or_left_comm, Bool.or_assoc]

theorem addAll_head (document : Document) (fragments : List Fragment) :
    (fragments.foldl add document).head = document.head ∧
      (fragments.foldl add document).generatedAt = document.generatedAt := by
  induction fragments generalizing document with
  | nil => exact ⟨rfl, rfl⟩
  | cons fragment rest ih => exact ih _

def Braced (paths : Paths) : Prop :=
  ∀ path, (paths.get? path).isSome = true → Route.normalize path = path

theorem Braced.addAll {document : Document} (h : Braced document.paths)
    (fragments : List Fragment) : Braced (fragments.foldl add document).paths := by
  intro path hp
  rw [isSome_get?_addAll, Bool.or_eq_true, List.any_eq_true] at hp
  rcases hp with ⟨fragment, -, hp⟩ | hp
  · obtain ⟨entry, -, rfl⟩ : ∃ entry ∈ fragment.paths, Route.normalize entry.1 = path := by
      simpa [Fragment.hasPath] using hp
    exact Route.normalize_normalize entry.1
  · exact h path hp

theorem paths_of_create? {head : DocumentHead} {moment : Int} {document : Document}
    (created : create? head moment = some document) : document.paths = [] := by
  obtain ⟨written, -, rfl⟩ := Option.map_eq_some_iff.1 created
  rfl

def blank : Document := ⟨default, "1970-01-01T00:00:00.000Z", []⟩

theorem create?_blank : create? default 0 = some blank := by
  have moment : Timestamp.iso? 0 = some "1970-01-01T00:00:00.000Z" := by decide +kernel
  rw [create?, moment]
  rfl

theorem braced_of_new {document : Document} (new : document.paths = []) :
    Braced document.paths := by
  intro path h
  rw [new] at h
  cases h

/-! ### Whole sequences -/

theorem nodup_keys_add {document : Document} (fragment : Fragment) (h : document.paths.keys.Nodup) :
    (document.add fragment).paths.keys.Nodup := by
  obtain ⟨entries⟩ := fragment
  obtain ⟨head, moment, paths⟩ := document
  simp only [add] at h ⊢
  induction entries generalizing paths with
  | nil => exact h
  | cons entry rest ih => exact ih _ (Entries.nodup_keys_put h)

theorem nodup_keys_addAll {document : Document} (fragments : List Fragment)
    (h : document.paths.keys.Nodup) : (fragments.foldl add document).paths.keys.Nodup := by
  induction fragments generalizing document with
  | nil => exact h
  | cons fragment rest ih => exact ih (nodup_keys_add fragment h)

theorem mem_keys_addAll (document : Document) (fragments : List Fragment) :
    route ∈ (fragments.foldl add document).paths.keys ↔
      (∃ fragment ∈ fragments, ∃ path ∈ fragment.paths.keys, Route.normalize path = route) ∨
        route ∈ document.paths.keys := by
  rw [← Entries.get?_isSome_iff, isSome_get?_addAll, Bool.or_eq_true, List.any_eq_true,
    Entries.get?_isSome_iff]
  simp only [Fragment.hasPath_iff]

theorem operation?_addAll_last (document : Document) (fragments : List Fragment) :
    operation? (fragments.foldl add document).paths route method =
      (fragments.flatMap (·.operations route method)).getLast?.or
        (operation? document.paths route method) := by
  induction fragments generalizing document with
  | nil => rfl
  | cons fragment rest ih =>
    rw [List.foldl_cons, ih, operation?_add, List.flatMap_cons, List.getLast?_append,
      Option.or_assoc, Fragment.operation?]

/-- What merged fragments leave in the paths of a document that had none. -/
structure Gathers (fragments : List Fragment) (paths : Paths) : Prop where
  once : paths.keys.Nodup
  named : ∀ route, route ∈ paths.keys ↔
    ∃ fragment ∈ fragments, ∃ path ∈ fragment.paths.keys, Route.normalize path = route
  braced : ∀ route ∈ paths.keys, Route.normalize route = route
  last : ∀ route method,
    operation? paths route method = (fragments.flatMap (·.operations route method)).getLast?

theorem gathers_addAll {document : Document} (new : document.paths = [])
    (fragments : List Fragment) : Gathers fragments (fragments.foldl add document).paths := by
  have named : ∀ route, route ∈ (fragments.foldl add document).paths.keys ↔
      ∃ fragment ∈ fragments, ∃ path ∈ fragment.paths.keys, Route.normalize path = route := by
    intro route
    rw [mem_keys_addAll, new]
    exact or_iff_left List.not_mem_nil
  have single : document.paths.keys.Nodup := new ▸ List.nodup_nil
  refine ⟨nodup_keys_addAll fragments single, named, fun route h => ?_, fun route method => ?_⟩
  · obtain ⟨fragment, -, path, -, rfl⟩ := (named route).1 h
    exact Route.normalize_normalize path
  · rw [operation?_addAll_last, new]
    exact Option.or_none

/-- What the merge of a fragment leaves as it was: all that is known before any path is, every path,
and every operation for which the fragment gives no other. -/
structure Leaves (fragment : Fragment) (before after : Document) : Prop where
  head : after.head = before.head
  moment : after.generatedAt = before.generatedAt
  paths : ∀ route ∈ before.paths.keys, route ∈ after.paths.keys
  operations : ∀ route method, fragment.operations route method = [] →
    operation? after.paths route method = operation? before.paths route method

theorem leaves_add (document : Document) (fragment : Fragment) :
    Leaves fragment document (document.add fragment) := by
  refine ⟨rfl, rfl, fun route h => ?_, fun route method none => ?_⟩
  · exact (mem_keys_addAll route document [fragment]).2 (.inr h)
  · rw [operation?_add, Fragment.operation?, none]
    rfl

end Document

end EndpointAtlas
