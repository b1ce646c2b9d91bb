import EndpointAtlas.OpenApi.Reply
import EndpointAtlas.Proofs.OpenApi.Order

set_option autoImplicit false

namespace EndpointAtlas

namespace Method

theorem operationKey_eq {first second : Method} (h : first.operationKey = second.operationKey) :
    first = second ∨ first.operationKey = "get" ∧
      ((first = .get ∧ second = .all) ∨ (first = .all ∧ second = .get)) := by
  revert h
  cases first <;> cases second <;> decide

/-- The name of a method in small letters; what stands for all methods counts as a read. -/
def verb (method : Method) : String :=
  if method = .all then "get" else String.ofList (Text.lower method.text.toList)

theorem operationKey_eq_verb (method : Method) : method.operationKey = method.verb := by
  cases method <;> decide

end Method

namespace Fragment

theorem operations_skeleton (method : Method) (route : Option String) (path key : String) :
    (skeleton method route).operations path key =
      if route.map Route.normalize = some path ∧ method.operationKey = key then
        [plainOperation method path]
      else [] := by
  unfold skeleton
  cases route with
  | none => simp [empty, operations]
  | some route =>
    by_cases hp : Route.normalize route = path
    · subst hp
      by_cases hk : method.operationKey = key <;>
        simp [operations, Entries.values, Route.normalize_normalize, hk]
    · simp [operations, Route.normalize_normalize, hp]

theorem operation?_skeleton (method : Method) (route : Option String) (path key : String) :
    (skeleton method route).operation? path key =
      if route.map Route.normalize = some path ∧ method.operationKey = key then
        some (plainOperation method path)
      else none := by
  rw [operation?, operations_skeleton]
  split <;> rfl

theorem hasPath_skeleton (method : Method) (route : Option String) (path : String) :
    (skeleton method route).hasPath path = decide (route.map Route.normalize = some path) := by
  cases route <;> simp [skeleton, empty, hasPath, Route.normalize_normalize]

theorem operationKey_mem (method : Method) : method.operationKey ∈ operationKeys := by
  cases method <;> decide

theorem isPlain_skeleton (method : Method) (route : Option String) :
    (skeleton method route).IsPlain ↔
      ∀ path, route.map Route.normalize = some path → path ∉ Draft.inheritedNames := by
  have key : Draft.sharedName ≠ method.operationKey := by
    intro same
    exact absurd (same ▸ operationKey_mem method) (by decide)
  cases route with
  | none => simp [skeleton, empty, IsPlain]
  | some route => simp [skeleton, IsPlain, Entries.keys, Route.normalize_normalize, key]

theorem isPlain_or_isForeign_skeleton (method : Method) {route : Option String}
    (own : route ≠ some Draft.sharedName) :
    (skeleton method route).IsPlain ∨ (skeleton method route).IsForeign := by
  cases route with
  | none => exact .inl ((isPlain_skeleton method none).2 fun path h => nomatch h)
  | some route =>
    by_cases named : Route.normalize route ∈ Draft.inheritedNames
    · have other : Route.normalize route ≠ Draft.sharedName := fun same =>
        own (congrArg some (Draft.normalize_eq_sharedName same))
      exact .inr (by simpa [skeleton, IsForeign, Route.normalize_normalize] using ⟨named, other⟩)
    · refine .inl ((isPlain_skeleton method _).2 fun path h => ?_)
      rwa [← Option.some.inj h]

end Fragment

namespace Document

open Fragment

theorem repairRead_plainOperation (method : Method) (route : String) :
    repairRead (plainOperation method route) = plainOperation method route := rfl

def withoutSummary : Json → Json
  | .object fields => .object (Entries.erase "summary" fields)
  | other => other

theorem withoutSummary_plainOperation (first second : Method) (route : String) :
    withoutSummary (plainOperation first route) = withoutSummary (plainOperation second route) :=
      rfl

theorem exists_mended_plainOperation (method : Method) (route path key : String) :
    ∃ repaired, mended path key (plainOperation method route) = .ok repaired := by
  unfold mended
  split
  · exact ⟨_, rfl⟩
  · split
    · exact ⟨_, rfl⟩
    · split <;> exact ⟨_, rfl⟩

theorem mended_get_plainOperation (method : Method) (route path : String) :
    mended path "get" (plainOperation method route) = .ok (plainOperation method route) := by
  have post : ¬("get" : String) = "post" := by decide
  have delete : ¬("get" : String) = "delete" := by decide
  simp only [mended, post, delete, and_false, if_false, repairRead_plainOperation, ite_self]

end Document

end EndpointAtlas
