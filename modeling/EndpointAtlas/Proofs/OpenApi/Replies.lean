import EndpointAtlas.OpenApi.Reply
import EndpointAtlas.Proofs.OpenApi.Draft
import EndpointAtlas.Proofs.OpenApi.Finish

/-!
Replies of any text at all. Main statement: whatever texts come back, what is read of them can be
merged and goes through the last pass, and leaves a document with paths in braces and objects under
the keys for operations; a reply of no use changes no operation.
-/

set_option autoImplicit false

namespace EndpointAtlas

namespace Fragment

def read? (text : String) : Option Fragment :=
  ((outermost? text.toList).bind Json.read?).bind ofValue?

/-- Does a reply give an operation? -/
def Useful (text : String) : Prop :=
  ∃ fragment, read? text = some fragment ∧ ∃ route method, fragment.operations route method ≠ []

/-- Is a value an operation, and its key one for operations? -/
def IsOperation (method : String) (operation : Json) : Prop :=
  method ∈ operationKeys ∧ ∃ fields, operation = .object fields

def Sound (fragment : Fragment) : Prop :=
  ∀ route method, ∀ operation ∈ fragment.operations route method, IsOperation method operation

theorem ofReply_eq (text : String) (route : Option String) :
    ofReply text route = (read? text).getD (blank route) := rfl

theorem operations_blank (spelled : Option String) (route method : String) :
    (blank spelled).operations route method = [] := by
  cases spelled <;> simp [blank, empty, operations, Entries.values]

theorem isOperation_of_mem_operationsOf {item : Entries Json} {entry : String × Json}
    (h : entry ∈ operationsOf item) : IsOperation entry.1 entry.2 := by
  obtain ⟨⟨key, value⟩, -, kept⟩ := List.mem_filterMap.1 h
  obtain ⟨known, isObject⟩ := Option.ite_none_right_eq_some.1 kept
  obtain ⟨fields, -, rfl⟩ := Option.map_eq_some_iff.1 isObject
  exact ⟨List.contains_iff_mem.1 known, fields, rfl⟩

theorem mem_operations {fragment : Fragment} {route method : String} {operation : Json}
    (h : operation ∈ fragment.operations route method) :
    ∃ entry ∈ fragment.paths, (method, operation) ∈ entry.2 := by
  obtain ⟨entry, he, ho⟩ := List.mem_flatMap.1 h
  dsimp only at ho
  split at ho
  · obtain ⟨⟨key, value⟩, hm, hv⟩ := List.mem_filterMap.1 ho
    obtain ⟨rfl, rfl⟩ : key = method ∧ value = operation := by simpa using hv
    exact ⟨entry, he, hm⟩
  · cases ho

theorem sound_of_ofValue? {value : Json} {fragment : Fragment}
    (h : ofValue? value = some fragment) :
    fragment.Sound := by
  simp only [ofValue?, Option.bind_eq_bind, Option.bind_eq_some_iff, Option.pure_def,
    Option.some.injEq] at h
  obtain ⟨_, -, _, -, items, -, rfl⟩ := h
  intro route method operation ho
  obtain ⟨entry, he, hm⟩ := mem_operations ho
  obtain ⟨item, -, rfl⟩ := List.mem_map.1 he
  exact isOperation_of_mem_operationsOf hm

theorem operations_sharedName_of_ofValue? {value : Json} {fragment : Fragment}
    (h : ofValue? value = some fragment) (method : String) :
    fragment.operations Draft.sharedName method = [] := by
  simp only [ofValue?, Option.bind_eq_bind, Option.bind_eq_some_iff, Option.pure_def,
    Option.some.injEq] at h
  obtain ⟨_, -, _, -, items, -, rfl⟩ := h
  refine List.flatMap_eq_nil_iff.2 fun entry he => if_neg fun same => ?_
  obtain ⟨item, mem, rfl⟩ := List.mem_map.1 he
  have other : item.1 ≠ Draft.sharedName := of_decide_eq_true (List.mem_filter.1 mem).2
  exact other (Draft.normalize_eq_sharedName same)

theorem operations_sharedName_ofReply (text : String) (route : Option String) (method : String) :
    (ofReply text route).operations Draft.sharedName method = [] := by
  rw [ofReply_eq]
  cases hr : read? text with
  | none => exact operations_blank route _ method
  | some fragment =>
    obtain ⟨value, -, spelled⟩ := Option.bind_eq_some_iff.1 hr
    exact operations_sharedName_of_ofValue? spelled method

theorem sound_ofReply (text : String) (route : Option String) : (ofReply text route).Sound := by
  rw [ofReply_eq]
  cases hr : read? text with
  | none =>
    intro path method operation ho
    rw [Option.getD_none, operations_blank] at ho
    cases ho
  | some fragment =>
    obtain ⟨value, -, spelled⟩ := Option.bind_eq_some_iff.1 hr
    exact sound_of_ofValue? spelled

theorem operations_ofReply {text : String} (h : ¬Useful text) (spelled : Option String)
    (route method : String) : (ofReply text spelled).operations route method = [] := by
  rw [ofReply_eq]
  cases hr : read? text with
  | none => exact operations_blank spelled route method
  | some fragment =>
    by_contra given
    exact h ⟨fragment, hr, route, method, given⟩

end Fragment

namespace Document

open Fragment

/-- Is every path spelled with braces, and is there nothing but operations at the paths? -/
structure WellFormed (document : Document) : Prop where
  braced : ∀ path ∈ document.paths.keys, Route.normalize path = path
  operations : ∀ path method operation, operation? document.paths path method = some operation →
    IsOperation method operation

variable {document final : Document}

theorem WellFormed.braced_paths (h : document.WellFormed) : Braced document.paths := fun path hp =>
  h.braced path (Entries.get?_isSome_iff.1 hp)

theorem wellFormed_mergeAll (new : document.paths = []) (replies : List (String × Option String)) :
    (document.mergeAll (replies.map fun reply => ofReply reply.1 reply.2)).WellFormed := by
  let shared (route _ : String) (_ : Json) : Prop := route ≠ Draft.sharedName
  have given : ∀ fragment ∈ replies.map fun reply => ofReply reply.1 reply.2, ∀ route method,
      ∀ operation ∈ fragment.operations route method,
        IsOperation method operation ∧ shared route method operation := by
    intro fragment hf route method operation given
    obtain ⟨reply, -, rfl⟩ := List.mem_map.1 hf
    refine ⟨sound_ofReply reply.1 reply.2 route method operation given, fun same => ?_⟩
    rw [same, operations_sharedName_ofReply] at given
    cases given
  have all := (Draft.all_of_new (fun _ => IsOperation) shared new).mergeAll
    (fun route fields method operation lent => absurd rfl lent) given
  exact ⟨fun path h => all.braced path (Entries.get?_isSome_iff.2 h), all.own⟩

/-! ### Fragments without operations -/

theorem operation?_put_getD (paths : Paths) (path route method : String) :
    operation? (paths.put path ((paths.get? path).getD [])) route method =
      operation? paths route method := by
  rw [operation?, Entries.get?_put]
  split
  · rename_i same
    rw [same, operation?]
    cases paths.get? route <;> rfl
  · rfl

theorem eq_nil_of_values {item : PathItem} (h : ∀ method, Entries.values method item = []) :
    item = [] := by
  cases item with
  | nil => rfl
  | cons entry rest =>
    have first := h entry.1
    rw [Entries.values_cons, if_pos rfl] at first
    cases first

theorem mergePath_nil {draft : Draft} (unlent : ∀ name, draft.lent? name = none) (path : String) :
    (∀ route method, operation? (draft.mergePath path []).document.paths route method =
      operation? draft.document.paths route method) ∧
    ∀ name, (draft.mergePath path []).lent? name = none := by
  rcases draft.mergePath_cases path [] with ⟨target, found, eq⟩ | ⟨-, eq⟩
  · have own : target = (draft.document.paths.get? (Route.normalize path)).getD [] := by
      rw [Draft.target?, unlent, Option.none_or] at found
      cases there : draft.document.paths.get? (Route.normalize path) with
      | some item =>
        rw [there] at found
        exact (Option.some.inj found).symm
      | none =>
        rw [there, Option.none_or] at found
        split at found <;> cases found
        rfl
    rw [eq, own]
    exact ⟨fun route method => operation?_put_getD _ _ route method, unlent⟩
  · rw [eq]
    refine ⟨fun _ _ => rfl, fun name => ?_⟩
    rw [Draft.lent?]
    exact (congrArg (·.bind Json.fields?) (operation?_put_getD draft.shared _ _ name)).trans
      (unlent name)

theorem operation?_merge_idle {draft : Draft} (unlent : ∀ name, draft.lent? name = none)
    {fragment : Fragment} (idle : ∀ route method, fragment.operations route method = [])
    (route method : String) : operation? (draft.merge fragment).document.paths route method =
      operation? draft.document.paths route method := by
  obtain ⟨entries⟩ := fragment
  unfold Draft.merge
  induction entries generalizing draft with
  | nil => rfl
  | cons entry rest ih =>
    have given := fun route method => List.append_eq_nil_iff.1 (idle route method)
    have none : entry.2 = [] := eq_nil_of_values fun method => by
      simpa using (given (Route.normalize entry.1) method).1
    obtain ⟨same, after⟩ := mergePath_nil unlent entry.1
    rw [List.foldl_cons, none, ih after fun route method => (given route method).2, same]

/-! ### The last pass -/

theorem isOperation_repairCreate {method : String} {operation : Json}
    (h : IsOperation method operation) :
    ∃ repaired, repairCreate operation = .ok repaired ∧ IsOperation method repaired := by
  obtain ⟨key, fields, rfl⟩ := h
  exact ⟨_, rfl, key, _, rfl⟩

theorem isOperation_repairRead {method : String} {operation : Json}
    (h : IsOperation method operation) : IsOperation method (repairRead operation) := by
  obtain ⟨key, fields, rfl⟩ := h
  unfold repairRead
  dsimp only
  split <;> exact ⟨key, _, rfl⟩

theorem isOperation_repairRemove {method : String} {operation : Json}
    (h : IsOperation method operation) : IsOperation method (repairRemove operation) := by
  obtain ⟨key, fields, rfl⟩ := h
  unfold repairRemove
  dsimp only
  split <;> exact ⟨key, _, rfl⟩

theorem isOperation_mended (route : String) {method : String} {operation : Json}
    (h : IsOperation method operation) :
    ∃ repaired, mended route method operation = .ok repaired ∧ IsOperation method repaired := by
  unfold mended
  split
  · exact isOperation_repairCreate h
  · split
    · exact ⟨_, rfl, isOperation_repairRead h⟩
    · split
      · exact ⟨_, rfl, isOperation_repairRemove h⟩
      · exact ⟨_, rfl, h⟩

theorem WellFormed.finished (h : document.WellFormed) (finished : Finished document final) :
    final.WellFormed where
  braced path hp := by
    have there := finished.paths path
    rw [Entries.get?_isSome_iff.2 hp, eq_comm, Bool.and_eq_true] at there
    exact h.braced path (Entries.get?_isSome_iff.1 there.2)
  operations path method operation ho := by
    have kept := finished.operations path method
    rw [ho, Option.map_some] at kept
    split at kept
    · cases kept
    · obtain ⟨before, hb, hm⟩ := Option.map_eq_some_iff.1 kept.symm
      obtain ⟨repaired, hr, isOperation⟩ :=
        isOperation_mended path (h.operations path method before hb)
      rw [← Except.ok.inj (hr.symm.trans hm)]
      exact isOperation

theorem WellFormed.finish (h : document.WellFormed) :
    ∃ final, document.finish = .ok final ∧ final.WellFormed := by
  have ends := finishes_finish h.braced_paths
  generalize document.finish = outcome at ends ⊢
  cases ends with
  | done final finished => exact ⟨final, rfl, h.finished finished⟩
  | bare operation cause there fails =>
    obtain ⟨repaired, hr, -⟩ := isOperation_repairCreate (h.operations _ _ operation there)
    rw [fails] at hr
    cases hr

def mergeReplies (document : Document) (replies : List (String × Option String)) : Document :=
  document.mergeAll (replies.map fun reply => ofReply reply.1 reply.2)

/-- Whatever texts come as replies, for whatever routes: merged into a new document they go through
the last pass, and the document then has paths in braces only, and at these nothing but objects
under the eight keys for operations. A reply that gives no operation leaves those of any document as
they are. -/
theorem wellFormed_mergeReplies (head : DocumentHead) (moment : String)
    (replies : List (String × Option String)) :
    (∃ final, (mergeReplies ⟨head, moment, []⟩ replies).finish = .ok final ∧ final.WellFormed) ∧
      ∀ text, ¬Useful text → ∀ document route path method,
        operation? (mergeReplies document [(text, route)]).paths path method =
          operation? document.paths path method := by
  refine ⟨(wellFormed_mergeAll rfl replies).finish, fun text useless document route path method =>
    ?_⟩
  have unlent : ∀ name, (Draft.of document).lent? name = none := fun _ => rfl
  exact operation?_merge_idle unlent (operations_ofReply useless route) path method

def prose : String := "Sorry, I cannot help with that."

def mixed : String :=
  "Here: \x7b\"paths\": \x7b\"/users/:id\": \x7b\"get\": \x7b\x7d, \"put\": null\x7d\x7d\x7d."

def mixedDocument : Document :=
  mergeReplies ⟨default, "", []⟩ [(prose, some "/users"), (mixed, none),
    ("\x7b\"paths\": []\x7d", none)]

theorem wellFormed_mergeReplies_mixed :
    (∃ final, mixedDocument.finish = .ok final ∧ final.WellFormed) ∧ ¬Useful prose ∧
      (operation? mixedDocument.paths "/users/\x7bid\x7d" "get").isSome = true ∧
      ∀ route path method,
      operation? (mergeReplies mixedDocument [(prose, route)]).paths path method =
        operation? mixedDocument.paths path method := by
  have nothing : (read? prose).isNone = true := by decide +kernel
  have useless : ¬Useful prose := by
    rintro ⟨fragment, read, -⟩
    rw [read] at nothing
    cases nothing
  obtain ⟨whole, kept⟩ := wellFormed_mergeReplies default ""
    [(prose, some "/users"), (mixed, none), ("\x7b\"paths\": []\x7d", none)]
  exact ⟨whole, useless, by decide +kernel, kept _ useless _⟩

end Document

end EndpointAtlas
