import EndpointAtlas.Proofs.OpenApi.Merge

set_option autoImplicit false

namespace EndpointAtlas

/-- No path of a fragment goes by a name that all objects have, and no operation by that of what
they share. -/
def Fragment.IsPlain (fragment : Fragment) : Prop :=
  ∀ entry ∈ fragment.paths, Route.normalize entry.1 ∉ Draft.inheritedNames ∧
    Draft.sharedName ∉ Entries.keys entry.2

instance (fragment : Fragment) : Decidable fragment.IsPlain :=
  inferInstanceAs (Decidable (∀ entry ∈ fragment.paths, _))

/-- Every path of a fragment goes by a name that all objects have, but not by that of what they
share. -/
def Fragment.IsForeign (fragment : Fragment) : Prop :=
  ∀ entry ∈ fragment.paths, Route.normalize entry.1 ∈ Draft.inheritedNames ∧
    Route.normalize entry.1 ≠ Draft.sharedName

namespace Draft

open Document

variable {draft : Draft} {path route method : String} {item : PathItem} {operation : Json}

/-! ### Operations of one path -/

theorem assign_of_ne (item : PathItem) {name : String} (h : name ≠ sharedName) (operation : Json) :
    assign item name operation = item.put name operation :=
  if_neg fun shared => h shared.1

theorem assignAll_cons (item : PathItem) (entry : String × Json) (rest : PathItem) :
    assignAll item (entry :: rest) = assignAll (assign item entry.1 entry.2) rest := rfl

theorem assignAll_of_plain (item : PathItem) {added : PathItem} (plain : sharedName ∉ added.keys) :
    assignAll item added = item.putAll added := by
  induction added generalizing item with
  | nil => rfl
  | cons entry rest ih =>
    obtain ⟨first, others⟩ := not_or.1 (mt List.mem_cons.2 plain)
    rw [assignAll_cons, Entries.putAll, List.foldl_cons, assign_of_ne item (Ne.symm first)]
    exact ih _ others

theorem mem_of_get?_assignAll {added : PathItem}
    (h : (assignAll item added).get? method = some operation) :
    operation ∈ Entries.values method added ∨ item.get? method = some operation := by
  induction added generalizing item with
  | nil => exact .inr h
  | cons entry rest ih =>
    obtain ⟨name, value⟩ := entry
    rw [Entries.values_cons, List.mem_append]
    rw [assignAll_cons] at h
    rcases ih h with there | before
    · exact .inl (.inr there)
    · unfold assign at before
      split at before
      · exact .inr before
      · rw [Entries.get?_put] at before
        split at before
        · rename_i same
          rw [if_pos same]
          exact .inl (.inl (List.mem_singleton.2 (Option.some.inj before).symm))
        · exact .inr before

/-! ### One path -/

theorem mergePath_cases (draft : Draft) (path : String) (item : PathItem) :
    (∃ target, draft.target? (Route.normalize path) = some target ∧
      draft.mergePath path item =
        ⟨{ draft.document with
            paths := draft.document.paths.put (Route.normalize path) (assignAll target item) },
          draft.shared⟩) ∨
    draft.target? (Route.normalize path) = none ∧
      draft.mergePath path item = ⟨draft.document, draft.shared.put (Route.normalize path)
        (assignAll ((draft.shared.get? (Route.normalize path)).getD []) item)⟩ := by
  unfold mergePath
  cases found : draft.target? (Route.normalize path) with
  | some target => exact .inl ⟨target, rfl, by simp only [found]⟩
  | none => exact .inr ⟨rfl, by simp only [found]⟩

theorem normalize_eq_sharedName {path : String} (h : Route.normalize path = sharedName) :
    path = sharedName := by
  by_cases same : Route.normalize path = path
  · exact same.symm.trans h
  · have brace := Route.brace_mem_normalize same
    rw [h] at brace
    exact absurd brace (by decide)

theorem lent?_of_unshared (unshared : draft.shared.get? sharedName = none) (name : String) :
    draft.lent? name = none := by
  rw [lent?, operation?, unshared]
  rfl

theorem mergePath_of_plain (unshared : draft.shared.get? sharedName = none)
    (named : Route.normalize path ∉ inheritedNames) (plain : sharedName ∉ item.keys) :
    draft.mergePath path item =
      ⟨{ draft.document with paths := addPath draft.document.paths path item }, draft.shared⟩ := by
  have target : draft.target? (Route.normalize path) =
      some ((draft.document.paths.get? (Route.normalize path)).getD []) := by
    rw [target?, lent?_of_unshared unshared, if_neg (by simpa using named)]
    cases draft.document.paths.get? (Route.normalize path) <;> rfl
  simp only [mergePath, target, assignAll_of_plain _ plain]
  rfl

theorem merge_of_plain {fragment : Fragment} (unshared : draft.shared.get? sharedName = none)
    (plain : fragment.IsPlain) :
    draft.merge fragment = ⟨draft.document.add fragment, draft.shared⟩ := by
  obtain ⟨entries⟩ := fragment
  obtain ⟨⟨head, moment, paths⟩, shared⟩ := draft
  unfold merge add
  induction entries generalizing paths with
  | nil => rfl
  | cons entry rest ih =>
    obtain ⟨first, others⟩ := List.forall_mem_cons.1 plain
    rw [List.foldl_cons, List.foldl_cons, mergePath_of_plain unshared first.1 first.2]
    exact ih others _ unshared

theorem mergeAll_of_plain {fragments : List Fragment}
    (unshared : draft.shared.get? sharedName = none)
    (plain : ∀ fragment ∈ fragments, fragment.IsPlain) :
    fragments.foldl merge draft = ⟨fragments.foldl add draft.document, draft.shared⟩ := by
  induction fragments generalizing draft with
  | nil => rfl
  | cons fragment rest ih =>
    obtain ⟨first, others⟩ := List.forall_mem_cons.1 plain
    rw [List.foldl_cons, merge_of_plain unshared first]
    exact ih unshared others

/-! ### Names that all objects have -/

theorem mergePath_of_inherited (unshared : draft.shared.get? sharedName = none)
    (unnamed : draft.document.paths.get? (Route.normalize path) = none)
    (named : Route.normalize path ∈ inheritedNames) (item : PathItem) :
    draft.mergePath path item = ⟨draft.document, draft.shared.put (Route.normalize path)
      (assignAll ((draft.shared.get? (Route.normalize path)).getD []) item)⟩ := by
  have target : draft.target? (Route.normalize path) = none := by
    rw [target?, lent?_of_unshared unshared, unnamed, if_pos (by simpa using named)]
    rfl
  simp only [mergePath, target]

/-- What all objects share is nothing that a document can find, and the document holds nothing under
a name that all objects have. -/
structure IsClear (draft : Draft) : Prop where
  unshared : draft.shared.get? sharedName = none
  unnamed : ∀ name ∈ inheritedNames, draft.document.paths.get? name = none

theorem isClear_of_new {document : Document} (new : document.paths = []) :
    (of document).IsClear where
  unshared := rfl
  unnamed name _ := by
    rw [of, new]
    rfl

variable {fragment : Fragment} {fragments : List Fragment}

theorem IsClear.take_plain (h : draft.IsClear) (plain : fragment.IsPlain) :
    IsClear ⟨draft.document.add fragment, draft.shared⟩ where
  unshared := h.unshared
  unnamed name named := by
    have other : fragment.hasPath name = false := by
      rw [Bool.eq_false_iff, Ne, Fragment.hasPath_iff]
      rintro ⟨path, there, rfl⟩
      obtain ⟨entry, mem, rfl⟩ := List.mem_map.1 there
      exact (plain entry mem).1 named
    have none := isSome_get?_add name draft.document fragment
    rwa [other, h.unnamed name named, Bool.false_or, Option.isSome_none,
      Option.isSome_eq_false_iff, Option.isNone_iff_eq_none] at none

theorem IsClear.merge_of_foreign (h : draft.IsClear) (foreign : fragment.IsForeign) :
    (draft.merge fragment).document = draft.document ∧ (draft.merge fragment).IsClear := by
  obtain ⟨entries⟩ := fragment
  unfold merge
  induction entries generalizing draft with
  | nil => exact ⟨rfl, h⟩
  | cons entry rest ih =>
    obtain ⟨⟨named, other⟩, others⟩ := List.forall_mem_cons.1 foreign
    have first := mergePath_of_inherited h.unshared (h.unnamed _ named) named entry.2
    have clear : (draft.mergePath entry.1 entry.2).IsClear := by
      rw [first]
      exact ⟨by rw [Entries.get?_put, if_neg other, h.unshared], h.unnamed⟩
    obtain ⟨document, after⟩ := ih clear others
    refine ⟨document.trans ?_, after⟩
    rw [first]

theorem IsClear.mergeAll (h : draft.IsClear)
    (each : ∀ fragment ∈ fragments, fragment.IsPlain ∨ fragment.IsForeign) :
    (fragments.foldl Draft.merge draft).document =
      (fragments.filter (·.IsPlain)).foldl add draft.document := by
  induction fragments generalizing draft with
  | nil => rfl
  | cons fragment rest ih =>
    obtain ⟨first, others⟩ := List.forall_mem_cons.1 each
    rw [List.foldl_cons, List.filter_cons]
    by_cases plain : fragment.IsPlain
    · rw [if_pos (by simpa using plain), List.foldl_cons, merge_of_plain h.unshared plain]
      exact ih (h.take_plain plain) others
    · obtain ⟨same, clear⟩ := h.merge_of_foreign (first.resolve_left plain)
      rw [if_neg (by simpa using plain), ih clear others, same]

/-! ### What any merge does -/

theorem operation?_put_assignAll {paths : Paths} {target : PathItem}
    (h : operation? (paths.put path (assignAll target item)) route method = some operation) :
    (path = route ∧ operation ∈ Entries.values method item) ∨
      (path = route ∧ target.get? method = some operation) ∨
      operation? paths route method = some operation := by
  rw [operation?, Entries.get?_put] at h
  split at h
  · rename_i same
    exact (mem_of_get?_assignAll h).imp (⟨same, ·⟩) fun there => .inl ⟨same, there⟩
  · exact .inr (.inr h)

theorem mem_of_target? {target : PathItem} (found : draft.target? route = some target)
    (h : target.get? method = some operation) :
    operation? draft.document.paths route method = some operation ∨
      ∃ lent, draft.lent? route = some lent ∧ lent.get? method = some operation := by
  unfold target? at found
  cases own : draft.document.paths.get? route with
  | some item =>
    rw [own, Option.some_or] at found
    obtain rfl := Option.some.inj found
    exact .inl (by rw [operation?, own, Option.bind_some, h])
  | none =>
    rw [own, Option.none_or] at found
    cases lent : draft.lent? route with
    | some item =>
      rw [lent, Option.some_or] at found
      obtain rfl := Option.some.inj found
      exact .inr ⟨item, rfl, h⟩
    | none =>
      rw [lent, Option.none_or] at found
      split at found
      · cases found
      · obtain rfl := Option.some.inj found
        cases h

/-- An operation of a document that is under way was there before, or it was given for its place, or
it is a field of one that all objects share. -/
theorem operation?_mergePath
    (h : operation? (draft.mergePath path item).document.paths route method = some operation) :
    (Route.normalize path = route ∧ operation ∈ Entries.values method item) ∨
      operation? draft.document.paths route method = some operation ∨
      ∃ lent, draft.lent? route = some lent ∧ lent.get? method = some operation := by
  rcases draft.mergePath_cases path item with ⟨target, found, eq⟩ | ⟨-, eq⟩
  · rw [eq] at h
    rcases operation?_put_assignAll h with given | ⟨rfl, there⟩ | before
    · exact .inl given
    · exact .inr (mem_of_target? found there)
    · exact .inr (.inl before)
  · rw [eq] at h
    exact .inr (.inl h)

theorem shared_mergePath
    (h : operation? (draft.mergePath path item).shared route method = some operation) :
    (Route.normalize path = route ∧ operation ∈ Entries.values method item) ∨
      operation? draft.shared route method = some operation := by
  rcases draft.mergePath_cases path item with ⟨target, -, eq⟩ | ⟨-, eq⟩
  · rw [eq] at h
    exact .inr h
  · rw [eq] at h
    rcases operation?_put_assignAll h with given | ⟨rfl, there⟩ | before
    · exact .inl given
    · refine .inr ?_
      cases kept : draft.shared.get? (Route.normalize path) with
      | none =>
        rw [kept] at there
        cases there
      | some item =>
        rw [kept] at there
        rw [operation?, kept, Option.bind_some]
        exact there
    · exact .inr before

/-- What holds of every operation of a document under way and of every one that all objects
share. -/
structure All (own shared : String → String → Json → Prop) (draft : Draft) : Prop where
  braced : Braced draft.document.paths
  own : ∀ route method operation,
    operation? draft.document.paths route method = some operation → own route method operation
  shared : ∀ route method operation,
    operation? draft.shared route method = some operation → shared route method operation

section All

variable {own shared : String → String → Json → Prop}
  (lends : ∀ route fields method operation, shared sharedName route (.object fields) →
    Entries.get? method fields = some operation → own route method operation)
include lends

theorem All.mergePath (h : draft.All own shared) (path : String) (item : PathItem)
    (given : ∀ method, ∀ operation ∈ Entries.values method item,
      own (Route.normalize path) method operation ∧
      shared (Route.normalize path) method operation) :
    (draft.mergePath path item).All own shared where
  braced := by
    rcases draft.mergePath_cases path item with ⟨target, -, eq⟩ | ⟨-, eq⟩
    · rw [eq]
      intro route there
      rw [Entries.get?_put] at there
      split at there
      · rename_i same
        rw [← same, Route.normalize_normalize]
      · exact h.braced route there
    · rw [eq]
      exact h.braced
  own route method operation there := by
    rcases operation?_mergePath there with ⟨rfl, mem⟩ | before | ⟨lent, found, field⟩
    · exact (given method operation mem).1
    · exact h.own route method operation before
    · obtain ⟨whole, taken, fields⟩ := Option.bind_eq_some_iff.1 found
      cases whole with
      | object entries =>
        obtain rfl := Option.some.inj fields
        exact lends route entries method operation (h.shared _ _ _ taken) field
      | _ => cases fields
  shared route method operation there := by
    rcases shared_mergePath there with ⟨rfl, mem⟩ | before
    · exact (given method operation mem).2
    · exact h.shared route method operation before

theorem All.merge {fragment : Fragment} (h : draft.All own shared)
    (given : ∀ route method, ∀ operation ∈ fragment.operations route method,
      own route method operation ∧ shared route method operation) :
    (draft.merge fragment).All own shared := by
  obtain ⟨entries⟩ := fragment
  unfold Draft.merge
  induction entries generalizing draft with
  | nil => exact h
  | cons entry rest ih =>
    have first := h.mergePath lends entry.1 entry.2 fun method operation mem =>
      given _ method operation (List.mem_append_left _ (by simpa only [if_pos] using mem))
    exact ih first fun route method operation mem =>
      given route method operation (List.mem_append_right _ mem)

theorem All.mergeAll {fragments : List Fragment} (h : draft.All own shared)
    (given : ∀ fragment ∈ fragments, ∀ route method, ∀ operation ∈ fragment.operations route method,
      own route method operation ∧ shared route method operation) :
    (fragments.foldl Draft.merge draft).All own shared := by
  induction fragments generalizing draft with
  | nil => exact h
  | cons fragment rest ih =>
    obtain ⟨first, others⟩ := List.forall_mem_cons.1 given
    exact ih (h.merge lends first) others

end All

theorem head_merge (draft : Draft) (fragment : Fragment) :
    (draft.merge fragment).document.head = draft.document.head ∧
      (draft.merge fragment).document.generatedAt = draft.document.generatedAt := by
  obtain ⟨entries⟩ := fragment
  unfold merge
  induction entries generalizing draft with
  | nil => exact ⟨rfl, rfl⟩
  | cons entry rest ih =>
    have first : (draft.mergePath entry.1 entry.2).document.head = draft.document.head ∧
        (draft.mergePath entry.1 entry.2).document.generatedAt = draft.document.generatedAt := by
      rcases draft.mergePath_cases entry.1 entry.2 with ⟨target, -, eq⟩ | ⟨-, eq⟩ <;> rw [eq]
      · exact ⟨rfl, rfl⟩
      · exact ⟨rfl, rfl⟩
    obtain ⟨head, moment⟩ := ih (draft.mergePath entry.1 entry.2)
    exact ⟨head.trans first.1, moment.trans first.2⟩

theorem head_mergeAll (draft : Draft) (fragments : List Fragment) :
    (fragments.foldl merge draft).document.head = draft.document.head ∧
      (fragments.foldl merge draft).document.generatedAt = draft.document.generatedAt := by
  induction fragments generalizing draft with
  | nil => exact ⟨rfl, rfl⟩
  | cons fragment rest ih =>
    obtain ⟨head, moment⟩ := ih (draft.merge fragment)
    exact ⟨head.trans (draft.head_merge fragment).1, moment.trans (draft.head_merge fragment).2⟩

theorem all_of_new (own shared : String → String → Json → Prop) {document : Document}
    (new : document.paths = []) : (of document).All own shared where
  braced := braced_of_new new
  own route method operation there := by
    rw [of, new] at there
    cases there
  shared route method operation there := by cases there

end Draft

namespace Document

open Draft

/-- In a document that has no path, a sequence of merges in which no path goes by a name that all
objects have leaves the paths that the fragments name, each once and spelled with braces, and at
each path and method the last operation that is given for them, in the order of the fragments and of
the entries of each; and no such merge changes anything else. What is then merged at the name of
what all objects share does not come into the document. -/
theorem gathers_mergeAll (head : DocumentHead) (moment : String) {fragments : List Fragment}
    (plain : ∀ fragment ∈ fragments, fragment.IsPlain) :
    Gathers fragments (mergeAll ⟨head, moment, []⟩ fragments).paths ∧
    (∀ (draft : Draft) (fragment : Fragment), draft.shared.get? sharedName = none →
      fragment.IsPlain → Leaves fragment draft.document (draft.merge fragment).document) ∧
    ∀ item, mergeAll ⟨head, moment, []⟩ (fragments ++ [⟨[(sharedName, item)]⟩]) =
      mergeAll ⟨head, moment, []⟩ fragments := by
  have whole : fragments.foldl merge (of ⟨head, moment, []⟩) = _ := mergeAll_of_plain rfl plain
  have gathers : Gathers fragments (mergeAll ⟨head, moment, []⟩ fragments).paths := by
    rw [mergeAll, whole]
    exact gathers_addAll rfl fragments
  refine ⟨gathers, fun draft fragment unshared plain => ?_, fun item => ?_⟩
  · rw [merge_of_plain unshared plain]
    exact leaves_add draft.document fragment
  · have unnamed : (mergeAll ⟨head, moment, []⟩ fragments).paths.get? sharedName = none := by
      rw [← Option.not_isSome_iff_eq_none, Entries.get?_isSome_iff, gathers.named]
      rintro ⟨fragment, mem, path, there, same⟩
      obtain ⟨entry, own, rfl⟩ := List.mem_map.1 there
      exact (plain fragment mem entry own).1 (same ▸ List.mem_cons_self)
    have normal : Route.normalize sharedName = sharedName := by decide +kernel
    rw [mergeAll, whole] at unnamed
    rw [mergeAll, mergeAll, List.foldl_append, whole, List.foldl_cons, List.foldl_nil, merge,
      List.foldl_cons, List.foldl_nil,
      mergePath_of_inherited rfl (normal.symm ▸ unnamed) (normal.symm ▸ List.mem_cons_self)]

def respelled : List Fragment :=
  [⟨[("/items/:id", [("get", .text "first"), ("put", .null)])]⟩,
    ⟨[("/items/\x7bid\x7d", [("get", .text "last")])]⟩]

def sharedPath : Fragment := ⟨[(sharedName, [])]⟩

theorem gathers_mergeAll_respelled :
    (∀ fragment ∈ respelled, fragment.IsPlain) ∧
      Gathers respelled (mergeAll ⟨default, "", []⟩ respelled).paths ∧
      operation? (mergeAll ⟨default, "", []⟩ respelled).paths "/items/\x7bid\x7d" "get" =
        some (.text "last") ∧
      ¬Gathers (respelled ++ [sharedPath])
        (mergeAll ⟨default, "", []⟩ (respelled ++ [sharedPath])).paths := by
  have plain : ∀ fragment ∈ respelled, fragment.IsPlain := by decide +kernel
  obtain ⟨gathers, -, kept⟩ := gathers_mergeAll default "" plain
  refine ⟨plain, gathers, ?_, fun all => ?_⟩
  · rw [gathers.last]
    rfl
  · have named := (all.named sharedName).2 ⟨sharedPath, by simp, sharedName,
      List.mem_cons_self, by decide +kernel⟩
    rw [sharedPath, kept, gathers.named] at named
    obtain ⟨fragment, mem, path, there, same⟩ := named
    obtain ⟨entry, own, rfl⟩ := List.mem_map.1 there
    exact (plain fragment mem entry own).1 (same ▸ List.mem_cons_self)

end Document

end EndpointAtlas
