import EndpointAtlas.Proofs.OpenApi.Draft
import EndpointAtlas.Proofs.OpenApi.Finish

/-!
Documents up to the order in which paths, methods and fields are listed. Main statements: the
repairs of the last pass respect this equality; and fragments that do not contradict one another
give the same document in whatever order they are merged.
-/

set_option autoImplicit false

namespace EndpointAtlas

/-! ### Results that agree -/

section Rel

variable {α β γ δ ε : Type} {r : α → β → Prop} {s : γ → δ → Prop}

theorem optionRel_bind {a : Option α} {b : Option β} {f : α → Option γ} {g : β → Option δ}
    (h : Option.Rel r a b) (hf : ∀ x y, r x y → Option.Rel s (f x) (g y)) :
    Option.Rel s (a.bind f) (b.bind g) := by
  cases h with
  | none => exact .none
  | some h => exact hf _ _ h

theorem optionRel_getD {a : Option α} {b : Option β} {x : α} {y : β} (h : Option.Rel r a b)
    (hx : r x y) : r (a.getD x) (b.getD y) := by
  cases h with
  | none => exact hx
  | some h => exact h

theorem optionRel_or {a c : Option α} {b d : Option β} (h : Option.Rel r a b)
    (k : Option.Rel r c d) : Option.Rel r (a.or c) (b.or d) := by
  cases h with
  | none => simpa using k
  | some h => exact .some h

theorem optionRel_map {a : Option α} {b : Option β} {f : α → γ} {g : β → δ} (h : Option.Rel r a b)
    (hf : ∀ x y, r x y → s (f x) (g y)) : Option.Rel s (a.map f) (b.map g) := by
  cases h with
  | none => exact .none
  | some h => exact .some (hf _ _ h)

theorem optionRel_getLast? {t : α → α → Prop} {first second : List α} (perm : first.Perm second)
    (all : ∀ a ∈ first, ∀ b ∈ first, t a b) : Option.Rel t first.getLast? second.getLast? := by
  cases hf : first.getLast? with
  | none =>
    rw [List.getLast?_eq_none_iff] at hf
    rw [hf] at perm
    rw [perm.symm.eq_nil]
    exact .none
  | some a =>
    cases hs : second.getLast? with
    | none =>
      rw [List.getLast?_eq_none_iff.1 hs] at perm
      rw [perm.eq_nil] at hf
      cases hf
    | some b =>
      have hb := perm.mem_iff.2 (List.mem_of_getLast? hs)
      exact .some (all a (List.mem_of_getLast? hf) b hb)

/-- Both results are values that agree, or both are the same error. -/
inductive ExceptRel (r : α → β → Prop) : Except ε α → Except ε β → Prop where
  | ok {a : α} {b : β} (h : r a b) : ExceptRel r (.ok a) (.ok b)
  | error (cause : ε) : ExceptRel r (.error cause) (.error cause)

theorem optionRel_of_map_ok {a : Option α} {b : Option β} {x : Option (Except ε α)}
    {y : Option (Except ε β)} (ha : a.map .ok = x) (hb : b.map .ok = y)
    (h : Option.Rel (ExceptRel r) x y) : Option.Rel r a b := by
  subst ha hb
  cases a <;> cases b <;> cases h
  · exact .none
  · rename_i h
    cases h with
    | ok h => exact .some h

end Rel

open Json

/-! ### Repairs -/

namespace Document

variable {first second : Entries Json}

theorem objectField?_alike (h : FieldsAlike first second) (name : String) :
    Option.Rel FieldsAlike (objectField? first name) (objectField? second name) :=
  optionRel_bind (h name) fun _ _ => Alike.fields?

theorem nonNull_alike (a b : Option Json) : Option.Rel Alike a b →
    Option.Rel Alike (match a with | some .null => none | found => found)
      (match b with | some .null => none | found => found) := by
  intro h
  cases h with
  | none => exact .none
  | some h =>
    cases h with
    | refl => exact optionRel_refl _
    | list lengths items => exact .some (.list lengths items)
    | object names values => exact .some (.object names values)

theorem schemaOf?_alike (h : FieldsAlike first second) (code : String) :
    Option.Rel Alike (schemaOf? first code) (schemaOf? second code) := by
  refine optionRel_bind (objectField?_alike h code) fun _ _ response => ?_
  refine optionRel_bind (objectField?_alike response "content") fun _ _ content => ?_
  refine optionRel_bind (objectField?_alike content "application/json") fun _ _ body => ?_
  exact nonNull_alike _ _ (body "schema")

theorem fieldsAlike_cons (name : String) {a b : Json} (value : Alike a b)
    (rest : FieldsAlike first second) : FieldsAlike ((name, a) :: first) ((name, b) :: second) := by
  intro other
  by_cases hn : name = other
  · simpa [Entries.get?, hn] using Option.Rel.some value
  · simpa [Entries.get?, hn] using rest other

theorem alike_single (name : String) {a b : Json} (value : Alike a b) :
    Alike (.object [(name, a)]) (.object [(name, b)]) :=
  alike_object_iff.2 (fieldsAlike_cons name value (.refl []))

theorem createdResponses_alike {a b : Json} (schema : Alike a b) :
    Alike (createdResponses a) (createdResponses b) := by
  refine alike_object_iff.2 (fieldsAlike_cons "201" (alike_object_iff.2 ?_) (.refl _))
  refine fieldsAlike_cons "description" (.refl _) (fieldsAlike_cons "content" ?_ (.refl _))
  exact alike_single "application/json" (alike_single "schema" schema)

def putCreated (fields : Entries Json) : Entries Json :=
  let responses := (objectField? fields "responses").getD []
  let schema := ((schemaOf? responses "201").or (schemaOf? responses "200")).getD createdSchema
  fields.put "responses" (createdResponses schema)

theorem putCreated_alike (h : FieldsAlike first second) :
    FieldsAlike (putCreated first) (putCreated second) := by
  have responses := optionRel_getD (objectField?_alike h "responses") (FieldsAlike.refl [])
  have schema := optionRel_or (schemaOf?_alike responses "201") (schemaOf?_alike responses "200")
  exact h.put "responses" (createdResponses_alike (optionRel_getD schema (.refl createdSchema)))

theorem repairedCreate_alike (h : FieldsAlike first second) :
    FieldsAlike (repairedCreate first) (repairedCreate second) := by
  have body := objectField?_alike h "requestBody"
  unfold repairedCreate
  generalize objectField? first "requestBody" = a at body ⊢
  generalize objectField? second "requestBody" = b at body ⊢
  cases body with
  | none => exact putCreated_alike h
  | some body =>
    have optional := body.put "required" (.refl (.bool false))
    exact putCreated_alike (h.put "requestBody" (alike_object_iff.2 optional))

variable {a b : Json}

theorem repairCreate_alike (h : Alike a b) : ExceptRel Alike (repairCreate a) (repairCreate b) := by
  cases h with
  | refl =>
    cases hr : repairCreate a with
    | ok created => exact .ok (.refl created)
    | error cause => exact .error cause
  | list lengths items => exact .ok (.list lengths items)
  | object names values =>
    exact .ok
      (alike_object_iff.2 (repairedCreate_alike (alike_object_iff.1 (.object names values))))

theorem repairRead_alike (h : Alike a b) : Alike (repairRead a) (repairRead b) := by
  cases h with
  | refl => exact .refl _
  | list lengths items => exact .list lengths items
  | @object first second names values =>
    have fields := alike_object_iff.1 (.object names values)
    have := objectField?_alike fields "responses"
    simp only [repairRead]
    generalize objectField? first "responses" = c at this ⊢
    generalize objectField? second "responses" = d at this ⊢
    cases this with
    | none => exact .object names values
    | some responses =>
      exact alike_object_iff.2 (fields.put "responses" (alike_object_iff.2 (responses.erase "400")))

theorem text?_alike {a b : Option Json} (h : Option.Rel Alike a b) :
    a.bind text? = b.bind text? := by
  cases h with
  | none => rfl
  | some h => cases h <;> rfl

theorem repairDependent_alike {s t : List Json} (h : List.Forall₂ Alike s t) :
    List.Forall₂ Alike (repairDependent s) (repairDependent t) := by
  induction h with
  | nil => exact .nil
  | @cons a b s t first rest ih =>
    cases first with
    | refl =>
      cases a with
      | object fields =>
        simp only [repairDependent]
        split
        · exact .cons (.refl _) rest
        · exact .cons (.refl _) ih
      | _ => exact .cons (.refl _) ih
    | list lengths items => exact .cons (.list lengths items) ih
    | @object first second names values =>
      have fields := alike_object_iff.1 (.object names values)
      have named : (Entries.get? "name" first).bind text? =
          (Entries.get? "name" second).bind text? :=
        text?_alike (fields "name")
      simp only [repairDependent, named]
      -- The names agree, so both scans stop at this parameter or neither does.
      split
      · exact .cons (alike_object_iff.2 (fields.put "schema" (.refl _))) rest
      · exact .cons (.object names values) ih

theorem repairRemove_alike (h : Alike a b) : Alike (repairRemove a) (repairRemove b) := by
  cases h with
  | refl => exact .refl _
  | list lengths items => exact .list lengths items
  | @object first second names values =>
    have fields := alike_object_iff.1 (.object names values)
    have := fields "parameters"
    simp only [repairRemove]
    generalize Entries.get? "parameters" first = c at this ⊢
    generalize Entries.get? "parameters" second = d at this ⊢
    cases this with
    | none => exact .object names values
    | @some value other alike =>
      cases alike with
      | refl =>
        cases value with
        | list items => exact alike_object_iff.2 (fields.put "parameters" (.refl _))
        | _ => exact .object names values
      | list lengths items =>
        refine alike_object_iff.2 (fields.put "parameters" (alike_list_iff.2 ?_))
        exact repairDependent_alike (alike_list_iff.1 (.list lengths items))
      | object _ _ => exact .object names values

theorem mended_alike (route method : String) (h : Alike a b) :
    ExceptRel Alike (mended route method a) (mended route method b) := by
  unfold mended
  split
  · exact repairCreate_alike h
  · split
    · exact .ok (repairRead_alike h)
    · split
      · exact .ok (repairRemove_alike h)
      · exact .ok h

/-! ### Whole documents -/

/-- Do two lists of paths have the same paths, with alike operations? -/
def PathsAlike (paths others : Paths) : Prop :=
  ∀ route, (paths.get? route).isSome = (others.get? route).isSome ∧
    ∀ method, Option.Rel Alike (operation? paths route method) (operation? others route method)

variable {document other : Document}

theorem encode_alike (head : document.head = other.head)
    (generatedAt : document.generatedAt = other.generatedAt)
    (paths : PathsAlike document.paths other.paths) : Alike document.encode other.encode := by
  have items : FieldsAlike (document.paths.map fun entry => (entry.1, Json.object entry.2))
      (other.paths.map fun entry => (entry.1, Json.object entry.2)) := by
    intro route
    obtain ⟨names, operations⟩ := paths route
    rw [Entries.get?_map, Entries.get?_map]
    cases hd : document.paths.get? route with
    | none =>
      rw [hd, eq_comm, Option.isSome_none, Option.isSome_eq_false_iff,
        Option.isNone_iff_eq_none] at names
      rw [names]
      exact .none
    | some item =>
      rw [hd, Option.isSome_some, eq_comm, Option.isSome_iff_exists] at names
      obtain ⟨item', ho⟩ := names
      simp only [operation?, hd, ho, Option.bind_some] at operations
      rw [ho]
      exact .some (alike_object_iff.2 operations)
  rw [encode, encode, head, generatedAt]
  refine alike_object_iff.2 (fieldsAlike_cons _ (.refl _) (fieldsAlike_cons _ (.refl _) ?_))
  exact fieldsAlike_cons _ (.refl _) (fieldsAlike_cons _ (alike_object_iff.2 items) (.refl _))

theorem operation?_alike (h : Alike document.encode other.encode) (route method : String) :
    Option.Rel Alike (operation? document.paths route method)
      (operation? other.paths route method) := by
  have hp : Option.Rel Alike
      (some (.object (document.paths.map fun entry => (entry.1, Json.object entry.2))))
      (some (.object (other.paths.map fun entry => (entry.1, Json.object entry.2)))) :=
        h.field? "paths"
  cases hp with
  | some hp =>
    have items := alike_object_iff.1 hp route
    rw [Entries.get?_map, Entries.get?_map] at items
    unfold operation?
    generalize document.paths.get? route = item at items ⊢
    generalize other.paths.get? route = item' at items ⊢
    cases item <;> cases item' <;> cases items
    · exact .none
    · rename_i items
      exact alike_object_iff.1 items method

theorem Finished.pathsAlike {final final' : Document} (h : Finished document final)
    (h' : Finished other final') (paths : PathsAlike document.paths other.paths) :
    PathsAlike final.paths final'.paths := by
  intro route
  refine ⟨by rw [h.paths, h'.paths, (paths route).1], fun method => ?_⟩
  refine optionRel_of_map_ok (h.operations route method) (h'.operations route method) ?_
  split
  · exact .none
  · exact optionRel_map ((paths route).2 method) fun _ _ => mended_alike route method

theorem Finished.repairCreate_ne {final : Document} (h : Finished document final) {operation : Json}
    (create : Option.Rel Alike (operation? document.paths "/{name}" "post") (some operation))
    (cause : BareOperation) : repairCreate operation ≠ .error cause := by
  intro fails
  have kept := h.operations "/{name}" "post"
  rw [if_neg (by decide)] at kept
  generalize operation? document.paths "/{name}" "post" = before at create kept
  cases create with
  | @some x _ alike =>
    have same : ExceptRel Alike (mended "/{name}" "post" x) (.error cause) :=
      fails ▸ repairCreate_alike alike
    rw [Option.map_some] at kept
    obtain ⟨repaired, -, hm⟩ := Option.map_eq_some_iff.1 kept
    rw [← hm] at same
    cases same

theorem finish_alike (hd : Braced document.paths) (ho : Braced other.paths)
    (head : document.head = other.head) (generatedAt : document.generatedAt = other.generatedAt)
    (paths : PathsAlike document.paths other.paths) :
    ExceptRel (fun a b => Alike a.encode b.encode) document.finish other.finish := by
  have ends := finishes_finish hd
  have ends' := finishes_finish ho
  have create := (paths "/{name}").2 "post"
  generalize document.finish = outcome at ends ⊢
  generalize other.finish = outcome' at ends' ⊢
  cases ends with
  | done final finished =>
    cases ends' with
    | done final' finished' =>
      refine .ok (encode_alike ?_ ?_ (finished.pathsAlike finished' paths))
      · rw [finished.head, finished'.head, head]
      · rw [finished.generatedAt, finished'.generatedAt, generatedAt]
    | bare operation cause there fails =>
      exact absurd fails (finished.repairCreate_ne (there ▸ create) cause)
  | bare operation cause there fails =>
    rw [there] at create
    cases ends' with
    | done final' finished' =>
      refine absurd fails (finished'.repairCreate_ne ?_ cause)
      generalize operation? other.paths "/{name}" "post" = after at create
      cases create with
      | some alike => exact .some alike.symm
    | bare operation' cause' there' fails' =>
      rw [there'] at create
      cases create with
      | some alike =>
        have same := repairCreate_alike alike
        rw [fails, fails'] at same
        cases same
        exact .error cause

/-! ### Merging in any order -/

theorem operation?_single (path key : String) (operation : Json) (route method : String) :
    (⟨[(path, [(key, operation)])]⟩ : Fragment).operation? route method =
      if Route.normalize path = route ∧ key = method then some operation else none := by
  by_cases hp : Route.normalize path = route
  · by_cases hk : key = method <;>
      simp [Fragment.operation?, Fragment.operations, Entries.values, hp, hk]
  · simp [Fragment.operation?, Fragment.operations, hp]

end Document

/-- Do no two different fragments give different operations to one path and method? What a fragment
gives is what it lists last. -/
def Fragment.ConflictFree (fragments : List Fragment) : Prop :=
  ∀ f ∈ fragments, ∀ g ∈ fragments, f ≠ g → ∀ route method a b,
    f.operation? route method = some a → g.operation? route method = some b → Json.Alike a b

namespace Document

/-- Whatever the order in which fragments that do not contradict one another are merged into a new
document, the last pass gives the same document, up to the order of its fields, or fails with the
same error; this if no fragment has a path or an operation that goes by a name which all objects
have. -/
theorem finish_mergeAll_perm {head : DocumentHead} {moment : Int} {document : Document}
    (created : create? head moment = some document) {fragments others : List Fragment}
    (perm : fragments.Perm others) (free : Fragment.ConflictFree fragments)
    (plain : ∀ fragment ∈ fragments, fragment.IsPlain) :
    ExceptRel (fun a b => Alike a.encode b.encode) (document.mergeAll fragments).finish
      (document.mergeAll others).finish := by
  have plain' : ∀ fragment ∈ others, fragment.IsPlain := fun fragment h =>
    plain fragment (perm.mem_iff.2 h)
  rw [mergeAll, mergeAll, Draft.mergeAll_of_plain rfl plain, Draft.mergeAll_of_plain rfl plain']
  have new := braced_of_new (paths_of_create? created)
  have known := addAll_head document fragments
  have known' := addAll_head document others
  refine finish_alike (new.addAll fragments) (new.addAll others) (known.1.trans known'.1.symm)
    (known.2.trans known'.2.symm) fun route => ⟨?_, fun method => ?_⟩
  · rw [isSome_get?_addAll, isSome_get?_addAll, perm.any_eq]
  · rw [operation?_addAll, operation?_addAll]
    refine optionRel_or (optionRel_getLast? (perm.filterMap _) ?_) (optionRel_refl _)
    intro a ha b hb
    obtain ⟨f, hf, ha⟩ := List.mem_filterMap.1 ha
    obtain ⟨g, hg, hb⟩ := List.mem_filterMap.1 hb
    by_cases same : f = g
    · subst same
      rw [Option.some.inj (ha.symm.trans hb)]
      exact .refl b
    · exact free f hf g hg same route method a b ha hb

theorem conflictFree_pair {path other key key' : String}
    (apart : Route.normalize path = Route.normalize other → key ≠ key') (a b : Json) :
    Fragment.ConflictFree [⟨[(path, [(key, a)])]⟩, ⟨[(other, [(key', b)])]⟩] := by
  have never : ∀ route method x y,
      (⟨[(path, [(key, a)])]⟩ : Fragment).operation? route method = some x →
      (⟨[(other, [(key', b)])]⟩ : Fragment).operation? route method = some y → False := by
    intro route method x y hx hy
    rw [operation?_single, Option.ite_none_right_eq_some] at hx hy
    exact apart (hx.1.1.trans hy.1.1.symm) (hx.1.2.trans hy.1.2.symm)
  intro f hf g hg distinct route method x y hx hy
  simp only [List.mem_cons, List.not_mem_nil, or_false] at hf hg
  rcases hf with rfl | rfl <;> rcases hg with rfl | rfl
  · exact absurd rfl distinct
  · exact (never route method x y hx hy).elim
  · exact (never route method y x hy hx).elim
  · exact absurd rfl distinct

def colonSpelled : Fragment := ⟨[("/items/:id", [("get", .object [("summary", .text "Read")])])]⟩

def braceSpelled : Fragment :=
  ⟨[("/items/{id}", [("delete", .object [("summary", .text "Remove")])])]⟩

/-- An operation that all objects come to share, and one at the path that goes by its name. -/
def lending : Fragment := ⟨[(Draft.sharedName, [("get", .object [("summary", .text "Read")])])]⟩

def borrowing : Fragment := ⟨[("get", [("post", .object [("summary", .text "Create")])])]⟩

def showsField (outcome : Except BareOperation Document) : Bool :=
  (outcome.toOption.bind fun document => operation? document.paths "get" "summary").isSome

theorem showsField_congr {first second : Except BareOperation Document}
    (h : ExceptRel (fun a b => Alike a.encode b.encode) first second) :
    showsField first = showsField second := by
  cases h with
  | error cause => rfl
  | ok alike => exact (optionRel_iff.1 (operation?_alike alike "get" "summary")).1

theorem finish_mergeAll_perm_spellings :
    create? default 0 = some blank ∧
      [colonSpelled, braceSpelled].Perm [braceSpelled, colonSpelled] ∧
      Fragment.ConflictFree [colonSpelled, braceSpelled] ∧
      (∀ fragment ∈ [colonSpelled, braceSpelled], fragment.IsPlain) ∧
      ExceptRel (fun a b => Alike a.encode b.encode)
        (blank.mergeAll [colonSpelled, braceSpelled]).finish
        (blank.mergeAll [braceSpelled, colonSpelled]).finish ∧
      Fragment.ConflictFree [lending, borrowing] ∧
      ¬ExceptRel (fun a b => Alike a.encode b.encode)
        (blank.mergeAll [lending, borrowing]).finish
        (blank.mergeAll [borrowing, lending]).finish := by
  have perm : [colonSpelled, braceSpelled].Perm [braceSpelled, colonSpelled] := .swap _ _ _
  have free : Fragment.ConflictFree [colonSpelled, braceSpelled] :=
    conflictFree_pair (fun _ => by decide) _ _
  have plain : ∀ fragment ∈ [colonSpelled, braceSpelled], fragment.IsPlain := by decide +kernel
  refine ⟨create?_blank, perm, free, plain, finish_mergeAll_perm create?_blank perm free plain,
    conflictFree_pair (fun _ => by decide) _ _, fun same => ?_⟩
  have lent : showsField (blank.mergeAll [lending, borrowing]).finish = true := by decide +kernel
  have kept : showsField (blank.mergeAll [borrowing, lending]).finish = false := by decide +kernel
  rw [showsField_congr same, kept] at lent
  cases lent

end Document

end EndpointAtlas
