import EndpointAtlas.Proofs.OpenApi.Rekeyed

/-!
What the repairs of the last pass change. Main statement: in paths in braces the pass changes three
operations, in the fields that are named here and in no others, and a second pass changes nothing at
all.
-/

set_option autoImplicit false

namespace EndpointAtlas

namespace Json

def along? (value : Json) : List String → Option Json
  | [] => some value
  | name :: rest => (value.field? name).bind (along? · rest)

theorem eq_object_of_fields? {value : Json} {fields : Entries Json}
    (h : value.fields? = some fields) : value = .object fields := by
  cases value with
  | object other => rw [Option.some.inj h]
  | null | bool | number | text | list => cases h

def nonNull? : Json → Option Json
  | .null => none
  | value => some value

theorem nonNull?_ne {value found : Json} (h : value.nonNull? = some found) : found ≠ .null := by
  rintro rfl
  cases value <;> cases h

theorem nonNull?_of_ne {value : Json} (h : value ≠ .null) : value.nonNull? = some value := by
  cases value with
  | null => exact absurd rfl h
  | bool | number | text | list | object => rfl

/-! ### Changes -/

/-- A change of one field; all others stay as they are, in their order. -/
structure FieldChange (name : String) (change : Option Json → Option Json → Prop)
    (before after : Entries Json) : Prop where
  others : after.erase name = before.erase name
  field : change (before.get? name) (after.get? name)

/-- A change of an object; what is none stays as it is. -/
inductive ObjectChange (change : Entries Json → Entries Json → Prop) :
    Option Json → Option Json → Prop where
  | object {before after : Entries Json} (changed : change before after) :
      ObjectChange change (some (.object before)) (some (.object after))
  | other {value : Option Json} (none : value.bind fields? = none) : ObjectChange change value value

inductive ListChange (change : List Json → List Json → Prop) :
    Option Json → Option Json → Prop where
  | list {before after : List Json} (changed : change before after) :
      ListChange change (some (.list before)) (some (.list after))
  | other {value : Option Json} (none : value.bind items? = none) : ListChange change value value

/-- A change of the first object that is sought; a list without it stays as it is. -/
inductive FirstChange (sought : Json → Prop) (change : Entries Json → Entries Json → Prop) :
    List Json → List Json → Prop where
  | first {before after : Entries Json} (earlier later : List Json) (passed : ∀ item ∈ earlier,
      ¬sought item)
      (found : sought (.object before)) (changed : change before after) :
      FirstChange sought change (earlier ++ .object before :: later)
        (earlier ++ .object after :: later)
  | none {items : List Json} (none : ∀ item ∈ items,
      ¬sought item) : FirstChange sought change items items

def Becomes (value : Option Json) (_ after : Option Json) : Prop := after = value

theorem fieldChange_put {change : Option Json → Option Json → Prop} {name : String} {value : Json}
    {fields : Entries Json} (h : change (fields.get? name) (some value)) :
    FieldChange name change fields (fields.put name value) where
  others := Entries.erase_put name value fields
  field := by
    rw [Entries.get?_put, if_pos rfl]
    exact h

end Json

open Json

namespace Document

/-! ### Operations that create -/

/-- The schema of the response to a creation, else to a read, else the one for none. -/
def formerSchema (operation : Json) : Json :=
  (["201", "200"].findSome? fun code =>
    (operation.along? ["responses", code, "content", "application/json", "schema"]).bind
      nonNull?).getD createdSchema

/-- What becomes of an operation that creates a resource: its body is optional, and its responses
are the conventional ones with the schema that it had. -/
def CreateChange (before after : Entries Json) : Prop :=
  ∃ between,
    FieldChange "requestBody" (ObjectChange (FieldChange "required" (Becomes (some (.bool false)))))
      before between ∧
    FieldChange "responses" (Becomes (some (createdResponses (formerSchema (.object before)))))
      between after

theorem objectField?_eq_some {fields inner : Entries Json} {name : String} :
    objectField? fields name = some inner ↔ fields.get? name = some (.object inner) := by
  rw [objectField?, Option.bind_eq_some_iff]
  constructor
  · rintro ⟨value, hv, isObject⟩
    rw [hv, eq_object_of_fields? isObject]
  · exact fun there => ⟨_, there, rfl⟩

def optionalBody (fields : Entries Json) : Entries Json :=
  match objectField? fields "requestBody" with
  | some body => fields.put "requestBody" (.object (Entries.put "required" (.bool false) body))
  | none => fields

variable {fields : Entries Json}

theorem get?_optionalBody {name : String} (h : name ≠ "requestBody") :
    (optionalBody fields).get? name = fields.get? name := by
  unfold optionalBody
  split
  · rw [Entries.get?_put, if_neg h.symm]
  · rfl

theorem along?_object (fields : Entries Json) (name next : String) (rest : List String) :
    (Json.object fields).along? (name :: next :: rest) =
      (objectField? fields name).bind fun inner => (Json.object inner).along? (next :: rest) := by
  simp only [along?, field?, objectField?, fields?, Option.bind_some, Option.bind_assoc]

theorem schemaOf?_responses (fields : Entries Json) (code : String) :
    schemaOf? ((objectField? fields "responses").getD []) code =
      ((Json.object fields).along? ["responses", code, "content", "application/json",
        "schema"]).bind nonNull? := by
  rw [along?_object]
  cases objectField? fields "responses" with
  | none => rfl
  | some responses =>
    simp only [schemaOf?, Option.getD_some, Option.bind_some, along?_object, Option.bind_assoc,
      Option.bind_eq_bind]
    refine Option.bind_congr fun response _ => Option.bind_congr fun content _ =>
      Option.bind_congr fun body _ => ?_
    simp only [along?, field?, fields?, Option.bind_some]
    cases body.get? "schema" with
    | none => rfl
    | some schema => cases schema <;> rfl

theorem repairedCreate_eq (fields : Entries Json) : repairedCreate fields =
    (optionalBody fields).put "responses" (createdResponses (formerSchema (.object fields))) := by
  have same : objectField? (optionalBody fields) "responses" = objectField? fields "responses" := by
    rw [objectField?, objectField?, get?_optionalBody (by decide)]
  have schema : formerSchema (.object fields) =
      ((schemaOf? ((objectField? fields "responses").getD []) "201").or
        (schemaOf? ((objectField? fields "responses").getD []) "200")).getD createdSchema := by
    rw [formerSchema, schemaOf?_responses, schemaOf?_responses]
    simp only [List.findSome?_cons, List.findSome?_nil]
    split
    · rename_i given
      rw [given, Option.some_or]
    · rename_i none
      rw [none, Option.none_or]
      split <;> simp_all only
  rw [schema, ← same]
  rfl

theorem formerSchema_ne_null (operation : Json) : formerSchema operation ≠ .null := by
  unfold formerSchema
  cases found : (["201", "200"].findSome? fun code =>
      (operation.along? ["responses", code, "content", "application/json", "schema"]).bind
        nonNull?) with
  | none => nofun
  | some schema =>
    obtain ⟨code, -, given⟩ := List.exists_of_findSome?_eq_some found
    obtain ⟨value, -, given⟩ := Option.bind_eq_some_iff.1 given
    exact nonNull?_ne given

theorem formerSchema_put (fields : Entries Json) {schema : Json} (given : schema ≠ .null) :
    formerSchema (.object (fields.put "responses" (createdResponses schema))) = schema := by
  have there : (Json.object (fields.put "responses" (createdResponses schema))).along?
      ["responses", "201", "content", "application/json", "schema"] = some schema := by
    rw [along?_object, objectField?, Entries.get?_put, if_pos rfl]
    rfl
  rw [formerSchema, List.findSome?_cons, there, Option.bind_some, nonNull?_of_ne given]
  rfl

theorem optionalBody_put (fields : Entries Json) (responses : Json) :
    optionalBody ((optionalBody fields).put "responses" responses) =
      (optionalBody fields).put "responses" responses := by
  have there : ((optionalBody fields).put "responses" responses).get? "requestBody" =
      (optionalBody fields).get? "requestBody" := by
    rw [Entries.get?_put, if_neg (by decide)]
  rw [optionalBody, objectField?, there]
  cases hb : objectField? fields "requestBody" with
  | none =>
    have bare : optionalBody fields = fields := by rw [optionalBody, hb]
    rw [bare, ← objectField?, hb]
  | some body =>
    have optional : (optionalBody fields).get? "requestBody" =
        some (.object (Entries.put "required" (.bool false) body)) := by
      rw [optionalBody, hb, Entries.get?_put, if_pos rfl]
    rw [optional] at there ⊢
    have again : Entries.put "required" (.bool false) (Entries.put "required" (.bool false) body) =
        Entries.put "required" (Json.bool false) body :=
      Entries.put_of_get? (by rw [Entries.get?_put, if_pos rfl])
    simp only [Option.bind_some, fields?, again]
    exact Entries.put_of_get? there

theorem repairedCreate_repairedCreate (fields : Entries Json) :
    repairedCreate (repairedCreate fields) = repairedCreate fields := by
  rw [repairedCreate_eq (repairedCreate fields), repairedCreate_eq fields,
    formerSchema_put _ (formerSchema_ne_null _), optionalBody_put]
  exact Entries.put_of_get? (by rw [Entries.get?_put, if_pos rfl])

theorem createChange_repairedCreate (fields : Entries Json) :
    CreateChange fields (repairedCreate fields) := by
  refine ⟨optionalBody fields, ?_, ?_⟩
  · unfold optionalBody
    cases hb : objectField? fields "requestBody" with
    | none => exact ⟨rfl, .other hb⟩
    | some body =>
      refine fieldChange_put ?_
      rw [objectField?_eq_some.1 hb]
      exact .object (fieldChange_put rfl)
  · rw [repairedCreate_eq]
    exact fieldChange_put rfl

/-! ### Operations that read -/

/-- What becomes of an operation that reads a resource: it has no response to a bad request. -/
def ReadChange : Entries Json → Entries Json → Prop :=
  FieldChange "responses" (ObjectChange (FieldChange "400" (Becomes none)))

theorem repairRead_of_responses {responses : Entries Json}
    (h : fields.get? "responses" = some (.object responses)) :
    repairRead (.object fields) =
      .object (fields.put "responses" (.object (responses.erase "400"))) := by
  simp only [repairRead, objectField?_eq_some.2 h]

theorem repairRead_of_none (h : objectField? fields "responses" = none) :
    repairRead (.object fields) = .object fields := by
  simp only [repairRead, h]

theorem readChange_repairRead (fields : Entries Json) :
    ∃ after, repairRead (.object fields) = .object after ∧ ReadChange fields after := by
  cases hr : objectField? fields "responses" with
  | none => exact ⟨fields, repairRead_of_none hr, rfl, .other hr⟩
  | some responses =>
    have there := objectField?_eq_some.1 hr
    refine ⟨_, repairRead_of_responses there, fieldChange_put ?_⟩
    rw [there]
    exact .object ⟨Entries.erase_of_not_mem
      (by simp [Entries.keys_erase]), by simp [Becomes, Entries.get?_erase]⟩

theorem repairRead_repairRead (operation : Json) :
    repairRead (repairRead operation) = repairRead operation := by
  cases operation with
  | null | bool | number | text | list => rfl
  | object fields =>
    cases hr : objectField? fields "responses" with
    | none => rw [repairRead_of_none hr, repairRead_of_none hr]
    | some responses =>
      have there :
          (Entries.put "responses" (.object (responses.erase "400")) fields).get? "responses" =
          some (.object (responses.erase "400")) := by
        rw [Entries.get?_put, if_pos rfl]
      have gone : (responses.erase "400").erase "400" = responses.erase "400" :=
        Entries.erase_of_not_mem (by simp [Entries.keys_erase])
      rw [repairRead_of_responses (objectField?_eq_some.1 hr), repairRead_of_responses there, gone,
        Entries.put_of_get? there]

/-! ### Operations that remove -/

/-- Is a value the parameter for dependent resources? -/
def IsDependent (parameter : Json) : Prop := parameter.field? "name" = some (.text "_dependent")

/-- What becomes of an operation that removes a resource: the first parameter for dependent
resources takes one text or several. -/
def RemoveChange : Entries Json → Entries Json → Prop :=
  FieldChange "parameters"
    (ListChange (FirstChange IsDependent (FieldChange "schema" (Becomes (some oneOrMany)))))

theorem isDependent_object {fields : Entries Json} :
    IsDependent (.object fields) ↔ (Entries.get? "name" fields).bind text? = some "_dependent" := by
  rw [IsDependent, field?, fields?, Option.bind_some]
  cases fields.get? "name" with
  | none => simp
  | some name => cases name <;> simp [text?]

theorem repairDependent_cons_dependent {fields : Entries Json} (h : IsDependent (.object fields))
    (rest : List Json) :
    repairDependent (.object fields :: rest) =
      .object (Entries.put "schema" oneOrMany fields) :: rest := by
  rw [repairDependent, if_pos (isDependent_object.1 h)]

theorem repairDependent_cons_other {parameter : Json} (h : ¬IsDependent parameter)
    (rest : List Json) :
    repairDependent (parameter :: rest) = parameter :: repairDependent rest := by
  cases parameter with
  | null | bool | number | text | list => rfl
  | object fields => rw [repairDependent, if_neg fun named => h (isDependent_object.2 named)]

theorem exists_object_of_isDependent {parameter : Json} (h : IsDependent parameter) :
    ∃ fields, parameter = .object fields := by
  obtain ⟨fields, hf, -⟩ := Option.bind_eq_some_iff.1 h
  exact ⟨fields, eq_object_of_fields? hf⟩

theorem firstChange_repairDependent (parameters : List Json) :
    FirstChange IsDependent (FieldChange "schema" (Becomes (some oneOrMany))) parameters
      (repairDependent parameters) := by
  induction parameters with
  | nil => exact .none nofun
  | cons parameter rest ih =>
    by_cases dependent : IsDependent parameter
    · obtain ⟨fields, rfl⟩ := exists_object_of_isDependent dependent
      rw [repairDependent_cons_dependent dependent]
      exact .first [] rest nofun dependent (fieldChange_put rfl)
    · rw [repairDependent_cons_other dependent]
      generalize repairDependent rest = after at ih
      cases ih with
      | first earlier later passed found changed =>
        exact .first (parameter :: earlier) later
          (List.forall_mem_cons.2 ⟨dependent, passed⟩) found changed
      | none none => exact .none (List.forall_mem_cons.2 ⟨dependent, none⟩)

theorem repairDependent_repairDependent (parameters : List Json) :
    repairDependent (repairDependent parameters) = repairDependent parameters := by
  induction parameters with
  | nil => rfl
  | cons parameter rest ih =>
    by_cases dependent : IsDependent parameter
    · obtain ⟨fields, rfl⟩ := exists_object_of_isDependent dependent
      have still : IsDependent (.object (Entries.put "schema" oneOrMany fields)) := by
        rw [isDependent_object, Entries.get?_put, if_neg (by decide)]
        exact isDependent_object.1 dependent
      rw [repairDependent_cons_dependent dependent, repairDependent_cons_dependent still,
        Entries.put_of_get? (by rw [Entries.get?_put, if_pos rfl])]
    · rw [repairDependent_cons_other dependent, repairDependent_cons_other dependent, ih]

theorem repairRemove_of_parameters {parameters : List Json}
    (h : fields.get? "parameters" = some (.list parameters)) :
    repairRemove (.object fields) =
      .object (fields.put "parameters" (.list (repairDependent parameters))) := by
  simp only [repairRemove, h]

theorem repairRemove_of_none (h : (fields.get? "parameters").bind items? = none) :
    repairRemove (.object fields) = .object fields := by
  simp only [repairRemove]
  split
  · rename_i parameters there
    rw [there] at h
    cases h
  · rfl

theorem eq_list_of_items? {value : Json} {items : List Json} (h : value.items? = some items) :
    value = .list items := by
  cases value with
  | list other => rw [Option.some.inj h]
  | null | bool | number | text | object => cases h

theorem listField_eq_some {name : String} {items : List Json}
    (h : (fields.get? name).bind items? = some items) : fields.get? name = some (.list items) := by
  obtain ⟨value, hv, isList⟩ := Option.bind_eq_some_iff.1 h
  rw [hv, eq_list_of_items? isList]

theorem removeChange_repairRemove (fields : Entries Json) :
    ∃ after, repairRemove (.object fields) = .object after ∧ RemoveChange fields after := by
  cases hp : (fields.get? "parameters").bind items? with
  | none => exact ⟨fields, repairRemove_of_none hp, rfl, .other hp⟩
  | some parameters =>
    have there := listField_eq_some hp
    refine ⟨_, repairRemove_of_parameters there, fieldChange_put ?_⟩
    rw [there]
    exact .list (firstChange_repairDependent parameters)

theorem repairRemove_repairRemove (operation : Json) :
    repairRemove (repairRemove operation) = repairRemove operation := by
  cases operation with
  | null | bool | number | text | list => rfl
  | object fields =>
    cases hp : (Entries.get? "parameters" fields).bind items? with
    | none => rw [repairRemove_of_none hp, repairRemove_of_none hp]
    | some parameters =>
      have there :
          (Entries.put "parameters" (.list (repairDependent parameters)) fields).get? "parameters" =
          some (.list (repairDependent parameters)) := by
        rw [Entries.get?_put, if_pos rfl]
      rw [repairRemove_of_parameters (listField_eq_some hp), repairRemove_of_parameters there,
        repairDependent_repairDependent, Entries.put_of_get? there]

/-! ### The whole pass -/

theorem eq_of_repairCreate {operation other : Json} (none : operation.fields? = none)
    (h : repairCreate operation = .ok other) : other = operation := by
  have atom : ∀ {P : Prop} [Decidable P] {cause : BareOperation},
      (if P then Except.error cause else .ok operation) = Except.ok other → other = operation := by
    intro P _ cause hif
    split at hif
    · cases hif
    · exact (Except.ok.inj hif).symm
  cases operation with
  | object fields => cases none
  | null | list => exact (Except.ok.inj h).symm
  | bool value => exact atom h
  | number value => exact atom h
  | text value =>
    simp only [repairCreate, ← ite_not (p := value = "")] at h
    exact atom h

theorem repairCreate_repairCreate {operation other : Json}
    (h : repairCreate operation = .ok other) : repairCreate other = .ok other := by
  cases hf : operation.fields? with
  | none =>
    have same := eq_of_repairCreate hf h
    rwa [same] at h ⊢
  | some fields =>
    obtain rfl := eq_object_of_fields? hf
    obtain rfl := Except.ok.inj h
    exact congrArg (Except.ok ∘ Json.object) (repairedCreate_repairedCreate fields)

variable {route method : String} {operation other : Json}

theorem mended_mended (h : mended route method operation = .ok other) :
    mended route method other = .ok other := by
  unfold mended at h ⊢
  split
  · rename_i create
    rw [if_pos create] at h
    exact repairCreate_repairCreate h
  · rename_i create
    rw [if_neg create] at h
    split
    · rename_i read
      rw [if_pos read] at h
      obtain rfl := Except.ok.inj h
      rw [repairRead_repairRead]
    · rename_i read
      rw [if_neg read] at h
      split
      · rename_i remove
        rw [if_pos remove] at h
        obtain rfl := Except.ok.inj h
        rw [repairRemove_repairRemove]
      · rfl

theorem changeAt_of_fixed {paths : Paths} {change : Json → Json}
    (h : ∀ operation, operation? paths route method = some operation →
      change operation = operation) :
    changeAt paths route method change = paths := by
  unfold changeAt
  cases hi : paths.get? route with
  | none => rfl
  | some item =>
    cases ho : Entries.get? method item with
    | none => simp only [ho]
    | some operation =>
      have gives : operation? paths route method =
          some operation := by rw [operation?, hi, Option.bind_some, ho]
      simp only [ho, h operation gives, Entries.put_of_get? ho]
      exact Entries.put_of_get? hi

theorem repaired_of_mended {paths : Paths} (h : ∀ route method operation,
    operation? paths route method = some operation →
    mended route method operation = .ok operation) : repaired paths = paths := by
  have create : changeAt paths "/{name}" "post" created = paths := by
    refine changeAt_of_fixed fun operation there => ?_
    have fixed : repairCreate operation = .ok operation := by
      have := h _ _ _ there
      rwa [mended, if_pos ⟨rfl, rfl⟩] at this
    rw [created, fixed]
    rfl
  have read : changeAt paths "/{name}" "get" repairRead = paths := by
    refine changeAt_of_fixed fun operation there => ?_
    have := h _ _ _ there
    rw [mended, if_neg (by decide), if_pos ⟨rfl, rfl⟩] at this
    exact Except.ok.inj this
  have remove : changeAt paths "/{name}/{id}" "delete" repairRemove = paths := by
    refine changeAt_of_fixed fun operation there => ?_
    have := h _ _ _ there
    rw [mended, if_neg (by decide), if_neg (by decide), if_pos ⟨rfl, rfl⟩] at this
    exact Except.ok.inj this
  rw [repaired, create, read, remove]

variable {document final : Document}

theorem finish_finish (h : document.finish = .ok final) : final.finish = .ok final := by
  have mendedAll : ∀ route method operation, operation? final.paths route method = some operation →
      mended route method operation = .ok operation := by
    intro route method operation there
    obtain ⟨source, -, mends⟩ := (operation?_finish_eq_some h).1 there
    exact mended_mended mends
  have keys := keys_finish h
  have braced : Braced final.paths := fun path there =>
    braced_rekeyAll _ path (Entries.get?_isSome_iff.2 (keys ▸ Entries.get?_isSome_iff.1 there))
  have same : final.rekeyed = final :=
    rekeyed_of_braced braced fun path wild there => not_mem_keys_rekeyed wild (keys ▸ there)
  refine finish_eq_ok_iff.2 ⟨fun operation there => ?_, ?_⟩
  · rw [same] at there
    have := mendedAll _ _ _ there
    rw [mended, if_pos ⟨rfl, rfl⟩] at this
    exact ⟨operation, this⟩
  · rw [same, repaired_of_mended mendedAll]

/-- How paths that have been repaired stand to those before. -/
structure Repairs (before after : Paths) : Prop where
  paths : after.keys = before.keys
  methods : ∀ route, (after.get? route).map Entries.keys = (before.get? route).map Entries.keys
  others : ∀ route method,
    (route, method) ∉ [("/{name}", "post"), ("/{name}", "get"), ("/{name}/{id}", "delete")] →
      operation? after route method = operation? before route method
  create : ObjectChange CreateChange (operation? before "/{name}" "post")
    (operation? after "/{name}" "post")
  read : ObjectChange ReadChange (operation? before "/{name}" "get")
    (operation? after "/{name}" "get")
  remove : ObjectChange RemoveChange (operation? before "/{name}/{id}" "delete")
    (operation? after "/{name}/{id}" "delete")

theorem methods_changeAt (paths : Paths) (path key : String) (change : Json → Json)
    (route : String) :
    ((changeAt paths path key change).get? route).map Entries.keys =
      (paths.get? route).map Entries.keys := by
  unfold changeAt
  split
  · rename_i item hi
    split
    · rename_i operation ho
      rw [Entries.get?_put]
      split
      · rename_i same
        rw [← same, hi, Option.map_some, Option.map_some, Entries.keys_put _ (by rw [ho]; rfl)]
      · rfl
    · rfl
  · rfl

theorem objectChange_of_mended {change : Entries Json → Entries Json → Prop}
    (h : document.finish = .ok final) (objects : Objects document.paths)
    (changes : ∀ fields, ∃ after, mended route method (.object fields) = .ok (.object after) ∧
      change fields after) :
    ObjectChange change (operation? document.rekeyed.paths route method)
      (operation? final.paths route method) := by
  have mends := operation?_finish h route method
  cases there : operation? document.rekeyed.paths route method with
  | none =>
    rw [there, Option.map_none, Option.map_eq_none_iff] at mends
    rw [mends]
    exact .other rfl
  | some source =>
    obtain ⟨fields, rfl⟩ := objects.rekeyed.operation? there
    obtain ⟨after, mend, changed⟩ := changes fields
    rw [(operation?_finish_eq_some h).2 ⟨_, there, mend⟩]
    exact .object changed

theorem repairs_finish (h : document.finish = .ok final) (objects : Objects document.paths) :
    Repairs document.rekeyed.paths final.paths where
  paths := keys_finish h
  methods route := by
    rw [(finish_eq_ok_iff.1 h).2, repaired, methods_changeAt, methods_changeAt, methods_changeAt]
  others route method elsewhere := by
    simp only [List.mem_cons, Prod.mk.injEq, List.not_mem_nil, or_false, not_or] at elsewhere
    have mends := operation?_finish h route method
    have stays : mended route method = Except.ok := by
      funext operation
      rw [mended, if_neg elsewhere.1, if_neg elsewhere.2.1, if_neg elsewhere.2.2]
    rw [stays] at mends
    exact Option.map_injective (fun _ _ => Except.ok.inj) mends
  create := objectChange_of_mended h objects fun fields =>
    ⟨repairedCreate fields, rfl, createChange_repairedCreate fields⟩
  read := objectChange_of_mended h objects fun fields => by
    obtain ⟨after, reads, change⟩ := readChange_repairRead fields
    exact ⟨after, congrArg Except.ok reads, change⟩
  remove := objectChange_of_mended h objects fun fields => by
    obtain ⟨after, removes, change⟩ := removeChange_repairRemove fields
    exact ⟨after, congrArg Except.ok removes, change⟩

/-- The last pass comes to its end on every document whose operations are objects, and a second pass
changes nothing. But for wildcards and the spelling of paths it leaves a document as it is, apart
from the body and the responses of the operation that creates at `/{name}`, the response to a bad
request of the one that reads there, and the schema of the first parameter for dependent resources
of the one that removes at `/{name}/{id}`. -/
theorem finish_repairs (document : Document) (objects : Objects document.paths) :
    ∃ final, document.finish = .ok final ∧ final.finish = .ok final ∧ final.head = document.head ∧
      final.generatedAt = document.generatedAt ∧ Repairs document.rekeyed.paths final.paths := by
  obtain ⟨final, h⟩ := objects.exists_finish
  have finished := finished_rekeyed h
  exact ⟨final, h, finish_finish h, finished.head, finished.generatedAt, repairs_finish h objects⟩

def resources : Document where
  head := default
  generatedAt := ""
  paths := [
    ("/:name", [
      ("post", .object [
        ("requestBody", .object [("required", .bool true), ("content", .null)]),
        ("responses", .object [("200", .object [("content", .text "ill-typed")])])]),
      ("get", .object [("responses", .object [("400", .null), ("200", .null)])])]),
    ("/{name}/{id}", [
      ("delete", .object [("parameters", .list [
        .null,
        .object [("name", .text "_dependent"), ("in", .text "query")]])])])]

theorem finish_repairs_resources :
    Objects resources.paths ∧ ∃ final, resources.finish = .ok final ∧ final.finish = .ok final ∧
      Repairs resources.rekeyed.paths final.paths ∧
      operation? final.paths "/{name}" "get" =
        some (.object [("responses", .object [("200", .null)])]) := by
  have objects : Objects resources.paths := by decide
  obtain ⟨final, ends, again, -, -, repairs⟩ := finish_repairs resources objects
  exact ⟨objects, final, ends, again, repairs, (operation?_finish_eq_some ends).2 ⟨_, rfl, rfl⟩⟩

end Document

end EndpointAtlas
