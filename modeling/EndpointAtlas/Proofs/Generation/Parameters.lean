import EndpointAtlas.Proofs.Generation.Scheduling
import EndpointAtlas.Proofs.Route.Placeholders

set_option autoImplicit false

namespace EndpointAtlas

namespace Json

def parameters (operation : Json) : List Json :=
  ((operation.field? "parameters").bind (·.items?)).getD []

def isPathParameter (name : String) (parameter : Json) : Bool :=
  (parameter.field? "in").bind (·.text?) = some "path" ∧
  (parameter.field? "name").bind (·.text?) = some name

def declarations (operation : Json) (name : String) : Nat :=
  operation.parameters.countP (isPathParameter name)

end Json

namespace Document

open Fragment Route

/-- How the parameters of an operation stand to the placeholders of its path. -/
structure Declares (path : String) (operation : Json) : Prop where
  only : ∀ parameter ∈ operation.parameters, ∃ before name, Placeholder path.toList before name ∧
    parameter = pathParameter (String.ofList name)
  often : ∀ name, operation.declarations name = (places path.toList).countP fun place =>
    place.2 = name.toList
  once : (∀ before name, Placeholder path.toList before name →
    operation.declarations (String.ofList name) = 1) ↔
    ∀ before before' name, Placeholder path.toList before name →
    Placeholder path.toList before' name →
      before = before'

variable {path key : String} {operation repaired : Json} {method : Method}

theorem isPathParameter_pathParameter (name other : String) :
    (pathParameter other).isPathParameter name = decide (other = name) := by
  simp [pathParameter, Json.isPathParameter, Json.field?, Json.fields?, Json.text?, Entries.get?]

theorem declares_of_parameters (h : operation.parameters = (parameters path).map pathParameter) :
    Declares path operation := by
  have often : ∀ name, operation.declarations name =
      (places path.toList).countP fun place => place.2 = name.toList := by
    intro name
    rw [Json.declarations, h, parameters_eq, List.map_map, List.countP_map]
    refine List.countP_congr fun place _ => ?_
    rw [Function.comp_apply, Function.comp_apply, isPathParameter_pathParameter, decide_eq_true_iff,
      decide_eq_true_iff, ← String.toList_inj, String.toList_ofList]
  have counted : ∀ name, operation.declarations (String.ofList name) =
      ((places path.toList).map (·.2)).count name := by
    intro name
    rw [often, List.count, List.countP_map, String.toList_ofList]
    exact List.countP_congr fun place _ => by simp
  refine ⟨fun parameter hp => ?_, often, ?_⟩
  · rw [h, parameters_eq, List.map_map] at hp
    obtain ⟨place, hm, rfl⟩ := List.mem_map.1 hp
    exact ⟨place.1, place.2, mem_places_iff.1 hm, rfl⟩
  · rw [← nodup_names_iff, List.nodup_iff_count_eq_one]
    simp only [counted]
    constructor
    · intro once name hn
      obtain ⟨place, hp, rfl⟩ := List.mem_map.1 hn
      exact once place.1 place.2 (mem_places_iff.1 hp)
    · intro once before name placeholder
      exact once name (List.mem_map.2 ⟨(before, name), mem_places_iff.2 placeholder, rfl⟩)

/-! ### What the last pass leaves -/

theorem parameters_plainOperation (method : Method) (path : String) :
    (plainOperation method path).parameters = (parameters path).map pathParameter := by
  cases names : parameters path with
  | nil => simp [plainOperation, names, Json.parameters, Json.field?, Json.fields?, Entries.get?]
  | cons name rest =>
    simp [plainOperation, names, Json.parameters, Json.field?, Json.fields?, Json.items?,
      Entries.get?]

theorem get?_repairedCreate {fields : Entries Json} {name : String} (body : name ≠ "requestBody")
    (responses : name ≠ "responses") : (repairedCreate fields).get? name = fields.get? name := by
  rw [repairedCreate, Entries.get?_put, if_neg responses.symm]
  split
  · rw [Entries.get?_put, if_neg body.symm]
  · rfl

theorem repairRemove_plainOperation (method : Method) :
    repairRemove (plainOperation method "/\x7bname\x7d/\x7bid\x7d") =
      plainOperation method "/\x7bname\x7d/\x7bid\x7d" := by
  have names : parameters "/\x7bname\x7d/\x7bid\x7d" = ["name", "id"] := by decide +kernel
  simp only [plainOperation, names]
  rfl

theorem parameters_mended (h : mended path key (plainOperation method path) = .ok repaired) :
    repaired.parameters = (parameters path).map pathParameter := by
  rw [← parameters_plainOperation method path]
  unfold mended at h
  split at h
  · obtain rfl := Except.ok.inj h
    unfold Json.parameters
    rw [Json.field?, Json.fields?, Option.bind_some, get?_repairedCreate (by decide) (by decide)]
    rfl
  · split at h
    · obtain rfl := Except.ok.inj h
      rw [repairRead_plainOperation]
    · split at h
      · rename_i place
        obtain rfl := Except.ok.inj h
        rw [place.1, repairRemove_plainOperation]
      · obtain rfl := Except.ok.inj h
        rfl

end Document

namespace Run

open Document Fragment

theorem IsField.parameters_eq_nil {path key : String} {value : Json} (h : IsField path key value) :
    value.parameters = [] := by
  obtain ⟨m, -, field⟩ := h
  have none : Route.parameters Draft.sharedName = [] := by decide +kernel
  simp only [plainOperation, none, Json.field?, Json.fields?, Option.bind_some, List.isEmpty_nil,
    if_true, List.append_nil, Entries.get?] at field
  split at field
  · cases field
    rfl
  · split at field <;> cases field
    rfl

theorem IsField.declares {path key : String} {value repaired : Json} (h : IsField path key value)
    (mends : mended path key value = .ok repaired) : Declares path repaired := by
  have bare : ∀ path ∈ operationKeys, path ≠ "/\x7bname\x7d" ∧ path ≠ "/\x7bname\x7d/\x7bid\x7d" ∧
      Route.parameters path = [] := by decide +kernel
  obtain ⟨collection, member, none⟩ := bare path h.route_mem
  have kept : mended path key value = .ok value := by
    rw [mended, if_neg fun place => collection place.1, if_neg fun place => collection place.1,
      if_neg fun place => member place.1]
  obtain rfl := Except.ok.inj (kept.symm.trans mends)
  refine declares_of_parameters ?_
  rw [h.parameters_eq_nil, none]
  rfl

/-- Whatever the endpoints, the number of workers and the order in which they end are: with the
plain generator a run gives a document unless the sink refuses the progress; and in the document
that it gives each operation declares the placeholders of its path. -/
theorem fragments_declare {head : DocumentHead} {moment : Int} {document : Document}
    (created : create? head moment = some document) {options : RunOptions}
    (plain : options.generator = Generator.plain) (config : Config) (snapshot : Snapshot)
    (tree : FileTree) (endpoints : List Endpoint) :
    ((∀ n, options.sink n = .ok ()) →
      ∃ final, (fragments config options snapshot tree document endpoints).outcome = .ok final) ∧
    ∀ final, (fragments config options snapshot tree document endpoints).outcome = .ok final →
      ∀ path method operation, operation? final.paths path method = some operation →
      Declares path operation := by
  have new := paths_of_create? created
  obtain ⟨made, finished, gives, only⟩ :=
    outcome_fragments_plain config snapshot tree endpoints plain new
  refine ⟨fun silent => ⟨made, gives silent⟩, fun final given path method operation there => ?_⟩
  obtain rfl := only final given
  have repaired := finished.operations path method
  rw [there, Option.map_some] at repaired
  split at repaired
  · cases repaired
  · obtain ⟨before, hb, mends⟩ := Option.map_eq_some_iff.1 repaired.symm
    rcases (all_mergeAll (given_plain_perm plain).subset new).own _ _ _ hb with ⟨e, -, -, -,
      rfl⟩ | field
    · exact declares_of_parameters (parameters_mended mends)
    · exact field.declares mends

def repeatedPath : String := "/a/\x7bid\x7d/b/\x7bid\x7d"

def repeatedTree : FileTree := ⟨"/", [(["app.js"], .text "app.get('/a/:id/b/:id', h);\n")], []⟩

def repeatedRun : Run :=
  fragments Config.default (ordered []) [] repeatedTree Document.blank
    (Endpoint.discover repeatedTree ["/app.js"])

theorem fragments_declare_repeated :
    create? default 0 = some Document.blank ∧ (ordered []).generator = Generator.plain ∧
      ∃ final operation, repeatedRun.outcome = .ok final ∧
        operation? final.paths repeatedPath "get" = some operation ∧
        Declares repeatedPath operation ∧
        Route.Placeholder repeatedPath.toList "/a/".toList "id".toList ∧
        operation.declarations "id" = 2 := by
  have twice : ((repeatedRun.outcome.toOption.bind fun document =>
      operation? document.paths repeatedPath "get").map (·.declarations "id")) =
        some 2 := by decide +kernel
  obtain ⟨given, declare⟩ :=
    fragments_declare create?_blank (show (ordered []).generator = Generator.plain from rfl)
    Config.default [] repeatedTree (Endpoint.discover repeatedTree ["/app.js"])
  obtain ⟨final, outcome⟩ := given fun _ => rfl
  rw [show repeatedRun.outcome = .ok final from outcome] at twice
  obtain ⟨operation, there, two⟩ := Option.map_eq_some_iff.1 twice
  have declares := declare final outcome _ _ operation there
  have stands : ("/a/".toList, "id".toList) ∈ Route.places repeatedPath.toList := by decide +kernel
  exact ⟨create?_blank, rfl, final, operation, outcome, there, declares,
    Route.mem_places_iff.1 stands, two⟩

end Run

end EndpointAtlas
