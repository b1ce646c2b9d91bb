import EndpointAtlas.Generation
import EndpointAtlas.Proofs.OpenApi.Skeleton
import EndpointAtlas.Proofs.Pool.Completion

/-!
How far the document of a run depends on its workers and on the order in which they end. Main
statements: a run merges the fragment of each endpoint once, in the order of the reports; with the
plain generator any two numbers of workers and any two orders give the same document, but for the
summary of an operation that stands for a read as well as for all methods of one path.
-/

set_option autoImplicit false

namespace EndpointAtlas

theorem Bundle.endpoint_of (tree : FileTree) (snapshot : Snapshot) (e : Endpoint) :
    (Bundle.of tree snapshot e).endpoint = e := by
  unfold Bundle.of
  split <;> rfl

namespace Run

variable {config : Config} {options : RunOptions} {request : Endpoint → FragmentRequest}
  {snapshot : Snapshot} {tree : FileTree} {document : Document} {endpoints : List Endpoint}

/-! ### Answers in the order of their reports -/

/-- The fragments of a run, in the order in which it merges them. -/
def given (config : Config) (options : RunOptions) (request : Endpoint → FragmentRequest)
    (endpoints : List Endpoint) : List Fragment :=
  (asked config options request endpoints).settled.filterMap fun job => job.outcome.toOption

theorem draft_takeAll {sink : Nat → Except String Unit} {total : Nat} {merged after : Merged}
    {answers : List (Endpoint × Except String Fragment)}
    (h : takeAll sink total merged answers = (after, none)) :
    after.draft = (answers.filterMap fun answer =>
      answer.2.toOption).foldl Draft.merge merged.draft := by
  induction answers generalizing merged with
  | nil =>
    rw [takeAll, Prod.mk.injEq] at h
    rw [← h.1]
    rfl
  | cons answer rest ih =>
    obtain ⟨e, answer⟩ := answer
    rw [takeAll] at h
    split at h
    · cases h
    · rw [ih h]
      cases answer <;> rfl

theorem takeAll_of_silent {sink : Nat → Except String Unit} (silent : ∀ n, sink n = .ok ())
    (total : Nat) (merged : Merged) (answers : List (Endpoint × Except String Fragment)) :
    (takeAll sink total merged answers).2 = none := by
  induction answers generalizing merged with
  | nil => rfl
  | cons answer rest ih =>
    obtain ⟨e, answer⟩ := answer
    rw [takeAll, silent]
    exact ih _

def requestFor (tree : FileTree) (snapshot : Snapshot) (e : Endpoint) : FragmentRequest :=
  FragmentRequest.ofBundle (Bundle.of tree snapshot e)

def merged (config : Config) (options : RunOptions) (snapshot : Snapshot) (tree : FileTree)
    (document : Document) (endpoints : List Endpoint) : Document :=
  document.mergeAll (given config options (requestFor tree snapshot) endpoints)

theorem outcome_fragments (config : Config) (options : RunOptions) (snapshot : Snapshot)
    (tree : FileTree) (document : Document) (endpoints : List Endpoint) :
    ((∃ message, (fragments config options snapshot tree document endpoints).outcome =
        .error (.sink message)) ∧ ¬∀ n, options.sink n = .ok ()) ∨
      (fragments config options snapshot tree document endpoints).outcome =
        match (merged config options snapshot tree document endpoints).finish with
        | .ok final => .ok final
        | .error cause => .error (.bareOperation cause) := by
  unfold fragments gathered
  simp only
  generalize ha :
      ((asked config options (fun e => FragmentRequest.ofBundle (Bundle.of tree snapshot e))
    endpoints).settled.map fun job => (job.item, job.outcome)) = answers
  rcases ht : takeAll options.sink endpoints.length (.of document) answers with ⟨after, _ | message⟩
  · have hd := draft_takeAll ht
    rw [← ha, List.filterMap_map] at hd
    simp only [hd]
    exact .inr rfl
  · refine .inl ⟨⟨message, rfl⟩, fun silent => ?_⟩
    have := takeAll_of_silent silent endpoints.length (.of document) answers
    rw [ht] at this
    cases this

/-! ### Each endpoint once -/

theorem workers_pos (n items : Nat) : 0 < Pool.workers (.ofNat n) items := by
  simp only [Number.ofNat, Pool.workers]
  omega

theorem given_perm (config : Config) (options : RunOptions) (request : Endpoint → FragmentRequest)
    (endpoints : List Endpoint) :
    (given config options request endpoints).Perm
      (endpoints.filterMap fun e => (options.generator (request e)).toOption) := by
  have settled := Pool.settled_run_perm (workers_pos config.maxWorkers endpoints.length)
    (endpoints.map some) (fun job => options.generator (request job.item)) options.order
  have perm := settled.filterMap fun job => job.outcome.toOption
  rw [List.filterMap_map] at perm
  refine perm.trans (.of_eq ?_)
  conv_rhs => rw [← Pool.map_item_jobsFrom 0 endpoints, List.filterMap_map]
  rfl

theorem asked_of_isOver {actions : List (PoolAction (Except String Fragment))}
    {pool : Pool Endpoint (Except String Fragment)}
    (h : (Pool.start (Pool.workers (.ofNat config.maxWorkers) endpoints.length)
      (endpoints.map some)).after? actions = some pool)
    (done : pool.isOver = true)
    (answers : ∀ job ∈ pool.settled, job.outcome = options.generator (request job.item)) :
    (asked config { options with order := pool.settled.map (·.index) } request endpoints).settled =
      pool.settled :=
  Pool.settled_run_of_isOver (workers_pos _ _) h done answers

def skeletons (endpoints : List Endpoint) : List Fragment :=
  endpoints.map fun e => Fragment.skeleton e.method e.route

theorem given_plain_perm (plain : options.generator = Generator.plain) :
    (given config options (requestFor tree snapshot) endpoints).Perm (skeletons endpoints) := by
  refine (given_perm config options _ endpoints).trans (.of_eq ?_)
  rw [plain, skeletons, ← List.filterMap_eq_map]
  refine List.filterMap_congr fun e _ => ?_
  simp only [Generator.plain, requestFor, FragmentRequest.ofBundle, Bundle.endpoint_of]
  rfl

/-! ### Documents of the plain generator -/

open Document Fragment

/-- Is an operation that of an endpoint, at its place? -/
def Stands (endpoints : List Endpoint) (route method : String) (operation : Json) : Prop :=
  ∃ e ∈ endpoints, e.route.map Route.normalize = some route ∧ e.method.operationKey = method ∧
    operation = plainOperation e.method route

/-- Is a value a field of an operation that all objects share? -/
def IsField (route method : String) (value : Json) : Prop :=
  ∃ m : Method, m.operationKey = route ∧
    (plainOperation m Draft.sharedName).field? method = some value

theorem IsField.route_mem {route method : String} {value : Json} (h : IsField route method value) :
    route ∈ operationKeys := by
  obtain ⟨m, rfl, -⟩ := h
  exact operationKey_mem m

section
variable {fragments others : List Fragment}

theorem stands_of_mem (given : fragments ⊆ skeletons endpoints) {fragment : Fragment}
    (mem : fragment ∈ fragments) {route method : String} {operation : Json}
    (ho : operation ∈ fragment.operations route method) :
    Stands endpoints route method operation := by
  obtain ⟨e, he, rfl⟩ := List.mem_map.1 (given mem)
  rw [operations_skeleton] at ho
  split at ho
  · rename_i place
    exact ⟨e, he, place.1, place.2, List.mem_singleton.1 ho⟩
  · cases ho

/-- Whatever the endpoints, an operation of the document is that of one of them, or a field of one
that all objects have come to share. -/
theorem all_mergeAll (given : fragments ⊆ skeletons endpoints) (new : document.paths = []) :
    (fragments.foldl Draft.merge (.of document)).All
      (fun route method operation =>
        Stands endpoints route method operation ∨ IsField route method operation)
      (Stands endpoints) := by
  refine (Draft.all_of_new _ _ new).mergeAll (fun route fields method operation lent field => ?_)
    fun fragment mem route method operation ho => ?_
  · obtain ⟨e, -, -, key, eq⟩ := lent
    exact .inr ⟨e.method, key, by rw [← eq]; exact field⟩
  · have stands := stands_of_mem given mem ho
    exact ⟨.inl stands, stands⟩

theorem exists_finish (given : fragments ⊆ skeletons endpoints) (new : document.paths = []) :
    ∃ final, (document.mergeAll fragments).finish = .ok final ∧
      Finished (document.mergeAll fragments) final := by
  have all := all_mergeAll given new
  have ends := finishes_finish all.braced
  rw [mergeAll]
  generalize Document.finish _ = outcome at ends ⊢
  cases ends with
  | done final finished => exact ⟨final, rfl, finished⟩
  | bare operation cause there fails =>
    rcases all.own _ _ _ there with ⟨e, -, -, -, rfl⟩ | field
    · cases fails
    · exact absurd field.route_mem (by decide)

/-- Where no endpoint goes by the name of what all objects share, the document takes the operations
of all endpoints but those that go by a name which all objects have. -/
theorem mergeAll_eq (given : fragments ⊆ skeletons endpoints) (new : document.paths = [])
    (own : ∀ e ∈ endpoints, e.route ≠ some Draft.sharedName) :
    document.mergeAll fragments = (fragments.filter (·.IsPlain)).foldl add document := by
  refine (Draft.isClear_of_new new).mergeAll fun fragment mem => ?_
  obtain ⟨e, he, rfl⟩ := List.mem_map.1 (given mem)
  exact isPlain_or_isForeign_skeleton e.method (own e he)

theorem stands_of_mem_filterMap (given : fragments ⊆ skeletons endpoints) {route method : String}
    {operation : Json}
    (ho : operation ∈ fragments.filterMap fun fragment => fragment.operation? route method) :
    Stands endpoints route method operation := by
  obtain ⟨fragment, mem, last⟩ := List.mem_filterMap.1 ho
  exact stands_of_mem given mem (List.mem_of_getLast? last)

end

theorem outcome_fragments_plain (config : Config) (snapshot : Snapshot) (tree : FileTree)
    (endpoints : List Endpoint) (plain : options.generator = Generator.plain)
    (new : document.paths = []) :
    ∃ final, Finished (merged config options snapshot tree document endpoints) final ∧
      ((∀ n, options.sink n = .ok ()) →
        (fragments config options snapshot tree document endpoints).outcome = .ok final) ∧
      ∀ given, (fragments config options snapshot tree document endpoints).outcome = .ok given →
        given = final := by
  have perm : (given config options (requestFor tree snapshot) endpoints).Perm
      (skeletons endpoints) :=
    given_plain_perm plain
  obtain ⟨final, hf, finished⟩ := exists_finish perm.subset new
  refine ⟨final, finished, ?_⟩
  rcases outcome_fragments config options snapshot tree document endpoints with ⟨⟨message, hm⟩,
    loud⟩ | ho
  · rw [hm]
    exact ⟨fun silent => absurd silent loud, fun given h => absurd h (by simp)⟩
  · rw [ho, merged, hf]
    exact ⟨fun _ => rfl, fun given h => (Except.ok.inj h).symm⟩

/-- Is a path registered for reads as well as for all methods? -/
def Contested (endpoints : List Endpoint) (route : String) : Prop :=
  (∃ e ∈ endpoints, e.method = .get ∧ e.route.map Route.normalize = some route) ∧
    ∃ e ∈ endpoints, e.method = .all ∧ e.route.map Route.normalize = some route

/-- The same operation, or one with another summary where a path is registered for reads as well as
for all methods. -/
def Agree (endpoints : List Endpoint) (route method : String) (a b : Json) : Prop :=
  a = b ∨ method = "get" ∧ Contested endpoints route ∧ withoutSummary a = withoutSummary b

theorem mended_agree {e f : Endpoint} {route method : String} (he : e ∈ endpoints)
    (hf : f ∈ endpoints) (routeE : e.route.map Route.normalize = some route)
    (routeF : f.route.map Route.normalize = some route)
    (keyE : e.method.operationKey = method) (keyF : f.method.operationKey = method) :
    ExceptRel (Agree endpoints route method) (mended route method (plainOperation e.method route))
      (mended route method (plainOperation f.method route)) := by
  -- Methods that share a place are the same, or are GET and ALL, whose operations differ in the
  -- summary only.
  rcases Method.operationKey_eq (keyE.trans keyF.symm) with same | ⟨get, both⟩
  · rw [same]
    obtain ⟨repaired, hr⟩ := exists_mended_plainOperation f.method route route method
    rw [hr]
    exact .ok (.inl rfl)
  · obtain rfl : method = "get" := keyE.symm.trans get
    have contested : Contested endpoints route := by
      rcases both with ⟨ge, af⟩ | ⟨ae, gf⟩
      · exact ⟨⟨e, he, ge, routeE⟩, ⟨f, hf, af, routeF⟩⟩
      · exact ⟨⟨f, hf, gf, routeF⟩, ⟨e, he, ae, routeE⟩⟩
    rw [mended_get_plainOperation, mended_get_plainOperation]
    exact .ok (.inr ⟨rfl, contested, withoutSummary_plainOperation _ _ _⟩)

/-- How two documents of the same endpoints agree. -/
structure AgreeOn (endpoints : List Endpoint) (final final' : Document) : Prop where
  head : final.head = final'.head
  generatedAt : final.generatedAt = final'.generatedAt
  paths : ∀ route, (final.paths.get? route).isSome = (final'.paths.get? route).isSome
  operations : ∀ route method, Option.Rel (Agree endpoints route method)
    (operation? final.paths route method) (operation? final'.paths route method)

theorem AgreeOn.alike {final final' : Document} (h : AgreeOn endpoints final final')
    (peace : ∀ route, ¬Contested endpoints route) : Json.Alike final.encode final'.encode := by
  refine encode_alike h.head h.generatedAt fun route => ⟨h.paths route, fun method => ?_⟩
  have agree := h.operations route method
  generalize operation? final.paths route method = a at agree ⊢
  generalize operation? final'.paths route method = b at agree ⊢
  cases agree with
  | none => exact .none
  | some agree =>
    rcases agree with rfl | ⟨-, contested, -⟩
    · exact .some (.refl _)
    · exact absurd contested (peace route)

theorem agreeOn_of_perm {fragments others : List Fragment}
    (perm : fragments.Perm (skeletons endpoints))
    (perm' : others.Perm (skeletons endpoints)) (new : document.paths = [])
    (own : ∀ e ∈ endpoints, e.route ≠ some Draft.sharedName) {final final' : Document}
    (h : Finished (document.mergeAll fragments) final)
    (h' : Finished (document.mergeAll others) final') : AgreeOn endpoints final final' := by
  rw [mergeAll_eq perm.subset new own] at h
  rw [mergeAll_eq perm'.subset new own] at h'
  have same := (perm.trans perm'.symm).filter (·.IsPlain)
  have given : fragments.filter (·.IsPlain) ⊆ skeletons endpoints := fun fragment mem =>
    perm.subset (List.mem_of_mem_filter mem)
  have known := addAll_head document (fragments.filter (·.IsPlain))
  have known' := addAll_head document (others.filter (·.IsPlain))
  refine ⟨?_, ?_, fun route => ?_, fun route method => ?_⟩
  · rw [h.head, h'.head, known.1, known'.1]
  · rw [h.generatedAt, h'.generatedAt, known.2, known'.2]
  · rw [h.paths, h'.paths, isSome_get?_addAll, isSome_get?_addAll, same.any_eq]
  · refine optionRel_of_map_ok (h.operations route method) (h'.operations route method) ?_
    split
    · exact .none
    · rw [operation?_addAll_new _ _ new, operation?_addAll_new _ _ new]
      refine optionRel_map (optionRel_getLast? (t := fun a b =>
        ExceptRel (Agree endpoints route method)
        (mended route method a) (mended route method b)) (same.filterMap _) fun a ha b hb => ?_)
        fun _ _ h => h
      obtain ⟨e, he, routeE, keyE, rfl⟩ := stands_of_mem_filterMap given ha
      obtain ⟨f, hf, routeF, keyF, rfl⟩ := stands_of_mem_filterMap given hb
      exact mended_agree he hf routeE routeF keyE keyF

/-- Whatever the endpoints, the numbers of workers and the orders in which they end are: with the
plain generator and sinks that refuse nothing, two runs give documents. Unless an endpoint goes by
the name of what all objects share, these have the same paths and methods with the same operations,
but for summaries at paths that are registered for reads as well as for all methods; and the
documents are the same, up to the order of fields, where there is no such path. -/
theorem fragments_agree {head : DocumentHead} {moment : Int} {document : Document}
    (created : create? head moment = some document) {options options' : RunOptions}
    (plain : options.generator = Generator.plain) (plain' : options'.generator = Generator.plain)
    (silent : ∀ n, options.sink n = .ok ()) (silent' : ∀ n, options'.sink n = .ok ())
    (config config' : Config) (snapshot : Snapshot) (tree : FileTree) (endpoints : List Endpoint) :
    ∃ final final',
      (fragments config options snapshot tree document endpoints).outcome = .ok final ∧
      (fragments config' options' snapshot tree document endpoints).outcome = .ok final' ∧
      ((∀ e ∈ endpoints, e.route ≠ some Draft.sharedName) →
        AgreeOn endpoints final final' ∧
        ((∀ route, ¬Contested endpoints route) → Json.Alike final.encode final'.encode)) := by
  have new := paths_of_create? created
  obtain ⟨final, hf, ends, -⟩ := outcome_fragments_plain config snapshot tree endpoints plain new
  obtain ⟨final', hf', ends', -⟩ :=
    outcome_fragments_plain config' snapshot tree endpoints plain' new
  refine ⟨final, final', ends silent, ends' silent', fun own => ?_⟩
  have agree := agreeOn_of_perm (given_plain_perm plain) (given_plain_perm plain') new own hf hf'
  exact ⟨agree, agree.alike⟩

def contestedTree : FileTree :=
  ⟨"/", [(["app.js"], .text "app.all('/x', all);\napp.get('/x', one);\n")], []⟩

def ordered (order : List Nat) : RunOptions :=
  ⟨none, none, 0, Generator.plain, fun _ => .ok (), order⟩

def contestedRun (order : List Nat) : Run :=
  fragments Config.default (ordered order) [] contestedTree Document.blank
    (Endpoint.discover contestedTree ["/app.js"])

theorem fragments_agree_contested :
    create? default 0 = some Document.blank ∧
    (∀ order, (ordered order).generator = Generator.plain) ∧
    (∀ order n, (ordered order).sink n = .ok ()) ∧
    (∀ e ∈ Endpoint.discover contestedTree ["/app.js"], e.route ≠ some Draft.sharedName) ∧
    ∃ final final', (contestedRun []).outcome = .ok final ∧
    (contestedRun [1]).outcome = .ok final' ∧
      AgreeOn (Endpoint.discover contestedTree ["/app.js"]) final final' := by
  have own : ∀ e ∈ Endpoint.discover contestedTree ["/app.js"],
      e.route ≠ some Draft.sharedName := by
    decide +kernel
  refine ⟨create?_blank, fun _ => rfl, fun _ _ => rfl, own, ?_⟩
  obtain ⟨final, final', ho, ho', agree⟩ := fragments_agree create?_blank
    (show (ordered []).generator = Generator.plain from rfl)
    (show (ordered [1]).generator = Generator.plain from rfl) (fun _ => rfl) (fun _ => rfl)
    Config.default Config.default [] contestedTree (Endpoint.discover contestedTree ["/app.js"])
  exact ⟨final, final', ho, ho', (agree own).1⟩

def summaryOf (document : Document) (route : String) : Option String :=
  ((operation? document.paths route "get").bind (·.field? "summary")).bind (·.text?)

theorem summaryOf_alike {first second : Document} (h : Json.Alike first.encode second.encode)
    (route : String) : summaryOf first route = summaryOf second route :=
  text?_alike (optionRel_bind (operation?_alike h route "get") fun _ _ alike =>
    alike.field? "summary")

/-- Two workers ask for fragments of the two endpoints at once. If the first job ends first, the
operation that reads the path has the summary of a read; if the second does, it has that of all
methods. -/
theorem contestedRun_differs :
    ∃ first second, (contestedRun []).outcome = .ok first ∧
    (contestedRun [1]).outcome = .ok second ∧
      ¬Json.Alike first.encode second.encode := by
  have read : ((contestedRun []).outcome.toOption.bind fun document => summaryOf document "/x") =
      some "GET /x" := by decide +kernel
  have all : ((contestedRun [1]).outcome.toOption.bind fun document => summaryOf document "/x") =
      some "ALL /x" := by decide +kernel
  cases hf : (contestedRun []).outcome with
  | error cause =>
    rw [hf] at read
    cases read
  | ok first =>
    cases hs : (contestedRun [1]).outcome with
    | error cause =>
      rw [hs] at all
      cases all
    | ok second =>
      rw [hf] at read
      rw [hs] at all
      refine ⟨first, second, rfl, rfl, fun alike => ?_⟩
      have same := read.symm.trans ((summaryOf_alike alike "/x").trans all)
      exact absurd (Option.some.inj same) (by decide)

end Run

end EndpointAtlas
