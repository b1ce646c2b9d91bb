import EndpointAtlas.Proofs.Files.Sources
import EndpointAtlas.Proofs.Generation.Frame
import EndpointAtlas.Proofs.Generation.Scheduling
import EndpointAtlas.Proofs.Inventory.Snapshot

/-!
What a document covers. Main statements: keeping inventories leaves the source files as they read,
so a run finds the endpoints that are listed for the tree; and with the plain generator the document
of a run has exactly the paths and methods of these endpoints, wildcard paths apart.
-/

set_option autoImplicit false

namespace EndpointAtlas

/-! ### Source files while inventories are kept -/

namespace FileTree

variable {tree wide : FileTree} {places : List Location} {top : Location} {ignored : List String}

theorem Widened.sources (h : Widened tree places wide) (root : String) (ignored : List String) :
    wide.sources root ignored = tree.sources root ignored := by
  have located := locate_congr h.current root
  have resolved : wide.resolve root = tree.resolve root := by rw [resolve, resolve, h.current]
  have below : wide.sourcesBelow (tree.locate root) ignored =
      tree.sourcesBelow (tree.locate root) ignored := by
    rw [sourcesBelow, sourcesBelow, walkBelow, walkBelow, h.files]
  simp only [sources_eq, located, resolved, below, h.hasFile]

theorem sources_resolve (tree : FileTree) (root : String) (ignored : List String) :
    tree.sources (tree.resolve root) ignored = tree.sources root ignored := by
  have again : tree.resolve (tree.resolve root) = tree.resolve root := by
    rw [resolve_eq_glue, locate_resolve, ← resolve_eq_glue]
  simp only [sources_eq, locate_resolve, again]

/-- Inventories are kept in files named like JSON files, below a directory that was free of files:
so every source file reads as before. -/
theorem read_keepAll (proper : tree.Proper) {directory : String}
    (made : tree.makeDirectory directory = .ok wide) (place : Location) (taken : List Inventory)
    {path : String} (source : path ∈ tree.sourcesBelow top ignored) :
    (Cache.keepAll place taken wide).read path = tree.read path := by
  obtain ⟨entry, he, hl, noJson⟩ := locate_source proper source
  obtain ⟨widened, free⟩ := makeDirectory_eq_ok made
  have located : (Cache.keepAll place taken wide).locate path = entry.1 := by
    rw [← hl]
    exact locate_congr ((Cache.current_keepAll place taken wide).trans widened.current) path
  have isFile : tree.hasFile entry.1 = true := (hasFile_iff tree _).2 ⟨entry, he, rfl⟩
  have content : (Cache.keepAll place taken wide).content? entry.1 = tree.content? entry.1 := by
    rw [Cache.content?_keepAll_other _ _ _ fun i _ => noJson place _, widened.content?]
  have plain : tree.hasDirectory entry.1 = false := proper.apart entry he
  have plain' : (Cache.keepAll place taken wide).hasDirectory entry.1 = false := by
    rw [Cache.hasDirectory_keepAll, Bool.eq_false_iff]
    intro hd
    rw [widened.directories, Path.mem_beginnings, plain] at hd
    rcases hd with hd | hd
    · cases hd
    · rw [free _ hd] at isFile
      cases isFile
  obtain ⟨found, hf⟩ := Option.isSome_iff_exists.1 isFile
  simp only [read, isDirectory, hasFile, located, hl, plain, plain', content, hf]

end FileTree

namespace Indexer

theorem files_indexFile (indexer : Indexer) (tree : FileTree) (path : String) :
    (indexer.indexFile tree path).2.1.files = indexer.files := by
  unfold indexFile
  cases indexer.isTooLarge tree path with
  | error cause => rfl
  | ok large =>
    cases large with
    | true => rfl
    | false =>
      rcases (Inventory.ofFile tree indexer.options (Path.parent path) path).run indexer.memory
        with ⟨fault | inventory, memory⟩
      · rfl
      · simp only
        split <;> rfl

theorem files_indexFiles (indexer : Indexer) (tree : FileTree) (paths : List String) :
    (indexer.indexFiles tree paths).2.1.files = indexer.files := by
  induction paths generalizing indexer tree with
  | nil => rfl
  | cons path rest ih =>
    have first := indexer.files_indexFile tree path
    rw [indexFiles]
    generalize indexer.indexFile tree path = outcome at first ⊢
    exact (ih outcome.2.1 outcome.2.2).trans first

end Indexer

namespace Endpoint

theorem discover_congr {tree after : FileTree} {paths : List String}
    (h : ∀ path ∈ paths, after.read path = tree.read path) :
    discover after paths = discover tree paths := by
  have sources : ∀ path ∈ paths, sourceOf after path = sourceOf tree path := by
    intro path hp
    unfold sourceOf
    rw [h path hp]
  have same : candidates after paths = candidates tree paths :=
    List.filter_congr fun path hp => by rw [sources path hp]
  unfold discover
  rw [same]
  refine List.flatMap_congr fun path hp => ?_
  unfold inFile
  rw [sources path (List.mem_of_mem_filter hp)]

theorem route_of_mem_discover {tree : FileTree} {paths : List String} {e : Endpoint}
    (h : e ∈ discover tree paths) : e.route.map Route.normalize = e.route := by
  obtain ⟨path, -, h⟩ := List.mem_flatMap.1 h
  obtain ⟨found, -, rfl⟩ := List.mem_map.1 h
  cases hr : found.route with
  | none => simp [normalized, hr]
  | some route => simp [normalized, hr, Route.normalize_normalize]

end Endpoint

theorem Indexer.discover_indexDirectory {indexer : Indexer} {place : Location} {tree : FileTree}
    (h : indexer.cache.StandsAt place) (proper : tree.Proper) {report : IndexReport}
    (done : (indexer.indexDirectory tree).1 = .ok report) :
    ∃ files, tree.sources indexer.root indexer.ignored = .ok files ∧
      Endpoint.discover (indexer.indexDirectory tree).2.2 (indexer.indexDirectory tree).2.1.files =
        Endpoint.discover tree files := by
  obtain ⟨wide, files, made, found, -, -, after⟩ := indexDirectory_eq_ok done
  have stands : { indexer with files := files }.cache.StandsAt place := h
  obtain ⟨-, -, kept⟩ := indexFiles_eq stands wide files
  rw [(FileTree.makeDirectory_eq_ok made).1.sources] at found
  refine ⟨files, found, ?_⟩
  rw [after, kept, files_indexFiles]
  refine Endpoint.discover_congr fun path hp => ?_
  rw [FileTree.sources_eq_ok found] at hp
  exact FileTree.read_keepAll proper made place _ hp

/-! ### What documents cover -/

/-- Does a document have exactly the paths of some endpoints with their methods, apart from
wildcards and from the names that all objects have? -/
structure Document.Covers (endpoints : List Endpoint) (document : Document) : Prop where
  paths : ∀ path, (document.paths.get? path).isSome = true ↔
    ∃ e ∈ endpoints, e.route = some path ∧ path ∉ wildcards ∧ path ∉ Draft.inheritedNames
  operations : ∀ path method, (operation? document.paths path method).isSome = true ↔
    ∃ e ∈ endpoints, e.route = some path ∧ path ∉ wildcards ∧ path ∉ Draft.inheritedNames ∧
      e.method.verb = method

namespace Run

open Document

variable {tree : FileTree} {root : String} {config : Config} {options : RunOptions}

section Perm

variable {fragments : List Fragment} {endpoints : List Endpoint}
  (perm : fragments.Perm (skeletons endpoints))
  (braced : ∀ e ∈ endpoints, e.route.map Route.normalize = e.route)
include perm braced

theorem mem_plain_iff {fragment : Fragment} :
    fragment ∈ fragments.filter (·.IsPlain) ↔
      ∃ e ∈ endpoints, Fragment.skeleton e.method e.route = fragment ∧
        ∀ path, e.route = some path → path ∉ Draft.inheritedNames := by
  rw [List.mem_filter, decide_eq_true_eq, perm.mem_iff, skeletons, List.mem_map]
  constructor
  · rintro ⟨⟨e, he, rfl⟩, plain⟩
    rw [Fragment.isPlain_skeleton, braced e he] at plain
    exact ⟨e, he, rfl, plain⟩
  · rintro ⟨e, he, rfl, own⟩
    refine ⟨⟨e, he, rfl⟩, ?_⟩
    rw [Fragment.isPlain_skeleton, braced e he]
    exact own

theorem any_hasPath_iff (path : String) :
    ((fragments.filter (·.IsPlain)).any fun fragment => fragment.hasPath path) = true ↔
      ∃ e ∈ endpoints, e.route = some path ∧ path ∉ Draft.inheritedNames := by
  rw [List.any_eq_true]
  constructor
  · rintro ⟨fragment, mem, has⟩
    obtain ⟨e, he, rfl, own⟩ := (mem_plain_iff perm braced).1 mem
    rw [Fragment.hasPath_skeleton, braced e he, decide_eq_true_eq] at has
    exact ⟨e, he, has, own path has⟩
  · rintro ⟨e, he, route, own⟩
    refine ⟨_, (mem_plain_iff perm braced).2 ⟨e, he, rfl, fun other same => ?_⟩, ?_⟩
    · rwa [← Option.some.inj (route.symm.trans same)]
    · rw [Fragment.hasPath_skeleton, braced e he, decide_eq_true_eq, route]

theorem isSome_operation?_iff {document : Document} (new : document.paths = [])
    (path method : String) :
    (operation? ((fragments.filter (·.IsPlain)).foldl add document).paths path method).isSome =
        true ↔
      ∃ e ∈ endpoints, e.route = some path ∧ path ∉ Draft.inheritedNames ∧
        e.method.verb = method := by
  rw [operation?_addAll_new _ _ new, List.getLast?_isSome]
  constructor
  · intro given
    obtain ⟨operation, ho⟩ := List.exists_mem_of_ne_nil _ given
    obtain ⟨fragment, mem, last⟩ := List.mem_filterMap.1 ho
    obtain ⟨e, he, rfl, own⟩ := (mem_plain_iff perm braced).1 mem
    rw [Fragment.operation?_skeleton, Option.ite_none_right_eq_some, braced e he] at last
    exact ⟨e, he, last.1.1, own path last.1.1, e.method.operationKey_eq_verb ▸ last.1.2⟩
  · rintro ⟨e, he, route, own, rfl⟩
    have left := Fragment.operation?_skeleton e.method e.route path e.method.verb
    rw [if_pos ⟨(braced e he).trans route, e.method.operationKey_eq_verb⟩] at left
    refine List.ne_nil_of_mem (List.mem_filterMap.2
      ⟨_, (mem_plain_iff perm braced).2 ⟨e, he, rfl, fun other same => ?_⟩, left⟩)
    rwa [← Option.some.inj (route.symm.trans same)]

theorem covers_of_perm {document final : Document} (new : document.paths = [])
    (own : ∀ e ∈ endpoints, e.route ≠ some Draft.sharedName)
    (h : Finished (document.mergeAll fragments) final) : final.Covers endpoints := by
  rw [mergeAll_eq perm.subset new own] at h
  refine ⟨fun path => ?_, fun path method => ?_⟩
  · rw [h.paths, isSome_get?_addAll, new, Bool.and_eq_true, decide_eq_true_eq]
    simp only [Entries.get?, Option.isSome_none, Bool.or_false, any_hasPath_iff perm braced]
    constructor
    · rintro ⟨tame, e, he, route, ownName⟩
      exact ⟨e, he, route, tame, ownName⟩
    · rintro ⟨e, he, route, tame, ownName⟩
      exact ⟨tame, e, he, route, ownName⟩
  · have final := congrArg Option.isSome (h.operations path method)
    rw [Option.isSome_map] at final
    rw [final]
    by_cases wild : path ∈ wildcards
    · simp [wild]
    · rw [if_neg wild, Option.isSome_map, isSome_operation?_iff perm braced new]
      simp [wild]

end Perm

/-! ### Whole runs -/

theorem outcome_indexed (config : Config) (options : RunOptions) (indexer : Indexer)
    (tree : FileTree) (document : Document) :
    (indexed config options indexer tree document).outcome =
      match indexer.indexDirectory tree with
      | (.error cause, _, _) => .error (.file cause)
      | (.ok _, later, after) =>
        match Endpoint.discover after later.files with
        | [] => .ok document
        | endpoints =>
          (fragments config options (later.snapshot after).1 after document endpoints).outcome := by
  unfold indexed
  rcases indexer.indexDirectory tree with ⟨cause | report, later, after⟩
  · rfl
  · simp only
    cases Endpoint.discover after later.files <;> rfl

theorem generate_eq (h : starts tree root config options = true) :
    ∃ document, create? (headFor config options (tree.resolve root)) options.generatedAt =
      some document ∧
      generate tree root config options =
        let run := indexed config options (indexerFor tree root config) tree document
        { run with tree := ((indexerFor tree root config).close run.tree).2 } := by
  unfold starts at h
  rw [Bool.and_eq_true] at h
  obtain ⟨document, hc⟩ := Option.isSome_iff_exists.1 h.2
  refine ⟨document, hc, ?_⟩
  unfold generate FileTree.isDirectory
  simp only [tree.locate_resolve, h.1, hc, Bool.not_true, Bool.false_eq_true, if_false]
  rfl

theorem outcome_generate (h : starts tree root config options = true) :
    ∃ document, create? (headFor config options (tree.resolve root)) options.generatedAt =
      some document ∧
      (generate tree root config options).outcome =
        (indexed config options (indexerFor tree root config) tree document).outcome :=
  (generate_eq h).imp fun _ ⟨hc, eq⟩ => ⟨hc, by rw [eq]⟩

theorem starts_of_ok {document : Document}
    (h : (generate tree root config options).outcome = .ok document) :
    starts tree root config options = true := by
  unfold generate FileTree.isDirectory at h
  simp only [tree.locate_resolve] at h
  unfold starts
  cases hd : tree.hasDirectory (tree.locate root) with
  | false => simp [hd] at h
  | true =>
    cases hc : create? (headFor config options (tree.resolve root)) options.generatedAt with
    | none => simp [hd, hc] at h
    | some document => rfl

theorem covers_nil {document : Document} (new : document.paths = []) : document.Covers [] := by
  refine ⟨fun path => ?_, fun path method => ?_⟩ <;> simp [new, operation?, Entries.get?]

theorem sources_indexerFor (tree : FileTree) (root : String) (config : Config) :
    tree.sources (indexerFor tree root config).root (indexerFor tree root config).ignored =
      tree.sources root config.passedOver := by
  rw [indexerFor, Indexer.of, tree.sources_resolve, tree.sources_resolve]
  rfl

theorem exists_report (proper : tree.Proper)
    (directory : tree.hasDirectory (tree.locate root) = true)
    {wide : FileTree} (made : (indexerFor tree root config).cache.prepare tree = .ok wide) :
    ∃ report, ((indexerFor tree root config).indexDirectory tree).1 = .ok report := by
  have noFile : tree.hasFile (tree.locate root) = false := by
    rw [Bool.eq_false_iff]
    intro hf
    obtain ⟨entry, he, hl⟩ := (FileTree.hasFile_iff tree _).1 hf
    rw [← hl, proper.apart entry he] at directory
    cases directory
  have found :
      wide.sources (indexerFor tree root config).root (indexerFor tree root config).ignored =
      .ok (tree.sourcesBelow (tree.locate root) config.passedOver) := by
    rw [(FileTree.makeDirectory_eq_ok made).1.sources, sources_indexerFor, FileTree.sources_eq]
    simp only [noFile, Bool.false_eq_true, if_false]
  unfold Indexer.indexDirectory
  simp only [made, found]
  exact ⟨_, rfl⟩

theorem report_of_ok {indexer : Indexer} {document final : Document}
    (h : (indexed config options indexer tree document).outcome = .ok final) :
    ∃ report, (indexer.indexDirectory tree).1 = .ok report := by
  rw [outcome_indexed] at h
  generalize indexer.indexDirectory tree = pass at h ⊢
  obtain ⟨cause | report, later, after⟩ := pass
  · cases h
  · exact ⟨report, rfl⟩

theorem indexed_covers {indexer : Indexer} {document : Document} {report : IndexReport}
    (plain : options.generator = Generator.plain) (new : document.paths = [])
    (done : (indexer.indexDirectory tree).1 = .ok report) :
    ((∀ n, options.sink n = .ok ()) →
      ∃ final, (indexed config options indexer tree document).outcome = .ok final) ∧
    ∀ final, (indexed config options indexer tree document).outcome = .ok final →
      let endpoints := Endpoint.discover (indexer.indexDirectory tree).2.2
        (indexer.indexDirectory tree).2.1.files
      (∀ e ∈ endpoints, e.route ≠ some Draft.sharedName) → final.Covers endpoints := by
  rw [outcome_indexed]
  generalize indexer.indexDirectory tree = pass at done ⊢
  obtain ⟨result, later, after⟩ := pass
  obtain rfl : result = .ok report := done
  simp only
  have braced : ∀ e ∈ Endpoint.discover after later.files, e.route.map Route.normalize = e.route :=
    fun e he => Endpoint.route_of_mem_discover he
  generalize Endpoint.discover after later.files = endpoints at braced ⊢
  cases endpoints with
  | nil =>
    refine ⟨fun _ => ⟨document, rfl⟩, fun final h _ => ?_⟩
    rw [← Except.ok.inj h]
    exact covers_nil new
  | cons e rest =>
    obtain ⟨last, finished, ends, only⟩ :=
      outcome_fragments_plain config (later.snapshot after).1 after (e :: rest) plain new
    refine ⟨fun silent => ⟨last, ends silent⟩, fun final h own => ?_⟩
    rw [only final h]
    exact covers_of_perm (given_plain_perm plain) braced new own finished

/-- With the plain generator, whatever the tree, the accepted configuration and the order in which
jobs end: the document of a run has exactly the paths and methods of the endpoints that are listed
for the tree, apart from wildcard paths and from paths that go by a name which all objects have;
this if none of the endpoints goes by the name of what all objects share. There is a document if the
run gets as far as its cache, the directory of the cache can be made and the sink refuses
nothing. -/
theorem generate_covers {setting : Option Setting}
    (accepted : Config.ofSetting setting = .ok config)
    (proper : tree.Proper) (plain : options.generator = Generator.plain) :
    (starts tree root config options = true →
      (∃ wide, (indexerFor tree root config).cache.prepare tree = .ok wide) →
      (∀ n, options.sink n = .ok ()) →
      ∃ document, (generate tree root config options).outcome = .ok document) ∧
    ∀ document, (generate tree root config options).outcome = .ok document →
      ∃ files, tree.sources root config.passedOver = .ok files ∧
        ((∀ e ∈ Endpoint.discover tree files, e.route ≠ some Draft.sharedName) →
          document.Covers (Endpoint.discover tree files)) := by
  have stands := cache_indexerFor (Config.nameFaults_cacheDirName accepted) tree root
  refine ⟨?_, fun document h => ?_⟩
  · rintro started ⟨wide, made⟩ silent
    obtain ⟨blank, created, ho⟩ := outcome_generate started
    have directory : tree.hasDirectory (tree.locate root) = true := by
      rw [starts, Bool.and_eq_true] at started
      exact started.1
    obtain ⟨report, done⟩ := exists_report proper directory made
    rw [ho]
    exact (indexed_covers plain (paths_of_create? created) done).1 silent
  · obtain ⟨blank, created, ho⟩ := outcome_generate (starts_of_ok h)
    rw [ho] at h
    obtain ⟨report, done⟩ := report_of_ok h
    have covers := (indexed_covers plain (paths_of_create? created) done).2 document h
    obtain ⟨files, listed, same⟩ := Indexer.discover_indexDirectory stands proper done
    rw [sources_indexerFor] at listed
    rw [same] at covers
    exact ⟨files, listed, covers⟩

def listedTree : FileTree :=
  ⟨"/", [(["proj", "app.js"], .text "app.all('/items/:id', item);\napp.get('/*', rest);\n")],
    [["proj"]]⟩

def listed : List Endpoint :=
  [⟨.all, some "/items/{id}", "/proj/app.js", ⟨1, 1⟩, .call, ["item"]⟩,
    ⟨.get, some "/*", "/proj/app.js", ⟨2, 2⟩, .call, ["rest"]⟩]

theorem sources_listedTree :
    listedTree.sourcesBelow (listedTree.locate "/proj") Config.default.passedOver =
      ["/proj/app.js"] := by
  refine List.perm_singleton.1 ((Text.sorted_perm _).trans (.of_eq ?_))
  decide +kernel

theorem generate_covers_listed :
    Config.ofSetting none = .ok Config.default ∧ listedTree.Proper ∧
      (ordered [1]).generator = Generator.plain ∧
      ∃ document, (generate listedTree "/proj" Config.default (ordered [1])).outcome =
        .ok document ∧
        document.Covers listed := by
  have accepted : Config.ofSetting none = .ok Config.default := rfl
  have proper : listedTree.Proper :=
    ⟨by decide, by decide, by decide, by decide, by decide, by decide⟩
  have plain : (ordered [1]).generator = Generator.plain := rfl
  obtain ⟨given, covers⟩ :=
    @generate_covers listedTree "/proj" _ (ordered [1]) _ accepted proper plain
  have made :
      ((indexerFor listedTree "/proj" Config.default).cache.prepare listedTree).toOption.isSome =
      true := by decide +kernel
  obtain ⟨document, hd⟩ := given (by decide +kernel) (by
    cases hp : (indexerFor listedTree "/proj" Config.default).cache.prepare listedTree with
    | error cause => simp [hp, Except.toOption] at made
    | ok wide => exact ⟨wide, rfl⟩) fun _ => rfl
  refine ⟨accepted, proper, plain, document, hd, ?_⟩
  obtain ⟨files, found, all⟩ := covers document hd
  rw [FileTree.sources_eq_ok found, sources_listedTree] at all
  have discovered : Endpoint.discover listedTree ["/proj/app.js"] = listed := by decide +kernel
  rw [discovered] at all
  exact all (by decide)

end Run

end EndpointAtlas
