import EndpointAtlas.Inventory.Indexer
import EndpointAtlas.Proofs.Files.Proper

set_option autoImplicit false

namespace EndpointAtlas

theorem isName_cacheFileName (path : String) : Path.IsName (cacheFileName path) := by
  have hj : (".json" : String).toList = ['.', 'j', 's', 'o', 'n'] := by decide
  have hl : 5 ≤ (cacheFileName path).toList.length := by
    rw [cacheFileName, String.toList_append, List.length_append, hj]
    simp
  have hne : ∀ s : String, s.toList.length < 5 → cacheFileName path ≠ s := by
    rintro s hs rfl
    omega
  refine ⟨hne _ (by decide), hne _ (by decide), hne _ (by decide), ?_⟩
  rw [cacheFileName, String.toList_append, List.mem_append, hj, String.toList_ofList,
    String.toList_ofList]
  rintro (hm | hm)
  · obtain ⟨c, -, hc⟩ := List.mem_flatMap.1 (List.mem_of_mem_take hm)
    split at hc
    · exact absurd hc (by decide)
    · rename_i hs
      simp only [List.mem_singleton] at hc
      exact hs (.inl hc.symm)
  · exact absurd hm (by decide)

namespace Cache

/-- The directory of a cache is at a place. -/
structure StandsAt (cache : Cache) (place : Location) : Prop where
  names : Path.AreNames place
  path : cache.directory = "/" ++ Path.glue place

theorem standsAt_of (tree : FileTree) (root : String) {name : String} (hn : name ≠ "")
    (hp : '/' ∉ name.toList) :
    (Cache.of (tree.resolve root) name).StandsAt (Path.follow (tree.locate root) name) where
  names := Path.areNames_follow (tree.areNames_locate root) hp
  path := by
    rw [Cache.of, tree.resolve_eq_glue, Path.join_glue (tree.areNames_locate root) hn hp]

namespace StandsAt

variable {cache : Cache} {place : Location}

theorem locate_directory (h : cache.StandsAt place) (tree : FileTree) :
    tree.locate cache.directory = place := by rw [h.path, tree.locate_glue h.names]

theorem locate_join (h : cache.StandsAt place) (tree : FileTree) {name : String}
    (hn : Path.IsName name) :
    tree.locate (Path.join [cache.directory, name]) = place ++ [name] := by
  rw [tree.locate_join cache.directory hn, h.locate_directory]

theorem locate_pathFor (h : cache.StandsAt place) (tree : FileTree) (path : String) :
    tree.locate (cache.pathFor path) = place ++ [cacheFileName path] :=
  h.locate_join tree (isName_cacheFileName path)

end StandsAt

def keepAll (place : Location) (inventories : List Inventory) (tree : FileTree) : FileTree :=
  inventories.foldl (fun tree inventory =>
    tree.put (place ++ [cacheFileName inventory.filePath]) (.text inventory.encode.indented)) tree

section keepAll

variable (place : Location) (inventories : List Inventory) (tree : FileTree)

@[simp] theorem current_keepAll : (keepAll place inventories tree).current = tree.current := by
  induction inventories generalizing tree with
  | nil => rfl
  | cons inventory rest ih => exact ih _

@[simp] theorem directories_keepAll :
    (keepAll place inventories tree).directories = tree.directories := by
  induction inventories generalizing tree with
  | nil => rfl
  | cons inventory rest ih => exact ih _

theorem content?_keepAll_other {other : Location}
    (h : ∀ i ∈ inventories, other ≠ place ++ [cacheFileName i.filePath]) :
    (keepAll place inventories tree).content? other = tree.content? other := by
  induction inventories generalizing tree with
  | nil => rfl
  | cons inventory rest ih =>
    obtain ⟨hf, hr⟩ := List.forall_mem_cons.1 h
    refine (ih _ hr).trans ?_
    rw [FileTree.content?_put, if_neg hf]

theorem content?_keepAll_outside {other : Location} (h : ¬place <+: other) :
    (keepAll place inventories tree).content? other = tree.content? other := by
  refine content?_keepAll_other place inventories tree fun i _ => ?_
  rintro rfl
  exact h (List.prefix_append _ _)

end keepAll

end Cache

namespace Inventory

theorem reading_run (read : Dialect → List Char → Tree) (tree : FileTree) (options : ExtractOptions)
    (directory filePath source : String) (memory : Memory) :
    (reading read tree options directory filePath source).run memory =
      match readingDialect options filePath with
      | .error cause => (.error cause, memory)
      | .ok dialect =>
        ((ofFindings tree options directory filePath dialect
          (.ofTree source.toList (read dialect source.toList))).run memory).map .ok id := by
  cases h : readingDialect options filePath <;> simp only [reading, h] <;> rfl

theorem ofSource_run (tree : FileTree) (options : ExtractOptions)
    (directory filePath source : String) (memory : Memory) :
    (ofSource tree options directory filePath source).run memory =
      match readingDialect options filePath with
      | .error cause => (.error cause, memory)
      | .ok dialect =>
        ((ofFindings tree options directory filePath dialect
          (.ofTree source.toList (parse dialect source.toList))).run memory).map .ok id :=
  reading_run parse tree options directory filePath source memory

theorem reading_eq_ok {read : Dialect → List Char → Tree} {tree : FileTree}
    {options : ExtractOptions}
    {directory filePath source : String} {memory : Memory} {inventory : Inventory}
    (h : ((reading read tree options directory filePath source).run memory).1 = .ok inventory) :
    ((ofFindings tree options directory filePath inventory.dialect
      (.ofTree source.toList (read inventory.dialect source.toList))).run memory).1 =
        inventory := by
  rw [reading_run] at h
  cases hd : readingDialect options filePath with
  | error cause =>
    rw [hd] at h
    cases h
  | ok dialect =>
    simp only [hd] at h
    obtain rfl : _ = inventory := Except.ok.inj h
    rfl

theorem exists_ofSource (tree : FileTree) (root : Option String)
    (directory filePath source : String) (memory : Memory) :
    ∃ inventory, ((ofSource tree ⟨root, []⟩ directory filePath source).run memory).1 =
      .ok inventory := by
  have hd : readingDialect ⟨root, []⟩ filePath = .ok (Dialect.ofPath filePath) := by
    simp [readingDialect]
  rw [ofSource_run, hd]
  exact ⟨_, rfl⟩

theorem filePath_ofFindings (tree : FileTree) (options : ExtractOptions)
    (directory filePath : String) (dialect : Dialect) (found : Findings) (memory : Memory) :
    ((ofFindings tree options directory filePath dialect found).run memory).1.filePath = filePath :=
  rfl

theorem ofFile_run {tree : FileTree} {path : String} {content : Content}
    (hr : tree.read path = .ok content) (options : ExtractOptions) (directory : String)
    (memory : Memory) :
    (ofFile tree options directory path).run memory =
      ((ofSource tree options directory path content.asText).run memory).map
        (Except.mapError .parse) id := by
  unfold ofFile
  simp only [ExceptT.run, hr]
  generalize ofSource tree options directory path content.asText = reading
  rcases reading memory with ⟨_ | _, _⟩ <;> rfl

theorem ofFile_run_error {tree : FileTree} {path : String} {cause : FileError}
    (hr : tree.read path = .error cause) (options : ExtractOptions) (directory : String)
    (memory : Memory) :
    (ofFile tree options directory path).run memory = (.error (.file cause), memory) := by
  unfold ofFile
  simp only [ExceptT.run, hr]

theorem ofFile_eq_ok {tree : FileTree} {options : ExtractOptions} {directory path : String}
    {memory : Memory} {inventory : Inventory}
    (h : ((ofFile tree options directory path).run memory).1 = .ok inventory) :
    ∃ content dialect, tree.read path = .ok content ∧
      inventory = ((ofFindings tree options directory path dialect
        (.ofTree content.asText.toList (parse dialect content.asText.toList))).run memory).1 := by
  cases hr : tree.read path with
  | error cause =>
    rw [ofFile_run_error hr] at h
    cases h
  | ok content =>
    rw [ofFile_run hr, ofSource_run] at h
    cases hd : readingDialect options path with
    | error cause =>
      rw [hd] at h
      cases h
    | ok dialect =>
      simp only [hd] at h
      refine ⟨content, dialect, rfl, ?_⟩
      generalize Findings.ofTree content.asText.toList (parse dialect content.asText.toList) =
        found at h ⊢
      exact (Except.ok.inj h).symm

theorem filePath_of_ofFile {tree : FileTree} {options : ExtractOptions} {directory path : String}
    {memory : Memory} {inventory : Inventory}
    (h : ((ofFile tree options directory path).run memory).1 = .ok inventory) :
    inventory.filePath = path := by
  obtain ⟨content, dialect, -, hi⟩ := ofFile_eq_ok h
  rw [hi, filePath_ofFindings]

end Inventory

theorem Cache.write_eq_ok {cache : Cache} {place : Location} (h : cache.StandsAt place)
    {tree after : FileTree} {inventory : Inventory} (hw : cache.write tree inventory = .ok after) :
    after = keepAll place [inventory] tree ∧
      tree.hasDirectory (place ++ [cacheFileName inventory.filePath]) = false := by
  rw [write, keep] at hw
  obtain ⟨ha, hd, -⟩ := FileTree.write_eq_ok hw
  rw [h.locate_pathFor] at ha hd
  exact ⟨ha, hd⟩

namespace Indexer

/-- The inventory of a file, if a pass takes it into the cache. -/
def taken? (indexer : Indexer) (tree : FileTree) (path : String) : Option Inventory :=
  match (indexer.indexFile tree path).1 with
  | .ok true =>
    ((Inventory.ofFile tree indexer.options (Path.parent path) path).run indexer.memory).1.toOption
  | _ => none

/-- The inventories that a pass over some files takes into the cache, in order. -/
def takings (indexer : Indexer) (tree : FileTree) : List String → List Inventory
  | [] => []
  | path :: rest =>
    let (_, later, after) := indexer.indexFile tree path
    (indexer.taken? tree path).toList ++ later.takings after rest

inductive Step (indexer : Indexer) (tree : FileTree) (place : Location) (path : String) :
    Except IndexFault Bool × Indexer × FileTree → Option Inventory → Prop where
  | passed (result : Except IndexFault Bool) (later : Indexer) (same : later.cache = indexer.cache)
      (no : result ≠ .ok true) : Step indexer tree place path (result, later, tree) none
  | took (inventory : Inventory) (later : Indexer) (same : later.cache = indexer.cache)
      (of : ((Inventory.ofFile tree indexer.options (Path.parent path) path).run indexer.memory).1 =
        .ok inventory)
      (free : tree.hasDirectory (place ++ [cacheFileName inventory.filePath]) = false) :
      Step indexer tree place path (.ok true, later, Cache.keepAll place [inventory] tree)
        (some inventory)

theorem taken?_eq_none {indexer : Indexer} {tree : FileTree} {path : String}
    (h : (indexer.indexFile tree path).1 ≠ .ok true) : indexer.taken? tree path = none := by
  unfold taken?
  split
  · contradiction
  · rfl

theorem step_indexFile {indexer : Indexer} {place : Location} (h : indexer.cache.StandsAt place)
    (tree : FileTree) (path : String) :
    Step indexer tree place path (indexer.indexFile tree path) (indexer.taken? tree path) := by
  cases hl : indexer.isTooLarge tree path with
  | error cause =>
    have hi : indexer.indexFile tree path = (.error (.file cause), indexer, tree) := by
      simp only [indexFile, hl]
    rw [taken?_eq_none (by simp [hi]), hi]
    exact .passed _ _ rfl (by simp)
  | ok large =>
    cases large with
    | true =>
      have hi : indexer.indexFile tree path = (.ok false, indexer, tree) := by
        simp only [indexFile, hl]
      rw [taken?_eq_none (by simp [hi]), hi]
      exact .passed _ _ rfl (by simp)
    | false =>
      rcases hf : (Inventory.ofFile tree indexer.options (Path.parent path) path).run indexer.memory
        with ⟨fault | inventory, memory⟩
      · have hi : indexer.indexFile tree path =
            (.error fault, { indexer with memory := memory }, tree) := by
          simp only [indexFile, hl, hf]
        rw [taken?_eq_none (by simp [hi]), hi]
        exact .passed _ _ rfl (by simp)
      · cases hw : indexer.cache.write tree inventory with
        | error cause =>
          have hi : indexer.indexFile tree path =
              (.error (.file cause), { indexer with memory := memory }, tree) := by
            simp only [indexFile, hl, hf, hw]
          rw [taken?_eq_none (by simp [hi]), hi]
          exact .passed _ _ rfl (by simp)
        | ok after =>
          have hi : indexer.indexFile tree path =
              (.ok true, { indexer with memory := memory }, after) := by
            simp only [indexFile, hl, hf, hw]
          have ht : indexer.taken? tree path = some inventory := by
            simp only [taken?, hi, hf, Except.toOption]
          obtain ⟨ha, hd⟩ := Cache.write_eq_ok h hw
          rw [ht, hi, ha]
          exact .took inventory _ rfl (by rw [hf]) hd

theorem indexFiles_eq {indexer : Indexer} {place : Location} (h : indexer.cache.StandsAt place)
    (tree : FileTree) (paths : List String) :
    (indexer.indexFiles tree paths).1.indexed = (indexer.takings tree paths).map (·.filePath) ∧
    (indexer.indexFiles tree paths).2.1.cache = indexer.cache ∧
    (indexer.indexFiles tree paths).2.2 =
      Cache.keepAll place (indexer.takings tree paths) tree := by
  induction paths generalizing indexer tree with
  | nil => exact ⟨rfl, rfl, rfl⟩
  | cons path rest ih =>
    have hs := step_indexFile h tree path
    rw [indexFiles, takings]
    generalize indexer.indexFile tree path = outcome at hs ⊢
    generalize indexer.taken? tree path = taken at hs ⊢
    cases hs with
    | passed result later same no =>
      obtain ⟨hr, hc, ht⟩ := ih (same ▸ h) tree
      refine ⟨?_, hc.trans same, ht⟩
      simp only [Option.toList_none, List.nil_append, ← hr]
      split
      · contradiction
      · rfl
      · rfl
    | took inventory later same of free =>
      obtain ⟨hr, hc, ht⟩ := ih (same ▸ h) (Cache.keepAll place [inventory] tree)
      refine ⟨?_, hc.trans same, ht⟩
      simp only [Option.toList_some, List.singleton_append, List.map_cons,
        Inventory.filePath_of_ofFile of, ← hr]

/-- Where an inventory that a pass takes comes from: one of the files, read when some entries of the
cache had been put, and its own entry's place was free. -/
theorem mem_takings {indexer : Indexer} {place : Location} (h : indexer.cache.StandsAt place)
    {tree : FileTree} {paths : List String} {inventory : Inventory}
    (hi : inventory ∈ indexer.takings tree paths) :
    ∃ path ∈ paths, ∃ options directory memory kept,
      ((Inventory.ofFile (Cache.keepAll place kept tree) options directory path).run memory).1 =
        .ok inventory ∧
      tree.hasDirectory (place ++ [cacheFileName inventory.filePath]) = false := by
  induction paths generalizing indexer tree with
  | nil => cases hi
  | cons path rest ih =>
    have hs := step_indexFile h tree path
    rw [takings] at hi
    generalize indexer.indexFile tree path = outcome at hs hi
    generalize indexer.taken? tree path = taken at hs hi
    cases hs with
    | passed result later same no =>
      obtain ⟨other, hm, hrest⟩ := ih (same ▸ h) hi
      exact ⟨other, List.mem_cons_of_mem path hm, hrest⟩
    | took first later same of free =>
      rcases List.mem_append.1 hi with hi | hi
      · obtain rfl := List.mem_singleton.1 hi
        exact ⟨path, List.mem_cons_self, _, _, _, [], of, free⟩
      · obtain ⟨other, hm, options, directory, memory, kept, hread, hfree⟩ := ih (same ▸ h) hi
        exact ⟨other, List.mem_cons_of_mem path hm, options, directory, memory,
          first :: kept, hread, hfree⟩

theorem filePaths_takings {indexer : Indexer} {place : Location} (h : indexer.cache.StandsAt place)
    (tree : FileTree) (paths : List String) :
    ((indexer.takings tree paths).map (·.filePath)).Sublist paths := by
  induction paths generalizing indexer tree with
  | nil => exact .slnil
  | cons path rest ih =>
    have hs := step_indexFile h tree path
    rw [takings]
    generalize indexer.indexFile tree path = outcome at hs ⊢
    generalize indexer.taken? tree path = taken at hs ⊢
    cases hs with
    | passed result later same no => exact (ih (same ▸ h) tree).cons path
    | took inventory later same of free =>
      simp only [Option.toList_some, List.singleton_append, List.map_cons]
      rw [Inventory.filePath_of_ofFile of]
      exact (ih (same ▸ h) _).cons_cons path

theorem indexDirectory_tree {indexer : Indexer} {place : Location}
    (h : indexer.cache.StandsAt place) (tree : FileTree) :
    (indexer.indexDirectory tree).2.2 = tree ∨
      ∃ wide taken, tree.makeDirectory indexer.cache.directory = .ok wide ∧
        (indexer.indexDirectory tree).2.2 = Cache.keepAll place taken wide := by
  unfold indexDirectory Cache.prepare
  cases hm : tree.makeDirectory indexer.cache.directory with
  | error cause => exact .inl rfl
  | ok wide =>
    refine .inr ⟨wide, ?_⟩
    simp only
    cases hf : wide.sources indexer.root indexer.ignored with
    | error cause => exact ⟨[], trivial, rfl⟩
    | ok files =>
      have hc : { indexer with files := files }.cache.StandsAt place := h
      obtain ⟨-, -, ht⟩ := indexFiles_eq hc wide files
      exact ⟨_, trivial, ht⟩

end Indexer

end EndpointAtlas
