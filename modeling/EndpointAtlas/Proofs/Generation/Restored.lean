import EndpointAtlas.Proofs.Generation.Frame

set_option autoImplicit false

namespace EndpointAtlas

namespace FileTree

variable {tree after : FileTree} {place : Location}

/-! ### Removals -/

/-- Nothing of a tree is at a place or below it. -/
structure Vacant (tree : FileTree) (place : Location) : Prop where
  files : ∀ entry ∈ tree.files, ¬place <+: entry.1
  directories : ∀ directory ∈ tree.directories, ¬place <+: directory

theorem Proper.vacant (proper : tree.Proper) (hf : tree.hasFile place = false)
    (hd : tree.hasDirectory place = false) : tree.Vacant place where
  files entry he hp := by
    have hentry : tree.hasFile entry.1 = true := (hasFile_iff tree _).2 ⟨entry, he, rfl⟩
    by_cases hs : place = entry.1
    · rw [hs, hentry] at hf
      cases hf
    · rw [proper.hasDirectory_above hentry hp hs] at hd
      cases hd
  directories directory he hp := by
    have hs := proper.hasDirectory_of_prefix hp ((hasDirectory_iff tree _).2 (.inr he))
    rw [hs] at hd
    cases hd

theorem Vacant.removeAt_eq (h : tree.Vacant place) : tree.removeAt place = tree := by
  have hf : tree.files.filter (fun entry => !place.isPrefixOf entry.1) = tree.files :=
    List.filter_eq_self.2 fun entry he => by
      simpa [← List.isPrefixOf_iff_prefix] using h.files entry he
  have hd : tree.directories.filter (fun directory => !place.isPrefixOf directory) =
      tree.directories :=
    List.filter_eq_self.2 fun directory he => by
      simpa [← List.isPrefixOf_iff_prefix] using h.directories directory he
  rw [removeAt, hf, hd]

theorem filter_putAt (keep : Location × Content → Bool) (location : Location) (content : Content)
    (hk : ∀ old, keep (location, old) = false) (files : List (Location × Content)) :
    (putAt location content files).filter keep = files.filter keep := by
  induction files with
  | nil => simp [putAt, hk]
  | cons entry rest ih =>
    obtain ⟨key, old⟩ := entry
    rw [putAt]
    split
    · rename_i he
      simp [he, hk]
    · rw [List.filter_cons, List.filter_cons, ih]

theorem removeAt_put {location : Location} (h : place <+: location) (content : Content)
    (tree : FileTree) : (tree.put location content).removeAt place = tree.removeAt place := by
  have hp : place.isPrefixOf location = true := List.isPrefixOf_iff_prefix.2 h
  have hf := filter_putAt (fun entry => !place.isPrefixOf entry.1) location content
    (fun _ => by simp [hp]) tree.files
  rw [removeAt, removeAt, put, hf]

theorem removeAt_addDirectory {location : Location} (h : place <+: location) (tree : FileTree) :
    (tree.addDirectory location).removeAt place = tree.removeAt place := by
  rw [addDirectory]
  split
  · rfl
  · simp [removeAt, List.isPrefixOf_iff_prefix.2 h]

theorem Proper.makeDirectory_eq (proper : tree.Proper) {path : String} {above : Location}
    {name : String} (hl : tree.locate path = above ++ [name]) (ha : tree.hasDirectory above = true)
    (h : tree.makeDirectory path = .ok after) : after = tree.addDirectory (above ++ [name]) := by
  have hsteps : (Path.beginnings above).foldl addDirectory tree = tree :=
    foldl_addDirectory_of_hasDirectory fun start hs =>
      proper.hasDirectory_of_prefix (Path.mem_beginnings.1 hs) ha
  obtain ⟨-, -, -, rfl⟩ := makeDirectory_eq_ok_iff.1 h
  rw [hl, Path.beginnings_concat, List.foldl_append, hsteps]
  rfl

end FileTree

theorem Cache.removeAt_keepAll (place : Location) (inventories : List Inventory) (tree : FileTree) :
    (Cache.keepAll place inventories tree).removeAt place = tree.removeAt place := by
  induction inventories generalizing tree with
  | nil => rfl
  | cons inventory rest ih =>
    exact (ih _).trans (FileTree.removeAt_put (List.prefix_append _ _) _ tree)

/-! ### Runs -/

theorem Indexer.removeAt_indexDirectory {indexer : Indexer} {tree : FileTree} {above : Location}
    {name : String} (h : indexer.cache.StandsAt (above ++ [name])) (proper : tree.Proper)
    (ha : tree.hasDirectory above = true) (vacant : tree.Vacant (above ++ [name])) :
    (indexer.indexDirectory tree).2.2.removeAt (above ++ [name]) = tree := by
  rcases indexDirectory_tree h tree with ht | ⟨wide, taken, hm, ht⟩
  · rw [ht, vacant.removeAt_eq]
  · have hw := proper.makeDirectory_eq (h.locate_directory tree) ha hm
    calc (indexer.indexDirectory tree).2.2.removeAt (above ++ [name])
      _ = wide.removeAt (above ++ [name]) := by rw [ht, Cache.removeAt_keepAll]
      _ = tree.removeAt (above ++ [name]) := by
          rw [hw, FileTree.removeAt_addDirectory List.prefix_rfl]
      _ = tree := vacant.removeAt_eq

namespace Run

variable {tree : FileTree} {root : String} {config : Config} {options : RunOptions}

/-- With a configuration that is accepted, whose cache is called neither one dot nor two and has not
the name of anything in the root, the tree after a run is the tree before it, however the run
ends. -/
theorem generate_tree {setting : Option Setting} (accepted : Config.ofSetting setting = .ok config)
    (proper : tree.Proper) (notHere : config.cacheDirName ≠ ".")
    (notAbove : config.cacheDirName ≠ "..")
    (noFile : tree.hasFile (tree.locate root ++ [config.cacheDirName]) = false)
    (noDirectory : tree.hasDirectory (tree.locate root ++ [config.cacheDirName]) = false)
    (options : RunOptions) : (generate tree root config options).tree = tree := by
  have named := Config.nameFaults_cacheDirName accepted
  obtain ⟨hn, hs, -⟩ := Config.nameFaults_eq_nil.1 named
  cases hstart : starts tree root config options with
  | false => exact generate_of_not_starts hstart
  | true =>
    have hplace : cachePlace tree root config = tree.locate root ++ [config.cacheDirName] :=
      Path.follow_name _ ⟨hn, notHere, notAbove, hs⟩
    have hroot : tree.hasDirectory (tree.locate root) = true :=
      (Bool.and_eq_true_iff.1 hstart).1
    rw [generate_of_starts named hstart, hplace]
    exact Indexer.removeAt_indexDirectory (hplace ▸ cache_indexerFor named tree root) proper hroot
      (proper.vacant noFile noDirectory)

def served : FileTree :=
  ⟨"/", [(["proj", "app.js"], .text "app.get('/x', (req, res) => res.end());")], [["proj"]]⟩

def refusedOptions : RunOptions :=
  { plainOptions with sink := fun _ => .error "progress sink closed" }

theorem generate_tree_refused :
    Config.ofSetting none = .ok Config.default ∧ served.Proper ∧
    Config.default.cacheDirName ≠ "." ∧ Config.default.cacheDirName ≠ ".." ∧
    served.hasFile (served.locate "/proj" ++ [Config.default.cacheDirName]) = false ∧
    served.hasDirectory (served.locate "/proj" ++ [Config.default.cacheDirName]) = false ∧
    starts served "/proj" Config.default refusedOptions = true ∧
    (generate served "/proj" Config.default refusedOptions).tree = served := by
  have accepted : Config.ofSetting none = .ok Config.default := rfl
  have proper : served.Proper := ⟨by decide, by decide, by decide, by decide, by decide, by decide⟩
  have noFile : served.hasFile (served.locate "/proj" ++ [Config.default.cacheDirName]) =
      false := by
    decide
  have noDirectory :
      served.hasDirectory (served.locate "/proj" ++ [Config.default.cacheDirName]) = false := by
    decide
  exact ⟨accepted, proper, by decide, by decide, noFile, noDirectory, by decide +kernel,
    generate_tree accepted proper (by decide) (by decide) noFile noDirectory refusedOptions⟩

end Run

end EndpointAtlas
