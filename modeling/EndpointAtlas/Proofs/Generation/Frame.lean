import EndpointAtlas.Generation
import EndpointAtlas.Proofs.Config.Accepted
import EndpointAtlas.Proofs.Inventory.Pass

/-!
What a run leaves of the files that were there before. Main statements: a run that gets as far as
its cache takes away what lies at or below the place of the cache, and nothing else; and which files
these are for a configuration that is accepted.
-/

set_option autoImplicit false

namespace EndpointAtlas.Run

variable {tree : FileTree} {root : String} {config : Config} {options : RunOptions}

/-- Does a run get as far as its cache? There has to be a root directory and a moment for the
document. -/
def starts (tree : FileTree) (root : String) (config : Config) (options : RunOptions) : Bool :=
  tree.hasDirectory (tree.locate root) &&
    (Document.create? (headFor config options (tree.resolve root)) options.generatedAt).isSome

def cachePlace (tree : FileTree) (root : String) (config : Config) : Location :=
  Path.follow (tree.locate root) config.cacheDirName

def indexerFor (tree : FileTree) (root : String) (config : Config) : Indexer :=
  Indexer.of tree (tree.resolve root) config.ignoredDirs config.cacheDirName config.maxFileSize

theorem cache_indexerFor (named : Config.nameFaults config.cacheDirName = []) (tree : FileTree)
    (root : String) :
    (indexerFor tree root config).cache.StandsAt (cachePlace tree root config) := by
  obtain ⟨hn, hs, -⟩ := Config.nameFaults_eq_nil.1 named
  have h := Cache.standsAt_of tree (tree.resolve root) hn hs
  rwa [tree.locate_resolve] at h

theorem tree_indexed (config : Config) (options : RunOptions) (indexer : Indexer) (tree : FileTree)
    (document : Document) :
    (indexed config options indexer tree document).tree = (indexer.indexDirectory tree).2.2 := by
  unfold indexed
  rcases indexer.indexDirectory tree with ⟨cause | report, later, after⟩
  · rfl
  · simp only
    split <;> rfl

theorem generate_of_not_starts (h : starts tree root config options = false) :
    (generate tree root config options).tree = tree := by
  unfold starts at h
  unfold generate FileTree.isDirectory
  simp only [tree.locate_resolve]
  cases hd : tree.hasDirectory (tree.locate root) with
  | false => rfl
  | true =>
    rw [hd, Bool.true_and] at h
    simp only [Bool.not_true, Bool.false_eq_true, if_false]
    split
    · rfl
    · rename_i document hc
      simp [hc] at h

theorem generate_of_starts (named : Config.nameFaults config.cacheDirName = [])
    (h : starts tree root config options = true) :
    (generate tree root config options).tree =
      ((indexerFor tree root config).indexDirectory tree).2.2.removeAt
        (cachePlace tree root config) := by
  unfold starts at h
  rw [Bool.and_eq_true] at h
  obtain ⟨document, hc⟩ := Option.isSome_iff_exists.1 h.2
  unfold generate FileTree.isDirectory
  simp only [tree.locate_resolve, h.1, hc, Bool.not_true, Bool.false_eq_true, if_false]
  rw [Indexer.close, Cache.dispose, FileTree.remove, tree_indexed]
  exact congrArg (FileTree.removeAt _) ((cache_indexerFor named tree root).locate_directory _)

/-- However it ends, a run that gets as far as its cache takes away every file at or below the place
of the cache, and keeps every other file. -/
theorem content?_generate_of_starts (named : Config.nameFaults config.cacheDirName = [])
    (h : starts tree root config options = true) (place : Location) :
    (generate tree root config options).tree.content? place =
      if cachePlace tree root config <+: place then none else tree.content? place := by
  rw [generate_of_starts named h, FileTree.content?_removeAt]
  simp only [List.isPrefixOf_iff_prefix]
  split
  · rfl
  · rename_i ho
    rcases Indexer.indexDirectory_tree (cache_indexerFor named tree root) tree with
      ht | ⟨wide, taken, hm, ht⟩
    · rw [ht]
    · rw [ht, Cache.content?_keepAll_outside _ _ _ ho, (FileTree.makeDirectory_eq_ok hm).1.content?]

theorem eq_of_prefix (proper : tree.Proper) {above place : Location}
    (hd : tree.hasDirectory above = false) (hf : tree.hasFile place = true) (hp : above <+: place) :
    place = above := by
  by_contra hne
  rw [proper.hasDirectory_above hf hp (Ne.symm hne)] at hd
  cases hd

theorem follow_below_iff {top : Location} (ht : Path.AreNames top) {piece : String}
    (hn : piece ≠ "") (hs : '/' ∉ piece.toList) :
    (∃ name, Path.follow top piece = top ++ [name]) ↔ piece ≠ "." ∧ piece ≠ ".." := by
  constructor
  · rintro ⟨name, hname⟩
    have hl := congrArg List.length hname
    refine ⟨fun hh => ?_, fun ha => ?_⟩
    · simp [hh] at hl
    · simp only [ha, Path.follow_above ht, List.length_dropLast, List.length_append,
        List.length_singleton] at hl
      omega
  · rintro ⟨hh, ha⟩
    exact ⟨piece, Path.follow_name top ⟨hn, hh, ha, hs⟩⟩

theorem not_follow_prefix_iff {top place : Location} (ht : Path.AreNames top)
    (hp : Path.AreNames place) {piece : String} (hn : piece ≠ "") (hs : '/' ∉ piece.toList)
    (own : Path.IsName piece → top ++ [piece] <+: place → place = top ++ [piece]) :
    ¬Path.follow top piece <+: place ↔
      (piece = "." → ¬top <+: place) ∧ (piece = ".." → ¬top.dropLast <+: place) ∧
        place ≠ top ++ [piece] := by
  have odd : ¬Path.IsName piece → place ≠ top ++ [piece] :=
    fun hno he => hno (hp piece (by simp [he]))
  by_cases hh : piece = "."
  · have hno := odd fun hc => hc.notHere hh
    rw [hh] at hno ⊢
    simp [hno]
  · by_cases ha : piece = ".."
    · have hno := odd fun hc => hc.notAbove ha
      rw [ha] at hno ⊢
      simp [Path.follow_above ht, hno]
    · have hname : Path.IsName piece := ⟨hn, hh, ha, hs⟩
      rw [Path.follow_name top hname]
      simp only [hh, ha, false_imp_iff, true_and]
      exact ⟨fun h he => h (he ▸ List.prefix_rfl), fun hne hc => hne (own hname hc)⟩

/-- With a configuration that is accepted, and no directory of its own where the cache is to be, a
run keeps a file exactly if it does not get as far as its cache or all of this holds: the cache is
not in the root itself with the file below it, it is not in the directory above the root with the
file below that, and it has not the file's own name. What a run removes is a directory in the root
that was not there before exactly if the name of the cache is neither one dot nor two. -/
theorem generate_keeps_iff {setting : Option Setting}
    (accepted : Config.ofSetting setting = .ok config) (proper : tree.Proper)
    (free : tree.hasDirectory (cachePlace tree root config) = true →
      cachePlace tree root config <+: tree.locate root) :
    (∀ place content, tree.content? place = some content →
      ((generate tree root config options).tree.content? place = some content ↔
        (starts tree root config options = true →
          (config.cacheDirName = "." → ¬tree.locate root <+: place) ∧
          (config.cacheDirName = ".." → ¬(tree.locate root).dropLast <+: place) ∧
          place ≠ tree.locate root ++ [config.cacheDirName]))) ∧
    (((∃ name, cachePlace tree root config = tree.locate root ++ [name]) ∧
        tree.hasDirectory (cachePlace tree root config) = false) ↔
      config.cacheDirName ≠ "." ∧ config.cacheDirName ≠ "..") := by
  have named := Config.nameFaults_cacheDirName accepted
  obtain ⟨hn, hs, -⟩ := Config.nameFaults_eq_nil.1 named
  have hroot := tree.areNames_locate root
  have below := follow_below_iff hroot hn hs
  -- The root is no longer than a directory above it, so the cache of another name is new.
  have new : config.cacheDirName ≠ "." ∧ config.cacheDirName ≠ ".." →
      tree.hasDirectory (cachePlace tree root config) = false := by
    intro hc
    obtain ⟨name, hname⟩ := below.2 hc
    rw [Bool.eq_false_iff]
    intro hd
    have hl := (free hd).length_le
    rw [cachePlace, hname, List.length_append, List.length_singleton] at hl
    omega
  refine ⟨fun place content hcontent => ?_, ?_⟩
  · have hf : tree.hasFile place = true := by rw [FileTree.hasFile, hcontent]; rfl
    cases hstart : starts tree root config options with
    | false =>
      rw [generate_of_not_starts hstart]
      exact ⟨fun _ h => absurd h Bool.false_ne_true, fun _ => hcontent⟩
    | true =>
      have own : Path.IsName config.cacheDirName →
          tree.locate root ++ [config.cacheDirName] <+: place →
          place = tree.locate root ++ [config.cacheDirName] := by
        intro hname
        have hd := new ⟨hname.notHere, hname.notAbove⟩
        rw [cachePlace, Path.follow_name _ hname] at hd
        exact eq_of_prefix proper hd hf
      rw [content?_generate_of_starts named hstart, hcontent, forall_prop_of_true rfl,
        ← not_follow_prefix_iff hroot (proper.areNames_of_hasFile hf) hn hs own, cachePlace]
      split
      · rename_i hp
        exact ⟨fun h => absurd h (by simp), fun h => absurd hp h⟩
      · rename_i hp
        exact ⟨fun _ => hp, fun _ => rfl⟩
  · exact ⟨fun h => below.1 h.1, fun h => ⟨below.2 h, new h⟩⟩

def occupied : FileTree :=
  ⟨"/", [(["proj", "app.ts"], .text "export {}"),
    (["proj", ".routescribe-inventory"], .text "notes")], [["proj"]]⟩

def plainOptions : RunOptions := ⟨none, none, 0, Generator.plain, fun _ => .ok (), []⟩

theorem generate_keeps_iff_occupied :
    Config.ofSetting none = .ok Config.default ∧ occupied.Proper ∧
    (occupied.hasDirectory (cachePlace occupied "/proj" Config.default) = true →
      cachePlace occupied "/proj" Config.default <+: occupied.locate "/proj") ∧
    (generate occupied "/proj" Config.default plainOptions).tree.content? ["proj", "app.ts"] =
      some (.text "export {}") ∧
    (generate occupied "/proj" Config.default plainOptions).tree.content?
      ["proj", ".routescribe-inventory"] ≠ some (.text "notes") := by
  have accepted : Config.ofSetting none = .ok Config.default := rfl
  have proper : occupied.Proper :=
    ⟨by decide, by decide, by decide, by decide, by decide, by decide⟩
  have free : occupied.hasDirectory (cachePlace occupied "/proj" Config.default) = true →
      cachePlace occupied "/proj" Config.default <+: occupied.locate "/proj" := by decide
  have keeps := (@generate_keeps_iff _ "/proj" _ plainOptions _ accepted proper free).1
  have started : starts occupied "/proj" Config.default plainOptions = true := by decide +kernel
  refine ⟨accepted, proper, free, (keeps _ _ (by decide)).2 fun _ => by decide, fun h => ?_⟩
  exact ((keeps _ _ (by decide)).1 h started).2.2 (by decide)

end EndpointAtlas.Run
