import EndpointAtlas.Proofs.Files.Sources
import EndpointAtlas.Proofs.Inventory.Holdings
import EndpointAtlas.Proofs.Inventory.Lines

/-!
The snapshot after a pass. Main statement: it holds the inventories of the files that the pass
indexed, and nothing else, exactly if none of these is lost under a file name that another one takes
as well and every entry left from before the pass gives way to one of these.
-/

set_option autoImplicit false

namespace EndpointAtlas

/-- No file has more lines than there are whole numbers of the format to count them by. -/
def FileTree.Numbered (tree : FileTree) : Prop :=
  ∀ entry ∈ tree.files, Text.lineCount entry.2.asText.toList < 2 ^ 53

namespace Inventory

theorem EachLine.imp {p q : Int → Prop} {inventory : Inventory} (h : inventory.EachLine p)
    (hpq : ∀ n, p n → q n) : inventory.EachLine q where
  classes d hd := (h.classes d hd).imp (hpq _) (hpq _)
  functions d hd := (h.functions d hd).imp (hpq _) (hpq _)
  vars d hd := (h.vars d hd).imp (hpq _) (hpq _)
  calls c hc := (h.calls c hc).imp (hpq _) (hpq _)
  imports i hi := (h.imports i hi).imp (hpq _) fun hu n hn => hpq n (hu n hn)

/-- Is an inventory given back by its entry in a cache? -/
def ReadsBack (inventory : Inventory) : Prop :=
  ∃ value, Json.parse? inventory.encode.indented = some value ∧
    decode? isLineNumber value = some inventory

theorem readsBack_of_counted {inventory : Inventory}
    (h : inventory.EachLine fun n => 1 ≤ n ∧ n < 2 ^ 53) : inventory.ReadsBack := by
  refine ⟨inventory.encode, Json.parse?_indented (readable_encode (h.imp fun n hn => ?_)),
    decode?_encode (h.imp fun n hn => ?_)⟩
  · unfold IsExactLine
    omega
  · simpa [isLineNumber] using hn.1

theorem readsBack_of_eachLine (source : List Char) {inventory : Inventory}
    (h : inventory.EachLine (OnLine source)) (hs : Text.lineCount source < 2 ^ 53) :
    inventory.ReadsBack :=
  readsBack_of_counted (h.imp fun n ⟨hone, hlast⟩ => ⟨hone, by omega⟩)

end Inventory

namespace Cache

variable {cache : Cache} {place : Location} {tree : FileTree} {taken : List Inventory}

/-- An inventory that is taken into a cache and stays there: none that is taken after it goes by its
file name. -/
def Kept (taken : List Inventory) (inventory : Inventory) : Prop :=
  ∃ earlier later, taken = earlier ++ inventory :: later ∧
    ∀ other ∈ later, cacheFileName other.filePath ≠ cacheFileName inventory.filePath

theorem Kept.mem {inventory : Inventory} (h : Kept taken inventory) : inventory ∈ taken := by
  obtain ⟨earlier, later, rfl, -⟩ := h
  simp

theorem kept_cons {first inventory : Inventory} {rest : List Inventory} :
    Kept (first :: rest) inventory ↔
      (inventory = first ∧
        ∀ other ∈ rest, cacheFileName other.filePath ≠ cacheFileName first.filePath) ∨
      Kept rest inventory := by
  constructor
  · rintro ⟨_ | ⟨_, earlier⟩, later, hs, hlast⟩ <;> cases hs
    · exact .inl ⟨rfl, hlast⟩
    · exact .inr ⟨earlier, later, rfl, hlast⟩
  · rintro (⟨rfl, hlast⟩ | ⟨earlier, later, rfl, hlast⟩)
    · exact ⟨[], rest, rfl, hlast⟩
    · exact ⟨first :: earlier, later, rfl, hlast⟩

theorem forall_kept_iff (once : taken.Nodup) :
    (∀ i ∈ taken, Kept taken i) ↔ (taken.map fun i => cacheFileName i.filePath).Nodup := by
  induction taken with
  | nil => exact iff_of_true (List.forall_mem_nil _) List.nodup_nil
  | cons first rest ih =>
    obtain ⟨hfirst, hrest⟩ := List.nodup_cons.1 once
    have hf : Kept (first :: rest) first ↔
        ∀ other ∈ rest, cacheFileName other.filePath ≠ cacheFileName first.filePath := by
      rw [kept_cons, or_iff_left fun hk => hfirst hk.mem, and_iff_right rfl]
    have hr : (∀ i ∈ rest, Kept (first :: rest) i) ↔ ∀ i ∈ rest, Kept rest i := by
      refine forall₂_congr fun i hi => ?_
      rw [kept_cons, or_iff_right]
      rintro ⟨rfl, -⟩
      exact hfirst hi
    rw [List.forall_mem_cons, hf, hr, ih hrest, List.map_cons, List.nodup_cons]
    simp only [List.mem_map, not_exists, not_and, ne_eq]

/-- An entry that was there before some inventories are taken, under a file name of none of
these. -/
structure Leftover (cache : Cache) (tree : FileTree) (taken : List Inventory) (name : String)
    (inventory : Inventory) : Prop where
  held : cache.Holds tree name inventory
  untouched : ∀ other ∈ taken, cacheFileName other.filePath ≠ name

/-- What a cache holds after some inventories are taken: those that are kept, and what is left
over. -/
def Stays (cache : Cache) (tree : FileTree) (taken : List Inventory) (name : String)
    (inventory : Inventory) : Prop :=
  (Kept taken inventory ∧ cacheFileName inventory.filePath = name) ∨
    cache.Leftover tree taken name inventory

theorem kept_or_untouched (taken : List Inventory) (name : String) :
    (∃ inventory, Kept taken inventory ∧ cacheFileName inventory.filePath = name) ∨
      ∀ other ∈ taken, cacheFileName other.filePath ≠ name := by
  induction taken with
  | nil => exact .inr (List.forall_mem_nil _)
  | cons first rest ih =>
    rcases ih with ⟨inventory, hkept, hname⟩ | hnone
    · exact .inl ⟨inventory, kept_cons.2 (.inr hkept), hname⟩
    · by_cases hf : cacheFileName first.filePath = name
      · exact .inl ⟨first, kept_cons.2 (.inl ⟨rfl, hf ▸ hnone⟩), hf⟩
      · exact .inr (List.forall_mem_cons.2 ⟨hf, hnone⟩)

theorem content?_keepAll_untouched {name : String} (tree : FileTree)
    (h : ∀ other ∈ taken, cacheFileName other.filePath ≠ name) :
    (keepAll place taken tree).content? (place ++ [name]) = tree.content? (place ++ [name]) :=
  content?_keepAll_other place taken tree fun other hm => by simpa using (h other hm).symm

theorem content?_keepAll_kept {inventory : Inventory} (tree : FileTree) (h : Kept taken inventory) :
    (keepAll place taken tree).content? (place ++ [cacheFileName inventory.filePath]) =
      some (.text inventory.encode.indented) := by
  obtain ⟨earlier, later, rfl, hlast⟩ := h
  have hsplit : keepAll place (earlier ++ inventory :: later) tree = keepAll place later
      ((keepAll place earlier tree).put (place ++ [cacheFileName inventory.filePath])
        (.text inventory.encode.indented)) := by
    rw [keepAll, List.foldl_append]
    rfl
  rw [hsplit, content?_keepAll_untouched _ hlast, FileTree.content?_put, if_pos rfl]

theorem hasDirectory_keepAll (place other : Location) (taken : List Inventory) (tree : FileTree) :
    (keepAll place taken tree).hasDirectory other = tree.hasDirectory other := by
  rw [FileTree.hasDirectory, FileTree.hasDirectory, directories_keepAll]

theorem proper_keepAll (hn : Path.AreNames place) (proper : tree.Proper)
    (hd : tree.hasDirectory place = true)
    (free : ∀ i ∈ taken, tree.hasDirectory (place ++ [cacheFileName i.filePath]) = false) :
    (keepAll place taken tree).Proper := by
  induction taken generalizing tree with
  | nil => exact proper
  | cons first rest ih =>
    obtain ⟨hf, hr⟩ := List.forall_mem_cons.1 free
    refine ih (proper.put _ ?_ hf (by simpa using hd)) hd hr
    exact hn.append (Path.areNames_singleton.2 (isName_cacheFileName _))

theorem json_cacheFileName (path : String) : Text.endsWith (cacheFileName path) ".json" = true := by
  simp [Text.endsWith, cacheFileName]

theorem holds_keepAll (h : cache.StandsAt place)
    (free : ∀ i ∈ taken, tree.hasDirectory (place ++ [cacheFileName i.filePath]) = false)
    (back : ∀ i ∈ taken, i.ReadsBack) (name : String) (inventory : Inventory) :
    cache.Holds (keepAll place taken tree) name inventory ↔
      cache.Stays tree taken name inventory := by
  have hkept : ∀ i, Kept taken i →
      cache.Holds (keepAll place taken tree) (cacheFileName i.filePath) i := by
    intro i hi
    rw [holds_iff h, hasDirectory_keepAll, content?_keepAll_kept tree hi]
    exact ⟨⟨isName_cacheFileName _, json_cacheFileName _⟩, free i hi.mem, _, rfl, back i hi.mem⟩
  have hleft : (∀ other ∈ taken, cacheFileName other.filePath ≠ name) →
      (cache.Holds (keepAll place taken tree) name inventory ↔
        cache.Holds tree name inventory) := by
    intro hu
    rw [holds_iff h, holds_iff h, hasDirectory_keepAll, content?_keepAll_untouched tree hu]
  constructor
  · intro hh
    rcases kept_or_untouched taken name with ⟨i, hi, rfl⟩ | hu
    · obtain rfl := hh.unique (hkept i hi)
      exact .inl ⟨hi, rfl⟩
    · exact .inr ⟨(hleft hu).1 hh, hu⟩
  · rintro (⟨hi, rfl⟩ | ⟨hh, hu⟩)
    · exact hkept inventory hi
    · exact (hleft hu).2 hh

theorem holds_of_widened (h : cache.StandsAt place) {wide : FileTree}
    (hw : FileTree.Widened tree (Path.beginnings place) wide) (name : String)
    (inventory : Inventory) :
    cache.Holds wide name inventory ↔ cache.Holds tree name inventory := by
  have hd : wide.hasDirectory (place ++ [name]) = tree.hasDirectory (place ++ [name]) := by
    rw [Bool.eq_iff_iff, hw.directories, Path.mem_beginnings]
    refine or_iff_left fun hp => ?_
    have := hp.length_le
    simp at this
  rw [holds_iff h, holds_iff h, hd, hw.content?]

end Cache

/-! ### A whole pass -/

namespace Indexer

/-- The inventories that a pass over a directory takes into the cache, in order: for each file that
it counts as indexed the one that it has just made of that file. -/
def inventories (indexer : Indexer) (tree : FileTree) : List Inventory :=
  match indexer.cache.prepare tree with
  | .error _ => []
  | .ok tree =>
    match tree.sources indexer.root indexer.ignored with
    | .error _ => []
    | .ok files => { indexer with files := files }.takings tree files

theorem indexDirectory_eq_ok {indexer : Indexer} {tree : FileTree} {report : IndexReport}
    (h : (indexer.indexDirectory tree).1 = .ok report) :
    ∃ wide files, tree.makeDirectory indexer.cache.directory = .ok wide ∧
      wide.sources indexer.root indexer.ignored = .ok files ∧
      indexer.inventories tree = { indexer with files := files }.takings wide files ∧
      report = ({ indexer with files := files }.indexFiles wide files).1 ∧
      (indexer.indexDirectory tree).2 =
        ({ indexer with files := files }.indexFiles wide files).2 := by
  unfold indexDirectory inventories Cache.prepare at *
  cases hm : tree.makeDirectory indexer.cache.directory with
  | error cause =>
    rw [hm] at h
    cases h
  | ok wide =>
    rw [hm] at h
    cases hf : wide.sources indexer.root indexer.ignored with
    | error cause =>
      simp only [hf] at h
      cases h
    | ok files =>
      simp only [hf] at h ⊢
      exact ⟨wide, files, rfl, hf, rfl, (Except.ok.inj h).symm, rfl⟩

/-- An inventory that a pass takes is given back by its entry: what the pass puts into the cache
does not change the files that it reads. -/
theorem readsBack_of_mem_takings {indexer : Indexer} {place top : Location} {ignored : List String}
    {tree : FileTree} {paths : List String} (h : indexer.cache.StandsAt place)
    (proper : tree.Proper)
    (numbered : tree.Numbered) (hp : paths = tree.sourcesBelow top ignored) {inventory : Inventory}
    (hi : inventory ∈ indexer.takings tree paths) : inventory.ReadsBack := by
  obtain ⟨path, hpath, options, directory, memory, kept, hof, -⟩ := mem_takings h hi
  obtain ⟨content, dialect, hread, rfl⟩ := Inventory.ofFile_eq_ok hof
  obtain ⟨entry, -, hl, hjson⟩ := FileTree.locate_source proper (hp ▸ hpath)
  have hc : tree.content? entry.1 = some content := by
    have hk := FileTree.content?_of_read hread
    rwa [FileTree.locate_congr (Cache.current_keepAll place kept tree), hl,
      Cache.content?_keepAll_other] at hk
    exact fun i _ => hjson place _
  have hn := numbered _ (FileTree.mem_files_of_content? hc)
  exact Inventory.readsBack_of_eachLine _
    (Inventory.eachLine_ofFindings (Findings.eachLine_ofTree _ _) _ _ _ _ _ _) hn

/-- What a pass that completes has done. -/
structure Completed (indexer : Indexer) (tree : FileTree) (place : Location) (report : IndexReport)
    (later : Indexer) (after : FileTree) : Prop where
  cache : later.cache = indexer.cache
  indexed : report.indexed = (indexer.inventories tree).map (·.filePath)
  once : report.indexed.Nodup
  proper : after.Proper
  directory : after.hasDirectory place = true
  holds : ∀ name inventory, indexer.cache.Holds after name inventory ↔
    indexer.cache.Stays tree (indexer.inventories tree) name inventory

theorem completed_indexDirectory {indexer : Indexer} {tree : FileTree} {place : Location}
    {report : IndexReport} (h : indexer.cache.StandsAt place) (proper : tree.Proper)
    (numbered : tree.Numbered) (hr : (indexer.indexDirectory tree).1 = .ok report) :
    indexer.Completed tree place report (indexer.indexDirectory tree).2.1
      (indexer.indexDirectory tree).2.2 := by
  obtain ⟨wide, files, hm, hs, ht, hreport, hafter⟩ := indexDirectory_eq_ok hr
  obtain ⟨hw, -⟩ := FileTree.makeDirectory_eq_ok hm
  rw [h.locate_directory tree] at hw
  have hwide := proper.makeDirectory hm
  have hplace : wide.hasDirectory place = true :=
    (hw.directories place).2 (.inr (Path.mem_beginnings.2 (List.prefix_refl place)))
  have hfill : { indexer with files := files }.cache.StandsAt place := h
  obtain ⟨hi, hc, hkeep⟩ := indexFiles_eq hfill wide files
  have hsources := FileTree.sources_eq_ok hs
  have hnumbered : wide.Numbered := fun entry he => numbered entry (hw.files ▸ he)
  -- What was taken could be written, so no directory bore its name, and what was read can be read
  -- back.
  have hfree : ∀ i ∈ indexer.inventories tree,
      wide.hasDirectory (place ++ [cacheFileName i.filePath]) = false := by
    intro i hm
    rw [ht] at hm
    obtain ⟨path, -, options, directory, memory, kept, -, hf⟩ := mem_takings hfill hm
    exact hf
  have hback : ∀ i ∈ indexer.inventories tree, i.ReadsBack := by
    intro i hm
    rw [ht] at hm
    exact readsBack_of_mem_takings hfill hwide hnumbered hsources hm
  rw [hafter, hreport, hkeep]
  rw [← ht] at hi ⊢
  refine ⟨hc, hi, ?_, ?_, ?_, fun name inventory => ?_⟩
  · have honce : files.Nodup := hsources ▸ FileTree.nodup_sourcesBelow hwide
    rw [hi, ht]
    exact honce.sublist (filePaths_takings hfill wide files)
  · exact Cache.proper_keepAll h.names hwide hplace hfree
  · rw [Cache.hasDirectory_keepAll, hplace]
  · rw [Cache.holds_keepAll h hfree hback]
    refine or_congr_right ⟨fun hl => ?_, fun hl => ?_⟩
    · exact ⟨(Cache.holds_of_widened h hw _ _).1 hl.held, hl.untouched⟩
    · exact ⟨(Cache.holds_of_widened h hw _ _).2 hl.held, hl.untouched⟩

/-- A snapshot holds the inventories that a pass has made of the files that it counts as indexed,
one for each of these files, and nothing else. -/
structure IsExactly (snapshot : Snapshot) (report : IndexReport)
    (made : List Inventory) : Prop where
  size : snapshot.length = report.indexed.length
  indexed : ∀ path ∈ report.indexed, ∃ i ∈ made, i.filePath = path ∧ snapshot.find? path = some i
  nothingElse : ∀ path ∉ report.indexed, snapshot.find? path = none

/-- Each inventory of a pass is kept, or else some leftover entry is for its path. -/
def NoneLost (indexer : Indexer) (tree : FileTree) : Prop :=
  ∀ i ∈ indexer.inventories tree, Cache.Kept (indexer.inventories tree) i ∨
    ∃ name other, indexer.cache.Leftover tree (indexer.inventories tree) name other ∧
      other.filePath = i.filePath

/-- Each leftover entry is one of the inventories of a pass, or gives way to an entry for the same
path under a later name. -/
def LeftoversGiveWay (indexer : Indexer) (tree : FileTree) : Prop :=
  ∀ name other, indexer.cache.Leftover tree (indexer.inventories tree) name other →
    other ∈ indexer.inventories tree ∨
    ∃ last i, indexer.cache.Stays tree (indexer.inventories tree) last i ∧
      i.filePath = other.filePath ∧ Text.atMost name last = true ∧ last ≠ name

namespace Completed

variable {indexer later : Indexer} {tree after : FileTree} {place : Location} {report : IndexReport}

theorem find?_snapshot (h : indexer.cache.StandsAt place)
    (done : indexer.Completed tree place report later after) (path : String)
    (inventory : Inventory) :
    (later.snapshot after).1.find? path = some inventory ↔
      ∃ name, indexer.cache.Stays tree (indexer.inventories tree) name inventory ∧
        inventory.filePath = path ∧
        ∀ other found, indexer.cache.Stays tree (indexer.inventories tree) other found →
          found.filePath = path → Text.atMost other name = true := by
  rw [snapshot, done.cache, Cache.find?_snapshot h done.proper done.directory]
  simp only [done.holds]

theorem exists_find?_snapshot (h : indexer.cache.StandsAt place)
    (done : indexer.Completed tree place report later after) {name : String} {inventory : Inventory}
    (hs : indexer.cache.Stays tree (indexer.inventories tree) name inventory) :
    ∃ found, (later.snapshot after).1.find? inventory.filePath = some found := by
  rw [← Option.ne_none_iff_exists', snapshot, done.cache, ne_eq,
    Cache.find?_snapshot_eq_none h done.proper done.directory]
  exact fun hnone => hnone name inventory ((done.holds name inventory).2 hs) rfl

theorem length_snapshot (h : indexer.cache.StandsAt place)
    (done : indexer.Completed tree place report later after)
    (hfound : ∀ path, (∃ i, (later.snapshot after).1.find? path = some i) ↔ path ∈ report.indexed) :
    (later.snapshot after).1.length = report.indexed.length := by
  have hkeys : (Entries.keys (later.snapshot after).1).Nodup := by
    rw [snapshot, done.cache]
    exact Cache.nodup_keys_snapshot h done.proper done.directory
  have hperm : (Entries.keys (later.snapshot after).1).Perm report.indexed := by
    rw [List.perm_ext_iff_of_nodup hkeys done.once]
    intro path
    rw [← hfound, ← Entries.get?_isSome_iff, Option.isSome_iff_exists]
    rfl
  rw [← hperm.length_eq, Entries.keys, List.length_map]

theorem eq_of_filePath_eq (done : indexer.Completed tree place report later after) {i j : Inventory}
    (hi : i ∈ indexer.inventories tree) (hj : j ∈ indexer.inventories tree)
    (h : i.filePath = j.filePath) : i = j := by
  have once := done.once
  rw [done.indexed] at once
  exact List.inj_on_of_nodup_map once hi hj h

theorem mem_indexed (done : indexer.Completed tree place report later after) {path : String} :
    path ∈ report.indexed ↔ ∃ i ∈ indexer.inventories tree, i.filePath = path := by
  rw [done.indexed, List.mem_map]

theorem noneLost_of_isExactly (h : indexer.cache.StandsAt place)
    (done : indexer.Completed tree place report later after)
    (exact : IsExactly (later.snapshot after).1 report (indexer.inventories tree)) :
    NoneLost indexer tree := by
  intro i hi
  obtain ⟨j, hj, hpath, hfind⟩ := exact.indexed i.filePath (done.mem_indexed.2 ⟨i, hi, rfl⟩)
  obtain rfl := done.eq_of_filePath_eq hj hi hpath
  obtain ⟨name, ⟨hk, -⟩ | hl, -, -⟩ := (find?_snapshot h done _ _).1 hfind
  · exact .inl hk
  · exact .inr ⟨name, j, hl, rfl⟩

theorem leftoversGiveWay_of_isExactly (h : indexer.cache.StandsAt place)
    (done : indexer.Completed tree place report later after)
    (exact : IsExactly (later.snapshot after).1 report (indexer.inventories tree)) :
    LeftoversGiveWay indexer tree := by
  intro name other hl
  obtain ⟨found, hfound⟩ := exists_find?_snapshot h done (.inr hl)
  have hi : other.filePath ∈ report.indexed := by
    by_contra hno
    rw [exact.nothingElse _ hno] at hfound
    cases hfound
  obtain ⟨j, hj, hpath, hfind⟩ := exact.indexed _ hi
  obtain ⟨last, hs, -, hmax⟩ := (find?_snapshot h done _ _).1 hfind
  by_cases he : last = name
  · subst he
    have hu := ((done.holds _ _).2 hs).unique ((done.holds _ _).2 (.inr hl))
    exact .inl (hu ▸ hj)
  · exact .inr ⟨last, j, hs, hpath, hmax name other (.inr hl) rfl, he⟩

theorem mem_of_find?_snapshot (h : indexer.cache.StandsAt place)
    (done : indexer.Completed tree place report later after) (hleft : LeftoversGiveWay indexer tree)
    {path : String} {i : Inventory} (hf : (later.snapshot after).1.find? path = some i) :
    i ∈ indexer.inventories tree ∧ i.filePath = path := by
  obtain ⟨name, ⟨hk, -⟩ | hl, hpath, hmax⟩ := (find?_snapshot h done _ _).1 hf
  · exact ⟨hk.mem, hpath⟩
  · refine ⟨(hleft name i hl).resolve_right ?_, hpath⟩
    rintro ⟨last, j, hs, hj, hle, hne⟩
    exact hne (Text.atMost_antisymm (hmax last j hs (hj.trans hpath)) hle)

theorem exists_find?_of_mem_indexed (h : indexer.cache.StandsAt place)
    (done : indexer.Completed tree place report later after) (hkept : NoneLost indexer tree)
    {path : String} (hp : path ∈ report.indexed) :
    ∃ i, (later.snapshot after).1.find? path = some i := by
  obtain ⟨i, hi, rfl⟩ := done.mem_indexed.1 hp
  rcases hkept i hi with hk | ⟨name, other, hl, hpath⟩
  · exact exists_find?_snapshot h done (.inl ⟨hk, rfl⟩)
  · exact hpath ▸ exists_find?_snapshot h done (.inr hl)

theorem isExactly_iff (h : indexer.cache.StandsAt place)
    (done : indexer.Completed tree place report later after) :
    IsExactly (later.snapshot after).1 report (indexer.inventories tree) ↔
      NoneLost indexer tree ∧ LeftoversGiveWay indexer tree := by
  constructor
  · exact fun exact =>
      ⟨noneLost_of_isExactly h done exact, leftoversGiveWay_of_isExactly h done exact⟩
  -- The files that the snapshot knows are those that are indexed, so the two lists are equally
  -- long.
  · rintro ⟨hkept, hleft⟩
    refine ⟨length_snapshot h done fun path => ⟨?_, exists_find?_of_mem_indexed h done hkept⟩,
      fun path hp => ?_, fun path hp => ?_⟩
    · rintro ⟨i, hf⟩
      exact done.mem_indexed.2 ⟨i, mem_of_find?_snapshot h done hleft hf⟩
    · obtain ⟨i, hf⟩ := exists_find?_of_mem_indexed h done hkept hp
      obtain ⟨hi, hpath⟩ := mem_of_find?_snapshot h done hleft hf
      exact ⟨i, hi, hpath, hf⟩
    · rw [Option.eq_none_iff_forall_ne_some]
      exact fun i hf => hp (done.mem_indexed.2 ⟨i, mem_of_find?_snapshot h done hleft hf⟩)

theorem isExactly_iff_nodup (h : indexer.cache.StandsAt place)
    (done : indexer.Completed tree place report later after)
    (empty : ∀ name other, ¬indexer.cache.Holds tree name other) :
    IsExactly (later.snapshot after).1 report (indexer.inventories tree) ↔
      ((indexer.inventories tree).map fun i => cacheFileName i.filePath).Nodup := by
  have once : (indexer.inventories tree).Nodup := List.Nodup.of_map _ (done.indexed ▸ done.once)
  have hnone : ∀ name other, ¬indexer.cache.Leftover tree (indexer.inventories tree) name other :=
    fun name other hl => empty name other hl.held
  rw [isExactly_iff h done, ← Cache.forall_kept_iff once, NoneLost, LeftoversGiveWay]
  simp [hnone]

end Completed

variable {indexer : Indexer} {tree : FileTree} {report : IndexReport} {root cacheDirName : String}
  {ignored : List String} {maxFileSize : Nat}

theorem standsAt_of (hi : indexer = .of tree root ignored cacheDirName maxFileSize)
    (named : Path.IsName cacheDirName) :
    indexer.cache.StandsAt (tree.locate root ++ [cacheDirName]) := by
  rw [hi, ← Path.follow_name _ named]
  exact Cache.standsAt_of tree root named.nonempty named.unbroken

/-- After a pass that completes, the snapshot holds exactly the inventories that the pass has made
if and only if both of this holds: each of them is kept, none that is taken after it going by its
file name, or else some leftover entry is for its path; and each leftover entry is one of them, or
gives way to one for the same path under a later name. -/
theorem snapshot_isExactly_iff (hi : indexer = .of tree root ignored cacheDirName maxFileSize)
    (named : Path.IsName cacheDirName) (proper : tree.Proper) (numbered : tree.Numbered)
    (completed : (indexer.indexDirectory tree).1 = .ok report) :
    IsExactly ((indexer.indexDirectory tree).2.1.snapshot (indexer.indexDirectory tree).2.2).1
      report
        (indexer.inventories tree) ↔
      NoneLost indexer tree ∧ LeftoversGiveWay indexer tree :=
  Completed.isExactly_iff (standsAt_of hi named)
    (completed_indexDirectory (standsAt_of hi named) proper numbered completed)

def gone : Inventory := ⟨"/proj/gone.ts", .typescript, [], [], [], [], []⟩

def abandoned : FileTree :=
  ⟨"/", [(["proj", ".cache", "_q_proj_q_gone.json"], .text gone.encode.indented)],
    [["proj"], ["proj", ".cache"]]⟩

theorem readsBack_gone : gone.ReadsBack :=
  Inventory.readsBack_of_eachLine []
    ⟨by simp [gone], by simp [gone], by simp [gone], by simp [gone], by simp [gone]⟩ (by decide)

theorem snapshot_isExactly_iff_abandoned :
    Path.IsName ".cache" ∧ abandoned.Proper ∧ abandoned.Numbered ∧
    ((Indexer.of abandoned "/proj" [] ".cache" 0).indexDirectory abandoned).1 =
      .ok ⟨[], [], [], []⟩ ∧
    ¬IsExactly (((Indexer.of abandoned "/proj" [] ".cache" 0).indexDirectory abandoned).2.1.snapshot
      ((Indexer.of abandoned "/proj" [] ".cache" 0).indexDirectory abandoned).2.2).1
        ⟨[], [], [], []⟩
      ((Indexer.of abandoned "/proj" [] ".cache" 0).inventories abandoned) := by
  have named : Path.IsName ".cache" := ⟨by decide, by decide, by decide, by decide⟩
  have proper : abandoned.Proper :=
    ⟨by decide, by decide, by decide, by decide, by decide, by decide⟩
  have numbered : abandoned.Numbered := by
    intro entry he
    rw [List.mem_singleton.1 he]
    decide +kernel
  have completed : ((Indexer.of abandoned "/proj" [] ".cache" 0).indexDirectory abandoned).1 =
      .ok ⟨[], [], [], []⟩ := by decide +kernel
  refine ⟨named, proper, numbered, completed, fun h => ?_⟩
  obtain ⟨-, hleft⟩ := (snapshot_isExactly_iff rfl named proper numbered completed).1 h
  have hmade : (Indexer.of abandoned "/proj" [] ".cache" 0).inventories abandoned = [] := by
    decide +kernel
  rw [LeftoversGiveWay, hmade] at hleft
  have hplace : abandoned.locate "/proj" ++ [".cache"] = ["proj", ".cache"] := by decide
  have hstands : (Indexer.of abandoned "/proj" [] ".cache" 0).cache.StandsAt ["proj", ".cache"] :=
    hplace ▸ standsAt_of rfl named
  rcases hleft "_q_proj_q_gone.json" gone ⟨(Cache.holds_iff hstands).2
    ⟨⟨⟨by decide, by decide, by decide, by decide⟩, by decide⟩, by decide, _, rfl, readsBack_gone⟩,
    List.forall_mem_nil _⟩ with hmem | ⟨last, i, hstays, -, -, hne⟩
  · cases hmem
  · rcases hstays with ⟨hkept, -⟩ | hl
    · cases hkept.mem
    · obtain ⟨-, -, content, hc, -⟩ := (Cache.holds_iff hstands).1 hl.held
      have hentry := List.mem_singleton.1 (FileTree.mem_files_of_content? hc)
      exact hne (by simpa using congrArg Prod.fst hentry)

end Indexer

end EndpointAtlas
