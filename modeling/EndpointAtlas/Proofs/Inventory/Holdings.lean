import EndpointAtlas.Proofs.Inventory.Pass
import EndpointAtlas.Proofs.Json.Entries
import EndpointAtlas.Proofs.Text.Listing

set_option autoImplicit false

namespace EndpointAtlas

/-! ### Snapshots -/

namespace Snapshot

@[simp] theorem find?_nil (path : String) : find? [] path = none := rfl

theorem ofList_concat (inventories : List Inventory) (last : Inventory) :
    ofList (inventories ++ [last]) = (ofList inventories).put last.filePath last := by
  simp [ofList, Entries.ofList, Entries.putAll]

theorem find?_ofList_concat (inventories : List Inventory) (last : Inventory) (path : String) :
    (ofList (inventories ++ [last])).find? path =
      if last.filePath = path then some last else (ofList inventories).find? path := by
  rw [ofList_concat, find?, Entries.get?_put]
  rfl

theorem nodup_keys_ofList (inventories : List Inventory) :
    (Entries.keys (ofList inventories)).Nodup := by
  induction inventories using List.reverseRecOn with
  | nil => exact List.nodup_nil
  | append_singleton inventories last ih =>
    rw [ofList_concat]
    exact Entries.nodup_keys_put ih

theorem find?_ofList_eq_none {inventories : List Inventory} {path : String} :
    (ofList inventories).find? path = none ↔ ∀ i ∈ inventories, i.filePath ≠ path := by
  induction inventories using List.reverseRecOn with
  | nil => exact iff_of_true rfl (List.forall_mem_nil _)
  | append_singleton inventories last ih =>
    rw [find?_ofList_concat]
    by_cases hp : last.filePath = path
    · simp [hp]
    · simp only [hp, if_false, ih, List.forall_mem_append, List.forall_mem_singleton, ne_eq,
        not_false_eq_true, and_true]

/-- Of the names under which an inventory of a path is read, this is the last, and this is its
inventory. -/
structure LastOf (names : List String) (read : String → Option Inventory) (path name : String)
    (inventory : Inventory) : Prop where
  mem : name ∈ names
  readsIt : read name = some inventory
  ofPath : inventory.filePath = path
  last : ∀ other ∈ names, ∀ found, read other = some found → found.filePath = path →
    Text.atMost other name = true

section

variable {names : List String} {read : String → Option Inventory} {path last : String}

theorem lastOf_concat (h : ∀ found, read last = some found → found.filePath ≠ path) (name : String)
    (inventory : Inventory) :
    LastOf (names ++ [last]) read path name inventory ↔ LastOf names read path name inventory := by
  constructor
  · rintro ⟨hm, hr, hp, hmax⟩
    refine ⟨?_, hr, hp, fun other ho => hmax other (List.mem_append_left _ ho)⟩
    rcases List.mem_append.1 hm with hm | hm
    · exact hm
    · rw [List.mem_singleton.1 hm] at hr
      exact absurd hp (h inventory hr)
  · rintro ⟨hm, hr, hp, hmax⟩
    refine ⟨List.mem_append_left _ hm, hr, hp, fun other ho found hf hfp => ?_⟩
    rcases List.mem_append.1 ho with ho | ho
    · exact hmax other ho found hf hfp
    · rw [List.mem_singleton.1 ho] at hf
      exact absurd hfp (h found hf)

theorem lastOf_concat_self {inventory : Inventory}
    (sorted : (names ++ [last]).Pairwise fun earlier later => Text.atMost earlier later = true)
    (hr : read last = some inventory) (hp : inventory.filePath = path) :
    LastOf (names ++ [last]) read path last inventory := by
  refine ⟨by simp, hr, hp, fun other ho _ _ _ => ?_⟩
  rcases List.mem_append.1 ho with ho | ho
  · exact (List.pairwise_append.1 sorted).2.2 other ho last (List.mem_singleton_self last)
  · rw [List.mem_singleton.1 ho]
    exact (Text.atMost_total last last).elim id id

theorem LastOf.unique {name other : String} {inventory found : Inventory}
    (h : LastOf names read path name inventory) (ho : LastOf names read path other found) :
    inventory = found := by
  have hname : name = other :=
    Text.atMost_antisymm (ho.last name h.mem inventory h.readsIt h.ofPath)
    (h.last other ho.mem found ho.readsIt ho.ofPath)
  exact Option.some.inj (h.readsIt.symm.trans (hname ▸ ho.readsIt))

end

theorem find?_ofList_filterMap {names : List String}
    (sorted : names.Pairwise fun earlier later => Text.atMost earlier later = true)
    (read : String → Option Inventory) (path : String) (inventory : Inventory) :
    (ofList (names.filterMap read)).find? path = some inventory ↔
      ∃ name, LastOf names read path name inventory := by
  -- The names are taken off from the end, since the last inventory of a path is the one that
  -- counts.
  induction names using List.reverseRecOn with
  | nil =>
    refine iff_of_false (by simp [ofList, Entries.ofList, Entries.putAll]) ?_
    rintro ⟨name, h⟩
    cases h.mem
  | append_singleton names last ih =>
    replace ih := ih (List.pairwise_append.1 sorted).1
    rw [List.filterMap_append]
    cases hr : read last with
    | none =>
      rw [List.filterMap_cons_none hr, List.filterMap_nil, List.append_nil, ih]
      exact exists_congr fun name => (lastOf_concat (by simp [hr]) name inventory).symm
    | some found =>
      rw [List.filterMap_cons_some hr, List.filterMap_nil, find?_ofList_concat]
      split
      · rename_i hp
        have hself := lastOf_concat_self sorted hr hp
        constructor
        · rintro ⟨⟩
          exact ⟨last, hself⟩
        · rintro ⟨name, hn⟩
          rw [hself.unique hn]
      · rename_i hp
        rw [ih]
        exact exists_congr fun name => (lastOf_concat (by simpa [hr] using hp) name inventory).symm

end Snapshot

/-! ### The directory of a cache -/

namespace FileTree

variable {tree : FileTree} {place : Location}

theorem child_eq_some {place other : Location} {name : String} :
    (if place.isPrefixOf other ∧ other.length = place.length + 1 then other.getLast? else none) =
      some name ↔ other = place ++ [name] := by
  rw [Option.ite_none_right_eq_some, List.isPrefixOf_iff_prefix]
  constructor
  · rintro ⟨⟨⟨last, rfl⟩, hl⟩, hg⟩
    obtain ⟨one, rfl⟩ := List.length_eq_one_iff.1 (by simpa using hl)
    simpa using hg
  · rintro rfl
    exact ⟨⟨List.prefix_append _ _, by simp⟩, by simp⟩

theorem exists_namesIn (path : String) (h : tree.hasDirectory (tree.locate path) = true) :
    ∃ names, tree.namesIn path = .ok names ∧ ∀ name, name ∈ names ↔
      tree.hasFile (tree.locate path ++ [name]) = true ∨
        tree.locate path ++ [name] ∈ tree.directories := by
  simp only [namesIn, h, Bool.not_true, if_false, Bool.false_eq_true]
  refine ⟨_, rfl, fun name => ?_⟩
  rw [List.mem_append, List.mem_filterMap, List.mem_filterMap, hasFile_iff]
  simp only [child_eq_some, exists_eq_right]

theorem read_eq_ok {path : String} (hs : Path.endsInSlash path = false) {content : Content} :
    tree.read path = .ok content ↔
      tree.hasDirectory (tree.locate path) = false ∧
      tree.content? (tree.locate path) = some content := by
  unfold read isDirectory
  cases tree.hasDirectory (tree.locate path) with
  | true => simp
  | false =>
    cases tree.content? (tree.locate path) with
    | none => simp [hs]
    | some other => simp [hs]

theorem content?_of_read {path : String} {content : Content} (h : tree.read path = .ok content) :
    tree.content? (tree.locate path) = some content := by
  unfold read at h
  split at h
  · cases h
  · split at h
    · cases h
    · split at h
      · rename_i hc
        rw [hc, Except.ok.inj h]
      · cases h

theorem mem_files_of_content? {content : Content} (h : tree.content? place = some content) :
    (place, content) ∈ tree.files := by
  obtain ⟨before, after, hs, -⟩ := List.lookup_eq_some_iff.1 h
  rw [hs]
  simp

end FileTree

namespace Cache

variable {cache : Cache} {place : Location} {tree : FileTree}

/-- A file of the directory of a cache gives an inventory. -/
structure Holds (cache : Cache) (tree : FileTree) (name : String)
    (inventory : Inventory) : Prop where
  isName : Path.IsName name
  json : Text.endsWith name ".json" = true
  found : readEntry tree (Path.join [cache.directory, name]) = .found inventory

theorem readEntry_eq_found {path : String} {inventory : Inventory} :
    readEntry tree path = .found inventory ↔
      ∃ content, tree.read path = .ok content ∧
        ∃ value, Json.parse? content.asText = some value ∧
          Inventory.decode? isLineNumber value = some inventory := by
  unfold readEntry
  cases tree.read path with
  | error cause => simp
  | ok content =>
    cases hp : Json.parse? content.asText with
    | none => simp [hp]
    | some value =>
      cases hd : Inventory.decode? isLineNumber value <;> simp [hp, hd]

theorem Holds.unique {name : String} {inventory other : Inventory}
    (h : cache.Holds tree name inventory) (ho : cache.Holds tree name other) : inventory = other :=
  Entry.found.inj (h.found.symm.trans ho.found)

theorem holds_iff (h : cache.StandsAt place) {name : String} {inventory : Inventory} :
    cache.Holds tree name inventory ↔
      (Path.IsName name ∧ Text.endsWith name ".json" = true) ∧
        tree.hasDirectory (place ++ [name]) = false ∧
        ∃ content, tree.content? (place ++ [name]) = some content ∧
          ∃ value, Json.parse? content.asText = some value ∧
            Inventory.decode? isLineNumber value = some inventory := by
  constructor
  · rintro ⟨hn, hj, hf⟩
    obtain ⟨content, hr, hv⟩ := readEntry_eq_found.1 hf
    obtain ⟨hd, hc⟩ := (FileTree.read_eq_ok (Path.endsInSlash_join cache.directory hn)).1 hr
    rw [h.locate_join tree hn] at hd hc
    exact ⟨⟨hn, hj⟩, hd, content, hc, hv⟩
  · rintro ⟨⟨hn, hj⟩, hd, content, hc, hv⟩
    refine ⟨hn, hj, readEntry_eq_found.2 ⟨content, ?_, hv⟩⟩
    rw [FileTree.read_eq_ok (Path.endsInSlash_join cache.directory hn), h.locate_join tree hn]
    exact ⟨hd, hc⟩

theorem snapshot_of_namesIn {listed : List String}
    (hl : tree.namesIn cache.directory = .ok listed) :
    (cache.snapshot tree).1 =
      Snapshot.ofList (((Text.sorted listed).filter fun name =>
        Text.endsWith name ".json").filterMap
        fun name => (readEntry tree (Path.join [cache.directory, name])).inventory?) := by
  have he : cache.entries tree =
      ((Text.sorted listed).filter fun name => Text.endsWith name ".json").map
        fun name => readEntry tree (Path.join [cache.directory, name]) := by
    unfold entries
    rw [hl]
  unfold snapshot
  simp only [he]
  rw [List.filterMap_map]
  refine congrArg Snapshot.ofList (List.filterMap_congr fun name _ => ?_)
  rw [Function.comp_apply]

theorem exists_snapshot_eq (h : cache.StandsAt place) (proper : tree.Proper)
    (hd : tree.hasDirectory place = true) :
    ∃ (names : List String) (read : String → Option Inventory),
      names.Pairwise (fun earlier later => Text.atMost earlier later = true) ∧
      (cache.snapshot tree).1 = Snapshot.ofList (names.filterMap read) ∧
      ∀ name inventory, name ∈ names ∧ read name = some inventory ↔
      cache.Holds tree name inventory := by
  obtain ⟨listed, hl, hm⟩ := tree.exists_namesIn cache.directory
    (by rwa [h.locate_directory tree])
  rw [h.locate_directory tree] at hm
  have hname : ∀ name ∈ listed, Path.IsName name := by
    intro name hn
    have hall : Path.AreNames (place ++ [name]) := by
      rcases (hm name).1 hn with hf | hd
      · exact proper.areNames_of_hasFile hf
      · exact proper.directoryNames _ hd
    exact hall name (by simp)
  have hsorted := (Text.pairwise_sorted listed).filter fun name => Text.endsWith name ".json"
  refine ⟨_, fun name => (readEntry tree (Path.join [cache.directory, name])).inventory?, hsorted,
    snapshot_of_namesIn hl, fun name inventory => ?_⟩
  rw [List.mem_filter, (Text.sorted_perm listed).mem_iff]
  constructor
  · rintro ⟨⟨hn, hj⟩, hr⟩
    refine ⟨hname name hn, hj, ?_⟩
    cases he : readEntry tree (Path.join [cache.directory, name]) <;>
      simp only [he, Entry.inventory?, Option.some.injEq, reduceCtorEq] at hr
    rw [hr]
  · intro hh
    obtain ⟨-, -, content, hc, -⟩ := (holds_iff h).1 hh
    have hf : tree.hasFile (place ++ [name]) = true := by
      rw [FileTree.hasFile, hc]
      rfl
    refine ⟨⟨(hm name).2 (.inl hf), hh.json⟩, ?_⟩
    simp only [hh.found, Entry.inventory?]

theorem find?_snapshot (h : cache.StandsAt place) (proper : tree.Proper)
    (hd : tree.hasDirectory place = true) (path : String) (inventory : Inventory) :
    (cache.snapshot tree).1.find? path = some inventory ↔
      ∃ name, cache.Holds tree name inventory ∧ inventory.filePath = path ∧
        ∀ other found, cache.Holds tree other found → found.filePath = path →
          Text.atMost other name = true := by
  obtain ⟨names, read, hsorted, hs, hh⟩ := exists_snapshot_eq h proper hd
  rw [hs, Snapshot.find?_ofList_filterMap hsorted]
  refine exists_congr fun name => ⟨fun hl => ?_, fun ⟨hn, hp, hmax⟩ => ?_⟩
  · refine ⟨(hh _ _).1 ⟨hl.mem, hl.readsIt⟩, hl.ofPath, fun other found ho => ?_⟩
    exact hl.last other ((hh _ _).2 ho).1 found ((hh _ _).2 ho).2
  · refine ⟨((hh _ _).2 hn).1, ((hh _ _).2 hn).2, hp, fun other ho found hf => ?_⟩
    exact hmax other found ((hh _ _).1 ⟨ho, hf⟩)

theorem find?_snapshot_eq_none (h : cache.StandsAt place) (proper : tree.Proper)
    (hd : tree.hasDirectory place = true) (path : String) :
    (cache.snapshot tree).1.find? path = none ↔
      ∀ name inventory, cache.Holds tree name inventory → inventory.filePath ≠ path := by
  obtain ⟨names, read, -, hs, hh⟩ := exists_snapshot_eq h proper hd
  rw [hs, Snapshot.find?_ofList_eq_none]
  simp only [← hh, and_imp, List.mem_filterMap, forall_exists_index]
  exact ⟨fun hn name inventory hm hr => hn inventory name hm hr,
    fun hn inventory name hm hr => hn name inventory hm hr⟩

theorem nodup_keys_snapshot (h : cache.StandsAt place) (proper : tree.Proper)
    (hd : tree.hasDirectory place = true) : (Entries.keys (cache.snapshot tree).1).Nodup := by
  obtain ⟨names, read, -, hs, -⟩ := exists_snapshot_eq h proper hd
  rw [hs]
  exact Snapshot.nodup_keys_ofList _

end Cache

end EndpointAtlas
