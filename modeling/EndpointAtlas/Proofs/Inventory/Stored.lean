import EndpointAtlas.Proofs.Inventory.Snapshot

set_option autoImplicit false

namespace EndpointAtlas

@[simp] theorem FileTree.locate_put (tree : FileTree) (place : Location) (content : Content)
    (path : String) :
    (tree.put place content).locate path = tree.locate path := rfl

theorem Inventory.ofSource_eq_ok {tree : FileTree} {options : ExtractOptions}
    {directory filePath source : String} {memory : Memory} {inventory : Inventory}
    (h : ((ofSource tree options directory filePath source).run memory).1 = .ok inventory) :
    inventory.filePath = filePath ∧ inventory.EachLine (OnLine source.toList) := by
  rw [← reading_eq_ok h]
  exact ⟨filePath_ofFindings _ _ _ _ _ _ _,
    eachLine_ofFindings (Findings.eachLine_ofTree _ _) _ _ _ _ _ _⟩

namespace Cache

variable {cache : Cache} {before made : FileTree}

/-- The place of the entry of a source file. -/
def entryPlace (cache : Cache) (tree : FileTree) (path : String) : Location :=
  tree.locate cache.directory ++ [cacheFileName path]

theorem locate_pathFor (cache : Cache) (tree : FileTree) (path : String) :
    tree.locate (cache.pathFor path) = cache.entryPlace tree path :=
  tree.locate_join cache.directory (isName_cacheFileName path)

/-- An entry that a file system takes: its name is not longer than 255 octets, and no directory
bears it. -/
structure Fits (cache : Cache) (tree : FileTree) (path : String) : Prop where
  short : (Content.text (cacheFileName path)).size ≤ 255
  free : tree.hasDirectory (cache.entryPlace tree path) = false

theorem write_of_prepare (prepared : cache.prepare before = .ok made) (inventory : Inventory) :
    cache.write made inventory =
      if made.hasDirectory (cache.entryPlace made inventory.filePath) then
        .error (.isDirectory "open" (cache.pathFor inventory.filePath))
      else if 255 < (Content.text (cacheFileName inventory.filePath)).size then
        .error (.nameTooLong "open" (cache.pathFor inventory.filePath))
      else .ok (made.put (cache.entryPlace made inventory.filePath)
        (.text inventory.encode.indented)) := by
  obtain ⟨hw, -⟩ := FileTree.makeDirectory_eq_ok prepared
  have hlocate : made.locate cache.directory = before.locate cache.directory :=
    FileTree.locate_congr hw.current _
  have hpresent : made.hasDirectory (made.locate cache.directory) = true := by
    rw [hlocate, hw.directories]
    exact .inr (Path.mem_beginnings.2 List.prefix_rfl)
  have hshort : FileTree.tooLong (made.locate cache.directory) = false := by
    rw [hlocate]
    exact (FileTree.makeDirectory_eq_ok_iff.1 prepared).2.2.1
  have hlong : FileTree.tooLong (cache.entryPlace made inventory.filePath) =
      decide (255 < (Content.text (cacheFileName inventory.filePath)).size) := by
    rw [FileTree.tooLong] at hshort
    rw [FileTree.tooLong, entryPlace, List.any_append, hshort]
    simp
  have habove : made.hasDirectory (cache.entryPlace made inventory.filePath).dropLast = true := by
    rw [entryPlace, List.dropLast_concat]
    exact hpresent
  rw [write, keep, FileTree.write]
  simp only [FileTree.isDirectory, FileTree.absence, locate_pathFor, hlong, habove,
    Bool.not_true, Bool.or_false, decide_eq_true_eq]
  split
  · rfl
  · split <;> rfl

theorem read_put {tree : FileTree} {inventory : Inventory} (back : inventory.ReadsBack)
    (free : tree.hasDirectory (cache.entryPlace tree inventory.filePath) = false) :
    cache.read (tree.put (cache.entryPlace tree inventory.filePath)
      (.text inventory.encode.indented))
      inventory.filePath = .found inventory := by
  have hend : Path.endsInSlash (cache.pathFor inventory.filePath) = false :=
    Path.endsInSlash_join cache.directory (isName_cacheFileName inventory.filePath)
  refine readEntry_eq_found.2 ⟨.text inventory.encode.indented,
    (FileTree.read_eq_ok hend).2 ?_, back⟩
  rw [FileTree.locate_put, locate_pathFor, FileTree.content?_put, if_pos rfl]
  exact ⟨free, rfl⟩

theorem fits_of_write (prepared : cache.prepare before = .ok made) {inventory : Inventory}
    {after : FileTree} (h : cache.write made inventory = .ok after) :
    cache.Fits made inventory.filePath := by
  rw [write_of_prepare prepared] at h
  split at h
  · cases h
  · rename_i hfree
    split at h
    · cases h
    · rename_i hshort
      exact ⟨Nat.not_lt.1 hshort, by simpa using hfree⟩

theorem read_of_prepare (prepared : cache.prepare before = .ok made) {inventory : Inventory}
    (back : inventory.ReadsBack) :
    (∃ after, cache.write made inventory = .ok after ∧
      cache.read after inventory.filePath = .found inventory) ↔
      cache.Fits made inventory.filePath := by
  constructor
  · rintro ⟨after, hwrite, -⟩
    exact fits_of_write prepared hwrite
  · rintro ⟨hshort, hfree⟩
    rw [write_of_prepare prepared, if_neg (by simp [hfree]), if_neg (Nat.not_lt.2 hshort)]
    exact ⟨_, rfl, read_put back hfree⟩

theorem code_of_write (prepared : cache.prepare before = .ok made) {inventory : Inventory}
    {cause : FileError} (h : cache.write made inventory = .error cause) :
    cause.code = "ENAMETOOLONG" ∨ cause.code = "EISDIR" := by
  rw [write_of_prepare prepared] at h
  split at h
  · exact .inr (Except.error.inj h ▸ rfl)
  · split at h
    · exact .inl (Except.error.inj h ▸ rfl)
    · cases h

/-- Every inventory whose line numbers are counted from 1 and numbers of the format is decoded from
its written JSON. So the inventory that is made of a source text, wherever its imports lead, is read
back from a prepared cache as it was written, without a warning, exactly if its entry fits; and a
write that fails is refused for its name's length or for a directory of that name. -/
theorem read_write_iff :
    (∀ inventory : Inventory, inventory.EachLine (fun n => 1 ≤ n ∧ n < 2 ^ 53) →
      inventory.ReadsBack) ∧
    ∀ (tree : FileTree) (options : ExtractOptions) (directory filePath source : String)
      (memory : Memory) (inventory : Inventory),
      ((Inventory.ofSource tree options directory filePath source).run memory).1 = .ok inventory →
      Text.lineCount source.toList < 2 ^ 53 →
      ∀ (cache : Cache) (before made : FileTree), cache.prepare before = .ok made →
        ((∃ after, cache.write made inventory = .ok after ∧
            cache.read after filePath = .found inventory ∧
            (cache.read after filePath).warnings = []) ↔
          cache.Fits made filePath) ∧
        ∀ cause, cache.write made inventory = .error cause →
          cause.code = "ENAMETOOLONG" ∨ cause.code = "EISDIR" := by
  refine ⟨fun inventory => Inventory.readsBack_of_counted, ?_⟩
  intro tree options directory filePath source memory inventory extracted numbered cache before made
    prepared
  obtain ⟨rfl, lines⟩ := Inventory.ofSource_eq_ok extracted
  have quiet : ∀ after, cache.read after inventory.filePath = .found inventory →
      (cache.read after inventory.filePath).warnings = [] := fun after hr => by rw [hr]; rfl
  refine ⟨?_, fun cause => code_of_write prepared⟩
  rw [← read_of_prepare prepared (Inventory.readsBack_of_eachLine _ lines numbered)]
  exact exists_congr fun after => and_congr_right fun _ => and_iff_left_of_imp (quiet after)

def declaring : Inventory := ⟨"/proj/src/a.ts", .typescript, [], [], [⟨"total", ⟨1, 1⟩⟩], [], []⟩

theorem read_write_iff_declaring :
    declaring.EachLine (fun n => 1 ≤ n ∧ n < 2 ^ 53) ∧ declaring.ReadsBack ∧
    ∃ inventory made, ((Inventory.ofSource (.empty "/proj") ⟨none, []⟩ "/proj/src" "/proj/src/a.ts"
        "const total = 1;\n").run .empty).1 = .ok inventory ∧
      Text.lineCount "const total = 1;\n".toList < 2 ^ 53 ∧
      (Cache.of "/proj" "c").prepare (.empty "/proj") = .ok made ∧
      (Cache.of "/proj" "c").Fits made "/proj/src/a.ts" ∧
      ∃ after, (Cache.of "/proj" "c").write made inventory = .ok after ∧
        (Cache.of "/proj" "c").read after "/proj/src/a.ts" = .found inventory := by
  have lines : declaring.EachLine (fun n => 1 ≤ n ∧ n < 2 ^ 53) :=
    ⟨by simp [declaring], by simp [declaring], by simp [declaring,
      LineRange.Both], by simp [declaring], by simp [declaring]⟩
  have numbered : Text.lineCount "const total = 1;\n".toList < 2 ^ 53 := by decide
  have prepared : (Cache.of "/proj" "c").prepare (.empty "/proj") =
      .ok ⟨"/proj", [], [["proj"], ["proj", "c"]]⟩ := by decide +kernel
  have fits : (Cache.of "/proj" "c").Fits ⟨"/proj", [],
      [["proj"], ["proj", "c"]]⟩ "/proj/src/a.ts" :=
    ⟨by decide +kernel, by decide +kernel⟩
  obtain ⟨inventory, extracted⟩ := Inventory.exists_ofSource (.empty "/proj") none "/proj/src"
    "/proj/src/a.ts" "const total = 1;\n" .empty
  obtain ⟨after, hwrite, hread, -⟩ :=
    ((read_write_iff.2 _ _ _ _ _ _ _ extracted numbered _ _ _ prepared).1).2 fits
  exact ⟨lines, read_write_iff.1 _ lines, inventory, _, extracted, numbered, prepared, fits,
    after, hwrite, hread⟩

def longPath : String := "/x/" ++ String.ofList (List.replicate 300 'a') ++ ".ts"

theorem size_cacheFileName_longPath : 255 < (Content.text (cacheFileName longPath)).size := by
  have chars : longPath.toList = "/x/".toList ++ List.replicate 300 'a' ++ ".ts".toList := by
    simp only [longPath, String.toList_append, String.toList_ofList]
  -- Lists of characters are quick to evaluate, texts are not.
  simp only [Content.size, cacheFileName, chars, Path.extension, Path.baseName,
    String.toList_append, String.toList_ofList]
  decide +kernel

/-- Not every inventory that is made of a source text can be written. -/
theorem read_write_longPath :
    ¬∀ (tree : FileTree) (options : ExtractOptions) (directory filePath source : String)
      (memory : Memory) (inventory : Inventory),
      ((Inventory.ofSource tree options directory filePath source).run memory).1 = .ok inventory →
      ∀ (cache : Cache) (before made : FileTree), cache.prepare before = .ok made →
        ∃ after, cache.write made inventory = .ok after ∧
          cache.read after filePath = .found inventory ∧
          (cache.read after filePath).warnings = [] := by
  intro claimed
  have prepared : (Cache.of "/proj" "c").prepare (.empty "/proj") =
      .ok ⟨"/proj", [], [["proj"], ["proj", "c"]]⟩ := by decide +kernel
  obtain ⟨inventory, extracted⟩ :=
    Inventory.exists_ofSource (.empty "/proj") none "/x" longPath "" .empty
  obtain ⟨after, hwrite, -⟩ := claimed _ _ _ _ _ _ _ extracted _ _ _ prepared
  have short := (fits_of_write prepared hwrite).short
  rw [(Inventory.ofSource_eq_ok extracted).1] at short
  exact Nat.not_le.2 size_cacheFileName_longPath short

end Cache

end EndpointAtlas
