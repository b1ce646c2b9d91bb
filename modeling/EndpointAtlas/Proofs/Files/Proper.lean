import EndpointAtlas.Files.Tree
import EndpointAtlas.Proofs.Path
import Mathlib.Data.List.Infix
import Mathlib.Data.List.Nodup

set_option autoImplicit false

namespace EndpointAtlas

namespace Path

theorem mem_beginnings {α : Type} {start whole : List α} :
    start ∈ beginnings whole ↔ start <+: whole := by
  induction whole generalizing start with
  | nil => simp [beginnings]
  | cons a rest ih =>
    cases start with
    | nil => simp [beginnings]
    | cons b start => simp [beginnings, ih, eq_comm, List.cons_prefix_cons, and_comm]

theorem beginnings_concat {α : Type} (start : List α) (last : α) :
    beginnings (start ++ [last]) = beginnings start ++ [start ++ [last]] := by
  induction start with
  | nil => rfl
  | cons a rest ih => simp [beginnings, ih]

theorem mem_dropLast_beginnings {α : Type} {start whole : List α} :
    start ∈ (beginnings whole).dropLast ↔ start <+: whole ∧ start ≠ whole := by
  induction whole generalizing start with
  | nil => simp [beginnings]
  | cons a rest ih =>
    have hm : (beginnings rest).map (a :: ·) ≠ [] := by cases rest <;> simp [beginnings]
    rw [beginnings, List.dropLast_cons_of_ne_nil hm, ← List.map_dropLast]
    cases start with
    | nil => simp
    | cons b start =>
      simp only [List.mem_cons, reduceCtorEq, false_or, List.mem_map, ih, List.cons.injEq,
        List.cons_prefix_cons, ne_eq]
      constructor
      · rintro ⟨s, ⟨hs, hne⟩, rfl, rfl⟩
        exact ⟨⟨rfl, hs⟩, fun h => hne h.2⟩
      · rintro ⟨⟨rfl, hs⟩, hne⟩
        exact ⟨start, ⟨hs, fun h => hne ⟨rfl, h⟩⟩, rfl, rfl⟩

end Path

namespace FileTree

variable {tree after : FileTree}

/-! ### Places -/

theorem areNames_locate (tree : FileTree) (path : String) : Path.AreNames (tree.locate path) :=
  Path.areNames_simplified _

theorem resolve_eq_glue (tree : FileTree) (path : String) :
    tree.resolve path = "/" ++ Path.glue (tree.locate path) := by
  rw [locate, resolve, Path.resolve, Path.simplified_glue (Path.areNames_simplified _)]

theorem locate_glue (tree : FileTree) {place : Location} (h : Path.AreNames place) :
    tree.locate ("/" ++ Path.glue place) = place := by
  rw [locate, resolve, Path.resolve_glue _ h, Path.simplified_glue h]

theorem locate_resolve (tree : FileTree) (path : String) :
    tree.locate (tree.resolve path) = tree.locate path := by
  rw [resolve_eq_glue, locate_glue tree (areNames_locate tree path)]

theorem locate_congr (h : after.current = tree.current) (path : String) :
    after.locate path = tree.locate path := by rw [locate, locate, resolve, resolve, h]

theorem locate_eq_foldl (tree : FileTree) (path : String) :
    tree.locate path =
      ((Path.pieces path).foldl (Path.step false) (if Path.isAbsolute path then [] else
      (Path.pieces tree.current).foldl (Path.step false) [])).reverse := by
  rw [locate, resolve, Path.resolve, Path.simplified_glue (Path.areNames_simplified _),
    Path.simplified]
  split
  · rfl
  · rw [Path.pieces_append_slash, List.foldl_append]

@[simp] theorem locate_normalize (tree : FileTree) (path : String) :
    tree.locate (Path.normalize path) = tree.locate path := by
  rw [locate_eq_foldl, locate_eq_foldl, Path.isAbsolute_normalize,
    Path.foldl_step_normalize fun ha => by rw [if_pos ha]]

theorem locate_join (tree : FileTree) (directory : String) {name : String} (hn : Path.IsName name) :
    tree.locate (Path.join [directory, name]) = tree.locate directory ++ [name] := by
  rw [Path.join_name directory hn, locate_normalize, locate_eq_foldl, locate_eq_foldl,
    Path.isAbsolute_below directory hn, Path.foldl_step_below directory hn, List.reverse_cons]

theorem hasDirectory_iff (tree : FileTree) (place : Location) :
    tree.hasDirectory place = true ↔ place = [] ∨ place ∈ tree.directories := by
  simp [hasDirectory]

theorem hasFile_iff (tree : FileTree) (place : Location) :
    tree.hasFile place = true ↔ ∃ entry ∈ tree.files, entry.1 = place := by
  rw [hasFile, content?, List.lookup_isSome_iff]
  exact exists_congr fun entry => and_congr_right fun _ => beq_iff_eq.trans eq_comm

theorem blocked_eq_false_iff (tree : FileTree) (place : Location) :
    tree.blocked place = false ↔
      ∀ start, start <+: place → start ≠ place → tree.hasFile start = false := by
  simp only [blocked, List.any_eq_false, Path.mem_dropLast_beginnings, Bool.not_eq_true, and_imp]

/-! ### What the operations do -/

theorem write_eq_ok {path : String} {content : Content}
    (h : tree.write path content = .ok after) :
    after = tree.put (tree.locate path) content ∧ tree.hasDirectory (tree.locate path) = false ∧
      tree.hasDirectory (tree.locate path).dropLast = true := by
  cases hd : tree.hasDirectory (tree.locate path) with
  | true => simp [write, isDirectory, hd] at h
  | false =>
    cases ha : tree.hasDirectory (tree.locate path).dropLast with
    | false => simp [write, isDirectory, hd, ha] at h
    | true =>
      cases ht : tooLong (tree.locate path) with
      | true => simp [write, isDirectory, hd, ha, ht] at h
      | false =>
        simp only [write, isDirectory, hd, ha, ht, Bool.not_true, Bool.or_self, if_false,
          Bool.false_eq_true, Except.ok.injEq] at h
        exact ⟨h.symm, rfl, rfl⟩

/-- What happens to a tree when directories are added to it. -/
structure Widened (tree : FileTree) (places : List Location) (after : FileTree) : Prop where
  current : after.current = tree.current
  files : after.files = tree.files
  directories : ∀ place,
    after.hasDirectory place = true ↔ tree.hasDirectory place = true ∨ place ∈ places

theorem widened_addDirectory (tree : FileTree) (place : Location) :
    Widened tree [place] (tree.addDirectory place) := by
  unfold addDirectory
  split
  · rename_i h
    exact ⟨rfl, rfl, fun other => by simpa using fun ho => ho ▸ h⟩
  · exact ⟨rfl, rfl, fun other => by simp [hasDirectory_iff, or_assoc]⟩

theorem widened_foldl_addDirectory (tree : FileTree) (places : List Location) :
    Widened tree places (places.foldl addDirectory tree) := by
  induction places generalizing tree with
  | nil => exact ⟨rfl, rfl, by simp⟩
  | cons place rest ih =>
    have hp := widened_addDirectory tree place
    have hr := ih (tree.addDirectory place)
    refine ⟨hr.current.trans hp.current, hr.files.trans hp.files, fun other => ?_⟩
    rw [List.foldl_cons, hr.directories, hp.directories, List.mem_cons (a := other) (l := rest),
      List.mem_singleton, or_assoc]

theorem foldl_addDirectory_of_hasDirectory {places : List Location}
    (h : ∀ start ∈ places, tree.hasDirectory start = true) :
    places.foldl addDirectory tree = tree := by
  induction places with
  | nil => rfl
  | cons start rest ih =>
    obtain ⟨hs, hr⟩ := List.forall_mem_cons.1 h
    rw [List.foldl_cons, addDirectory, if_pos hs, ih hr]

theorem makeDirectory_eq_ok_iff {path : String} :
    tree.makeDirectory path = .ok after ↔
      tree.hasFile (tree.locate path) = false ∧ tree.blocked (tree.locate path) = false ∧
        tooLong (tree.locate path) = false ∧
        (Path.beginnings (tree.locate path)).foldl addDirectory tree = after := by
  unfold makeDirectory
  cases hf : tree.hasFile (tree.locate path) with
  | true => simp [hf]
  | false =>
    cases hb : tree.blocked (tree.locate path) with
    | true => simp [hf, hb]
    | false => cases ht : tooLong (tree.locate path) <;> simp [hf, hb, ht]

theorem makeDirectory_eq_ok {path : String} (h : tree.makeDirectory path = .ok after) :
    Widened tree (Path.beginnings (tree.locate path)) after ∧
      ∀ start, start <+: tree.locate path → tree.hasFile start = false := by
  obtain ⟨hf, hb, -, rfl⟩ := makeDirectory_eq_ok_iff.1 h
  refine ⟨widened_foldl_addDirectory tree _, fun start hs => ?_⟩
  by_cases he : start = tree.locate path
  · rw [he, hf]
  · exact (blocked_eq_false_iff tree _).1 hb start hs he

theorem Widened.content? {places : List Location} (h : Widened tree places after)
    (place : Location) : after.content? place = tree.content? place := by
  rw [FileTree.content?, FileTree.content?, h.files]

theorem Widened.hasFile {places : List Location} (h : Widened tree places after)
    (place : Location) : after.hasFile place = tree.hasFile place := by
  rw [FileTree.hasFile, FileTree.hasFile, h.content?]

/-! ### Proper trees -/

/-- A tree as file systems keep them. -/
structure Proper (tree : FileTree) : Prop where
  names : ∀ entry ∈ tree.files, Path.AreNames entry.1
  directoryNames : ∀ place ∈ tree.directories, Path.AreNames place
  distinct : (tree.files.map Prod.fst).Nodup
  inDirectory : ∀ entry ∈ tree.files, tree.hasDirectory entry.1.dropLast = true
  directoriesInDirectory : ∀ place ∈ tree.directories, tree.hasDirectory place.dropLast = true
  apart : ∀ entry ∈ tree.files, tree.hasDirectory entry.1 = false

namespace Proper

theorem hasDirectory_of_prefix (h : tree.Proper) {start place : Location} (hs : start <+: place)
    (hp : tree.hasDirectory place = true) : tree.hasDirectory start = true := by
  induction place using List.reverseRecOn with
  | nil => simpa [List.prefix_nil.1 hs] using hp
  | append_singleton place name ih =>
    rcases List.prefix_concat_iff.1 hs with rfl | hs
    · exact hp
    · refine ih hs ?_
      rcases (hasDirectory_iff tree _).1 hp with hn | hm
      · simp at hn
      · simpa using h.directoriesInDirectory _ hm

theorem hasDirectory_above (h : tree.Proper) {start place : Location}
    (hf : tree.hasFile place = true)
    (hs : start <+: place) (hne : start ≠ place) : tree.hasDirectory start = true := by
  obtain ⟨entry, he, rfl⟩ := (hasFile_iff tree place).1 hf
  refine h.hasDirectory_of_prefix ?_ (h.inDirectory entry he)
  obtain ⟨last, hl⟩ := hs
  cases last using List.reverseRecOn with
  | nil => exact absurd (by simpa using hl) hne
  | append_singleton last name =>
    rw [← hl, ← List.append_assoc, List.dropLast_concat]
    exact List.prefix_append start last

theorem areNames_of_hasFile (h : tree.Proper) {place : Location} (hf : tree.hasFile place = true) :
    Path.AreNames place := by
  obtain ⟨entry, he, rfl⟩ := (hasFile_iff tree place).1 hf
  exact h.names entry he

end Proper

theorem mem_putAt {place : Location} {content : Content} {files : List (Location × Content)}
    {entry : Location × Content} (h : entry ∈ putAt place content files) :
    entry = (place, content) ∨ entry ∈ files := by
  induction files with
  | nil => simpa [putAt] using h
  | cons first rest ih =>
    obtain ⟨key, old⟩ := first
    rw [putAt] at h
    split at h
    · rename_i hk
      subst hk
      rcases List.mem_cons.1 h with rfl | h
      · exact .inl rfl
      · exact .inr (List.mem_cons_of_mem _ h)
    · rcases List.mem_cons.1 h with rfl | h
      · exact .inr List.mem_cons_self
      · exact (ih h).imp_right (List.mem_cons_of_mem _)

theorem nodup_putAt (place : Location) (content : Content) {files : List (Location × Content)}
    (h : (files.map Prod.fst).Nodup) : ((putAt place content files).map Prod.fst).Nodup := by
  induction files with
  | nil => simp [putAt]
  | cons first rest ih =>
    obtain ⟨key, old⟩ := first
    rw [List.map_cons, List.nodup_cons] at h
    rw [putAt]
    split
    · simpa using h
    · rename_i hk
      refine List.nodup_cons.2 ⟨fun hm => ?_, ih h.2⟩
      obtain ⟨entry, he, hf⟩ := List.mem_map.1 hm
      rcases mem_putAt he with rfl | he
      · exact hk hf.symm
      · exact h.1 (List.mem_map.2 ⟨entry, he, hf⟩)

namespace Proper

theorem put (h : tree.Proper) {place : Location} (content : Content) (hn : Path.AreNames place)
    (hd : tree.hasDirectory place = false) (ha : tree.hasDirectory place.dropLast = true) :
    (tree.put place content).Proper where
  names entry he := (mem_putAt he).elim (fun h => by rw [h]; exact hn) (h.names entry)
  directoryNames := h.directoryNames
  distinct := nodup_putAt place content h.distinct
  inDirectory entry he := (mem_putAt he).elim (fun h => by rw [h]; exact ha) (h.inDirectory entry)
  directoriesInDirectory := h.directoriesInDirectory
  apart entry he := (mem_putAt he).elim (fun h => by rw [h]; exact hd) (h.apart entry)

theorem write (h : tree.Proper) {path : String} {content : Content}
    (hw : tree.write path content = .ok after) : after.Proper := by
  obtain ⟨rfl, hd, ha⟩ := write_eq_ok hw
  exact h.put content (areNames_locate tree path) hd ha

theorem makeDirectory (h : tree.Proper) {path : String} (hm : tree.makeDirectory path = .ok after) :
    after.Proper := by
  obtain ⟨hw, hfree⟩ := makeDirectory_eq_ok hm
  have hd : ∀ place, after.hasDirectory place = true ↔
      tree.hasDirectory place = true ∨ place <+: tree.locate path := fun place => by
    rw [hw.directories, Path.mem_beginnings]
  refine ⟨fun entry he => ?_, fun place hp => ?_, ?_, fun entry he => ?_, fun place hp => ?_,
    fun entry he => ?_⟩
  · exact h.names entry (hw.files ▸ he)
  · rcases (hd place).1 ((hasDirectory_iff after place).2 (.inr hp)) with hp | hp
    · rcases (hasDirectory_iff tree place).1 hp with rfl | hp
      · simp [Path.AreNames]
      · exact h.directoryNames place hp
    · exact fun name hn => areNames_locate tree path name (hp.subset hn)
  · rw [hw.files]
    exact h.distinct
  · exact (hd _).2 (.inl (h.inDirectory entry (hw.files ▸ he)))
  · rcases (hd place).1 ((hasDirectory_iff after place).2 (.inr hp)) with hp | hp
    · exact (hd _).2 (.inl (h.hasDirectory_of_prefix (List.dropLast_prefix place) hp))
    · exact (hd _).2 (.inr ((List.dropLast_prefix place).trans hp))
  · rw [hw.files] at he
    rw [Bool.eq_false_iff]
    intro hc
    rcases (hd _).1 hc with hc | hc
    · simp [h.apart entry he] at hc
    · have hf : tree.hasFile entry.1 = true := (hasFile_iff tree _).2 ⟨entry, he, rfl⟩
      simp [hfree _ hc] at hf

theorem remove (h : tree.Proper) (path : String) : (tree.remove path).Proper := by
  have hd : ∀ place, tree.hasDirectory place.dropLast = true →
      ((tree.locate path).isPrefixOf place = false) →
      (tree.remove path).hasDirectory place.dropLast = true := by
    intro place hp hn
    rcases (hasDirectory_iff tree _).1 hp with he | hm
    · exact (hasDirectory_iff _ _).2 (.inl he)
    · refine (hasDirectory_iff _ _).2 (.inr (List.mem_filter.2 ⟨hm, ?_⟩))
      rw [Bool.not_eq_true', Bool.eq_false_iff, ne_eq, List.isPrefixOf_iff_prefix]
      intro hc
      rw [Bool.eq_false_iff, ne_eq, List.isPrefixOf_iff_prefix] at hn
      exact hn (hc.trans (List.dropLast_prefix place))
  refine ⟨fun entry he => h.names entry (List.mem_of_mem_filter he),
    fun place hp => h.directoryNames place (List.mem_of_mem_filter hp), ?_, fun entry he => ?_,
    fun place hp => ?_, fun entry he => ?_⟩
  · exact h.distinct.sublist (List.filter_sublist.map Prod.fst)
  · have hm := List.mem_filter.1 he
    exact hd entry.1 (h.inDirectory entry hm.1) (by simpa using hm.2)
  · have hm := List.mem_filter.1 hp
    exact hd place (h.directoriesInDirectory place hm.1) (by simpa using hm.2)
  · have hm := List.mem_filter.1 he
    rw [Bool.eq_false_iff, ne_eq, hasDirectory_iff]
    have ha := h.apart entry hm.1
    rw [Bool.eq_false_iff, ne_eq, hasDirectory_iff] at ha
    exact fun hc => ha (hc.imp_right fun hm => List.mem_of_mem_filter hm)

end Proper

end FileTree

end EndpointAtlas
