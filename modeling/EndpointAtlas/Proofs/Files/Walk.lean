import EndpointAtlas.Proofs.Files.Sources
import EndpointAtlas.Proofs.Path.Parts

/-!
The walk over the source files of a tree, against the rule that a file is left out just for a piece
of its path. Main statement: which files the walk lists. The ignored names are patterns too, and as
patterns they count in any letter case and with their slashes; where that makes no difference, the
walk keeps to the rule.
-/

set_option autoImplicit false

namespace EndpointAtlas

/-- Does a text stand among names, piece by piece between its slashes and apart from letter case? -/
def Glob.IsOnWay (pattern : String) (names : List String) : Prop :=
  (words pattern).map caseless <:+: names.map fun name => caseless name.toList

theorem Glob.isOnWay_iff_of_isName {pattern : String} (h : Path.IsName pattern)
    {names : List String} :
    IsOnWay pattern names ↔ ∃ name ∈ names, caseless name.toList = caseless pattern.toList := by
  have single : words pattern = [pattern.toList] := by
    rw [words, Text.splitOn_unbroken
      fun c hc => by simpa using fun same : c = '/' => h.unbroken (same ▸ hc)]
    simp [h.nonempty]
  rw [IsOnWay, single, List.map_singleton, List.singleton_infix_iff, List.mem_map]

namespace FileTree

variable {accepts : Matcher} {tree : FileTree} {top names : Location} {root : String}
  {ignored : List String}

theorem isSource_glue_append (start : Location) (hn : names ≠ []) :
    Dialect.isSource (Path.glue (start ++ names)) = Dialect.isSource (Path.glue names) := by
  rw [Bool.eq_iff_iff, ← Glob.lawful.source_iff hn, ← Glob.lawful.source_iff (by simp [hn]),
    Glob.lawful.source, Glob.lawful.source, List.map_append,
    List.getLast?_append_of_ne_nil _ (by simpa using hn)]

theorem isSource_pathOf (top : Location) (hn : names ≠ []) :
    Dialect.isSource (pathOf (top ++ names)) = Dialect.isSource (Path.glue names) := by
  have absolute : pathOf (top ++ names) = Path.glue ("" :: top ++ names) := by
    obtain ⟨first, rest, hs⟩ := List.exists_cons_of_ne_nil (l := top ++ names) (by simp [hn])
    rw [List.cons_append, hs, pathOf, Path.glue, Path.glue, String.intercalate_cons_cons,
      String.empty_append]
  rw [absolute, isSource_glue_append _ hn]

theorem relative_pathOf (root : String) (h : Path.AreNames (tree.locate root ++ names)) :
    Path.relative tree.current (tree.resolve root) (pathOf (tree.locate root ++ names)) =
      Path.glue names := by
  have start : Path.simplified false (Path.resolve tree.current (tree.resolve root)) =
      tree.locate root :=
    tree.locate_resolve root
  have target :
      Path.simplified false (Path.resolve tree.current (pathOf (tree.locate root ++ names))) =
      tree.locate root ++ names := tree.locate_glue h
  rw [Path.relative, start, target, Path.dropShared_append]
  rfl

/-- The rule for the file at some names below a root: it has an extension of source files, and no
piece of its path from the root is an ignored name. -/
structure Keeps (tree : FileTree) (root : String) (ignored : List String)
    (names : Location) : Prop where
  below : names ≠ []
  file : tree.hasFile (tree.locate root ++ names) = true
  source : Dialect.isSource (pathOf (tree.locate root ++ names)) = true
  kept : isIgnored ignored
    (Path.relative tree.current (tree.resolve root) (pathOf (tree.locate root ++ names))) = false

theorem isWantedBy_iff (lawful : accepts.Lawful) (plain : ∀ name ∈ ignored, Glob.IsPlain name)
    (hn : names ≠ []) :
    isWantedBy accepts ignored names = true ↔
      (Dialect.isSource (Path.glue names) = true ∧ isIgnored ignored (Path.glue names) = false) ∧
        ∀ name ∈ ignored, ¬ Glob.IsOnWay name names := by
  have asPattern : ignored.any (fun name =>
      accepts (ignorePattern name) (names.map String.toList)) = false ↔
      ∀ name ∈ ignored, ¬ Glob.IsOnWay name names := by
    rw [List.any_eq_false]
    refine forall₂_congr fun name hi => not_congr ?_
    rw [lawful.ignore name (plain name hi), List.map_map]
    rfl
  simp only [isWantedBy, Bool.and_eq_true, Bool.not_eq_true', asPattern, lawful.source_iff hn]
  exact and_right_comm

theorem keeps_iff (proper : tree.Proper) : tree.Keeps root ignored names ↔
    names ≠ [] ∧ tree.hasFile (tree.locate root ++ names) = true ∧
    Dialect.isSource (Path.glue names) = true ∧
      isIgnored ignored (Path.glue names) = false := by
  constructor
  · rintro ⟨below, file, source, kept⟩
    rw [isSource_pathOf _ below] at source
    rw [relative_pathOf root (proper.areNames_of_hasFile file)] at kept
    exact ⟨below, file, source, kept⟩
  · rintro ⟨below, file, source, kept⟩
    refine ⟨below, file, ?_, ?_⟩
    · rwa [isSource_pathOf _ below]
    · rwa [relative_pathOf root (proper.areNames_of_hasFile file)]

/-- Paths are those of just the places below a root whose names from there have a property. -/
def Lists (tree : FileTree) (root : String) (files : List String)
    (wanted : Location → Prop) : Prop :=
  ∀ path, path ∈ files ↔ ∃ names, path = pathOf (tree.locate root ++ names) ∧ wanted names

theorem lists_walkBelow (lawful : accepts.Lawful) (proper : tree.Proper)
    (plain : ∀ name ∈ ignored, Glob.IsPlain name) (root : String) :
    tree.Lists root (walkBelow accepts tree (tree.locate root) ignored) fun names =>
      tree.Keeps root ignored names ∧ ∀ name ∈ ignored, ¬ Glob.IsOnWay name names := by
  intro path
  rw [mem_walkBelow_iff]
  refine exists_congr fun names => and_congr_right fun _ => ?_
  beta_reduce
  by_cases hn : names = []
  · subst hn
    exact iff_of_false (fun h => by simp [isWantedBy_nil lawful] at h) fun h => h.1.below rfl
  · rw [isWantedBy_iff lawful plain hn, keeps_iff proper]
    constructor
    · exact fun ⟨file, ⟨source, kept⟩, free⟩ => ⟨⟨hn, file, source, kept⟩, free⟩
    · exact fun ⟨⟨_, file, source, kept⟩, free⟩ => ⟨file, ⟨source, kept⟩, free⟩

theorem names_eq_of_pathOf_eq {others : Location} (proper : tree.Proper)
    (hf : tree.hasFile (top ++ names) = true) (ho : tree.hasFile (top ++ others) = true)
    (h : pathOf (top ++ names) = pathOf (top ++ others)) : names = others :=
  List.append_cancel_left
    (Path.glue_injective (proper.areNames_of_hasFile hf) (proper.areNames_of_hasFile ho) h)

/-- What the walk gives for ignored names without marks of patterns. A root that is a file is an
error. Below any other root it lists, in order and each once, the files that the rule keeps, apart
from those that have an ignored name on their way in another letter case or across slashes; it lists
all files that the rule keeps just if there are no such. -/
theorem walk_of_plain (lawful : accepts.Lawful) (proper : tree.Proper)
    (plain : ∀ name ∈ ignored, Glob.IsPlain name) (root : String) :
    (tree.hasFile (tree.locate root) = true →
      walk accepts tree root ignored = .error (.notDirectory "scandir" (tree.resolve root))) ∧
    (tree.hasFile (tree.locate root) = false → ∃ files, walk accepts tree root ignored = .ok files ∧
      files.Pairwise (fun earlier later => Text.atMost earlier later = true) ∧ files.Nodup ∧
      tree.Lists root files (fun names => tree.Keeps root ignored names ∧
        ∀ name ∈ ignored, ¬ Glob.IsOnWay name names) ∧
      (tree.Lists root files (tree.Keeps root ignored) ↔
        ∀ names, tree.Keeps root ignored names → ∀ name ∈ ignored, ¬ Glob.IsOnWay name names)) := by
  have listed := lists_walkBelow lawful proper plain root
  refine ⟨fun file => by simp [walk,
    file], fun noFile => ⟨walkBelow accepts tree (tree.locate root) ignored, ?_,
    Text.pairwise_sorted _, nodup_walkBelow proper, listed, ?_⟩⟩
  · simp [walk, noFile]
  · constructor
    · intro all names keeps
      obtain ⟨others, same, kept, free⟩ := (listed _).1 ((all _).2 ⟨names, rfl, keeps⟩)
      rwa [names_eq_of_pathOf_eq proper keeps.file kept.file same]
    · intro free path
      rw [listed path]
      exact exists_congr fun names => and_congr_right fun _ => and_iff_left_of_imp (free names)

def casedTree : FileTree :=
  ⟨"/", [(["proj", "Dist", "a.ts"], .text ""), (["proj", "dist", "b.ts"], .text ""),
      (["proj", "src", "c.TSX"], .text "")],
    [["proj"], ["proj", "Dist"], ["proj", "dist"], ["proj", "src"]]⟩

theorem walk_of_plain_cased :
    Matcher.Lawful Glob.accepts ∧ casedTree.Proper ∧ (∀ name ∈ ["dist"], Glob.IsPlain name) ∧
      casedTree.Keeps "/proj" ["dist"] ["Dist", "a.ts"] ∧
      ∃ files, casedTree.sources "/proj" ["dist"] = .ok files ∧
        "/proj/Dist/a.ts" ∉ files ∧ "/proj/src/c.TSX" ∈ files := by
  have proper : casedTree.Proper :=
    ⟨by decide, by decide, by decide, by decide, by decide, by decide⟩
  have plain : ∀ name ∈ ["dist"], Glob.IsPlain name := by decide
  have cased : casedTree.Keeps "/proj" ["dist"] ["Dist", "a.ts"] :=
    ⟨by decide, by decide +kernel, by decide +kernel, by decide +kernel⟩
  have other : casedTree.Keeps "/proj" ["dist"] ["src", "c.TSX"] :=
    ⟨by decide, by decide +kernel, by decide +kernel, by decide +kernel⟩
  obtain ⟨files, found, -, -, listed, -⟩ :=
    (walk_of_plain Glob.lawful proper plain "/proj").2 (by decide +kernel)
  refine ⟨Glob.lawful, proper, plain, cased, files, found, fun h => ?_, ?_⟩
  · obtain ⟨names, same, kept, free⟩ := (listed _).1 h
    have spelled : "/proj/Dist/a.ts" =
        pathOf (casedTree.locate "/proj" ++ ["Dist", "a.ts"]) := by decide +kernel
    obtain rfl := names_eq_of_pathOf_eq proper cased.file kept.file (spelled.symm.trans same)
    exact free "dist" (by decide) ((Glob.isOnWay_iff_of_isName (by decide)).2 (by decide +kernel))
  · refine (listed _).2 ⟨["src", "c.TSX"], by decide +kernel, other, ?_⟩
    rw [List.forall_mem_singleton, Glob.isOnWay_iff_of_isName (by decide)]
    decide +kernel

end FileTree

end EndpointAtlas
