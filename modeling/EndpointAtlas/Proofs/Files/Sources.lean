import EndpointAtlas.Proofs.Files.Extensions
import EndpointAtlas.Proofs.Files.Proper
import EndpointAtlas.Proofs.Text.Listing

set_option autoImplicit false

namespace EndpointAtlas

theorem Dialect.extensionOf_json (s : String) : extensionOf (s ++ ".json") = ".json" := by
  have spelled : (s ++ ".json").toList = s.toList ++ '.' :: ['j', 's', 'o', 'n'] := by simp
  rw [extensionOf_of_tail spelled (by decide) (List.all_eq_true.1 (by decide))]
  decide

theorem Dialect.isSource_json (s : String) : isSource (s ++ ".json") = false := by
  rw [isSource, extensionOf_json]
  decide

theorem Path.exists_glue_json (start : List String) (s : String) :
    ∃ whole, glue (start ++ [s ++ ".json"]) = whole ++ ".json" := by
  by_cases hs : start = []
  · exact ⟨s, by simp [hs, glue]⟩
  · exact ⟨glue start ++ "/" ++ s, by rw [glue_concat hs, ← String.append_assoc]⟩

namespace FileTree

variable {accepts : Matcher} {tree : FileTree} {top names : Location} {ignored : List String}

theorem mem_walkBelow_iff {path : String} : path ∈ walkBelow accepts tree top ignored ↔
    ∃ names, path = pathOf (top ++ names) ∧ tree.hasFile (top ++ names) = true ∧
      isWantedBy accepts ignored names = true := by
  constructor
  · intro h
    obtain ⟨⟨place, content⟩, he, hp⟩ := List.mem_filterMap.1 ((Text.sorted_perm _).mem_iff.1 h)
    simp only [Option.ite_none_right_eq_some, Bool.and_eq_true, List.isPrefixOf_iff_prefix,
      Option.some.injEq] at hp
    obtain ⟨⟨⟨names, rfl⟩, wanted⟩, rfl⟩ := hp
    rw [List.drop_left] at wanted
    exact ⟨names, rfl, (hasFile_iff tree _).2 ⟨_, he, rfl⟩, wanted⟩
  · rintro ⟨names, rfl, hf, wanted⟩
    obtain ⟨⟨place, content⟩, he, rfl⟩ := (hasFile_iff tree _).1 hf
    refine (Text.sorted_perm _).mem_iff.2 (List.mem_filterMap.2 ⟨_, he, ?_⟩)
    simp only [List.drop_left, wanted, List.isPrefixOf_iff_prefix.2 (List.prefix_append top names),
      Bool.and_self, if_true]

theorem nodup_walkBelow (h : tree.Proper) : (walkBelow accepts tree top ignored).Nodup := by
  refine (Text.sorted_perm _).nodup_iff.2 ?_
  rw [List.Nodup, List.pairwise_filterMap]
  refine (List.pairwise_map.1 h.distinct).imp_of_mem fun ha hb hne path hpa other hpb => ?_
  simp only [Option.ite_none_right_eq_some, Option.some.injEq] at hpa hpb
  rintro rfl
  have hl := hpa.2.trans hpb.2.symm
  exact hne ((tree.locate_glue (h.names _ ha)).symm.trans
    ((congrArg tree.locate hl).trans (tree.locate_glue (h.names _ hb))))

theorem nodup_sourcesBelow (h : tree.Proper) : (tree.sourcesBelow top ignored).Nodup :=
  nodup_walkBelow h

theorem isWantedBy_nil (lawful : accepts.Lawful) : isWantedBy accepts ignored [] = false := by
  have nothing : accepts sourcePattern [] = false := by
    rw [← Bool.not_eq_true, lawful.source]
    simp
  simp only [isWantedBy, List.map_nil, nothing, Bool.false_and]

theorem isWantedBy_json (lawful : accepts.Lawful) {start : Location} {s : String} :
    isWantedBy accepts ignored (start ++ [s ++ ".json"]) = false := by
  obtain ⟨whole, hw⟩ := Path.exists_glue_json start s
  have unread : accepts sourcePattern ((start ++ [s ++ ".json"]).map String.toList) = false := by
    rw [← Bool.not_eq_true, lawful.source_iff (by simp), hw, Dialect.isSource_json]
    exact Bool.false_ne_true
  simp only [isWantedBy, unread, Bool.false_and]

theorem locate_source (h : tree.Proper) {path : String}
    (hp : path ∈ tree.sourcesBelow top ignored) :
    ∃ entry ∈ tree.files, tree.locate path = entry.1 ∧
      ∀ (start : Location) (s : String), entry.1 ≠ start ++ [s ++ ".json"] := by
  obtain ⟨names, rfl, hf, wanted⟩ := mem_walkBelow_iff.1 hp
  obtain ⟨entry, he, place⟩ := (hasFile_iff tree _).1 hf
  refine ⟨entry,
    he, by rw [place, pathOf, tree.locate_glue (h.areNames_of_hasFile hf)], fun start s hs => ?_⟩
  rcases List.eq_nil_or_concat' names with rfl | ⟨before, last, rfl⟩
  · simp [isWantedBy_nil Glob.lawful] at wanted
  · rw [place, ← List.append_assoc] at hs
    obtain rfl := List.singleton_inj.1 (List.append_inj' hs rfl).2
    simp [isWantedBy_json Glob.lawful] at wanted

theorem sources_eq (tree : FileTree) (root : String) (ignored : List String) :
    tree.sources root ignored =
    if tree.hasFile (tree.locate root) then .error (.notDirectory "scandir" (tree.resolve root))
    else .ok (tree.sourcesBelow (tree.locate root) ignored) := rfl

theorem sources_eq_ok {root : String} {paths : List String}
    (h : tree.sources root ignored = .ok paths) :
    paths = tree.sourcesBelow (tree.locate root) ignored := by
  rw [sources_eq] at h
  split at h
  · cases h
  · exact (Except.ok.inj h).symm

end FileTree

end EndpointAtlas
