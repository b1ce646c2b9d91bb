import EndpointAtlas.Config.Setup
import EndpointAtlas.Proofs.Inventory.Holdings

/-!
Entries in the list of files that version control ignores. Main statement: the entry that is written
is the one that is found again, whatever the list held before, so a second call changes nothing, and
the first only adds at the end.
-/

set_option autoImplicit false

namespace EndpointAtlas

namespace Text

variable {c : Char} {s : List Char}

/-! ### Blanks around lines -/

theorem trimEnd_concat_blank (hc : isBlank c = true) (s : List Char) :
    trimEnd (s ++ [c]) = trimEnd s := by
  simp [trimEnd, hc]

theorem trim_concat_blank (hc : isBlank c = true) (s : List Char) : trim (s ++ [c]) = trim s := by
  have hstart : trimStart (s ++ [c]) = trimStart s ∨ trimStart (s ++ [c]) = trimStart s ++ [c] := by
    simp only [trimStart, List.dropWhile_append]
    split
    · rename_i empty
      left
      simp_all
    · right
      rfl
  cases hstart with
  | inl h => rw [trim, h, trim]
  | inr h => rw [trim, h, trimEnd_concat_blank hc, trim]

theorem trim_withoutReturn (line : List Char) : trim (withoutReturn line) = trim line := by
  unfold withoutReturn
  split
  · rename_i h
    obtain ⟨front, rfl⟩ := List.getLast?_eq_some_iff.mp h
    rw [List.dropLast_concat, trim_concat_blank (by decide)]
  · rfl

theorem map_trim_lines (s : List Char) : (lines s).map trim = (splitOn (· == '\n') s).map trim := by
  unfold lines
  generalize splitOn (· == '\n') s = pieces
  fun_induction withoutReturns pieces with
  | case1 => rfl
  | case2 last => rfl
  | case3 line rest _ ih => simp [trim_withoutReturn, ih]

theorem trimStart_eq_self_of_trim (h : trim s = s) : trimStart s = s := by
  have hend : (trimEnd (trimStart s)).length ≤ (trimStart s).length := by
    have := (List.dropWhile_suffix (l := (trimStart s).reverse) isBlank).length_le
    simpa [trimEnd] using this
  have hlength : (trim s).length = s.length := by rw [h]
  exact (List.dropWhile_suffix isBlank).eq_of_length_le
    (by rw [trim] at hlength; unfold trimStart at *; omega)

theorem trim_concat_of_trim (h : trim s = s) (hc : isBlank c = false) :
    trim (s ++ [c]) = s ++ [c] := by
  have hstart : trimStart (s ++ [c]) = s ++ [c] := by
    have hs : s.dropWhile isBlank = s := trimStart_eq_self_of_trim h
    rw [trimStart, List.dropWhile_append, hs]
    split
    · rename_i empty
      simp_all
    · rfl
  rw [trim, hstart, trimEnd]
  simp [hc]

end Text

namespace IgnoreList

/-! ### Lists -/

/-- Some line of a list is a directory's name, up to blanks around it, with or without a slash
behind it. -/
def Lists (content name : List Char) : Prop :=
  ∃ line ∈ Text.lines content, Text.trim line = name ∨ Text.trim line = name ++ ['/']

/-- A name that makes an entry: it goes over no line end and has no blanks around it. -/
structure IsEntryName (name : List Char) : Prop where
  oneLine : '\n' ∉ name
  bare : Text.trim name = name

variable {name content changed : List Char}

theorem lists_iff_mem : Lists content name ↔
    name ∈ (Text.splitOn (· == '\n') content).map Text.trim ∨
      name ++ ['/'] ∈ (Text.splitOn (· == '\n') content).map Text.trim := by
  rw [← Text.map_trim_lines]
  simp [Lists, List.mem_map, and_or_left, exists_or]

theorem names_iff : names name content = true ↔ Lists content name := by
  simp [names, Lists, or_comm]

theorem lists_entry (h : IsEntryName name) (front : List Char) :
    Lists (front ++ '\n' :: (name ++ ['/'] ++ '\n' :: [])) name := by
  have hentry : Text.splitOn (· == '\n') (name ++ ['/']) = [name ++ ['/']] := by
    apply Text.splitOn_unbroken
    intro c hc
    have : c ≠ '\n' := by
      intro same
      subst same
      simp [h.oneLine] at hc
    simpa using this
  rw [lists_iff_mem, Text.splitOn_append_break (by simp),
    Text.splitOn_append_break (by simp), hentry]
  right
  simp [Text.trim_concat_of_trim h.bare (show Text.isBlank '/' = false by decide)]

theorem lists_of_add? (h : IsEntryName name) {old : Option (List Char)}
    (ha : add? name old = some changed) :
    Lists changed name := by
  obtain ⟨title, ht⟩ : ∃ title, heading = title ++ ['\n'] :=
    ⟨"# routescribe inventory cache".toList, by decide⟩
  cases old with
  | none =>
    simp only [add?, Option.some.injEq] at ha
    have := lists_entry h title
    rw [← ha, ht]
    simpa using this
  | some content =>
    simp only [add?, Option.ite_none_left_eq_some, Option.some.injEq] at ha
    have := lists_entry h (Text.trimEnd content ++ ['\n', '\n'] ++ title)
    rw [← ha.2, ht]
    simpa using this

theorem add?_eq_none_iff : add? name (some content) = none ↔ Lists content name := by
  simp [add?, names_iff]

theorem prefix_of_add? (ha : add? name (some content) = some changed) :
    Text.trimEnd content <+: changed := by
  simp only [add?, Option.ite_none_left_eq_some, Option.some.injEq] at ha
  rw [← ha.2]
  simp only [List.append_assoc]
  exact List.prefix_append _ _

/-! ### Files -/

variable {tree after : FileTree} {project : String}

def place (tree : FileTree) (project : String) : Location := tree.locate project ++ [fileName]

/-- A project that is a directory, with the list as a file in it or without one. -/
structure HasPlace (tree : FileTree) (project : String) : Prop where
  present : tree.hasDirectory (tree.locate project) = true
  short : FileTree.tooLong (tree.locate project) = false
  free : tree.hasDirectory (place tree project) = false

theorem locate_join (tree : FileTree) (project : String) :
    tree.locate (Path.join [project, fileName]) = place tree project :=
  tree.locate_join project (show Path.IsName fileName by decide)

theorem read_eq_ok_iff (free : tree.hasDirectory (place tree project) = false) {content : Content} :
    tree.read (Path.join [project, fileName]) = .ok content ↔
    tree.content? (place tree project) = some content := by
  have hslash := Path.endsInSlash_join project (show Path.IsName fileName by decide)
  rw [FileTree.read_eq_ok hslash, locate_join]
  simp [free]

theorem exists_iff (free : tree.hasDirectory (place tree project) = false) :
    tree.exists_ (Path.join [project, fileName]) = (tree.content? (place tree project)).isSome := by
  have hslash := Path.endsInSlash_join project (show Path.IsName fileName by decide)
  simp [FileTree.exists_, FileTree.isFile, FileTree.isDirectory, FileTree.hasFile, hslash,
    locate_join, free]

theorem write_eq (h : HasPlace tree project) (content : Content) :
    tree.write (Path.join [project, fileName]) content =
      .ok (tree.put (place tree project) content) := by
  have hshort : FileTree.tooLong (place tree project) = false := by
    have hname : FileTree.tooLong [fileName] = false := by decide
    have := h.short
    simp_all [FileTree.tooLong, place]
  have habove : tree.hasDirectory (place tree project).dropLast = true := by simp [place, h.present]
  simp [FileTree.write, FileTree.isDirectory, locate_join, h.free, hshort, habove]

theorem update_eq (h : HasPlace tree project) (name : String) :
    update tree project name = .ok
      (match add? name.toList ((tree.content? (place tree project)).map (·.asText.toList)) with
      | none => (false, tree)
      | some changed => (true, tree.put (place tree project) (.text (String.ofList changed)))) := by
  have hexists := exists_iff h.free
  cases hc : tree.content? (place tree project) with
  | none =>
    simp only [hc, Option.isSome_none] at hexists
    simp [update, hexists, add?, write_eq h, bind, Except.bind, pure, Except.pure]
  | some content =>
    simp only [hc, Option.isSome_some] at hexists
    have hread := (read_eq_ok_iff h.free).mpr hc
    simp only [update, hexists, hread, Option.map_some]
    cases ha : add? name.toList (some content.asText.toList) with
    | none => simp [ha, bind, Except.bind, Except.map, pure, Except.pure]
    | some changed => simp [ha, write_eq h, bind, Except.bind, Except.map, pure, Except.pure]

theorem HasPlace.put (h : HasPlace tree project) (content : Content) :
    HasPlace (tree.put (place tree project) content) project := ⟨h.present, h.short, h.free⟩

theorem update_of_lists (h : HasPlace tree project) {name : String} {content : Content}
    (hc : tree.content? (place tree project) = some content)
    (hl : Lists content.asText.toList name.toList) :
    update tree project name = .ok (false, tree) := by
  rw [update_eq h, hc, Option.map_some, add?_eq_none_iff.mpr hl]

/-- A call gives a list that has the name, and a second call finds it there. The first leaves the
tree as it is just if the list had the name; else it writes the list, which keeps its text up to the
blanks at its end, and nothing else. -/
theorem update_settles (h : HasPlace tree project) {name : String}
    (named : IsEntryName name.toList) :
    ∃ changed after content, update tree project name = .ok (changed, after) ∧
      after.read (Path.join [project, fileName]) = .ok content ∧
      Lists content.asText.toList name.toList ∧ update after project name = .ok (false, after) ∧
      (changed = false → after = tree) ∧
      (changed = true → after = tree.put (place tree project) content) ∧
      ∀ old, tree.read (Path.join [project, fileName]) = .ok old →
        (changed = false ↔ Lists old.asText.toList name.toList) ∧
        (changed = true → Text.trimEnd old.asText.toList <+: content.asText.toList) := by
  have hupdate := update_eq h name
  cases ha : add? name.toList ((tree.content? (place tree project)).map (·.asText.toList)) with
  | none =>
    rw [ha] at hupdate
    cases hc : tree.content? (place tree project) with
    | none => simp [hc, add?] at ha
    | some content =>
      rw [hc, Option.map_some, add?_eq_none_iff] at ha
      refine ⟨false, tree, content, hupdate, (read_eq_ok_iff h.free).mpr hc, ha,
        update_of_lists h hc ha, by simp, by simp, ?_⟩
      intro old hold
      rw [read_eq_ok_iff h.free, hc, Option.some.injEq] at hold
      subst hold
      simp [ha]
  | some changed =>
    rw [ha] at hupdate
    have hlists := lists_of_add? named ha
    have hafter := h.put (.text (String.ofList changed))
    have hc : (tree.put (place tree project) (.text (String.ofList changed))).content?
        (place tree project) =
          some (.text (String.ofList changed)) := by rw [FileTree.content?_put, if_pos rfl]
    have hlists' : Lists (Content.text (String.ofList changed)).asText.toList name.toList := by
      rwa [Content.asText, String.toList_ofList]
    refine ⟨true, _, .text (String.ofList changed), hupdate,
      (read_eq_ok_iff hafter.free).mpr hc, hlists',
      update_of_lists hafter hc hlists', by simp, by simp, ?_⟩
    intro old hold
    rw [read_eq_ok_iff h.free] at hold
    rw [hold, Option.map_some] at ha
    constructor
    · have : ¬Lists old.asText.toList name.toList := by
        rw [← add?_eq_none_iff, ha]
        simp
      simp [this]
    · intro _
      rw [Content.asText, String.toList_ofList]
      exact prefix_of_add? ha

def blankEnded : FileTree :=
  ⟨"/", [(["proj", ".gitignore"], .text "node_modules\r\n  dist/\t\r\n\r\n \t")], [["proj"]]⟩

theorem update_settles_blankEnded :
    HasPlace blankEnded "/proj" ∧ IsEntryName "dist".toList ∧ IsEntryName ".cache".toList ∧
    update blankEnded "/proj" "dist" = .ok (false, blankEnded) ∧
    ∃ after content, update blankEnded "/proj" ".cache" = .ok (true, after) ∧
      after.read "/proj/.gitignore" = .ok content ∧ Lists content.asText.toList ".cache".toList ∧
      "node_modules\r\n  dist/".toList <+: content.asText.toList ∧
      update after "/proj" ".cache" = .ok (false, after) := by
  have h : HasPlace blankEnded "/proj" := ⟨by decide, by decide, by decide⟩
  have old : blankEnded.read (Path.join ["/proj", fileName]) =
      .ok (.text "node_modules\r\n  dist/\t\r\n\r\n \t") := by decide +kernel
  have there : IsEntryName "dist".toList := ⟨by decide, by decide +kernel⟩
  have new : IsEntryName ".cache".toList := ⟨by decide, by decide +kernel⟩
  have spelled : Path.join ["/proj", fileName] = "/proj/.gitignore" := by decide +kernel
  refine ⟨h, there, new, ?_, ?_⟩
  · obtain ⟨changed, after, content, first, -, -, -, same, -, before⟩ := update_settles h there
    have hc : changed = false := (before _ old).1.mpr (names_iff.mp (by decide +kernel))
    rw [first, same hc, hc]
  · obtain ⟨changed, after, content, first, read, lists, second, -, -, before⟩ :=
      update_settles h new
    have hc : changed = true := by
      rw [← Bool.not_eq_false, (before _ old).1, ← names_iff]
      decide +kernel
    have kept := (before _ old).2 hc
    rw [hc] at first
    rw [spelled] at read
    exact ⟨after, content, first, read, lists, kept, second⟩

end IgnoreList

end EndpointAtlas
