import EndpointAtlas.Config.Files
import EndpointAtlas.Proofs.Inventory.Packages

/-!
Where the configuration of a directory is found. Main statement: the search climbs from the
directory up to the root and takes the first place that holds a configuration, which is a file with
one of six names, or a package file with the field; it answers with what that place gives, be it an
error, and with one warning for every package file before it that cannot be read.
-/

set_option autoImplicit false

namespace EndpointAtlas

namespace Config

/-! ### Places -/

/-- A place where a configuration can stand: a file of its own, or a field of a package file. -/
inductive Place where
  | file (path : String)
  | package (path : String)
  deriving DecidableEq, Repr

/-- The files that a directory can have a configuration in, in the order in which they count. -/
def filesIn (directory : String) : List String :=
  ["routescribe.config.json", "routescribe.config.yaml", "routescribe.config.yml",
    "routescribe.config.toml", ".routescriberc.json", ".routescriberc"].map
      fun name => Path.join [directory, name]

theorem filesIn_eq (directory : String) :
    filesIn directory = fileNames.map fun name => Path.join [directory, name] := rfl

/-- The places in a directory: its files, and then its package file. -/
def placesIn (directory : String) : List Place :=
  (filesIn directory).map .file ++ [.package (Path.join [directory, "package.json"])]

def places (directories : List String) : List Place := directories.flatMap placesIn

def json? (tree : FileTree) (path : String) : Option Json :=
  (tree.read path).toOption.bind fun content => Json.parse? content.asText

namespace Place

/-- What a package file has under the field. -/
def HasField (tree : FileTree) (path : String) (value : Json) : Prop :=
  ∃ fields : Entries Json, json? tree path = some (.object fields) ∧
  fields.get? "routescribe" = some value

/-- A configuration stands at a place: the file is there, or the package file has the field,
whatever is in it. -/
def Holds (tree : FileTree) : Place → Prop
  | file path => tree.exists_ path = true
  | package path => tree.exists_ path = true ∧ ∃ value, HasField tree path value

/-- What a place gives: the checked configuration, or why there is none. -/
inductive Gives (tree : FileTree) : Place → Except ConfigError Config → Prop
  | unread {path : String} {cause : FileError} (unread : tree.read path = .error cause) :
      Gives tree (file path) (.error (.unreadable cause))
  | malformed {path : String} {content : Content} (read : tree.read path = .ok content)
      (malformed : (SettingsFormat.ofPath path).read? content.asText = none) :
      Gives tree (file path) (.error (.malformed (SettingsFormat.ofPath path) path))
  | file {path : String} {content : Content} {value : Setting} (read : tree.read path = .ok content)
      (spelled : (SettingsFormat.ofPath path).read? content.asText = some value) :
      Gives tree (file path) (orError (ofSetting (some value)))
  | field {path : String} {value : Json} (held : HasField tree path value) :
      Gives tree (package path) (orError (ofSetting (some (.ofJson value))))

/-- The warning that a place costs: its package file is there, but cannot be read. -/
def warning? (tree : FileTree) : Place → Option String
  | file _ => none
  | package path =>
    if tree.exists_ path = true ∧ json? tree path = none then some (unreadableWarning path)
    else none

end Place

/-- An answer is the one of the first place that holds a configuration, with the warnings of the
places before it. -/
inductive Finds (tree : FileTree) (places : List Place) :
    Except ConfigError (Option Config) × List String → Prop
  | nothing (nowhere : ∀ place ∈ places, ¬ place.Holds tree) :
      Finds tree places (.ok none, places.filterMap (Place.warning? tree))
  | first {before after : List Place} {place : Place} {given : Except ConfigError Config}
      (split : places = before ++ place :: after)
      (nowhere : ∀ earlier ∈ before, ¬ earlier.Holds tree)
      (holds : place.Holds tree) (gives : place.Gives tree given) :
      Finds tree places (given.map some, before.filterMap (Place.warning? tree))

variable {tree : FileTree} {here rest : List Place} {config : Except ConfigError (Option Config)}
  {warnings : List String}

theorem Finds.skip (nowhere : ∀ place ∈ here, ¬ place.Holds tree)
    (h : Finds tree rest (config, warnings)) :
    Finds tree (here ++ rest) (config, here.filterMap (Place.warning? tree) ++ warnings) := by
  cases h with
  | nothing others =>
    rw [← List.filterMap_append]
    exact .nothing fun place hp => (List.mem_append.1 hp).elim (nowhere place) (others place)
  | first split others holds gives =>
    rw [← List.filterMap_append]
    exact .first (by rw [split, List.append_assoc])
      (fun place hp => (List.mem_append.1 hp).elim (nowhere place) (others place)) holds gives

theorem Finds.skip_one {place : Place} (missing : ¬ place.Holds tree)
    (h : Finds tree rest (config, warnings)) :
    Finds tree ([place] ++ rest) (config, (place.warning? tree).toList ++ warnings) := by
  have skipped := @Finds.skip tree [place] rest config warnings (by simpa using missing) h
  cases hw : place.warning? tree <;> simpa [List.filterMap_cons, hw] using skipped

theorem Place.gives_load {path : String} (resolved : tree.resolve path = path)
    (there : tree.exists_ path = true) : (Place.file path).Gives tree (load tree path) := by
  simp only [load, resolved, there, Bool.not_true, Bool.false_eq_true, if_false]
  cases hr : tree.read path with
  | error cause => exact .unread hr
  | ok content =>
    simp only
    cases hs : (SettingsFormat.ofPath path).read? content.asText with
    | none => exact .malformed hr hs
    | some value => exact .file hr hs

theorem holds_package_iff {path : String} (there : tree.exists_ path = true) {value : Json}
    (read : json? tree path = some value) :
    (Place.package path).Holds tree ↔ ∃ field, value.field? packageField = some field := by
  cases value with
  | object fields =>
    simp [Place.Holds, Place.HasField, there, read, Json.field?, Json.fields?, packageField]
  | _ => simp [Place.Holds, Place.HasField, read, Json.field?, Json.fields?]

theorem hasField_of_field? {path : String} {value field : Json}
    (read : json? tree path = some value)
    (held : value.field? packageField = some field) : Place.HasField tree path field := by
  cases value with
  | object fields => exact ⟨fields, read, held⟩
  | _ => cases held

theorem inPackage_cases {directory path : String}
    (hp : Path.join [directory, "package.json"] = path) :
    (∃ value, inPackage tree directory = .field (.ofJson value) ∧ tree.exists_ path = true ∧
      Place.HasField tree path value) ∨
    (¬ (Place.package path).Holds tree ∧
      (inPackage tree directory = .unreadable path ∧
          (Place.package path).warning? tree = some (unreadableWarning path) ∨
        inPackage tree directory = .nothing ∧ (Place.package path).warning? tree = none)) := by
  by_cases there : tree.exists_ path = true
  · cases hj : json? tree path with
    | none =>
      have unread : (tree.read path).toOption.bind (fun content =>
          Json.parse? content.asText) = none := hj
      refine .inr ⟨?_, .inl ⟨?_, ?_⟩⟩
      · rintro ⟨-, value, fields, read, -⟩
        simp [hj] at read
      · unfold inPackage
        simp only [hp, there, Bool.not_true, Bool.false_eq_true, if_false]
        rw [unread]
      · rw [Place.warning?, if_pos ⟨there, hj⟩]
    | some value =>
      have read : (tree.read path).toOption.bind (fun content => Json.parse? content.asText) =
          some value := hj
      cases hf : value.field? packageField with
      | some field =>
        exact .inl
          ⟨field, by simp [inPackage, hp, there, read, hf], there, hasField_of_field? hj hf⟩
      | none =>
        refine .inr ⟨fun holds => ?_, .inr ⟨?_, by simp [Place.warning?, hj]⟩⟩
        · obtain ⟨field, held⟩ := (holds_package_iff there hj).1 holds
          simp [hf] at held
        · simp [inPackage, hp, there, read, hf]
  · refine .inr ⟨fun holds => there holds.1, .inr ⟨?_, by simp [Place.warning?, there]⟩⟩
    simp [inPackage, hp, there]

theorem filterMap_files (tree : FileTree) (paths : List String) :
    (paths.map Place.file).filterMap (Place.warning? tree) = [] := by
  rw [List.filterMap_eq_nil_iff]
  rintro _ hp
  obtain ⟨path, -, rfl⟩ := List.mem_map.1 hp
  rfl

theorem finds_file {paths : List String} {path : String}
    (resolved : ∀ path ∈ paths, tree.resolve path = path)
    (hf : paths.find? tree.exists_ = some path) (rest : List Place) :
    Finds tree (paths.map .file ++ rest) ((load tree path).map some, []) := by
  obtain ⟨there, before, after, rfl, absent⟩ := List.find?_eq_some_iff_append.1 hf
  have gives := Place.gives_load (resolved path (by simp)) there
  rw [← filterMap_files tree before]
  refine @Finds.first tree _ (before.map .file) (after.map .file ++ rest) (.file path) _ (by simp)
    (fun place hp => ?_) there gives
  obtain ⟨earlier, he, rfl⟩ := List.mem_map.1 hp
  simpa [Place.Holds] using absent earlier he

theorem not_holds_files {paths : List String} (hf : paths.find? tree.exists_ = none) :
    ∀ place ∈ paths.map Place.file, ¬ place.Holds tree := by
  intro place hp
  obtain ⟨path, hm, rfl⟩ := List.mem_map.1 hp
  exact List.find?_eq_none.1 hf path hm

theorem inDirectory_of_file {directory path : String}
    (hf : (filesIn directory).find? tree.exists_ = some path) :
    inDirectory tree directory = .file path := by
  unfold inDirectory
  rw [← filesIn_eq, hf]

theorem inDirectory_of_no_file {directory : String}
    (hf : (filesIn directory).find? tree.exists_ = none) :
    inDirectory tree directory = inPackage tree directory := by
  unfold inDirectory
  rw [← filesIn_eq, hf]

theorem places_cons (directory : String) (directories : List String) :
    places (directory :: directories) = (filesIn directory).map .file ++
      ([.package (Path.join [directory, "package.json"])] ++ places directories) := by
  rw [places, List.flatMap_cons, placesIn, List.append_assoc]
  rfl

section

variable {directory path : String} {value : Setting} {directories : List String}

theorem firstIn_nil (tree : FileTree) : firstIn tree [] = (.ok none, []) := by
  exact rfl

theorem firstIn_cons (tree : FileTree) (directory : String) (directories : List String) :
    firstIn tree (directory :: directories) = match inDirectory tree directory with
      | .file path => ((load tree path).map some, [])
      | .field value => ((orError (ofSetting (some value))).map some, [])
      | .unreadable path =>
        let (config, unreadable) := firstIn tree directories
        (config, path :: unreadable)
      | .nothing => firstIn tree directories := by
  exact rfl

theorem firstIn_of_file (h : inDirectory tree directory = .file path) :
    firstIn tree (directory :: directories) = ((load tree path).map some, []) := by
  rw [firstIn_cons, h]

theorem firstIn_of_field (h : inDirectory tree directory = .field value) :
    firstIn tree (directory :: directories) =
      ((orError (ofSetting (some value))).map some, []) := by
  rw [firstIn_cons, h]

theorem firstIn_of_unreadable (h : inDirectory tree directory = .unreadable path) :
    firstIn tree (directory :: directories) =
      ((firstIn tree directories).1, path :: (firstIn tree directories).2) := by
  rw [firstIn_cons, h]

theorem firstIn_of_nothing (h : inDirectory tree directory = .nothing) :
    firstIn tree (directory :: directories) = firstIn tree directories := by
  rw [firstIn_cons, h]

end

theorem finds_firstIn {directories : List String}
    (resolved : ∀ directory ∈ directories, ∀ path ∈ filesIn directory, tree.resolve path = path) :
    Finds tree (places directories)
      ((firstIn tree directories).1, (firstIn tree directories).2.map unreadableWarning) := by
  induction directories with
  | nil =>
    rw [firstIn_nil]
    exact .nothing (by simp [places])
  | cons directory directories ih =>
    have later := ih fun other ho => resolved other (List.mem_cons_of_mem _ ho)
    rw [places_cons]
    cases hf : (filesIn directory).find? tree.exists_ with
    | some path =>
      simp only [firstIn_of_file (inDirectory_of_file hf), List.map_nil]
      exact finds_file (resolved directory List.mem_cons_self) hf _
    | none =>
      -- No file counts in this directory, so that its package file comes next.
      have goesOn := inDirectory_of_no_file hf
      have skip := @Finds.skip tree ((filesIn directory).map .file)
        ([.package (Path.join [directory, "package.json"])] ++ places directories)
      rw [filterMap_files] at skip
      refine skip (not_holds_files hf) ?_
      rcases @inPackage_cases tree directory _ rfl with
        ⟨value, found, there, held⟩ | ⟨missing, ⟨found, warned⟩ | ⟨found, warned⟩⟩
      · simp only [firstIn_of_field (goesOn.trans found), List.map_nil]
        exact @Finds.first tree _ [] _ _ _ rfl (by simp) ⟨there, value, held⟩ (.field held)
      · have skipped := later.skip_one missing
        rw [warned] at skipped
        simp only [firstIn_of_unreadable (goesOn.trans found), List.map_cons]
        exact skipped
      · have skipped := later.skip_one missing
        rw [warned] at skipped
        rw [firstIn_of_nothing (goesOn.trans found)]
        exact skipped

theorem map_some_ne_none (given : Except ConfigError Config) : given.map some ≠ .ok none := by
  cases given <;> simp [Except.map]

theorem Finds.eq_none_iff {places : List Place} (h : Finds tree places (config, warnings)) :
    config = .ok none ↔ ∀ place ∈ places, ¬ place.Holds tree := by
  cases h with
  | nothing nowhere => exact iff_of_true rfl nowhere
  | first split _ holds _ =>
    exact iff_of_false (map_some_ne_none _) fun nowhere => nowhere _ (by rw [split]; simp) holds

/-! ### Directories -/

theorem upwards_eq (tree : FileTree) (directory : String) :
    upwards tree directory = Resolver.ancestors (tree.locate directory) 0 := by
  simp [upwards, Resolver.ancestors]

theorem isName_of_mem_fileNames {name : String} (h : name ∈ fileNames) : Path.IsName name := by
  revert name
  decide

theorem resolve_of_mem_filesIn {directory above path : String} (ha : above ∈ upwards tree directory)
    (hp : path ∈ filesIn above) : tree.resolve path = path := by
  simp only [upwards, List.mem_map, List.mem_reverse, Path.mem_beginnings] at ha
  obtain ⟨start, below, rfl⟩ := ha
  rw [filesIn_eq] at hp
  obtain ⟨name, hn, rfl⟩ := List.mem_map.1 hp
  have names : Path.AreNames start :=
    fun other ho => tree.areNames_locate directory other (below.subset ho)
  have isName := isName_of_mem_fileNames hn
  rw [Path.join_glue names isName.nonempty isName.unbroken, Path.follow_name start isName,
    FileTree.resolve, Path.resolve_glue _ (names.append (Path.areNames_singleton.2 isName))]

theorem find_eq (tree : FileTree) (directory : String) : find tree directory =
    ((firstIn tree (upwards tree directory)).1,
      (firstIn tree (upwards tree directory)).2.map unreadableWarning) := by
  unfold find
  generalize firstIn tree (upwards tree directory) = found
  rfl

/-- The search for the configuration of a directory climbs from there up to the root. It answers
with what the first place on the way gives that holds a configuration, and with the warnings of the
places before it; it finds nothing just if there is no such place. -/
theorem find_first (tree : FileTree) (directory : String) :
    ∃ chain, Path.Climbs "/" (tree.resolve directory) chain ∧ chain.getLast? = some "/" ∧
      Finds tree (places chain) (find tree directory) ∧
      ((find tree directory).1 = .ok none ↔ ∀ place ∈ places chain, ¬ place.Holds tree) := by
  have upward := @Resolver.climbs_ancestors [] (tree.locate directory)
      (by simpa using tree.areNames_locate directory)
  have root : "/" ++ Path.glue [] = "/" := by decide
  rw [List.nil_append, List.length_nil, ← upwards_eq, ← tree.resolve_eq_glue, root] at upward
  have found :=
    @finds_firstIn tree (upwards tree directory) fun _ ha _ hp => resolve_of_mem_filesIn ha hp
  rw [find_eq]
  refine ⟨upwards tree directory, upward.1, upward.2, found, ?_⟩
  simp only [found.eq_none_iff]

end Config

end EndpointAtlas
