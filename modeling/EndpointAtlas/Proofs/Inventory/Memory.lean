import EndpointAtlas.Proofs.Inventory.Pass
import Mathlib.Data.List.Find

set_option autoImplicit false

namespace EndpointAtlas

namespace Memory

variable {tree : FileTree} {memory later : Memory}

/-- Is a regular file taken to be at a path: by what is remembered of it, else by the tree? -/
def believes (memory : Memory) (tree : FileTree) (path : String) : Bool :=
  (memory.known.lookup path).getD (tree.isFile path)

@[simp] theorem believes_empty (tree : FileTree) : empty.believes tree = tree.isFile := rfl

/-- What becomes of a memory over a tree: answers stay, and those that come are the tree's. -/
structure Grown (tree : FileTree) (memory later : Memory) : Prop where
  stays : ∀ path answer, memory.known.lookup path = some answer →
    later.known.lookup path = some answer
  comes : ∀ path answer, later.known.lookup path = some answer →
    memory.known.lookup path = some answer ∨ tree.isFile path = answer

theorem Grown.refl (tree : FileTree) (memory : Memory) : Grown tree memory memory :=
  ⟨fun _ _ h => h, fun _ _ h => .inl h⟩

theorem Grown.trans {last : Memory} (h : Grown tree memory later) (hl : Grown tree later last) :
    Grown tree memory last where
  stays path answer known := hl.stays path answer (h.stays path answer known)
  comes path answer known := (hl.comes path answer known).elim (h.comes path answer) .inr

theorem Grown.believes (h : Grown tree memory later) :
    later.believes tree = memory.believes tree := by
  funext path
  unfold Memory.believes
  cases hm : memory.known.lookup path with
  | some answer => rw [h.stays path answer hm]
  | none =>
    cases hl : later.known.lookup path with
    | none => rfl
    | some answer =>
      rcases h.comes path answer hl with known | seen
      · rw [hm] at known
        cases known
      · exact seen.symm

/-- Does something that is looked up over a tree come out as a function of beliefs? -/
def Answers {α : Type} (tree : FileTree) (act : StateM Memory α)
    (value : (String → Bool) → α) : Prop :=
  ∀ memory, (act memory).1 = value (memory.believes tree) ∧ Grown tree memory (act memory).2

section Answers

variable {α β : Type} {act : StateM Memory α} {value : (String → Bool) → α}

theorem answers_pure (tree : FileTree) (a : α) : Answers tree (pure a) fun _ => a :=
  fun memory => ⟨rfl, .refl tree memory⟩

theorem Answers.of_eq {other : (String → Bool) → α} (h : Answers tree act value)
    (same : ∀ believed, value believed = other believed) : Answers tree act other := by
  intro memory
  rw [← same]
  exact h memory

theorem Answers.bind {next : α → StateM Memory β} {result : α → (String → Bool) → β}
    (first : Answers tree act value) (second : ∀ a, Answers tree (next a) (result a)) :
    Answers tree (act >>= next) fun believed => result (value believed) believed := by
  intro memory
  obtain ⟨found, grown⟩ := first memory
  obtain ⟨last, grows⟩ := second (act memory).1 (act memory).2
  refine ⟨?_, grown.trans grows⟩
  have run : (act >>= next) memory = next (act memory).1 (act memory).2 := rfl
  rw [run, last, grown.believes, found]

theorem answers_mapM {ask : α → StateM Memory β} {result : α → (String → Bool) → β}
    (each : ∀ a, Answers tree (ask a) (result a)) (list : List α) :
    Answers tree (list.mapM ask) fun believed => list.map fun a => result a believed := by
  induction list with
  | nil => exact answers_pure tree []
  | cons a rest ih =>
    rw [List.mapM_cons]
    exact (each a).bind fun first => ih.bind fun others => answers_pure tree (first :: others)

end Answers

theorem isFile_answers (tree : FileTree) (path : String) :
    Answers tree (isFile tree path) fun believed => believed path := by
  intro memory
  unfold isFile believes
  beta_reduce
  cases hm : memory.known.lookup path with
  | some answer => exact ⟨rfl, .refl tree memory⟩
  | none =>
    refine ⟨rfl, fun other answer known => ?_, fun other answer known => ?_⟩
    · rw [List.lookup_cons]
      cases same : other == path with
      | false => exact known
      | true =>
        rw [beq_iff_eq.1 same, hm] at known
        cases known
    · rw [List.lookup_cons] at known
      cases same : other == path with
      | false => exact .inl (by rwa [same] at known)
      | true =>
        rw [same] at known
        rw [beq_iff_eq.1 same]
        exact .inr (Option.some.inj known)

theorem firstFile_answers (tree : FileTree) (paths : List String) :
    Answers tree (firstFile tree paths) fun believed => paths.find? believed := by
  induction paths with
  | nil => exact answers_pure tree none
  | cons path rest ih =>
    have goOn :
        ∀ found, Answers tree (if found = true then pure (some path) else firstFile tree rest)
        fun believed => if found = true then some path else rest.find? believed := by
      rintro (_ | _)
      · exact ih
      · exact answers_pure tree (some path)
    refine ((isFile_answers tree path).bind goOn).of_eq fun believed => ?_
    rw [List.find?_cons]
    cases believed path <;> rfl

end Memory

/-! ### Imports -/

@[simp] theorem Origin.text?_ofText? (text : Option String) :
    (Origin.ofText? text).text? = text := by
  cases text with
  | none => rfl
  | some text =>
    rw [ofText?, ofText]
    split
    · rename_i h
      rw [h]
      rfl
    · rfl

def Arrival.placed (tree : FileTree) (mentions : List Mention) (arrival : Arrival)
    (origin : Origin) : Import where
  importedName := arrival.importedName
  localName := arrival.localName
  source := arrival.source
  form := arrival.form
  origin := origin
  line := arrival.lines.first
  pathExists := Resolver.originExists tree origin
  usageLines := arrival.usageLines mentions

namespace Resolver

def isRelative (specifier : String) : Bool := specifier.toList.head? = some '.'

def lead (current directory specifier : String) (isFile : String → Bool) : Option String :=
  ((candidates directory specifier).find? isFile).map (Path.resolve current)

/-- Where the module of a specifier is, as far as the tree and some answers about files tell. -/
def origin (tree : FileTree) (specifier directory : String) (root : Option String)
    (isFile : String → Bool) : Origin :=
  if isRelative specifier then .ofText? (lead tree.current directory specifier isFile)
  else if isBuiltin specifier then .external
  else
    match (searched tree.current directory root).find? fun dir => tree.exists_ (installed dir
      specifier) with
    | some dir => .ofText (tree.resolve (installed dir specifier))
    | none => .external

theorem resolve_answers (tree : FileTree) (specifier directory : String) (root : Option String) :
    Memory.Answers tree (resolve tree specifier directory root)
      (origin tree specifier directory root) := by
  unfold resolve
  by_cases relative : specifier.toList.head? = some '.'
  · have place (found : Option String) : Memory.Answers tree
        (match found with
          | some path => pure (Origin.ofText (tree.resolve path))
          | none => pure Origin.unresolved)
        fun _ => Origin.ofText? (found.map tree.resolve) := by
      cases found <;> exact Memory.answers_pure tree _
    rw [if_pos relative]
    refine ((Memory.firstFile_answers tree (candidates directory specifier)).bind place).of_eq
      fun believed => ?_
    simp only [origin, isRelative, relative, decide_true, if_true, lead]
    rfl
  · -- Packages are looked for in the tree alone.
    rw [if_neg relative]
    unfold origin
    simp only [isRelative, relative, decide_false, Bool.false_eq_true, if_false]
    cases isBuiltin specifier with
    | true => exact Memory.answers_pure tree Origin.external
    | false =>
      simp only [Bool.false_eq_true, if_false]
      cases (searched tree.current directory root).find? fun dir =>
        tree.exists_ (installed dir specifier) <;>
        exact Memory.answers_pure tree _

/-- Something that a resolver is asked: a specifier, as it is seen from a directory and up to a
root. -/
structure Query where
  specifier : String
  directory : String
  root : Option String

def Query.ask (tree : FileTree) (query : Query) : StateM Memory Origin :=
  resolve tree query.specifier query.directory query.root

def consulted (current specifier directory : String) (root : Option String) : List String :=
  if isRelative specifier then candidates directory specifier
  else (searched current directory root).map (installed · specifier)

end Resolver

namespace Inventory

/-- The inventory that findings give, as far as the tree and some answers about files tell. -/
def listed (tree : FileTree) (options : ExtractOptions) (directory filePath : String)
    (dialect : Dialect) (found : Findings) (isFile : String → Bool) : Inventory where
  filePath := filePath
  dialect := dialect
  classes := found.classes
  functions := found.functions
  vars := found.vars
  calls := found.calls
  imports := found.arrivals.map fun arrival =>
    arrival.placed tree found.mentions
      (Resolver.origin tree arrival.source directory options.root isFile)

/-- What a file shows, with the dialect that it is read in, unless it cannot be read. -/
def shown (tree : FileTree) (options : ExtractOptions) (path : String) :
    Except IndexFault (Dialect × Findings) :=
  match tree.read path with
  | .error cause => .error (.file cause)
  | .ok content =>
    match readingDialect options path with
    | .error cause => .error (.parse cause)
    | .ok dialect =>
      .ok (dialect, .ofTree content.asText.toList (parse dialect content.asText.toList))

theorem ofFindings_answers (tree : FileTree) (options : ExtractOptions)
    (directory filePath : String) (dialect : Dialect) (found : Findings) :
    Memory.Answers tree (ofFindings tree options directory filePath dialect found)
      (listed tree options directory filePath dialect found) := by
  have each (arrival : Arrival) :=
    (Resolver.resolve_answers tree arrival.source directory options.root).bind
    fun origin => Memory.answers_pure tree (arrival.placed tree found.mentions origin)
  exact (Memory.answers_mapM each found.arrivals).bind fun imports => Memory.answers_pure tree
    (⟨filePath, dialect, found.classes, found.functions, found.vars, found.calls,
      imports⟩ : Inventory)

theorem fst_run_ofFindings (tree : FileTree) (options : ExtractOptions)
    (directory filePath : String) (dialect : Dialect) (found : Findings) (memory : Memory) :
    ((ofFindings tree options directory filePath dialect found).run memory).1 =
      listed tree options directory filePath dialect found (memory.believes tree) :=
  (ofFindings_answers tree options directory filePath dialect found memory).1

theorem ofFile_answers (tree : FileTree) (options : ExtractOptions) (directory path : String) :
    Memory.Answers tree (ofFile tree options directory path).run fun believed =>
      (shown tree options path).map fun (dialect, found) =>
        listed tree options directory path dialect found believed := by
  intro memory
  unfold shown
  cases hr : tree.read path with
  | error cause =>
    rw [ofFile_run_error hr]
    exact ⟨rfl, .refl tree memory⟩
  | ok content =>
    rw [ofFile_run hr, ofSource_run]
    cases readingDialect options path with
    | error cause => exact ⟨rfl, .refl tree memory⟩
    | ok dialect =>
      simp only
      generalize Findings.ofTree content.asText.toList (parse dialect content.asText.toList) = found
      obtain ⟨value, grown⟩ := ofFindings_answers tree options directory path dialect found memory
      exact ⟨congrArg Except.ok value, grown⟩

end Inventory

/-! ### Trees that are the same where imports lead -/

namespace FileTree

variable {first second : FileTree}

/-- Is the same at a place in two trees: a file of one content, a directory, or nothing? -/
def SameAt (first second : FileTree) (place : Location) : Prop :=
  second.content? place = first.content? place ∧ second.hasDirectory place =
    first.hasDirectory place

instance (first second : FileTree) (place : Location) : Decidable (first.SameAt second place) :=
  inferInstanceAs (Decidable (_ ∧ _))

theorem SameAt.isFile {path : String} (h : first.SameAt second (first.locate path))
    (current : second.current = first.current) : second.isFile path = first.isFile path := by
  rw [FileTree.isFile, FileTree.isFile, locate_congr current, hasFile, hasFile, h.1]

theorem SameAt.exists_ {path : String} (h : first.SameAt second (first.locate path))
    (current : second.current = first.current) : second.exists_ path = first.exists_ path := by
  rw [FileTree.exists_, FileTree.exists_, h.isFile current, isDirectory, isDirectory,
    locate_congr current, h.2]

end FileTree

namespace Resolver

variable {first second : FileTree} {specifier directory : String} {root : Option String}
  {believed believed' : String → Bool}

theorem exists_of_origin_eq_file {path : String} {named : path ≠ externalText}
    (h : origin first specifier directory root believed = .file path named) :
    ∃ asked ∈ consulted first.current specifier directory root, path = first.resolve asked := by
  unfold origin at h
  unfold consulted
  split at h
  · rename_i relative
    rw [if_pos relative]
    have text : lead first.current directory specifier believed = some path := by
      rw [← Origin.text?_ofText? (lead _ _ _ _), h]
      rfl
    obtain ⟨asked, hf, rfl⟩ := Option.map_eq_some_iff.1 text
    exact ⟨asked, List.mem_of_find?_eq_some hf, rfl⟩
  · rename_i bare
    rw [if_neg bare]
    split at h
    · cases h
    · split at h
      · rename_i dir hf
        have text : some (first.resolve (installed dir specifier)) = some path := by
          rw [← Origin.text?_ofText? (some (first.resolve (installed dir specifier))),
            Origin.ofText?, h]
          rfl
        exact ⟨_, List.mem_map_of_mem (List.mem_of_find?_eq_some hf), (Option.some.inj text).symm⟩
      · cases h

theorem origin_congr (current : second.current = first.current)
    (same : ∀ path ∈ consulted first.current specifier directory root,
      first.SameAt second (first.locate path))
    (agree : ∀ path ∈ consulted first.current specifier directory root,
      believed' path = believed path) :
    origin second specifier directory root believed' =
      origin first specifier directory root believed := by
  unfold origin consulted at *
  cases hr : isRelative specifier with
  | true =>
    simp only [hr, if_true] at agree ⊢
    rw [lead, lead, current, List.find?_congr agree]
  | false =>
    simp only [hr, Bool.false_eq_true, if_false, List.mem_map, forall_exists_index, and_imp,
      forall_apply_eq_imp_iff₂] at same ⊢
    have find : (searched first.current directory root).find? (fun dir =>
        second.exists_ (installed dir specifier)) =
          (searched first.current directory root).find? fun dir =>
          first.exists_ (installed dir specifier) :=
      List.find?_congr fun dir hd => (same dir hd).exists_ current
    rw [current, find]
    simp only [FileTree.resolve, current]

theorem originExists_congr (current : second.current = first.current)
    (same : ∀ path ∈ consulted first.current specifier directory root,
      first.SameAt second (first.locate path)) :
    originExists second (origin first specifier directory root believed) =
      originExists first (origin first specifier directory root believed) := by
  cases h : origin first specifier directory root believed with
  | unresolved | external => rfl
  | file path named =>
    obtain ⟨asked, ha, rfl⟩ := exists_of_origin_eq_file h
    have there := same asked ha
    rw [← first.locate_resolve] at there
    exact there.exists_ current

end Resolver

theorem Inventory.listed_congr {first second : FileTree} {believed believed' : String → Bool}
    {options : ExtractOptions} {directory : String} {found : Findings} (filePath : String)
    (dialect : Dialect) (current : second.current = first.current)
    (same : ∀ path ∈ found.arrivals.flatMap fun arrival =>
        Resolver.consulted first.current arrival.source directory options.root,
      first.SameAt second (first.locate path) ∧ believed' path = believed path) :
    listed second options directory filePath dialect found believed' =
      listed first options directory filePath dialect found believed := by
  rw [listed, listed, Inventory.mk.injEq]
  refine ⟨rfl, rfl, rfl, rfl, rfl, rfl, List.map_congr_left fun arrival ha => ?_⟩
  have within : ∀ path ∈ Resolver.consulted first.current arrival.source directory options.root,
      first.SameAt second (first.locate path) ∧ believed' path = believed path :=
    fun path hp => same path (List.mem_flatMap.2 ⟨arrival, ha, hp⟩)
  rw [Resolver.origin_congr current (fun path hp => (within path hp).1) fun path hp =>
    (within path hp).2,
    Arrival.placed, Arrival.placed, Resolver.originExists_congr current fun path hp =>
      (within path hp).1]

end EndpointAtlas
