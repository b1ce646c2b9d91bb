import EndpointAtlas.Proofs.Inventory.Memory

/-!
The turns of files in a pass. Main statement: the memory of files that a pass keeps is not seen.
Whatever is asked of it over a tree is answered as a new memory would answer, and a file has the
inventory in a pass that it has alone, as long as the tree stays as it is where that file and its
imports lead; a pass changes it only below the directory of the cache.
-/

set_option autoImplicit false

namespace EndpointAtlas

/-- The turn of a file in a pass: the indexer and the tree as they are then. -/
structure Turn where
  indexer : Indexer
  tree : FileTree
  path : String

namespace Cache

variable {place : Location} {kept : List Inventory} {tree : FileTree}

theorem sameAt_keepAll {other : Location} (h : ¬place <+: other) :
    tree.SameAt (keepAll place kept tree) other :=
  ⟨content?_keepAll_outside place kept tree h, by
    rw [FileTree.hasDirectory, FileTree.hasDirectory, directories_keepAll]⟩

theorem read_keepAll_outside {path : String} (h : ¬place <+: tree.locate path) :
    (keepAll place kept tree).read path = tree.read path := by
  have located : (keepAll place kept tree).locate path = tree.locate path :=
    FileTree.locate_congr (current_keepAll place kept tree) path
  have files : ∀ other, other <+: tree.locate path →
      (keepAll place kept tree).hasFile other = tree.hasFile other := fun other ho => by
    rw [FileTree.hasFile, FileTree.hasFile, (sameAt_keepAll fun below => h (below.trans ho)).1]
  have blocked : (keepAll place kept tree).blocked (tree.locate path) =
      tree.blocked (tree.locate path) := by
    rw [Bool.eq_iff_iff, FileTree.blocked, FileTree.blocked, List.any_eq_true, List.any_eq_true]
    exact exists_congr fun other => and_congr_right fun ho => by
      rw [files other (Path.mem_dropLast_beginnings.1 ho).1]
  obtain ⟨content, directory⟩ : tree.SameAt (keepAll place kept tree) (tree.locate path) :=
    sameAt_keepAll h
  unfold FileTree.read FileTree.isDirectory FileTree.absence
  rw [located, files _ (List.prefix_refl _), blocked, content, directory]

end Cache

namespace Turn

def inventory (turn : Turn) : Except IndexFault Inventory :=
  ((Inventory.ofFile turn.tree turn.indexer.options (Path.parent turn.path) turn.path).run
    turn.indexer.memory).1

/-- What the file shows, with the dialect that it is read in, unless it cannot be read. -/
def shown (turn : Turn) : Except IndexFault (Dialect × Findings) :=
  Inventory.shown turn.tree turn.indexer.options turn.path

def arrivals (turn : Turn) : List Arrival :=
  match turn.shown with
  | .error _ => []
  | .ok (_, found) => found.arrivals

def consulted (turn : Turn) : List String :=
  turn.arrivals.flatMap fun arrival =>
    Resolver.consulted turn.tree.current arrival.source
      (Path.parent turn.path) turn.indexer.options.root

theorem consulted_of_shown {turn : Turn} {dialect : Dialect} {found : Findings}
    (h : turn.shown = .ok (dialect, found)) :
    turn.consulted = found.arrivals.flatMap fun arrival =>
      Resolver.consulted turn.tree.current arrival.source
        (Path.parent turn.path) turn.indexer.options.root := by
  unfold consulted arrivals
  rw [h]

theorem inventory_eq (turn : Turn) :
    turn.inventory = turn.shown.map fun (dialect, found) =>
      Inventory.listed turn.tree turn.indexer.options
        (Path.parent turn.path) turn.path dialect found
        (turn.indexer.memory.believes turn.tree) :=
  (Inventory.ofFile_answers turn.tree turn.indexer.options (Path.parent turn.path) turn.path
    turn.indexer.memory).1

end Turn

namespace Indexer

def turns (indexer : Indexer) (tree : FileTree) : List String → List Turn
  | [] => []
  | path :: rest =>
    let (_, later, after) := indexer.indexFile tree path
    ⟨indexer, tree, path⟩ :: later.turns after rest

theorem turns_cons (indexer : Indexer) (tree : FileTree) (path : String) (rest : List String) :
    indexer.turns tree (path :: rest) = ⟨indexer, tree, path⟩ ::
      (indexer.indexFile tree path).2.1.turns (indexer.indexFile tree path).2.2 rest := rfl

/-- What becomes of an indexer and a tree through some turns of files: the indexer stays but for its
memory and the files that it saw, the tree keeps its current directory, and whatever is remembered
was remembered before, or is what the tree had at one of the turns. -/
structure Reached (indexer : Indexer) (tree : FileTree) (seen : List Turn) (later : Indexer)
    (after : FileTree) : Prop where
  rest : later = { indexer with memory := later.memory, files := later.files }
  current : after.current = tree.current
  known : ∀ path answer, later.memory.known.lookup path = some answer →
    indexer.memory.known.lookup path = some answer ∨ ∃ other ∈ seen, other.tree.isFile path = answer

namespace Reached

variable {indexer later last : Indexer} {tree after final : FileTree} {seen more : List Turn}

theorem of_memory {same : Indexer}
    (rest : same = { indexer with memory := indexer.memory, files := same.files })
    (current : after.current = tree.current) : Reached indexer tree seen same after := by
  obtain ⟨root, ignored, maxFileSize, cache, memory, files⟩ := same
  cases rest
  exact ⟨rfl, current, fun _ _ => .inl⟩

theorem trans (h : Reached indexer tree seen later after)
    (hl : Reached later after more last final) :
    Reached indexer tree (seen ++ more) last final where
  rest := by rw [hl.rest, h.rest]
  current := hl.current.trans h.current
  known path answer known := by
    rcases hl.known path answer known with before | ⟨other, ho, seen⟩
    · exact (h.known path answer before).imp_right fun ⟨other, ho, seen⟩ =>
        ⟨other, List.mem_append_left _ ho, seen⟩
    · exact .inr ⟨other, List.mem_append_right _ ho, seen⟩

theorem options (h : Reached indexer tree seen later after) : later.options = indexer.options :=
  (congrArg Indexer.options h.rest).trans rfl

end Reached

theorem current_write {cache : Cache} {tree after : FileTree} {inventory : Inventory}
    (h : cache.write tree inventory = .ok after) : after.current = tree.current := by
  rw [Cache.write, Cache.keep] at h
  rw [(FileTree.write_eq_ok h).1, FileTree.put]

theorem reached_indexFile (indexer : Indexer) (tree : FileTree) (path : String) :
    Reached indexer tree [⟨indexer, tree, path⟩] (indexer.indexFile tree path).2.1
      (indexer.indexFile tree path).2.2 := by
  have grown :=
    (Inventory.ofFile_answers tree indexer.options (Path.parent path) path indexer.memory).2
  unfold indexFile
  cases indexer.isTooLarge tree path with
  | error cause => exact .of_memory rfl rfl
  | ok large =>
    cases large with
    | true => exact .of_memory rfl rfl
    | false =>
      simp only
      generalize (Inventory.ofFile tree indexer.options (Path.parent path) path).run
        indexer.memory = made at grown ⊢
      obtain ⟨found, memory⟩ := made
      have known (other : String) (answer : Bool) (hk : memory.known.lookup other = some answer) :=
        (grown.comes other answer hk).imp_right fun seen =>
          (⟨⟨indexer, tree, path⟩, List.mem_singleton_self _, seen⟩ :
            ∃ turn ∈ [(⟨indexer, tree, path⟩ : Turn)], turn.tree.isFile other = answer)
      cases found with
      | error fault => exact ⟨rfl, rfl, known⟩
      | ok inventory =>
        simp only
        cases hw : indexer.cache.write tree inventory with
        | error cause => exact ⟨rfl, rfl, known⟩
        | ok after => exact ⟨rfl, current_write hw, known⟩

variable {indexer : Indexer} {tree : FileTree} {paths : List String} {turn : Turn}

theorem reached_of_mem_turns (h : turn ∈ indexer.turns tree paths) :
    Reached indexer tree (indexer.turns tree paths) turn.indexer turn.tree := by
  induction paths generalizing indexer tree with
  | nil => cases h
  | cons path rest ih =>
    rw [turns_cons] at h ⊢
    rcases List.mem_cons.1 h with rfl | h
    · exact .of_memory rfl rfl
    · exact (reached_indexFile indexer tree path).trans (ih h)

/-- Does the tree stay, over a pass, as it is where the file of a turn and its imports lead? -/
def LeavesBe (indexer : Indexer) (tree : FileTree) (paths : List String) (turn : Turn) : Prop :=
  ∀ other ∈ indexer.turns tree paths, other.tree.read turn.path = tree.read turn.path ∧
    ∀ path ∈ turn.consulted, tree.SameAt other.tree (tree.locate path)

theorem inventory_of_leavesBe (fresh : indexer.memory = .empty)
    (h : turn ∈ indexer.turns tree paths) (steady : indexer.LeavesBe tree paths turn) :
    turn.inventory = (⟨indexer, tree, turn.path⟩ : Turn).inventory := by
  have reached := reached_of_mem_turns h
  have agree : ∀ path ∈ turn.consulted, turn.indexer.memory.believes turn.tree path =
      tree.isFile path := by
    intro path hp
    unfold Memory.believes
    -- What is remembered was the tree's at an earlier turn, and there the tree was as it is at the
    -- start.
    cases known : turn.indexer.memory.known.lookup path with
    | none => exact ((steady turn h).2 path hp).isFile reached.current
    | some answer =>
      rcases reached.known path answer known with before | ⟨other, ho, seen⟩
      · rw [fresh] at before
        cases before
      · rw [← seen]
        exact ((steady other ho).2 path hp).isFile (reached_of_mem_turns ho).current
  have alike : (⟨indexer, tree, turn.path⟩ : Turn).shown = turn.shown := by
    unfold Turn.shown Inventory.shown
    rw [reached.options, (steady turn h).1]
  rw [turn.inventory_eq, Turn.inventory_eq, alike]
  dsimp only
  rw [fresh, Memory.believes_empty, reached.options]
  cases hs : turn.shown with
  | error fault => simp only [Except.map]
  | ok shown =>
    obtain ⟨dialect, found⟩ := shown
    simp only [Except.map]
    have consulted := Turn.consulted_of_shown hs
    rw [reached.current, reached.options] at consulted
    rw [Inventory.listed_congr turn.path dialect reached.current fun path hp =>
      ⟨(steady turn h).2 path (consulted ▸ hp), agree path (consulted ▸ hp)⟩]

theorem exists_keepAll_of_mem_turns {place : Location} (stands : indexer.cache.StandsAt place)
    (h : turn ∈ indexer.turns tree paths) : ∃ kept, turn.tree = Cache.keepAll place kept tree := by
  induction paths generalizing indexer tree with
  | nil => cases h
  | cons path rest ih =>
    have first := step_indexFile stands tree path
    rw [turns] at h
    generalize indexer.indexFile tree path = outcome at first h
    generalize indexer.taken? tree path = taken at first
    rcases List.mem_cons.1 h with rfl | h
    · exact ⟨[], rfl⟩
    · cases first with
      | passed result later same no => exact ih (same ▸ stands) h
      | took inventory later same of free =>
        obtain ⟨kept, ht⟩ := ih (same ▸ stands) h
        exact ⟨inventory :: kept, ht⟩

theorem leavesBe_of_standsAt {place : Location} (stands : indexer.cache.StandsAt place)
    (file : ¬place <+: tree.locate turn.path)
    (imports : ∀ path ∈ turn.consulted, ¬place <+: tree.locate path) :
    indexer.LeavesBe tree paths turn := by
  intro other ho
  obtain ⟨kept, ht⟩ := exists_keepAll_of_mem_turns stands ho
  rw [ht]
  exact ⟨Cache.read_keepAll_outside file, fun path hp => Cache.sameAt_keepAll (imports path hp)⟩

theorem path_turns (indexer : Indexer) (tree : FileTree) (paths : List String) :
    (indexer.turns tree paths).map Turn.path = paths := by
  induction paths generalizing indexer tree with
  | nil => rfl
  | cons path rest ih => rw [turns, List.map_cons, ih]

/-- What is remembered of files is not seen. With an empty memory to start from, whatever is asked
over a tree, in any order, is answered as a new memory would answer it; and every file of a pass has
its turn, in which it has the inventory that it has alone, if the tree stays as it is where the file
and its imports lead. So it does in a pass unless one of these is looked for below the directory of
the cache. -/
theorem memory_unseen (indexer : Indexer) (tree : FileTree) (fresh : indexer.memory = .empty) :
    (∀ queries : List Resolver.Query,
      ((queries.mapM (Resolver.Query.ask tree)).run indexer.memory).1 =
      queries.map fun query => ((query.ask tree).run .empty).1) ∧
    ∀ paths, (indexer.turns tree paths).map Turn.path = paths ∧
      ∀ turn ∈ indexer.turns tree paths,
        (indexer.LeavesBe tree paths turn →
          turn.inventory = (⟨indexer, tree, turn.path⟩ : Turn).inventory) ∧
        ∀ place, indexer.cache.StandsAt place → ¬place <+: tree.locate turn.path →
          (∀ path ∈ turn.consulted, ¬place <+: tree.locate path) →
          indexer.LeavesBe tree paths turn := by
  have each (query : Resolver.Query) :=
    Resolver.resolve_answers tree query.specifier query.directory query.root
  refine ⟨fun queries => ?_, fun paths => ⟨path_turns indexer tree paths, fun turn ht =>
    ⟨inventory_of_leavesBe fresh ht, fun place => leavesBe_of_standsAt⟩⟩⟩
  rw [fresh]
  refine (Memory.answers_mapM each queries .empty).1.trans (List.map_congr_left fun query _ => ?_)
  exact (each query .empty).1.symm

def siblings : FileTree :=
  ⟨"/", [(["p", "a.ts"], .text "import x from './c';\n"),
    (["p", "q", "d.ts"], .text "import y from '../c';\n")], [["p"], ["p", "q"], ["p", ".inv"]]⟩

def siblingsIndexer : Indexer := .of siblings "/p" [] ".inv" 0

def secondTurn : Turn :=
  ⟨(siblingsIndexer.indexFile siblings "/p/a.ts").2.1,
    (siblingsIndexer.indexFile siblings "/p/a.ts").2.2, "/p/q/d.ts"⟩

theorem memory_unseen_siblings :
    siblingsIndexer.memory = .empty ∧ secondTurn.indexer.memory ≠ .empty ∧
      secondTurn ∈ siblingsIndexer.turns siblings ["/p/a.ts", "/p/q/d.ts"] ∧
      siblingsIndexer.LeavesBe siblings ["/p/a.ts", "/p/q/d.ts"] secondTurn ∧
      secondTurn.inventory = (⟨siblingsIndexer, siblings, "/p/q/d.ts"⟩ : Turn).inventory := by
  have fresh : siblingsIndexer.memory = .empty := rfl
  have second : secondTurn ∈ siblingsIndexer.turns siblings ["/p/a.ts", "/p/q/d.ts"] := by
    rw [turns_cons, turns_cons]
    exact .tail _ (.head _)
  have stands : siblingsIndexer.cache.StandsAt ["p", ".inv"] := ⟨by decide, by decide +kernel⟩
  have looked : secondTurn.indexer.memory ≠ .empty ∧
      ∀ path ∈ secondTurn.consulted, ¬["p", ".inv"] <+: siblings.locate path := by decide +kernel
  obtain ⟨alone, outside⟩ := ((memory_unseen siblingsIndexer siblings fresh).2 _).2 _ second
  have steady := outside _ stands (by decide +kernel) looked.2
  exact ⟨fresh, looked.1, second, steady, alone steady⟩

end Indexer

end EndpointAtlas
