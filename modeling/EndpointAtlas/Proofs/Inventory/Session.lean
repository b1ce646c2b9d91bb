import EndpointAtlas.Proofs.Files.Sources
import EndpointAtlas.Proofs.Inventory.Turns

/-!
Passes over a tree that is changed between them. What an indexer remembers of files is not forgotten
from one pass to the next. Main statement: a file has the inventory that a new indexer makes of it,
but for relative imports that what is remembered leads elsewhere than the tree does; and what is
remembered is what the tree had in an earlier turn.
-/

set_option autoImplicit false

namespace EndpointAtlas

structure IndexerConfig where
  root : String
  ignored : List String
  cacheDirName : String
  maxFileSize : Nat

def IndexerConfig.indexer (config : IndexerConfig) (tree : FileTree) : Indexer :=
  .of tree config.root config.ignored config.cacheDirName config.maxFileSize

def Indexer.pass (indexer : Indexer) (tree : FileTree) : List Turn :=
  match indexer.cache.prepare tree with
  | .error _ => []
  | .ok wide =>
    match wide.sources indexer.root indexer.ignored with
    | .error _ => []
    | .ok files => { indexer with files := files }.turns wide files

/-- An indexer that is open, and the tree as it stands. -/
structure Session where
  indexer : Indexer
  tree : FileTree

namespace Session

/-- What happens while an indexer is open: the tree is changed, or a pass is made. -/
inductive Event where
  | write (path : String) (content : Content)
  | makeDirectory (path : String)
  | remove (path : String)
  | index

def after (session : Session) : Event → Session
  | .write path content =>
    { session with tree := (session.tree.write path content).toOption.getD session.tree }
  | .makeDirectory path =>
    { session with tree := (session.tree.makeDirectory path).toOption.getD session.tree }
  | .remove path => { session with tree := session.tree.remove path }
  | .index =>
    let (_, indexer, tree) := session.indexer.indexDirectory session.tree
    ⟨indexer, tree⟩

def turnsOf (session : Session) : Event → List Turn
  | .index => session.indexer.pass session.tree
  | _ => []

def turns (session : Session) : List Event → List Turn
  | [] => []
  | event :: rest => session.turnsOf event ++ (session.after event).turns rest

end Session

namespace Indexer

theorem reached_indexFiles (indexer : Indexer) (tree : FileTree) (paths : List String) :
    Reached indexer tree (indexer.turns tree paths) (indexer.indexFiles tree paths).2.1
      (indexer.indexFiles tree paths).2.2 := by
  induction paths generalizing indexer tree with
  | nil => exact .of_memory rfl rfl
  | cons path rest ih => exact (reached_indexFile indexer tree path).trans (ih _ _)

theorem reached_indexDirectory (indexer : Indexer) (tree : FileTree) :
    Reached indexer tree (indexer.pass tree) (indexer.indexDirectory tree).2.1
      (indexer.indexDirectory tree).2.2 := by
  unfold pass indexDirectory
  cases hp : indexer.cache.prepare tree with
  | error cause => exact .of_memory rfl rfl
  | ok wide =>
    have current : wide.current = tree.current := (FileTree.makeDirectory_eq_ok hp).1.current
    simp only
    cases wide.sources indexer.root indexer.ignored with
    | error cause => exact .of_memory rfl current
    | ok files =>
      have start : Reached indexer tree [] { indexer with files := files } wide :=
        .of_memory rfl current
      exact start.trans (reached_indexFiles _ wide files)

theorem reached_of_mem_pass {indexer : Indexer} {tree : FileTree} {turn : Turn}
    (h : turn ∈ indexer.pass tree) :
    Reached indexer tree (indexer.pass tree) turn.indexer turn.tree := by
  unfold pass at h ⊢
  cases hp : indexer.cache.prepare tree with
  | error cause =>
    rw [hp] at h
    cases h
  | ok wide =>
    have current : wide.current = tree.current := (FileTree.makeDirectory_eq_ok hp).1.current
    rw [hp] at h
    simp only at h ⊢
    cases hs : wide.sources indexer.root indexer.ignored with
    | error cause =>
      rw [hs] at h
      cases h
    | ok files =>
      rw [hs] at h
      have start : Reached indexer tree [] { indexer with files := files } wide :=
        .of_memory rfl current
      exact start.trans (reached_of_mem_turns h)

end Indexer

namespace Session

theorem current_getD {tree : FileTree} (change : Except FileError FileTree)
    (h : ∀ later, change = .ok later → later.current = tree.current) :
    (change.toOption.getD tree).current = tree.current := by
  cases change with
  | error cause => rfl
  | ok later => exact h later rfl

theorem reached_after (session : Session) (event : Event) :
    Indexer.Reached session.indexer session.tree (session.turnsOf event)
      (session.after event).indexer
      (session.after event).tree := by
  cases event with
  | write path content =>
    simp only [after]
    exact .of_memory rfl (current_getD _
      fun later hw => by rw [(FileTree.write_eq_ok hw).1, FileTree.put])
  | makeDirectory path =>
    simp only [after]
    exact .of_memory rfl (current_getD _ fun later hm =>
      (FileTree.makeDirectory_eq_ok hm).1.current)
  | remove path => exact .of_memory rfl rfl
  | index => exact session.indexer.reached_indexDirectory session.tree

theorem reached_of_mem_turns {session : Session} {events : List Event} {turn : Turn}
    (h : turn ∈ session.turns events) :
    Indexer.Reached session.indexer session.tree (session.turns events) turn.indexer turn.tree := by
  induction events generalizing session with
  | nil => cases h
  | cons event rest ih =>
    rw [turns] at h ⊢
    rcases List.mem_append.1 h with h | h
    · cases event with
      | index => exact (Indexer.reached_of_mem_pass h).trans (.of_memory rfl rfl)
      | write | makeDirectory | remove => cases h
    · exact (session.reached_after event).trans (ih h)

end Session

/-! ### New indexers -/

/-- The turn as it is with a new indexer. -/
def Turn.renewed (turn : Turn) (config : IndexerConfig) : Turn :=
  ⟨config.indexer turn.tree, turn.tree, turn.path⟩

def Inventory.unplaced (inventory : Inventory) : Inventory :=
  { inventory with
    imports := inventory.imports.map fun import_ =>
      if Resolver.isRelative import_.source then
        { import_ with origin := .unresolved, pathExists := false }
      else import_ }

namespace Resolver

variable {tree : FileTree} {specifier directory : String} {root : Option String}
  {believed believed' : String → Bool}

theorem origin_of_not_isRelative (bare : isRelative specifier = false) :
    origin tree specifier directory root believed =
      origin tree specifier directory root believed' := by
  unfold origin
  simp only [bare, Bool.false_eq_true, if_false]

theorem origin_eq_iff_lead :
    origin tree specifier directory root believed = origin tree specifier directory root believed' ↔
      (isRelative specifier = true → lead tree.current directory specifier believed =
        lead tree.current directory specifier believed') := by
  cases hr : isRelative specifier with
  | false => exact iff_of_true (origin_of_not_isRelative hr) fun h => nomatch h
  | true =>
    simp only [origin, hr, if_true, forall_const]
    exact ⟨fun h => by simpa using congrArg Origin.text? h, fun h => by rw [h]⟩

end Resolver

theorem Arrival.placed_inj {tree : FileTree} {mentions : List Mention} {arrival : Arrival}
    {origin other : Origin} :
    arrival.placed tree mentions origin = arrival.placed tree mentions other ↔ origin = other :=
  ⟨fun h => congrArg Import.origin h, fun h => by rw [h]⟩

namespace Inventory

variable {tree : FileTree} {options : ExtractOptions} {directory filePath : String}
  {dialect : Dialect} {found : Findings} {believed believed' : String → Bool}

theorem listed_eq_iff :
    listed tree options directory filePath dialect found believed =
        listed tree options directory filePath dialect found believed' ↔
      ∀ arrival ∈ found.arrivals, Resolver.isRelative arrival.source = true →
        Resolver.lead tree.current directory arrival.source believed =
          Resolver.lead tree.current directory arrival.source believed' := by
  rw [listed, listed, Inventory.mk.injEq]
  simp only [true_and, List.map_inj_left, Arrival.placed_inj, Resolver.origin_eq_iff_lead]

theorem unplaced_listed :
    (listed tree options directory filePath dialect found believed).unplaced =
      (listed tree options directory filePath dialect found believed').unplaced := by
  rw [unplaced, unplaced, listed, listed, Inventory.mk.injEq]
  refine ⟨rfl, rfl, rfl, rfl, rfl, rfl, ?_⟩
  simp only [List.map_map]
  refine List.map_congr_left fun arrival _ => ?_
  simp only [Function.comp_apply, Arrival.placed]
  cases hr : Resolver.isRelative arrival.source with
  | true => rfl
  | false => rw [Resolver.origin_of_not_isRelative hr]

end Inventory

namespace Turn

variable {turn : Turn} {config : IndexerConfig}

theorem options_renewed {tree : FileTree} {seen : List Turn}
    (h : Indexer.Reached (config.indexer tree) tree seen turn.indexer turn.tree) :
    (turn.renewed config).indexer.options = turn.indexer.options := by
  rw [h.options, renewed, IndexerConfig.indexer, IndexerConfig.indexer, Indexer.options,
    Indexer.options, Indexer.of, Indexer.of, FileTree.resolve, FileTree.resolve, h.current]

theorem inventory_renewed (same : (turn.renewed config).indexer.options = turn.indexer.options) :
    (turn.renewed config).inventory = turn.shown.map fun (dialect, found) =>
      Inventory.listed turn.tree turn.indexer.options
        (Path.parent turn.path) turn.path dialect found
        turn.tree.isFile := by
  have shown : (turn.renewed config).shown = turn.shown := by
    rw [Turn.shown, Turn.shown, same]
    rfl
  rw [inventory_eq, shown, same]
  rfl

/-- Does what is remembered lead every relative import of the file to where the tree leads it? -/
def LedByTree (turn : Turn) : Prop :=
  ∀ arrival ∈ turn.arrivals, Resolver.isRelative arrival.source = true →
    Resolver.lead turn.tree.current (Path.parent turn.path) arrival.source
        (turn.indexer.memory.believes turn.tree) =
      Resolver.lead turn.tree.current (Path.parent turn.path) arrival.source turn.tree.isFile

instance (turn : Turn) : Decidable turn.LedByTree := inferInstanceAs (Decidable (∀ _ ∈ _, _))

theorem inventory_eq_iff (same : (turn.renewed config).indexer.options = turn.indexer.options) :
    turn.inventory = (turn.renewed config).inventory ↔ turn.LedByTree := by
  rw [inventory_renewed same, inventory_eq]
  unfold LedByTree arrivals
  cases turn.shown with
  | error fault => simp only [Except.map, List.not_mem_nil, false_implies, implies_true]
  | ok shown => simp only [Except.map, Except.ok.injEq, Inventory.listed_eq_iff]

theorem unplaced_inventory (same : (turn.renewed config).indexer.options = turn.indexer.options) :
    turn.inventory.map Inventory.unplaced =
      (turn.renewed config).inventory.map Inventory.unplaced := by
  rw [inventory_renewed same, inventory_eq]
  cases turn.shown with
  | error fault => simp only [Except.map]
  | ok shown =>
    simp only [Except.map]
    exact congrArg Except.ok Inventory.unplaced_listed

end Turn

namespace Session

/-- What an indexer makes of a file, in whichever pass and however the tree was changed before,
against what a new indexer makes of it. Both are equal exactly if what is remembered leads every
relative import to where the tree does, as when the tree has at every path where one is looked for
what it had in all turns; both agree but for where relative imports lead; and what is remembered is
what the tree had in some turn. -/
theorem inventory_eq_renewed_iff (config : IndexerConfig) (tree : FileTree) (events : List Event) :
    ∀ turn ∈ turns ⟨config.indexer tree, tree⟩ events,
      (turn.inventory = (turn.renewed config).inventory ↔ turn.LedByTree) ∧
      ((∀ other ∈ turns ⟨config.indexer tree, tree⟩ events, ∀ path ∈ turn.consulted,
          other.tree.isFile path = turn.tree.isFile path) →
        turn.inventory = (turn.renewed config).inventory) ∧
      turn.inventory.map Inventory.unplaced =
        (turn.renewed config).inventory.map Inventory.unplaced ∧
      ∀ path answer, turn.indexer.memory.known.lookup path = some answer →
        ∃ other ∈ turns ⟨config.indexer tree, tree⟩ events, other.tree.isFile path = answer := by
  intro turn h
  have reached := reached_of_mem_turns h
  have known : ∀ path answer, turn.indexer.memory.known.lookup path = some answer →
      ∃ other ∈ turns ⟨config.indexer tree, tree⟩ events, other.tree.isFile path = answer :=
    fun path answer hk => (reached.known path answer hk).resolve_left
      (by simp [IndexerConfig.indexer, Indexer.of, Memory.empty])
  have same := Turn.options_renewed reached
  have iff := turn.inventory_eq_iff same
  -- The condition on the tree comes down to the one on leads: each candidate is believed to be what
  -- it is.
  refine ⟨iff, fun steady => iff.2 fun arrival ha relative => ?_,
    Turn.unplaced_inventory same, known⟩
  rw [Resolver.lead, Resolver.lead, List.find?_congr fun path hp => ?_]
  have consulted : path ∈ turn.consulted := by
    refine List.mem_flatMap.2 ⟨arrival, ha, ?_⟩
    rwa [Resolver.consulted, if_pos relative]
  unfold Memory.believes
  cases hk : turn.indexer.memory.known.lookup path with
  | none => rfl
  | some answer =>
    obtain ⟨other, ho, seen⟩ := known path answer hk
    rw [← steady other ho path consulted, seen]
    rfl

def cachePlace (session : Session) : Location := session.tree.locate session.indexer.cache.directory

def HasOnly (session : Session) (file : String) : Prop :=
  (session.tree.hasFile session.cachePlace = false ∧
    session.tree.blocked session.cachePlace = false ∧
      FileTree.tooLong session.cachePlace = false ∧
      ∀ start ∈ Path.beginnings session.cachePlace, session.tree.hasDirectory start = true) ∧
    session.tree.hasFile (session.tree.locate session.indexer.root) = false ∧
    (session.tree.files.filterMap fun (location, _) =>
      if (session.tree.locate session.indexer.root).isPrefixOf location &&
          FileTree.isWanted session.indexer.ignored
            (location.drop (session.tree.locate session.indexer.root).length) then
        some (FileTree.pathOf location)
      else none) = [file]

instance (session : Session) (file : String) : Decidable (session.HasOnly file) :=
  inferInstanceAs (Decidable (_ ∧ _ ∧ _))

theorem HasOnly.index {session : Session} {file : String} (h : session.HasOnly file) :
    session.turnsOf .index = [⟨{ session.indexer with files := [file] }, session.tree, file⟩] ∧
      session.after .index =
        ⟨({ session.indexer with files := [file] }.indexFile session.tree file).2.1,
          ({ session.indexer with files := [file] }.indexFile session.tree file).2.2⟩ := by
  obtain ⟨⟨noCache, open_, short, stands⟩, noFile, wanted⟩ := h
  have prepared : session.indexer.cache.prepare session.tree = .ok session.tree :=
    FileTree.makeDirectory_eq_ok_iff.2
      ⟨noCache, open_, short, FileTree.foldl_addDirectory_of_hasDirectory stands⟩
  have listed : session.tree.sources session.indexer.root session.indexer.ignored = .ok [file] := by
    rw [FileTree.sources_eq]
    simp only [noFile, Bool.false_eq_true, if_false]
    exact congrArg Except.ok (List.perm_singleton.1 ((Text.sorted_perm _).trans (.of_eq wanted)))
  constructor
  · simp only [turnsOf, Indexer.pass, prepared, listed]
    rfl
  · simp only [after, Indexer.indexDirectory, prepared, listed]
    rfl

def awaiting : FileTree :=
  ⟨"/", [(["p", "a.ts"], .text "import './gen/b';\n")], [["p"], ["p", "gen"], ["p", ".inv"]]⟩

def awaitingConfig : IndexerConfig := ⟨"/p", ["gen"], ".inv", 0⟩

def arrived : Session :=
  after ⟨({ awaitingConfig.indexer awaiting with
      files := ["/p/a.ts"] }.indexFile awaiting "/p/a.ts").2.1,
      ({ awaitingConfig.indexer awaiting with
          files := ["/p/a.ts"] }.indexFile awaiting "/p/a.ts").2.2⟩
    (.write "/p/gen/b.ts" (.text ""))

def staleTurn : Turn := ⟨{ arrived.indexer with files := ["/p/a.ts"] }, arrived.tree, "/p/a.ts"⟩

theorem inventory_eq_renewed_iff_stale :
    staleTurn ∈ turns ⟨awaitingConfig.indexer awaiting, awaiting⟩
        [.index, .write "/p/gen/b.ts" (.text ""), .index] ∧
      staleTurn.inventory ≠ (staleTurn.renewed awaitingConfig).inventory := by
  have first : HasOnly ⟨awaitingConfig.indexer awaiting, awaiting⟩ "/p/a.ts" := by decide +kernel
  have last : arrived.HasOnly "/p/a.ts" ∧ ¬staleTurn.LedByTree := by decide +kernel
  have turn : staleTurn ∈ turns ⟨awaitingConfig.indexer awaiting, awaiting⟩
      [.index, .write "/p/gen/b.ts" (.text ""), .index] := by
    rw [turns, turns, first.index.2]
    refine List.mem_append_right _ (List.mem_append_right _ ?_)
    rw [← arrived, turns, last.1.index.1]
    exact List.mem_append_left _ (List.mem_singleton_self _)
  exact ⟨turn, fun same =>
    last.2 ((inventory_eq_renewed_iff awaitingConfig awaiting _ staleTurn turn).1.1 same)⟩

end Session

end EndpointAtlas
