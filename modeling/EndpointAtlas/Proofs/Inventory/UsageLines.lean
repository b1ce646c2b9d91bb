import EndpointAtlas.Proofs.Inventory.Lines
import EndpointAtlas.Proofs.Inventory.Memory
import EndpointAtlas.Proofs.Syntax.Walk

/-!
The lines on which imported names are used. Main statement: an import lists the lines that use its
name, less those of the whole statement that binds the name; so a use that stands beside the
binding variable in one statement with it, on lines of its own, is missing, and nothing else is.
-/

set_option autoImplicit false

namespace EndpointAtlas

namespace Tree

/-- Does a node use a name, in the grammar of a dialect? Names of types are apart from others where
there are types. -/
def Uses (dialect : Dialect) (source : List Char) (name : String) (node : Tree) : Prop :=
  (node.kind = .identifier ∨ node.kind = .shorthand ∨ dialect.isTyped = true ∧
    node.kind = .typeName) ∧ node.text source = name

instance (dialect : Dialect) (source : List Char) (name : String) (node : Tree) :
    Decidable (node.Uses dialect source name) := inferInstanceAs (Decidable (_ ∧ _))

def UsedOn (dialect : Dialect) (source : List Char) (tree : Tree) (name : String)
    (line : Int) : Prop :=
  ∃ node ∈ tree.nodes, node.Uses dialect source name ∧ node.firstLine source = line

instance (dialect : Dialect) (source : List Char) (tree : Tree) (name : String) (line : Int) :
    Decidable (tree.UsedOn dialect source name line) := inferInstanceAs (Decidable (∃ _ ∈ _, _))

/-- The declaration of what a visited node brings in: the variable, or else the import statement. -/
def Visit.declaration (visit : Visit) : Tree :=
  if visit.tree.kind = .declarator then visit.tree else visit.statement

/-- All that a file brings in, each time with the visit to the node that does so. -/
def broughtIn (source : List Char) (tree : Tree) : List (Visit × Arrival) :=
  tree.visits.flatMap fun visit => (arrivals source visit).map fun arrival => (visit, arrival)

variable {dialect : Dialect} {source : List Char} {tree : Tree} {name : String} {line : Int}

theorem mention?_eq_some (untyped : dialect.isTyped = false → tree.kind ≠ .typeName) {m : Mention} :
    tree.mention? source = some m ↔ tree.Uses dialect source m.name ∧
    tree.firstLine source = m.line := by
  have kinds : (tree.kind = .identifier ∨ tree.kind = .shorthand ∨ tree.kind = .typeName) ↔
      (tree.kind = .identifier ∨ tree.kind = .shorthand ∨ dialect.isTyped = true ∧
        tree.kind = .typeName) := by
    cases typed : dialect.isTyped with
    | true => simp
    | false => simp [untyped typed]
  obtain ⟨spelled, on⟩ := m
  rw [mention?, Option.ite_none_right_eq_some, Option.some.injEq, Mention.mk.injEq, kinds,
    Uses, and_assoc]

theorem usedOn_iff (untyped : dialect.isTyped = false → ∀ node ∈ tree.nodes,
    node.kind ≠ .typeName) :
    tree.UsedOn dialect source name line ↔
      ∃ m ∈ (Findings.ofTree source tree).mentions, m.name = name ∧ m.line = line := by
  have listed : (Findings.ofTree source tree).mentions =
      tree.nodes.filterMap (·.mention? source) := by
    rw [← map_tree_visits]
    rfl
  rw [listed]
  constructor
  · rintro ⟨node, hn, uses, on⟩
    have mentioned :=
      (mention?_eq_some (m := ⟨name, line⟩) fun plain => untyped plain node hn).2 ⟨uses, on⟩
    exact ⟨⟨name, line⟩, List.mem_filterMap.2 ⟨node, hn, mentioned⟩, rfl, rfl⟩
  · rintro ⟨m, hm, rfl, rfl⟩
    obtain ⟨node, hn, mentioned⟩ := List.mem_filterMap.1 hm
    exact ⟨node, hn, (mention?_eq_some fun plain => untyped plain node hn).1 mentioned⟩

theorem map_arrival_broughtIn (source : List Char) (tree : Tree) :
    (tree.broughtIn source).map (·.2) = (Findings.ofTree source tree).arrivals := by
  rw [broughtIn, List.map_flatMap]
  refine List.flatMap_congr fun visit _ => ?_
  rw [List.map_map]
  exact List.map_id _

theorem lines_of_mem_broughtIn {home : Visit × Arrival} (h : home ∈ tree.broughtIn source) :
    home.2.lines = home.1.statement.lines source := by
  obtain ⟨visit, -, hv⟩ := List.mem_flatMap.1 h
  obtain ⟨arrival, ha, rfl⟩ := List.mem_map.1 hv
  exact lines_of_mem_arrivals ha

end Tree

def Import.ListsUses (dialect : Dialect) (source : List Char) (tree apart : Tree)
    (i : Import) : Prop :=
  ∀ name, i.localName = some name → ∀ line, line ∈ i.usageLines ↔
    tree.UsedOn dialect source name line ∧ (apart.lines source).contains line = false

/-- How the lines that an import lists stand to the node that brings its name in. They are those of
the uses outside of the statement around that node. They are those of all uses outside of the
declaration itself exactly if it is no variable, or every use on a line of the statement is on a
line of the variable as well. -/
structure Import.TellsUses (dialect : Dialect) (source : List Char) (tree : Tree)
    (home : Tree.Visit × Arrival) (i : Import) : Prop where
  localName : i.localName = home.2.localName
  specifier : i.source = home.2.source
  outside : i.ListsUses dialect source tree home.1.statement
  whole : i.ListsUses dialect source tree home.1.declaration ↔
    (home.1.tree.kind = .declarator → ∀ name, i.localName = some name → ∀ line,
      tree.UsedOn dialect source name line →
        (home.1.statement.lines source).contains line = (home.1.tree.lines source).contains line)

namespace Import

variable {dialect : Dialect} {source : List Char} {tree apart : Tree} {i : Import}

/-- An import that lists the uses of its name but for those in one node lists also those but for
another node exactly if no use tells the two apart. -/
theorem ListsUses.iff_of_other (h : i.ListsUses dialect source tree apart) (other : Tree) :
    i.ListsUses dialect source tree other ↔ ∀ name, i.localName = some name → ∀ line,
      tree.UsedOn dialect source name line →
        (apart.lines source).contains line = (other.lines source).contains line := by
  refine forall₂_congr fun name named => forall_congr' fun line => ?_
  rw [h name named line, and_congr_right_iff]
  refine forall_congr' fun _ => ?_
  cases (apart.lines source).contains line <;> cases (other.lines source).contains line <;> simp

end Import

theorem Arrival.listsUses_placed {dialect : Dialect} {source : List Char} {tree statement : Tree}
    {arrival : Arrival}
    (untyped : dialect.isTyped = false → ∀ node ∈ tree.nodes, node.kind ≠ .typeName)
    (within : arrival.lines = statement.lines source) (files : FileTree) (origin : Origin) :
    (arrival.placed files (Findings.ofTree source tree).mentions origin).ListsUses dialect source
      tree statement := by
  intro name named line
  have local_ : arrival.localName = some name := named
  rw [Tree.usedOn_iff untyped, ← within, placed, mem_usageLines, local_]
  simp only [Option.some.injEq, eq_comm (a := name)]

namespace Inventory

theorem tellsUses_ofFindings {dialect : Dialect} (source : List Char) {tree : Tree}
    (untyped : dialect.isTyped = false → ∀ node ∈ tree.nodes, node.kind ≠ .typeName)
    (files : FileTree) (options : ExtractOptions) (directory filePath : String) (memory : Memory) :
    List.Forall₂ (Import.TellsUses dialect source tree) (tree.broughtIn source)
      ((ofFindings files options directory filePath dialect (.ofTree source tree)).run
        memory).1.imports := by
  rw [fst_run_ofFindings, listed, ← Tree.map_arrival_broughtIn, List.map_map,
    List.forall₂_map_right_iff, List.forall₂_same]
  intro home hh
  have lists := Arrival.listsUses_placed untyped (Tree.lines_of_mem_broughtIn hh) files
    (Resolver.origin files home.2.source directory options.root (memory.believes files))
  refine ⟨rfl, rfl, lists, (lists.iff_of_other home.1.declaration).trans ?_⟩
  unfold Tree.Visit.declaration
  by_cases variable_ : home.1.tree.kind = .declarator
  · simp [variable_]
  · simp [variable_]

/-- Whatever the reading of texts is, as long as names of types have a kind of their own only where
there are types: the imports in the inventory of a text are, one by one and in the order of the
text, those that its nodes bring in. Each lists the lines on which its name is used, less the lines
of the statement around its node. No use outside of the declaration itself is lost unless that is
a variable, and then only those that share a statement with it, on other lines. -/
theorem usageLines_eq_uses_iff {read : Dialect → List Char → Tree} {files : FileTree}
    {options : ExtractOptions}
    {directory filePath source : String} {memory : Memory} {inventory : Inventory}
    (h : ((reading read files options directory filePath source).run memory).1 = .ok inventory)
    (untyped : ∀ dialect : Dialect, dialect.isTyped = false →
      ∀ node ∈ (read dialect source.toList).nodes, node.kind ≠ .typeName) :
    List.Forall₂ (Import.TellsUses inventory.dialect source.toList
      (read inventory.dialect source.toList))
      ((read inventory.dialect source.toList).broughtIn source.toList) inventory.imports := by
  have tells := tellsUses_ofFindings source.toList
      (untyped inventory.dialect) files options directory filePath memory
  rwa [reading_eq_ok h] at tells

def besideUse : String := "const m = require('m'),\n  n = m();\nm;\n"

def besideUseTree : Tree := parse .javascript besideUse.toList

theorem usageLines_eq_uses_iff_beside :
    besideUseTree.hasErrors = false ∧ besideUseTree.UsedOn .javascript besideUse.toList "m" 2 ∧
      (∀ dialect : Dialect, dialect.isTyped = false →
        ∀ node ∈ (parse dialect besideUse.toList).nodes, node.kind ≠ .typeName) ∧
      ∃ inventory home i,
        ((ofSource (.empty "/") ⟨none, []⟩ "/p" "/p/a.js" besideUse).run .empty).1 = .ok inventory ∧
        inventory.dialect = .javascript ∧ besideUseTree.broughtIn besideUse.toList = [home] ∧
        inventory.imports = [i] ∧ i.localName = some "m" ∧ i.usageLines = [3] ∧
        i.ListsUses .javascript besideUse.toList besideUseTree home.1.statement ∧
        ¬i.ListsUses .javascript besideUse.toList besideUseTree home.1.declaration := by
  have facts : besideUseTree.hasErrors = false ∧
      besideUseTree.UsedOn .javascript besideUse.toList "m" 2 ∧
      ∀ node ∈ besideUseTree.nodes, node.kind ≠ .typeName := by decide +kernel
  have homes : ((besideUseTree.broughtIn besideUse.toList).map fun home =>
      (home.1.tree.kind, home.1.statement.lines besideUse.toList,
        home.1.tree.lines besideUse.toList,
        home.2.localName)) = [(.declarator, ⟨1, 2⟩, ⟨1, 1⟩, some "m")] := by decide +kernel
  obtain ⟨inventory, extracted⟩ := exists_ofSource (.empty "/") none "/p" "/p/a.js" besideUse .empty
  have shown :
      (((ofSource (.empty "/") ⟨none, []⟩ "/p" "/p/a.js" besideUse).run .empty).1.toOption.map
        fun inventory =>
      (inventory.dialect, inventory.imports.map (·.usageLines))) =
        some (.javascript, [[3]]) := by decide +kernel
  rw [extracted] at shown
  obtain ⟨dialect, lines⟩ := Prod.mk.inj (Option.some.inj shown)
  obtain ⟨clean, used, plain⟩ := facts
  have untyped : ∀ dialect : Dialect, dialect.isTyped = false →
      ∀ node ∈ (parse dialect besideUse.toList).nodes, node.kind ≠ .typeName := by
    intro dialect isUntyped
    cases dialect with
    | javascript => exact plain
    | typescript | tsx => cases isUntyped
  have each := usageLines_eq_uses_iff extracted untyped
  rw [dialect] at each
  obtain ⟨home, hh, shape⟩ := List.map_eq_singleton_iff.1 homes
  obtain ⟨i, hi, listed⟩ := List.map_eq_singleton_iff.1 lines
  simp only [Prod.mk.injEq] at shape
  obtain ⟨kind, around, own, named⟩ := shape
  rw [show (parse .javascript besideUse.toList).broughtIn besideUse.toList = [home] from hh,
    hi] at each
  cases each with
  | cons first _ =>
    have bound := first.localName.trans named
    refine ⟨clean, used, untyped, inventory, home, i, extracted, dialect, hh, hi, bound, listed,
      first.outside, fun all => ?_⟩
    have alike := first.whole.1 all kind "m" bound 2 used
    rw [around, own] at alike
    exact absurd alike (by decide)

end Inventory

end EndpointAtlas
