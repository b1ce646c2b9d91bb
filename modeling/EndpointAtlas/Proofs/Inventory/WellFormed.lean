import EndpointAtlas.Proofs.Inventory.Lines
import EndpointAtlas.Proofs.Inventory.Memory
import EndpointAtlas.Proofs.Syntax.Walk

/-!
Well-formed inventories. Main statement: whatever a text reads as, with errors or without, each
range of lines in its inventory is one of the text, functions that variables are bound to are listed
as both, and the lines on which what was imported is used ascend through the text and leave out the
line of the import.
-/

set_option autoImplicit false

namespace EndpointAtlas

structure LineRange.IsIn (source : List Char) (range : LineRange) : Prop where
  ends : range.Both (OnLine source)
  ordered : range.first ≤ range.last

structure Import.WellFormed (source : List Char) (i : Import) : Prop where
  ascending : i.usageLines.Pairwise (· < ·)
  onLines : ∀ line ∈ i.usageLines, OnLine source line
  elsewhere : i.line ∉ i.usageLines
  nameless : i.localName = none → i.usageLines = []
  placed : i.pathExists = true → ∃ path, i.origin.text? = some path ∧ path ≠ externalText

/-- Is a variable with a plain name and a function for its value listed among variables and
functions? -/
def Inventory.ListsFunction (source : List Char) (inventory : Inventory)
    (variable_ : Tree) : Prop :=
  ∀ name, variable_.child? .name = some name → name.kind = .identifier →
    ∀ value, variable_.child? .value = some value → value.isFunctionValue = true →
      ⟨name.text source, variable_.lines source⟩ ∈ inventory.vars ∧
        ⟨name.text source, variable_.lines source⟩ ∈ inventory.functions

/-- Is an inventory in order, as that of a text with its tree? -/
structure Inventory.WellFormed (source : List Char) (tree : Tree)
    (inventory : Inventory) : Prop where
  classes : ∀ d ∈ inventory.classes, d.lines.IsIn source
  functions : ∀ d ∈ inventory.functions, d.lines.IsIn source
  vars : ∀ d ∈ inventory.vars, d.lines.IsIn source
  calls : ∀ c ∈ inventory.calls, c.lines.IsIn source
  functionValues : ∀ node ∈ tree.nodes, node.kind = .declarator →
    inventory.ListsFunction source node
  imports : ∀ i ∈ inventory.imports, i.WellFormed source

theorem Tree.isIn_lines (source : List Char) (tree : Tree) : (tree.lines source).IsIn source :=
  ⟨tree.both_lines source, tree.firstLine_le_lastLine source⟩

/-! ### Lines that ascend -/

theorem pairwise_lt_eraseDups {numbers : List Int} (h : numbers.Pairwise (· ≤ ·)) :
    numbers.eraseDups.Pairwise (· < ·) := by
  induction hn : numbers.length using Nat.strong_induction_on generalizing numbers with
  | _ n ih =>
    cases numbers with
    | nil => simp
    | cons first rest =>
      obtain ⟨least, sorted⟩ := List.pairwise_cons.1 h
      rw [List.eraseDups_cons, List.pairwise_cons]
      have shorter := List.length_filter_le (fun other => !other == first) rest
      refine ⟨fun other ho => ?_, ih _ ?_ (sorted.filter _) rfl⟩
      · obtain ⟨hr, differs⟩ := List.mem_filter.1 (List.mem_eraseDups.1 ho)
        have := least other hr
        simp only [Bool.not_eq_true', beq_eq_false_iff_ne] at differs
        omega
      · simp only [List.length_cons] at hn
        omega

theorem pairwise_ascending (numbers : List Int) : (ascending numbers).Pairwise (· < ·) := by
  have sorted : (numbers.mergeSort (· ≤ ·)).Pairwise fun a b => decide (a ≤ b) = true :=
    List.pairwise_mergeSort (fun a b c hab hbc => by simp only [decide_eq_true_eq] at *; omega)
      (fun a b => by simp only [Bool.or_eq_true, decide_eq_true_eq]; omega) numbers
  exact pairwise_lt_eraseDups (sorted.imp of_decide_eq_true)

theorem Arrival.pairwise_usageLines (arrival : Arrival) (mentions : List Mention) :
    (arrival.usageLines mentions).Pairwise (· < ·) := by
  unfold usageLines
  split
  · exact .nil
  · exact pairwise_ascending _

/-! ### Inventories -/

theorem Resolver.exists_text_of_originExists {files : FileTree} {origin : Origin}
    (h : originExists files origin = true) :
    ∃ path, origin.text? = some path ∧ path ≠ externalText := by
  cases origin with
  | unresolved | external => cases h
  | file path named => exact ⟨path, rfl, named⟩

theorem Arrival.wellFormed_placed {source : List Char} {mentions : List Mention} {arrival : Arrival}
    (range : arrival.lines.IsIn source) (onLines : ∀ m ∈ mentions, OnLine source m.line)
    (files : FileTree)
    (origin : Origin) : (arrival.placed files mentions origin).WellFormed source where
  ascending := arrival.pairwise_usageLines mentions
  onLines line h := by
    obtain ⟨⟨m, hm, -, rfl⟩, -⟩ := mem_usageLines.1 h
    exact onLines m hm
  elsewhere h := by
    have outside := (mem_usageLines.1 h).2
    have inside : arrival.lines.contains arrival.lines.first = true := by
      simp [LineRange.contains, range.ordered]
    exact absurd (inside.symm.trans outside) (by decide)
  nameless unnamed := by
    have : arrival.localName = none := unnamed
    simp [placed, usageLines, this]
  placed := Resolver.exists_text_of_originExists

namespace Tree

variable {source : List Char} {node name : Tree}

theorem plainVariable?_eq (source : List Char) (kind : node.kind = .declarator)
    (named : node.child? .name = some name) (plain : name.kind = .identifier) :
    node.plainVariable? source = some ⟨name.text source, node.lines source⟩ := by
  simp [plainVariable?, declaration?, kind, named, plain]

theorem function?_eq {value : Tree} (kind : node.kind = .declarator)
    (given : node.child? .value = some value) (isFunction : value.isFunctionValue = true) :
    node.function? source = node.plainVariable? source := by
  simp [function?, Tree.isFunction, kind, given, isFunction]

end Tree

namespace Inventory

theorem wellFormed_ofFindings (files : FileTree) (options : ExtractOptions)
    (directory filePath : String)
    (dialect : Dialect) (source : List Char) (tree : Tree) (memory : Memory) :
    ((ofFindings files options directory filePath dialect (.ofTree source tree)).run
      memory).1.WellFormed source
      tree := by
  have ranges : (Findings.ofTree source tree).EachRange (·.IsIn source) :=
    Findings.eachRange_ofTree tree fun node => node.isIn_lines source
  rw [fst_run_ofFindings]
  refine ⟨ranges.classes, ranges.functions, ranges.vars, ranges.calls, ?_, fun i hi => ?_⟩
  · intro node hn kind name named plain value hv isFunction
    have met : node ∈ tree.visits.map (·.tree) := Tree.map_tree_visits tree ▸ hn
    have bound := Tree.plainVariable?_eq source kind named plain
    exact ⟨List.mem_filterMap.2 ⟨node, met, bound⟩,
      List.mem_filterMap.2 ⟨node, met, (Tree.function?_eq kind hv isFunction).trans bound⟩⟩
  · obtain ⟨arrival, ha, rfl⟩ := List.mem_map.1 hi
    exact Arrival.wellFormed_placed (ranges.arrivals arrival ha)
      (Findings.eachLine_ofTree source tree).mentions _ _

/-- Whatever the reading of texts is, and whether it finds errors or not: the inventory of a text is
in order, if there is one. -/
theorem wellFormed_reading {read : Dialect → List Char → Tree} {files : FileTree}
    {options : ExtractOptions}
    {directory filePath source : String} {memory : Memory} {inventory : Inventory}
    (h : ((reading read files options directory filePath source).run memory).1 = .ok inventory) :
    inventory.WellFormed source.toList (read inventory.dialect source.toList) := by
  have formed :=
    wellFormed_ofFindings files options directory filePath inventory.dialect source.toList
    (read inventory.dialect source.toList) memory
  rwa [reading_eq_ok h] at formed

def halfRead : String := "import a from './a';\nlet b: = ;\nconst f = () =>\n  a();\n"

theorem wellFormed_reading_halfRead :
    (parse .javascript halfRead.toList).hasErrors = true ∧
      ∃ inventory,
        ((ofSource (.empty "/") ⟨none, []⟩ "/p" "/p/f.js" halfRead).run .empty).1 = .ok inventory ∧
        inventory.functions = [⟨"f", ⟨3, 4⟩⟩] ∧ inventory.imports.map (·.usageLines) = [[4]] ∧
        inventory.WellFormed halfRead.toList (parse inventory.dialect halfRead.toList) := by
  obtain ⟨inventory, extracted⟩ := exists_ofSource (.empty "/") none "/p" "/p/f.js" halfRead .empty
  have shown :
      (((ofSource (.empty "/") ⟨none, []⟩ "/p" "/p/f.js" halfRead).run .empty).1.toOption.map
        fun inventory =>
      (inventory.functions, inventory.imports.map (·.usageLines))) =
        some ([⟨"f", ⟨3, 4⟩⟩], [[4]]) := by decide +kernel
  rw [extracted] at shown
  obtain ⟨functions, uses⟩ := Prod.mk.inj (Option.some.inj shown)
  exact ⟨by decide +kernel, inventory, extracted, functions, uses, wellFormed_reading extracted⟩

end Inventory

end EndpointAtlas
