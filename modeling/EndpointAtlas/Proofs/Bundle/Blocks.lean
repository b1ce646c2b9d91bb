import EndpointAtlas.Proofs.Bundle.Closure
import EndpointAtlas.Proofs.Bundle.Lines
import EndpointAtlas.Proofs.Inventory.Holdings

/-!
The blocks of a bundle. Main statement: as long as the inventories keep to the lines of their files,
a bundle holds every dependency outside of the handler in one block, no lines twice, and what
each import brings in, all as it stands in the files.
-/

set_option autoImplicit false

namespace EndpointAtlas

/-! ### What the search for dependencies gives -/

namespace Dependency

variable {inventory : Inventory} {e : Endpoint}

namespace Search

theorem forall_found_step {p : Dependency → Prop} {search : Search}
    (h : ∀ d ∈ search.found, p d) (new : ∀ call, p (ofCall inventory call)) :
    ∀ d ∈ (search.step inventory).found, p d := by
  obtain ⟨found, pending⟩ := search
  cases pending with
  | nil => exact h
  | cons call rest =>
    by_cases hs : (ofCall inventory call).declaration ∈ found.map declaration
    · rw [step_seen hs]
      exact h
    · rw [step_new hs]
      simpa using ⟨new call, h⟩

theorem forall_found_iterate {p : Dependency → Prop} {search : Search}
    (h : ∀ d ∈ search.found, p d) (new : ∀ call, p (ofCall inventory call)) (n : Nat) :
    ∀ d ∈ ((step inventory)^[n] search).found, p d := by
  induction n generalizing search with
  | zero => exact h
  | succ n ih => exact ih (forall_found_step h new)

end Search

theorem Reached.mem_functions {d : Declaration} (h : Reached inventory e d) :
    d ∈ inventory.functions := by
  cases h with
  | handler _ hd => exact List.mem_of_mem_filter (choose_mem hd)
  | called _ _ _ hd => exact List.mem_of_mem_filter (choose_mem hd)
  | within _ _ _ _ hd => exact List.mem_of_mem_filter (choose_mem hd)

theorem mem_all {d : Dependency} (h : d ∈ all inventory e) :
    d.filePath = inventory.filePath ∧ d.declaration ∈ inventory.functions := by
  obtain ⟨-, n, -, hn⟩ := Search.finish_eq_iterate inventory (Search.start inventory e)
  have inv := Search.invariant_iterate (Search.invariant_start inventory e) n
  have hfound : d ∈ ((Search.step inventory)^[n] (Search.start inventory e)).found := by
    rw [hn]
    simpa [all] using h
  constructor
  · exact Search.forall_found_iterate (p := fun d => d.filePath = inventory.filePath)
      (by simp [Search.start]) (fun _ => rfl) n d hfound
  · exact (inv.sound _ (List.mem_map_of_mem hfound)).mem_functions

end Dependency

theorem Snapshot.mem_of_find? {inventories : List Inventory} {path : String}
    {inventory : Inventory} (h : (ofList inventories).find? path = some inventory) :
    inventory ∈ inventories ∧ inventory.filePath = path := by
  induction inventories using List.reverseRecOn with
  | nil => cases h
  | append_singleton rest last ih =>
    rw [find?_ofList_concat] at h
    split at h
    · cases h
      exact ⟨by simp, by assumption⟩
    · exact ⟨List.mem_append_left _ (ih h).1, (ih h).2⟩

namespace Bundle

variable {files : FileTree} {snapshot : Snapshot} {e : Endpoint}

/-! ### Lines -/

/-- Lines are those of a range of a file that can be read. -/
def AreIn (files : FileTree) (path : String) (range : LineRange) (lines : List String) : Prop :=
  ∃ all, linesOf files path = some all ∧ AreLines all range lines

theorem AreLines.unique {all lines other : List String} {range : LineRange}
    (h : AreLines all range lines) (ho : AreLines all range other) : lines = other := by
  have hlength : lines.length = other.length := by
    have := h.count
    have := ho.count
    omega
  refine List.ext_getElem? fun k => ?_
  by_cases hk : k < lines.length
  · rw [h.literal k hk, ho.literal k (hlength ▸ hk)]
  · rw [List.getElem?_eq_none (by omega), List.getElem?_eq_none (by omega)]

theorem AreIn.unique {path : String} {lines other : List String} {range : LineRange}
    (h : AreIn files path range lines) (ho : AreIn files path range other) : lines = other := by
  obtain ⟨all, hall, h⟩ := h
  obtain ⟨every, hevery, ho⟩ := ho
  rw [hall] at hevery
  cases hevery
  exact h.unique ho

/-- An inventory keeps to the lines of its file: what it declares stands on lines of it. -/
def KeepsToFile (files : FileTree) (inventory : Inventory) : Prop :=
  ∀ d ∈ inventory.classes ++ inventory.functions ++ inventory.vars,
    ∃ all, linesOf files inventory.filePath = some all ∧ 1 ≤ d.lines.first ∧
      d.lines.first ≤ d.lines.last ∧ d.lines.last ≤ all.length

theorem KeepsToFile.spanIn {inventory : Inventory} (h : KeepsToFile files inventory)
    {d : Declaration} (hd : d ∈ inventory.classes ++ inventory.functions ++ inventory.vars) :
    ∃ lines, spanIn files inventory.filePath d.lines = some lines ∧
      AreIn files inventory.filePath d.lines lines := by
  obtain ⟨all, hall, hf, ho, hl⟩ := h d hd
  exact ⟨_, spanIn_eq_some hall hf ho hl, all, hall, areLines_cut hf ho hl⟩

/-! ### Dependencies -/

section outside

variable {seen : List LineRange} {dependencies : List Dependency} {d : Dependency}

theorem outside_sublist (e : Endpoint) (seen : List LineRange) (dependencies : List Dependency) :
    (outside e seen dependencies).Sublist dependencies := by
  fun_induction outside e seen dependencies with
  | case1 => exact .slnil
  | case2 seen d rest hc ih => exact ih.cons d
  | case3 seen d rest hc hs ih => exact ih.cons d
  | case4 seen d rest hc hs ih => exact ih.cons_cons d

theorem not_inside_of_mem_outside (h : d ∈ outside e seen dependencies) :
    ¬(d.filePath = e.filePath ∧ e.lines.covers d.lines = true) := by
  fun_induction outside e seen dependencies with
  | case1 => cases h
  | case2 seen first rest hc ih => exact ih h
  | case3 seen first rest hc hs ih => exact ih h
  | case4 seen first rest hc hs ih =>
    rcases List.mem_cons.1 h with rfl | h
    · exact hc
    · exact ih h

theorem not_mem_seen_of_mem_outside (h : d ∈ outside e seen dependencies) : d.lines ∉ seen := by
  fun_induction outside e seen dependencies with
  | case1 => cases h
  | case2 seen first rest hc ih => exact ih h
  | case3 seen first rest hc hs ih => exact ih h
  | case4 seen first rest hc hs ih =>
    rcases List.mem_cons.1 h with rfl | h
    · simpa using hs
    · exact fun hd => ih h (List.mem_cons_of_mem _ hd)

theorem nodup_lines_outside (e : Endpoint) (seen : List LineRange)
    (dependencies : List Dependency) : ((outside e seen dependencies).map (·.lines)).Nodup := by
  fun_induction outside e seen dependencies with
  | case1 => exact List.nodup_nil
  | case2 seen first rest hc ih => exact ih
  | case3 seen first rest hc hs ih => exact ih
  | case4 seen first rest hc hs ih =>
    refine List.nodup_cons.2 ⟨fun hmem => ?_, ih⟩
    obtain ⟨other, ho, hl⟩ := List.mem_map.1 hmem
    exact not_mem_seen_of_mem_outside ho (by simp [hl])

theorem exists_mem_outside (e : Endpoint) (seen : List LineRange) (h : d ∈ dependencies) :
    (d.filePath = e.filePath ∧ e.lines.covers d.lines = true) ∨ d.lines ∈ seen ∨
      ∃ other ∈ outside e seen dependencies, other.lines = d.lines := by
  fun_induction outside e seen dependencies with
  | case1 => cases h
  | case2 seen first rest hc ih =>
    rcases List.mem_cons.1 h with rfl | h
    · exact .inl hc
    · exact ih h
  | case3 seen first rest hc hs ih =>
    rcases List.mem_cons.1 h with rfl | h
    · exact .inr (.inl (by simpa using hs))
    · exact ih h
  | case4 seen first rest hc hs ih =>
    rcases List.mem_cons.1 h with rfl | h
    · exact .inr (.inr ⟨d, List.mem_cons_self, rfl⟩)
    · rcases ih h with hin | hseen | ⟨other, ho, hl⟩
      · exact .inl hin
      · rcases List.mem_cons.1 hseen with heq | hseen
        · exact .inr (.inr ⟨first, List.mem_cons_self, heq.symm⟩)
        · exact .inr (.inl hseen)
      · exact .inr (.inr ⟨other, List.mem_cons_of_mem _ ho, hl⟩)

end outside

/-- The dependency blocks of a bundle: they are of needed dependencies, hold their lines as they
stand in the file, lie outside of the handler and share no span, and every needed dependency outside
of the handler has one. -/
structure HasDependencies (files : FileTree) (e : Endpoint) (needed : List Dependency)
    (blocks : List DependencyBlock) : Prop where
  ofNeeded : ∀ b ∈ blocks, b.dependency ∈ needed
  literal : ∀ b ∈ blocks, AreIn files b.dependency.filePath b.dependency.lines b.lines
  apart : ∀ b ∈ blocks, e.lines.covers b.dependency.lines = false
  distinct : (blocks.map (·.dependency.lines)).Nodup
  complete : ∀ d ∈ needed, e.lines.covers d.lines = true ∨
    ∃! b, b ∈ blocks ∧ b.dependency.filePath = d.filePath ∧ b.dependency.lines = d.lines

section blocksFor

variable {needed : List Dependency}

theorem mem_blocksFor {b : DependencyBlock} :
    b ∈ blocksFor files e needed ↔ b.dependency ∈ outside e [] needed ∧
      spanIn files b.dependency.filePath b.dependency.lines = some b.lines := by
  simp only [blocksFor, List.mem_filterMap, Option.map_eq_some_iff]
  constructor
  · rintro ⟨d, hd, lines, hl, rfl⟩
    exact ⟨hd, hl⟩
  · rintro ⟨hd, hl⟩
    exact ⟨_, hd, _, hl, rfl⟩

theorem map_dependency_filterMap {f : Dependency → Option (List String)}
    (dependencies : List Dependency) (h : ∀ d ∈ dependencies, ∃ lines, f d = some lines) :
    (dependencies.filterMap fun d => (f d).map (DependencyBlock.mk d ·)).map (·.dependency) =
      dependencies := by
  induction dependencies with
  | nil => rfl
  | cons d rest ih =>
    obtain ⟨lines, hl⟩ := h d List.mem_cons_self
    simp [hl, ih fun other ho => h other (List.mem_cons_of_mem _ ho)]

theorem hasDependencies_blocksFor (ofFile : ∀ d ∈ needed, d.filePath = e.filePath)
    (readable : ∀ d ∈ needed, ∃ lines, spanIn files d.filePath d.lines = some lines ∧
      AreIn files d.filePath d.lines lines) :
    HasDependencies files e needed (blocksFor files e needed) := by
  have hneeded : ∀ d ∈ outside e [] needed, d ∈ needed := (outside_sublist e [] needed).subset
  have hmap : (blocksFor files e needed).map (·.dependency) = outside e [] needed :=
    map_dependency_filterMap _ fun d hd => (readable d (hneeded d hd)).imp fun _ h => h.1
  have hdistinct : ((blocksFor files e needed).map (·.dependency.lines)).Nodup := by
    have := nodup_lines_outside e [] needed
    rw [← hmap, List.map_map] at this
    exact this
  refine ⟨fun b hb => hneeded _ (mem_blocksFor.1 hb).1, fun b hb => ?_, fun b hb => ?_, hdistinct,
    fun d hd => ?_⟩
  · obtain ⟨hd, hl⟩ := mem_blocksFor.1 hb
    obtain ⟨lines, hlines, hin⟩ := readable _ (hneeded _ hd)
    rw [hl] at hlines
    cases hlines
    exact hin
  · have hd := (mem_blocksFor.1 hb).1
    simpa [ofFile _ (hneeded _ hd)] using not_inside_of_mem_outside hd
  · rcases exists_mem_outside e [] hd with hin | hseen | ⟨other, ho, hl⟩
    · exact .inl hin.2
    · cases hseen
    · obtain ⟨lines, hlines, -⟩ := readable other (hneeded other ho)
      have hfile : other.filePath = d.filePath :=
        (ofFile other (hneeded other ho)).trans (ofFile d hd).symm
      have hmem : (⟨other, lines⟩ : DependencyBlock) ∈ blocksFor files e needed :=
        mem_blocksFor.2 ⟨ho, hlines⟩
      refine .inr ⟨⟨other, lines⟩, ⟨hmem, hfile, hl⟩, fun b hb => ?_⟩
      exact List.inj_on_of_nodup_map hdistinct hb.1 hmem (hb.2.2.trans hl.symm)

end blocksFor

/-! ### Imports -/

/-- What a name is declared as in a file, and on which lines: a class, else a function, else
a variable, of several the first. -/
inductive Declares (inventory : Inventory) (name : String) :
    DeclarationKind → LineRange → Prop where
  | class_ {d : Declaration} : inventory.classes.find? (·.name = name) = some d →
      Declares inventory name .class_ d.lines
  | function {d : Declaration} : (∀ c ∈ inventory.classes, c.name ≠ name) →
      inventory.functions.find? (·.name = name) = some d → Declares inventory name .function d.lines
  | variable_ {d : Declaration} : (∀ c ∈ inventory.classes ++ inventory.functions, c.name ≠ name) →
      inventory.vars.find? (·.name = name) = some d → Declares inventory name .variable_ d.lines

/-- An import brings in a block: it names something that the inventory of its origin declares, and
the block holds the lines of that declaration. -/
structure Brings (files : FileTree) (snapshot : Snapshot) (i : Import)
    (b : ImportBlock) : Prop where
  name : b.importedName = i.importedName
  source : b.source = i.source
  named : i.importedName ≠ wholeModule
  origin : i.origin.text? = some b.origin
  declared : ∃ inventory, snapshot.find? b.origin = some inventory ∧
    Declares inventory i.importedName b.kind b.span
  literal : AreIn files b.origin b.span b.lines

theorem find?_name_eq_none {declarations : List Declaration} {name : String} :
    declarations.find? (·.name = name) = none ↔ ∀ d ∈ declarations, d.name ≠ name := by
  simp

theorem declares_iff {inventory : Inventory} {name : String} {kind : DeclarationKind}
    {range : LineRange} :
    Declares inventory name kind range ↔
      ∃ d, declaration? inventory name = some (kind, d) ∧ d.lines = range := by
  constructor
  · rintro (hc | ⟨hc, hf⟩ | ⟨hc, hv⟩)
    · exact ⟨_, by simp [declaration?, hc], rfl⟩
    · rw [← find?_name_eq_none] at hc
      exact ⟨_, by simp [declaration?, hc, hf], rfl⟩
    · obtain ⟨hc, hf⟩ := List.forall_mem_append.1 hc
      rw [← find?_name_eq_none] at hc hf
      exact ⟨_, by simp [declaration?, hc, hf, hv], rfl⟩
  · rintro ⟨d, hd, rfl⟩
    simp only [declaration?, Option.or_eq_some_iff, Option.map_eq_some_iff, Option.map_eq_none_iff,
      Prod.mk.injEq] at hd
    rcases hd with ⟨_, hc, rfl, rfl⟩ | ⟨hc, ⟨_, hf, rfl, rfl⟩ | ⟨hf, _, hv, rfl, rfl⟩⟩
    · exact .class_ hc
    · exact .function (find?_name_eq_none.1 hc) hf
    · exact .variable_ (List.forall_mem_append.2 ⟨find?_name_eq_none.1 hc,
        find?_name_eq_none.1 hf⟩) hv

theorem mem_of_declaration? {inventory : Inventory} {name : String} {kind : DeclarationKind}
    {d : Declaration} (h : declaration? inventory name = some (kind, d)) :
    d ∈ inventory.classes ++ inventory.functions ++ inventory.vars := by
  simp only [declaration?, Option.or_eq_some_iff, Option.map_eq_some_iff, Option.map_eq_none_iff,
    Prod.mk.injEq] at h
  rcases h with ⟨_, hc, -, rfl⟩ | ⟨-, ⟨_, hf, -, rfl⟩ | ⟨-, _, hv, -, rfl⟩⟩
  · simp [List.mem_of_find?_eq_some hc]
  · simp [List.mem_of_find?_eq_some hf]
  · simp [List.mem_of_find?_eq_some hv]

theorem importBlock?_eq_some {i : Import} {b : ImportBlock} :
    importBlock? files snapshot i = some b ↔
      (b.importedName = i.importedName ∧ b.source = i.source) ∧ i.importedName ≠ wholeModule ∧
        i.origin.text? = some b.origin ∧ ∃ inventory, snapshot.find? b.origin = some inventory ∧
          ∃ d, declaration? inventory i.importedName = some (b.kind, d) ∧ d.lines = b.span ∧
            spanIn files b.origin b.span = some b.lines := by
  obtain ⟨importedName, source, origin, kind, span, lines⟩ := b
  by_cases hw : i.importedName = wholeModule
  · simp [importBlock?, hw]
  · simp only [importBlock?, if_neg hw, Option.bind_eq_bind, Option.bind_eq_some_iff,
      Option.pure_def, Option.some.injEq, ImportBlock.mk.injEq]
    constructor
    · rintro ⟨path, hp, inventory, hi, ⟨kind, d⟩, hd, lines, hl, rfl, rfl, rfl, rfl, rfl, rfl⟩
      exact ⟨⟨rfl, rfl⟩, hw, hp, inventory, hi, d, hd, rfl, hl⟩
    · rintro ⟨⟨rfl, rfl⟩, -, hp, inventory, hi, d, hd, rfl, hl⟩
      exact ⟨origin, hp, inventory, hi, (kind, d), hd, lines, hl, rfl, rfl, rfl, rfl, rfl, rfl⟩

theorem brings_iff {i : Import} {b : ImportBlock}
    (keyed : ∀ path inventory, snapshot.find? path = some inventory → inventory.filePath = path)
    (kept : ∀ path inventory, snapshot.find? path = some inventory → KeepsToFile files inventory) :
    importBlock? files snapshot i = some b ↔ Brings files snapshot i b := by
  rw [importBlock?_eq_some]
  constructor
  · rintro ⟨⟨hname, hsource⟩, hw, ho, inventory, hi, d, hd, hs, hl⟩
    obtain ⟨lines, hlines, hin⟩ := (kept _ _ hi).spanIn (mem_of_declaration? hd)
    rw [keyed _ _ hi, hs] at hlines hin
    rw [hl] at hlines
    cases hlines
    exact ⟨hname, hsource, hw, ho, ⟨inventory, hi, declares_iff.2 ⟨d, hd, hs⟩⟩, hin⟩
  · rintro ⟨hname, hsource, hw, ho, ⟨inventory, hi, hdeclares⟩, hin⟩
    obtain ⟨d, hd, hs⟩ := declares_iff.1 hdeclares
    obtain ⟨lines, hlines, hother⟩ := (kept _ _ hi).spanIn (mem_of_declaration? hd)
    rw [keyed _ _ hi, hs] at hlines hother
    rw [hother.unique hin] at hlines
    exact ⟨⟨hname, hsource⟩, hw, ho, inventory, hi, d, hd, hs, hlines⟩

/-! ### Bundles -/

/-- A bundle is whole: it holds the dependencies that the inventory of the endpoint's file shows,
and in the order of the imports a block for each relevant one that brings something in. -/
structure IsWhole (files : FileTree) (snapshot : Snapshot) (e : Endpoint) (inventory : Inventory)
    (bundle : Bundle) : Prop where
  dependencies : HasDependencies files e (Dependency.all inventory e) bundle.dependencyBlocks
  imports : ∃ brought : Import → Option ImportBlock,
    (∀ i b, brought i = some b ↔ Brings files snapshot i b) ∧
      bundle.importBlocks =
        (Import.relevant inventory e (Dependency.all inventory e)).filterMap brought

theorem of_eq_of_find? {inventory : Inventory} (h : snapshot.find? e.filePath = some inventory) :
    Bundle.of files snapshot e =
      ⟨e, cut ((linesOf files e.filePath).getD []) (e.lines.first - 1) e.lines.last,
        blocksFor files e (Dependency.all inventory e),
        (Import.relevant inventory e (Dependency.all inventory e)).filterMap
          (importBlock? files snapshot),
        Responder.block? ((linesOf files e.filePath).getD [])⟩ := by
  simp only [Bundle.of, h]

/-- As long as the inventories of a snapshot keep to the lines of their files, slicing an endpoint
gives a whole bundle, or one without blocks where the snapshot has no inventory of the endpoint's
file. -/
theorem isWhole_of {files : FileTree} {inventories : List Inventory} (e : Endpoint)
    (kept : ∀ path found, (Snapshot.ofList inventories).find? path = some found →
      KeepsToFile files found) :
    (∀ inventory, (Snapshot.ofList inventories).find? e.filePath = some inventory →
      IsWhole files (Snapshot.ofList inventories) e inventory
        (Bundle.of files (Snapshot.ofList inventories) e)) ∧
    ((Snapshot.ofList inventories).find? e.filePath = none →
      (Bundle.of files (Snapshot.ofList inventories) e).dependencyBlocks = [] ∧
        (Bundle.of files (Snapshot.ofList inventories) e).importBlocks = []) := by
  have keyed : ∀ path found, (Snapshot.ofList inventories).find? path = some found →
      found.filePath = path := fun _ _ h => (Snapshot.mem_of_find? h).2
  refine ⟨fun inventory h => ?_, fun h => ?_⟩
  · rw [of_eq_of_find? h]
    refine ⟨hasDependencies_blocksFor (fun d hd => ?_) (fun d hd => ?_), _,
      fun i b => brings_iff keyed kept, rfl⟩
    · exact (Dependency.mem_all hd).1.trans (keyed _ _ h)
    · obtain ⟨hfile, hdeclared⟩ := Dependency.mem_all hd
      rw [hfile]
      exact (kept _ _ h).spanIn (d := d.declaration) (by simp [hdeclared])
  · simp [Bundle.of, h]

/-- Two files: the handler of the first is a name, and what that name means calls a function of the
second. -/
def twoFiles : FileTree :=
  ⟨"/", [(["proj", "app.js"], .text
      "import \x7b db \x7d from './db.js';\napp.get('/x', load);\nfunction load() \x7b\n  return db();\n\x7d"),
    (["proj", "db.js"], .text "export class Pool \x7b\x7d\nexport function db() \x7b\x7d")],
    [["proj"]]⟩

def twoInventories : List Inventory :=
  [⟨"/proj/app.js", .javascript, [], [⟨"load", ⟨3, 5⟩⟩], [], [⟨"db", ⟨4, 4⟩, .function⟩],
      [⟨"db", some "db", "./db.js", .statement, .ofText "/proj/db.js", 1, true, [4]⟩]⟩,
    ⟨"/proj/db.js", .javascript, [⟨"Pool", ⟨1, 1⟩⟩], [⟨"db", ⟨2, 2⟩⟩], [], [], []⟩]

def registration : Endpoint := ⟨.get, some "/x", "/proj/app.js", ⟨2, 2⟩, .call, ["load"]⟩

theorem isWhole_of_twoFiles :
    (∀ path found, (Snapshot.ofList twoInventories).find? path = some found →
      KeepsToFile twoFiles found) ∧
    IsWhole twoFiles (Snapshot.ofList twoInventories) registration twoInventories[0]
      (Bundle.of twoFiles (Snapshot.ofList twoInventories) registration) ∧
    (Bundle.of twoFiles (Snapshot.ofList twoInventories) registration).blocks =
      [["function load() \x7b", "  return db();", "\x7d"], ["export function db() \x7b\x7d"]] := by
  have kept : ∀ path found, (Snapshot.ofList twoInventories).find? path = some found →
      KeepsToFile twoFiles found := by
    intro path found h
    have := (Snapshot.mem_of_find? h).1
    simp only [twoInventories, List.mem_cons, List.not_mem_nil, or_false] at this
    rcases this with rfl | rfl <;> intro d hd <;> simp at hd
    · subst hd
      exact ⟨_, rfl, by decide, by decide, by decide⟩
    · rcases hd with rfl | rfl
      · exact ⟨_, rfl, by decide, by decide, by decide⟩
      · exact ⟨_, rfl, by decide, by decide, by decide⟩
  exact ⟨kept, (isWhole_of registration kept).1 _ rfl, by decide +kernel⟩

end Bundle

end EndpointAtlas
