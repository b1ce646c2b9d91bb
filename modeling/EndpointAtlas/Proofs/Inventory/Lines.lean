import EndpointAtlas.Inventory.Extract
import EndpointAtlas.Proofs.Inventory.RoundTrip

set_option autoImplicit false

namespace EndpointAtlas

def OnLine (source : List Char) (n : Int) : Prop := 1 ≤ n ∧ n ≤ Text.lineCount source

structure Findings.EachLine (p : Int → Prop) (found : Findings) : Prop where
  classes : ∀ d ∈ found.classes, d.lines.Both p
  functions : ∀ d ∈ found.functions, d.lines.Both p
  vars : ∀ d ∈ found.vars, d.lines.Both p
  calls : ∀ c ∈ found.calls, c.lines.Both p
  arrivals : ∀ a ∈ found.arrivals, a.lines.Both p
  mentions : ∀ m ∈ found.mentions, p m.line

structure Findings.EachRange (p : LineRange → Prop) (found : Findings) : Prop where
  classes : ∀ d ∈ found.classes, p d.lines
  functions : ∀ d ∈ found.functions, p d.lines
  vars : ∀ d ∈ found.vars, p d.lines
  calls : ∀ c ∈ found.calls, p c.lines
  arrivals : ∀ a ∈ found.arrivals, p a.lines

/-- The statement in which a visited node brings names in: an import statement is one itself, all
else stands in one. -/
def Tree.Visit.statement (visit : Tree.Visit) : Tree :=
  if visit.tree.kind = .importStatement then visit.tree else visit.parent.getD visit.tree

namespace Tree

variable (source : List Char) (tree : Tree)

theorem onLine_firstLine : OnLine source (tree.firstLine source) := by
  have hone := tree.span.one_le_firstLine source
  have hlast := Text.lineAt_le_lineCount source tree.span.start
  unfold OnLine firstLine Span.firstLine at *
  omega

theorem onLine_lastLine : OnLine source (tree.lastLine source) := by
  have hone := Text.one_le_lineAt source tree.span.stop
  have hlast := tree.span.lastLine_le_lineCount source
  unfold OnLine lastLine Span.lastLine at *
  omega

theorem both_lines : (tree.lines source).Both (OnLine source) :=
  ⟨tree.onLine_firstLine source, tree.onLine_lastLine source⟩

theorem firstLine_le_lastLine : (tree.firstLine source : Int) ≤ tree.lastLine source := by
  have := tree.span.firstLine_le_lastLine source
  unfold firstLine lastLine
  omega

variable {source tree}

theorem lines_of_declaration? {d : Declaration} (h : tree.declaration? source = some d) :
    d.lines = tree.lines source := by
  obtain ⟨name, -, rfl⟩ := Option.map_eq_some_iff.1 h
  rfl

theorem lines_of_plainVariable? {d : Declaration} (h : tree.plainVariable? source = some d) :
    d.lines = tree.lines source := by
  unfold plainVariable? at h
  split at h
  · exact lines_of_declaration? h
  · cases h

theorem lines_of_function? {d : Declaration} (h : tree.function? source = some d) :
    d.lines = tree.lines source := by
  unfold function? at h
  split at h
  · exact lines_of_declaration? h
  · split at h
    · exact lines_of_plainVariable? h
    · cases h

theorem lines_of_class? {found : Nat × Declaration} (h : tree.class? source = some found) :
    found.2.lines = tree.lines source := by
  unfold class? at h
  split at h
  · obtain ⟨name, -, rfl⟩ := Option.map_eq_some_iff.1 h
    rfl
  · cases h

theorem lines_of_call? {found : Nat × Call} (h : tree.call? source = some found) :
    found.2.lines = tree.lines source := by
  unfold call? at h
  split at h
  · split at h
    · split at h
      · cases h
        rfl
      · split at h
        · obtain ⟨property, -, rfl⟩ := Option.map_eq_some_iff.1 h
          rfl
        · cases h
    · cases h
  · cases h

theorem onLine_of_mention? {m : Mention} (h : tree.mention? source = some m) :
    OnLine source m.line := by
  unfold mention? at h
  split at h
  · cases h
    exact tree.onLine_firstLine source
  · cases h

theorem lines_of_mem_arriving {form : ImportForm} {module : String} {lines : LineRange}
    {names : List (String × Option String)} {a : Arrival}
    (h : a ∈ arriving form module lines names) : a.lines = lines := by
  obtain ⟨name, -, rfl⟩ := List.mem_map.1 h
  rfl

theorem lines_of_mem_arrivals {visit : Visit} {a : Arrival} (h : a ∈ arrivals source visit) :
    a.lines = visit.statement.lines source := by
  simp only [arrivals] at h
  unfold Visit.statement
  split at h
  · rename_i statement
    rw [if_pos statement]
    split at h
    · exact lines_of_mem_arriving h
    · cases h
  · rename_i inside
    rw [if_neg inside]
    split at h
    · split at h
      · exact lines_of_mem_arriving h
      · cases h
    · split at h
      · split at h
        · exact lines_of_mem_arriving h
        · cases h
      · cases h

end Tree

namespace Findings

theorem mem_byOffset {α : Type} {values : List (Nat × α)} {value : α}
    (h : value ∈ byOffset values) : ∃ offset, (offset, value) ∈ values := by
  obtain ⟨⟨offset, other⟩, hm, rfl⟩ := List.mem_map.1 h
  exact ⟨offset, List.mem_mergeSort.1 hm⟩

theorem eachRange_ofTree {p : LineRange → Prop} {source : List Char} (tree : Tree)
    (h : ∀ node : Tree, p (node.lines source)) : (ofTree source tree).EachRange p where
  classes d hd := by
    obtain ⟨offset, hm⟩ := mem_byOffset hd
    obtain ⟨node, -, hn⟩ := List.mem_filterMap.1 hm
    exact Tree.lines_of_class? hn ▸ h node
  functions d hd := by
    obtain ⟨node, -, hn⟩ := List.mem_filterMap.1 hd
    exact Tree.lines_of_function? hn ▸ h node
  vars d hd := by
    obtain ⟨node, -, hn⟩ := List.mem_filterMap.1 hd
    exact Tree.lines_of_plainVariable? hn ▸ h node
  calls c hc := by
    obtain ⟨offset, hm⟩ := mem_byOffset hc
    obtain ⟨node, -, hn⟩ := List.mem_filterMap.1 hm
    exact Tree.lines_of_call? hn ▸ h node
  arrivals a ha := by
    obtain ⟨visit, -, hv⟩ := List.mem_flatMap.1 ha
    exact Tree.lines_of_mem_arrivals hv ▸ h visit.statement

theorem eachLine_ofTree (source : List Char) (tree : Tree) :
    (ofTree source tree).EachLine (OnLine source) := by
  have ranges : (ofTree source tree).EachRange (·.Both (OnLine source)) :=
    eachRange_ofTree tree fun node => node.both_lines source
  refine ⟨ranges.classes, ranges.functions, ranges.vars, ranges.calls, ranges.arrivals, fun m hm =>
    ?_⟩
  obtain ⟨node, -, hn⟩ := List.mem_filterMap.1 hm
  exact Tree.onLine_of_mention? hn

end Findings

theorem mem_ascending {numbers : List Int} {n : Int} : n ∈ ascending numbers ↔ n ∈ numbers := by
  rw [ascending, List.mem_eraseDups, List.mem_mergeSort]

theorem Arrival.mem_usageLines {arrival : Arrival} {mentions : List Mention} {line : Int} :
    line ∈ arrival.usageLines mentions ↔
      (∃ m ∈ mentions, arrival.localName = some m.name ∧ m.line = line) ∧
      arrival.lines.contains line = false := by
  unfold usageLines
  cases arrival.localName with
  | none => simp
  | some name =>
    simp only [mem_ascending, List.mem_map, List.mem_filter, decide_eq_true_eq, Bool.not_eq_true',
      Option.some.injEq]
    constructor
    · rintro ⟨m, ⟨hm, rfl, outside⟩, rfl⟩
      exact ⟨⟨m, hm, rfl, rfl⟩, outside⟩
    · rintro ⟨⟨m, hm, rfl, rfl⟩, outside⟩
      exact ⟨m, ⟨hm, rfl, outside⟩, rfl⟩

namespace Inventory

theorem mem_lookedUp {tree : FileTree} {options : ExtractOptions} {directory : String}
    {mentions : List Mention} {arrivals : List Arrival} {memory : Memory} {i : Import}
    (h : i ∈ ((arrivals.mapM (lookUp tree options directory mentions)).run memory).1) :
    ∃ a ∈ arrivals, i.line = a.lines.first ∧ i.usageLines = a.usageLines mentions := by
  induction arrivals generalizing memory with
  | nil => cases h
  | cons a rest ih =>
    rw [List.mapM_cons] at h
    rcases List.mem_cons.1 h with rfl | h
    · exact ⟨a, List.mem_cons_self, rfl, rfl⟩
    · obtain ⟨other, hm, hi⟩ := ih h
      exact ⟨other, List.mem_cons_of_mem a hm, hi⟩

theorem eachLine_ofFindings {p : Int → Prop} {found : Findings} (h : found.EachLine p)
    (tree : FileTree) (options : ExtractOptions) (directory filePath : String) (dialect : Dialect)
    (memory : Memory) :
    ((ofFindings tree options directory filePath dialect found).run memory).1.EachLine p where
  classes := h.classes
  functions := h.functions
  vars := h.vars
  calls := h.calls
  imports i hi := by
    obtain ⟨a, ha, hl, hu⟩ := mem_lookedUp hi
    refine ⟨hl ▸ (h.arrivals a ha).1, fun n hn => ?_⟩
    obtain ⟨⟨m, hm, -, rfl⟩, -⟩ := Arrival.mem_usageLines.1 (hu ▸ hn)
    exact h.mentions m hm

end Inventory

end EndpointAtlas
