import EndpointAtlas.Endpoint.Detect
import EndpointAtlas.Proofs.Inventory.Lines
import EndpointAtlas.Proofs.Text.Units

set_option autoImplicit false

namespace EndpointAtlas

namespace Text

theorem offset_le_stop {α : Type} {here : Option Char → List Char → Option (α × Nat)}
    {skip offset : Nat} {before : Option Char} {s : List Char} {found : Found α}
    (h : found ∈ findAll here skip before offset s) : found.offset ≤ found.stop := by
  fun_induction findAll here skip before offset s with
  | case1 => cases h
  | case2 skip before offset c rest ih => exact ih h
  | case3 before offset c rest value count hv ih =>
    rcases List.mem_cons.1 h with rfl | h
    · simp
    · exact ih h
  | case4 before offset c rest hv ih => exact ih h

theorem foldl_min_le (first : Int) (others : List Int) : others.foldl min first ≤ first := by
  induction others generalizing first with
  | nil => simp
  | cons n rest ih =>
    have := ih (min first n)
    simp only [List.foldl_cons]
    omega

end Text

namespace CatchBinding

theorem count_bindFrom (copied : Nat) (inWord : Bool) (s : List Char) :
    (bindFrom copied inWord s).count '\n' = s.count '\n' := by
  have hbinding : binding.count '\n' = 0 := by decide
  induction s generalizing copied inWord with
  | nil => rw [bindFrom]
  | cons c rest ih =>
    match copied with
    | 0 =>
      rw [bindFrom]
      split
      · rw [List.count_cons, List.count_cons, ih]
      · rw [List.count_cons, List.count_cons, ih]
    | 1 =>
      rw [bindFrom, List.cons_append, List.count_cons, List.count_append, hbinding, ih,
        Nat.zero_add, List.count_cons]
    | n + 2 => rw [bindFrom, List.count_cons, List.count_cons, ih]

theorem lineCount_bind (source : List Char) :
    Text.lineCount (bind source) = Text.lineCount source := by
  rw [Text.lineCount, bind, count_bindFrom, Text.lineCount]

end CatchBinding

variable {source : List Char} {filePath : String} {tree : Tree} {e : Endpoint}

theorem onLine_foldl_min {first : Int} {others : List Int} (hf : OnLine source first)
    (ho : ∀ n ∈ others, OnLine source n) : OnLine source (others.foldl min first) := by
  induction others generalizing first with
  | nil => exact hf
  | cons n rest ih =>
    refine ih ?_ fun m hm => ho m (List.mem_cons_of_mem n hm)
    rcases min_choice first n with h | h
    · rwa [h]
    · rw [h]
      exact ho n List.mem_cons_self

/-! ### Tiers -/

namespace Endpoint

/-- An endpoint of a file, the lines of which are a range of lines of a text. -/
structure LiesIn (source : List Char) (filePath : String) (e : Endpoint) : Prop where
  ofFile : e.filePath = filePath
  onLines : e.lines.Both (OnLine source)
  ordered : e.lines.first ≤ e.lines.last

theorem LiesIn.of_lineCount {other : List Char} (h : e.LiesIn source filePath)
    (same : Text.lineCount source = Text.lineCount other) : e.LiesIn other filePath := by
  have hon (n : Int) (hn : OnLine source n) : OnLine other n := by rwa [OnLine, same] at hn
  exact ⟨h.ofFile, ⟨hon _ h.onLines.1, hon _ h.onLines.2⟩, h.ordered⟩

end Endpoint

namespace Controller

theorem liesIn_endpoint? {base : String} {member : Tree} {decorators : List Tree}
    (h : endpoint? source filePath base member decorators = some e) : e.LiesIn source filePath := by
  obtain ⟨⟨method, path⟩, -, rfl⟩ := Option.map_eq_some_iff.1 h
  have hmin := Text.foldl_min_le (member.firstLine source : Int)
    (decorators.map fun d => (d.firstLine source : Int))
  refine ⟨rfl, ⟨onLine_foldl_min (member.onLine_firstLine source) fun n hn => ?_,
    member.onLine_lastLine source⟩, hmin.trans (member.firstLine_le_lastLine source)⟩
  obtain ⟨decorator, -, rfl⟩ := List.mem_map.1 hn
  exact decorator.onLine_firstLine source

theorem liesIn_of_mem_endpoints {controller : Controller}
    (h : e ∈ controller.endpoints source filePath) : e.LiesIn source filePath := by
  unfold endpoints at h
  split at h
  · obtain ⟨⟨member, earlier⟩, -, hm⟩ := List.mem_filterMap.1 h
    simp only at hm
    split at hm
    · exact liesIn_endpoint? hm
    · cases hm
  · cases h

end Controller

namespace Endpoint

theorem liesIn_of_mem_decorated {dialect : Dialect}
    (h : e ∈ (decorated source filePath dialect tree).getD []) : e.LiesIn source filePath := by
  unfold decorated at h
  split at h
  · obtain ⟨controller, -, hc⟩ := List.mem_flatMap.1 h
    exact Controller.liesIn_of_mem_endpoints hc
  · cases h

/-- A node that registers an endpoint: a call of a registrar's member that is named for a method. -/
structure Registers (source : List Char) (node callee property object : Tree) (method : Method) :
    Prop where
  isCall : node.kind = .call
  calls : node.child? .callee = some callee
  isMember : callee.kind = .member
  ofProperty : callee.child? .property = some property
  isName : property.kind = .propertyName ∨ property.kind = .identifier
  ofObject : callee.child? .object = some object
  isMethod : Method.ofName? (property.textIn source) = some method
  isRegistrar : Route.isRegistrar (object.textIn source) = true

theorem registers_of_ofCall? (h : ofCall? source filePath tree = some e) :
    (∃ callee property object, Registers source tree callee property object e.method) ∧
      e.filePath = filePath ∧ e.lines = tree.lines source ∧
      e.route = (tree.child? .arguments).bind (Tree.firstLiteral? source) := by
  by_cases hcall : tree.kind = .call
  · simp only [ofCall?, if_pos hcall, Option.bind_eq_bind, Option.bind_eq_some_iff] at h
    obtain ⟨callee, hcallee, h⟩ := h
    by_cases hmember : callee.kind = .member
    · simp only [if_pos hmember, Option.bind_eq_some_iff] at h
      obtain ⟨property, hproperty, object, hobject, h⟩ := h
      by_cases hname : property.kind = .propertyName ∨ property.kind = .identifier
      · simp only [if_pos hname, Option.bind_eq_some_iff, Option.ite_none_right_eq_some] at h
        obtain ⟨method, hmethod, hregistrar, h⟩ := h
        cases h
        exact ⟨⟨callee, property, object, hcall, hcallee, hmember, hproperty, hname,
          hobject, hmethod, hregistrar⟩, rfl, rfl, rfl⟩
      · simp [if_neg hname] at h
    · simp [if_neg hmember] at h
  · simp [ofCall?, if_neg hcall] at h

theorem liesIn_of_mem_called (h : e ∈ called source filePath tree) : e.LiesIn source filePath := by
  obtain ⟨node, -, hn⟩ := List.mem_filterMap.1 h
  obtain ⟨-, hfile, hlines, -⟩ := registers_of_ofCall? hn
  exact ⟨hfile, hlines ▸ node.both_lines source, hlines ▸ node.firstLine_le_lastLine source⟩

theorem onLine_lineAt (source : List Char) (offset : Nat) :
    OnLine source (Text.lineAt source offset) := by
  have hone := Text.one_le_lineAt source offset
  have hlast := Text.lineAt_le_lineCount source offset
  unfold OnLine
  omega

theorem liesIn_of_mem_calledInText (h : e ∈ calledInText source filePath) :
    e.LiesIn source filePath := by
  obtain ⟨call, hcall, rfl⟩ := List.mem_map.1 h
  obtain ⟨found, hfound, hf⟩ := List.mem_filterMap.1 hcall
  simp only [Option.ite_none_right_eq_some, Option.some.injEq] at hf
  obtain ⟨-, rfl⟩ := hf
  refine ⟨rfl, ⟨onLine_lineAt source found.offset, onLine_lineAt source found.stop⟩, ?_⟩
  have hline := Text.lineAt_mono source (Text.offset_le_stop hfound)
  simp only
  omega

theorem exists_slice_of_body? {offset start : Nat} {body : List Char}
    (h : TextController.body? source offset = some (start, body)) :
    ∃ stop, body = Text.slice source start stop := by
  unfold TextController.body? at h
  simp only at h
  split at h
  · cases h
  · obtain ⟨stop, -, hs⟩ := Option.map_eq_some_iff.1 h
    cases hs
    exact ⟨stop, rfl⟩

theorem liesIn_of_mem_controllers (h : e ∈ TextController.endpoints source filePath) :
    e.LiesIn source filePath := by
  obtain ⟨controller, -, hc⟩ := List.mem_flatMap.1 h
  split at hc
  · rename_i start body hbody
    obtain ⟨stop, rfl⟩ := exists_slice_of_body? hbody
    obtain ⟨verb, -, rfl⟩ := List.mem_map.1 hc
    have hone := Text.one_le_lineAt source start
    have hinner := Text.one_le_lineAt (Text.slice source start stop) verb.offset
    have hlast := Text.lineAt_slice_le source start stop verb.offset
    have hline : OnLine source
        (Text.lineAt source start + Text.lineAt
          (Text.slice source start stop) verb.offset - 1) := by
      unfold OnLine
      omega
    exact ⟨rfl, ⟨hline, hline⟩, le_rfl⟩
  · cases hc

theorem liesIn_of_mem_scanned {dialect : Dialect} {failed controllersInTree : Bool}
    (h : e ∈ (scanned source filePath dialect failed controllersInTree).getD []) :
    e.LiesIn source filePath := by
  unfold scanned at h
  simp only at h
  split at h
  · cases h
  · rcases List.mem_append.1 h with h | h
    · split at h
      · exact liesIn_of_mem_calledInText h
      · cases h
    · split at h
      · exact liesIn_of_mem_controllers h
      · cases h

end Endpoint

/-! ### Detection -/

namespace Detection

theorem source_ofSource (filePath : String) (source : List Char) :
    (ofSource filePath source).source = source := by
  unfold ofSource reading
  simp only
  split
  · split <;> rfl
  · rfl

theorem lineCount_treeSource (filePath : String) (source : List Char) :
    Text.lineCount (ofSource filePath source).treeSource = Text.lineCount source := by
  unfold ofSource reading
  simp only
  split
  · split
    · rfl
    · exact CatchBinding.lineCount_bind source
  · rfl

theorem filePath_ofSource (filePath : String) (source : List Char) :
    (ofSource filePath source).filePath = filePath := by
  unfold ofSource reading
  simp only
  split
  · split <;> rfl
  · rfl

theorem liesIn_of_mem_found (h : e ∈ (ofSource filePath source).found) :
    e.LiesIn source filePath := by
  have hfile := filePath_ofSource filePath source
  rcases List.mem_append.1 h with h | h
  · have hlines := lineCount_treeSource filePath source
    rcases List.mem_append.1 h with h | h
    · exact hfile ▸ (Endpoint.liesIn_of_mem_decorated h).of_lineCount hlines
    · exact hfile ▸ (Endpoint.liesIn_of_mem_called h).of_lineCount hlines
  · have hscanned := Endpoint.liesIn_of_mem_scanned h
    rwa [source_ofSource, hfile] at hscanned

theorem onLine_of_mem_found (h : e ∈ (ofSource filePath source).found) :
    OnLine source e.lines.first :=
  (liesIn_of_mem_found h).onLines.1

end Detection

end EndpointAtlas
