import EndpointAtlas.Endpoint.Basic

/-!
The functions of its own file that an endpoint's handler calls, directly or through others, and the
imports that these and the handler use.
-/

set_option autoImplicit false

namespace EndpointAtlas

namespace Declaration

def byFirstLine (candidates : List Declaration) : List Declaration :=
  candidates.mergeSort fun a b => a.lines.first ≤ b.lines.first

/-- The declaration that a call on a line means among those of one name: the first whose lines
contain that line, else the nearest that starts at or before it, else the first. -/
def choose (candidates : List Declaration) (line : Int) : Option Declaration :=
  let sorted := byFirstLine candidates
  match sorted.find? fun d => d.lines.contains line with
  | some found => some found
  | none =>
    match (sorted.filter fun d => d.lines.first ≤ line).getLast? with
    | some found => some found
    | none => sorted.head?

end Declaration

/-- A function that a handler needs, with the lines of the call that led to it. -/
structure Dependency where
  name : String
  filePath : String
  callLines : LineRange
  lines : LineRange
  deriving DecidableEq, Repr, Inhabited

namespace Dependency

def verbNames : List String := ["get", "post", "put", "delete", "patch"]

def named (inventory : Inventory) (name : String) : List Declaration :=
  if verbNames.contains name then [] else inventory.functions.filter (·.name = name)

structure Pending where
  name : String
  lines : LineRange
  deriving DecidableEq, Repr

def callsIn (inventory : Inventory) (range : LineRange) : List Pending :=
  inventory.calls.filterMap fun call =>
    if call.kind = .function ∧ !(named inventory call.name).isEmpty ∧ range.covers call.lines then
      some ⟨call.name, call.lines⟩
    else none

def roots (inventory : Inventory) (e : Endpoint) : List Pending :=
  (e.handlerNames.filter fun name => !(named inventory name).isEmpty).map
      (fun name => ⟨name, ⟨e.lines.first, e.lines.first⟩⟩)
    ++ callsIn inventory e.lines

def meant (inventory : Inventory) (call : Pending) : Option Declaration :=
  Declaration.choose (named inventory call.name) call.lines.first

def ofCall (inventory : Inventory) (call : Pending) : Dependency :=
  ⟨call.name, inventory.filePath, call.lines,
    ((meant inventory call).map (·.lines)).getD call.lines⟩

def callsBeyond (inventory : Inventory) (call : Pending) : List Pending :=
  match meant inventory call with
  | some found => callsIn inventory found.lines
  | none => []

def declaration (d : Dependency) : Declaration := ⟨d.name, d.lines⟩

/-- Where a search stands: the dependencies found, last first, and the calls still to be
followed. -/
structure Search where
  found : List Dependency
  pending : List Pending
  deriving DecidableEq, Repr

namespace Search

def entered (search : Search) : List Declaration := search.found.map declaration

/-- Follows the call that is next: a declaration that was entered before adds nothing. -/
def step (inventory : Inventory) (search : Search) : Search :=
  match search.pending with
  | [] => search
  | call :: rest =>
    let next := ofCall inventory call
    if next.declaration ∈ search.entered then { search with pending := rest }
    else ⟨next :: search.found, rest ++ callsBeyond inventory call⟩

def untouched (inventory : Inventory) (search : Search) : List Declaration :=
  inventory.functions.filter fun d => d ∉ search.entered

/-- Bounds the steps to come: each declaration is entered once and adds at most the calls of the
file. -/
def toDo (inventory : Inventory) (search : Search) : Nat :=
  (search.untouched inventory).length * inventory.calls.length + search.pending.length

end Search

theorem choose_mem {candidates : List Declaration} {line : Int} {d : Declaration}
    (h : Declaration.choose candidates line = some d) : d ∈ candidates := by
  unfold Declaration.choose Declaration.byFirstLine at h
  dsimp only at h
  split at h
  · rename_i found hf
    cases h
    simpa using List.mem_of_find?_eq_some hf
  · split at h
    · rename_i found hf
      cases h
      simpa using (List.mem_filter.mp (List.mem_of_getLast? hf)).1
    · simpa using List.mem_of_head? h

theorem mem_named {inventory : Inventory} {name : String} {d : Declaration} :
    d ∈ named inventory name ↔
      d ∈ inventory.functions ∧ d.name = name ∧ name ∉ verbNames := by
  unfold named
  by_cases h : name ∈ verbNames <;> simp [h]

theorem meant_mem {inventory : Inventory} {call : Pending} {d : Declaration}
    (h : meant inventory call = some d) : d ∈ inventory.functions ∧ d.name = call.name := by
  have hm := mem_named.mp (choose_mem h)
  exact ⟨hm.1, hm.2.1⟩

theorem ofCall_declaration {inventory : Inventory} {call : Pending} {d : Declaration}
    (h : meant inventory call = some d) : (ofCall inventory call).declaration = d := by
  have hn := (meant_mem h).2
  obtain ⟨name, lines⟩ := d
  simp only at hn
  simp [ofCall, declaration, h, hn]

theorem length_callsIn_le (inventory : Inventory) (range : LineRange) :
    (callsIn inventory range).length ≤ inventory.calls.length :=
  List.length_filterMap_le _ _

namespace Search

theorem untouched_cons (inventory : Inventory) (next : Dependency) (found : List Dependency)
    (pending more : List Pending) :
    untouched inventory ⟨next :: found, more⟩ =
      (untouched inventory ⟨found, pending⟩).filter (· ≠ next.declaration) := by
  simp [untouched, entered, List.filter_filter, not_or]

theorem step_seen {inventory : Inventory} {found : List Dependency} {call : Pending}
    {rest : List Pending} (h : (ofCall inventory call).declaration ∈ found.map declaration) :
    step inventory ⟨found, call :: rest⟩ = ⟨found, rest⟩ := by
  exact if_pos h

theorem step_new {inventory : Inventory} {found : List Dependency} {call : Pending}
    {rest : List Pending} (h : (ofCall inventory call).declaration ∉ found.map declaration) :
    step inventory ⟨found, call :: rest⟩ =
      ⟨ofCall inventory call :: found, rest ++ callsBeyond inventory call⟩ := by
  exact if_neg h

theorem toDo_step_lt (inventory : Inventory) (search : Search) (h : search.pending ≠ []) :
    (search.step inventory).toDo inventory < search.toDo inventory := by
  obtain ⟨found, pending⟩ := search
  cases pending with
  | nil => exact absurd rfl h
  | cons call rest =>
    by_cases hs : (ofCall inventory call).declaration ∈ found.map declaration
    · rw [step_seen hs]
      simp [toDo, untouched, entered]
    · rw [step_new hs]
      simp only [toDo, List.length_append, List.length_cons]
      rw [untouched_cons inventory _ found (call :: rest)]
      generalize hu : untouched inventory ⟨found, call :: rest⟩ = left
      cases hm : meant inventory call with
      | none =>
        have hle := Nat.mul_le_mul_right inventory.calls.length
          (List.length_filter_le (· ≠ (ofCall inventory call).declaration) left)
        simp only [callsBeyond, hm, List.length_nil]
        omega
      | some chosen =>
        have hd := ofCall_declaration hm
        have hin : chosen ∈ left := by
          rw [← hu, untouched, List.mem_filter]
          exact ⟨(meant_mem hm).1, by simpa [entered, ← hd] using hs⟩
        have hlt : (left.filter (· ≠ (ofCall inventory call).declaration)).length < left.length :=
          List.length_filter_lt_length_iff_exists.mpr ⟨chosen, hin, by simp [hd]⟩
        have hmul := Nat.mul_le_mul_right inventory.calls.length (Nat.succ_le_of_lt hlt)
        have hcalls := length_callsIn_le inventory chosen.lines
        simp only [callsBeyond, hm]
        rw [Nat.succ_mul] at hmul
        omega

def finish (inventory : Inventory) (search : Search) : Search :=
  if search.pending = [] then search else (search.step inventory).finish inventory
termination_by search.toDo inventory
decreasing_by exact toDo_step_lt inventory search ‹_›

def start (inventory : Inventory) (e : Endpoint) : Search := ⟨[], roots inventory e⟩

end Search

def all (inventory : Inventory) (e : Endpoint) : List Dependency :=
  ((Search.start inventory e).finish inventory).found.reverse

end Dependency

/-- The imports found on disk that are used inside an endpoint, or inside the call or the
declaration of one of its dependencies. -/
def Import.relevant (inventory : Inventory) (e : Endpoint) (dependencies : List Dependency) :
    List Import :=
  let ranges := e.lines :: dependencies.flatMap fun d => [d.callLines, d.lines]
  inventory.imports.filter fun i =>
    i.pathExists && i.usageLines.any fun line => ranges.any (·.contains line)

end EndpointAtlas
