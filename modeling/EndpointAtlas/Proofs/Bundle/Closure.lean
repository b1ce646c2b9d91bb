import EndpointAtlas.Bundle.Dependency
import Mathlib.Data.List.Nodup
import Mathlib.Logic.Function.Iterate

/-!
The search for dependencies computes the call closure. Main statement: it ends, and what it has
entered are the declarations that `Reached` derives, each once.
-/

set_option autoImplicit false

namespace EndpointAtlas.Dependency

/-- The declarations that a name can mean. What only registers a route means none. -/
def candidates (inventory : Inventory) (name : String) : List Declaration :=
  inventory.functions.filter fun d =>
    d.name = name ∧ name ∉ ["get", "post", "put", "delete", "patch"]

theorem candidates_eq_named (inventory : Inventory) (name : String) :
    candidates inventory name = named inventory name := by
  unfold candidates named verbNames
  by_cases h : name ∈ ["get", "post", "put", "delete", "patch"] <;> simp [h]

/-- The declarations that a handler reaches: those that its names and the calls inside the endpoint
mean, and those that the calls inside a reached one mean. -/
inductive Reached (inventory : Inventory) (e : Endpoint) : Declaration → Prop where
  | handler {name : String} {d : Declaration} : name ∈ e.handlerNames →
      Declaration.choose (candidates inventory name) e.lines.first = some d → Reached inventory e d
  | called {call : Call} {d : Declaration} : call ∈ inventory.calls → call.kind = .function →
      e.lines.covers call.lines →
      Declaration.choose (candidates inventory call.name) call.lines.first = some d →
      Reached inventory e d
  | within {around : Declaration} {call : Call} {d : Declaration} : Reached inventory e around →
      call ∈ inventory.calls → call.kind = .function → around.lines.covers call.lines →
      Declaration.choose (candidates inventory call.name) call.lines.first = some d →
      Reached inventory e d

section
variable {inventory : Inventory} {e : Endpoint}

theorem named_ne_nil_of_choose {name : String} {line : Int} {d : Declaration}
    (h : Declaration.choose (named inventory name) line = some d) :
    (!(named inventory name).isEmpty) = true := by
  have hm := choose_mem h
  cases hn : named inventory name with
  | nil => rw [hn] at hm; simp at hm
  | cons first rest => rfl

theorem choose_isSome {candidates : List Declaration} {line : Int}
    (h : candidates ≠ []) : ∃ d, Declaration.choose candidates line = some d := by
  unfold Declaration.choose Declaration.byFirstLine
  dsimp only
  split
  · exact ⟨_, rfl⟩
  · split
    · exact ⟨_, rfl⟩
    · cases hs : candidates.mergeSort fun a b => decide (a.lines.first ≤ b.lines.first) with
      | nil =>
        have hl := congrArg List.length hs
        rw [List.length_mergeSort] at hl
        exact absurd (List.length_eq_zero_iff.mp hl) h
      | cons first rest => exact ⟨first, rfl⟩

theorem mem_callsIn {range : LineRange} {call : Pending} :
    call ∈ callsIn inventory range ↔ ∃ c ∈ inventory.calls, c.kind = .function ∧
      (!(named inventory c.name).isEmpty) = true ∧ range.covers c.lines = true ∧
      call = ⟨c.name, c.lines⟩ := by
  simp only [callsIn, List.mem_filterMap, Option.ite_none_right_eq_some, Option.some.injEq]
  constructor
  · rintro ⟨c, hc, ⟨hk, hn, hr⟩, rfl⟩
    exact ⟨c, hc, hk, hn, hr, rfl⟩
  · rintro ⟨c, hc, hk, hn, hr, rfl⟩
    exact ⟨c, hc, ⟨hk, hn, hr⟩, rfl⟩

theorem meant_of_mem_callsIn {range : LineRange} {call : Pending}
    (h : call ∈ callsIn inventory range) : ∃ d, meant inventory call = some d := by
  obtain ⟨c, -, -, hn, -, rfl⟩ := mem_callsIn.mp h
  exact choose_isSome (by simpa using hn)

theorem meant_of_mem_roots {call : Pending} (h : call ∈ roots inventory e) :
    ∃ d, meant inventory call = some d := by
  rcases List.mem_append.mp h with h | h
  · obtain ⟨name, hname, rfl⟩ := List.mem_map.mp h
    exact choose_isSome (by simpa using (List.mem_filter.mp hname).2)
  · exact meant_of_mem_callsIn h

theorem reached_of_mem_roots {call : Pending} {d : Declaration} (h : call ∈ roots inventory e)
    (hd : meant inventory call = some d) : Reached inventory e d := by
  rcases List.mem_append.mp h with h | h
  · obtain ⟨name, hname, rfl⟩ := List.mem_map.mp h
    exact .handler (List.mem_filter.mp hname).1 (candidates_eq_named inventory name ▸ hd)
  · obtain ⟨c, hc, hk, -, hr, rfl⟩ := mem_callsIn.mp h
    exact .called hc hk hr (candidates_eq_named inventory c.name ▸ hd)

/-- What holds at every moment of a search: nothing is entered twice, all that was entered or is
pending is reached, and what a root or an entered declaration leads to is entered or pending. -/
structure Search.Invariant (inventory : Inventory) (e : Endpoint) (search : Search) : Prop where
  distinct : search.entered.Nodup
  sound : ∀ d ∈ search.entered, Reached inventory e d
  declared : ∀ call ∈ search.pending, ∃ d, meant inventory call = some d ∧ Reached inventory e d
  rootFrontier : ∀ call ∈ roots inventory e, ∀ d, meant inventory call = some d →
    d ∈ search.entered ∨ call ∈ search.pending
  callFrontier : ∀ around ∈ search.entered, ∀ call ∈ callsIn inventory around.lines, ∀ d,
    meant inventory call = some d → d ∈ search.entered ∨ call ∈ search.pending

namespace Search

theorem invariant_start (inventory : Inventory) (e : Endpoint) :
    Invariant inventory e (start inventory e) where
  distinct := List.nodup_nil
  sound := by simp [start, entered]
  declared := fun call h => by
    obtain ⟨d, hd⟩ := meant_of_mem_roots h
    exact ⟨d, hd, reached_of_mem_roots h hd⟩
  rootFrontier := fun call h _ _ => .inr h
  callFrontier := by simp [start, entered]

theorem invariant_seen {found : List Dependency} {call : Pending} {rest : List Pending}
    (h : Invariant inventory e ⟨found, call :: rest⟩)
    (seen : (ofCall inventory call).declaration ∈ found.map declaration) :
    Invariant inventory e ⟨found, rest⟩ := by
  have move (other : Pending) (d : Declaration) (hd : meant inventory other = some d)
      (ho : d ∈ entered ⟨found, call :: rest⟩ ∨ other ∈ call :: rest) :
      d ∈ entered ⟨found, rest⟩ ∨ other ∈ rest := by
    rcases ho with ho | ho
    · exact .inl ho
    · rcases List.mem_cons.mp ho with rfl | ho
      · rw [ofCall_declaration hd] at seen
        exact .inl seen
      · exact .inr ho
  exact {
    distinct := h.distinct
    sound := h.sound
    declared := fun other ho => h.declared other (List.mem_cons_of_mem _ ho)
    rootFrontier := fun other ho d hd => move other d hd (h.rootFrontier other ho d hd)
    callFrontier := fun around ha other ho d hd =>
      move other d hd (h.callFrontier around ha other ho d hd) }

theorem invariant_new {found : List Dependency} {call : Pending} {rest : List Pending}
    (h : Invariant inventory e ⟨found, call :: rest⟩)
    (new : (ofCall inventory call).declaration ∉ found.map declaration) :
    Invariant inventory e
      ⟨ofCall inventory call :: found, rest ++ callsBeyond inventory call⟩ := by
  obtain ⟨chosen, hm, hr⟩ := h.declared call List.mem_cons_self
  have hd := ofCall_declaration hm
  have hb : callsBeyond inventory call = callsIn inventory chosen.lines := by
    simp [callsBeyond, hm]
  have move (other : Pending) (d : Declaration) (ho : meant inventory other = some d)
      (hf : d ∈ entered ⟨found, call :: rest⟩ ∨ other ∈ call :: rest) :
      d ∈ entered ⟨ofCall inventory call :: found, rest ++ callsBeyond inventory call⟩ ∨
        other ∈ rest ++ callsBeyond inventory call := by
    rcases hf with hf | hf
    · exact .inl (List.mem_cons_of_mem _ hf)
    · rcases List.mem_cons.mp hf with rfl | hf
      · exact .inl (List.mem_cons.mpr (.inl (ofCall_declaration ho).symm))
      · exact .inr (List.mem_append_left _ hf)
  exact {
    distinct := List.nodup_cons.mpr ⟨new, h.distinct⟩
    sound := fun d hmem => by
      rcases List.mem_cons.mp hmem with rfl | hmem
      · exact hd ▸ hr
      · exact h.sound d hmem
    declared := fun other ho => by
      rcases List.mem_append.mp ho with ho | ho
      · exact h.declared other (List.mem_cons_of_mem _ ho)
      · rw [hb] at ho
        obtain ⟨d, hmeant⟩ := meant_of_mem_callsIn ho
        obtain ⟨c, hc, hk, -, hcov, rfl⟩ := mem_callsIn.mp ho
        exact ⟨d, hmeant, .within hr hc hk hcov (candidates_eq_named inventory c.name ▸ hmeant)⟩
    rootFrontier := fun other ho d hmeant => move other d hmeant (h.rootFrontier other ho d hmeant)
    callFrontier := fun around ha other ho d hmeant => by
      rcases List.mem_cons.mp ha with rfl | ha
      · rw [hd, ← hb] at ho
        exact .inr (List.mem_append_right _ ho)
      · exact move other d hmeant (h.callFrontier around ha other ho d hmeant) }

theorem invariant_step {search : Search} (h : Invariant inventory e search) :
    Invariant inventory e (search.step inventory) := by
  obtain ⟨found, pending⟩ := search
  cases pending with
  | nil => exact h
  | cons call rest =>
    by_cases hs : (ofCall inventory call).declaration ∈ found.map declaration
    · rw [step_seen hs]
      exact invariant_seen h hs
    · rw [step_new hs]
      exact invariant_new h hs

theorem Invariant.entered_iff {search : Search} (h : Invariant inventory e search)
    (done : search.pending = []) (d : Declaration) :
    d ∈ search.entered ↔ Reached inventory e d := by
  refine ⟨h.sound d, fun hr => ?_⟩
  induction hr with
  | @handler name d hname hd =>
    rw [candidates_eq_named] at hd
    have hroot : (⟨name, ⟨e.lines.first, e.lines.first⟩⟩ : Pending) ∈ roots inventory e :=
      List.mem_append_left _ (List.mem_map.mpr
        ⟨name, List.mem_filter.mpr ⟨hname, named_ne_nil_of_choose hd⟩, rfl⟩)
    simpa [done] using h.rootFrontier _ hroot d hd
  | @called call d hc hk hcov hd =>
    rw [candidates_eq_named] at hd
    have hroot : (⟨call.name, call.lines⟩ : Pending) ∈ roots inventory e :=
      List.mem_append_right _ (mem_callsIn.mpr
        ⟨call, hc, hk, named_ne_nil_of_choose hd, hcov, rfl⟩)
    simpa [done] using h.rootFrontier _ hroot d hd
  | @within around call d _ hc hk hcov hd ih =>
    rw [candidates_eq_named] at hd
    have hin : (⟨call.name, call.lines⟩ : Pending) ∈ callsIn inventory around.lines :=
      mem_callsIn.mpr ⟨call, hc, hk, named_ne_nil_of_choose hd, hcov, rfl⟩
    simpa [done] using h.callFrontier around ih _ hin d hd

theorem finish_of_pending {search : Search} (h : search.pending ≠ []) :
    search.finish inventory = (search.step inventory).finish inventory := by
  rw [finish, if_neg h]

theorem finish_eq_iterate (inventory : Inventory) (search : Search) :
    (search.finish inventory).pending = [] ∧
      ∃ n ≤ search.toDo inventory, (step inventory)^[n] search = search.finish inventory := by
  by_cases h : search.pending = []
  · rw [finish, if_pos h]
    exact ⟨h, 0, Nat.zero_le _, rfl⟩
  · obtain ⟨hdone, n, hn, hiter⟩ := finish_eq_iterate inventory (search.step inventory)
    have hlt := toDo_step_lt inventory search h
    rw [finish_of_pending h]
    refine ⟨hdone, n + 1, by omega, ?_⟩
    rw [Function.iterate_succ_apply, hiter]
termination_by search.toDo inventory
decreasing_by exact toDo_step_lt inventory search h

theorem invariant_iterate {search : Search} (h : Invariant inventory e search) (n : Nat) :
    Invariant inventory e ((step inventory)^[n] search) := by
  induction n generalizing search with
  | zero => exact h
  | succ n ih => exact ih (invariant_step h)

end Search
end

/-- The search for what a handler needs ends, after no more steps than its roots and the calls of
every function of the file once; what it gives are the declarations that the handler reaches, each
once. -/
theorem all_iff_reached (inventory : Inventory) (e : Endpoint) :
    (∃ n ≤ (roots inventory e).length + inventory.functions.length * inventory.calls.length,
      (Search.step inventory)^[n] (Search.start inventory e) = ⟨(all inventory e).reverse, []⟩) ∧
    ((all inventory e).map declaration).Nodup ∧
    ∀ d, d ∈ (all inventory e).map declaration ↔ Reached inventory e d := by
  obtain ⟨hdone, n, hn, hiter⟩ := Search.finish_eq_iterate inventory (Search.start inventory e)
  have inv := Search.invariant_iterate (Search.invariant_start inventory e) n
  rw [hiter] at inv
  have hfound : ((all inventory e).map declaration).reverse =
      ((Search.start inventory e).finish inventory).entered := by
    simp [all, Search.entered]
  refine ⟨⟨n, ?_, ?_⟩, ?_, fun d => ?_⟩
  · have hle : (Search.start inventory e).toDo inventory ≤
        inventory.functions.length * inventory.calls.length + (roots inventory e).length :=
      Nat.add_le_add_right (Nat.mul_le_mul_right _ (List.length_filter_le _ _)) _
    omega
  · rw [hiter]
    simp only [all, List.reverse_reverse]
    exact congrArg (Search.mk _) hdone
  · rw [← List.nodup_reverse, hfound]
    exact inv.distinct
  · rw [← inv.entered_iff hdone, ← hfound, List.mem_reverse]

end EndpointAtlas.Dependency
