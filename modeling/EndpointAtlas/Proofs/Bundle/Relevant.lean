import EndpointAtlas.Proofs.Bundle.Closure

set_option autoImplicit false

namespace EndpointAtlas

theorem LineRange.contains_of_covers {outer inner : LineRange} {line : Int}
    (h : outer.covers inner = true)
    (hl : inner.contains line = true) : outer.contains line = true := by
  simp only [covers, contains, Bool.and_eq_true, decide_eq_true_eq] at *
  omega

namespace Dependency

variable {inventory : Inventory} {e : Endpoint}

/-- Does a range lie inside the endpoint, or inside the declaration of one of these dependencies? -/
def Inside (e : Endpoint) (dependencies : List Dependency) (range : LineRange) : Prop :=
  e.lines.covers range = true ∨ ∃ around ∈ dependencies, around.lines.covers range = true

theorem Inside.mono {some more : List Dependency} {range : LineRange} (h : Inside e some range)
    (sub : some ⊆ more) : Inside e more range :=
  h.imp_right fun ⟨around, here, covers⟩ => ⟨around, sub here, covers⟩

theorem covers_of_mem_callsIn {range : LineRange} {call : Pending}
    (h : call ∈ callsIn inventory range) : range.covers call.lines = true := by
  obtain ⟨c, -, -, -, covers, rfl⟩ := mem_callsIn.1 h
  exact covers

theorem covers_of_mem_roots (ordered : e.lines.first ≤ e.lines.last) {call : Pending}
    (h : call ∈ roots inventory e) : e.lines.covers call.lines = true := by
  rcases List.mem_append.1 h with named | called
  · obtain ⟨name, -, rfl⟩ := List.mem_map.1 named
    simpa [LineRange.covers] using ordered
  · exact covers_of_mem_callsIn called

theorem covers_of_mem_callsBeyond {call next : Pending} (h : next ∈ callsBeyond inventory call) :
    (ofCall inventory call).lines.covers next.lines = true := by
  unfold callsBeyond at h
  split at h
  · rename_i found meant
    rw [ofCall, meant]
    exact covers_of_mem_callsIn h
  · cases h

namespace Search

/-- What holds at every moment of a search: a call that is pending lies in the endpoint or in what
was found, and the call that led to a dependency in the endpoint or in what was found before. -/
structure Sited (e : Endpoint) (search : Search) : Prop where
  pending : ∀ call ∈ search.pending, Inside e search.found call.lines
  found : ∀ later d earlier, search.found = later ++ d :: earlier → Inside e earlier d.callLines

theorem sited_start (ordered : e.lines.first ≤ e.lines.last) : Sited e (start inventory e) where
  pending _ h := .inl (covers_of_mem_roots ordered h)
  found later d earlier h := by simp [start] at h

theorem sited_step {search : Search} (h : Sited e search) : Sited e (search.step inventory) := by
  obtain ⟨found, pending⟩ := search
  cases pending with
  | nil => exact h
  | cons call rest =>
    obtain ⟨here, others⟩ := List.forall_mem_cons.1 h.pending
    by_cases seen : (ofCall inventory call).declaration ∈ found.map declaration
    · rw [step_seen seen]
      exact ⟨others, h.found⟩
    · rw [step_new seen]
      refine ⟨fun next hn => ?_, fun later d earlier split => ?_⟩
      · rcases List.mem_append.1 hn with waiting | beyond
        · exact (others next waiting).mono (List.subset_cons_self _ _)
        · exact .inr ⟨_, List.mem_cons_self, covers_of_mem_callsBeyond beyond⟩
      · cases later with
        | nil =>
          obtain ⟨rfl, rfl⟩ := List.cons.inj split
          exact here
        | cons last later => exact h.found later d earlier (List.cons.inj split).2

theorem sited_iterate (inventory : Inventory) (ordered : e.lines.first ≤ e.lines.last) (n : Nat) :
    Sited e ((step inventory)^[n] (start inventory e)) := by
  induction n with
  | zero => exact sited_start ordered
  | succ n ih =>
    rw [Function.iterate_succ_apply']
    exact sited_step ih

theorem exists_iterate_eq (inventory : Inventory) (e : Endpoint) :
    ∃ n, (step inventory)^[n] (start inventory e) = ⟨(all inventory e).reverse, []⟩ := by
  obtain ⟨done, n, -, reached⟩ := finish_eq_iterate inventory (start inventory e)
  refine ⟨n, reached.trans ?_⟩
  rw [all, List.reverse_reverse, ← done]

end Search

theorem invariant_all (inventory : Inventory) (e : Endpoint) :
    Search.Invariant inventory e ⟨(all inventory e).reverse, []⟩ := by
  obtain ⟨n, reached⟩ := Search.exists_iterate_eq inventory e
  rw [← reached]
  exact Search.invariant_iterate (Search.invariant_start inventory e) n

theorem exists_mem_all {d : Declaration} (h : Reached inventory e d) :
    ∃ found ∈ all inventory e, found.declaration = d := by
  have entered := ((invariant_all inventory e).entered_iff rfl d).2 h
  simpa [Search.entered] using entered

theorem inside_of_all (ordered : e.lines.first ≤ e.lines.last) {before after : List Dependency}
    {d : Dependency}
    (h : all inventory e = before ++ d :: after) : e.lines.covers d.callLines = true ∨
      ∃ around ∈ before, around.declaration ≠ d.declaration ∧
      around.lines.covers d.callLines = true := by
  obtain ⟨n, reached⟩ := Search.exists_iterate_eq inventory e
  have sited := Search.sited_iterate inventory ordered n
  have distinct := (invariant_all inventory e).distinct
  rw [reached] at sited
  rw [Search.entered, h] at distinct
  have inside := sited.found after.reverse d before.reverse (by simp [h])
  refine inside.imp_right ?_
  rintro ⟨around, there, covers⟩
  refine ⟨around, List.mem_reverse.1 there, fun same => ?_, covers⟩
  simp only [List.reverse_append, List.reverse_cons, List.append_assoc, List.singleton_append,
    List.map_append, List.map_cons, List.nodup_append, List.nodup_cons] at distinct
  exact distinct.2.1.1 (same ▸ List.mem_map_of_mem there)

theorem inside_of_pending (ordered : e.lines.first ≤ e.lines.last) {n : Nat} {call : Pending}
    (h : call ∈ ((Search.step inventory)^[n] (Search.start inventory e)).pending) :
    Inside e (all inventory e) call.lines := by
  have sited := Search.sited_iterate inventory ordered n
  have invariant := Search.invariant_iterate (Search.invariant_start inventory e) n
  refine (sited.pending call h).imp_right ?_
  rintro ⟨around, there, covers⟩
  obtain ⟨found, member, same⟩ := exists_mem_all (invariant.sound _ (List.mem_map_of_mem there))
  have lines : found.lines = around.lines := congrArg Declaration.lines same
  exact ⟨found, member, by rw [lines, covers]⟩

end Dependency

namespace Import

open Dependency

variable {inventory : Inventory} {e : Endpoint}

/-- Does a line stand in the code that is shown: in the endpoint, or in the declaration of a
dependency? -/
def shown (e : Endpoint) (dependencies : List Dependency) (line : Int) : Bool :=
  e.lines.contains line || dependencies.any fun d => d.lines.contains line

theorem shown_of_inside {dependencies : List Dependency} {range : LineRange} {line : Int}
    (h : Inside e dependencies range) (hl : range.contains line = true) :
    shown e dependencies line = true := by
  rw [shown, Bool.or_eq_true, List.any_eq_true]
  exact h.imp (fun covers => LineRange.contains_of_covers covers hl)
    fun ⟨around, there, covers⟩ => ⟨around, there, LineRange.contains_of_covers covers hl⟩

theorem contains_iff_shown (ordered : e.lines.first ≤ e.lines.last) (line : Int) :
    ((e.lines :: (all inventory e).flatMap fun d => [d.callLines, d.lines]).any (·.contains line)) =
      shown e (all inventory e) line := by
  rw [Bool.eq_iff_iff, List.any_eq_true]
  constructor
  · rintro ⟨range, there, hl⟩
    rcases List.mem_cons.1 there with rfl | there
    · rw [shown, hl, Bool.true_or]
    · obtain ⟨d, member, there⟩ := List.mem_flatMap.1 there
      rcases List.mem_pair.1 there with rfl | rfl
      · obtain ⟨before, after, split⟩ := List.append_of_mem member
        refine shown_of_inside ((inside_of_all ordered split).imp_right ?_) hl
        rintro ⟨around, there, -, covers⟩
        exact ⟨around, split ▸ List.mem_append_left _ there, covers⟩
      · rw [shown, Bool.or_eq_true, List.any_eq_true]
        exact .inr ⟨d, member, hl⟩
  · intro h
    rw [shown, Bool.or_eq_true, List.any_eq_true] at h
    rcases h with hl | ⟨d, member, hl⟩
    · exact ⟨e.lines, List.mem_cons_self, hl⟩
    · exact ⟨d.lines, List.mem_cons_of_mem _ (List.mem_flatMap.2 ⟨d, member, by simp⟩), hl⟩

theorem relevant_eq (ordered : e.lines.first ≤ e.lines.last) :
    relevant inventory e (all inventory e) =
      inventory.imports.filter fun i =>
        i.pathExists && i.usageLines.any (shown e (all inventory e)) := by
  unfold relevant
  dsimp only
  simp only [contains_iff_shown ordered]

/-- The relevant imports of an endpoint that does not end before it starts are, in their order and
each where it stands, those on disk with a line of use in the endpoint or in the declaration of a
dependency. The call that led to a dependency lies in the endpoint or in another dependency, found
before; and an import that is used on a line of a call that the search ever has to follow, be it to
a declaration that was entered before, is among them. -/
theorem relevant_shown (inventory : Inventory) (e : Endpoint)
    (ordered : e.lines.first ≤ e.lines.last) :
    relevant inventory e (all inventory e) =
        inventory.imports.filter (fun i =>
          i.pathExists && i.usageLines.any (shown e (all inventory e))) ∧
      (∀ before d after, all inventory e = before ++ d :: after →
        e.lines.covers d.callLines = true ∨ ∃ around ∈ before, around.declaration ≠ d.declaration ∧
        around.lines.covers d.callLines = true) ∧
      ∀ n, ∀ call ∈ ((Search.step inventory)^[n] (Search.start inventory e)).pending,
      ∀ i ∈ inventory.imports,
        i.pathExists = true → ∀ line ∈ i.usageLines, call.lines.contains line = true →
          i ∈ relevant inventory e (all inventory e) := by
  refine ⟨relevant_eq ordered, fun before d after split => inside_of_all ordered split, ?_⟩
  intro n call waiting i member onDisk line use hl
  rw [relevant_eq ordered, List.mem_filter, onDisk, Bool.true_and, List.any_eq_true]
  exact ⟨member, line, use, shown_of_inside (inside_of_pending ordered waiting) hl⟩

def twiceCalled : Inventory :=
  ⟨"/proj/app.js", .javascript, [], [⟨"load", ⟨10, 14⟩⟩, ⟨"db", ⟨20, 22⟩⟩], [],
    [⟨"load", ⟨3, 3⟩, .function⟩, ⟨"db", ⟨12, 12⟩, .function⟩, ⟨"load", ⟨21, 21⟩, .function⟩],
    [⟨"a", some "a", "./a.js", .statement, .ofText "/proj/a.js", 1, true, [3]⟩,
      ⟨"b", some "b", "./b.js", .statement, .ofText "/proj/b.js", 1, true, [21, 40]⟩,
      ⟨"c", some "c", "./c.js", .statement, .ofText "/proj/c.js", 1, true, [40]⟩]⟩

def twiceRegistered : Endpoint := ⟨.get, some "/x", "/proj/app.js", ⟨2, 4⟩, .call, ["load"]⟩

theorem relevant_shown_twiceCalled :
    twiceRegistered.lines.first ≤ twiceRegistered.lines.last ∧
      (relevant twiceCalled twiceRegistered (all twiceCalled twiceRegistered)).map
        (·.importedName) = ["a", "b"] ∧
      (all twiceCalled twiceRegistered).map (·.callLines) = [⟨2, 2⟩, ⟨12, 12⟩] ∧
      twiceCalled.imports[0] ∈ relevant twiceCalled twiceRegistered
        (all twiceCalled twiceRegistered) := by
  have ordered : twiceRegistered.lines.first ≤ twiceRegistered.lines.last := by decide
  obtain ⟨kept, -, skipped⟩ := relevant_shown twiceCalled twiceRegistered ordered
  refine ⟨ordered, ?_, by decide +kernel, ?_⟩
  · rw [kept]
    decide +kernel
  · exact skipped 1 ⟨"load", ⟨3, 3⟩⟩ (by decide +kernel) _ (List.getElem_mem _) rfl 3
      (by decide) (by decide)

end Import

end EndpointAtlas
