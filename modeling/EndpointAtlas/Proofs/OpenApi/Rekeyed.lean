import EndpointAtlas.Proofs.OpenApi.Finish

/-!
Paths that are spelled with colons, and what the last pass makes of them. Main statement: of all
spellings of a path the last one with a colon gives the operation of a method, and the one with
braces where none with a colon does, in whatever order they are listed; no path and no method is
lost, and none comes in.
-/

set_option autoImplicit false

namespace EndpointAtlas.Document

variable {paths : Paths} {names : List String} {path route method : String}

/-- Does no path stand twice in a document, and no method twice at a path? -/
structure Distinct (paths : Paths) : Prop where
  once : paths.keys.Nodup
  methods : ∀ entry ∈ paths, (Entries.keys entry.2).Nodup

theorem distinct_iff (paths : Paths) :
    Distinct paths ↔ paths.keys.Nodup ∧ ∀ entry ∈ paths, (Entries.keys entry.2).Nodup :=
  ⟨fun h => ⟨h.once, h.methods⟩, fun ⟨once, methods⟩ => ⟨once, methods⟩⟩

instance (paths : Paths) : Decidable (Distinct paths) := decidable_of_iff' _ (distinct_iff paths)

def Objects (paths : Paths) : Prop :=
  ∀ entry ∈ paths, ∀ operation ∈ entry.2, operation.2.fields?.isSome = true

instance (paths : Paths) : Decidable (Objects paths) := inferInstanceAs (Decidable (∀ _ ∈ _, _))

/-! ### One path -/

theorem rekey_of_braced (paths : Paths) (h : Route.normalize path = path) :
    rekey paths path = paths := by
  rw [rekey, if_pos h]

theorem rekey_of_colon (paths : Paths) (h : Route.normalize path ≠ path) :
    rekey paths path = (paths.erase path).put (Route.normalize path)
      ((((paths.erase path).get? (Route.normalize path)).getD []).putAll
        ((paths.get? path).getD [])) := by
  rw [rekey, if_neg h]

theorem get?_rekey (paths : Paths) (path route : String) :
    (rekey paths path).get? route =
      if Route.normalize path = path then paths.get? route
      else if Route.normalize path = route then
        some ((((paths.erase path).get? route).getD []).putAll ((paths.get? path).getD []))
      else if path = route then none else paths.get? route := by
  split
  · rename_i braced
    rw [rekey_of_braced paths braced]
  · rename_i colon
    rw [rekey_of_colon paths colon, Entries.get?_put]
    split
    · rename_i same
      rw [same]
    · exact Entries.get?_erase path route paths

theorem forall_rekey {P : PathItem → Prop} (empty : P [])
    (together : ∀ item added : PathItem, P item → P added → P (item.putAll added))
    (h : ∀ entry ∈ paths, P entry.2) (path : String) : ∀ entry ∈ rekey paths path, P entry.2 := by
  by_cases braced : Route.normalize path = path
  · rwa [rekey_of_braced paths braced]
  · rw [rekey_of_colon paths braced]
    have rest : ∀ entry ∈ paths.erase path, P entry.2 :=
      fun entry he => h entry (List.mem_of_mem_filter he)
    intro entry he
    rcases Entries.mem_put he with rfl | he
    · exact together _ _ (Entries.getD_get? rest empty _) (Entries.getD_get? h empty _)
    · exact rest entry he

theorem Distinct.rekey (h : Distinct paths) (path : String) : Distinct (rekey paths path) where
  once := by
    by_cases braced : Route.normalize path = path
    · rw [rekey_of_braced paths braced]
      exact h.once
    · rw [rekey_of_colon paths braced]
      exact Entries.nodup_keys_put (Entries.nodup_keys_erase path h.once)
  methods := forall_rekey (P := fun item => (Entries.keys item).Nodup) List.nodup_nil
    (fun _ added item _ => Entries.nodup_keys_putAll added item) h.methods path

theorem Objects.rekey (h : Objects paths) (path : String) : Objects (rekey paths path) :=
  forall_rekey (P := fun item => ∀ operation ∈ item, operation.2.fields?.isSome = true) nofun
    (fun _ _ item added operation ho =>
      (Entries.mem_putAll ho).elim (added operation) (item operation)) h path

def moving? (paths : Paths) (route method path : String) : Option Json :=
  if path ≠ route ∧ Route.normalize path = route then operation? paths path method else none

theorem operation?_rekey (h : Distinct paths) (braced : Route.normalize route = route)
    (method path : String) :
    operation? (rekey paths path) route method =
      (moving? paths route method path).or (operation? paths route method) := by
  unfold moving?
  rw [operation?, get?_rekey]
  split
  · rename_i fixed
    rw [if_neg fun spells => spells.1 (fixed.symm.trans spells.2)]
    rfl
  · rename_i colon
    have other : path ≠ route := fun same => colon (same ▸ braced)
    split
    · rename_i spells
      rw [if_pos ⟨other, spells⟩, Option.bind_some, Entries.get?_putAll, Entries.get?_erase,
        if_neg other]
      unfold operation?
      cases there : paths.get? path with
      | none =>
        cases paths.get? route <;> rfl
      | some item =>
        rw [Option.getD_some, Entries.getLast?_values (h.methods _ (Entries.mem_of_get? there)),
          Option.bind_some]
        cases paths.get? route <;> rfl
    · rename_i elsewhere
      rw [if_neg fun spells => elsewhere spells.2]
      rfl

/-! ### One path after the other -/

theorem get?_foldl_rekey (colon : Route.normalize route ≠ route) (names : List String)
    (paths : Paths) :
    (names.foldl rekey paths).get? route = if route ∈ names then none else paths.get? route := by
  induction names generalizing paths with
  | nil => rfl
  | cons name rest ih =>
    rw [List.foldl_cons, ih, get?_rekey]
    have elsewhere : Route.normalize name ≠ route := fun spells =>
      colon (spells ▸ Route.normalize_normalize name)
    by_cases later : route ∈ rest
    · simp [later]
    · by_cases same : name = route
      · simp [same, colon]
      · simp [later, elsewhere, same, Ne.symm same]

theorem isSome_get?_foldl_rekey (braced : Route.normalize route = route) (names : List String)
    (paths : Paths) :
    ((names.foldl rekey paths).get? route).isSome = true ↔
      (∃ name ∈ names, name ≠ route ∧ Route.normalize name = route) ∨
      (paths.get? route).isSome = true := by
  induction names generalizing paths with
  | nil => simp
  | cons name rest ih =>
    rw [List.foldl_cons, ih, get?_rekey]
    simp only [List.mem_cons, exists_eq_or_imp]
    by_cases spells : Route.normalize name = route
    · by_cases same : name = route
      · simp [same, braced]
      · have colon : Route.normalize name ≠ name := fun fixed => same (fixed.symm.trans spells)
        simp [same, spells, Ne.symm same]
    · have other : name ≠ route := fun same => spells (same ▸ braced)
      simp [spells, other]

theorem moving?_rekey {name : String} (other : path ≠ name) :
    moving? (rekey paths name) route method path = moving? paths route method path := by
  unfold moving?
  split
  · rename_i spells
    have elsewhere : Route.normalize name ≠ path := by
      rintro rfl
      exact spells.1 ((Route.normalize_normalize name).symm.trans spells.2)
    rw [operation?, operation?, get?_rekey, if_neg elsewhere, if_neg other.symm, ite_self]
  · rfl

theorem operation?_foldl_rekey (h : Distinct paths) (once : names.Nodup)
    (braced : Route.normalize route = route) (method : String) :
    operation? (names.foldl rekey paths) route method =
      (names.filterMap (moving? paths route method)).getLast?.or
        (operation? paths route method) := by
  induction names generalizing paths with
  | nil => rfl
  | cons name rest ih =>
    obtain ⟨first, once⟩ := List.nodup_cons.1 once
    have later : rest.filterMap (moving? (rekey paths name) route method) =
        rest.filterMap (moving? paths route method) :=
      List.filterMap_congr fun path hp => moving?_rekey fun same => first (same ▸ hp)
    rw [List.foldl_cons, ih (h.rekey name) once, later, operation?_rekey h braced,
      ← Option.or_assoc]
    cases moves : moving? paths route method name with
    | none => rw [List.filterMap_cons_none moves, Option.or_none]
    | some operation =>
      rw [List.filterMap_cons_some moves, List.getLast?_cons]
      cases (rest.filterMap (moving? paths route method)).getLast? <;> rfl

/-! ### All paths -/

theorem mem_keys_rekeyAll :
    route ∈ (rekeyAll paths).keys ↔ ∃ path ∈ paths.keys, Route.normalize path = route := by
  rw [← Entries.get?_isSome_iff, rekeyAll]
  by_cases braced : Route.normalize route = route
  · rw [isSome_get?_foldl_rekey braced, Entries.get?_isSome_iff]
    constructor
    · rintro (⟨path, hp, -, spells⟩ | there)
      · exact ⟨path, hp, spells⟩
      · exact ⟨route, there, braced⟩
    · rintro ⟨path, hp, spells⟩
      by_cases same : path = route
      · exact .inr (same ▸ hp)
      · exact .inl ⟨path, hp, same, spells⟩
  · rw [get?_foldl_rekey braced]
    refine iff_of_false ?_ ?_
    · split
      · exact Bool.false_ne_true
      · rename_i gone
        rwa [Entries.get?_isSome_iff]
    · rintro ⟨path, -, rfl⟩
      exact braced (Route.normalize_normalize path)

theorem braced_rekeyAll (paths : Paths) : Braced (rekeyAll paths) := by
  intro route there
  obtain ⟨path, -, rfl⟩ := mem_keys_rekeyAll.1 (Entries.get?_isSome_iff.1 there)
  exact Route.normalize_normalize path

theorem Distinct.rekeyAll (h : Distinct paths) : Distinct (rekeyAll paths) := by
  have all : ∀ names : List String, Distinct (names.foldl Document.rekey paths) := by
    intro names
    induction names generalizing paths with
    | nil => exact h
    | cons name rest ih => exact ih (h.rekey name)
  exact all paths.keys

theorem Objects.rekeyAll (h : Objects paths) : Objects (rekeyAll paths) := by
  have all : ∀ names : List String, Objects (names.foldl Document.rekey paths) := by
    intro names
    induction names generalizing paths with
    | nil => exact h
    | cons name rest ih => exact ih (h.rekey name)
  exact all paths.keys

theorem keys_withoutWildcards (paths : Paths) :
    (withoutWildcards paths).keys = paths.keys.filter (· ∉ wildcards) := by
  simp [withoutWildcards, wildcards, Entries.keys_erase, List.filter_filter, not_or, and_comm]

theorem withoutWildcards_of_none (h : ∀ path ∈ wildcards, path ∉ paths.keys) :
    withoutWildcards paths = paths := by
  rw [wildcards, List.forall_mem_cons, List.forall_mem_singleton] at h
  rw [withoutWildcards, wildcards, List.foldl_cons, Entries.erase_of_not_mem h.1, List.foldl_cons,
    Entries.erase_of_not_mem h.2, List.foldl_nil]

theorem mem_of_mem_withoutWildcards {entry : String × PathItem}
    (h : entry ∈ withoutWildcards paths) : entry ∈ paths :=
  List.mem_of_mem_filter (List.mem_of_mem_filter h)

theorem Distinct.withoutWildcards (h : Distinct paths) : Distinct (withoutWildcards paths) where
  once := by
    rw [keys_withoutWildcards]
    exact h.once.filter _
  methods entry he := h.methods entry (mem_of_mem_withoutWildcards he)

theorem normalize_wildcard (h : path ∈ wildcards) : Route.normalize path = path := by
  have all : ∀ wildcard ∈ wildcards, Route.normalize wildcard = wildcard := by decide +kernel
  exact all path h

theorem normalize_ne_wildcard (h : path ∉ wildcards) : Route.normalize path ∉ wildcards := by
  by_cases braced : Route.normalize path = path
  · rwa [braced]
  · have brace := Route.brace_mem_normalize braced
    intro wild
    have none : ∀ wildcard ∈ wildcards, '{' ∉ wildcard.toList := by decide +kernel
    exact none _ wild brace

/-- A document with its paths in braces, before the repairs. -/
def rekeyed (document : Document) : Document :=
  { document with paths := rekeyAll (withoutWildcards document.paths) }

variable {document final : Document}

theorem mem_keys_rekeyed : route ∈ document.rekeyed.paths.keys ↔
    ∃ path ∈ document.paths.keys, path ∉ wildcards ∧ Route.normalize path = route := by
  rw [rekeyed, mem_keys_rekeyAll, keys_withoutWildcards]
  simp only [List.mem_filter, decide_eq_true_eq, and_assoc]

theorem not_mem_keys_rekeyed (h : path ∈ wildcards) : path ∉ document.rekeyed.paths.keys := by
  intro there
  obtain ⟨other, -, kept, rfl⟩ := mem_keys_rekeyed.1 there
  exact normalize_ne_wildcard kept h

theorem not_mem_wildcards_of_moving? {name : String} {operation : Json}
    (h : moving? paths route method name = some operation) : name ∉ wildcards := by
  obtain ⟨⟨other, spells⟩, -⟩ := Option.ite_none_right_eq_some.1 h
  exact fun wild => other ((normalize_wildcard wild).symm.trans spells)

theorem moving?_withoutWildcards {name : String} (kept : name ∉ wildcards) :
    moving? (withoutWildcards paths) route method name = moving? paths route method name := by
  rw [moving?, moving?, operation?_withoutWildcards, if_neg kept]

theorem filterMap_moving?_withoutWildcards (paths : Paths) (route method : String) :
    (withoutWildcards paths).keys.filterMap (moving? (withoutWildcards paths) route method) =
      paths.keys.filterMap (moving? paths route method) := by
  rw [keys_withoutWildcards, List.filterMap_filter]
  refine List.filterMap_congr fun name _ => ?_
  by_cases wild : name ∈ wildcards
  · have stays : moving? paths route method name = none :=
      Option.eq_none_iff_forall_ne_some.2 fun operation h => not_mem_wildcards_of_moving? h wild
    simp [wild, stays]
  · simp [wild, moving?_withoutWildcards wild]

/-- Where the operation of a route and a method comes from: the last path that spells the route with
a colon and has the method, or the route itself where there is no such path. -/
inductive Source (paths : Paths) (route method path : String) : Prop where
  | colon (earlier later : List String) (listed : paths.keys =
      earlier ++ path :: later) (other : path ≠ route) (spells : Route.normalize path = route)
      (last : ∀ next ∈ later, next ≠ route → Route.normalize next = route →
        operation? paths next method = none)
  | own (same : path = route) (kept : path ∉ wildcards) (braced : Route.normalize path = path)
      (alone : ∀ other ∈ paths.keys, other ≠ route → Route.normalize other = route →
        operation? paths other method = none)

theorem operation?_of_not_mem_keys (h : route ∉ paths.keys) :
    operation? paths route method = none := by
  rw [← Entries.get?_isSome_iff, Option.not_isSome_iff_eq_none] at h
  rw [operation?, h, Option.bind_none]

theorem mem_keys_of_operation? {operation : Json}
    (h : operation? paths route method = some operation) : route ∈ paths.keys := by
  by_contra gone
  rw [operation?_of_not_mem_keys gone] at h
  cases h

theorem moving?_eq_some {name : String} {operation : Json} :
    moving? paths route method name = some operation ↔
    (name ≠ route ∧ Route.normalize name = route) ∧ operation? paths name method = some operation :=
  Option.ite_none_right_eq_some

theorem moving?_eq_none {name : String} : moving? paths route method name = none ↔
    (name ≠ route → Route.normalize name = route → operation? paths name method = none) := by
  rw [moving?, ite_eq_right_iff, and_imp]

theorem getLast?_filterMap_eq_some {α β : Type} {f : α → Option β} {list : List α} {b : β} :
    (list.filterMap f).getLast? = some b ↔
      ∃ earlier a later, list = earlier ++ a :: later ∧ f a = some b ∧
      ∀ other ∈ later, f other = none := by
  rw [List.getLast?_filterMap, List.findSome?_eq_some_iff]
  constructor
  · rintro ⟨later, a, earlier, split, gives, last⟩
    refine ⟨earlier.reverse, a, later.reverse, ?_, gives, fun other ho =>
      last other (List.mem_reverse.1 ho)⟩
    rw [← List.reverse_reverse list, split]
    simp
  · rintro ⟨earlier, a, later, rfl, gives, last⟩
    exact ⟨later.reverse, a,
      earlier.reverse, by simp, gives, fun other ho => last other (List.mem_reverse.1 ho)⟩

theorem operation?_rekeyed_of_braced (h : Distinct document.paths)
    (braced : Route.normalize route = route) (method : String) :
    operation? document.rekeyed.paths route method =
      (document.paths.keys.filterMap (moving? document.paths route method)).getLast?.or
        (if route ∈ wildcards then none else operation? document.paths route method) := by
  rw [rekeyed, rekeyAll, operation?_foldl_rekey h.withoutWildcards h.withoutWildcards.once braced,
    filterMap_moving?_withoutWildcards, operation?_withoutWildcards]

theorem operation?_rekeyed_of_colon (colon : Route.normalize route ≠ route) (method : String) :
    operation? document.rekeyed.paths route method = none := by
  cases there : document.rekeyed.paths.get? route with
  | none => rw [operation?, there, Option.bind_none]
  | some item =>
    exact absurd (braced_rekeyAll _ route (by rw [rekeyed] at there; rw [there]; rfl)) colon

theorem operation?_rekeyed (h : Distinct document.paths) {operation : Json} :
    operation? document.rekeyed.paths route method = some operation ↔
      ∃ path, Source document.paths route method path ∧
      operation? document.paths path method = some operation := by
  by_cases braced : Route.normalize route = route
  · rw [operation?_rekeyed_of_braced h braced, Option.or_eq_some_iff, getLast?_filterMap_eq_some,
      List.getLast?_eq_none_iff, List.filterMap_eq_nil_iff]
    simp only [moving?_eq_some, moving?_eq_none]
    constructor
    · rintro (⟨earlier, path, later, listed, ⟨⟨other, spells⟩, gives⟩, last⟩ | ⟨alone, gives⟩)
      · exact ⟨path, .colon earlier later listed other spells last, gives⟩
      · split at gives
        · cases gives
        · rename_i kept
          exact ⟨route, .own rfl kept braced alone, gives⟩
    · rintro ⟨path, ⟨earlier, later, listed, other, spells, last⟩ | ⟨rfl, kept, -, alone⟩, gives⟩
      · exact .inl ⟨earlier, path, later, listed, ⟨⟨other, spells⟩, gives⟩, last⟩
      · exact .inr ⟨alone, by rwa [if_neg kept]⟩
  · -- No path with a colon is left, and none is spelled by another.
    rw [operation?_rekeyed_of_colon braced]
    refine iff_of_false nofun ?_
    rintro ⟨path, ⟨-, -, -, -, rfl, -⟩ | ⟨rfl, -, stays, -⟩, -⟩
    · exact braced (Route.normalize_normalize path)
    · exact braced stays

theorem isSome_operation?_rekeyed (h : Distinct document.paths) :
    (operation? document.rekeyed.paths route method).isSome = true ↔
      ∃ path ∈ document.paths.keys, (path ∉ wildcards ∧ Route.normalize path = route) ∧
        (operation? document.paths path method).isSome = true := by
  constructor
  · rw [Option.isSome_iff_exists]
    rintro ⟨operation, gives⟩
    obtain ⟨path, source, gives⟩ := (operation?_rekeyed h).1 gives
    refine ⟨path, mem_keys_of_operation? gives, ?_, by rw [gives]; rfl⟩
    cases source with
    | colon earlier later listed other spells last =>
      exact ⟨fun wild => other ((normalize_wildcard wild).symm.trans spells), spells⟩
    | own same kept braced alone => exact ⟨kept, braced.trans same⟩
  · rintro ⟨path, hp, ⟨kept, rfl⟩, gives⟩
    rw [operation?_rekeyed_of_braced h (Route.normalize_normalize path)]
    by_contra lost
    obtain ⟨alone, own⟩ := Option.or_eq_none_iff.1 (Option.not_isSome_iff_eq_none.1 lost)
    rw [List.getLast?_eq_none_iff, List.filterMap_eq_nil_iff] at alone
    have none : operation? document.paths path method = none := by
      by_cases braced : path = Route.normalize path
      · rwa [← braced, if_neg kept] at own
      · exact moving?_eq_none.1 (alone path hp) braced rfl
    rw [none] at gives
    cases gives

theorem rekeyed_of_braced (braced : Braced document.paths)
    (noWildcard : ∀ path ∈ wildcards, path ∉ document.paths.keys) :
    document.rekeyed = document := by
  rw [rekeyed, withoutWildcards_of_none noWildcard, rekeyAll_of_braced braced]

theorem rekeyed_rekeyed (document : Document) : document.rekeyed.rekeyed = document.rekeyed :=
  rekeyed_of_braced (braced_rekeyAll _) fun _ => not_mem_keys_rekeyed

theorem finish_rekeyed (document : Document) : document.rekeyed.finish = document.finish := by
  have same : rekeyAll (withoutWildcards document.rekeyed.paths) = document.rekeyed.paths :=
    congrArg Document.paths (rekeyed_rekeyed document)
  rw [finish, finish, same]
  rfl

/-! ### The whole pass -/

theorem keys_changeAt (paths : Paths) (path key : String) (change : Json → Json) :
    (changeAt paths path key change).keys = paths.keys := by
  unfold changeAt
  split
  · rename_i item hi
    split
    · exact Entries.keys_put _ (by rw [hi]; rfl)
    · rfl
  · rfl

theorem changeAt_congr {key : String} {change other : Json → Json}
    (h : ∀ operation, operation? paths path key = some operation →
      change operation = other operation) :
    changeAt paths path key change = changeAt paths path key other := by
  unfold changeAt
  cases hi : paths.get? path with
  | none => rfl
  | some item =>
    cases ho : Entries.get? key item with
    | none => simp only [ho]
    | some operation =>
      have gives : operation? paths path key =
          some operation := by rw [operation?, hi, Option.bind_some, ho]
      simp only [ho, h operation gives]

def created (operation : Json) : Json := (repairCreate operation).toOption.getD operation

def repaired (paths : Paths) : Paths :=
  changeAt (changeAt (changeAt paths "/{name}" "post" created) "/{name}" "get" repairRead)
    "/{name}/{id}" "delete" repairRemove

theorem keys_repaired (paths : Paths) : (repaired paths).keys = paths.keys := by
  rw [repaired, keys_changeAt, keys_changeAt, keys_changeAt]

theorem finish_eq_ok_iff : document.finish = .ok final ↔
    (∀ operation, operation? document.rekeyed.paths "/{name}" "post" = some operation →
      ∃ other, repairCreate operation = .ok other) ∧
      final = { document with paths := repaired document.rekeyed.paths } := by
  have keyed : rekeyAll (withoutWildcards document.paths) = document.rekeyed.paths := rfl
  unfold finish
  rw [keyed]
  cases there : operation? document.rekeyed.paths "/{name}" "post" with
  | none =>
    rw [repaired, changeAt_of_none there]
    simp [there, eq_comm, pure, Except.pure, bind, Except.bind]
  | some operation =>
    cases hr : repairCreate operation with
    | error cause => simp [there, hr, bind, Except.bind]
    | ok other =>
      have same : changeAt document.rekeyed.paths "/{name}" "post" (fun _ => other) =
          changeAt document.rekeyed.paths "/{name}" "post" created := by
        refine changeAt_congr fun found hf => ?_
        obtain rfl := Option.some.inj (there.symm.trans hf)
        rw [created, hr]
        rfl
      rw [repaired, ← same]
      simp [there, hr, eq_comm, pure, Except.pure, bind, Except.bind]

theorem Objects.operation? (h : Objects paths) {operation : Json}
    (there : Document.operation? paths route method = some operation) :
    ∃ fields, operation = .object fields := by
  obtain ⟨item, hi, ho⟩ := Option.bind_eq_some_iff.1 there
  have isObject := h _ (Entries.mem_of_get? hi) _ (Entries.mem_of_get? ho)
  cases operation with
  | object fields => exact ⟨fields, rfl⟩
  | null | bool | number | text | list => cases isObject

theorem Objects.rekeyed (h : Objects document.paths) : Objects document.rekeyed.paths :=
  Objects.rekeyAll fun entry he => h entry (mem_of_mem_withoutWildcards he)

theorem Objects.exists_finish (h : Objects document.paths) :
    ∃ final, document.finish = .ok final := by
  refine ⟨_, finish_eq_ok_iff.2 ⟨fun operation there => ?_, rfl⟩⟩
  obtain ⟨fields, rfl⟩ := h.rekeyed.operation? there
  exact ⟨_, rfl⟩

theorem finished_rekeyed (h : document.finish = .ok final) : Finished document.rekeyed final := by
  have ends : Finishes document.rekeyed document.rekeyed.finish :=
    finishes_finish (braced_rekeyAll _)
  rw [finish_rekeyed, h] at ends
  cases ends with
  | done _ finished => exact finished

/-- How the paths of a document that has gone through the last pass stand to those that it had
before. -/
structure Rekeys (document final : Document) : Prop where
  once : final.paths.keys.Nodup
  noWildcard : ∀ path ∈ final.paths.keys, path ∉ wildcards
  braced : ∀ path ∈ final.paths.keys, Route.normalize path = path
  paths : ∀ route, route ∈ final.paths.keys ↔
    ∃ path ∈ document.paths.keys, path ∉ wildcards ∧ Route.normalize path = route
  methods : ∀ route method, (operation? final.paths route method).isSome = true ↔
    ∃ path ∈ document.paths.keys, (path ∉ wildcards ∧ Route.normalize path = route) ∧
      (operation? document.paths path method).isSome = true
  operations : ∀ route method operation, operation? final.paths route method = some operation ↔
    ∃ path source, Source document.paths route method path ∧
    operation? document.paths path method = some source ∧
      mended route method source = .ok operation

theorem keys_finish (h : document.finish = .ok final) :
    final.paths.keys = document.rekeyed.paths.keys := by
  rw [(finish_eq_ok_iff.1 h).2]
  exact keys_repaired _

theorem operation?_finish (h : document.finish = .ok final) (route method : String) :
    (operation? final.paths route method).map .ok =
      (operation? document.rekeyed.paths route method).map (mended route method) := by
  rw [(finished_rekeyed h).operations]
  split
  · rename_i wild
    rw [operation?_of_not_mem_keys (not_mem_keys_rekeyed wild)]
    rfl
  · rfl

theorem operation?_finish_eq_some (h : document.finish = .ok final) {route method : String}
    {operation : Json} :
    operation? final.paths route method = some operation ↔
      ∃ source, operation? document.rekeyed.paths route method = some source ∧
        mended route method source = .ok operation := by
  rw [← Option.map_eq_some_iff, ← operation?_finish h, Option.map_eq_some_iff]
  simp only [Except.ok.injEq, exists_eq_right]

theorem rekeys_of_finish (distinct : Distinct document.paths) (h : document.finish = .ok final) :
    Rekeys document final := by
  have keys := keys_finish h
  refine ⟨?_, ?_, ?_, ?_, ?_, ?_⟩
  · rw [keys]
    exact distinct.withoutWildcards.rekeyAll.once
  · exact fun path there wild => not_mem_keys_rekeyed wild (keys ▸ there)
  · exact fun path there => braced_rekeyAll _ path (Entries.get?_isSome_iff.2 (keys ▸ there))
  · intro route
    rw [keys, mem_keys_rekeyed]
  · intro route method
    rw [← isSome_operation?_rekeyed distinct]
    have same := congrArg Option.isSome (operation?_finish h route method)
    rw [Option.isSome_map, Option.isSome_map] at same
    rw [same]
  · intro route method operation
    rw [operation?_finish_eq_some h]
    simp only [operation?_rekeyed distinct]
    constructor
    · rintro ⟨source, ⟨path, from_, gives⟩, mends⟩
      exact ⟨path, source, from_, gives, mends⟩
    · rintro ⟨path, source, from_, gives, mends⟩
      exact ⟨source, ⟨path, from_, gives⟩, mends⟩

/-- However often the paths of a document spell a route and in whatever order they are listed, the
last pass leaves each route once, in braces, with the methods of all its spellings. An operation is
that of the last spelling with a colon that has the method, or else of the route itself, repaired as
its place asks. The pass comes to its end unless an operation is no object. -/
theorem finish_rekeys (document : Document) (distinct : Distinct document.paths) :
    (Objects document.paths → ∃ final, document.finish = .ok final) ∧
      ∀ final, document.finish = .ok final → Rekeys document final :=
  ⟨Objects.exists_finish, fun _ => rekeys_of_finish distinct⟩

def summarised (summary : String) : Json := .object [("summary", .text summary)]

def spelledThrice : Document where
  head := default
  generatedAt := ""
  paths := [
    ("/:a/{b}", [("get", summarised "first"), ("put", summarised "first")]),
    ("/*", [("get", summarised "any")]),
    ("/{a}/{b}", [("get", summarised "own"), ("delete", summarised "own")]),
    ("/{a}/:b", [("get", summarised "last")])]

theorem finish_rekeys_spelledThrice :
    Distinct spelledThrice.paths ∧ Objects spelledThrice.paths ∧
      ∃ final, spelledThrice.finish = .ok final ∧ Rekeys spelledThrice final ∧
        operation? final.paths "/{a}/{b}" "get" = some (summarised "last") ∧
        operation? final.paths "/{a}/{b}" "delete" = some (summarised "own") := by
  have distinct : Distinct spelledThrice.paths := by decide
  have objects : Objects spelledThrice.paths := by decide
  obtain ⟨ends, rekeys⟩ := finish_rekeys spelledThrice distinct
  obtain ⟨final, ok⟩ := ends objects
  refine ⟨distinct, objects, final, ok, rekeys final ok, ?_, ?_⟩
  · refine ((rekeys final ok).operations _ _ _).2 ⟨"/{a}/:b", summarised "last", ?_,
      rfl, by simp [mended]⟩
    exact .colon ["/:a/{b}", "/*", "/{a}/{b}"] [] rfl (by decide) (by decide +kernel)
      fun _ later => absurd later List.not_mem_nil
  · refine ((rekeys final ok).operations _ _ _).2 ⟨"/{a}/{b}", summarised "own", ?_,
      rfl, by simp [mended]⟩
    refine .own rfl (by decide) (by decide +kernel) fun other ho _ _ => ?_
    revert other
    simp [spelledThrice, Entries.keys, operation?, Entries.get?]

end EndpointAtlas.Document
