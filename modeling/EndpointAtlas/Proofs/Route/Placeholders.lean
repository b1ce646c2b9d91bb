import EndpointAtlas.Route.Template
import Mathlib.Data.List.Nodup
import Mathlib.Data.List.TakeWhile

set_option autoImplicit false

namespace EndpointAtlas.Route

def inBraces (c : Char) : Bool := c ≠ '/' && c ≠ '}'

/-- Does a text end inside a brace, with neither a slash nor a closing brace behind it? -/
def opened (text : List Char) : Bool := (text.reverse.takeWhile inBraces).contains '{'

/-- A name in braces in a template, behind the text `before`; a brace inside of another one opens
nothing. -/
structure Placeholder (template before name : List Char) : Prop where
  spelled : ∃ after, template = before ++ '{' :: (name ++ '}' :: after)
  nonempty : name ≠ []
  clean : ∀ c ∈ name, inBraces c = true
  outside : opened before = false

/-- The name that a text closes, `run` being what stands before the text since the open brace, in
reverse. -/
def closed? (run text : List Char) : Option (List Char) :=
  let name := run.reverse ++ text.takeWhile inBraces
  if name ≠ [] ∧ (text.dropWhile inBraces).head? = some '}' then some name else none

/-- The name of the placeholder that a text starts with, behind the text `before`. -/
def nameAt? (before : List Char) : List Char → Option (List Char)
  | [] => none
  | c :: text => if c = '{' ∧ opened before = false then closed? [] text else none

/-- The placeholders of a text behind the text `before`: what stands before each, and its name. -/
def placesFrom (before : List Char) : List Char → List (List Char × List Char)
  | [] => []
  | c :: rest => ((nameAt? before (c :: rest)).map fun name =>
      (before, name)).toList ++ placesFrom (before ++ [c]) rest

/-- The placeholders of a template. -/
def places (template : List Char) : List (List Char × List Char) := placesFrom [] template

variable {before name rest run template : List Char}

/-! ### Names from place to place -/

theorem opened_concat (text : List Char) (c : Char) :
    opened (text ++ [c]) = (inBraces c && (decide (c = '{') || opened text)) := by
  rw [opened, opened, List.reverse_append, List.reverse_singleton, List.singleton_append,
    List.takeWhile_cons]
  cases hc : inBraces c with
  | false => rfl
  | true => simp [eq_comm (a := '{')]

theorem closed?_cons (run : List Char) (c : Char) (rest : List Char) :
    closed? run (c :: rest) =
      if inBraces c then closed? (c :: run) rest
      else if c = '}' ∧ run ≠ [] then some run.reverse else none := by
  cases hc : inBraces c with
  | true => simp [closed?, hc]
  | false => simp [closed?, hc, and_comm]

theorem names_placesFrom_cons (before : List Char) (c : Char) (rest : List Char) :
    (placesFrom before (c :: rest)).map (·.2) =
      (nameAt? before (c :: rest)).toList ++ (placesFrom (before ++ [c]) rest).map (·.2) := by
  rw [placesFrom, List.map_append]
  cases nameAt? before (c :: rest) <;> rfl

/-- A scan that starts inside a brace gives the name that is closed first; and then, as does any
scan, the names of the placeholders further on. -/
theorem namesFrom_eq (run? : Option (List Char)) (before rest : List Char)
    (h : opened before = run?.isSome) :
    namesFrom run? rest = (run?.bind fun run => closed? run rest).toList ++
    (placesFrom before rest).map (·.2) := by
  induction rest generalizing run? before with
  | nil =>
    cases run? with
    | none => rfl
    | some run => simp [namesFrom, placesFrom, closed?]
  | cons c rest ih =>
    -- The induction carries that the scan stands inside a brace exactly if one is open at the end
    -- of `before`.
    have onward := opened_concat before c
    rw [h] at onward
    rw [names_placesFrom_cons, nameAt?, h]
    cases run? with
    | none =>
      by_cases hc : c = '{'
      · subst hc
        rw [namesFrom, if_pos rfl, ih (some []) _ onward]
        rfl
      · have outside : opened (before ++ [c]) = false := by simpa [hc] using onward
        rw [namesFrom, if_neg hc, ih none _ outside]
        simp [hc]
    | some run =>
      rw [namesFrom, Option.bind_some, closed?_cons]
      by_cases slash : c = '/'
      · subst slash
        rw [if_pos rfl, ih none _ onward]
        rfl
      · by_cases closing : c = '}'
        · subst closing
          rw [if_neg slash, if_pos rfl, ih none _ onward]
          cases run <;> rfl
        · have goes : inBraces c = true := by simp [inBraces, slash, closing]
          have inside : opened (before ++ [c]) = true := by simpa [goes] using onward
          rw [if_neg slash, if_neg closing, ih (some (c :: run)) _ inside]
          simp [goes]

theorem parameters_eq (route : String) :
    parameters route = (places route.toList).map fun place => String.ofList place.2 := by
  rw [parameters, namesFrom_eq none [] route.toList rfl, Option.bind_none, Option.toList_none,
    List.nil_append, List.map_map]
  rfl

example : parameters "/\x7ba\x7bb\x7d/\x7b\x7d/\x7bc/d\x7d" = ["a\x7bb"] := by decide +kernel

/-! ### Places -/

theorem closed?_nil_eq_some : closed? [] rest = some name ↔
    name ≠ [] ∧ (∀ c ∈ name, inBraces c = true) ∧ ∃ after, rest = name ++ '}' :: after := by
  unfold closed?
  dsimp only [List.reverse_nil, List.nil_append]
  rw [Option.ite_none_right_eq_some, Option.some.injEq]
  constructor
  · rintro ⟨⟨nonempty, closing⟩, rfl⟩
    obtain ⟨after, split⟩ := List.head?_eq_some_iff.1 closing
    refine ⟨nonempty, fun c => List.mem_takeWhile_imp, after, ?_⟩
    rw [← split, List.takeWhile_append_dropWhile]
  · rintro ⟨nonempty, clean, after, rfl⟩
    rw [List.takeWhile_append_of_pos clean, List.dropWhile_append_of_pos clean]
    simp [inBraces, nonempty]

theorem nameAt?_eq_some :
    nameAt? before rest = some name ↔ Placeholder (before ++ rest) before name := by
  constructor
  · intro h
    cases rest with
    | nil => cases h
    | cons c rest =>
      obtain ⟨⟨rfl, outside⟩, closes⟩ := Option.ite_none_right_eq_some.1 h
      obtain ⟨nonempty, clean, after, rfl⟩ := closed?_nil_eq_some.1 closes
      exact ⟨⟨after, rfl⟩, nonempty, clean, outside⟩
  · rintro ⟨⟨after, spelled⟩, nonempty, clean, outside⟩
    obtain rfl := List.append_cancel_left spelled
    exact Option.ite_none_right_eq_some.2 ⟨⟨rfl, outside⟩,
      closed?_nil_eq_some.2 ⟨nonempty, clean, after, rfl⟩⟩

theorem mem_placesFrom_iff {place : List Char × List Char} :
    place ∈ placesFrom before rest ↔
      (∃ gone, place.1 = before ++ gone) ∧ Placeholder (before ++ rest) place.1 place.2 := by
  obtain ⟨stood, name⟩ := place
  induction rest generalizing before with
  | nil =>
    refine iff_of_false List.not_mem_nil ?_
    rintro ⟨⟨gone, rfl⟩, ⟨after, spelled⟩, -⟩
    simp at spelled
  | cons c rest ih =>
    have here : (stood, name) ∈ ((nameAt? before (c :: rest)).map fun name =>
        (before, name)).toList ↔ stood = before ∧ Placeholder (before ++ c :: rest) stood name := by
      rw [Option.mem_toList, Option.map_eq_some_iff]
      constructor
      · rintro ⟨found, at_, same⟩
        obtain ⟨rfl, rfl⟩ := Prod.mk.inj same
        exact ⟨rfl, nameAt?_eq_some.1 at_⟩
      · rintro ⟨rfl, placeholder⟩
        exact ⟨name, nameAt?_eq_some.2 placeholder, rfl⟩
    rw [placesFrom, List.mem_append, here, ih, List.append_assoc, List.singleton_append,
      ← or_and_right]
    refine and_congr_left fun placeholder => ?_
    obtain ⟨after, spelled⟩ := placeholder.spelled
    constructor
    · rintro (rfl | ⟨gone, rfl⟩)
      · exact ⟨[], (List.append_nil _).symm⟩
      · exact ⟨c :: gone, by simp⟩
    · rintro ⟨gone, rfl⟩
      cases gone with
      | nil => exact .inl (List.append_nil _)
      | cons first gone =>
        rw [List.append_assoc] at spelled
        obtain ⟨rfl, -⟩ := List.cons.inj (List.append_cancel_left spelled)
        exact .inr ⟨gone, by simp⟩

theorem mem_places_iff {place : List Char × List Char} :
    place ∈ places template ↔ Placeholder template place.1 place.2 := by
  rw [places, mem_placesFrom_iff, List.nil_append, and_iff_right ⟨place.1, rfl⟩]

theorem nodup_placesFrom (before rest : List Char) : (placesFrom before rest).Nodup := by
  induction rest generalizing before with
  | nil => exact List.nodup_nil
  | cons c rest ih =>
    rw [placesFrom]
    cases nameAt? before (c :: rest) with
    | none => exact ih _
    | some name =>
      refine List.nodup_cons.2 ⟨fun again => ?_, ih _⟩
      obtain ⟨⟨gone, same⟩, -⟩ := mem_placesFrom_iff.1 again
      simp at same

theorem nodup_places (template : List Char) : (places template).Nodup :=
  nodup_placesFrom [] template

theorem nodup_names_iff : ((places template).map (·.2)).Nodup ↔
    ∀ before before' name, Placeholder template before name → Placeholder template before' name →
      before = before' := by
  rw [List.nodup_map_iff_inj_on (nodup_places template)]
  constructor
  · intro once before before' name h h'
    exact congrArg Prod.fst (once (before, name) (mem_places_iff.2 h) (before',
      name) (mem_places_iff.2 h') rfl)
  · rintro once ⟨before, name⟩ h ⟨before', name'⟩ h' rfl
    rw [once before before' name (mem_places_iff.1 h) (mem_places_iff.1 h')]

end EndpointAtlas.Route
