import EndpointAtlas.Proofs.Route.Placeholders
import EndpointAtlas.Proofs.Route.Template
import EndpointAtlas.Proofs.Text.Runs

/-!
The two spellings of a parameter. Main statement: a route without open braces has, once its
parameters are put into braces, just the names in braces that it spelled with colons, and spelling
these with colons again gives the route.
-/

set_option autoImplicit false

namespace EndpointAtlas.Route

/-- The name of a parameter that a text starts with, spelled with a colon: as many characters as a
name can have. -/
def colonName? : List Char → Option (List Char)
  | [] => none
  | c :: rest => if c == ':' && nameAhead rest then some (rest.takeWhile continuesName) else none

def colonNames (route : List Char) : List (List Char) := route.tails.filterMap colonName?

def coloned : List Char → List Char
  | [] => []
  | c :: rest =>
    if c = '{' then
      match closed? [] rest with
      | some name => ':' :: (name ++ coloned (rest.drop (name.length + 1)))
      | none => c :: coloned rest
    else c :: coloned rest
termination_by text => text.length
decreasing_by all_goals simp only [List.length_drop, List.length_cons]; omega

structure IsParameter (name : List Char) : Prop where
  starts : nameAhead name = true
  goes : ∀ c ∈ name, continuesName c = true

def EndsName (text : List Char) : Prop := ∀ c ∈ text.head?, continuesName c = false

variable {name rest : List Char}

/-! ### Names -/

theorem continuesName_of_startsName {c : Char} (h : startsName c = true) :
    continuesName c = true := by
  simp only [startsName, Bool.or_eq_true] at h
  rcases h with h | h <;> simp [continuesName, Text.isWordChar, h]

theorem inBraces_of_continuesName {c : Char} (h : continuesName c = true) : inBraces c = true := by
  have other : ∀ d, continuesName d = false → c ≠ d := by
    rintro d hd rfl
    exact Bool.noConfusion (h.symm.trans hd)
  simp [inBraces, other '/' (by decide), other '}' (by decide)]

theorem IsParameter.ne_nil (h : IsParameter name) : name ≠ [] := by
  rintro rfl
  exact Bool.noConfusion h.starts

theorem IsParameter.clean (h : IsParameter name) : ∀ c ∈ name, inBraces c = true := fun c hc =>
  inBraces_of_continuesName (h.goes c hc)

theorem IsParameter.nameAhead_append (h : IsParameter name) (rest : List Char) :
    nameAhead (name ++ rest) = true := by
  obtain ⟨c, more, rfl⟩ := List.exists_cons_of_ne_nil h.ne_nil
  exact h.starts

theorem exists_name (h : nameAhead rest = true) :
    ∃ name after, rest = name ++ after ∧ IsParameter name ∧ EndsName after := by
  obtain ⟨name, after, rfl, goes, ends⟩ := Text.exists_run continuesName rest
  refine ⟨name, after, rfl, ⟨?_, goes⟩, ends⟩
  cases name with
  | cons c name => exact h
  | nil =>
    obtain ⟨c, first, starts⟩ := (Option.any_eq_true _ _).1 h
    exact Bool.noConfusion ((continuesName_of_startsName starts).symm.trans (ends c first))

theorem induction_parameters {P : List Char → Prop} (nil : P [])
    (plain : ∀ c rest, (c == ':' && nameAhead rest) = false → P rest → P (c :: rest))
    (parameter : ∀ name rest, IsParameter name → EndsName rest → P rest →
      P (':' :: (name ++ rest))) :
    ∀ route, P route
  | [] => nil
  | c :: rest => by
    cases opens : c == ':' && nameAhead rest with
    | false => exact plain c rest opens (induction_parameters nil plain parameter rest)
    | true =>
      rw [Bool.and_eq_true, beq_iff_eq] at opens
      obtain ⟨name, after, rfl, isParameter, ends⟩ := exists_name opens.2
      rw [opens.1]
      exact parameter name after isParameter ends (induction_parameters nil plain parameter after)
termination_by route => route.length

/-! ### Into braces -/

theorem braced_plain {c : Char} (h : (c == ':' && nameAhead rest) = false) :
    braced (c :: rest) = c :: braced rest := by simp [braced, bracedFrom, h]

theorem bracedFrom_name (goes : ∀ c ∈ name, continuesName c = true) (ends : EndsName rest) :
    bracedFrom true (name ++ rest) = name ++ '}' :: braced rest := by
  induction name with
  | nil =>
    cases rest with
    | nil => rfl
    | cons c rest => simp [bracedFrom, braced, ends c rfl]
  | cons c name ih =>
    obtain ⟨here, later⟩ := List.forall_mem_cons.1 goes
    rw [List.cons_append, bracedFrom, here, ih later]
    rfl

theorem braced_parameter (h : IsParameter name) (ends : EndsName rest) :
    braced (':' :: (name ++ rest)) = '{' :: (name ++ '}' :: braced rest) := by
  rw [braced, bracedFrom, h.nameAhead_append, ← bracedFrom_name h.goes ends]
  rfl

/-! ### Names in braces -/

theorem namesFrom_plain {c : Char} (h : c ≠ '{') :
    namesFrom none (c :: rest) = namesFrom none rest := by
  rw [namesFrom, if_neg h]

theorem namesFrom_run (run : List Char) (clean : ∀ c ∈ name, inBraces c = true)
    (nonempty : run.reverse ++ name ≠ []) :
    namesFrom (some run) (name ++ '}' :: rest) = (run.reverse ++ name) :: namesFrom none rest := by
  induction name generalizing run with
  | nil =>
    have filled : run ≠ [] := by simpa using nonempty
    rw [List.nil_append, namesFrom, if_neg (by decide), if_pos rfl, List.append_nil]
    simp [filled]
  | cons c name ih =>
    obtain ⟨here, later⟩ := List.forall_mem_cons.1 clean
    simp only [inBraces, Bool.and_eq_true, decide_eq_true_eq] at here
    rw [List.cons_append, namesFrom, if_neg here.1, if_neg here.2, ih (c :: run) later (by simp)]
    simp

theorem namesFrom_parameter (h : IsParameter name) :
    namesFrom none ('{' :: (name ++ '}' :: rest)) = name :: namesFrom none rest := by
  rw [namesFrom, if_pos rfl, namesFrom_run [] h.clean h.ne_nil]
  rfl

/-! ### Names with colons -/

theorem colonNames_plain {c : Char} (h : (c == ':' && nameAhead rest) = false) :
    colonNames (c :: rest) = colonNames rest := by
  rw [colonNames, List.tails, List.filterMap_cons, colonName?, h]
  rfl

theorem colonNames_append (goes : ∀ c ∈ name, continuesName c = true) :
    colonNames (name ++ rest) = colonNames rest := by
  induction name with
  | nil => rfl
  | cons c name ih =>
    obtain ⟨here, later⟩ := List.forall_mem_cons.1 goes
    have other : (c == ':') = false := by
      rw [beq_eq_false_iff_ne]
      rintro rfl
      exact absurd here (by decide)
    rw [List.cons_append, colonNames_plain (by rw [other, Bool.false_and]), ih later]

theorem colonNames_parameter (h : IsParameter name) (ends : EndsName rest) :
    colonNames (':' :: (name ++ rest)) = name :: colonNames rest := by
  rw [colonNames, List.tails, List.filterMap_cons, colonName?, h.nameAhead_append,
    Text.takeWhile_append_stop h.goes ends]
  exact congrArg (name :: ·) (colonNames_append h.goes)

/-! ### Back to colons -/

theorem coloned_plain {c : Char} (h : c ≠ '{') : coloned (c :: rest) = c :: coloned rest := by
  rw [coloned, if_neg h]

theorem coloned_parameter (h : IsParameter name) :
    coloned ('{' :: (name ++ '}' :: rest)) = ':' :: (name ++ coloned rest) := by
  have closes : closed? [] (name ++ '}' :: rest) = some name :=
    closed?_nil_eq_some.2 ⟨h.ne_nil, h.clean, rest, rfl⟩
  have behind : (name ++ '}' :: rest).drop (name.length + 1) = rest := by
    rw [← List.drop_drop, List.drop_left]
    rfl
  rw [coloned, if_pos rfl, closes]
  exact congrArg (fun text => ':' :: (name ++ coloned text)) behind

/-! ### Whole routes -/

theorem namesFrom_braced {route : List Char} (unbraced : '{' ∉ route) :
    namesFrom none (braced route) = colonNames route := by
  induction route using induction_parameters with
  | nil => rfl
  | plain c rest opens ih =>
    rw [List.mem_cons, not_or] at unbraced
    rw [braced_plain opens, namesFrom_plain (Ne.symm unbraced.1), colonNames_plain opens,
      ih unbraced.2]
  | parameter name rest isParameter ends ih =>
    have later : '{' ∉ rest :=
      fun h => unbraced (List.mem_cons_of_mem _ (List.mem_append_right name h))
    rw [braced_parameter isParameter ends, namesFrom_parameter isParameter,
      colonNames_parameter isParameter ends, ih later]

theorem coloned_braced {route : List Char} (unbraced : '{' ∉ route) :
    coloned (braced route) = route := by
  induction route using induction_parameters with
  | nil => rw [braced, bracedFrom, if_neg Bool.false_ne_true, coloned]
  | plain c rest opens ih =>
    rw [List.mem_cons, not_or] at unbraced
    rw [braced_plain opens, coloned_plain (Ne.symm unbraced.1), ih unbraced.2]
  | parameter name rest isParameter ends ih =>
    have later : '{' ∉ rest :=
      fun h => unbraced (List.mem_cons_of_mem _ (List.mem_append_right name h))
    rw [braced_parameter isParameter ends, coloned_parameter isParameter, ih later]

/-- The parameters of a route without open braces are, once they are put into braces, just those
that it spells with colons, in order and as often; and with colons again they give the route. -/
theorem parameters_normalize (route : String) (unbraced : '{' ∉ route.toList) :
    parameters (normalize route) = (colonNames route.toList).map String.ofList ∧
      String.ofList (coloned (normalize route).toList) = route := by
  rw [parameters, toList_normalize]
  exact ⟨congrArg (List.map String.ofList) (namesFrom_braced unbraced),
    (congrArg String.ofList (coloned_braced unbraced)).trans (String.ofList_toList)⟩

/-- Parameters side by side, one of them twice, and colons before a digit, a colon, a slash and
the end. -/
def crowded : String := "/:id:_x/::id-1/:9/a:/:"

theorem parameters_normalize_crowded :
    '{' ∉ crowded.toList ∧ parameters (normalize crowded) = ["id", "_x", "id-1"] ∧
      String.ofList (coloned (normalize crowded).toList) = crowded := by
  obtain ⟨names, back⟩ := parameters_normalize crowded (by decide +kernel)
  exact ⟨by decide +kernel, names.trans (by decide +kernel), back⟩

end EndpointAtlas.Route
