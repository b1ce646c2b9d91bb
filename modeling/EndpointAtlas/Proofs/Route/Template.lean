import EndpointAtlas.Route.Template

set_option autoImplicit false

namespace EndpointAtlas.Route

theorem toList_normalize (route : String) : (normalize route).toList = braced route.toList :=
  String.toList_ofList

def isBraced : List Char → Bool
  | [] => true
  | c :: rest => !(c == ':' && nameAhead rest) && isBraced rest

theorem bracedFrom_of_isBraced {s : List Char} (h : isBraced s = true) :
    bracedFrom false s = s := by
  induction s with
  | nil => rfl
  | cons c rest ih =>
    rw [isBraced, Bool.and_eq_true, Bool.not_eq_true'] at h
    simp [bracedFrom, h.1, ih h.2]

theorem not_continuesName_colon : continuesName ':' = false := by decide

theorem nameAhead_bracedFrom {s : List Char} (h : nameAhead s = false) :
    nameAhead (bracedFrom false s) = false := by
  cases s with
  | nil => rfl
  | cons c rest =>
    simp only [bracedFrom, Bool.false_and, Bool.false_eq_true, if_false, List.nil_append]
    split
    · rfl
    · exact h

theorem isBraced_bracedFrom (inName : Bool) (s : List Char) :
    isBraced (bracedFrom inName s) = true := by
  induction s generalizing inName with
  | nil => cases inName <;> rfl
  | cons c rest ih =>
    rw [bracedFrom]
    split
    · rename_i h
      have hc : (c == ':') = false := by
        rw [beq_eq_false_iff_ne]
        rintro rfl
        simp [not_continuesName_colon] at h
      simp [isBraced, hc, ih]
    · have tail : isBraced ((if (c == ':' && nameAhead rest) = true then '{' else c) ::
          bracedFrom (c == ':' && nameAhead rest) rest) = true := by
        cases opened : c == ':' && nameAhead rest with
        | true => simp [isBraced, ih]
        | false =>
          have : (c == ':' && nameAhead (bracedFrom false rest)) = false := by
            by_cases hc : (c == ':') = true
            · rw [hc, Bool.true_and] at opened
              rw [nameAhead_bracedFrom opened, Bool.and_false]
            · simp [hc]
          simp [isBraced, this, ih]
      cases inName with
      | true => simpa [isBraced] using tail
      | false => exact tail

theorem brace_mem_bracedFrom {s : List Char} (h : bracedFrom false s ≠ s) :
    '{' ∈ bracedFrom false s := by
  induction s with
  | nil => exact absurd rfl h
  | cons c rest ih =>
    simp only [bracedFrom, Bool.false_and, Bool.false_eq_true, if_false, List.nil_append] at h ⊢
    cases opened : c == ':' && nameAhead rest with
    | true => simp
    | false =>
      simp only [opened, Bool.false_eq_true, if_false, ne_eq, List.cons.injEq, true_and] at h ⊢
      exact List.mem_cons_of_mem c (ih h)

theorem brace_mem_normalize {route : String} (h : normalize route ≠ route) :
    '{' ∈ (normalize route).toList := by
  rw [normalize, String.toList_ofList]
  refine brace_mem_bracedFrom fun same => h ?_
  rw [normalize, braced, same, String.ofList_toList]

theorem normalize_normalize (route : String) : normalize (normalize route) = normalize route := by
  have h : isBraced (braced route.toList) = true := isBraced_bracedFrom false route.toList
  rw [normalize, normalize, String.toList_ofList, braced, bracedFrom_of_isBraced h]

end EndpointAtlas.Route
