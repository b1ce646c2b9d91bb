import EndpointAtlas.Proofs.Path.Parts
import EndpointAtlas.Proofs.Route.Template
import EndpointAtlas.Route.Join

/-!
Routes as their segments. Main statement: a joined route is the only one that starts with a slash,
has no two slashes in a row, has the segments of its base and then those of its path, and ends in a
slash where the path does or is missing; from this joining is associative, and parameters may be put
into braces before or after it.
-/

set_option autoImplicit false

namespace EndpointAtlas

namespace Path

variable {path : String}

theorem isAbsolute_iff : isAbsolute path = true ↔ ∃ rest, path.toList = '/' :: rest := by
  rw [isAbsolute, decide_eq_true_iff, List.head?_eq_some_iff]

theorem endsInSlash_iff : endsInSlash path = true ↔ path.toList.getLast? = some '/' := by
  rw [endsInSlash, decide_eq_true_iff]

end Path

namespace Route

/-- What stands between the slashes of a route, without empty pieces. -/
def segments (route : List Char) : List (List Char) :=
  (Text.splitOn (· == '/') route).filter (!·.isEmpty)

def Doubled (route : List Char) : Prop := ['/', '/'] <:+: route

variable {route s t : List Char}

theorem induction_slashes {P : List Char → Prop} (unbroken : ∀ s, '/' ∉ s → P s)
    (broken : ∀ s rest, '/' ∉ s → P rest → P (s ++ '/' :: rest)) (route : List Char) : P route := by
  suffices h : ∀ front, '/' ∉ front → P (front ++ route) from h [] List.not_mem_nil
  induction route with
  | nil =>
    intro front hf
    rw [List.append_nil]
    exact unbroken front hf
  | cons c rest ih =>
    intro front hf
    by_cases hc : c = '/'
    · subst hc
      exact broken front rest hf (ih [] List.not_mem_nil)
    · rw [List.append_cons]
      exact ih (front ++ [c]) (by simp [hf, Ne.symm hc])

/-! ### Segments -/

theorem segments_append_slash (s t : List Char) :
    segments (s ++ '/' :: t) = segments s ++ segments t := by
  have split := @Text.splitOn_append_break (· == '/') '/' (beq_self_eq_true '/') s t
  rw [segments, split, List.filter_append, segments, segments]

theorem segments_slash (t : List Char) : segments ('/' :: t) = segments t :=
  segments_append_slash [] t

theorem segments_unbroken (h : '/' ∉ s) (nonempty : s ≠ []) : segments s = [s] := by
  rw [segments, Text.splitOn_unbroken fun c hc => beq_eq_false_iff_ne.2 (ne_of_mem_of_not_mem hc h)]
  simp [nonempty]

theorem segments_append_slashes (s : List Char) {slashes : List Char} (h : ∀ c ∈ slashes, c = '/') :
    segments (s ++ slashes) = segments s := by
  induction slashes generalizing s with
  | nil => rw [List.append_nil]
  | cons c rest ih =>
    obtain ⟨rfl, others⟩ := List.forall_mem_cons.1 h
    have nothing : segments rest = [] := ih [] others
    rw [segments_append_slash, nothing, List.append_nil]

theorem segments_withoutEndSlashes (s : List Char) :
    segments (withoutEndSlashes s) = segments s := by
  obtain ⟨slashes, whole, all⟩ := Path.exists_slashes s
  exact (segments_append_slashes _ all).symm.trans (congrArg segments whole.symm)

theorem exists_rooted (path : List Char) :
    ∃ rest, rooted path = '/' :: rest ∧ segments rest = segments path := by
  unfold rooted
  split
  · rename_i h
    obtain ⟨rest, rfl⟩ := List.head?_eq_some_iff.1 h
    exact ⟨rest, rfl, (segments_slash rest).symm⟩
  · exact ⟨path, rfl, rfl⟩

theorem segments_rooted (path : List Char) : segments (rooted path) = segments path := by
  obtain ⟨rest, rooted, same⟩ := exists_rooted path
  rw [rooted, segments_slash, same]

theorem segments_append_singleSlashes (front s : List Char) :
    segments (front ++ singleSlashes s) = segments (front ++ s) := by
  induction s generalizing front with
  | nil => rfl
  | cons c rest ih =>
    rw [singleSlashes]
    split
    · rename_i h
      obtain ⟨rfl, more⟩ := h
      obtain ⟨rest, rfl⟩ := List.head?_eq_some_iff.1 more
      rw [ih, segments_append_slash, segments_append_slash, segments_slash]
    · rw [List.append_cons, ih, ← List.append_cons]

/-! ### Slashes -/

theorem doubled_cons {c : Char} :
    Doubled (c :: s) ↔ (c = '/' ∧ s.head? = some '/') ∨ Doubled s := by
  rw [Doubled, List.infix_cons_iff, List.cons_prefix_cons, eq_comm (a := '/'), Doubled]
  refine or_congr_left (and_congr_right fun _ => ?_)
  cases s with
  | nil => simp
  | cons d rest => simp [eq_comm]

theorem doubled_append (h : '/' ∉ s) :
    Doubled (s ++ '/' :: t) ↔ t.head? = some '/' ∨ Doubled t := by
  induction s with
  | nil => simp [doubled_cons]
  | cons c rest ih =>
    rw [List.mem_cons, not_or] at h
    simp [doubled_cons, ih h.2, Ne.symm h.1]

theorem not_doubled_unbroken (h : '/' ∉ s) : ¬Doubled s := fun doubled =>
  h (doubled.subset List.mem_cons_self)

theorem head?_singleSlashes (s : List Char) : (singleSlashes s).head? = s.head? := by
  induction s with
  | nil => rfl
  | cons c rest ih =>
    rw [singleSlashes]
    split
    · rename_i h
      rw [ih, h.2, h.1, List.head?_cons]
    · rfl

theorem not_doubled_singleSlashes (s : List Char) : ¬Doubled (singleSlashes s) := by
  induction s with
  | nil => exact not_doubled_unbroken List.not_mem_nil
  | cons c rest ih =>
    rw [singleSlashes]
    split
    · exact ih
    · rename_i h
      rw [doubled_cons, head?_singleSlashes]
      exact not_or.2 ⟨h, ih⟩

theorem not_doubled_rooted (h : ¬Doubled s) : ¬Doubled (rooted s) := by
  unfold rooted
  split
  · exact h
  · rename_i other
    rw [doubled_cons]
    exact not_or.2 ⟨fun both => other both.2, h⟩

theorem getLast?_singleSlashes (s : List Char) : (singleSlashes s).getLast? = s.getLast? := by
  induction s with
  | nil => rfl
  | cons c rest ih =>
    rw [singleSlashes]
    split
    · rename_i h
      obtain ⟨rest, rfl⟩ := List.head?_eq_some_iff.1 h.2
      rw [ih, List.getLast?_cons_cons]
    · rw [List.getLast?_cons, ih, List.getLast?_cons]

theorem getLast?_rooted (nonempty : s ≠ []) : (rooted s).getLast? = s.getLast? := by
  unfold rooted
  split
  · rfl
  · obtain ⟨c, rest, rfl⟩ := List.exists_cons_of_ne_nil nonempty
    rw [List.getLast?_cons_cons]

theorem slash_eq_segments (single : ¬Doubled ('/' :: s)) :
    '/' :: s = (segments s).flatMap ('/' :: ·) ++ if ('/' :: s).getLast? = some '/' then
    ['/'] else [] := by
  induction s using induction_slashes with
  | unbroken s h =>
    cases s with
    | nil => rfl
    | cons c rest =>
      have last : ('/' :: c :: rest).getLast? ≠ some '/' := by
        rw [List.getLast?_cons_cons]
        exact fun ends => h (List.mem_of_getLast? ends)
      rw [segments_unbroken h (List.cons_ne_nil c rest), if_neg last]
      simp
  | broken s rest h ih =>
    rw [doubled_cons, doubled_append h, not_or, not_or] at single
    have nonempty : s ≠ [] := by
      rintro rfl
      exact single.1 ⟨rfl, rfl⟩
    have onward := ih (by simp [doubled_cons, single.2.1, single.2.2])
    have last : ('/' :: (s ++ '/' :: rest)).getLast? = ('/' :: rest).getLast? := by
      rw [← List.cons_append, List.getLast?_append_of_ne_nil _ (List.cons_ne_nil '/' rest)]
    rw [segments_append_slash, segments_unbroken h nonempty, last, List.singleton_append,
      List.flatMap_cons, List.append_assoc, ← onward, List.cons_append]

/-! ### Parameters in braces -/

theorem nameAhead_append_slash (s t : List Char) : nameAhead (s ++ '/' :: t) = nameAhead s := by
  cases s with
  | nil => rfl
  | cons c rest => rfl

theorem bracedFrom_append_slash (inName : Bool) (s t : List Char) :
    bracedFrom inName (s ++ '/' :: t) = bracedFrom inName s ++ '/' :: braced t := by
  induction s generalizing inName with
  | nil => cases inName <;> rfl
  | cons c rest ih =>
    rw [List.cons_append, bracedFrom, bracedFrom, nameAhead_append_slash]
    split
    · rw [ih, List.cons_append]
    · dsimp only
      rw [ih, List.append_assoc, List.cons_append]

theorem slash_mem_bracedFrom {inName : Bool} (h : '/' ∈ bracedFrom inName s) : '/' ∈ s := by
  induction s generalizing inName with
  | nil => cases inName <;> simp [bracedFrom] at h
  | cons c rest ih =>
    rw [bracedFrom] at h
    split at h
    · exact (List.mem_cons.1 h).elim (fun here => here ▸ List.mem_cons_self)
        fun later => List.mem_cons_of_mem c (ih later)
    · rcases List.mem_append.1 h with closing | h
      · cases inName <;> simp at closing
      · rcases List.mem_cons.1 h with here | later
        · split at here
          · simp at here
          · exact here ▸ List.mem_cons_self
        · exact List.mem_cons_of_mem c (ih later)

theorem braced_append_slash (s t : List Char) :
    braced (s ++ '/' :: t) = braced s ++ '/' :: braced t :=
  bracedFrom_append_slash false s t

theorem braced_unbroken (h : '/' ∉ s) : '/' ∉ braced s :=
  fun slash => h (slash_mem_bracedFrom slash)

theorem braced_cons (c : Char) (rest : List Char) :
    ∃ first more, braced (c :: rest) = first :: more ∧ (first = '/' ↔ c = '/') := by
  refine ⟨_, _, rfl, ?_⟩
  split
  · rename_i opens
    rw [Bool.and_eq_true, beq_iff_eq] at opens
    simp [opens.1]
  · rfl

theorem braced_ne_nil (nonempty : s ≠ []) : braced s ≠ [] := by
  obtain ⟨c, rest, rfl⟩ := List.exists_cons_of_ne_nil nonempty
  obtain ⟨first, more, same, -⟩ := braced_cons c rest
  rw [same]
  exact List.cons_ne_nil first more

theorem head?_braced : (braced s).head? = some '/' ↔ s.head? = some '/' := by
  cases s with
  | nil => rfl
  | cons c rest =>
    obtain ⟨first, more, same, slash⟩ := braced_cons c rest
    rw [same, List.head?_cons, List.head?_cons, Option.some_inj, Option.some_inj, slash]

theorem getLast?_braced : (braced s).getLast? = some '/' ↔ s.getLast? = some '/' := by
  induction s using induction_slashes with
  | unbroken s h =>
    exact iff_of_false (fun ends => braced_unbroken h (List.mem_of_getLast? ends))
      fun ends => h (List.mem_of_getLast? ends)
  | broken s rest h ih =>
    rw [braced_append_slash, List.getLast?_append_of_ne_nil _ (List.cons_ne_nil _ _),
      List.getLast?_append_of_ne_nil _ (List.cons_ne_nil _ _)]
    cases rest with
    | nil => rfl
    | cons c rest =>
      obtain ⟨first, more, same, -⟩ := braced_cons c rest
      rw [same] at ih ⊢
      rw [List.getLast?_cons_cons, List.getLast?_cons_cons, ih]

theorem doubled_braced : Doubled (braced s) ↔ Doubled s := by
  induction s using induction_slashes with
  | unbroken s h =>
    exact iff_of_false (not_doubled_unbroken (braced_unbroken h)) (not_doubled_unbroken h)
  | broken s rest h ih =>
    rw [braced_append_slash, doubled_append (braced_unbroken h), doubled_append h, head?_braced, ih]

theorem segments_braced (route : List Char) :
    segments (braced route) = (segments route).map braced := by
  have alone : ∀ s, '/' ∉ s → segments (braced s) = (segments s).map braced := by
    intro s h
    cases s with
    | nil => rfl
    | cons c rest =>
      rw [segments_unbroken (braced_unbroken h) (braced_ne_nil (List.cons_ne_nil c rest)),
        segments_unbroken h (List.cons_ne_nil c rest), List.map_singleton]
  induction route using induction_slashes with
  | unbroken s h => exact alone s h
  | broken s rest h ih =>
    rw [braced_append_slash, segments_append_slash, segments_append_slash, alone s h, ih,
      List.map_append]

/-! ### Joined routes -/

def partSegments (part : Option String) : List (List Char) := segments (part.getD "").toList

/-- Does a path lead to a slash: as there is none, as it is empty, or as it ends in one? -/
def IsOpen (path : Option String) : Prop :=
  path = none ∨ path = some "" ∨ ∃ text, path = some text ∧ Path.endsInSlash text = true

/-- Is a route made of the segments of a base and those of a path? -/
structure IsJoin (base path : Option String) (route : String) : Prop where
  rooted : Path.isAbsolute route = true
  single : ¬Doubled route.toList
  segments : segments route.toList = partSegments base ++ partSegments path
  ends : Path.endsInSlash route = true ↔ IsOpen path

variable {base path : Option String} {route route' : String}

theorem IsJoin.toList_eq (h : IsJoin base path route) : route.toList =
    (partSegments base ++ partSegments path).flatMap ('/' :: ·) ++
      if Path.endsInSlash route = true then ['/'] else [] := by
  obtain ⟨rest, starts⟩ := Path.isAbsolute_iff.1 h.rooted
  have spelled := slash_eq_segments (starts ▸ h.single)
  rw [← segments_slash, ← starts, h.segments] at spelled
  simpa only [Path.endsInSlash_iff] using spelled

theorem IsJoin.unique (h : IsJoin base path route) (h' : IsJoin base path route') :
    route = route' := by
  have same : Path.endsInSlash route = true ↔ Path.endsInSlash route' = true :=
    h.ends.trans h'.ends.symm
  rw [← String.toList_inj, h.toList_eq, h'.toList_eq]
  simp only [same]

theorem toList_join (base path : Option String) :
    (join base path).toList = joined (base.getD "/").toList (path.getD "/").toList :=
      String.toList_ofList

theorem joined_eq (base path : List Char) : ∃ front, segments front = segments base ∧
    joined base path = rooted (singleSlashes (front ++ rooted path)) := by
  refine ⟨withoutEndSlashes (rooted (if base.isEmpty then ['/'] else base)), ?_, rfl⟩
  rw [segments_withoutEndSlashes, segments_rooted]
  cases base <;> rfl

theorem segments_joined (base path : List Char) :
    segments (joined base path) = segments base ++ segments path := by
  obtain ⟨front, before, same⟩ := joined_eq base path
  obtain ⟨rest, starts, behind⟩ := exists_rooted path
  have single := segments_append_singleSlashes [] (front ++ rooted path)
  rw [List.nil_append, List.nil_append] at single
  rw [same, segments_rooted, single, starts, segments_append_slash, before, behind]

theorem getLast?_joined (base path : List Char) :
    (joined base path).getLast? = (rooted path).getLast? := by
  obtain ⟨front, -, same⟩ := joined_eq base path
  obtain ⟨rest, starts, -⟩ := exists_rooted path
  have last : (singleSlashes (front ++ rooted path)).getLast? = (rooted path).getLast? := by
    rw [getLast?_singleSlashes, starts,
      List.getLast?_append_of_ne_nil _ (List.cons_ne_nil '/' rest)]
  rw [same, getLast?_rooted, last]
  intro empty
  rw [empty, starts, List.getLast?_cons] at last
  cases last

theorem isOpen_iff : IsOpen path ↔ (rooted (path.getD "/").toList).getLast? = some '/' := by
  cases path with
  | none => exact iff_of_true (.inl rfl) rfl
  | some text =>
    by_cases empty : text = ""
    · subst empty
      exact iff_of_true (.inr (.inl rfl)) rfl
    · have nonempty : text.toList ≠ [] := by simpa using empty
      simp [IsOpen, empty, Path.endsInSlash_iff, getLast?_rooted nonempty]

theorem partSegments_eq (part : Option String) :
    partSegments part = segments (part.getD "/").toList := by
  cases part <;> rfl

theorem isJoin_join (base path : Option String) : IsJoin base path (join base path) where
  rooted := by
    obtain ⟨front, -, same⟩ := joined_eq (base.getD "/").toList (path.getD "/").toList
    obtain ⟨rest, starts, -⟩ :=
      exists_rooted (singleSlashes (front ++ rooted (path.getD "/").toList))
    exact Path.isAbsolute_iff.2 ⟨rest, by rw [toList_join, same, starts]⟩
  single := by
    rw [toList_join]
    exact not_doubled_rooted (not_doubled_singleSlashes _)
  segments := by
    rw [toList_join, segments_joined, partSegments_eq, partSegments_eq]
  ends := by
    rw [Path.endsInSlash_iff, toList_join, getLast?_joined, isOpen_iff]

/-! ### Laws -/

theorem IsJoin.partSegments (h : IsJoin base path route) :
    Route.partSegments (some route) = Route.partSegments base ++ Route.partSegments path :=
      h.segments

theorem IsJoin.isOpen (h : IsJoin base path route) : IsOpen (some route) ↔ IsOpen path := by
  have filled : route ≠ "" := by
    rintro rfl
    exact Bool.noConfusion h.rooted
  rw [← h.ends]
  simp [IsOpen, filled]

theorem partSegments_normalize (part : Option String) :
    partSegments (part.map normalize) = (partSegments part).map braced := by
  cases part with
  | none => rfl
  | some text =>
    rw [Option.map_some, partSegments, Option.getD_some, toList_normalize, segments_braced]
    rfl

theorem normalize_eq_empty {text : String} : normalize text = "" ↔ text = "" := by
  constructor
  · intro h
    by_contra filled
    refine braced_ne_nil (s := text.toList) (by simpa using filled) ?_
    rw [← toList_normalize, h]
    rfl
  · rintro rfl
    rfl

theorem endsInSlash_normalize {text : String} :
    Path.endsInSlash (normalize text) = true ↔ Path.endsInSlash text = true := by
  rw [Path.endsInSlash_iff, Path.endsInSlash_iff, toList_normalize, getLast?_braced]

theorem isOpen_normalize : IsOpen (path.map normalize) ↔ IsOpen path := by
  cases path with
  | none => rfl
  | some text => simp [IsOpen, normalize_eq_empty, endsInSlash_normalize]

theorem IsJoin.normalize (h : IsJoin base path route) :
    IsJoin (base.map normalize) (path.map normalize) (Route.normalize route) where
  rooted := by
    have starts := h.rooted
    rw [Path.isAbsolute, decide_eq_true_iff] at starts ⊢
    rw [toList_normalize, head?_braced, starts]
  single := by
    rw [toList_normalize, doubled_braced]
    exact h.single
  segments := by
    rw [toList_normalize, segments_braced, h.segments, List.map_append,
      partSegments_normalize, partSegments_normalize]
  ends := by rw [endsInSlash_normalize, h.ends, isOpen_normalize]

/-- A base and a path, which may both be missing, have one route: the one that starts with a slash,
doubles none, has the segments of the base and then those of the path, and ends in a slash exactly
if the path is missing, empty or ends in one. So it makes no difference which two of three parts are
joined first, a route joined to no base stays as it is, and the parameters of a joined route are put
into braces as those of its parts are. -/
theorem join_concatenates :
    (∀ base path route, route = join base path ↔ IsJoin base path route) ∧
      (∀ base middle path, join (some (join base middle)) path =
        join base (some (join middle path))) ∧
      (∀ base path, join none (some (join base path)) = join base path) ∧
      ∀ base path, Route.normalize (join base path) =
        join (base.map Route.normalize) (path.map Route.normalize) := by
  refine ⟨fun base path route => ?_, fun base middle path => ?_, fun base path => ?_,
    fun base path => ?_⟩
  · constructor
    · rintro rfl
      exact isJoin_join base path
    · exact fun h => h.unique (isJoin_join base path)
  · have inner := isJoin_join middle path
    have outer := isJoin_join base (some (join middle path))
    have left := isJoin_join (some (join base middle)) path
    refine left.unique ⟨outer.rooted, outer.single, ?_, outer.ends.trans inner.isOpen⟩
    rw [outer.segments, inner.partSegments, (isJoin_join base middle).partSegments,
      List.append_assoc]
  · have inner := isJoin_join base path
    have outer := isJoin_join none (some (join base path))
    refine IsJoin.unique ⟨outer.rooted, outer.single, ?_, outer.ends.trans inner.isOpen⟩ inner
    rw [outer.segments, inner.partSegments]
    rfl
  · exact (isJoin_join base path).normalize.unique (isJoin_join _ _)

example : join (some "users//") (some "//:id") = "/users/:id" := by decide +kernel

end Route

end EndpointAtlas
