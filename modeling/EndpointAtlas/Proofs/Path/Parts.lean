import EndpointAtlas.Proofs.Path
import Mathlib.Data.List.TakeWhile

set_option autoImplicit false

namespace EndpointAtlas.Path

/-! ### Slashes at the end -/

theorem withoutEndSlashes_append {body slashes : List Char} (hb : body.getLast? ≠ some '/')
    (hs : ∀ c ∈ slashes, c = '/') : withoutEndSlashes (body ++ slashes) = body := by
  have drops : body.reverse.dropWhile (· == '/') = body.reverse := by
    cases hr : body.reverse with
    | nil => rfl
    | cons c rest =>
      rw [← List.head?_reverse, hr, List.head?_cons, ne_eq, Option.some_inj] at hb
      exact List.dropWhile_cons_of_neg (by simpa using hb)
  rw [withoutEndSlashes, List.reverse_append,
    List.dropWhile_append_of_pos (by simpa using hs), drops, List.reverse_reverse]

theorem exists_slashes (path : List Char) :
    ∃ slashes, path = withoutEndSlashes path ++ slashes ∧ ∀ c ∈ slashes, c = '/' := by
  refine ⟨(path.reverse.takeWhile (· == '/')).reverse, ?_, fun c hc => ?_⟩
  · rw [withoutEndSlashes, ← List.reverse_append, List.takeWhile_append_dropWhile,
      List.reverse_reverse]
  · simpa using List.mem_takeWhile_imp (List.mem_reverse.1 hc)

theorem getLast?_append_unbroken (front : List Char) {last : List Char} (hn : last ≠ [])
    (hl : '/' ∉ last) : (front ++ last).getLast? ≠ some '/' := by
  rw [List.getLast?_append_of_ne_nil front hn]
  exact fun h => hl (List.mem_of_getLast? h)

theorem getLast?_append_cons_unbroken (front : List Char) (c : Char) {last : List Char}
    (hn : last ≠ []) (hl : '/' ∉ last) : (front ++ c :: last).getLast? ≠ some '/' := by
  rw [List.append_cons]
  exact getLast?_append_unbroken _ hn hl

theorem exists_end_normalize (path : String) :
    ∃ body slashes, (normalize path).toList = body ++ slashes ∧
    body.getLast? ≠ some '/' ∧ (slashes = [] ∨ slashes = ['/']) := by
  have hend : (if endsInSlash path then "/" else "").toList = [] ∨
      (if endsInSlash path then "/" else "").toList = ['/'] := by
    split
    · exact .inr (by simp)
    · exact .inl (by simp)
  by_cases he : simplified (!isAbsolute path) path = []
  · rw [normalize_of_no_steps he]
    split
    · exact ⟨[], ['/'], by simp⟩
    · split
      · exact ⟨['.'], ['/'], by simp⟩
      · exact ⟨['.'], [], by simp⟩
  · obtain ⟨start, last, hs⟩ := List.eq_nil_or_concat'  _ |>.resolve_left he
    have hlast := isSteps_simplified (!isAbsolute path) path last (by simp [hs])
    obtain ⟨head, hh⟩ := exists_glue_concat start last
    refine ⟨((if isAbsolute path then "/" else "") ++ head).toList ++ last.toList, _, ?_,
      getLast?_append_unbroken _ (by simpa using hlast.nonempty) hlast.unbroken, hend⟩
    rw [normalize_of_steps he, hs, hh]
    simp only [String.toList_append, List.append_assoc]

theorem slashes_normalize {path : String} {body slashes : List Char}
    (h : (normalize path).toList = body ++ slashes)
    (hb : body.getLast? ≠ some '/') (hs : ∀ c ∈ slashes, c = '/') :
    slashes = [] ∨ slashes = ['/'] := by
  obtain ⟨body', slashes', he, hb', hs'⟩ := exists_end_normalize path
  have slash' : ∀ c ∈ slashes', c = '/' := by rcases hs' with rfl | rfl <;> simp
  have same : body = body' := by
    rw [← withoutEndSlashes_append hb hs, ← h, he, withoutEndSlashes_append hb' slash']
  rw [h, same, List.append_cancel_left_eq] at he
  exact he ▸ hs'

/-! ### Names and extensions -/

theorem exists_baseName (path : String) : ∃ front slashes,
    path.toList = front ++ (baseName path).toList ++ slashes ∧ '/' ∉ (baseName path).toList ∧
      ∀ c ∈ slashes, c = '/' := by
  obtain ⟨slashes, hp, hs⟩ := exists_slashes path.toList
  refine ⟨((withoutEndSlashes path.toList).reverse.dropWhile (· ≠ '/')).reverse,
    slashes, ?_, ?_, hs⟩
  · rw [baseName, String.toList_ofList, ← List.reverse_append, List.takeWhile_append_dropWhile,
      List.reverse_reverse]
    exact hp
  · intro hm
    rw [baseName, String.toList_ofList, List.mem_reverse] at hm
    simpa using List.mem_takeWhile_imp hm

theorem baseName_eq {path : String} {body slashes : List Char} (hp : path.toList = body ++ slashes)
    (hb : body.getLast? ≠ some '/') (hs : ∀ c ∈ slashes, c = '/') :
    (baseName path).toList = (body.reverse.takeWhile (· ≠ '/')).reverse := by
  rw [baseName, String.toList_ofList, hp, withoutEndSlashes_append hb hs]

theorem forall_reverse_ne {stop : Char} {s : List Char} (h : stop ∉ s) :
    ∀ c ∈ s.reverse, decide (c ≠ stop) = true :=
  fun _ hc => decide_eq_true fun same => h (same ▸ List.mem_reverse.1 hc)

theorem takeWhile_reverse_dot (stem : List Char) {tail : List Char} (hd : '.' ∉ tail) :
    ((stem ++ '.' :: tail).reverse.takeWhile (· ≠ '.')).reverse = tail := by
  have turned : (stem ++ '.' :: tail).reverse = tail.reverse ++ '.' :: stem.reverse := by simp
  rw [turned, List.takeWhile_append_of_pos (forall_reverse_ne hd),
    List.takeWhile_cons_of_neg (by simp), List.append_nil, List.reverse_reverse]

theorem exists_last_dot {name : List Char} (h : '.' ∈ name) :
    ∃ stem tail, name = stem ++ '.' :: tail ∧ '.' ∉ tail := by
  obtain ⟨tail, stem, hr, hd⟩ := List.eq_append_cons_of_mem (List.mem_reverse.2 h)
  refine ⟨stem.reverse, tail.reverse, ?_, by simpa using hd⟩
  rw [← List.reverse_reverse name, hr]
  simp

theorem extension_eq_of_name {path : String} {stem tail : List Char}
    (hb : (baseName path).toList = stem ++ '.' :: tail) (hs : stem ≠ []) (hd : '.' ∉ tail)
    (ht : tail ≠ []) : extension path = String.ofList ('.' :: tail) := by
  have cut : (stem ++ '.' :: tail).take ((stem ++ '.' :: tail).length - tail.length - 1) =
      stem := by
    rw [List.length_append, List.length_cons,
      show stem.length + (tail.length + 1) - tail.length - 1 = stem.length by omega, List.take_left]
  have twice : stem ++ '.' :: tail ≠ ['.', '.'] := by
    rcases stem with _ | ⟨a, _ | ⟨b, stem⟩⟩ <;> simp_all
  unfold extension
  simp only [hb, takeWhile_reverse_dot stem hd, cut]
  rw [if_neg]
  simpa [hs] using twice

theorem exists_name_of_extension {path : String} (h : extension path ≠ "") : ∃ stem tail,
    (baseName path).toList = stem ++ '.' :: tail ∧ stem ≠ [] ∧
    extension path = String.ofList ('.' :: tail) := by
  unfold extension at h ⊢
  simp only at h ⊢
  split at h
  · exact absurd rfl h
  · rename_i named
    rw [if_neg named]
    simp only [not_or, Bool.not_eq_true', Bool.not_eq_false, List.contains_iff_mem] at named
    obtain ⟨dotted, cut, -⟩ := named
    obtain ⟨stem, tail, hn, hd⟩ := exists_last_dot dotted
    rw [hn, takeWhile_reverse_dot stem hd] at cut ⊢
    refine ⟨stem, tail, rfl, ?_, rfl⟩
    rintro rfl
    simp at cut

theorem extension_eq_iff {path : String} {tail : List Char} (hn : tail ≠ []) (hd : '.' ∉ tail)
    (hs : '/' ∉ tail) :
    extension path = String.ofList ('.' :: tail) ↔
    ∃ stem slashes, path.toList = stem ++ '.' :: tail ++ slashes ∧
      (stem ≠ [] ∧ stem.getLast? ≠ some '/') ∧ ∀ c ∈ slashes, c = '/' := by
  constructor
  · intro h
    have extended : extension path ≠ "" := by simp [h]
    obtain ⟨stem, tail', hb, hstem, he⟩ := exists_name_of_extension extended
    obtain rfl : tail = tail' := by simpa using congrArg String.toList (h.symm.trans he)
    obtain ⟨front, slashes, hp, unbroken, hslashes⟩ := exists_baseName path
    rw [hb] at hp unbroken
    refine ⟨front ++ stem, slashes, by rw [hp]; simp, ⟨by simp [hstem], ?_⟩, hslashes⟩
    exact getLast?_append_unbroken front hstem fun hm => unbroken (List.mem_append_left _ hm)
  · rintro ⟨stem, slashes, hp, ⟨hstem, hlast⟩, hslashes⟩
    have hbase := baseName_eq hp (getLast?_append_cons_unbroken stem '.' hn hs) hslashes
    -- What stands before the dot does not end in a slash, so the last piece reaches beyond the dot.
    have turned : (stem ++ '.' :: tail).reverse = (tail.reverse ++ ['.']) ++ stem.reverse := by simp
    rw [turned, List.takeWhile_append_of_pos, List.reverse_append, List.reverse_append] at hbase
    · have named : (baseName path).toList = (stem.reverse.takeWhile (· ≠ '/')).reverse ++
          '.' :: tail := by
        simpa using hbase
      refine extension_eq_of_name named ?_ hd hn
      rw [ne_eq, List.reverse_eq_nil_iff]
      cases hr : stem.reverse with
      | nil => exact absurd (List.reverse_eq_nil_iff.1 hr) hstem
      | cons c rest =>
        rw [← List.head?_reverse, hr, List.head?_cons, ne_eq, Option.some_inj] at hlast
        simp [hlast]
    · intro c hc
      rcases List.mem_append.1 hc with hc | hc
      · exact forall_reverse_ne hs c hc
      · simp [List.mem_singleton.1 hc]

/-! ### Parents -/

theorem parent_eq {path : String} {front name : List Char} (hp : path.toList = front ++ '/' :: name)
    (hn : name ≠ [])
    (hs : '/' ∉ name) : parent path = if front = [] then "/" else String.ofList front := by
  have body : withoutEndSlashes path.toList = front ++ '/' :: name := by
    have kept := withoutEndSlashes_append (getLast?_append_cons_unbroken front '/' hn hs)
        (List.forall_mem_nil (· = '/'))
    rw [hp]
    rwa [List.append_nil] at kept
  have turned : (front ++ '/' :: name).reverse = name.reverse ++ '/' :: front.reverse := by simp
  have drops : (name.reverse ++ '/' :: front.reverse).dropWhile (· ≠ '/') =
      '/' :: front.reverse := by
    rw [List.dropWhile_append_of_pos (forall_reverse_ne hs), List.dropWhile_cons_of_neg (by simp)]
  unfold parent
  simp only [body, turned, drops, List.isEmpty_iff, List.reverse_eq_nil_iff, List.reverse_reverse]

theorem parent_glue (names : List String) {name : String} (h : IsName name) :
    parent ("/" ++ glue (names ++ [name])) = "/" ++ glue names := by
  have hn : name.toList ≠ [] := by simpa using h.nonempty
  by_cases he : names = []
  · subst he
    have spelled : ("/" ++ glue ([] ++ [name])).toList = [] ++ '/' :: name.toList := by simp [glue]
    exact parent_eq spelled hn h.unbroken
  · have spelled : ("/" ++ glue (names ++ [name])).toList =
        ("/" ++ glue names).toList ++ '/' :: name.toList := by
      rw [glue_concat he]
      simp
    rw [parent_eq spelled hn h.unbroken, if_neg (by simp), String.ofList_toList]

theorem glue_injective {s t : List String} (hs : AreNames s) (ht : AreNames t)
    (h : "/" ++ glue s = "/" ++ glue t) : s = t := by
  rw [← simplified_glue hs, h, simplified_glue ht]

/-! ### Paths from one directory to another -/

theorem dropShared_append (s t : List String) : dropShared s (s ++ t) = ([], t) := by
  induction s with
  | nil => cases t <;> rfl
  | cons a s ih => rw [List.cons_append, dropShared, if_pos rfl, ih]

theorem dropShared_fst_ne_nil {s t : List String} (h : ¬ s <+: t) : (dropShared s t).1 ≠ [] := by
  induction s generalizing t with
  | nil => exact absurd (List.nil_prefix) h
  | cons a s ih =>
    cases t with
    | nil => simp [dropShared]
    | cons b t =>
      rw [dropShared]
      split
      · rename_i same
        exact ih fun hp => h (same ▸ (List.prefix_cons_inj a).2 hp)
      · exact List.cons_ne_nil a s

theorem startsWith_glue_cons {first : String} (hn : first ≠ "") (rest : List String) :
    Text.startsWith (glue (first :: rest)) ".." = Text.startsWith first ".." := by
  cases rest with
  | nil => simp [glue]
  | cons second rest =>
    rw [glue, String.intercalate_cons_cons, Text.startsWith, Text.startsWith]
    obtain ⟨c, cs, hc⟩ := List.exists_cons_of_ne_nil (l := first.toList) (by simpa using hn)
    cases cs <;> simp [hc, List.isPrefixOf]

theorem relative_cases (current start target : String) :
    (∃ rest, simplified false (resolve current target) =
      simplified false (resolve current start) ++ rest ∧
      relative current start target = glue rest) ∨
    ¬ simplified false (resolve current start) <+: simplified false (resolve current target) ∧
      ∃ rest, relative current start target = glue (".." :: rest) := by
  unfold relative
  by_cases inside :
      simplified false (resolve current start) <+: simplified false (resolve current target)
  · obtain ⟨rest, hr⟩ := inside
    refine .inl ⟨rest, hr.symm, ?_⟩
    rw [← hr, dropShared_append]
    rfl
  · obtain ⟨first, rest, hs⟩ := List.exists_cons_of_ne_nil (dropShared_fst_ne_nil inside)
    refine .inr ⟨inside, rest.map (fun _ => "..") ++
      (dropShared (simplified false (resolve current start))
      (simplified false (resolve current target))).2, ?_⟩
    simp only [hs, List.map_cons, List.cons_append]

theorem startsWith_relative (current start target : String) :
    Text.startsWith (relative current start target) ".." = true ↔
      ¬ simplified false (resolve current start) <+: simplified false (resolve current target) ∨
      ∃ name rest, simplified false (resolve current target) =
        simplified false (resolve current start) ++ name :: rest ∧
        Text.startsWith name ".." = true := by
  rcases relative_cases current start target with ⟨rest, ht, hr⟩ | ⟨outside, rest, hr⟩
  · have names := areNames_simplified (resolve current target)
    rw [ht] at names ⊢
    rw [hr]
    cases rest with
    | nil => simp [glue, Text.startsWith]
    | cons name rest =>
      have hn := (names name (by simp)).nonempty
      simp [startsWith_glue_cons hn]
  · rw [hr, startsWith_glue_cons (by decide)]
    exact iff_of_true (by decide) (.inl outside)

theorem isAbsolute_relative (current start target : String) :
    isAbsolute (relative current start target) = false := by
  have glued {first : String} (h : IsStep first) (rest : List String) :
      isAbsolute (glue (first :: rest)) = false := by
    obtain ⟨tail, ht⟩ := exists_glue_cons first rest
    rw [ht, isAbsolute_append h.nonempty, isAbsolute_unbroken h.unbroken]
  rcases relative_cases current start target with ⟨rest, ht, hr⟩ | ⟨-, rest, hr⟩
  · rw [hr]
    cases rest with
    | nil => rfl
    | cons name rest =>
      exact glued (areNames_simplified (resolve current target) name (by simp [ht])).isStep rest
  · exact hr ▸ glued ⟨by decide, by decide, by decide⟩ rest

end EndpointAtlas.Path
