import EndpointAtlas.Path
import Mathlib.Data.List.Basic

set_option autoImplicit false

namespace EndpointAtlas

namespace Text

variable {isBreak : Char → Bool}

theorem splitOn_unbroken {s : List Char} (h : ∀ c ∈ s, isBreak c = false) :
    splitOn isBreak s = [s] := by
  induction s with
  | nil => rfl
  | cons c s ih =>
    rw [splitOn, ih fun d hd => h d (List.mem_cons_of_mem c hd)]
    simp [h c List.mem_cons_self]

theorem splitOn_append_break {c : Char} (hc : isBreak c = true) (s t : List Char) :
    splitOn isBreak (s ++ c :: t) = splitOn isBreak s ++ splitOn isBreak t := by
  obtain ⟨piece, pieces, hp⟩ := List.exists_cons_of_ne_nil (splitOn_ne_nil isBreak t)
  induction s with
  | nil => simp [splitOn, hp, hc]
  | cons d s ih =>
    obtain ⟨first, others, hf⟩ := List.exists_cons_of_ne_nil (splitOn_ne_nil isBreak s)
    rw [List.cons_append, splitOn, ih, hf, splitOn, hf]
    simp only [List.cons_append]
    split <;> rfl

theorem unbroken_of_mem_splitOn {s piece : List Char} (h : piece ∈ splitOn isBreak s) :
    ∀ c ∈ piece, isBreak c = false := by
  induction s generalizing piece with
  | nil =>
    rw [splitOn, List.mem_singleton] at h
    simp [h]
  | cons d s ih =>
    obtain ⟨first, others, hf⟩ := List.exists_cons_of_ne_nil (splitOn_ne_nil isBreak s)
    rw [splitOn, hf] at h
    rw [hf] at ih
    simp only at h
    split at h
    · rcases List.mem_cons.1 h with rfl | h
      · simp
      · exact ih h
    · rename_i hd
      rcases List.mem_cons.1 h with rfl | h
      · intro c hc
        rcases List.mem_cons.1 hc with rfl | hc
        · simpa using hd
        · exact ih List.mem_cons_self c hc
      · exact ih (List.mem_cons_of_mem first h)

theorem mem_of_mem_splitOn {s piece : List Char} (h : piece ∈ splitOn isBreak s) {c : Char}
    (hc : c ∈ piece) : c ∈ s := by
  induction s generalizing piece with
  | nil =>
    rw [splitOn, List.mem_singleton] at h
    exact h ▸ hc
  | cons d s ih =>
    obtain ⟨first, others, hf⟩ := List.exists_cons_of_ne_nil (splitOn_ne_nil isBreak s)
    rw [splitOn, hf] at h
    rw [hf] at ih
    simp only at h
    have inside : piece = d :: first ∨ piece = [] ∨ piece ∈ first :: others := by
      split at h
      · exact .inr (List.mem_cons.1 h)
      · exact (List.mem_cons.1 h).imp_right fun later => .inr (List.mem_cons_of_mem first later)
    rcases inside with rfl | rfl | later
    · exact (List.mem_cons.1 hc).elim (fun same => same ▸ List.mem_cons_self) fun behind =>
        List.mem_cons_of_mem d (ih List.mem_cons_self behind)
    · cases hc
    · exact List.mem_cons_of_mem d (ih later hc)

end Text

namespace Path

/-- A name that leads from a directory to something directly in it. -/
structure IsName (name : String) : Prop where
  nonempty : name ≠ ""
  notHere : name ≠ "."
  notAbove : name ≠ ".."
  unbroken : '/' ∉ name.toList

theorem isName_iff (name : String) :
    IsName name ↔ name ≠ "" ∧ name ≠ "." ∧ name ≠ ".." ∧ '/' ∉ name.toList :=
  ⟨fun h => ⟨h.nonempty, h.notHere, h.notAbove, h.unbroken⟩, fun ⟨a, b, c, d⟩ => ⟨a, b, c, d⟩⟩

instance (name : String) : Decidable (IsName name) := decidable_of_iff' _ (isName_iff name)

def AreNames (names : List String) : Prop := ∀ name ∈ names, IsName name

instance (names : List String) : Decidable (AreNames names) :=
  inferInstanceAs (Decidable (∀ name ∈ names, IsName name))

theorem AreNames.append {s t : List String} (hs : AreNames s) (ht : AreNames t) :
    AreNames (s ++ t) := fun name h => (List.mem_append.1 h).elim (hs name) (ht name)

theorem areNames_singleton {name : String} : AreNames [name] ↔ IsName name := by
  simp [AreNames]

/-- A piece that a simplified path may keep: a name, or a double dot. -/
structure IsStep (piece : String) : Prop where
  nonempty : piece ≠ ""
  notHere : piece ≠ "."
  unbroken : '/' ∉ piece.toList

theorem IsName.isStep {name : String} (h : IsName name) : IsStep name :=
  ⟨h.nonempty, h.notHere, h.unbroken⟩

theorem AreNames.isSteps {names : List String} (h : AreNames names) : ∀ kept ∈ names, IsStep kept :=
  fun name hm => (h name hm).isStep

theorem pieces_unbroken {s : String} (h : '/' ∉ s.toList) : pieces s = [s] := by
  rw [pieces, Text.splitOn_unbroken]
  · simp
  · intro c hc
    simpa using fun hs : c = '/' => h (hs ▸ hc)

theorem pieces_append_slash (s t : String) : pieces (s ++ "/" ++ t) = pieces s ++ pieces t := by
  have h : (s ++ "/" ++ t).toList = s.toList ++ '/' :: t.toList := by simp
  rw [pieces, h, Text.splitOn_append_break (by decide), List.map_append]
  rfl

theorem unbroken_of_mem_pieces {s piece : String} (h : piece ∈ pieces s) : '/' ∉ piece.toList := by
  obtain ⟨chars, hc, rfl⟩ := List.mem_map.1 h
  intro hs
  rw [String.toList_ofList] at hs
  simpa using Text.unbroken_of_mem_splitOn hc '/' hs

theorem pieces_glue {names : List String} (hn : names ≠ [])
    (h : ∀ name ∈ names, '/' ∉ name.toList) : pieces (glue names) = names := by
  induction names with
  | nil => exact absurd rfl hn
  | cons a rest ih =>
    cases rest with
    | nil => simpa [glue] using pieces_unbroken (h a List.mem_cons_self)
    | cons b rest =>
      rw [glue, String.intercalate_cons_cons, pieces_append_slash,
        pieces_unbroken (h a List.mem_cons_self)]
      exact congrArg (a :: ·) (ih (by simp) fun name hm => h name (List.mem_cons_of_mem a hm))

theorem step_name (above : Bool) (done : List String) {name : String} (h : IsName name) :
    step above done name = name :: done := by
  simp [step, h.nonempty, h.notHere, h.notAbove]

theorem foldl_step_names (above : Bool) (done : List String) {names : List String}
    (h : AreNames names) : names.foldl (step above) done = names.reverse ++ done := by
  induction names generalizing done with
  | nil => rfl
  | cons a rest ih =>
    rw [List.foldl_cons, step_name above done (h a List.mem_cons_self),
      ih _ fun name hm => h name (List.mem_cons_of_mem a hm)]
    simp

theorem areNames_step {done : List String} {piece : String} (hd : AreNames done)
    (hp : '/' ∉ piece.toList) : AreNames (step false done piece) := by
  unfold step
  split
  · exact hd
  · split
    · cases done with
      | nil => simp [AreNames]
      | cons last rest =>
        have hl : last ≠ ".." := (hd last List.mem_cons_self).notAbove
        simp only [hl, if_false]
        exact fun name hm => hd name (List.mem_cons_of_mem last hm)
    · rename_i hn ha
      rw [not_or] at hn
      intro name hm
      rcases List.mem_cons.1 hm with rfl | hm
      · exact ⟨hn.1, hn.2, ha, hp⟩
      · exact hd name hm

theorem areNames_simplified (path : String) : AreNames (simplified false path) := by
  have h : ∀ (done ps : List String), AreNames done → (∀ p ∈ ps, '/' ∉ p.toList) →
      AreNames (ps.foldl (step false) done) := by
    intro done ps
    induction ps generalizing done with
    | nil => exact fun hd _ => hd
    | cons p ps ih =>
      intro hd hp
      exact ih _ (areNames_step hd (hp p List.mem_cons_self))
        fun q hq => hp q (List.mem_cons_of_mem p hq)
  intro name hm
  exact h [] (pieces path) (by simp [AreNames]) (fun p => unbroken_of_mem_pieces) name
    (List.mem_reverse.1 hm)

theorem simplified_glue {names : List String} (h : AreNames names) :
    simplified false ("/" ++ glue names) = names := by
  have hs : pieces ("/" ++ glue names) = [""] ++ pieces (glue names) := by
    have := pieces_append_slash "" (glue names)
    simpa [pieces_unbroken (s := "") (by simp)] using this
  rw [simplified, hs, List.foldl_append]
  cases names with
  | nil => decide
  | cons a rest =>
    rw [pieces_glue (by simp) fun name hm => (h name hm).unbroken]
    rw [foldl_step_names false _ h]
    simp [step]

theorem glue_eq_empty {steps : List String} (h : ∀ kept ∈ steps, IsStep kept) :
    glue steps = "" ↔ steps = [] := by
  refine ⟨fun hg => ?_, fun hn => by simp [hn, glue]⟩
  cases steps with
  | nil => rfl
  | cons first rest =>
    have hfirst := (h first List.mem_cons_self).nonempty
    cases rest with
    | nil => exact absurd (by simpa [glue] using hg) hfirst
    | cons second rest =>
      rw [glue, String.intercalate_cons_cons] at hg
      simp [hfirst] at hg

theorem isAbsolute_glue (names : List String) : isAbsolute ("/" ++ glue names) = true := by
  simp [isAbsolute]

theorem resolve_glue (current : String) {names : List String} (h : AreNames names) :
    resolve current ("/" ++ glue names) = "/" ++ glue names := by
  rw [resolve, if_pos (isAbsolute_glue names), simplified_glue h]

/-- Where a piece leads from a place: one dot stays, two go up, and a name goes down. -/
def follow (place : List String) (piece : String) : List String :=
  (step false place.reverse piece).reverse

theorem follow_name (place : List String) {name : String} (h : IsName name) :
    follow place name = place ++ [name] := by
  simp [follow, step_name false _ h]

@[simp] theorem follow_here (place : List String) : follow place "." = place := by
  simp [follow, step]

theorem follow_above {place : List String} (h : AreNames place) :
    follow place ".." = place.dropLast := by
  have hs : step false place.reverse ".." = place.reverse.tail := by
    cases hr : place.reverse with
    | nil => simp [step]
    | cons last rest =>
      have hl : last ≠ ".." :=
        (h last (List.mem_reverse.1 (hr ▸ List.mem_cons_self))).notAbove
      simp [step, hl]
  rw [follow, hs, List.tail_reverse, List.reverse_reverse]

theorem areNames_follow {place : List String} {piece : String} (h : AreNames place)
    (hp : '/' ∉ piece.toList) : AreNames (follow place piece) := by
  have hr : AreNames place.reverse := fun name hm => h name (List.mem_reverse.1 hm)
  exact fun name hm => areNames_step hr hp name (List.mem_reverse.1 hm)

theorem simplified_glue_slash {place : List String} (h : AreNames place) {piece : String}
    (hp : '/' ∉ piece.toList) :
    simplified false ("/" ++ glue place ++ "/" ++ piece) = follow place piece := by
  have hs := simplified_glue h
  rw [simplified, List.reverse_eq_iff] at hs
  rw [simplified, pieces_append_slash, List.foldl_append, hs, pieces_unbroken hp]
  rfl

theorem isAbsolute_append {s : String} (hs : s ≠ "") (t : String) :
    isAbsolute (s ++ t) = isAbsolute s := by
  rw [isAbsolute, isAbsolute, String.toList_append,
    List.head?_append_of_ne_nil _ (by simpa using hs)]

theorem endsInSlash_append (s : String) {t : String} (ht : t ≠ "") :
    endsInSlash (s ++ t) = endsInSlash t := by
  rw [endsInSlash, endsInSlash, String.toList_append,
    List.getLast?_append_of_ne_nil _ (by simpa using ht)]

theorem isAbsolute_unbroken {s : String} (h : '/' ∉ s.toList) : isAbsolute s = false := by
  rw [isAbsolute]
  simpa using fun hc => h (List.mem_of_head? hc)

theorem endsInSlash_unbroken {s : String} (h : '/' ∉ s.toList) : endsInSlash s = false := by
  rw [endsInSlash]
  simpa using fun hc => h (List.mem_of_getLast? hc)

theorem exists_glue_cons (first : String) (rest : List String) :
    ∃ tail, glue (first :: rest) = first ++ tail := by
  cases rest with
  | nil => exact ⟨"", by simp [glue]⟩
  | cons second rest =>
    exact ⟨"/" ++ glue (second :: rest), by
      rw [glue, String.intercalate_cons_cons, glue, String.append_assoc]⟩

theorem glue_concat {start : List String} (hs : start ≠ []) (last : String) :
    glue (start ++ [last]) = glue start ++ "/" ++ last := by
  rw [glue, String.intercalate_append_of_ne_nil hs (List.cons_ne_nil _ _),
    String.intercalate_singleton, glue]

theorem exists_glue_concat (start : List String) (last : String) :
    ∃ head, glue (start ++ [last]) = head ++ last := by
  by_cases hs : start = []
  · exact ⟨"", by simp [hs, glue]⟩
  · exact ⟨glue start ++ "/", glue_concat hs last⟩

theorem join_glue {place : List String} (h : AreNames place) {piece : String} (hn : piece ≠ "")
    (hp : '/' ∉ piece.toList) :
    join ["/" ++ glue place, piece] = "/" ++ glue (follow place piece) := by
  have hg : glue ["/" ++ glue place, piece] = "/" ++ glue place ++ "/" ++ piece := by
    simp [glue, String.append_assoc]
  have ha : isAbsolute ("/" ++ glue place ++ "/" ++ piece) = true := by simp [isAbsolute]
  have he : endsInSlash ("/" ++ glue place ++ "/" ++ piece) = false := by
    rw [endsInSlash_append _ hn, endsInSlash_unbroken hp]
  have hne : "/" ++ glue place ++ "/" ++ piece ≠ "" := by
    intro hc
    have := congrArg String.toList hc
    simp at this
  rw [join, List.filter_eq_self.2 (by simp [hn]), if_neg (by simp), hg, normalize,
    if_neg hne, ha, he]
  simp only [Bool.not_true, simplified_glue_slash h hp, if_true]
  split
  · rename_i hb
    rw [(glue_eq_empty (areNames_follow h hp).isSteps).1 hb]
    rfl
  · simp

/-! ### Simplest spellings -/

@[simp] theorem step_empty (above : Bool) (done : List String) : step above done "" = done := by
  simp [step]

theorem isSteps_step {above : Bool} {done : List String} {piece : String}
    (hd : ∀ kept ∈ done, IsStep kept) (hp : '/' ∉ piece.toList) :
    ∀ kept ∈ step above done piece, IsStep kept := by
  have hup : IsStep ".." := ⟨by decide, by decide, by decide⟩
  unfold step
  split
  · exact hd
  · rename_i hne
    rw [not_or] at hne
    split
    · split
      · split
        · exact List.forall_mem_singleton.2 hup
        · exact List.forall_mem_nil _
      · split
        · exact List.forall_mem_cons.2 ⟨hup, hd⟩
        · exact (List.forall_mem_cons.1 hd).2
    · exact List.forall_mem_cons.2 ⟨⟨hne.1, hne.2, hp⟩, hd⟩

theorem isSteps_foldl_step (above : Bool) {done ps : List String} (hd : ∀ kept ∈ done, IsStep kept)
    (hp : ∀ p ∈ ps, '/' ∉ p.toList) : ∀ kept ∈ ps.foldl (step above) done, IsStep kept := by
  induction ps generalizing done with
  | nil => exact hd
  | cons p ps ih =>
    obtain ⟨hfirst, hrest⟩ := List.forall_mem_cons.1 hp
    exact ih (isSteps_step hd hfirst) hrest

theorem isSteps_simplified (above : Bool) (path : String) :
    ∀ kept ∈ simplified above path, IsStep kept := fun kept hm =>
  isSteps_foldl_step above (List.forall_mem_nil _) (fun _ => unbroken_of_mem_pieces) kept
    (List.mem_reverse.1 hm)

theorem foldl_step_step (start : List String) {done : List String} (hd : ∀ kept ∈ done, IsStep kept)
    (piece : String) :
    (step true done piece).reverse.foldl (step false) start =
      step false (done.reverse.foldl (step false) start) piece := by
  by_cases hn : piece = "" ∨ piece = "."
  · simp [step, hn]
  by_cases hu : piece = ".."
  · subst hu
    cases done with
    | nil => simp [step]
    | cons last rest =>
      have hl := hd last List.mem_cons_self
      by_cases hlast : last = ".."
      · simp [step, hlast]
      · simp [step, hlast, hl.nonempty, hl.notHere]
  · have hkeep : step true done piece = piece :: done := by simp only [step, hn, hu, if_false]
    rw [hkeep, List.reverse_cons, List.foldl_append]
    rfl

theorem foldl_step_simplified (start : List String) (path : String) :
    (simplified true path).foldl (step false) start = (pieces path).foldl (step false) start := by
  have h : ∀ (ps done : List String), (∀ p ∈ ps, '/' ∉ p.toList) → (∀ kept ∈ done, IsStep kept) →
      (ps.foldl (step true) done).reverse.foldl (step false) start =
        ps.foldl (step false) (done.reverse.foldl (step false) start) := by
    intro ps
    induction ps with
    | nil => exact fun _ _ _ => rfl
    | cons p ps ih =>
      intro done hp hd
      obtain ⟨hfirst, hrest⟩ := List.forall_mem_cons.1 hp
      rw [List.foldl_cons, ih _ hrest (isSteps_step hd hfirst), foldl_step_step start hd,
        List.foldl_cons]
  exact h (pieces path) [] (fun _ => unbroken_of_mem_pieces) (List.forall_mem_nil _)

theorem foldl_step_simplified_not {path : String} {start : List String}
    (hs : isAbsolute path = true → start = []) :
    (simplified (!isAbsolute path) path).foldl (step false) start =
      (pieces path).foldl (step false) start := by
  cases ha : isAbsolute path with
  | false => exact foldl_step_simplified start path
  | true =>
    rw [hs ha, Bool.not_true, foldl_step_names false [] (areNames_simplified path), simplified,
      List.reverse_reverse, List.append_nil]

@[simp] theorem pieces_slash_append (s : String) : pieces ("/" ++ s) = "" :: pieces s := by
  have := pieces_append_slash "" s
  rwa [pieces_unbroken (s := "") (by simp), String.empty_append] at this

@[simp] theorem pieces_append_slash_end (s : String) : pieces (s ++ "/") = pieces s ++ [""] := by
  have := pieces_append_slash s ""
  rwa [pieces_unbroken (s := "") (by simp), String.append_empty] at this

theorem normalize_of_steps {path : String} (h : simplified (!isAbsolute path) path ≠ []) :
    normalize path = (if isAbsolute path then "/" else "") ++
    glue (simplified (!isAbsolute path) path) ++
      (if endsInSlash path then "/" else "") := by
  have hp : path ≠ "" := fun hp => h (hp ▸ by decide)
  have hg := (glue_eq_empty (isSteps_simplified _ path)).not.2 h
  simp only [normalize, if_neg hp, if_neg hg]

theorem normalize_of_no_steps {path : String} (h : simplified (!isAbsolute path) path = []) :
    normalize path = if isAbsolute path then "/" else
      if path ≠ "" ∧ endsInSlash path = true then "./" else "." := by
  by_cases hp : path = ""
  · rw [hp]
    decide
  · have hg := (glue_eq_empty (isSteps_simplified _ path)).2 h
    simp [normalize, hp, hg]

theorem foldl_step_normalize {path : String} {start : List String}
    (hs : isAbsolute path = true → start = []) :
    (pieces (normalize path)).foldl (step false) start =
      (pieces path).foldl (step false) start := by
  rw [← foldl_step_simplified_not hs]
  by_cases he : simplified (!isAbsolute path) path = []
  · rw [normalize_of_no_steps he, he]
    split
    · rfl
    · split <;> rfl
  · have hglue : pieces (glue (simplified (!isAbsolute path) path)) =
        simplified (!isAbsolute path) path :=
      pieces_glue he fun kept hm => (isSteps_simplified _ path kept hm).unbroken
    rw [normalize_of_steps he]
    split <;> split <;> simp [hglue]

@[simp] theorem isAbsolute_normalize (path : String) :
    isAbsolute (normalize path) = isAbsolute path := by
  by_cases he : simplified (!isAbsolute path) path = []
  · rw [normalize_of_no_steps he]
    cases isAbsolute path with
    | true => rw [if_pos rfl]; rfl
    | false => simp only [Bool.false_eq_true, if_false]; split <;> rfl
  · rw [normalize_of_steps he]
    obtain ⟨first, rest, hs⟩ := List.exists_cons_of_ne_nil he
    have hfirst := isSteps_simplified (!isAbsolute path) path first (hs ▸ List.mem_cons_self)
    obtain ⟨tail, ht⟩ := exists_glue_cons first rest
    rw [hs, ht]
    cases isAbsolute path with
    | true => simp [isAbsolute]
    | false =>
      rw [if_neg Bool.false_ne_true, String.empty_append, String.append_assoc,
        isAbsolute_append hfirst.nonempty, isAbsolute_unbroken hfirst.unbroken]

def below (directory name : String) : String :=
  if directory = "" then name else directory ++ "/" ++ name

section below

variable (directory : String) {name : String} (hn : IsName name)

include hn

theorem join_name : join [directory, name] = normalize (below directory name) := by
  by_cases hd : directory = ""
  · simp [join, below, hd, hn.nonempty, glue]
  · simp [join, below, hd, hn.nonempty, glue, String.append_assoc]

theorem isAbsolute_below : isAbsolute (below directory name) = isAbsolute directory := by
  unfold below
  split
  · rename_i hd
    rw [isAbsolute_unbroken hn.unbroken, hd]
    rfl
  · rename_i hd
    rw [String.append_assoc, isAbsolute_append hd]

theorem foldl_step_below (above : Bool) (start : List String) :
    (pieces (below directory name)).foldl (step above) start =
      name :: (pieces directory).foldl (step above) start := by
  unfold below
  split
  · rename_i hd
    rw [hd, pieces_unbroken hn.unbroken, pieces_unbroken (s := "") (by simp)]
    simp [step_name above _ hn]
  · rw [pieces_append_slash, List.foldl_append, pieces_unbroken hn.unbroken, List.foldl_cons,
      List.foldl_nil, step_name above _ hn]

theorem endsInSlash_join : endsInSlash (join [directory, name]) = false := by
  have hs : simplified (!isAbsolute (below directory name)) (below directory name) =
      simplified (!isAbsolute directory) directory ++ [name] := by
    rw [isAbsolute_below directory hn, simplified, foldl_step_below directory hn, List.reverse_cons,
      simplified]
  have hend : endsInSlash (below directory name) = false := by
    unfold below
    split
    · exact endsInSlash_unbroken hn.unbroken
    · rw [endsInSlash_append _ hn.nonempty, endsInSlash_unbroken hn.unbroken]
  obtain ⟨head, hh⟩ := exists_glue_concat (simplified (!isAbsolute directory) directory) name
  rw [join_name directory hn, normalize_of_steps (by simp [hs]), hs, hend,
    if_neg Bool.false_ne_true,
    String.append_empty, hh, ← String.append_assoc, endsInSlash_append _ hn.nonempty,
    endsInSlash_unbroken hn.unbroken]

end below

end Path

end EndpointAtlas
