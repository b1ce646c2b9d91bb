import EndpointAtlas.Proofs.Inventory.Memory
import EndpointAtlas.Proofs.Path.Parts

/-!
Where the search for a module leads that is looked for beside the file that imports it. Main
statement: a fresh resolver finds the first regular file among the paths that a specifier stands
for, and files that are added only move the search to an earlier one of them; for a specifier that
ends in a slash it tries paths that the specifier does not stand for, and what is found there is all
that sets the answer apart.
-/

set_option autoImplicit false

namespace EndpointAtlas

/-! ### Origins with a path -/

namespace Origin

theorem path?_ofText_resolve (tree : FileTree) (path : String) :
    (ofText (tree.resolve path)).path? = some (tree.resolve path) := by
  have named : tree.resolve path ≠ externalText := by
    intro h
    have first := congrArg (fun text => text.toList.head?) h
    simp [FileTree.resolve, Path.resolve, externalText] at first
  rw [ofText, dif_neg named]
  rfl

theorem ofText_resolve_ne {otherwise : Origin} (outside : otherwise.path? = none) (tree : FileTree)
    (path : String) : ofText (tree.resolve path) ≠ otherwise := by
  rintro rfl
  rw [path?_ofText_resolve] at outside
  cases outside

theorem eq_of_path? {first second : Origin} {path : String} (hf : first.path? = some path)
    (hs : second.path? = some path) : first = second := by
  cases first <;> cases second <;> simp_all [path?]

end Origin

namespace FileTree

/-- What becomes of a tree when regular files are added to it, and the directories that they
need. -/
structure Gains (tree later : FileTree) : Prop where
  current : later.current = tree.current
  files : ∀ place, tree.hasFile place = true → later.hasFile place = true

theorem Gains.isFile {tree later : FileTree} (h : tree.Gains later) {path : String}
    (there : tree.isFile path = true) : later.isFile path = true := by
  rw [FileTree.isFile, Bool.and_eq_true] at there ⊢
  rw [locate_congr h.current]
  exact ⟨there.1, h.files _ there.2⟩

theorem exists_resolve {tree : FileTree} {path : String} (h : tree.isFile path = true) :
    tree.exists_ (tree.resolve path) = true := by
  rw [FileTree.isFile, Bool.and_eq_true] at h
  rw [exists_, Bool.or_eq_true, FileTree.isFile, isDirectory, locate_resolve]
  rcases List.eq_nil_or_concat' (tree.locate path) with top | ⟨start, last, hl⟩
  · exact .inr (by simp [top, hasDirectory])
  · have name := areNames_locate tree path last (by simp [hl])
    obtain ⟨head, hh⟩ := Path.exists_glue_concat start last
    refine .inl (by rw [h.2, Bool.and_true, resolve_eq_glue, hl, hh, ← String.append_assoc,
      Path.endsInSlash_append _ name.nonempty, Path.endsInSlash_unbroken name.unbroken]; rfl)

end FileTree

/-! ### Searches -/

namespace Resolver

/-- Is a path the first of a list where something is, and at which position? -/
structure IsFirst (there : String → Bool) (paths : List String) (position : Nat)
    (path : String) : Prop where
  listed : paths[position]? = some path
  found : there path = true
  earlier : ∀ other ∈ paths.take position, there other = false

/-- An answer leads to the first of some paths where something is; where nothing is, it is another
answer, and only there. -/
structure Leads (tree : FileTree) (there : String → Bool) (paths : List String)
    (otherwise answer : Origin) : Prop where
  found : ∀ position path, IsFirst there paths position path →
    answer.path? = some (tree.resolve path)
  missed : answer = otherwise ↔ ∀ path ∈ paths, there path = false

def sought (tree : FileTree) (there : String → Bool) (paths : List String)
    (otherwise : Origin) : Origin :=
  match paths.find? there with
  | some path => .ofText (tree.resolve path)
  | none => otherwise

section searches

variable {tree : FileTree} {there : String → Bool} {paths : List String} {otherwise answer : Origin}

theorem find?_eq_some_iff_isFirst {path : String} :
    paths.find? there = some path ↔ ∃ position, IsFirst there paths position path := by
  rw [List.find?_eq_some_iff_append]
  constructor
  · rintro ⟨found, before, after, rfl, earlier⟩
    refine ⟨before.length, by simp, found, fun other ho => ?_⟩
    rw [List.take_left] at ho
    simpa using earlier other ho
  · rintro ⟨position, listed, found, earlier⟩
    obtain ⟨bound, rfl⟩ := List.getElem?_eq_some_iff.1 listed
    refine ⟨found, paths.take position, paths.drop (position + 1), ?_,
      fun other ho => by simp [earlier other ho]⟩
    rw [← List.drop_eq_getElem_cons bound, List.take_append_drop]

theorem Leads.unique {other : Origin} (h : Leads tree there paths otherwise answer)
    (ho : Leads tree there paths otherwise other) : answer = other := by
  cases hf : paths.find? there with
  | none =>
    have nowhere : ∀ path ∈ paths, there path = false := by simpa using List.find?_eq_none.1 hf
    rw [h.missed.2 nowhere, ho.missed.2 nowhere]
  | some path =>
    obtain ⟨position, first⟩ := find?_eq_some_iff_isFirst.1 hf
    exact Origin.eq_of_path? (h.found position path first) (ho.found position path first)

theorem sought_eq_otherwise_iff (outside : otherwise.path? = none) :
    sought tree there paths otherwise = otherwise ↔ ∀ path ∈ paths, there path = false := by
  unfold sought
  cases hf : paths.find? there with
  | none => exact iff_of_true rfl (by simpa using List.find?_eq_none.1 hf)
  | some path =>
    refine iff_of_false (Origin.ofText_resolve_ne outside tree path) fun nowhere => ?_
    have found := List.find?_some hf
    rw [nowhere path (List.mem_of_find?_eq_some hf)] at found
    cases found

theorem leads_sought (outside : otherwise.path? = none) :
    Leads tree there paths otherwise (sought tree there paths otherwise) where
  found position path first := by
    rw [sought, find?_eq_some_iff_isFirst.2 ⟨position, first⟩]
    exact Origin.path?_ofText_resolve tree path
  missed := sought_eq_otherwise_iff outside

theorem leads_iff_eq_sought (outside : otherwise.path? = none) :
    Leads tree there paths otherwise answer ↔ answer = sought tree there paths otherwise := by
  refine ⟨fun leads => leads.unique (leads_sought outside), ?_⟩
  rintro rfl
  exact leads_sought outside

theorem sought_first_eq_iff (outside : otherwise.path? = none) {first : String}
    {rest : List String} :
    sought tree there [first] otherwise = sought tree there (first :: rest) otherwise ↔
      ¬ (there first = false ∧ ∃ path ∈ first :: rest, there path = true) := by
  cases hf : there first with
  | true => simp [sought, hf]
  | false =>
    have misses : sought tree there [first] otherwise = otherwise :=
      (sought_eq_otherwise_iff outside).2 (List.forall_mem_singleton.2 hf)
    rw [misses, eq_comm, sought_eq_otherwise_iff outside]
    simp

theorem IsFirst.moves {more : String → Bool} {position : Nat} {path : String}
    (first : IsFirst there paths position path)
    (keeps : ∀ path, there path = true → more path = true) :
    ∃ position' ≤ position, ∃ path', IsFirst more paths position' path' := by
  have finds : (paths.find? more).isSome = true :=
    List.find?_isSome.2 ⟨path, List.mem_of_getElem? first.listed, keeps path first.found⟩
  obtain ⟨path', hf⟩ := Option.isSome_iff_exists.1 finds
  obtain ⟨position', first'⟩ := find?_eq_some_iff_isFirst.1 hf
  refine ⟨position', Nat.le_of_not_lt fun late => ?_, path', first'⟩
  have passed := first'.earlier path
    (List.mem_of_getElem? (i := position) (by rw [List.getElem?_take_of_lt late, first.listed]))
  rw [keeps path first.found] at passed
  cases passed

end searches

/-! ### Beside the importing file -/

def compiled : List String := [".js", ".mjs", ".cjs"]

def stem? (text ending : String) : Option String :=
  if Text.endsWith text ending then
    let stem := String.ofList (text.toList.take (text.toList.length - ending.toList.length))
    if stem = "" ∨ Path.endsInSlash stem then none else some stem
  else none

theorem stem?_eq_some_iff {text ending stem : String} :
    stem? text ending = some stem ↔ text = stem ++ ending ∧ stem ≠ "" ∧
    Path.endsInSlash stem = false := by
  unfold stem?
  constructor
  · intro h
    split at h
    · rename_i ends
      obtain ⟨front, hf⟩ := List.isSuffixOf_iff_suffix.1 ends
      have cut : text.toList.take (text.toList.length - ending.toList.length) = front := by
        rw [← hf, List.length_append, Nat.add_sub_cancel, List.take_left]
      simp only [cut] at h
      split at h
      · cases h
      · rename_i named
        rw [not_or, Bool.not_eq_true] at named
        cases h
        refine ⟨?_, named⟩
        rw [← String.toList_inj, ← hf, String.toList_append, String.toList_ofList]
    · cases h
  · rintro ⟨rfl, nonempty, named⟩
    have ends : Text.endsWith (stem ++ ending) ending = true :=
      List.isSuffixOf_iff_suffix.2 ⟨stem.toList, by simp⟩
    rw [if_pos ends]
    simp [nonempty, named]

/-- The sources that a path which ends in the extension of a compiled file was compiled from, as far
as names tell. -/
def emittedAs (joined ending : String) : List String :=
  (stem? joined ending).elim [] fun stem => (sourcesOf ending).map (stem ++ ·)

/-- What is tried instead if a slash stands behind the extension: the name keeps its dot, and gets
the other extension with a dot of its own. -/
def strayedAs (joined ending : String) : List String :=
  (stem? joined (ending ++ "/")).elim [] fun stem => (sourcesOf ending).map (stem ++ "." ++ ·)

def emitted (joined : String) : List String := compiled.flatMap (emittedAs joined)

def strays (joined : String) : List String := compiled.flatMap (strayedAs joined)

def suffixed (joined : String) : List String := suffixes.map (joined ++ ·)

/-- The paths that a specifier stands for, in the order in which they are to be tried. -/
def meant (joined : String) : List String := suffixed joined ++ emitted joined ++ [joined]

/-- What is tried for a specifier: the paths that it stands for, and before the last of them the
strays. -/
def tried (joined : String) : List String :=
  suffixed joined ++ emitted joined ++ strays joined ++ [joined]

theorem exists_tail {ending : String} (h : ending ∈ compiled) :
    ∃ tail, ending.toList = '.' :: tail ∧ tail ≠ [] ∧ '.' ∉ tail ∧ '/' ∉ tail := by
  simp only [compiled, List.mem_cons, List.not_mem_nil, or_false] at h
  rcases h with rfl | rfl | rfl
  · exact ⟨['j', 's'], by decide⟩
  · exact ⟨['m', 'j', 's'], by decide⟩
  · exact ⟨['c', 'j', 's'], by decide⟩

section endings

variable {path ending stem : String} (he : ending ∈ compiled)

include he

theorem extension_normalize_iff : Path.extension (Path.normalize path) = ending ↔
    (∃ stem, stem? (Path.normalize path) ending = some stem) ∨
      ∃ stem, stem? (Path.normalize path) (ending ++ "/") = some stem := by
  obtain ⟨tail, ht, hn, hd, hs⟩ := exists_tail he
  obtain rfl : ending = String.ofList ('.' :: tail) := by rw [← ht, String.ofList_toList]
  have named (front : List Char) : String.ofList front ≠ "" ∧
      Path.endsInSlash (String.ofList front) = false ↔ front ≠ [] ∧ front.getLast? ≠ some '/' := by
    simp [Path.endsInSlash]
  simp only [stem?_eq_some_iff, Path.extension_eq_iff hn hd hs]
  constructor
  · rintro ⟨front, slashes, hp, hfront, hslashes⟩
    rcases Path.slashes_normalize hp (Path.getLast?_append_cons_unbroken front '.' hn hs)
      hslashes with rfl | rfl
    · exact .inl
        ⟨String.ofList front, by rw [← String.toList_inj, hp]; simp, (named front).2 hfront⟩
    · exact .inr
        ⟨String.ofList front, by rw [← String.toList_inj, hp]; simp, (named front).2 hfront⟩
  · rintro (⟨stem, hp, hstem⟩ | ⟨stem, hp, hstem⟩)
    · exact ⟨stem.toList,
        [], by simp [hp], (named _).1 (by simpa using hstem), List.forall_mem_nil _⟩
    · exact ⟨stem.toList, ['/'], by simp [hp], (named _).1 (by simpa using hstem), by simp⟩

omit he in
theorem cut_of_stem? (h : stem? path ending = some stem) :
    String.ofList (path.toList.take (path.toList.length - ending.length)) = stem := by
  obtain ⟨rfl, -⟩ := stem?_eq_some_iff.1 h
  simp [← String.length_toList]

theorem cut_of_stem?_slash (h : stem? path (ending ++ "/") = some stem) :
    String.ofList (path.toList.take (path.toList.length - ending.length)) = stem ++ "." := by
  obtain ⟨tail, ht, -⟩ := exists_tail he
  obtain ⟨rfl, -⟩ := stem?_eq_some_iff.1 h
  have spelled : (stem ++ (ending ++ "/")).toList =
      (stem.toList ++ ['.']) ++ (tail ++ ['/']) := by simp [ht]
  have kept : (stem ++ (ending ++ "/")).toList.length - ending.length =
      (stem.toList ++ ['.']).length := by
    rw [← String.length_toList, spelled, ht]
    simp only [List.length_append, List.length_cons, List.length_nil]
    omega
  rw [kept, spelled, List.take_left]
  simp

omit he in
theorem endsInSlash_of_stem? (h : stem? path (ending ++ "/") = some stem) :
    Path.endsInSlash path = true := by
  obtain ⟨rfl, -⟩ := stem?_eq_some_iff.1 h
  rw [← String.append_assoc, Path.endsInSlash_append _ (by decide)]
  decide

theorem stem?_eq_none_of_endsInSlash (closed : Path.endsInSlash path = true) :
    stem? path ending = none := by
  obtain ⟨tail, ht, hn, -, hs⟩ := exists_tail he
  rw [Option.eq_none_iff_forall_ne_some]
  intro stem h
  obtain ⟨rfl, -⟩ := stem?_eq_some_iff.1 h
  rw [Path.endsInSlash, String.toList_append, ht, decide_eq_true_eq] at closed
  exact Path.getLast?_append_cons_unbroken _ _ hn hs closed

theorem sources_of_extension (h : Path.extension (Path.normalize path) = ending) :
    (sourcesOf ending).map (String.ofList ((Path.normalize path).toList.take
      ((Path.normalize path).toList.length - ending.length)) ++ ·) =
        emittedAs (Path.normalize path) ending ++ strayedAs (Path.normalize path) ending := by
  unfold emittedAs strayedAs
  rcases (extension_normalize_iff he).1 h with ⟨stem, hs⟩ | ⟨stem, hs⟩
  · have unclosed : stem? (Path.normalize path) (ending ++ "/") = none := by
      rw [Option.eq_none_iff_forall_ne_some]
      intro other ho
      rw [stem?_eq_none_of_endsInSlash he (endsInSlash_of_stem? ho)] at hs
      cases hs
    rw [hs, unclosed, cut_of_stem? hs]
    exact (List.append_nil _).symm
  · rw [hs, stem?_eq_none_of_endsInSlash he (endsInSlash_of_stem? hs), cut_of_stem?_slash he hs]
    rfl

theorem silent_of_extension (h : Path.extension (Path.normalize path) ≠ ending) :
    emittedAs (Path.normalize path) ending = [] ∧ strayedAs (Path.normalize path) ending = [] := by
  rw [ne_eq, extension_normalize_iff he, not_or, ← Option.ne_none_iff_exists',
    ← Option.ne_none_iff_exists', not_not, not_not] at h
  rw [emittedAs, strayedAs, h.1, h.2]
  exact ⟨rfl, rfl⟩

end endings

theorem flatMap_eq_of_silent {α β : Type} {f : α → List β} {list : List α} {a : α}
    (distinct : list.Nodup)
    (ha : a ∈ list) (silent : ∀ b ∈ list, a ≠ b → f b = []) : list.flatMap f = f a := by
  induction list with
  | nil => cases ha
  | cons first rest ih =>
    obtain ⟨fresh, distinct⟩ := List.nodup_cons.1 distinct
    rw [List.flatMap_cons]
    rcases List.mem_cons.1 ha with rfl | ha
    · rw [List.flatMap_eq_nil_iff.2 fun b hb => silent b (List.mem_cons_of_mem a hb) fun same =>
        fresh (same ▸ hb), List.append_nil]
    · rw [silent first List.mem_cons_self fun same => fresh (same ▸ ha), List.nil_append,
        ih distinct ha fun b hb => silent b (List.mem_cons_of_mem first hb)]

theorem sourcesOf_eq_nil {ending : String} (h : ending ∉ compiled) : sourcesOf ending = [] := by
  unfold sourcesOf
  split <;> first | rfl | exact absurd (by decide) h

theorem candidates_eq {directory specifier joined : String}
    (h : joined = Path.normalize (Path.join [directory, specifier])) :
    candidates directory specifier = tried joined := by
  have sources : (sourcesOf (Path.extension joined)).map
      (String.ofList (joined.toList.take (joined.toList.length - (Path.extension joined).length)) ++
        ·) = emitted joined ++ strays joined := by
    have silent (ending : String) (he : ending ∈ compiled) (hne : Path.extension joined ≠ ending) :
        emittedAs joined ending = [] ∧ strayedAs joined ending = [] := by
      rw [h] at hne ⊢
      exact silent_of_extension he hne
    -- Of the three extensions only that of the path can give sources or strays.
    by_cases known : Path.extension joined ∈ compiled
    · rw [emitted, strays, flatMap_eq_of_silent (by decide) known fun ending he hne =>
        (silent ending he hne).1,
        flatMap_eq_of_silent (by decide) known fun ending he hne => (silent ending he hne).2]
      rw [h] at known ⊢
      exact sources_of_extension known rfl
    · have off (ending : String) (he : ending ∈ compiled) :=
        silent ending he fun same => known (same ▸ he)
      rw [sourcesOf_eq_nil known, emitted, strays, List.flatMap_eq_nil_iff.2 fun ending he =>
        (off ending he).1, List.flatMap_eq_nil_iff.2 fun ending he => (off ending he).2]
      rfl
  unfold candidates tried
  simp only [← h, suffixed, List.append_assoc]
  rw [sources]
  simp only [List.append_assoc]

/-- Does the search end at a stray? There is a file at one, and none at the paths that are tried
before. -/
def GoesAstray (tree : FileTree) (joined : String) : Prop :=
  (∀ path ∈ suffixed joined, tree.isFile path = false) ∧
  ∃ path ∈ strays joined, tree.isFile path = true

instance (tree : FileTree) (joined : String) : Decidable (GoesAstray tree joined) :=
  inferInstanceAs (Decidable (_ ∧ _))

def freshAnswer (tree : FileTree) (specifier directory : String) (root : Option String) : Origin :=
  ((resolve tree specifier directory root).run Memory.empty).1

theorem endsInSlash_of_mem_strays {joined stray : String} (h : stray ∈ strays joined) :
    Path.endsInSlash joined = true ∧ emitted joined = [] := by
  obtain ⟨ending, -, hs⟩ := List.mem_flatMap.1 h
  unfold strayedAs at hs
  cases hstem : stem? joined (ending ++ "/") with
  | none => simp [hstem] at hs
  | some stem =>
    have closed := endsInSlash_of_stem? hstem
    refine ⟨closed, List.flatMap_eq_nil_iff.2 fun other ho => ?_⟩
    rw [emittedAs, stem?_eq_none_of_endsInSlash ho closed]
    rfl

variable {tree : FileTree} {specifier directory joined : String} {root : Option String}

theorem sought_tried_eq_iff :
    sought tree tree.isFile (tried joined) .unresolved =
      sought tree tree.isFile (meant joined) .unresolved ↔
      ¬ GoesAstray tree joined := by
  unfold sought tried meant GoesAstray
  simp only [List.find?_append]
  cases hs : (strays joined).find? tree.isFile with
  | none =>
    have nowhere := List.find?_eq_none.1 hs
    rw [Option.or_none]
    refine iff_of_true rfl ?_
    rintro ⟨-, stray, hm, found⟩
    exact nowhere stray hm found
  | some stray =>
    -- The path ends in a slash, so the strays come right behind the suffixed paths, and it is no
    -- file itself.
    obtain ⟨closed, nothing⟩ := endsInSlash_of_mem_strays (List.mem_of_find?_eq_some hs)
    have joinedOff : [joined].find? tree.isFile = none := by simp [FileTree.isFile, closed]
    rw [nothing, List.find?_nil, joinedOff]
    cases hf : (suffixed joined).find? tree.isFile with
    | some path =>
      refine iff_of_true rfl ?_
      rintro ⟨passed, -⟩
      have found := List.find?_some hf
      rw [passed path (List.mem_of_find?_eq_some hf)] at found
      cases found
    | none =>
      have passed : ∀ path ∈ suffixed joined, tree.isFile path =
          false := by simpa using List.find?_eq_none.1 hf
      exact iff_of_false (Origin.ofText_resolve_ne rfl tree stray)
        (not_not_intro ⟨passed, stray, List.mem_of_find?_eq_some hs, List.find?_some hs⟩)

theorem originExists_of_path? {answer : Origin} {path : String} (h : answer.path? = some path) :
    originExists tree answer = tree.exists_ path := by
  cases answer <;> simp_all [Origin.path?, originExists]

theorem freshAnswer_eq_sought (relative : isRelative specifier = true)
    (h : joined = Path.normalize (Path.join [directory, specifier])) :
    freshAnswer tree specifier directory root =
      sought tree tree.isFile (tried joined) .unresolved := by
  rw [freshAnswer, StateT.run, (resolve_answers tree specifier directory root Memory.empty).1,
    origin, if_pos relative, lead, candidates_eq h, Memory.believes_empty, sought]
  cases (tried joined).find? tree.isFile <;> rfl

/-- Where the search for a specifier that starts with a dot leads: along the paths that are tried,
and, unless a stray is found, along those that the specifier stands for. What it finds exists, and
files that are added only move it to an earlier path. -/
theorem leads_relative (tree : FileTree) (specifier directory : String) (root : Option String)
    (relative : isRelative specifier = true) :
    let joined := Path.normalize (Path.join [directory, specifier])
    let answer := freshAnswer tree specifier directory root
    Leads tree tree.isFile (tried joined) .unresolved answer ∧
    (Leads tree tree.isFile (meant joined) .unresolved answer ↔ ¬ GoesAstray tree joined) ∧
    (Path.endsInSlash joined = false → ¬ GoesAstray tree joined) ∧
    (answer ≠ .unresolved → originExists tree answer = true) ∧
    ∀ later, tree.Gains later → ∀ position path, IsFirst tree.isFile (tried joined) position path →
      ∃ position' ≤ position, ∃ path', IsFirst later.isFile (tried joined) position' path' ∧
        (freshAnswer later specifier directory root).path? = some (later.resolve path') := by
  intro joined answer
  have along (seen : FileTree) :
      Leads seen seen.isFile (tried joined) .unresolved
        (freshAnswer seen specifier directory root) :=
    (leads_iff_eq_sought rfl).2 (freshAnswer_eq_sought relative rfl)
  have comes : answer = sought tree tree.isFile (tried joined) .unresolved :=
    freshAnswer_eq_sought relative rfl
  refine ⟨along tree, ?_, fun unclosed => ?_, fun found => ?_,
    fun later gains position path first => ?_⟩
  · rw [leads_iff_eq_sought rfl, comes, sought_tried_eq_iff]
  · rintro ⟨-, stray, hm, -⟩
    rw [(endsInSlash_of_mem_strays hm).1] at unclosed
    cases unclosed
  · unfold sought at comes
    split at comes
    · rename_i path hf
      rw [comes, originExists_of_path? (Origin.path?_ofText_resolve tree path)]
      exact FileTree.exists_resolve (List.find?_some hf)
    · exact absurd comes found
  · obtain ⟨position', early, path', first'⟩ := first.moves fun path => gains.isFile
    exact ⟨position', early, path', first', (along later).found position' path' first'⟩

def doubleDotted : FileTree where
  current := "/proj"
  files := [(["proj", "db..ts"], .text "export {};\n")]
  directories := [["proj"]]

theorem leads_relative_astray :
    isRelative "./db.js/" = true ∧ GoesAstray doubleDotted "/proj/db.js/" ∧
      ¬ Leads doubleDotted doubleDotted.isFile (meant "/proj/db.js/") .unresolved
        (freshAnswer doubleDotted "./db.js/" "/proj" none) ∧
      (freshAnswer doubleDotted "./db.js/" "/proj" none).path? = some "/proj/db..ts" := by
  have spelled : Path.normalize (Path.join ["/proj", "./db.js/"]) = "/proj/db.js/" := by decide
  have astray : GoesAstray doubleDotted "/proj/db.js/" := by decide +kernel
  have all := leads_relative doubleDotted "./db.js/" "/proj" none (by decide)
  rw [spelled] at all
  obtain ⟨along, exactly, -⟩ := all
  have first : IsFirst doubleDotted.isFile (tried "/proj/db.js/") 15 "/proj/db..ts" :=
    ⟨by decide, by decide, by decide +kernel⟩
  have whole : doubleDotted.resolve "/proj/db..ts" = "/proj/db..ts" := by decide +kernel
  exact ⟨by decide, astray, fun leads => exactly.1 leads astray, whole ▸ along.found 15 _ first⟩

end Resolver

end EndpointAtlas
