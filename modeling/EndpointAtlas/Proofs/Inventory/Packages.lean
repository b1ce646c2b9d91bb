import EndpointAtlas.Proofs.Inventory.Search

/-!
Where the search for an installed package leads. Main statement: climbing from the importing
directory always ends, and from a directory in the root it ends there; the package that is found is
the nearest on the way, except where the name below the root starts with two dots, for then only the
importing directory is searched, as it is outside of the root.
-/

set_option autoImplicit false

namespace EndpointAtlas

/-! ### Climbing -/

namespace Path

/-- The directories on the way up from one: its parent comes next, until the top is reached or a
directory that is its own parent. -/
inductive Climbs (top : String) : String → List String → Prop
  | arrived : Climbs top top [top]
  | stuck {directory : String} (below : directory ≠ top) (still : parent directory = directory) :
      Climbs top directory [directory]
  | up {directory : String} {chain : List String} (below : directory ≠
      top) (moves : parent directory ≠ directory)
      (rest : Climbs top (parent directory) chain) : Climbs top directory (directory :: chain)

variable {top directory : String} {chain : List String}

theorem Climbs.unique {other : List String} (h : Climbs top directory chain)
    (ho : Climbs top directory other) : other = chain := by
  induction h generalizing other with
  | arrived =>
    cases ho with
    | arrived => rfl
    | stuck below | up below => exact absurd rfl below
  | stuck below still =>
    cases ho with
    | arrived => exact absurd rfl below
    | stuck => rfl
    | up _ moves => exact absurd still moves
  | up below moves _ ih =>
    cases ho with
    | arrived => exact absurd rfl below
    | stuck _ still => exact absurd still moves
    | up _ _ rest => rw [ih rest]

theorem Climbs.exists_cons (h : Climbs top directory chain) :
    ∃ rest, chain = directory :: rest := by
  cases h with
  | arrived | stuck => exact ⟨[], rfl⟩
  | up => exact ⟨_, rfl⟩

theorem exists_climbs (top : String) {names : List String} (h : AreNames names) :
    ∃ chain, Climbs top ("/" ++ glue names) chain := by
  induction names using List.reverseRecOn with
  | nil =>
    by_cases ht : "/" ++ glue [] = top
    · exact ⟨[top], by rw [ht]; exact .arrived⟩
    · exact ⟨_, .stuck ht (by decide)⟩
  | append_singleton names name ih =>
    have hnames : AreNames names := fun other ho => h other (List.mem_append_left _ ho)
    have hup := parent_glue names (h name (by simp))
    by_cases ht : "/" ++ glue (names ++ [name]) = top
    · exact ⟨[top], by rw [ht]; exact .arrived⟩
    · obtain ⟨chain, hc⟩ := ih hnames
      refine ⟨_, .up ht (fun still => ?_) (hup ▸ hc)⟩
      have same := glue_injective hnames h (hup.symm.trans still)
      simp at same

end Path

namespace Resolver

/-! ### The directories that are searched -/

theorem ancestors_concat {names : List String} {count : Nat} (name : String)
    (h : count ≤ names.length + 1) :
    ancestors (names ++ [name]) count =
      ("/" ++ Path.glue (names ++ [name])) :: ancestors names count := by
  simp [ancestors, Path.beginnings_concat, List.filter_append, h]

theorem ancestors_self (names : List String) :
    ancestors names names.length = ["/" ++ Path.glue names] := by
  induction names using List.reverseRecOn with
  | nil => rfl
  | append_singleton names name _ =>
    have nothing : ancestors names (names.length + 1) = [] := by
      simp only [ancestors, List.map_eq_nil_iff, List.reverse_eq_nil_iff, List.filter_eq_nil_iff,
        decide_eq_true_eq]
      intro chain hc
      have := (Path.mem_beginnings.1 hc).length_le
      omega
    rw [List.length_append, List.length_singleton, ancestors_concat name (Nat.le_refl _), nothing]

theorem climbs_ancestors {top below : List String} (h : Path.AreNames (top ++ below)) :
    Path.Climbs ("/" ++ Path.glue top) ("/" ++ Path.glue (top ++ below))
      (ancestors (top ++ below) top.length) ∧
      (ancestors (top ++ below) top.length).getLast? = some ("/" ++ Path.glue top) := by
  -- Climbing takes names off at the end, and so does the induction.
  induction below using List.reverseRecOn with
  | nil =>
    rw [List.append_nil, ancestors_self]
    exact ⟨.arrived, rfl⟩
  | append_singleton below name ih =>
    rw [← List.append_assoc] at h ⊢
    have hbelow : Path.AreNames (top ++ below) :=
      fun other ho => h other (List.mem_append_left _ ho)
    have htop : Path.AreNames top := fun other ho => hbelow other (List.mem_append_left _ ho)
    have hup := Path.parent_glue (top ++ below) (h name (by simp))
    obtain ⟨climbs, arrives⟩ := ih hbelow
    rw [ancestors_concat name (by simp; omega)]
    refine ⟨.up (fun same => ?_) (fun still => ?_) (hup ▸ climbs), ?_⟩
    · have := congrArg List.length (Path.glue_injective h htop same)
      simp at this
    · have := congrArg List.length (Path.glue_injective hbelow h (hup.symm.trans still))
      simp at this
    · obtain ⟨rest, hr⟩ := climbs.exists_cons
      rw [hr] at arrives ⊢
      rwa [List.getLast?_cons_cons]

/-- A directory is taken to lie in another by the text of the path between them: that does not start
with two dots, and is relative. -/
theorem liesIn_eq (current root directory : String) :
    liesIn (Path.simplified false (Path.resolve current directory))
        (Path.simplified false (Path.resolve current root)) =
      !(Text.startsWith (Path.relative current root directory) ".." ||
        Path.isAbsolute (Path.relative current root directory)) := by
  rw [Path.isAbsolute_relative, Bool.or_false, Bool.eq_iff_iff, Bool.not_eq_true',
    Bool.eq_false_iff, ne_eq, Path.startsWith_relative]
  unfold liesIn
  generalize Path.simplified false (Path.resolve current directory) = start
  generalize Path.simplified false (Path.resolve current root) = top
  rw [Bool.and_eq_true, List.isPrefixOf_iff_prefix, not_or, not_not]
  refine and_congr_right fun ⟨rest, hr⟩ => ?_
  subst hr
  cases rest with
  | nil => simp
  | cons name rest => simp

variable {tree : FileTree} {memory : Memory} {specifier directory root : String}

def Inside (tree : FileTree) (root directory : String) : Prop :=
  tree.locate root <+: tree.locate directory

/-- Is a directory in the root taken for one outside, by the text of the path to it? -/
def Mistaken (tree : FileTree) (root directory : String) : Prop :=
  Inside tree root directory ∧ Text.startsWith (Path.relative tree.current root directory) ".." =
    true

instance (tree : FileTree) (root directory : String) : Decidable (Mistaken tree root directory) :=
  inferInstanceAs (Decidable (tree.locate root <+: tree.locate directory ∧ _))

theorem mistaken_iff : Mistaken tree root directory ↔
    ∃ name rest, tree.locate directory = tree.locate root ++ name :: rest ∧
    Text.startsWith name ".." = true := by
  have dots := Path.startsWith_relative tree.current root directory
  constructor
  · rintro ⟨inside, dotted⟩
    exact (dots.1 dotted).resolve_left (not_not_intro inside)
  · rintro ⟨name, rest, below, dotted⟩
    exact ⟨⟨name :: rest, below.symm⟩, dots.2 (.inr ⟨name, rest, below, dotted⟩)⟩

theorem liesIn_iff : liesIn (tree.locate directory) (tree.locate root) = true ↔
    Inside tree root directory ∧ ¬ Mistaken tree root directory := by
  have dots := Path.startsWith_relative tree.current root directory
  rw [FileTree.locate, FileTree.locate, FileTree.resolve, FileTree.resolve, liesIn_eq,
    Path.isAbsolute_relative, Bool.or_false, Bool.not_eq_true', Bool.eq_false_iff]
  constructor
  · intro plain
    exact ⟨not_not.1 fun outside => plain (dots.2 (.inl outside)), fun mistaken => plain mistaken.2⟩
  · rintro ⟨inside, known⟩ dotted
    exact known ⟨inside, dotted⟩

theorem searched_alone
    (h : root = "" ∨ ¬ Inside tree root directory ∨ Mistaken tree root directory) :
    searched tree.current directory (some root) = [tree.resolve directory] := by
  have alone : "/" ++ Path.glue (Path.simplified false (Path.resolve tree.current directory)) =
      tree.resolve directory := (tree.resolve_eq_glue directory).symm
  unfold searched
  simp only [alone]
  split
  · rfl
  · rfl
  · rename_i given same
    cases same
    rw [if_neg]
    intro lies
    obtain ⟨inside, known⟩ := liesIn_iff.1 lies
    rcases h with rootless | outside | mistaken
    · exact given rootless
    · exact outside inside
    · exact known mistaken

theorem searched_upward (given : root ≠ "") (inside : Inside tree root directory)
    (known : ¬ Mistaken tree root directory) :
    searched tree.current directory (some root) =
      ancestors (tree.locate directory) (tree.locate root).length := by
  unfold searched
  split
  · rename_i same
    cases same
  · rename_i same
    exact absurd (Option.some.inj same) given
  · rename_i same
    cases same
    exact if_pos (liesIn_iff.2 ⟨inside, known⟩)

theorem run_resolve_bare {root : Option String} (bare : isRelative specifier = false)
    (filed : isBuiltin specifier = false) :
    ((resolve tree specifier directory root).run memory).1 =
      sought tree tree.exists_ ((searched tree.current directory root).map (installed · specifier))
        .external := by
  rw [StateT.run, (resolve_answers tree specifier directory root memory).1, origin, bare, filed,
    sought, List.find?_map]
  simp only [Bool.false_eq_true, if_false, Function.comp_def]
  cases (searched tree.current directory root).find? fun dir =>
    tree.exists_ (installed dir specifier) <;> rfl

/-- Is a package overlooked on the way up: it is not at the directory itself, and at one above, but
the directory is taken for one outside of the root? -/
def Overlooked (tree : FileTree) (specifier root directory : String) (chain : List String) : Prop :=
  Mistaken tree root directory ∧ tree.exists_ (installed (tree.resolve directory) specifier) =
    false ∧
    ∃ above ∈ chain, tree.exists_ (installed above specifier) = true

/-- Where the search for an installed package leads. The way up from a directory always ends, in one
way; in the root it ends there, and the search leads along it unless the package is overlooked.
Without a root, or from outside of it, the search leads to the directory itself. Only directories
below a name that starts with two dots are taken for ones outside. -/
theorem leads_installed (tree : FileTree) (memory : Memory) (specifier directory root : String)
    (bare : isRelative specifier = false) (filed : isBuiltin specifier = false) :
    let start := tree.resolve directory
    let answer := ((resolve tree specifier directory (some root)).run memory).1
    ∃ chain, Path.Climbs (tree.resolve root) start chain ∧
      (∀ other, Path.Climbs (tree.resolve root) start other → other = chain) ∧
      (root ≠ "" → Inside tree root directory → chain.getLast? = some (tree.resolve root) ∧
        (Leads tree tree.exists_ (chain.map (installed · specifier)) .external answer ↔
          ¬ Overlooked tree specifier root directory chain)) ∧
      (root = "" ∨ ¬ Inside tree root directory →
        Leads tree tree.exists_ [installed start specifier] .external answer) ∧
      (Mistaken tree root directory ↔ ∃ name rest,
        tree.locate directory = tree.locate root ++ name :: rest ∧
        Text.startsWith name ".." = true) := by
  intro start answer
  have comes : answer = _ := run_resolve_bare bare filed
  obtain ⟨chain, climbs⟩ := Path.exists_climbs (tree.resolve root) (tree.areNames_locate directory)
  rw [← tree.resolve_eq_glue] at climbs
  refine ⟨chain, climbs, fun other => climbs.unique, fun given inside => ?_, fun alone => ?_,
    mistaken_iff⟩
  · obtain ⟨below, hb⟩ := inside
    have upward := climbs_ancestors (hb ▸ tree.areNames_locate directory)
    rw [hb, ← tree.resolve_eq_glue, ← tree.resolve_eq_glue] at upward
    obtain rfl := climbs.unique upward.1
    refine ⟨upward.2, ?_⟩
    rw [leads_iff_eq_sought rfl, comes]
    by_cases mistaken : Mistaken tree root directory
    · -- Only the directory itself is searched, which is where the way up begins.
      rw [searched_alone (.inr (.inr mistaken))]
      obtain ⟨rest, hr⟩ := climbs.exists_cons
      rw [hr, List.map_singleton, List.map_cons, sought_first_eq_iff rfl]
      exact not_congr ⟨fun ⟨absent, higher⟩ => ⟨mistaken, absent, by simpa using higher⟩,
        fun ⟨_, absent, higher⟩ => ⟨absent, by simpa using higher⟩⟩
    · rw [searched_upward given ⟨below, hb⟩ mistaken]
      exact iff_of_true rfl fun overlooked => mistaken overlooked.1
  · rw [leads_iff_eq_sought rfl, comes, searched_alone (alone.imp_right .inl)]
    rfl

/-- A project with a package that is installed at its root, and a directory whose name starts with
two dots. -/
def dotted : FileTree where
  current := "/proj"
  files :=
    [(["proj", "node_modules", "lib", "index.js"], .text ""), (["proj", "..pkg", "a.ts"], .text "")]
  directories :=
    [["proj"], ["proj", "node_modules"], ["proj", "node_modules", "lib"], ["proj", "..pkg"]]

theorem leads_installed_overlooked :
    isRelative "lib" = false ∧ isBuiltin "lib" = false ∧
      Overlooked dotted "lib" "/proj" "/proj/..pkg" ["/proj/..pkg", "/proj"] ∧
      ¬ Leads dotted dotted.exists_ (["/proj/..pkg", "/proj"].map (installed · "lib")) .external
        ((resolve dotted "lib" "/proj/..pkg" (some "/proj")).run Memory.empty).1 := by
  have top : dotted.resolve "/proj" = "/proj" := by decide
  have start : dotted.resolve "/proj/..pkg" = "/proj/..pkg" := by decide
  have way : Path.Climbs "/proj" "/proj/..pkg" ["/proj/..pkg", "/proj"] :=
    .up (by decide) (by decide) .arrived
  have overlooked : Overlooked dotted "lib" "/proj" "/proj/..pkg" ["/proj/..pkg", "/proj"] :=
    ⟨by decide, by decide, "/proj", by decide, by decide⟩
  obtain ⟨chain, -, only, inside, -⟩ :=
    leads_installed dotted Memory.empty "lib" "/proj/..pkg" "/proj" (by decide) (by decide)
  rw [top, start] at only
  obtain rfl := only _ way
  exact ⟨by decide, by decide, overlooked, fun leads => (inside
    (by decide) overlooked.1.1).2.1 leads overlooked⟩

end Resolver

end EndpointAtlas
