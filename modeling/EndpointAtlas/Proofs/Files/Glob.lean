import EndpointAtlas.Files.Sources
import EndpointAtlas.Proofs.Path
import Mathlib.Data.List.Infix

set_option autoImplicit false

namespace EndpointAtlas

namespace Glob

def caseless (s : List Char) : List Char := s.map Text.caseless

theorem mem_endings {α : Type} {s ending : List α} : ending ∈ endings s ↔ ending <:+ s := by
  induction s with
  | nil => simp [endings]
  | cons a rest ih => rw [endings, List.mem_cons, ih, List.suffix_cons_iff]

/-! ### Characters that stand for themselves -/

theorem matchPieces_exactly (text s : List Char) :
    matchPieces (text.map .exactly) s = true ↔ caseless s = caseless text := by
  induction text generalizing s with
  | nil => simp [matchPieces, caseless]
  | cons c text ih =>
    cases s with
    | nil => simp [matchPieces, caseless]
    | cons d s => simp [matchPieces, caseless, sameLetter, ih, eq_comm (a := Text.caseless c)]

theorem matchPieces_some_exactly (text s : List Char) :
    matchPieces (.some_ :: text.map .exactly) s = true ↔
    ∃ ending, ending <:+ s ∧ caseless ending = caseless text := by
  simp [matchPieces, mem_endings, matchPieces_exactly]

def marks : List Char := ['*', '?', '|', '(', ')', '[', ']', '{', '}', '\\', '"']

/-- Every character of the pattern stands for itself. -/
def IsPlain (pattern : String) : Prop := ∀ c ∈ pattern.toList, c ∉ marks

instance (pattern : String) : Decidable (IsPlain pattern) :=
  List.decidableBAll (· ∉ marks) pattern.toList

theorem ne_of_not_mark {c : Char} (h : c ∉ marks) :
    c ≠ '*' ∧ c ≠ '?' ∧ c ≠ '[' ∧ c ≠ '\\' ∧ c ≠ '{' := by
  refine ⟨?_, ?_, ?_, ?_, ?_⟩ <;>
    · rintro rfl
      exact h (by decide)

theorem readPieces_plain {fuel : Nat} {s : List Char} (hl : s.length ≤ fuel)
    (plain : ∀ c ∈ s, c ∉ marks) : readPieces fuel s = s.map .exactly := by
  induction fuel generalizing s with
  | zero => simp [List.length_eq_zero_iff.1 (Nat.le_zero.1 hl), readPieces]
  | succ fuel ih =>
    cases s with
    | nil => rfl
    | cons c rest =>
      obtain ⟨hc, others⟩ := List.forall_mem_cons.1 plain
      obtain ⟨star, one, bracket, escape, -⟩ := ne_of_not_mark hc
      simp [readPieces, star, one, bracket, escape, ih (Nat.le_of_succ_le_succ hl) others]

theorem expand_braceless (fuel : Nat) {s : List Char} (h : '{' ∉ s) : expand fuel s = [s] := by
  induction fuel generalizing s with
  | zero => rfl
  | succ fuel ih =>
    cases s with
    | nil => rfl
    | cons c rest =>
      rw [List.mem_cons, not_or] at h
      obtain ⟨brace, others⟩ := h
      simp [expand, Ne.symm brace, ih others]

/-- What a pattern names, one below the other: the pieces between its slashes that are not empty. -/
def words (pattern : String) : List (List Char) :=
  (Text.splitOn (· == '/') pattern.toList).filter fun piece => !piece.isEmpty

theorem ne_nil_of_mem_words {pattern : String} {word : List Char} (h : word ∈ words pattern) :
    word ≠ [] := by
  simpa using (List.mem_filter.1 h).2

theorem parts_ignorePattern {name : String} (plain : IsPlain name) :
    parts (ignorePattern name).toList =
    .anyDepth :: ((words name).map fun word => .name (word.map .exactly)) ++ [.anyDepth] := by
  have spelled : (ignorePattern name).toList =
      ['*', '*'] ++ '/' :: (name.toList ++ '/' :: ['*', '*']) := by
    simp [ignorePattern]
  have stars : Text.splitOn (· == '/') ['*', '*'] = [['*', '*']] := by decide
  have named : ∀ word ∈ words name,
      (if word = ['*', '*'] then Part.anyDepth else .name (readPieces word.length word)) =
      .name (word.map .exactly) := by
    intro word hw
    have inside : ∀ c ∈ word, c ∉ marks := fun c hc =>
      plain c (Text.mem_of_mem_splitOn (List.mem_of_mem_filter hw) hc)
    have other : word ≠ ['*', '*'] := by
      rintro rfl
      exact inside '*' List.mem_cons_self (by decide)
    rw [if_neg other, readPieces_plain le_rfl inside]
  rw [parts, spelled, Text.splitOn_append_break (by decide),
    Text.splitOn_append_break (by decide), stars,
    List.filter_append, List.filter_append, ← words, List.map_append, List.map_append,
    List.map_congr_left named]
  rfl

theorem endsOpen_exactly (texts : List (List Char)) :
    endsOpen (.anyDepth :: (texts.map fun text => .name (text.map .exactly)) ++ [.anyDepth]) =
      false := by
  rw [List.cons_append, endsOpen]
  induction texts with
  | nil => rfl
  | cons text texts ih =>
    rw [List.map_cons, List.cons_append, endsOpen]
    split
    · rw [List.getLast?_map]
      cases text.getLast? <;> simp
    · exact ih

theorem matchAll_exactly {texts names : List (List Char)} (filled : ∀ text ∈ texts, text ≠ []) :
    matchAll false ((texts.map fun text => .name (text.map .exactly)) ++ [.anyDepth]) names = true ↔
      texts.map caseless <+: names.map caseless := by
  induction texts generalizing names with
  | nil => simp [matchAll]
  | cons text texts ih =>
    obtain ⟨here, others⟩ := List.forall_mem_cons.1 filled
    cases names with
    | nil => simp [matchAll]
    | cons name names =>
      have nonempty : caseless name = caseless text → name ≠ [] := by
        rintro same rfl
        exact here (by simpa [caseless] using same)
      simp only [List.map_cons, List.cons_append, matchAll, Bool.and_eq_true,
        matchPieces_exactly, ih others,
        List.cons_prefix_cons, Bool.not_eq_true', List.isEmpty_eq_false_iff, ne_eq,
        eq_comm (a := caseless text)]
      constructor
      · exact fun ⟨⟨_, same⟩, rest⟩ => ⟨same, rest⟩
      · exact fun ⟨same, rest⟩ => ⟨⟨nonempty same, same⟩, rest⟩

theorem accepts_ignorePattern {name : String} (plain : IsPlain name) (path : List (List Char)) :
    accepts (ignorePattern name) path = true ↔
    (words name).map caseless <:+: path.map caseless := by
  have braceless : '{' ∉ (ignorePattern name).toList := by
    have inside : '{' ∉ name.toList := fun h => plain '{' h (by decide)
    simp [ignorePattern, inside]
  rw [accepts, expand_braceless _ braceless, List.any_cons, List.any_nil, Bool.or_false,
    parts_ignorePattern plain,
    endsOpen_exactly, List.cons_append, matchAll, if_neg (by simp), List.any_eq_true]
  simp only [mem_endings, matchAll_exactly fun text =>
    ne_nil_of_mem_words, List.infix_iff_prefix_suffix, List.suffix_map_iff]
  constructor
  · rintro ⟨ending, behind, start⟩
    exact ⟨_, start, ending, behind, rfl⟩
  · rintro ⟨_, start, ending, behind, rfl⟩
    exact ⟨ending, behind, start⟩

/-! ### The pattern for source files -/

theorem matchAll_below {pieces : List Piece} {path : List (List Char)} :
    matchAll false [.anyDepth, .name pieces] path = true ↔
      ∃ name ∈ path.getLast?, name ≠ [] ∧ matchPieces pieces name = true := by
  have last {ending : List (List Char)} : matchAll false [.name pieces] ending = true ↔
      ∃ name, ending = [name] ∧ name ≠ [] ∧ matchPieces pieces name = true := by
    rcases ending with _ | ⟨first, _ | ⟨second, rest⟩⟩ <;> simp [matchAll]
  have ends (name : List Char) : [name] <:+ path ↔ path.getLast? = some name :=
    (exists_congr fun _ => eq_comm).trans List.getLast?_eq_some_iff.symm
  rw [matchAll, if_neg (by simp), List.any_eq_true]
  simp only [mem_endings, last, Option.mem_def, ← ends]
  constructor
  · rintro ⟨_, behind, name, rfl, matched⟩
    exact ⟨name, behind, matched⟩
  · rintro ⟨name, behind, matched⟩
    exact ⟨[name], behind, name, rfl, matched⟩

theorem parts_sourcePattern : (expand sourcePattern.length sourcePattern.toList).map parts =
    Dialect.sourceExtensions.map fun extension =>
      [.anyDepth, .name (.some_ :: extension.toList.map .exactly)] := by
  decide +kernel

theorem accepts_sourcePattern (path : List (List Char)) : accepts sourcePattern path = true ↔
    ∃ name ∈ path.getLast?, ∃ extension ∈ Dialect.sourceExtensions,
      ∃ ending, ending <:+ name ∧ caseless ending = caseless extension.toList := by
  have filled : ∀ extension ∈ Dialect.sourceExtensions, extension.toList ≠ [] ∧
      endsOpen [.anyDepth, .name (.some_ :: extension.toList.map .exactly)] = false := by decide
  have every : accepts sourcePattern path = true ↔ ∃ extension ∈ Dialect.sourceExtensions,
      matchAll false [.anyDepth, .name (.some_ :: extension.toList.map .exactly)] path = true := by
    have asParts : accepts sourcePattern path =
        ((expand sourcePattern.length sourcePattern.toList).map parts).any
        fun parts => matchAll (endsOpen parts) parts path := by
      rw [List.any_map]
      rfl
    rw [asParts, parts_sourcePattern, List.any_map, List.any_eq_true]
    refine exists_congr fun extension => and_congr_right fun he => ?_
    rw [Function.comp_apply, (filled extension he).2]
  simp only [every, matchAll_below, matchPieces_some_exactly]
  constructor
  · rintro ⟨extension, he, name, hn, -, ending⟩
    exact ⟨name, hn, extension, he, ending⟩
  · rintro ⟨name, hn, extension, he, ending, behind, same⟩
    refine ⟨extension, he, name, hn, ?_, ending, behind, same⟩
    rintro rfl
    rw [List.suffix_nil.1 behind] at same
    exact (filled extension he).1 (List.map_eq_nil_iff.1 same.symm)

end Glob

/-- What a walk relies on in a reading of patterns: the pattern for source files names what ends in
one of their extensions, and that of an ignored name without marks what has the name on its way, in
any letter case. -/
structure Matcher.Lawful (accepts : Matcher) : Prop where
  source : ∀ path, accepts sourcePattern path = true ↔ ∃ name ∈ path.getLast?,
    ∃ extension ∈ Dialect.sourceExtensions,
      ∃ ending, ending <:+ name ∧ Glob.caseless ending = Glob.caseless extension.toList
  ignore : ∀ name, Glob.IsPlain name → ∀ path, accepts (ignorePattern name) path = true ↔
    (Glob.words name).map Glob.caseless <:+: path.map Glob.caseless

theorem Glob.lawful : Matcher.Lawful accepts :=
  ⟨accepts_sourcePattern, fun _ => accepts_ignorePattern⟩

end EndpointAtlas
