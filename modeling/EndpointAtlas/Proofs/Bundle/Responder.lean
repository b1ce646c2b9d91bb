import EndpointAtlas.Bundle.Responder
import EndpointAtlas.Proofs.Text.Runs
import Mathlib.Data.List.Infix

/-!
The registration that catches all routes left over. Main statement: its block begins with the first
line that registers one and never stops inside of what it follows, which is the call, or the body of
the handler where a brace stands on the first line. A parenthesis that closes the call on a line
behind such a body is no part of the block.
-/

set_option autoImplicit false

namespace EndpointAtlas.Responder

/-! ### Lines that register -/

/-- What follows a dot goes on as the start of such a registration: the quote of the path comes next
after the parenthesis, blanks apart. -/
def Starts (s : List Char) : Prop :=
  ∃ gap inner quote rest, s = ".use".toList ++ gap ++
  '(' :: (inner ++ quote :: '/' :: ':' :: rest) ∧
    (∀ c ∈ gap, Text.isBlank c = true) ∧ (∀ c ∈ inner, Text.isBlank c = true) ∧
    (quote = '"' ∨ quote = '\'')

def Registers (line : List Char) : Prop := ∃ before s, line = before ++ s ∧ Starts s

theorem length_use : ".use".toList.length = 4 := rfl

theorem useHere_iff (s : List Char) : useHere s = true ↔ Starts s := by
  constructor
  · intro h
    rw [useHere, Bool.and_eq_true, List.isPrefixOf_iff_prefix] at h
    obtain ⟨⟨t, rfl⟩, h⟩ := h
    obtain ⟨gap, behind, rfl, hgap, hstop⟩ := Text.exists_run Text.isBlank t
    rw [List.drop_left' length_use, Text.dropWhile_append_stop hgap hstop] at h
    split at h
    · rename_i inside
      obtain ⟨inner, path, rfl, hinner, hpath⟩ := Text.exists_run Text.isBlank inside
      rw [Text.dropWhile_append_stop hinner hpath] at h
      split at h
      · rename_i quote rest
        refine ⟨gap, inner, quote, rest, by simp, hgap, hinner, by simpa using h⟩
      · cases h
    · cases h
  · rintro ⟨gap, inner, quote, rest, rfl, hgap, hinner, hquote⟩
    have hq : Text.isBlank quote = false := by rcases hquote with rfl | rfl <;> decide
    rw [useHere, Bool.and_eq_true, List.isPrefixOf_iff_prefix, List.append_assoc,
      List.drop_left' length_use, Text.dropWhile_append_stop hgap (by simp; decide)]
    refine ⟨List.prefix_append _ _, ?_⟩
    simp only [Text.dropWhile_append_stop hinner (t := quote :: '/' :: ':' :: rest)
      (by simpa using hq)]
    simpa using hquote

theorem matchesLine_iff (line : List Char) : matchesLine line = true ↔ Registers line := by
  induction line with
  | nil =>
    refine iff_of_false (by simp [matchesLine]) ?_
    rintro ⟨before, s, h, gap, inner, quote, rest, rfl, -⟩
    simp at h
  | cons c line ih =>
    rw [matchesLine, Bool.or_eq_true, useHere_iff, ih]
    constructor
    · rintro (here | ⟨before, s, rfl, later⟩)
      · exact ⟨[], _, rfl, here⟩
      · exact ⟨c :: before, s, rfl, later⟩
    · rintro ⟨before, s, h, starts⟩
      cases before with
      | nil => exact .inl (h ▸ starts)
      | cons d before => exact .inr ⟨before, s, (List.cons.inj h).2, starts⟩

theorem mem_paren_of_registers {line : List Char} (h : Registers line) : '(' ∈ line := by
  obtain ⟨before, s, rfl, gap, inner, quote, rest, rfl, -⟩ := h
  simp

/-! ### Balanced lines -/

def characters (lines : List String) : List Char := lines.flatMap String.toList

/-- Marks are closed at the end of some lines: there are no fewer that close than that open. -/
def Closed (opening closing : Char) (lines : List String) : Prop :=
  (characters lines).count opening ≤ (characters lines).count closing

instance (opening closing : Char) (lines : List String) :
    Decidable (Closed opening closing lines) :=
  inferInstanceAs (Decidable (_ ≤ _))

/-- A block ends with the first of its lines at the end of which marks are closed, or else with the
last line there is; `after` are the lines behind it. -/
structure EndsAt (opening closing : Char) (block after : List String) : Prop where
  nonempty : block ≠ []
  whole : Closed opening closing block ∨ after = []
  shortest : ∀ start, start <+: block → start ≠ [] → start ≠ block → ¬ Closed opening closing start

def Settled (opening closing : Char) (started : Bool) (depth : Int) (lines : List String) : Prop :=
  (started = true ∨ opening ∈ characters lines) ∧
  depth + balance opening closing (characters lines) ≤ 0

variable {opening closing : Char} {started : Bool} {depth : Int} {line : String}
  {lines : List String}

theorem settled_cons : Settled opening closing started depth (line :: lines) ↔
    Settled opening closing (started || line.toList.contains opening)
      (depth + balance opening closing line.toList) lines := by
  simp only [Settled, characters, balance, List.flatMap_cons, List.mem_append, List.count_append,
    Bool.or_eq_true, List.contains_iff_mem, or_assoc]
  refine and_congr_right fun _ => ?_
  push_cast
  omega

theorem balancedFrom_ends (opening closing : Char) (started : Bool) (depth : Int)
    (lines : List String) :
    ∃ after, lines = balancedFrom opening closing started depth lines ++ after ∧
      (Settled opening closing started depth (balancedFrom opening closing started depth lines) ∨
        after = []) ∧
      ∀ start, start <+: balancedFrom opening closing started depth lines → start ≠ [] →
        start ≠ balancedFrom opening closing started depth lines →
        ¬ Settled opening closing started depth start := by
  induction lines generalizing started depth with
  | nil => exact ⟨[], rfl, .inr rfl, fun start hs hne => absurd (List.prefix_nil.1 hs) hne⟩
  | cons line rest ih =>
    have here : Settled opening closing started depth [line] ↔
        (started || line.toList.contains opening) = true ∧
          depth + balance opening closing line.toList ≤ 0 := by
      rw [settled_cons]
      simp [Settled, characters, balance]
    rw [balancedFrom]
    split
    · rename_i stops
      refine ⟨rest, rfl, .inl (here.2 stops), fun start hs hne hwhole => ?_⟩
      obtain ⟨last, hl⟩ := hs
      cases start with
      | nil => exact absurd rfl hne
      | cons first start => simp_all
    · rename_i goes
      obtain ⟨after, hlines, hend, hshort⟩ :=
        ih (started || line.toList.contains opening) (depth + balance opening closing line.toList)
      refine ⟨after, by rw [List.cons_append,
        ← hlines], hend.imp_left settled_cons.2, fun start hs hne hwhole => ?_⟩
      cases start with
      | nil => exact absurd rfl hne
      | cons first start =>
        obtain ⟨rfl, hs⟩ := List.cons_prefix_cons.1 hs
        by_cases hnil : start = []
        · rw [hnil, here]
          exact goes
        · rw [settled_cons]
          exact hshort start hs hnil fun same => hwhole (by rw [same])

theorem settled_iff_closed (h : opening ∈ line.toList) :
    Settled opening closing false 0 (line :: lines) ↔ Closed opening closing (line :: lines) := by
  have opened : opening ∈ characters (line :: lines) := List.mem_append_left _ h
  simp only [Settled, Closed, balance, opened, or_true, true_and]
  omega

theorem balancedFrom_cons_ne_nil :
    ∃ rest, balancedFrom opening closing started depth (line :: lines) = line :: rest := by
  rw [balancedFrom]
  split
  · exact ⟨_, rfl⟩
  · exact ⟨_, rfl⟩

theorem endsAt_balancedFrom (h : opening ∈ line.toList) :
    ∃ rest after, balancedFrom opening closing false 0 (line :: lines) = line :: rest ∧
      lines = rest ++ after ∧ EndsAt opening closing (line :: rest) after := by
  obtain ⟨rest, hr⟩ := @balancedFrom_cons_ne_nil opening closing false 0 line lines
  obtain ⟨after, hl, hend, hshort⟩ := balancedFrom_ends opening closing false 0 (line :: lines)
  rw [hr] at hl hend hshort
  refine ⟨rest, after, hr, (List.cons.inj hl).2, List.cons_ne_nil _ _,
    hend.imp_left (settled_iff_closed h).1, fun start hs hne hwhole closed => ?_⟩
  cases start with
  | nil => exact hne rfl
  | cons first start =>
    obtain ⟨rfl, -⟩ := List.cons_prefix_cons.1 hs
    exact hshort _ hs hne hwhole ((settled_iff_closed h).2 closed)

/-! ### The block -/

theorem block?_cases (lines : List String) :
    (block? lines = none ∧ ∀ line ∈ lines, ¬ Registers line.toList) ∨
      ∃ before first rest, lines = before ++ first :: rest ∧ Registers first.toList ∧
        (∀ line ∈ before, ¬ Registers line.toList) ∧
        block? lines = some (if '{' ∈ first.toList then balancedFrom '{' '}' false 0 (first :: rest)
          else balancedFrom '(' ')' false 0 (first :: rest)) := by
  cases hi : lines.findIdx? fun line => matchesLine line.toList with
  | none =>
    refine .inl ⟨by rw [block?, hi], fun line hl => ?_⟩
    rw [← matchesLine_iff, Bool.not_eq_true]
    exact List.findIdx?_eq_none_iff.1 hi line hl
  | some index =>
    obtain ⟨inside, here, earlier⟩ := List.findIdx?_eq_some_iff_getElem.1 hi
    refine .inr ⟨lines.take index, lines[index], lines.drop (index + 1), ?_,
      (matchesLine_iff _).1 here, fun line hl => ?_, ?_⟩
    · rw [← List.drop_eq_getElem_cons inside, List.take_append_drop]
    · obtain ⟨k, hk, rfl⟩ := List.mem_take_iff_getElem.1 hl
      rw [← matchesLine_iff]
      exact earlier k (by omega)
    · have nonneg : ¬ ((index : Int) < 0) := by omega
      rw [block?, hi]
      simp only [List.getElem?_eq_getElem inside, Option.getD_some, braceBlock, balanced,
        nonneg, if_false,
        Int.toNat_natCast, List.contains_iff_mem, ← List.drop_eq_getElem_cons inside]

/-- The call ends with some lines: it is closed there, or by what the next line starts with. -/
def CallEnds (block after : List String) : Prop :=
  Closed '(' ')' block ∨ ∃ next ∈ after.head?, (Text.trimStart next.toList).head? = some ')'

/-- What the block of a registration is. There is one if a line registers; it begins with the first
that does, and is the call if that line has no brace. If it has one, the block holds the lines up to
the first where the braces are closed, and ends there if the call does, be it by a parenthesis on
the next line; where more arguments follow behind these braces, nothing is said of how far it goes
on. -/
theorem block?_holds (lines : List String) :
    (block? lines = none ↔ ∀ line ∈ lines, ¬ Registers line.toList) ∧
      ∀ block, block? lines = some block → ∃ before first rest after,
        lines = before ++ block ++ after ∧ block = first :: rest ∧
        Registers first.toList ∧ (∀ line ∈ before, ¬ Registers line.toList) ∧
        ('{' ∉ first.toList → EndsAt '(' ')' block after) ∧
        ('{' ∈ first.toList → ∃ body more, block ++ after = body ++ more ∧
          EndsAt '{' '}' body more ∧ body <+: block ∧ (CallEnds body more → block = body)) := by
  rcases block?_cases lines with ⟨nothing, none⟩ | ⟨before, first, rest, rfl, registers,
    none, found⟩
  · refine ⟨iff_of_true nothing none, fun block hb => ?_⟩
    rw [nothing] at hb
    cases hb
  · refine ⟨iff_of_false (by simp [found]) fun all =>
      all first (by simp) registers, fun block hb => ?_⟩
    rw [found] at hb
    by_cases brace : '{' ∈ first.toList
    · obtain ⟨body, more, scanned, rfl, ends⟩ := @endsAt_balancedFrom '{' '}' first rest brace
      rw [if_pos brace, scanned, Option.some.injEq] at hb
      subst hb
      exact ⟨before, first, body,
        more, by simp, rfl, registers, none, fun plain => absurd brace plain,
        fun _ => ⟨_, more, rfl, ends, List.prefix_refl _, fun _ => rfl⟩⟩
    · obtain ⟨call, after, scanned, rfl, ends⟩ :=
        @endsAt_balancedFrom '(' ')' first rest (mem_paren_of_registers registers)
      rw [if_neg brace, scanned, Option.some.injEq] at hb
      subst hb
      exact ⟨before, first, call, after, by simp, rfl, registers, none, fun _ => ends,
        fun braced => absurd braced brace⟩

def wrapped : List String :=
  ["app.get('/health', ok);", "app.use('/:name', (req, res) => \x7b", "  res.sendStatus(404);",
    "\x7d", ");", "app.listen(3000);"]

def handler : List String :=
  ["app.use('/:name', (req, res) => \x7b", "  res.sendStatus(404);", "\x7d"]

theorem block?_holds_wrapped :
    block? wrapped = some handler ∧ '{' ∈ "app.use('/:name', (req, res) => \x7b".toList ∧
      ∃ body more, EndsAt '{' '}' body more ∧ body <+: handler ∧ body = handler := by
  have found : block? wrapped = some handler := by decide
  obtain ⟨before, first, rest, after, -, block, -, -, -, braced⟩ := (block?_holds wrapped).2 _ found
  obtain ⟨rfl, rfl⟩ := List.cons.inj block
  have brace : '{' ∈ "app.use('/:name', (req, res) => \x7b".toList := by decide
  obtain ⟨body, more, whole, ends, held, -⟩ := braced brace
  refine ⟨found, brace, body, more, ends, held, ?_⟩
  -- No shorter beginning has its braces closed.
  have opened : ∀ n < 3, 0 < n → ¬ Closed '{' '}' (handler.take n) := by decide
  have cut := List.prefix_iff_eq_take.1 held
  by_contra differs
  have short : body.length < 3 :=
    lt_of_le_of_ne held.length_le fun same => differs (held.eq_of_length same)
  rcases ends.whole with closed | rfl
  · rw [cut] at closed
    exact opened _ short (List.length_pos_of_ne_nil ends.nonempty) closed
  · have all := congrArg List.length whole
    rw [List.append_nil, List.length_append, show handler.length = 3 from rfl] at all
    omega

/-- That block ends before its call is closed, and more lines follow. -/
theorem block?_wrapped_open :
    ∃ before after, block? wrapped = some handler ∧ wrapped = before ++ handler ++ after ∧
    after ≠ [] ∧
      ¬ Closed '(' ')' handler :=
  ⟨wrapped.take 1, wrapped.drop 4, by decide, by decide, by decide, by decide⟩

end EndpointAtlas.Responder
