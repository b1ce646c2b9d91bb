import EndpointAtlas.Endpoint.CatchBinding
import EndpointAtlas.Proofs.Text.Inserted
import EndpointAtlas.Proofs.Text.Runs

/-!
Where a parameter is put behind `catch`, and what it moves. Main statement: it is put in behind the
keyword of every clause without a parameter and nowhere else, it can be taken out again, every
character stays on its line, and a text with such parameters has no clause left to give one to.
-/

set_option autoImplicit false

namespace EndpointAtlas.CatchBinding

/-- The keyword of a clause without a parameter, as a word, stands between two parts of a text. -/
structure IsBare (before after : List Char) : Prop where
  starts_word : ∀ c ∈ before.getLast?, Text.isWordChar c = false
  clause : ∃ gap rest, after = "catch".toList ++ (gap ++ '{' :: rest) ∧
    ∀ c ∈ gap, Text.isBlank c = true

/-- The ends of the keywords of all clauses without a parameter, in the order of the text. -/
structure ArePlaces (source : List Char) (places : List Nat) : Prop where
  ascending : places.Pairwise (· < ·)
  mem_iff (place : Nat) : place ∈ places ↔
    ∃ before after, source = before ++ after ∧ IsBare before after ∧ place = Text.units before + 5

/-- What a source and the one with parameters in its clauses have to do with each other, when the
parameters are behind `places`. -/
structure IsBound (source bound : List Char) (places : List Nat) : Prop where
  filled : bound = Text.insertAll binding places source
  emptied : Text.removeAll (Text.units binding) places bound = source
  line (offset : Nat) :
    Text.lineAt bound (Text.shifted (Text.units binding) places offset) = Text.lineAt source offset
  character (before : List Char) (c : Char) (after : List Char) : source = before ++ c :: after →
    ∃ before' after', bound = before' ++ c :: after' ∧
      Text.units before' = Text.shifted (Text.units binding) places (Text.units before)

/-! ### One clause -/

def opens (s : List Char) : Bool := (s.dropWhile Text.isBlank).head? = some '{'

theorem opens_iff (s : List Char) :
    opens s = true ↔ ∃ gap rest, s = gap ++ '{' :: rest ∧ ∀ c ∈ gap, Text.isBlank c = true := by
  have brace : Text.isBlank '{' = false := by decide
  simp only [opens, decide_eq_true_eq]
  constructor
  · intro h
    obtain ⟨gap, rest, rfl, blank, stop⟩ := Text.exists_run Text.isBlank s
    rw [Text.dropWhile_append_stop blank stop] at h
    obtain ⟨rest, rfl⟩ := List.head?_eq_some_iff.1 h
    exact ⟨gap, rest, rfl, blank⟩
  · intro ⟨gap, rest, hs, blank⟩
    rw [hs, Text.dropWhile_append_stop blank (by simp [brace])]
    rfl

@[simp] theorem bareCatch_catch (s : List Char) : bareCatch ("catch".toList ++ s) = opens s := by
  simp [bareCatch, opens]

theorem bareCatch_iff (s : List Char) :
    bareCatch s = true ↔ ∃ rest, s = "catch".toList ++ rest ∧ opens rest = true := by
  constructor
  · intro h
    have keyword : "catch".toList <+: s := by
      simp only [bareCatch, Bool.and_eq_true] at h
      exact List.isPrefixOf_iff_prefix.1 h.1
    obtain ⟨rest, rfl⟩ := keyword
    exact ⟨rest, rfl, by rwa [bareCatch_catch] at h⟩
  · intro ⟨rest, hs, h⟩
    rw [hs, bareCatch_catch, h]

theorem bareCatch_of_ne {c : Char} (h : c ≠ 'c') (rest : List Char) :
    bareCatch (c :: rest) = false := by
  simp [bareCatch, Ne.symm h]

theorem scan_induction {motive : Bool → List Char → Prop} (inWord : Bool) (s : List Char)
    (nil : ∀ inWord, motive inWord [])
    (clause : ∀ rest, opens rest = true → motive true rest → motive false ("catch".toList ++ rest))
    (other : ∀ inWord c rest, (inWord = false → bareCatch (c :: rest) = false) →
      motive (Text.isWordChar c) rest → motive inWord (c :: rest)) : motive inWord s := by
  -- A clause takes the five characters of its keyword at once, so the induction is on the length.
  induction h : s.length using Nat.strong_induction_on generalizing s inWord with
  | _ n ih =>
    subst h
    cases s with
    | nil => exact nil inWord
    | cons c rest =>
      by_cases bare : inWord = false ∧ bareCatch (c :: rest) = true
      · obtain ⟨left, hs, braced⟩ := (bareCatch_iff _).1 bare.2
        rw [bare.1, hs]
        exact clause left braced (ih left.length (by simp [hs]; omega) true left rfl)
      · exact other inWord c rest (by simpa using bare) (ih rest.length (by simp) _ rest rfl)

/-! ### The pass -/

theorem bindFrom_catch {rest : List Char} (braced : opens rest = true) :
    bindFrom 0 false ("catch".toList ++ rest) =
      "catch".toList ++ (binding ++ bindFrom 0 true rest) := by
  have bare : bareCatch ("catch".toList ++ rest) = true := by rw [bareCatch_catch, braced]
  simp only [String.reduceToList, List.cons_append, List.nil_append] at bare ⊢
  simp [bindFrom, bare]

theorem bindFrom_other {inWord : Bool} {c : Char} {rest : List Char}
    (h : inWord = false → bareCatch (c :: rest) = false) :
    bindFrom 0 inWord (c :: rest) = c :: bindFrom 0 (Text.isWordChar c) rest := by
  cases inWord with
  | false => simp [bindFrom, h rfl]
  | true => simp [bindFrom]

/-- The ends of the keywords in a text of which the first character stands at `offset`. -/
def placesFrom : Nat → Bool → List Char → List Nat
  | _, _, [] => []
  | offset, inWord, c :: rest =>
    (if !inWord && bareCatch (c :: rest) then [offset + 5] else []) ++
      placesFrom (offset + Text.width c) (Text.isWordChar c) rest

theorem length_placesFrom (offset : Nat) (inWord : Bool) (s : List Char) :
    (placesFrom offset inWord s).length = countFrom inWord s := by
  induction s generalizing offset inWord with
  | nil => rfl
  | cons c rest ih =>
    rw [placesFrom, countFrom, List.length_append, ih]
    split <;> rfl

theorem placesFrom_catch (offset : Nat) {rest : List Char} (braced : opens rest = true) :
    placesFrom offset false ("catch".toList ++ rest) =
      (offset + 5) :: placesFrom (offset + 5) true rest := by
  have bare : bareCatch ("catch".toList ++ rest) = true := by rw [bareCatch_catch, braced]
  simp only [String.reduceToList, List.cons_append, List.nil_append] at bare ⊢
  have letters : "catch".toList.all (fun c => Text.isWordChar c && Text.width c == 1) =
      true := by decide
  simp only [String.reduceToList, List.all_cons, List.all_nil, Bool.and_eq_true,
    beq_iff_eq] at letters
  simp [placesFrom, bare, letters]

theorem placesFrom_other (offset : Nat) {inWord : Bool} {c : Char} {rest : List Char}
    (h : inWord = false → bareCatch (c :: rest) = false) :
    placesFrom offset inWord (c :: rest) =
      placesFrom (offset + Text.width c) (Text.isWordChar c) rest := by
  cases inWord with
  | false => simp [placesFrom, h rfl]
  | true => simp [placesFrom]

theorem insertAll_placesFrom (front : List Char) (inWord : Bool) (s : List Char) :
    Text.insertAll binding (placesFrom (Text.units front) inWord s) (front ++ s) =
      front ++ bindFrom 0 inWord s := by
  induction inWord, s using scan_induction generalizing front with
  | nil inWord => simp [placesFrom, bindFrom, Text.insertAll]
  | clause rest braced ih =>
    have hkeyword : Text.units (front ++ "catch".toList) = Text.units front + 5 := by
      rw [Text.units_append]
      rfl
    have filled := ih (front ++ "catch".toList)
    rw [hkeyword] at filled
    rw [placesFrom_catch _ braced, bindFrom_catch braced, Text.insertAll_cons,
      ← List.append_assoc, filled, ← hkeyword, Text.insertAt_append, List.append_assoc]
  | other inWord c rest bare ih =>
    have filled := ih (front ++ [c])
    rw [Text.units_append] at filled
    rw [placesFrom_other _ bare, bindFrom_other bare]
    simpa using filled

theorem bind_eq_insertAll (source : List Char) :
    bind source = Text.insertAll binding (placesFrom 0 false source) source :=
  (insertAll_placesFrom [] false source).symm

/-! ### The places -/

/-- Is the last character before a place one of a word, where `inWord` says it of what stands before
the text? -/
def endsInWord (inWord : Bool) (before : List Char) : Bool :=
  (before.getLast?.map Text.isWordChar).getD inWord

theorem endsInWord_cons (inWord : Bool) (c : Char) (before : List Char) :
    endsInWord inWord (c :: before) = endsInWord (Text.isWordChar c) before := by
  cases before <;> simp [endsInWord, List.getLast?_cons]

theorem mem_placesFrom {place offset : Nat} {inWord : Bool} {s : List Char} :
    place ∈ placesFrom offset inWord s ↔
      ∃ before after, s = before ++ after ∧ endsInWord inWord before = false ∧
      bareCatch after = true ∧
        place = offset + Text.units before + 5 := by
  induction s generalizing offset inWord with
  | nil =>
    simp only [placesFrom, List.not_mem_nil, false_iff]
    intro ⟨before, after, hs, _, bare, _⟩
    rw [(List.append_eq_nil_iff.1 hs.symm).2] at bare
    simp [bareCatch] at bare
  | cons c rest ih =>
    rw [placesFrom, List.mem_append, ih]
    constructor
    · intro h
      cases h with
      | inl here =>
        split at here
        · rename_i bare
          simp only [Bool.and_eq_true, Bool.not_eq_true'] at bare
          exact ⟨[], c :: rest, rfl, bare.1, bare.2, by simpa using here⟩
        · cases here
      | inr later =>
        obtain ⟨before, after, rfl, free, bare, rfl⟩ := later
        exact ⟨c :: before, after,
          rfl, by rwa [endsInWord_cons], bare, by rw [Text.units_cons]; omega⟩
    · intro ⟨before, after, hs, free, bare, hplace⟩
      cases before with
      | nil =>
        rw [List.nil_append] at hs
        rw [endsInWord, List.getLast?_nil, Option.map_none, Option.getD_none] at free
        subst hs
        exact .inl (by simp [free, bare, hplace])
      | cons d before =>
        obtain ⟨rfl, rfl⟩ := List.cons.inj hs
        rw [endsInWord_cons] at free
        exact .inr ⟨before, after, rfl, free, bare, by rw [hplace, Text.units_cons]; omega⟩

theorem ascending_placesFrom (offset : Nat) (inWord : Bool) (s : List Char) :
    (placesFrom offset inWord s).Pairwise (· < ·) := by
  induction s generalizing offset inWord with
  | nil => exact List.Pairwise.nil
  | cons c rest ih =>
    rw [placesFrom]
    split
    · rw [List.singleton_append, List.pairwise_cons]
      refine ⟨fun place later => ?_, ih _ _⟩
      obtain ⟨before, _, _, _, _, rfl⟩ := mem_placesFrom.1 later
      have hw := Text.width_pos c
      omega
    · exact ih _ _

theorem isBare_iff (before after : List Char) :
    IsBare before after ↔ endsInWord false before = false ∧ bareCatch after = true := by
  have free : (∀ c ∈ before.getLast?, Text.isWordChar c = false) ↔
      endsInWord false before = false := by
    cases h : before.getLast? <;> simp [endsInWord, h]
  rw [bareCatch_iff, ← free]
  constructor
  · intro ⟨starts, gap, rest, hafter, blank⟩
    exact ⟨starts, _, hafter, (opens_iff _).2 ⟨gap, rest, rfl, blank⟩⟩
  · intro ⟨starts, left, hafter, braced⟩
    obtain ⟨gap, rest, rfl, blank⟩ := (opens_iff _).1 braced
    exact ⟨starts, gap, rest, hafter, blank⟩

theorem arePlaces_placesFrom (source : List Char) :
    ArePlaces source (placesFrom 0 false source) where
  ascending := ascending_placesFrom 0 false source
  mem_iff place := by simp only [mem_placesFrom, isBare_iff, Nat.zero_add, and_assoc]

theorem ArePlaces.areCuts {source : List Char} {places : List Nat} (h : ArePlaces source places) :
    Text.AreCuts source places where
  ascending := h.ascending
  aligned place hp := by
    obtain ⟨before, after, rfl, ⟨_, gap, rest, rfl, _⟩, rfl⟩ := (h.mem_iff place).1 hp
    have cut := Text.isBoundary_append (before ++ "catch".toList) (gap ++ '{' :: rest)
    rwa [Text.units_append, List.append_assoc] at cut

theorem isBound_bind (source : List Char) :
    IsBound source (bind source) (placesFrom 0 false source) := by
  have cuts := (arePlaces_placesFrom source).areCuts
  have flat : '\n' ∉ binding := by decide
  rw [bind_eq_insertAll]
  exact {
    filled := rfl
    emptied := cuts.removeAll_insertAll binding
    line := cuts.lineAt_insertAll flat
    character := fun _ _ _ hs => cuts.insertAll_character binding hs }

/-! ### A second pass -/

theorem opens_cons_of_blank {c : Char} (h : Text.isBlank c = true) (rest : List Char) :
    opens (c :: rest) = opens rest := by
  rw [opens, List.dropWhile_cons_of_pos h, opens]

theorem opens_cons_of_not_blank {c : Char} (h : Text.isBlank c = false) (rest : List Char) :
    opens (c :: rest) = decide (c = '{') := by
  simp [opens, h]

theorem opens_bindFrom (inWord : Bool) (s : List Char) : opens (bindFrom 0 inWord s) = opens s := by
  induction inWord, s using scan_induction with
  | nil inWord => rw [bindFrom]
  | clause rest braced ih =>
    have letter : Text.isBlank 'c' = false := by decide
    rw [bindFrom_catch braced]
    simp [opens_cons_of_not_blank letter]
  | other inWord c rest bare ih =>
    rw [bindFrom_other bare]
    cases h : Text.isBlank c with
    | true => rw [opens_cons_of_blank h, opens_cons_of_blank h, ih]
    | false => rw [opens_cons_of_not_blank h, opens_cons_of_not_blank h]

theorem word_of_bindFrom {word s t : List Char} (letters : word.all Text.isWordChar = true)
    (h : bindFrom 0 true s = word ++ t) : ∃ rest, s = word ++ rest ∧ t = bindFrom 0 true rest := by
  induction word generalizing s with
  | nil => exact ⟨s, rfl, h.symm⟩
  | cons c word ih =>
    cases s with
    | nil => simp [bindFrom] at h
    | cons d s =>
      rw [List.all_cons, Bool.and_eq_true] at letters
      rw [bindFrom_other (by simp)] at h
      obtain ⟨rfl, tail⟩ := List.cons.inj h
      rw [letters.1] at tail
      obtain ⟨rest, rfl, ht⟩ := ih letters.2 tail
      exact ⟨rest, rfl, ht⟩

theorem bareCatch_of_bindFrom {c : Char} {s : List Char}
    (h : bareCatch (c :: bindFrom 0 (Text.isWordChar c) s) = true) : bareCatch (c :: s) = true := by
  obtain ⟨t, ht, braced⟩ := (bareCatch_iff _).1 h
  obtain ⟨rfl, ht⟩ := List.cons.inj ht
  have letters : "atch".toList.all Text.isWordChar = true := by decide
  obtain ⟨rest, rfl, rfl⟩ := word_of_bindFrom letters ht
  rw [opens_bindFrom] at braced
  exact (bareCatch_iff _).2 ⟨rest, rfl, braced⟩

theorem countFrom_other {inWord : Bool} {c : Char} {rest : List Char}
    (h : inWord = false → bareCatch (c :: rest) = false) :
    countFrom inWord (c :: rest) = countFrom (Text.isWordChar c) rest := by
  cases inWord with
  | false => simp [countFrom, h rfl]
  | true => simp [countFrom]

theorem countFrom_letters {word : List Char} (letters : word.all Text.isWordChar = true)
    (s : List Char) : countFrom true (word ++ s) = countFrom true s := by
  induction word with
  | nil => rfl
  | cons c word ih =>
    rw [List.all_cons, Bool.and_eq_true] at letters
    rw [List.cons_append, countFrom_other (by simp), letters.1, ih letters.2]

theorem countFrom_without {front : List Char} (h : 'c' ∉ front) (inWord : Bool) (s : List Char) :
    countFrom inWord (front ++ s) = countFrom (endsInWord inWord front) s := by
  induction front generalizing inWord with
  | nil => rfl
  | cons c front ih =>
    simp only [List.mem_cons, not_or] at h
    rw [List.cons_append, countFrom_other fun _ =>
      bareCatch_of_ne (Ne.symm h.1) _, ih h.2, endsInWord_cons]

theorem countFrom_of_head {s : List Char} (h : s.head? ≠ some 'c') (inWord inWord' : Bool) :
    countFrom inWord s = countFrom inWord' s := by
  cases s with
  | nil => rfl
  | cons c rest =>
    have first : c ≠ 'c' := by simpa using h
    rw [countFrom_other fun _ => bareCatch_of_ne first rest, countFrom_other fun _ =>
      bareCatch_of_ne first rest]

theorem head?_bindFrom (inWord : Bool) (s : List Char) : (bindFrom 0 inWord s).head? = s.head? := by
  induction inWord, s using scan_induction with
  | nil inWord => rw [bindFrom]
  | clause rest braced ih => rw [bindFrom_catch braced]; rfl
  | other inWord c rest bare ih => rw [bindFrom_other bare]; rfl

theorem head?_of_opens {s : List Char} (h : opens s = true) : s.head? ≠ some 'c' := by
  intro first
  obtain ⟨rest, rfl⟩ := List.head?_eq_some_iff.1 first
  have letter : Text.isBlank 'c' = false := by decide
  simp [opens_cons_of_not_blank letter] at h

theorem countFrom_bound (s : List Char) :
    countFrom false ("catch".toList ++ (binding ++ s)) = countFrom false s := by
  have closed : opens (binding ++ s) = false := by
    have blank : Text.isBlank ' ' = true := by decide
    have bracket : Text.isBlank '(' = false := by decide
    have start : binding = ' ' :: '(' :: "__unusedError)".toList := by decide
    rw [start, List.cons_append, opens_cons_of_blank blank, List.cons_append,
      opens_cons_of_not_blank bracket]
    decide
  have keyword : "catch".toList = 'c' :: "atch".toList := by decide
  have bare : bareCatch ('c' :: ("atch".toList ++ (binding ++ s))) = false := by
    rw [← List.cons_append, ← keyword, bareCatch_catch, closed]
  have last : endsInWord true binding = false := by decide
  calc countFrom false ("catch".toList ++ (binding ++ s))
      = countFrom true ("atch".toList ++ (binding ++ s)) := by
        rw [keyword, List.cons_append, countFrom_other fun _ => bare]
        rfl
    _ = countFrom true (binding ++ s) := countFrom_letters (by decide) _
    _ = countFrom false s := by rw [countFrom_without (by decide), last]

theorem countFrom_bindFrom (inWord : Bool) (s : List Char) :
    countFrom inWord (bindFrom 0 inWord s) = 0 := by
  induction inWord, s using scan_induction with
  | nil inWord => rw [bindFrom, countFrom]
  | clause rest braced ih =>
    -- What stands behind the keyword has a bracket before it now, where no word could go on.
    have first : (bindFrom 0 true rest).head? ≠ some 'c' := by
      rw [head?_bindFrom]
      exact head?_of_opens braced
    rw [bindFrom_catch braced, countFrom_bound, countFrom_of_head first false true, ih]
  | other inWord c rest bare ih =>
    have still : inWord = false → bareCatch (c :: bindFrom 0 (Text.isWordChar c) rest) = false := by
      intro free
      rw [Bool.eq_false_iff]
      intro again
      rw [bareCatch_of_bindFrom again] at bare
      exact Bool.noConfusion (bare free)
    rw [bindFrom_other bare, countFrom_other still, ih]

theorem bind_of_count {source : List Char} (h : count source = 0) : bind source = source := by
  have no_places : placesFrom 0 false source = [] := by
    rw [← List.length_eq_zero_iff, length_placesFrom]
    exact h
  rw [bind_eq_insertAll, no_places, Text.insertAll, List.foldr_nil]

/-- A parameter is put in behind the keyword of every clause without one and nowhere else, as many
as were counted. They can be taken out again, they move every character by as much as was put in
before it and none off its line, and a second pass puts nothing in. -/
theorem bind_keeps (source : List Char) :
    ∃ places, ArePlaces source places ∧ count source = places.length ∧
    IsBound source (bind source) places ∧
      count (bind source) = 0 ∧ bind (bind source) = bind source := by
  have done : count (bind source) = 0 := countFrom_bindFrom false source
  exact ⟨placesFrom 0 false source, arePlaces_placesFrom source,
    (length_placesFrom 0 false source).symm, isBound_bind source, done, bind_of_count done⟩

example : placesFrom 0 false "try {} catch {} try {} catch\n{}".toList =
    [12, 28] := by decide +kernel

end EndpointAtlas.CatchBinding
