import EndpointAtlas.Endpoint.Discover
import EndpointAtlas.Proofs.Endpoint.Lines
import EndpointAtlas.Proofs.Text.Runs
import EndpointAtlas.Proofs.Text.Scan
import Mathlib.Data.List.Infix
import Mathlib.Data.List.TakeWhile

/-!
Which files the look at their raw text leaves out. Main statements: a text is read closely exactly
if it shows a call of a registrar's method or a decorator of one of the known words, as they are
spelled; what raw text alone gives is never left out; and nothing is left out at all exactly if
every file whose tree gives endpoints shows one of the two.
-/

set_option autoImplicit false

namespace EndpointAtlas

namespace Text

theorem not_isNameChar_of_isBlank {c : Char} (h : isBlank c = true) : isNameChar c = false := by
  rw [Bool.eq_false_iff]
  intro hn
  simp only [isBlank, Bool.or_eq_true, Bool.and_eq_true, decide_eq_true_eq, beq_iff_eq] at h
  simp only [isNameChar, isWordChar, isAsciiLetter, isAsciiDigit, Bool.or_eq_true, Bool.and_eq_true,
    decide_eq_true_eq, beq_iff_eq, Char.le_def, UInt32.le_iff_toNat_le, Char.ext_iff,
    UInt32.ext_iff] at hn
  have hc : c.val.toNat = c.toNat := rfl
  simp [hc] at hn
  omega

theorem isNameChar_of_isWordChar {c : Char} (h : isWordChar c = true) : isNameChar c = true := by
  simp [isNameChar, h]

theorem skipBlanks_eq {s t : List Char} (h : skipBlanks s = t) :
    ∃ gap, s = gap ++ t ∧ ∀ c ∈ gap, isBlank c = true := by
  refine ⟨s.takeWhile isBlank, ?_, fun c hc => List.mem_takeWhile_imp hc⟩
  rw [← h, skipBlanks, List.takeWhile_append_dropWhile]

theorem length_skipBlanks_le (s : List Char) : (skipBlanks s).length ≤ s.length :=
  (List.dropWhile_suffix isBlank).length_le

theorem startsWithAnyCase_iff {word s : List Char} :
    startsWithAnyCase word s = true ↔ word <+: s.map smallAscii := by
  rw [startsWithAnyCase, beq_iff_eq, List.map_take, List.prefix_iff_eq_take, eq_comm]

end Text

namespace TextCall

def IsVerb (word : List Char) : Prop := ∃ method, (word.map Text.smallAscii, method) ∈ verbs

/-- A call of a method on a name is spelled out behind a character: the whole name in plain
characters, a dot, the word of the method and a parenthesis, with nothing but blanks between
them. -/
structure Spelled (before : Option Char) (s name : List Char) : Prop where
  whole : ∀ c ∈ before, Text.isNameChar c = false
  starts : name.head?.any Text.isNameStart = true
  plain : ∀ c ∈ name, Text.isNameChar c = true
  goesOn : ∃ gap word gap' gap'' inside,
    s = name ++ (gap ++ '.' :: (gap' ++ (word ++ (gap'' ++ '(' :: inside)))) ∧
    (∀ c ∈ gap, Text.isBlank c = true) ∧ (∀ c ∈ gap', Text.isBlank c = true) ∧
    (∀ c ∈ gap'', Text.isBlank c = true) ∧ IsVerb word

theorem eq_of_prefix_verb : ∀ v ∈ verbs, ∀ u ∈ verbs, v.1 <+: u.1 → v = u := by decide

theorem isNameChar_of_smallAscii {c : Char} (h : Text.isAsciiLetter (Text.smallAscii c) = true) :
    Text.isNameChar c = true := by
  unfold Text.smallAscii at h
  split at h <;> simp_all [Text.isNameChar, Text.isWordChar, Text.isAsciiLetter]

theorem isVerb_ne_nil {word : List Char} (h : IsVerb word) : word ≠ [] := by
  rintro rfl
  obtain ⟨method, hm⟩ := h
  have hn : ∀ v ∈ verbs, v.1 ≠ [] := by decide
  exact hn _ hm rfl

theorem isNameChar_of_isVerb {word : List Char} (h : IsVerb word) :
    ∀ c ∈ word, Text.isNameChar c = true := by
  intro c hc
  obtain ⟨method, hm⟩ := h
  have hl : ∀ v ∈ verbs, v.1.all Text.isAsciiLetter = true := by decide
  exact isNameChar_of_smallAscii (List.all_eq_true.1 (hl _ hm) _ (List.mem_map_of_mem hc))

theorem find?_verbs {word rest : List Char} {method : Method}
    (h : (word.map Text.smallAscii, method) ∈ verbs) :
    verbs.find? (fun verb => Text.startsWithAnyCase verb.1 (word ++ rest)) =
      some (word.map Text.smallAscii, method) := by
  have hs : Text.startsWithAnyCase (word.map Text.smallAscii) (word ++ rest) = true := by
    rw [Text.startsWithAnyCase_iff, List.map_append]
    exact List.prefix_append _ _
  have hsome : (verbs.find? fun verb => Text.startsWithAnyCase verb.1 (word ++ rest)).isSome :=
    List.find?_isSome.2 ⟨_, h, hs⟩
  obtain ⟨found, hf⟩ := Option.isSome_iff_exists.1 hsome
  have hfound := List.find?_some hf
  have hp := Text.startsWithAnyCase_iff.1 hfound
  have hm := List.mem_of_find?_eq_some hf
  rcases List.prefix_or_prefix_of_prefix hp (Text.startsWithAnyCase_iff.1 hs) with hc | hc
  · rw [hf, eq_of_prefix_verb _ hm _ h hc]
  · rw [hf, ← eq_of_prefix_verb _ h _ hm hc]

theorem not_isBlank_dot : Text.isBlank '.' = false := by decide

theorem not_isBlank_of_isNameChar {c : Char} (h : Text.isNameChar c = true) :
    Text.isBlank c = false := by
  rw [Bool.eq_false_iff]
  intro hb
  rw [Text.not_isNameChar_of_isBlank hb] at h
  cases h

theorem here_of_spelled {before : Option Char} {s name : List Char} (h : Spelled before s name) :
    ∃ method route count, here before s = some ((name, method, route), count) := by
  obtain ⟨whole, starts, plain, gap, word, gap', gap'', inside, rfl, hg, hg', hg'', verb⟩ := h
  obtain ⟨method, hm⟩ := verb
  have hafter : ∀ c ∈ (gap ++ '.' :: (gap' ++ (word ++ (gap'' ++ '(' :: inside)))).head?,
      Text.isNameChar c = false := by
    cases gap with
    | nil => simp; decide
    | cons g gap =>
      simp only [List.cons_append, List.head?_cons, Option.mem_def, Option.some.injEq]
      rintro c rfl
      exact Text.not_isNameChar_of_isBlank (hg g List.mem_cons_self)
  have hname := Text.takeWhile_append_stop plain hafter
  have hrest := Text.dropWhile_append_stop plain hafter
  have hdot : Text.skipBlanks (gap ++ '.' :: (gap' ++ (word ++ (gap'' ++ '(' :: inside)))) =
      '.' :: (gap' ++ (word ++ (gap'' ++ '(' :: inside))) :=
    Text.dropWhile_append_stop hg (by simp [not_isBlank_dot])
  have hword : Text.skipBlanks (gap' ++ (word ++ (gap'' ++ '(' :: inside))) =
      word ++ (gap'' ++ '(' :: inside) := by
    refine Text.dropWhile_append_stop hg' ?_
    obtain ⟨c, rest, hc⟩ := List.exists_cons_of_ne_nil (isVerb_ne_nil ⟨method, hm⟩)
    simp only [hc, List.cons_append, List.head?_cons, Option.mem_def, Option.some.injEq]
    rintro d rfl
    exact not_isBlank_of_isNameChar (isNameChar_of_isVerb ⟨method, hm⟩ c (by simp [hc]))
  have hopen : Text.skipBlanks (gap'' ++ '(' :: inside) = '(' :: inside :=
    Text.dropWhile_append_stop hg'' (by simp; decide)
  have hbefore : before.any Text.isNameChar = false := by
    rw [Option.any_eq_false]
    exact whole
  have hstart : (name ++ (gap ++ '.' :: (gap' ++ (word ++ (gap'' ++ '(' :: inside))))).head?.any
      Text.isNameStart = true := by
    cases name with
    | nil => simp at starts
    | cons c name => simpa using starts
  have hdrop : (word ++ (gap'' ++ '(' :: inside)).drop (word.map Text.smallAscii).length =
      gap'' ++ '(' :: inside := by simp
  unfold here
  simp only [hbefore, hstart, hname, hrest, hdot, hword, find?_verbs hm, hdrop, hopen,
    Bool.not_true, Bool.false_eq_true, if_false]
  split <;> exact ⟨_, _, _, rfl⟩

theorem isNameChar_of_isNameStart {c : Char} (h : Text.isNameStart c = true) :
    Text.isNameChar c = true := by
  simp only [Text.isNameStart, Bool.or_eq_true] at h
  simp only [Text.isNameChar, Text.isWordChar, Bool.or_eq_true]
  exact h.imp_left (Or.imp_left .inl)

theorem length_literal_lt {s body after : List Char} {quote : Char}
    (h : literal? s = some (quote, body, after)) : after.length < s.length := by
  cases s with
  | nil => cases h
  | cons first rest =>
    unfold literal? at h
    simp only at h
    split at h
    · have hl := (List.dropWhile_suffix (l := rest) (fun c => decide (c ≠ first))).length_le
      split at h
      · rename_i last hdrop
        rw [hdrop] at hl
        simp only [Option.some.injEq, Prod.mk.injEq] at h
        obtain ⟨-, -, rfl⟩ := h
        simp only [List.length_cons] at hl ⊢
        omega
      · cases h
    · cases h

/-- The route that raw text gives a call, from what follows its parenthesis. -/
def routeIn (inside : List Char) : Option String :=
  match literal? (Text.skipBlanks inside) with
  | some (quote, body, _) =>
    if quote = '\x60' ∧ Text.interpolates body then none else some (String.ofList body)
  | none => none

theorem parts_of_here {before : Option Char} {s name : List Char} {method : Method}
    {route : Option String} {count : Nat}
    (h : here before s = some ((name, method, route), count)) :
    (∀ c ∈ before, Text.isNameChar c = false) ∧ name.head?.any Text.isNameStart = true ∧
      (∀ c ∈ name, Text.isNameChar c = true) ∧ 1 ≤ count ∧ count ≤ s.length ∧
      ∃ gap word gap' gap'' inside,
        s = name ++ (gap ++ '.' :: (gap' ++ (word ++ (gap'' ++ '(' :: inside)))) ∧
        (∀ c ∈ gap, Text.isBlank c = true) ∧ (∀ c ∈ gap', Text.isBlank c = true) ∧
        (∀ c ∈ gap'', Text.isBlank c = true) ∧ (word.map Text.smallAscii, method) ∈ verbs ∧
        route = routeIn inside := by
  unfold here at h
  split at h
  · cases h
  rename_i hbefore
  split at h
  · cases h
  rename_i hstart
  have hsplit := List.takeWhile_append_dropWhile (p := Text.isNameChar) (l := s)
  generalize hn : s.takeWhile Text.isNameChar = taken at h hsplit
  simp only at h
  split at h
  · rename_i afterDot hdot
    obtain ⟨gap, hgap, hg⟩ := Text.skipBlanks_eq hdot
    obtain ⟨gap', hgap', hg'⟩ := Text.skipBlanks_eq (s := afterDot) rfl
    generalize Text.skipBlanks afterDot = atVerb at h hgap'
    split at h
    · rename_i word found hfind
      have hfound := List.find?_some hfind
      have hp := Text.startsWithAnyCase_iff.1 hfound
      have hw : (atVerb.take word.length).map Text.smallAscii = word := by
        rw [List.map_take]
        exact (List.prefix_iff_eq_take.1 hp).symm
      have hverb : ((atVerb.take word.length).map Text.smallAscii, found) ∈ verbs :=
        hw.symm ▸ List.mem_of_find?_eq_some hfind
      have hword := List.take_append_drop word.length atVerb
      split at h
      · rename_i inside hopen
        obtain ⟨gap'', hgap'', hg''⟩ := Text.skipBlanks_eq hopen
        have hs : s = taken ++ (gap ++ '.' :: (gap' ++
            (atVerb.take word.length ++ (gap'' ++ '(' :: inside)))) := by
          rw [← hgap'', hword, ← hgap', ← hgap, hsplit]
        have hshorter : inside.length < s.length := by
          rw [hs]
          simp only [List.length_append, List.length_cons]
          omega
        have whole : ∀ c ∈ before, Text.isNameChar c = false := by
          simpa [Option.any_eq_false] using hbefore
        have starts : taken.head?.any Text.isNameStart = true := by
          cases s with
          | nil => simp at hstart
          | cons c s =>
            have hc : Text.isNameStart c = true := by simpa using hstart
            rw [← hn, List.takeWhile_cons, if_pos (isNameChar_of_isNameStart hc)]
            simpa using hc
        have plain : ∀ c ∈ taken, Text.isNameChar c = true :=
          fun c hc => List.mem_takeWhile_imp (hn ▸ hc)
        have hinside := Text.length_skipBlanks_le inside
        split at h
        · rename_i quote body after hliteral
          simp only [Option.some.injEq, Prod.mk.injEq] at h
          obtain ⟨⟨rfl, rfl, rfl⟩, rfl⟩ := h
          have := length_literal_lt hliteral
          exact ⟨whole, starts,
            plain, by omega, by omega, gap, _, gap', gap'', inside, hs, hg, hg', hg'', hverb,
            by simp only [routeIn, hliteral]⟩
        · rename_i hliteral
          simp only [Option.some.injEq, Prod.mk.injEq] at h
          obtain ⟨⟨rfl, rfl, rfl⟩, rfl⟩ := h
          exact ⟨whole, starts,
            plain, by omega, by omega, gap, _, gap', gap'', inside, hs, hg, hg', hg'', hverb,
            by simp only [routeIn, hliteral]⟩
      · cases h
    · cases h
  · cases h

theorem spelled_of_here {before : Option Char} {s name : List Char} {method : Method}
    {route : Option String} {count : Nat}
    (h : here before s = some ((name, method, route), count)) :
    Spelled before s name := by
  obtain ⟨whole, starts, plain, -, -, gap, word, gap', gap'', inside, hs, hg, hg', hg'', verb, -⟩ :=
    parts_of_here h
  exact ⟨whole, starts, plain, gap, word, gap', gap'', inside, hs, hg, hg', hg'', method, verb⟩

theorem consumes_here : Text.Consumes here :=
  fun _ _ _ _ h => ⟨(parts_of_here h).2.2.2.1, (parts_of_here h).2.2.2.2.1⟩

end TextCall

namespace Endpoint

/-- A text shows a call of a registrar's method: one is spelled out where the scan for calls
looks. -/
def ShowsCall (source : List Char) : Prop :=
  ∃ place name, Text.Looked TextCall.here source place ∧ TextCall.Spelled place.1 place.2 name ∧
    Route.isRegistrar name = true

/-- A text shows a decorator: a known word, in any letter case of ASCII, behind an at sign and
blanks. -/
def ShowsDecorator (source : List Char) : Prop :=
  ∃ front gap word rest, source = front ++ '@' :: (gap ++ (word ++ rest)) ∧
    (∀ c ∈ gap, Text.isBlank c = true) ∧ (∀ c ∈ word, Text.isWordChar c = true) ∧
    (∀ c ∈ rest.head?, Text.isWordChar c = false) ∧
    String.ofList (word.map Text.smallAscii) ∈ decoratorWords

/-- A call of a registrar's method that is spelled out anywhere in a text shows, unless it stands
inside of what the scan takes for a call of something else. -/
theorem showsCall_of_spelled {front s name : List Char}
    (h : TextCall.Spelled front.getLast? s name) (hr : Route.isRegistrar name = true) :
    ShowsCall (front ++ s) ∨
      ∃ place value, Text.Covered TextCall.here (front ++ s) s place value ∧
        Route.isRegistrar value.1 = false := by
  rcases Text.looked_or_covered TextCall.consumes_here front s with hl | ⟨place, value, hc⟩
  · exact .inl ⟨_, name, hl, h, hr⟩
  · cases hv : Route.isRegistrar value.1 with
    | true =>
      obtain ⟨hl, count, passed, hh, -⟩ := hc
      exact .inl ⟨place, _, hl, TextCall.spelled_of_here hh, hv⟩
    | false => exact .inr ⟨place, value, hc, hv⟩

theorem calls_ne_nil_iff (source : List Char) : TextCall.all source ≠ [] ↔ ShowsCall source := by
  have hall : TextCall.all source ≠ [] ↔
      ∃ name method route, (∃ found ∈ Text.findAll TextCall.here 0 none 0 source,
        found.value = (name, method, route)) ∧ Route.isRegistrar name = true := by
    unfold TextCall.all
    constructor
    · intro hne
      obtain ⟨call, hc⟩ := List.exists_mem_of_ne_nil _ hne
      obtain ⟨found, hm, hf⟩ := List.mem_filterMap.1 hc
      by_cases hr : Route.isRegistrar found.value.1 = true
      · exact ⟨_, _, _, ⟨found, hm, rfl⟩, hr⟩
      · simp [hr] at hf
    · rintro ⟨name, method, route, ⟨found, hm, hv⟩, hr⟩
      exact List.ne_nil_of_mem (List.mem_filterMap.2 ⟨found, hm, by rw [hv]; exact if_pos hr⟩)
  simp only [hall, Text.found_iff_reached TextCall.consumes_here]
  constructor
  · rintro ⟨name, method, route, ⟨place, count, hl, hh⟩, hr⟩
    exact ⟨place, name, hl, TextCall.spelled_of_here hh, hr⟩
  · rintro ⟨place, name, hl, hs, hr⟩
    obtain ⟨method, route, count, hh⟩ := TextCall.here_of_spelled hs
    exact ⟨name, method, route, ⟨place, count, hl, hh⟩, hr⟩

theorem ne_nil_of_decoratorWord {word : List Char}
    (h : String.ofList (word.map Text.smallAscii) ∈ decoratorWords) : word ≠ [] := by
  rintro rfl
  exact absurd h (by decide)

theorem hasDecoratorWord_iff (source : List Char) :
    hasDecoratorWord source = true ↔ ShowsDecorator source := by
  constructor
  · intro h
    induction source with
    | nil => cases h
    | cons c rest ih =>
      rw [hasDecoratorWord, Bool.or_eq_true, Bool.and_eq_true, beq_iff_eq,
        List.contains_iff_mem] at h
      rcases h with ⟨rfl, hw⟩ | h
      · obtain ⟨gap, hgap, hg⟩ := Text.skipBlanks_eq (s := rest) rfl
        refine ⟨[], gap, _, (Text.skipBlanks rest).dropWhile Text.isWordChar, ?_, hg,
          fun c hc => List.mem_takeWhile_imp hc, ?_, hw⟩
        · rw [List.takeWhile_append_dropWhile, ← hgap]
          rfl
        · intro d hd
          have hn := List.head?_dropWhile_not Text.isWordChar (Text.skipBlanks rest)
          rw [Option.mem_def.1 hd] at hn
          simpa using hn
      · obtain ⟨front, gap, word, after, rfl, hall⟩ := ih h
        exact ⟨c :: front, gap, word, after, rfl, hall⟩
  · rintro ⟨front, gap, word, rest, rfl, hg, hw, hr, hk⟩
    induction front with
    | nil =>
      obtain ⟨c, more, hc⟩ := List.exists_cons_of_ne_nil (ne_nil_of_decoratorWord hk)
      have hskip : Text.skipBlanks (gap ++ (word ++ rest)) = word ++ rest := by
        refine Text.dropWhile_append_stop hg ?_
        simp only [hc, List.cons_append, List.head?_cons, Option.mem_def, Option.some.injEq]
        rintro d rfl
        exact TextCall.not_isBlank_of_isNameChar
          (Text.isNameChar_of_isWordChar (hw c (by simp [hc])))
      rw [List.nil_append, hasDecoratorWord, hskip, Text.takeWhile_append_stop hw hr]
      simp [hk]
    | cons c front ih =>
      rw [List.cons_append, hasDecoratorWord, ih, Bool.or_true]

theorem isCandidate_iff_shows (source : List Char) :
    isCandidate source = true ↔ ShowsCall source ∨ ShowsDecorator source := by
  rw [isCandidate, Bool.or_eq_true, hasDecoratorWord_iff, ← calls_ne_nil_iff]
  simp

-- A question mark before the dot is no blank, so this call does not show.
example : isCandidate "app?.get('/x', handler);".toList = false := by decide

/-! ### What raw text gives -/

theorem place_of_mem_findAll {α : Type} {here : Option Char → List Char → Option (α × Nat)}
    {skip offset : Nat} {before : Option Char} {s : List Char} {found : Text.Found α}
    (h : found ∈ Text.findAll here skip before offset s) :
    ∃ front rest before count, s = front ++ rest ∧ found.offset = offset + Text.units front ∧
      here before rest = some (found.value, count) := by
  fun_induction Text.findAll here skip before offset s with
  | case1 => cases h
  | case2 skip before offset c rest ih =>
    obtain ⟨front, t, b, count, rfl, ho, hh⟩ := ih h
    exact ⟨c :: front, t, b, count, rfl, by rw [ho, Text.units_cons, Nat.add_assoc], hh⟩
  | case3 before offset c rest value count hv ih =>
    rcases List.mem_cons.1 h with rfl | h
    · exact ⟨[], c :: rest, before, count, rfl, rfl, hv⟩
    · obtain ⟨front, t, b, count, rfl, ho, hh⟩ := ih h
      exact ⟨c :: front, t, b, count, rfl, by rw [ho, Text.units_cons, Nat.add_assoc], hh⟩
  | case4 before offset c rest hv ih =>
    obtain ⟨front, t, b, count, rfl, ho, hh⟩ := ih h
    exact ⟨c :: front, t, b, count, rfl, by rw [ho, Text.units_cons, Nat.add_assoc], hh⟩

theorem showsDecorator_of_controller {before : Option Char} {s : List Char} {found : String × Nat}
    (h : TextController.controller? before s = some found) : ShowsDecorator s := by
  unfold TextController.controller? at h
  split at h
  · rename_i hp
    obtain ⟨rest, rfl⟩ := List.isPrefixOf_iff_prefix.1 hp
    have hdrop : ("@Controller".toList ++ rest).drop 11 = rest :=
      List.drop_left' (by decide)
    rw [hdrop, Option.map_eq_some_iff] at h
    obtain ⟨argument, ha, -⟩ := h
    have hword : "Controller".toList.all Text.isWordChar = true := by decide
    refine ⟨[], [], "Controller".toList, rest,
      rfl, by simp, List.all_eq_true.1 hword, ?_, by decide⟩
    intro c hc
    unfold TextController.argument? at ha
    split at ha
    · rename_i inside hskip
      obtain ⟨gap, rfl, hg⟩ := Text.skipBlanks_eq hskip
      cases gap with
      | nil =>
        simp only [List.nil_append, List.head?_cons, Option.mem_def, Option.some.injEq] at hc
        subst hc
        decide
      | cons d gap =>
        simp only [List.cons_append, List.head?_cons, Option.mem_def, Option.some.injEq] at hc
        subst hc
        rw [Bool.eq_false_iff]
        intro hw
        have hn := Text.not_isNameChar_of_isBlank (hg d List.mem_cons_self)
        rw [Text.isNameChar_of_isWordChar hw] at hn
        cases hn
    · cases ha
  · cases h

theorem ShowsDecorator.of_suffix {s t : List Char} (h : ShowsDecorator s) (hs : s <:+ t) :
    ShowsDecorator t := by
  obtain ⟨more, rfl⟩ := hs
  obtain ⟨front, gap, word, rest, rfl, hall⟩ := h
  exact ⟨more ++ front, gap, word, rest, by simp, hall⟩

theorem shows_of_scanned {source : List Char} {filePath : String} {dialect : Dialect}
    {failed controllersInTree : Bool}
    (h : (scanned source filePath dialect failed controllersInTree).getD [] ≠ []) :
    ShowsCall source ∨ ShowsDecorator source := by
  obtain ⟨e, he⟩ := List.exists_mem_of_ne_nil _ h
  unfold scanned at he
  simp only at he
  split at he
  · cases he
  · rcases List.mem_append.1 he with he | he
    · split at he
      · refine .inl ((calls_ne_nil_iff source).1 fun hn => ?_)
        rw [calledInText, hn] at he
        cases he
      · cases he
    · split at he
      · obtain ⟨found, hf, -⟩ := List.mem_flatMap.1 he
        obtain ⟨front, rest, before, count, hs, -, hh⟩ := place_of_mem_findAll hf
        exact .inr ((showsDecorator_of_controller hh).of_suffix ⟨front, hs.symm⟩)
      · cases he

/-! ### What the look at raw text leaves out -/

theorem distinctFrom_nil_eq_nil {es : List Endpoint} : distinctFrom [] es = [] ↔ es = [] := by
  cases es <;> simp [distinctFrom]

/-- The endpoints that the tree of a source text gives. -/
def inTree (filePath source : String) : List Endpoint :=
  (Detection.ofSource filePath source.toList).decorated.getD [] ++
    (Detection.ofSource filePath source.toList).called

theorem detect_eq_nil_iff {filePath source : String} (h : isCandidate source.toList = false) :
    detect filePath source = [] ↔ inTree filePath source = [] := by
  have hs : (Detection.ofSource filePath source.toList).scanned.getD [] = [] := by
    by_contra hne
    have hshows := shows_of_scanned hne
    rw [Detection.source_ofSource, ← isCandidate_iff_shows, h] at hshows
    cases hshows
  rw [detect, distinctFrom_nil_eq_nil, Detection.found, hs, List.append_nil, inTree]

theorem inFile_of_some {tree : FileTree} {path source : String}
    (h : sourceOf tree path = some source) : inFile tree path = detect path source := by
  unfold inFile
  rw [h]

theorem inFile_of_none {tree : FileTree} {path : String} (h : sourceOf tree path = none) :
    inFile tree path = [] := by
  unfold inFile
  rw [h]

theorem flatMap_filter_eq_iff {α β : Type} (p : α → Bool) (f : α → List β) (items : List α) :
    (items.filter p).flatMap f = items.flatMap f ↔ ∀ a ∈ items, p a = false → f a = [] := by
  have hle : ∀ l : List α, ((l.filter p).flatMap f).length ≤ (l.flatMap f).length := by
    intro l
    induction l with
    | nil => simp
    | cons a l ih =>
      rw [List.filter_cons]
      split <;> simp only [List.flatMap_cons, List.length_append] <;> omega
  induction items with
  | nil => simp
  | cons a items ih =>
    rw [List.filter_cons, List.forall_mem_cons, ← iff_iff_eq.2 (propext ih)]
    cases hp : p a with
    | true => simp
    | false =>
      simp only [Bool.false_eq_true, if_false, List.flatMap_cons, true_imp_iff]
      constructor
      · intro h
        have hl := congrArg List.length h
        have := hle items
        rw [List.length_append] at hl
        have ha : f a = [] := List.length_eq_zero_iff.1 (by omega)
        exact ⟨ha, by rw [h, ha, List.nil_append]⟩
      · rintro ⟨ha, h⟩
        rw [h, ha, List.nil_append]

/-- A file has endpoints and is not read closely exactly if its tree gives endpoints while its text
shows neither a call of a registrar's method nor a decorator; and discovery leaves no endpoint of
some files out exactly if no file among them is such a one. -/
theorem discover_eq_iff_shows (tree : FileTree) (paths : List String) :
    (∀ filePath source, (detect filePath source ≠ [] → isCandidate source.toList = true) ↔
      (inTree filePath source ≠ [] → ShowsCall source.toList ∨ ShowsDecorator source.toList)) ∧
    (discover tree paths = paths.flatMap (fun path => (inFile tree path).map normalized) ↔
      ∀ path ∈ paths, ∀ source, sourceOf tree path = some source → inTree path source ≠ [] →
        ShowsCall source.toList ∨ ShowsDecorator source.toList) := by
  have each : ∀ filePath source, (detect filePath source ≠ [] → isCandidate source.toList = true) ↔
      (inTree filePath source ≠ [] → ShowsCall source.toList ∨ ShowsDecorator source.toList) := by
    intro filePath source
    rw [← isCandidate_iff_shows]
    cases hc : isCandidate source.toList with
    | true => simp
    | false => simp [detect_eq_nil_iff hc]
  refine ⟨each, ?_⟩
  rw [discover, candidates, flatMap_filter_eq_iff]
  refine forall₂_congr fun path _ => ?_
  rw [List.map_eq_nil_iff]
  cases hs : sourceOf tree path with
  | none =>
    rw [inFile_of_none hs]
    exact ⟨fun _ source h => absurd h (Option.some_ne_none source).symm, fun _ _ => rfl⟩
  | some source =>
    rw [inFile_of_some hs, Option.any_some]
    constructor
    · intro h other ho
      obtain rfl := Option.some.inj ho
      refine (each path source).1 fun hne => ?_
      by_contra hc
      exact hne (h (by simpa using hc))
    · intro h hc
      by_contra hne
      rw [(each path source).2 (h source rfl) hne] at hc
      cases hc

end Endpoint

end EndpointAtlas
