import EndpointAtlas.Proofs.Json.Entries
import EndpointAtlas.Proofs.Json.Numeral

set_option autoImplicit false

namespace EndpointAtlas.Json

open Number

/-! ### Texts -/

theorem readHex4_append {digits : List Char} (hl : digits.length = 4)
    (hd : digits.all (isDigitOf 16) = true) (rest : List Char) :
    readHex4 (digits ++ rest) = some (ofDigits 16 digits, rest) := by
  match digits, hl with
  | [a, b, c, d], _ => simp only [readHex4, List.cons_append, List.nil_append, hd, if_true]

theorem hex4_low : ∀ n < 32, (hex4 n).length = 4 ∧ (hex4 n).all (isDigitOf 16) = true ∧
    ofDigits 16 (hex4 n) = n := by decide

theorem readUnit_hex4 {n : Nat} (h : n < 32) (rest : List Char) :
    readUnit (hex4 n ++ rest) = some (Char.ofNat n, rest) := by
  obtain ⟨hl, hd, hv⟩ := hex4_low n h
  have hhigh : ¬(0xD800 ≤ n ∧ n < 0xDC00) := by omega
  have hlow : ¬(0xDC00 ≤ n ∧ n < 0xE000) := by omega
  simp only [readUnit, readHex4_append hl hd, hv, Option.bind_eq_bind, Option.bind_some,
    if_neg hhigh, if_neg hlow]
  rfl

theorem readText_escape (fuel : Nat) (c : Char) (tail : List Char) :
    readText (fuel + 1) (escape c ++ tail) =
      (readText fuel tail).map fun read => (c :: read.1, read.2) := by
  have letter : ∀ e d, escaped? e = some d →
      readText (fuel + 1) ('\\' :: e :: tail) =
        (readText fuel tail).map fun read => (d :: read.1, read.2) := by
    intro e d he
    rw [readText, if_neg (by decide), if_pos rfl, he]
    · cases readText fuel tail <;> rfl
    · rintro rfl
      exact absurd he (by simp [escaped?])
  -- Five characters are told by themselves and two by their numbers.
  unfold escape
  iterate 5
    split
    · rename_i h
      subst h
      exact letter _ _ (by decide)
  iterate 2
    split
    · rename_i h
      rw [← Char.ofNat_toNat c, h]
      exact letter _ _ (by decide)
  split
  · rename_i h
    rw [List.cons_append, List.cons_append, readText, if_neg (by decide), if_pos rfl,
      readUnit_hex4 h, Char.ofNat_toNat]
    simp only [Option.bind_eq_bind, Option.bind_some]
    cases readText fuel tail <;> rfl
  · rename_i hquote hslash _ _ _ _ _ hlow
    rw [List.singleton_append]
    cases hr : readText fuel tail <;> simp [readText, hquote, hslash, hlow, hr]

theorem readText_escaped (s : List Char) {fuel : Nat} (hf : s.length < fuel) (tail : List Char) :
    readText fuel (s.flatMap escape ++ '"' :: tail) = some (s, tail) := by
  induction s generalizing fuel with
  | nil =>
    obtain ⟨fuel, rfl⟩ := Nat.exists_eq_add_one_of_ne_zero (Nat.ne_of_gt hf)
    simp [readText]
  | cons c s ih =>
    obtain ⟨fuel, rfl⟩ := Nat.exists_eq_add_one_of_ne_zero (show fuel ≠ 0 by omega)
    rw [List.flatMap_cons, List.append_assoc, readText_escape, ih (by simpa using hf)]
    rfl

theorem length_le_escaped (s : List Char) : s.length ≤ (s.flatMap escape).length := by
  induction s with
  | nil => simp
  | cons c s ih =>
    have hc : 1 ≤ (escape c).length := by
      unfold escape
      split_ifs <;> simp
    rw [List.flatMap_cons, List.length_append, List.length_cons]
    omega

theorem quoted_append (s : String) (tail : List Char) :
    quoted s ++ tail = '"' :: (s.toList.flatMap escape ++ '"' :: tail) := by simp [quoted]

theorem readText_quoted (s : String) (tail : List Char) :
    readText (s.toList.flatMap escape ++ '"' :: tail).length.succ
      (s.toList.flatMap escape ++ '"' :: tail) = some (s.toList, tail) := by
  refine readText_escaped _ ?_ _
  have := length_le_escaped s.toList
  rw [List.length_append]
  omega

/-! ### Values -/

/-- How a value is laid out: what stands before what begins on a level and before the end on it, and
behind the colon of a field. -/
structure Layout where
  line : Nat → List Char
  gap : List Char

structure Layout.Blank (layout : Layout) : Prop where
  line : ∀ level, ∀ c ∈ layout.line level, isSpace c = true
  gap : ∀ c ∈ layout.gap, isSpace c = true

section laid

variable (layout : Layout)

mutual

def laid (level : Nat) : Json → List Char
  | .null => "null".toList
  | .bool b => if b then "true".toList else "false".toList
  | .number x => numeral x
  | .text s => quoted s
  | .list [] => ['[', ']']
  | .list (item :: rest) =>
    '[' :: separated [','] (laidItems (level + 1) (item :: rest)) ++ layout.line level ++ [']']
  | .object [] => ['{', '}']
  | .object (field :: rest) =>
    '{' :: separated [','] (laidFields (level + 1) (field :: rest)) ++ layout.line level ++ ['}']

def laidItems (level : Nat) : List Json → List (List Char)
  | [] => []
  | item :: rest => (layout.line level ++ laid level item) :: laidItems level rest

def laidFields (level : Nat) : List (String × Json) → List (List Char)
  | [] => []
  | (name, value) :: rest =>
    (layout.line level ++ quoted name ++ ':' :: (layout.gap ++ laid level value)) ::
      laidFields level rest

end

end laid

def oneLine : Layout := ⟨fun _ => [], []⟩

def manyLines : Layout := ⟨lineStart, [' ']⟩

mutual

theorem compact_eq_laid (level : Nat) (value : Json) :
    value.compact = laid oneLine level value := by
  match value with
  | .null | .bool _ | .number _ | .text _ => simp only [compact, laid]
  | .list [] | .object [] => simp [compact, compactItems, compactFields, laid, separated]
  | .list (item :: rest) =>
    rw [compact, laid, compactItems_eq_laid (level + 1) (item :: rest)]
    simp [oneLine]
  | .object (field :: rest) =>
    rw [compact, laid, compactFields_eq_laid (level + 1) (field :: rest)]
    simp [oneLine]

theorem compactItems_eq_laid (level : Nat) (items : List Json) :
    compactItems items = laidItems oneLine level items := by
  match items with
  | [] => rw [compactItems, laidItems]
  | item :: rest =>
    rw [compactItems, laidItems, compactItems_eq_laid level rest, compact_eq_laid level item]
    simp [oneLine]

theorem compactFields_eq_laid (level : Nat) (fields : List (String × Json)) :
    compactFields fields = laidFields oneLine level fields := by
  match fields with
  | [] => rw [compactFields, laidFields]
  | (name, value) :: rest =>
    rw [compactFields, laidFields, compactFields_eq_laid level rest, compact_eq_laid level value]
    simp [oneLine]

end

mutual

theorem indentedAt_eq_laid (level : Nat) (value : Json) :
    value.indentedAt level = laid manyLines level value := by
  match value with
  | .null | .bool _ | .number _ | .text _ => simp only [indentedAt, laid]
  | .list [] | .object [] => rw [indentedAt, laid]
  | .list (item :: rest) =>
    rw [indentedAt, laid, indentedItems_eq_laid (level + 1) (item :: rest)]
    rfl
  | .object (field :: rest) =>
    rw [indentedAt, laid, indentedFields_eq_laid (level + 1) (field :: rest)]
    rfl

theorem indentedItems_eq_laid (level : Nat) (items : List Json) :
    indentedItems level items = laidItems manyLines level items := by
  match items with
  | [] => rw [indentedItems, laidItems]
  | item :: rest =>
    rw [indentedItems, laidItems, indentedItems_eq_laid level rest, indentedAt_eq_laid level item]
    rfl

theorem indentedFields_eq_laid (level : Nat) (fields : List (String × Json)) :
    indentedFields level fields = laidFields manyLines level fields := by
  match fields with
  | [] => rw [indentedFields, laidFields]
  | (name, value) :: rest =>
    rw [indentedFields, laidFields, indentedFields_eq_laid level rest,
      indentedAt_eq_laid level value]
    rfl

end

/-! ### Reading back -/

theorem skipSpace_append {blank s : List Char} (h : ∀ c ∈ blank, isSpace c = true) :
    skipSpace (blank ++ s) = skipSpace s := List.dropWhile_append_of_pos h

theorem skipSpace_cons {c : Char} (h : isSpace c = false) (s : List Char) :
    skipSpace (c :: s) = c :: s := List.dropWhile_cons_of_neg (by simp [h])

theorem numberEnd_of_blank {blank s : List Char} (h : ∀ c ∈ blank, isSpace c = true)
    (hs : NumberEnd s) : NumberEnd (blank ++ s) := by
  cases blank with
  | nil => exact hs
  | cons c blank =>
    rintro d ⟨⟩
    have hc := h c List.mem_cons_self
    simp only [isSpace, Bool.or_eq_true, beq_iff_eq] at hc
    rcases hc with ((rfl | rfl) | rfl) | rfl <;> decide

theorem numberEnd_cons {c : Char} (h : c = ',' ∨ c = ']' ∨ c = '}') (s : List Char) :
    NumberEnd (c :: s) := by
  rintro d ⟨⟩
  rcases h with rfl | rfl | rfl <;> decide

theorem head_of_readNumber {s rest : List Char} {x : Number} (h : readNumber s = some (x, rest)) :
    ∃ c more, s = c :: more ∧ (c = '-' ∨ Text.isAsciiDigit c = true) := by
  cases s with
  | nil => simp [readNumber, readUnsigned, spanDigits] at h
  | cons c more =>
    refine ⟨c, more, rfl, ?_⟩
    by_cases hm : c = '-'
    · exact .inl hm
    · refine .inr ?_
      by_contra hc
      simp [readNumber, hm, readUnsigned, spanDigits, hc] at h

theorem readValue_of_readNumber {s rest : List Char} {x : Number} (fuel : Nat)
    (h : readNumber s = some (x, rest)) : readValue (fuel + 1) s = some (.number x, rest) := by
  obtain ⟨c, more, rfl, hc⟩ := head_of_readNumber h
  have hne : ∀ d : Char, d ≠ '-' → Text.isAsciiDigit d = false → c ≠ d := by
    rintro d hm hd rfl
    simp [hm, hd] at hc
  rw [readValue, if_neg (hne _ (by decide) (by decide)), if_neg (hne _ (by decide) (by decide)),
    if_neg (hne _ (by decide) (by decide)), if_neg (hne _ (by decide) (by decide)),
    if_neg (hne _ (by decide) (by decide)), if_neg (hne _ (by decide) (by decide)), h]
  rfl

theorem readWord_append (word : String) (value : Json) (tail : List Char) :
    readWord word value (word.toList ++ tail) = some (value, tail) := by
  rw [readWord, if_pos (List.isPrefixOf_iff_prefix.2 (List.prefix_append _ _)),
    ← String.length_toList, List.drop_left]

theorem readValue_quoted (fuel : Nat) (s : String) (tail : List Char) :
    readValue (fuel + 1) (quoted s ++ tail) = some (.text s, tail) := by
  rw [quoted_append, readValue, if_pos rfl, readText_quoted]
  simp

theorem readItems_last {fuel : Nat} {s rest after : List Char} {item : Json}
    (hv : readValue fuel s = some (item, rest)) (hr : skipSpace rest = ']' :: after) :
    readItems (fuel + 1) s = some ([item], after) := by
  simp [readItems, hv, hr]

theorem readItems_more {fuel : Nat} {s rest more after : List Char} {item : Json}
    {items : List Json}
    (hv : readValue fuel s = some (item, rest)) (hr : skipSpace rest = ',' :: more)
    (hm : readItems fuel (skipSpace more) = some (items, after)) :
    readItems (fuel + 1) s = some (item :: items, after) := by
  simp [readItems, hv, hr, hm]

theorem readFields_last {fuel : Nat} {name : String} {s rest after : List Char} {value : Json}
    (hv : readValue fuel (skipSpace s) = some (value, rest)) (hr : skipSpace rest = '}' :: after) :
    readFields (fuel + 1) (quoted name ++ ':' :: s) = some ([(name, value)], after) := by
  rw [quoted_append, readFields, readText_quoted]
  simp [skipSpace_cons (show isSpace ':' = false by decide), hv, hr]

theorem readFields_more {fuel : Nat} {name : String} {s rest more after : List Char} {value : Json}
    {fields : List (String × Json)} (hv : readValue fuel (skipSpace s) = some (value, rest))
    (hr : skipSpace rest = ',' :: more)
    (hm : readFields fuel (skipSpace more) = some (fields, after)) :
    readFields (fuel + 1) (quoted name ++ ':' :: s) = some ((name, value) :: fields, after) := by
  rw [quoted_append, readFields, readText_quoted]
  simp [skipSpace_cons (show isSpace ':' = false by decide), hv, hr, hm]

/-- A value that its text gives back: its numbers are numbers of the format, and its objects list
their fields in order, each name once. -/
inductive Readable : Json → Prop
  | null : Readable .null
  | bool (b : Bool) : Readable (.bool b)
  | number {q : Rat} (exact : IsExact q) : Readable (.number (.finite q))
  | text (s : String) : Readable (.text s)
  | list {items : List Json} (each : ∀ item ∈ items, Readable item) : Readable (.list items)
  | object {fields : List (String × Json)} (ordered : Entries.ofList fields = fields)
      (each : ∀ field ∈ fields, Readable field.2) : Readable (.object fields)

theorem separated_cons (separator : List Char) {pieces : List (List Char)} (h : pieces ≠ [])
    (piece : List Char) : separated separator (piece :: pieces) =
      piece ++ separator ++ separated separator pieces := by
  cases pieces with
  | nil => contradiction
  | cons other rest => rfl

section readable

variable (layout : Layout)

theorem laidItems_ne_nil (level : Nat) {items : List Json} (h : items ≠ []) :
    laidItems layout level items ≠ [] := by
  cases items with
  | nil => contradiction
  | cons item rest => simp [laidItems]

theorem laidFields_ne_nil (level : Nat) {fields : List (String × Json)} (h : fields ≠ []) :
    laidFields layout level fields ≠ [] := by
  cases fields with
  | nil => contradiction
  | cons field rest => simp [laidFields]

theorem head_laid (level : Nat) {value : Json} (hv : value.Readable) :
    ∃ c more, laid layout level value = c :: more ∧ isSpace c = false ∧ c ≠ ']' := by
  cases hv with
  | null => exact ⟨_, _, by rw [laid]; rfl, by decide, by decide⟩
  | bool b => cases b <;> exact ⟨_, _, by rw [laid]; rfl, by decide, by decide⟩
  | @number q exact =>
    have hr : readNumber (numeral (.finite q)) = some (.finite q, []) := by
      simpa using readNumber_numeral exact (show NumberEnd [] by simp [NumberEnd])
    obtain ⟨c, more, hs, hc⟩ := head_of_readNumber hr
    have hne : ∀ d : Char, d ≠ '-' → Text.isAsciiDigit d = false → c ≠ d := by
      rintro d hm hd rfl
      simp [hm, hd] at hc
    refine ⟨c, more, by rw [laid, hs], ?_, hne _ (by decide) (by decide)⟩
    simp [isSpace, hne ' ' (by decide) (by decide), hne '\t' (by decide) (by decide),
      hne '\n' (by decide) (by decide), hne '\r' (by decide) (by decide)]
  | text s => exact ⟨_, _, by rw [laid, quoted, List.cons_append], by decide, by decide⟩
  | @list items each =>
    cases items with
    | nil => exact ⟨_, _, by rw [laid], by decide, by decide⟩
    | cons item rest =>
      exact ⟨_, _, by rw [laid, List.cons_append, List.cons_append], by decide, by decide⟩
  | @object fields ordered each =>
    cases fields with
    | nil => exact ⟨_, _, by rw [laid], by decide, by decide⟩
    | cons field rest =>
      exact ⟨_, _, by rw [laid, List.cons_append, List.cons_append], by decide, by decide⟩

theorem skipSpace_laid {blank : List Char} (hb : ∀ c ∈ blank, isSpace c = true) (level : Nat)
    {value : Json} (hv : value.Readable) (tail : List Char) :
    skipSpace (blank ++ (laid layout level value ++ tail)) = laid layout level value ++ tail := by
  obtain ⟨c, more, hl, hc, -⟩ := head_laid layout level hv
  rw [skipSpace_append hb, hl, List.cons_append, skipSpace_cons hc]

theorem skipSpace_quoted {blank : List Char} (hb : ∀ c ∈ blank, isSpace c = true) (s : String)
    (tail : List Char) : skipSpace (blank ++ (quoted s ++ tail)) = quoted s ++ tail := by
  rw [skipSpace_append hb, quoted_append, skipSpace_cons (by decide)]

theorem readValue_list {fuel : Nat} {s after : List Char} {items : List Json}
    (hs : (skipSpace s).head? ≠ some ']')
    (hi : readItems fuel (skipSpace s) = some (items, after)) :
    readValue (fuel + 1) ('[' :: s) = some (.list items, after) := by
  rw [readValue, if_neg (by decide), if_pos rfl]
  generalize skipSpace s = body at hs hi ⊢
  split
  · exact absurd rfl hs
  · rw [hi]
    rfl

theorem readValue_object {fuel : Nat} {s after : List Char} {fields : List (String × Json)}
    (hs : (skipSpace s).head? ≠ some '}')
    (hi : readFields fuel (skipSpace s) = some (fields, after)) :
    readValue (fuel + 1) ('{' :: s) = some (.object (Entries.ofList fields), after) := by
  rw [readValue, if_neg (by decide), if_neg (by decide), if_pos rfl]
  generalize skipSpace s = body at hs hi ⊢
  split
  · exact absurd rfl hs
  · rw [hi]
    rfl

variable {layout} (hb : layout.Blank)

include hb

mutual

theorem readValue_laid (level : Nat) (value : Json) (hv : value.Readable) (fuel : Nat)
    (hf : 2 * (laid layout level value).length ≤ fuel) (tail : List Char) (ht : NumberEnd tail) :
    readValue fuel (laid layout level value ++ tail) = some (value, tail) := by
  obtain ⟨fuel, rfl⟩ : ∃ less, fuel = less + 1 := by
    obtain ⟨c, more, hl, -, -⟩ := head_laid layout level hv
    refine Nat.exists_eq_add_one_of_ne_zero fun h => ?_
    simp [h, hl] at hf
  match value, hv with
  | .null, _ =>
    rw [laid]
    exact readWord_append "null" .null tail
  | .bool true, _ =>
    rw [laid, if_pos rfl]
    exact readWord_append "true" (.bool true) tail
  | .bool false, _ =>
    rw [laid, if_neg Bool.false_ne_true]
    exact readWord_append "false" (.bool false) tail
  | .number _, .number exact =>
    rw [laid]
    exact readValue_of_readNumber fuel (readNumber_numeral exact ht)
  | .text s, _ =>
    rw [laid]
    exact readValue_quoted fuel s tail
  | .list [], _ => simp [laid, readValue, skipSpace_cons (show isSpace ']' = false by decide)]
  | .object [], _ =>
    simp [laid, readValue, skipSpace_cons (show isSpace '}' = false by decide)]
  | .list (item :: rest), .list each =>
    rw [laid] at hf ⊢
    simp only [List.length_append, List.length_cons, List.length_nil] at hf
    obtain ⟨hread, hhead⟩ :=
      readItems_laid (level + 1) (item :: rest) (List.cons_ne_nil _ _) each fuel
      (by omega) (hb.line level) tail
    simp only [List.cons_append, List.append_assoc, List.nil_append]
    exact readValue_list hhead hread
  | .object (field :: rest), .object ordered each =>
    rw [laid] at hf ⊢
    simp only [List.length_append, List.length_cons, List.length_nil] at hf
    obtain ⟨hread, hhead⟩ :=
      readFields_laid (level + 1) (field :: rest) (List.cons_ne_nil _ _) each fuel
      (by omega) (hb.line level) tail
    simp only [List.cons_append, List.append_assoc, List.nil_append]
    rw [readValue_object hhead hread, ordered]

theorem readItems_laid (level : Nat) (items : List Json) (hne : items ≠ [])
    (each : ∀ item ∈ items, Readable item) (fuel : Nat)
    (hf : 2 * (separated [','] (laidItems layout level items)).length < fuel)
    {blank : List Char} (hblank : ∀ c ∈ blank, isSpace c = true) (tail : List Char) :
    readItems fuel (skipSpace (separated [','] (laidItems layout level items) ++
      (blank ++ ']' :: tail))) = some (items, tail) ∧
    (skipSpace (separated [','] (laidItems layout level items) ++
      (blank ++ ']' :: tail))).head? ≠ some ']' := by
  obtain ⟨fuel, rfl⟩ : ∃ less, fuel = less + 1 := Nat.exists_eq_add_one_of_ne_zero (by omega)
  match items with
  | [] => contradiction
  | [item] =>
    have hv := each item List.mem_cons_self
    obtain ⟨c, more, hl, -, hc⟩ := head_laid layout level hv
    simp only [laidItems, separated, List.append_assoc, List.length_append] at hf ⊢
    rw [skipSpace_laid layout (hb.line level) level hv]
    refine ⟨readItems_last (readValue_laid level item hv fuel (by omega) _
      (numberEnd_of_blank hblank (numberEnd_cons (by simp) tail))) ?_, by simp [hl, hc]⟩
    rw [skipSpace_append hblank, skipSpace_cons (by decide)]
  | item :: next :: rest =>
    have hv := each item List.mem_cons_self
    obtain ⟨c, more, hl, -, hc⟩ := head_laid layout level hv
    rw [laidItems,
      separated_cons _ (laidItems_ne_nil layout level (List.cons_ne_nil next rest))] at hf ⊢
    simp only [List.length_append, List.length_cons, List.length_nil] at hf
    obtain ⟨hread, -⟩ := readItems_laid level (next :: rest) (List.cons_ne_nil _ _)
      (fun other hm => each other (List.mem_cons_of_mem _ hm)) fuel (by omega) hblank tail
    simp only [List.append_assoc, List.cons_append, List.nil_append]
    rw [skipSpace_laid layout (hb.line level) level hv]
    exact ⟨readItems_more (readValue_laid level item hv fuel (by omega) _
      (numberEnd_cons (by simp) _))
      (skipSpace_cons (by decide) _) hread, by simp [hl, hc]⟩

theorem readFields_laid (level : Nat) (fields : List (String × Json)) (hne : fields ≠ [])
    (each : ∀ field ∈ fields, Readable field.2) (fuel : Nat)
    (hf : 2 * (separated [','] (laidFields layout level fields)).length < fuel)
    {blank : List Char} (hblank : ∀ c ∈ blank, isSpace c = true) (tail : List Char) :
    readFields fuel (skipSpace (separated [','] (laidFields layout level fields) ++
      (blank ++ '}' :: tail))) = some (fields, tail) ∧
    (skipSpace (separated [','] (laidFields layout level fields) ++
      (blank ++ '}' :: tail))).head? ≠ some '}' := by
  obtain ⟨fuel, rfl⟩ : ∃ less, fuel = less + 1 := Nat.exists_eq_add_one_of_ne_zero (by omega)
  match fields with
  | [] => contradiction
  | [(name, value)] =>
    have hv := each _ List.mem_cons_self
    simp only [laidFields, separated, List.append_assoc, List.cons_append, List.length_append,
      List.length_cons] at hf ⊢
    rw [skipSpace_quoted (hb.line level)]
    have hvalue : readValue fuel (skipSpace (layout.gap ++ (laid layout level value ++
        (blank ++ '}' :: tail)))) = some (value, blank ++ '}' :: tail) := by
      rw [skipSpace_laid layout hb.gap level hv]
      exact readValue_laid level value hv fuel (by omega) _
        (numberEnd_of_blank hblank (numberEnd_cons (by simp) tail))
    refine ⟨readFields_last hvalue ?_, by simp [quoted]⟩
    rw [skipSpace_append hblank, skipSpace_cons (by decide)]
  | (name, value) :: next :: rest =>
    have hv := each _ List.mem_cons_self
    rw [laidFields,
      separated_cons _ (laidFields_ne_nil layout level (List.cons_ne_nil next rest))] at hf ⊢
    simp only [List.length_append, List.length_cons, List.length_nil] at hf
    obtain ⟨hread, -⟩ := readFields_laid level (next :: rest) (List.cons_ne_nil _ _)
      (fun other hm => each other (List.mem_cons_of_mem _ hm)) fuel (by omega) hblank tail
    simp only [List.append_assoc, List.cons_append, List.nil_append]
    rw [skipSpace_quoted (hb.line level)]
    refine ⟨readFields_more ?_ (skipSpace_cons (by decide) _) hread, by simp [quoted]⟩
    rw [skipSpace_laid layout hb.gap level hv]
    exact readValue_laid level value hv fuel (by omega) _ (numberEnd_cons (by simp) _)

end

theorem read?_laid {value : Json} (hv : value.Readable) :
    read? (laid layout 0 value) = some value := by
  have hskip : skipSpace (laid layout 0 value) = laid layout 0 value := by
    simpa using skipSpace_laid layout (List.forall_mem_nil _) 0 hv []
  have hread : readValue (2 * (laid layout 0 value).length + 2) (laid layout 0 value) =
      some (value, []) := by
    simpa using readValue_laid hb 0 value hv (2 * (laid layout 0 value).length + 2)
      (by omega) [] (by simp [NumberEnd])
  rw [read?, hskip, hread]
  rfl

end readable

theorem blank_oneLine : oneLine.Blank := ⟨by simp [oneLine], by simp [oneLine]⟩

theorem blank_manyLines : manyLines.Blank where
  line level c hc := by
    rcases List.mem_cons.1 hc with rfl | hc
    · decide
    · rw [List.eq_of_mem_replicate hc]
      decide
  gap c hc := by
    rw [List.mem_singleton.1 hc]
    decide

theorem parse?_render {value : Json} (hv : value.Readable) : parse? value.render = some value := by
  rw [parse?, render, String.toList_ofList, compact_eq_laid 0, read?_laid blank_oneLine hv]

theorem parse?_indented {value : Json} (hv : value.Readable) :
    parse? value.indented = some value := by
  rw [parse?, indented, String.toList_ofList, indentedAt_eq_laid, read?_laid blank_manyLines hv]

end EndpointAtlas.Json
