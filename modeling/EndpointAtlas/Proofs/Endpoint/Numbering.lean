import EndpointAtlas.Proofs.Endpoint.Prefilter
import EndpointAtlas.Proofs.Endpoint.Range
import EndpointAtlas.Proofs.Text.Inserted
import EndpointAtlas.Proofs.Text.Numbering

/-!
Lines as detection and slicing number them. Main statements: the entries of a file's list of lines
are numbered as detection numbers the lines of its text, and an endpoint that raw text shows in
a class has the line of its decorator.
-/

set_option autoImplicit false

namespace EndpointAtlas

/-! ### Entries -/

namespace Text

/-- A list of lines has as many entries as a text has lines, and what stands at an offset and ends
no line stands in the entry of its line's number, as far behind the start as in the text. -/
structure AreNumbered (text : String) (entries : List String) : Prop where
  count : entries.length = lineAt text.toList (units text.toList)
  placed : ∀ offset unit, (encoded text.toList)[offset]? = some unit →
    ¬IsLineEnd text.toList offset → ∃ start entry, StartsLine text.toList start offset ∧
    entries[lineAt text.toList offset - 1]? = some entry ∧
      (encoded entry.toList)[offset - start]? = some unit

theorem areNumbered_lineTexts (text : String) : AreNumbered text (lineTexts text) where
  count := by rw [length_lineTexts, lineAt_end]
  placed offset unit h inner := by
    obtain ⟨start, line, starts, entry, column⟩ := getElem?_lines h inner
    refine ⟨start, String.ofList line, starts, ?_, by rwa [String.toList_ofList]⟩
    rw [lineTexts, List.getElem?_map, entry, Option.map_some]

/-- Slicing a file reads the lines of its text numbered as detection numbers them. The numbers of
what is left of a text behind an offset go on from that of the line there, also inside of a
character; between characters what is left is a text again. -/
theorem lines_agree (text : String) :
    AreNumbered text (lineTexts text) ∧
      (∀ a b, a + b ≤ units text.toList →
        lineAt text.toList a + lineIn ((encoded text.toList).drop a) b - 1 =
          lineAt text.toList (a + b)) ∧
      (∀ a b, IsBoundary text.toList a →
        lineIn ((encoded text.toList).drop a) b = lineAt (dropUnits a text.toList) b) ∧
      ∀ (files : FileTree) (path : String), Endpoint.sourceOf files path = some text →
        Bundle.linesOf files path = some (lineTexts text) := by
  refine ⟨areNumbered_lineTexts text, fun a b _ => ?_, fun a b h =>
    lineIn_drop h b, fun files path h => ?_⟩
  · rw [← lineIn_encoded, ← lineIn_encoded, lineIn_add]
  · exact Bundle.linesOf_of_sourceOf h

/-- A text with both line ends, a carriage return inside of a line, and a character that takes two
units. -/
def mixedEnds : String := String.ofList ("a\r\nb\rc\n".toList ++ [Char.ofNat 0x1F600, 'd'])

def mixedTree : FileTree := ⟨"/", [(["a.js"], .text mixedEnds)], []⟩

theorem lines_agree_mixed :
    (¬IsLineEnd mixedEnds.toList 4 ∧
      ∃ start entry, StartsLine mixedEnds.toList start 4 ∧
        (lineTexts mixedEnds)[lineAt mixedEnds.toList 4 - 1]? = some entry ∧
        (encoded entry.toList)[4 - start]? = some '\r'.toNat) ∧
      lineAt mixedEnds.toList 8 + lineIn ((encoded mixedEnds.toList).drop 8) 2 - 1 =
        lineAt mixedEnds.toList 10 ∧
      lineIn ((encoded mixedEnds.toList).drop 3) 4 = lineAt (dropUnits 3 mixedEnds.toList) 4 ∧
      Bundle.linesOf mixedTree "/a.js" = some (lineTexts mixedEnds) := by
  have inner : ¬IsLineEnd mixedEnds.toList 4 := by decide +kernel
  obtain ⟨numbered, onward, between, sliced⟩ := lines_agree mixedEnds
  exact ⟨⟨inner, numbered.placed 4 '\r'.toNat (by decide +kernel) inner⟩,
    onward 8 2 (by decide +kernel),
    between 3 4 (by decide +kernel), sliced mixedTree "/a.js" (by decide +kernel)⟩

end Text

/-! ### Classes in raw text -/

theorem Text.exists_slice (s : List Char) (start stop : Nat) :
    ∃ back, s = takeUnits start s ++ (slice s start stop ++ back) :=
  ⟨dropUnits (stop - start) (dropUnits start s), by
    rw [slice, takeUnits_append_dropUnits, takeUnits_append_dropUnits]⟩

namespace TextController

variable {source : List Char} {filePath : String} {e : Endpoint}

theorem nextClass_suffix (s : List Char) : nextClass s <:+ s := by
  induction s with
  | nil => exact List.suffix_rfl
  | cons c rest ih =>
    rw [nextClass]
    split
    · exact List.suffix_rfl
    · exact ih.trans (List.suffix_cons c rest)

theorem exists_opening {s : List Char} (h : s.dropWhile (· ≠ '{') ≠ []) :
    ∃ back, s.dropWhile (· ≠ '{') = '{' :: back := by
  have stops := List.head?_dropWhile_not (· ≠ '{') s
  obtain ⟨c, back, opened⟩ := List.exists_cons_of_ne_nil h
  rw [opened] at stops
  have brace : c = '{' := by simpa using stops
  exact ⟨back, by rw [opened, brace]⟩

theorem block_of_body? {offset start : Nat} {body : List Char}
    (h : body? source offset = some (start, body)) :
    ∃ front back stop, source = front ++ '{' :: back ∧ Text.units front = start ∧
      Text.matchingBrace? source start = some stop ∧ body = Text.slice source start stop := by
  unfold body? at h
  simp only at h
  split at h
  · cases h
  · rename_i nonempty
    obtain ⟨back, opened⟩ :=
      exists_opening (s := nextClass (Text.dropUnits offset source)) (by simpa using nonempty)
    have left : '{' :: back <:+ source := opened ▸
      (List.dropWhile_suffix _).trans ((nextClass_suffix _).trans
        ⟨Text.takeUnits offset source, Text.takeUnits_append_dropUnits offset source⟩)
    obtain ⟨front, rfl⟩ := left
    have place : Text.units (front ++ '{' :: back) - Text.units ('{' :: back) =
        Text.units front := by
      rw [Text.units_append, Nat.add_sub_cancel]
    rw [opened, place] at h
    obtain ⟨stop, found, pair⟩ := Option.map_eq_some_iff.1 h
    cases pair
    exact ⟨front, back, stop, rfl, rfl, found, rfl⟩

theorem line_of_mem_endpoints (h : e ∈ endpoints source filePath) :
    ∃ front part back before verb count, source = front ++ (part ++ back) ∧
    verb? before part = some (verb, count) ∧
      e.method = verb.1 ∧ e.lines = ⟨Text.lineAt source (Text.units front),
        Text.lineAt source (Text.units front)⟩ := by
  obtain ⟨controller, -, hc⟩ := List.mem_flatMap.1 h
  split at hc
  · rename_i start body hbody
    obtain ⟨verb, hverb, rfl⟩ := List.mem_map.1 hc
    obtain ⟨outer, inner, stop, hs, rfl, -, rfl⟩ := block_of_body? hbody
    obtain ⟨front, part, before, count, hsplit, hoffset, found⟩ :=
      Endpoint.place_of_mem_findAll hverb
    rw [Nat.zero_add] at hoffset
    have starts : Text.IsBoundary source (Text.units outer) :=
      hs ▸ Text.isBoundary_append outer ('{' :: inner)
    have inside : verb.offset ≤ Text.units (Text.slice source (Text.units outer) stop) := by
      rw [hsplit, hoffset, Text.units_append]
      omega
    have line := Text.lineAt_slice starts inside
    have one := Text.one_le_lineAt source (Text.units outer)
    obtain ⟨back, whole⟩ := Text.exists_slice source (Text.units outer) stop
    have before_body : Text.takeUnits (Text.units outer) source =
        outer := by rw [hs, Text.takeUnits_units]
    rw [before_body, hsplit] at whole
    refine ⟨outer ++ front, part, back, before, verb.value, count, ?_, found, rfl, ?_⟩
    · rw [List.append_assoc, ← List.append_assoc front, ← whole]
    · rw [Text.units_append, ← hoffset, ← line]
      simp only [LineRange.mk.injEq, and_self]
      omega
  · cases hc

end TextController

end EndpointAtlas
