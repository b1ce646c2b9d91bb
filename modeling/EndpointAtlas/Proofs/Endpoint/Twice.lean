import EndpointAtlas.Proofs.Endpoint.Prefilter
import EndpointAtlas.Proofs.Endpoint.Range
import EndpointAtlas.Proofs.Syntax.Walk
import EndpointAtlas.Proofs.Text.Overwritten
import Mathlib.Tactic.MkIffOfInductiveProp

/-!
Registrations that the tree and the raw text both show. Reading is a parameter here: of a tree this
only takes that calls are laid out over the text as the language spells them. Main statement: the
two records of a registration have the same method and line, so detection keeps one of them exactly
if they have the same route. The tree takes the first literal among the arguments, the raw text what
is quoted right behind the parenthesis.
-/

set_option autoImplicit false

namespace EndpointAtlas

namespace Text

/-! ### Offsets -/

def pastBlanks (s : List Char) (offset : Nat) : Nat :=
  offset + units ((dropUnits offset s).takeWhile isBlank)

theorem pastBlanks_eq {s : List Char} (front gap rest : List Char) (hs : s = front ++ (gap ++ rest))
    (hg : ∀ c ∈ gap, isBlank c = true) (hr : ∀ c ∈ rest.head?, isBlank c = false) :
    pastBlanks s (units front) = units (front ++ gap) ∧
    dropUnits (units (front ++ gap)) s = rest := by
  rw [pastBlanks, hs, dropUnits_units, takeWhile_append_stop hg hr, units_append,
    ← List.append_assoc, ← units_append, dropUnits_units]
  exact ⟨rfl, rfl⟩

theorem dropUnits_pastBlanks (front rest : List Char) :
    dropUnits (pastBlanks (front ++ rest) (units front)) (front ++ rest) = skipBlanks rest := by
  have h := dropUnits_units (front ++ rest.takeWhile isBlank) (rest.dropWhile isBlank)
  rw [List.append_assoc, List.takeWhile_append_dropWhile, units_append] at h
  rw [pastBlanks, dropUnits_units, h, skipBlanks]

theorem width_of_isNameChar {c : Char} (h : isNameChar c = true) : width c = 1 := by
  simp only [isNameChar, isWordChar, isAsciiLetter, isAsciiDigit, Bool.or_eq_true, Bool.and_eq_true,
    decide_eq_true_eq, beq_iff_eq, Char.le_def, UInt32.le_iff_toNat_le, Char.ext_iff,
    UInt32.ext_iff] at h
  have hc : c.val.toNat = c.toNat := rfl
  simp [hc] at h
  rw [width, if_pos (by omega)]

theorem units_of_isNameChar {s : List Char} (h : ∀ c ∈ s, isNameChar c = true) :
    units s = s.length := by
  induction s with
  | nil => rfl
  | cons c rest ih =>
    rw [units_cons, ih fun d hd => h d (List.mem_cons_of_mem _ hd),
      width_of_isNameChar (h c List.mem_cons_self), List.length_cons, Nat.add_comm]

theorem eq_length_of_takeUnits {n : Nat} {s t : List Char} (hs : ∀ c ∈ s, isNameChar c = true)
    (ht : t ≠ []) (h : takeUnits n (s ++ t) = s) : n = s.length := by
  induction s generalizing n with
  | nil =>
    obtain ⟨c, t, rfl⟩ := List.exists_cons_of_ne_nil ht
    by_cases hn : n = 0
    · exact hn
    · simp [takeUnits, hn] at h
  | cons c rest ih =>
    by_cases hn : n = 0
    · simp [hn] at h
    · rw [List.cons_append, takeUnits, if_neg hn, List.cons.injEq,
        width_of_isNameChar (hs c List.mem_cons_self)] at h
      have := ih (fun d hd => hs d (List.mem_cons_of_mem _ hd)) h.2
      rw [List.length_cons]
      omega

/-! ### Quotes -/

theorem interpolates_quoted (body : List Char) :
    interpolates ('\x60' :: (body ++ ['\x60'])) = interpolates body := by
  rw [Bool.eq_iff_iff, interpolates, interpolates, contains_iff_isInfix, contains_iff_isInfix]
  refine ⟨fun h => ?_, fun h => h.trans ⟨['\x60'], ['\x60'], by simp⟩⟩
  rcases List.infix_cons_iff.1 h with h | h
  · rw [List.cons_prefix_cons] at h
    exact absurd h.1 (by decide)
  · rcases List.infix_concat_iff.1 h with h | h
    · rcases List.suffix_concat_iff.1 h with h | ⟨t, ht, -⟩
      · cases h
      · have := congrArg List.getLast? ht
        simp at this
    · exact h

theorem not_isBlank_of_isQuote {c : Char} (h : isQuote c = true) : isBlank c = false := by
  simp only [isQuote, Bool.or_eq_true, beq_iff_eq] at h
  rcases h with (rfl | rfl) | rfl <;> decide

theorem unquote_quoted {quote : Char} (h : isQuote quote = true) (body : List Char) :
    unquote (quote :: (body ++ [quote])) = body := by
  have hb := not_isBlank_of_isQuote h
  have htrim : trim (quote :: (body ++ [quote])) = quote :: (body ++ [quote]) := by
    simp [trim, trimStart, trimEnd, hb]
  simp [unquote, htrim, h]

end Text

namespace TextCall

theorem literal?_eq_some {s body after : List Char} {quote : Char} :
    literal? s = some (quote, body, after) ↔
      Text.isQuote quote = true ∧ quote ∉ body ∧ s = quote :: (body ++ quote :: after) := by
  constructor
  · intro h
    cases s with
    | nil => cases h
    | cons first rest =>
      simp only [literal?] at h
      split at h
      · rename_i hq
        have hsplit :=
          List.takeWhile_append_dropWhile (p := fun c => decide (c ≠ first)) (l := rest)
        split at h
        · rename_i last after' hdrop
          have hlast : last = first := by
            have := List.head?_dropWhile_not (fun c => decide (c ≠ first)) rest
            rw [hdrop] at this
            simpa using this
          simp only [Option.some.injEq, Prod.mk.injEq] at h
          obtain ⟨rfl, rfl, rfl⟩ := h
          refine ⟨hq, fun hm => ?_, by rw [← hlast, ← hdrop, hlast, hsplit]⟩
          simpa using List.mem_takeWhile_imp hm
        · cases h
      · cases h
  · rintro ⟨hq, hbody, rfl⟩
    have hall : ∀ c ∈ body, decide (c ≠ quote) = true := fun c hc => by
      simpa using fun he : c = quote => hbody (he ▸ hc)
    have hstop : ∀ c ∈ (quote :: after).head?, decide (c ≠ quote) = false := by simp
    simp only [literal?, hq, if_true, Text.dropWhile_append_stop hall hstop,
      Text.takeWhile_append_stop hall hstop]

/-- Does a text start with a literal that raw text reads whole: without its quote inside, or as a
template that interpolates before that quote? -/
def ClosesOnce (text : List Char) : Prop :=
  ∃ found ∈ literal? text, found.2.2 = [] ∨ found.1 = '\x60' ∧ Text.interpolates found.2.1 = true

instance (text : List Char) : Decidable (ClosesOnce text) :=
  inferInstanceAs (Decidable (∃ found ∈ literal? text, _))

/-- The route that raw text gives a call whose parenthesis stands at an offset. -/
def routeAt (source : List Char) (offset : Nat) : Option String :=
  routeIn (Text.dropUnits (offset + 1) source)

theorem routeAt_eq {source upto inside : List Char} (hs : source = upto ++ '(' :: inside) :
    routeAt source (Text.units upto) = routeIn inside := by
  have h := Text.dropUnits_units (upto ++ ['(']) inside
  rw [Text.units_append, List.append_assoc] at h
  rw [routeAt, hs]
  exact congrArg routeIn h

def endpoint (source : List Char) (filePath : String) (call : Text.Found TextCall) : Endpoint :=
  { method := call.value.method
    route := call.value.route
    filePath := filePath
    lines := ⟨Text.lineAt source call.offset, Text.lineAt source call.stop⟩
    tier := .text
    handlerNames := [] }

theorem calledInText_eq (source : List Char) (filePath : String) :
    Endpoint.calledInText source filePath = (all source).map (endpoint source filePath) := rfl

theorem parts_of_mem_all {source : List Char} {call : Text.Found TextCall} (h : call ∈ all source) :
    ∃ front name gap word gap' gap'' inside,
      source = front ++ (name ++ (gap ++ '.' :: (gap' ++ (word ++ (gap'' ++ '(' :: inside))))) ∧
      call.offset = Text.units front ∧ call.value.object = String.ofList name ∧
      call.value.route = routeIn inside ∧ (∀ c ∈ name, Text.isNameChar c = true) ∧
      (∀ c ∈ gap, Text.isBlank c = true) ∧ (∀ c ∈ gap', Text.isBlank c = true) ∧
      (∀ c ∈ gap'', Text.isBlank c = true) ∧ IsVerb word := by
  obtain ⟨found, hf, hcall⟩ := List.mem_filterMap.1 h
  obtain ⟨front, rest, before, count, rfl, ho, hh⟩ := Endpoint.place_of_mem_findAll hf
  obtain ⟨-, -, plain, -, -, gap, word, gap', gap'', inside, rfl, hg, hg', hg'', verb, hroute⟩ :=
    parts_of_here hh
  simp only [Option.ite_none_right_eq_some, Option.some.injEq] at hcall
  obtain ⟨-, rfl⟩ := hcall
  rw [Nat.zero_add] at ho
  exact ⟨front, _, gap, word, gap', gap'', inside, rfl, ho, rfl, hroute, plain, hg, hg',
    hg'', _, verb⟩

end TextCall

namespace Tree

/-- How a call is laid out over the text: it starts with what it calls, and that, if a member, with
its object; a member ends with the name behind its dot; a parenthesis behind what is called opens
the arguments; and among these templates, unlike strings, start with a backquote. -/
@[mk_iff] structure LaidOut (source : List Char) (call : Tree) : Prop where
  callee : ∀ c ∈ call.child? .callee, c.span.start = call.span.start
  object : ∀ c ∈ call.child? .callee, ∀ o ∈ c.child? .object, o.span.start = c.span.start
  member : ∀ c ∈ call.child? .callee, ∀ o ∈ c.child? .object,
    let dot := Text.pastBlanks source o.span.stop
    let start := Text.pastBlanks source (dot + 1)
    let rest := Text.dropUnits start source
    let name := rest.takeWhile Text.isNameChar
    (Text.dropUnits dot source).head? = some '.' → name ≠ [] →
      (rest.drop name.length).head?.any (fun c => Text.isBlank c || c == '(') = true →
      c.span.stop = start + Text.units name
  opening : ∀ c ∈ call.child? .callee,
    (Text.dropUnits (Text.pastBlanks source c.span.stop) source).head? = some '(' →
      ∃ a ∈ call.child? .arguments, a.span.start = Text.pastBlanks source c.span.stop
  quotes : ∀ a ∈ call.child? .arguments, ∀ t ∈ a.children,
    (t.kind = .template → (t.textIn source).head? = some '\x60') ∧
      (t.kind = .string → (t.textIn source).head? ≠ some '\x60')

/-- Do the arguments start, right behind the parenthesis, with a literal that raw text reads
whole? -/
def LeadsPlainly (source : List Char) (arguments : Tree) : Prop :=
  ∃ first ∈ arguments.children.head?, (first.kind = .string ∨ first.kind = .template) ∧
    first.span.start = Text.pastBlanks source (arguments.span.start + 1) ∧
    TextCall.ClosesOnce (first.textIn source)

instance (source : List Char) (call : Tree) : Decidable (call.LaidOut source) :=
  decidable_of_iff _ (laidOut_iff source call).symm

instance (source : List Char) (arguments : Tree) : Decidable (arguments.LeadsPlainly source) :=
  inferInstanceAs (Decidable (∃ first ∈ arguments.children.head?, _))

variable {source : List Char} {call arguments : Tree} (laid : call.LaidOut source)

include laid

theorem LeadsPlainly.route {front inside : List Char} (leads : arguments.LeadsPlainly source)
    (ha : call.child? .arguments = some arguments) (hs : source = front ++ '(' :: inside)
    (ho : arguments.span.start = Text.units front) :
    arguments.firstLiteral? source = TextCall.routeIn inside := by
  obtain ⟨first, hfirst, hkind, hstart, ⟨quote, body, after⟩, hliteral, hclose⟩ := leads
  obtain ⟨rest, hchildren⟩ : ∃ rest, arguments.children = first :: rest := by
    cases hc : arguments.children <;> simp_all
  have hquotes := laid.quotes arguments ha first (by simp [hchildren])
  have hat : Text.dropUnits first.span.start source = Text.skipBlanks inside := by
    have := Text.dropUnits_pastBlanks (front ++ ['(']) inside
    rw [Text.units_append, List.append_assoc] at this
    rwa [hstart, ho, hs]
  obtain ⟨tail, htail⟩ : ∃ tail, Text.skipBlanks inside = first.textIn source ++ tail := by
    rw [← hat]
    exact ⟨_, (Text.takeUnits_append_dropUnits _ _).symm⟩
  obtain ⟨hq, hbody, htext⟩ := TextCall.literal?_eq_some.1 hliteral
  have hinside : TextCall.literal? (Text.skipBlanks inside) = some (quote, body, after ++ tail) :=
    TextCall.literal?_eq_some.2 ⟨hq, hbody, by rw [htail, htext]; simp⟩
  have hfind : (arguments.children.find? fun a => a.kind = .string ∨ a.kind = .template) =
      some first := by
    rw [hchildren, List.find?_cons_of_pos (by simpa using hkind)]
  simp only [firstLiteral?, hfind, TextCall.routeIn, hinside]
  rcases hkind with hk | hk
  · have hquote : quote ≠ '\x60' := fun he => hquotes.2 hk (by rw [htext, he]; rfl)
    have hafter : after = [] := hclose.resolve_right fun h => hquote h.1
    subst hafter
    simp [hk, literal, htext, Text.unquote_quoted hq, hquote]
  · have hquote : quote = '\x60' := by
      have := hquotes.1 hk
      rw [htext] at this
      simpa using this
    subst hquote
    cases hi : Text.interpolates body with
    | true =>
      have hwhole : Text.interpolates (first.textIn source) = true := by
        rw [Text.interpolates, Text.contains_iff_isInfix] at hi ⊢
        rw [htext]
        exact hi.trans ⟨['\x60'], '\x60' :: after, by simp⟩
      simp [hk, Text.templateText?, hwhole]
    | false =>
      have hafter : after = [] := hclose.resolve_right fun h => by simp [hi] at h
      subst hafter
      simp [hk, Text.templateText?, htext, Text.interpolates_quoted, hi, Text.unquote_quoted hq]

theorem LaidOut.start_arguments {callee object : Tree}
    {front name gap word gap' gap'' inside : List Char}
    (hcallee : call.child? .callee = some callee) (hobject : callee.child? .object = some object)
    (hs : source = front ++ (name ++ (gap ++ '.' :: (gap' ++ (word ++ (gap'' ++ '(' :: inside))))))
    (start : call.span.start = Text.units front) (bare : object.textIn source = name)
    (plain : ∀ c ∈ name, Text.isNameChar c = true) (hg : ∀ c ∈ gap, Text.isBlank c = true)
    (hg' : ∀ c ∈ gap', Text.isBlank c = true) (hg'' : ∀ c ∈ gap'', Text.isBlank c = true)
    (verb : TextCall.IsVerb word) :
    ∃ arguments upto, call.child? .arguments = some arguments ∧ source = upto ++ '(' :: inside ∧
      arguments.span.start = Text.units upto := by
  have hstart : object.span.start = Text.units front := by
    rw [laid.object callee hcallee object hobject, laid.callee callee hcallee, start]
  have hletters := TextCall.isNameChar_of_isVerb verb
  -- the object ends behind its name
  have hstop : object.span.stop = Text.units (front ++ name) := by
    have hlength : object.span.stop - object.span.start = name.length := by
      refine Text.eq_length_of_takeUnits
        (t := gap ++ '.' :: (gap' ++ (word ++ (gap'' ++ '(' :: inside)))) plain
        (by simp) ?_
      rw [Tree.textIn, Span.textIn, Text.slice, hstart, hs, Text.dropUnits_units] at bare
      rwa [hstart]
    have := object.span.ordered
    rw [Text.units_append, Text.units_of_isNameChar plain]
    omega
  obtain ⟨hdot, hfromDot⟩ := Text.pastBlanks_eq (s := source) (front ++ name) gap
    ('.' :: (gap' ++ (word ++ (gap'' ++ '(' :: inside)))) (by simp [hs]) hg
    (by simp [TextCall.not_isBlank_dot])
  rw [← hstop] at hdot
  obtain ⟨first, letters, hword⟩ := List.exists_cons_of_ne_nil (TextCall.isVerb_ne_nil verb)
  have hfirst : Text.isBlank first = false :=
    TextCall.not_isBlank_of_isNameChar (hletters first (by simp [hword]))
  obtain ⟨hname, hfromName⟩ := Text.pastBlanks_eq (s := source) (front ++ name ++ gap ++ ['.']) gap'
    (word ++ (gap'' ++ '(' :: inside)) (by simp [hs]) hg' (by simp [hword, hfirst])
  -- the member ends behind the word of the method
  have hcalleeStop :
      callee.span.stop = Text.units (front ++ name ++ gap ++ ['.'] ++ gap' ++ word) := by
    have hends : ∀ c ∈ (gap'' ++ '(' :: inside).head?, Text.isNameChar c = false := by
      cases gap'' with
      | nil => simp; decide
      | cons c _ => simpa using Text.not_isNameChar_of_isBlank (hg'' c List.mem_cons_self)
    have hbehindDot : Text.pastBlanks source object.span.stop + 1 =
        Text.units (front ++ name ++ gap ++ ['.']) := by
      have hone : Text.width '.' = 1 := by decide
      simp [hdot, hone]
      omega
    have h := laid.member callee hcallee object hobject
    simp only [hbehindDot, hname, hfromName, Text.takeWhile_append_stop hletters hends,
      List.drop_left] at h
    rw [Text.units_append _ word]
    refine h (by rw [hdot, hfromDot]; rfl) (TextCall.isVerb_ne_nil verb) ?_
    cases gap'' with
    | nil => simp
    | cons c _ => simp [hg'' c List.mem_cons_self]
  obtain ⟨hopen, hfromOpen⟩ := Text.pastBlanks_eq (s := source)
    (front ++ name ++ gap ++ ['.'] ++ gap' ++ word) gap'' ('(' :: inside)
    (by simp [hs]) hg'' (by simp; decide)
  rw [← hcalleeStop] at hopen
  obtain ⟨arguments, harguments, ho⟩ := laid.opening callee hcallee
    (by rw [hopen, hfromOpen]; rfl)
  exact ⟨arguments, front ++ name ++ gap ++ ['.'] ++ gap' ++ word ++ gap'',
    harguments, by simp [hs], by rw [ho, hopen]⟩

end Tree

/-! ### Detection -/

namespace Endpoint

theorem key_eq_iff {a b : Endpoint} (method : a.method = b.method)
    (line : a.lines.first = b.lines.first) : a.key = b.key ↔ a.route = b.route := by
  constructor
  · intro h
    rw [key, key, identity, identity, method, line] at h
    have hroute : (Json.optionalText a.route).compact = (Json.optionalText b.route).compact := by
      have := congrArg String.toList h
      simpa [keyOf, Json.render, Json.compact, Json.compactItems, Json.separated] using this
    have hzero : keyOf (b.method, a.route, 0) = keyOf (b.method, b.route, 0) := by
      simp [keyOf, Json.render, Json.compact, Json.compactItems, Json.separated, hroute]
    have := keyOf_injective (by simp [IsExactLine]) (by simp [IsExactLine]) hzero
    simpa using this
  · intro h
    rw [key, key, identity, identity, method, line, h]

theorem length_filter_distinctFrom {es : List Endpoint} {a b : Endpoint} (ha : a ∈ es)
    (hb : b ∈ es) :
    ((distinctFrom [] es).filter fun e => e.key = a.key ∨ e.key = b.key).length =
      if a.key = b.key then 1 else 2 := by
  have hkeys :
      (((distinctFrom [] es).filter fun e => e.key = a.key ∨ e.key = b.key).map key).Nodup :=
    List.pairwise_map.2 ((pairwise_key_distinctFrom [] es).filter _)
  have hmem (k : String) :
      k ∈ ((distinctFrom [] es).filter fun e => e.key = a.key ∨ e.key = b.key).map key ↔
        k = a.key ∨ k = b.key := by
    simp only [List.mem_map, List.mem_filter, decide_eq_true_eq]
    constructor
    · rintro ⟨e, ⟨-, he⟩, rfl⟩
      exact he
    · rintro (rfl | rfl)
      · obtain ⟨e, he, hk⟩ := exists_key_eq [] ha List.not_mem_nil
        exact ⟨e, ⟨he, .inl hk⟩, hk⟩
      · obtain ⟨e, he, hk⟩ := exists_key_eq [] hb List.not_mem_nil
        exact ⟨e, ⟨he, .inr hk⟩, hk⟩
  rw [← List.length_map (f := key)]
  split
  · rename_i same
    exact ((List.perm_ext_iff_of_nodup hkeys (List.nodup_singleton a.key)).2 fun k =>
      (hmem k).trans (by simp [same])).length_eq
  · rename_i differ
    exact ((List.perm_ext_iff_of_nodup hkeys (List.nodup_cons.2 ⟨by simpa using differ,
      List.nodup_singleton b.key⟩)).2 fun k => (hmem k).trans (by simp)).length_eq

end Endpoint

namespace Detection

variable {read : Dialect → List Char → Tree} {filePath : String} {source : List Char} {tree : Tree}

theorem reading_of_failed (reads : read (Dialect.ofPath filePath) source = tree)
    (failed : (reading read filePath source).failed = true) :
    reading read filePath source = ⟨filePath, source, Dialect.ofPath filePath, source,
      tree, true⟩ := by
  unfold reading at failed ⊢
  simp only [reads] at failed ⊢
  split at failed
  · rename_i hmend
    rw [if_pos hmend]
    split at failed
    · rename_i hagain
      rw [if_pos hagain, hmend.1]
    · cases failed
  · rename_i hmend
    rw [if_neg hmend]
    exact congrArg _ failed

/-- Where a text does not read, a call that the tree and the raw text both show on a plain name,
from the same offset and for the same method, gives two records of one method and line: the tree's
with the first literal among the arguments, and the raw text's with what is quoted right behind the
parenthesis. Detection keeps one of them exactly if their routes are the same, as they are where a
literal without its quote inside leads the arguments. -/
theorem endpoints_of_both (reads : read (Dialect.ofPath filePath) source = tree)
    (failed : (reading read filePath source).failed = true) {node callee object : Tree}
    {e : Endpoint}
    {call : Text.Found TextCall} (hn : node ∈ tree.nodes) (laid : node.LaidOut source)
    (he : Endpoint.ofCall? source filePath node = some e) (hcall : call ∈ TextCall.all source)
    (offset : node.span.start = call.offset) (hcallee : node.child? .callee = some callee)
    (hobject : callee.child? .object = some object) (bare : object.text source = call.value.object)
    (verb : e.method = call.value.method) :
    let t := TextCall.endpoint source filePath call
    let d := reading read filePath source
    e ∈ d.called ∧ t ∈ d.scanned.getD [] ∧ t.method = e.method ∧ t.lines.first = e.lines.first ∧
      (t.key = e.key ↔ t.route = e.route) ∧
      (d.endpoints.filter fun x => x.key = t.key ∨ x.key = e.key).length =
        (if t.route = e.route then 1 else 2) ∧
      ∃ arguments, node.child? .arguments = some arguments ∧
        e.route = arguments.firstLiteral? source ∧
        t.route = TextCall.routeAt source arguments.span.start ∧
        (arguments.LeadsPlainly source → t.route = e.route) := by
  intro t d
  obtain ⟨⟨callee', property, object', regs⟩, -, hlines, hroute⟩ := Endpoint.registers_of_ofCall? he
  obtain rfl : callee' = callee := by simpa [hcallee] using regs.calls.symm
  obtain rfl : object' = object := by simpa [hobject] using regs.ofObject.symm
  obtain ⟨front, name, gap, word, gap', gap'', inside, hs, ho, hname, htext, plain, hg, hg',
    hg'', hverb⟩ :=
    TextCall.parts_of_mem_all hcall
  have hbare : object'.textIn source = name := by
    rw [hname] at bare
    exact String.ofList_injective bare
  obtain ⟨arguments, upto, harguments, hopen, hstart⟩ := laid.start_arguments hcallee hobject hs
    (by rw [offset, ho]) hbare plain hg hg' hg'' hverb
  have hreading := reading_of_failed reads failed
  have hd : d = ⟨filePath, source, Dialect.ofPath filePath, source, tree, true⟩ := hreading
  have hcalled : e ∈ d.called := by
    rw [hd]
    exact List.mem_filterMap.2 ⟨node, hn, he⟩
  have hscanned : t ∈ d.scanned.getD [] := by
    have : t ∈ Endpoint.calledInText source filePath := by
      rw [TextCall.calledInText_eq]
      exact List.mem_map_of_mem hcall
    rw [hd]
    simp [scanned, Endpoint.scanned, this]
  have hmethod : t.method = e.method := verb.symm
  have hline : t.lines.first = e.lines.first := by
    rw [hlines]
    simp [t, TextCall.endpoint, Tree.lines, Tree.firstLine, Span.firstLine, offset]
  have hkey := Endpoint.key_eq_iff hmethod hline
  have hin : t ∈ d.found ∧ e ∈ d.found :=
    ⟨List.mem_append_right _ hscanned, List.mem_append_left _ (List.mem_append_right _ hcalled)⟩
  have hcount := Endpoint.length_filter_distinctFrom hin.1 hin.2
  simp only [hkey] at hcount
  rw [harguments, Option.bind_some] at hroute
  refine ⟨hcalled, hscanned, hmethod, hline, hkey, hcount, arguments, harguments, hroute, ?_,
    fun leads => ?_⟩
  · rw [hstart, TextCall.routeAt_eq hopen]
    exact htext
  · rw [hroute, Tree.LeadsPlainly.route laid leads harguments hopen hstart]
    exact htext

def broken : List Char := "app\n  .get( '/x', h);\n)".toList

def brokenTree : Tree := parse (Dialect.ofPath "/proj/a.js") broken

def brokenCall : Tree := (brokenTree.nodes.find? (·.kind = .call)).getD default

def brokenCallee : Tree := (brokenCall.child? .callee).getD default

def brokenArguments : Tree := (brokenCall.child? .arguments).getD default

def brokenRecord : Endpoint := ⟨.get, some "/x", "/proj/a.js", ⟨1, 2⟩, .call, ["h"]⟩

def brokenShown : Text.Found TextCall := ⟨0, 16, ⟨"app", .get, some "/x"⟩⟩

theorem endpoints_of_both_broken :
    Endpoint.ofCall? broken "/proj/a.js" brokenCall = some brokenRecord ∧
    brokenShown ∈ TextCall.all broken ∧
      brokenArguments.LeadsPlainly broken ∧
      (TextCall.endpoint broken "/proj/a.js" brokenShown).route = brokenRecord.route ∧
      ((Endpoint.detect "/proj/a.js" (String.ofList broken)).filter fun x =>
        x.key = (TextCall.endpoint broken "/proj/a.js" brokenShown).key ∨
        x.key = brokenRecord.key).length = 1 := by
  have reads : parse (Dialect.ofPath "/proj/a.js") broken = brokenTree := by rw [brokenTree]
  have hypotheses :
      ((reading parse "/proj/a.js" broken).failed = true ∧ brokenCall ∈ brokenTree.nodes ∧
        brokenCall.LaidOut broken ∧
        Endpoint.ofCall? broken "/proj/a.js" brokenCall = some brokenRecord ∧
        brokenShown ∈ TextCall.all broken ∧ brokenCall.span.start = brokenShown.offset) ∧
      brokenCall.child? .callee = some brokenCallee ∧
      brokenCallee.child? .object = some ((brokenCallee.child? .object).getD default) ∧
      ((brokenCallee.child? .object).getD default).text broken = brokenShown.value.object ∧
      brokenCall.child? .arguments = some brokenArguments ∧
      brokenArguments.LeadsPlainly broken := by
    decide +kernel
  obtain ⟨⟨failed, hn, laid, he, hcall, offset⟩, hcallee, hobject, bare, harguments, leads⟩ :=
    hypotheses
  obtain ⟨-, -, -, -, -, hcount, arguments, ha, -, -, hroute⟩ :=
    endpoints_of_both reads failed hn laid he hcall offset hcallee hobject bare rfl
  have same : some arguments = some brokenArguments := ha.symm.trans harguments
  rw [Option.some.inj same] at hroute
  rw [if_pos (hroute leads)] at hcount
  rw [detect_eq_endpoints, String.toList_ofList]
  exact ⟨he, hcall, leads, hroute leads, hcount⟩

end Detection

namespace Endpoint

/-- Does a file that does not read give two records of one call on a plain name, which the tree and
the raw text show from the same offset and for the same method? -/
def KeptTwice (filePath source : String) : Prop :=
  let d := Detection.ofSource filePath source.toList
  d.failed = true ∧ ∃ node ∈ d.tree.nodes, ∃ e ∈ ofCall? d.source filePath node,
  ∃ call ∈ TextCall.all d.source,
    node.span.start = call.offset ∧ e.method = call.value.method ∧
    (∃ callee ∈ node.child? .callee, ∃ object ∈ callee.child? .object, object.kind = .identifier ∧
      object.text d.source = call.value.object) ∧
    ((detect filePath source).filter fun x =>
      x.key = e.key ∨ x.key = (TextCall.endpoint d.source filePath call).key).length = 2

instance (filePath source : String) : Decidable (KeptTwice filePath source) :=
  inferInstanceAs (Decidable (_ ∧ ∃ node ∈ _, ∃ e ∈ _, ∃ call ∈ _, _))

/-- A literal behind another argument, one at the start of a sum, one with its quote inside, and one
behind a comment. -/
theorem keptTwice :
    KeptTwice "/proj/a.js" "app.get(h, '/x');\n)" ∧
    KeptTwice "/proj/a.js" "app.get('/a' + b, h);\n)" ∧
      KeptTwice "/proj/a.js" "app.get('/a\\'b', h);\n)" ∧
      KeptTwice "/proj/a.js" "app.get(/* c */ '/a', h);\n)" := by
  decide +kernel

end Endpoint

end EndpointAtlas
