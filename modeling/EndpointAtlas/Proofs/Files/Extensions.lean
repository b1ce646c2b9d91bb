import EndpointAtlas.Proofs.Files.Glob
import EndpointAtlas.Proofs.Text.LetterCase
import EndpointAtlas.Proofs.Text.Runs

set_option autoImplicit false

namespace EndpointAtlas

namespace Dialect

def isInside (c : Char) : Bool := c ≠ '.' ∧ c ≠ '/' ∧ c ≠ '\\'

theorem extensionOf_eq {path : String} {front tail : List Char} (hp : path.toList = front ++ tail)
    (inside : ∀ c ∈ tail, isInside c = true) (stop : ∀ c ∈ front.getLast?, isInside c = false) :
    extensionOf path =
      if tail ≠ [] ∧ front.getLast? = some '.' then String.ofList (Text.lower ('.' :: tail))
      else "" := by
  have run : (tail.reverse ++ front.reverse).takeWhile isInside = tail.reverse := by
    refine Text.takeWhile_append_stop (fun c hc => inside c (List.mem_reverse.1 hc)) ?_
    rwa [List.head?_reverse]
  have before : (front ++ tail).take ((front ++ tail).length - tail.length) = front :=
    List.take_left' (by simp)
  change (let tail := (path.toList.reverse.takeWhile isInside).reverse
    let before := path.toList.take (path.toList.length - tail.length)
    if !tail.isEmpty ∧ before.getLast? = some '.' then String.ofList (Text.lower ('.' :: tail))
    else "") = _
  simp only [hp, List.reverse_append, run, List.reverse_reverse, before, Bool.not_eq_true',
    List.isEmpty_eq_false_iff]

theorem exists_tail {path : String} (h : extensionOf path ≠ "") :
    ∃ stem tail, path.toList = stem ++ '.' :: tail ∧
    extensionOf path = String.ofList (Text.lower ('.' :: tail)) := by
  obtain ⟨run, rest, hs, inside, stop⟩ := Text.exists_run isInside path.toList.reverse
  have hp : path.toList = rest.reverse ++ run.reverse := by
    rw [← List.reverse_append, ← hs, List.reverse_reverse]
  rw [extensionOf_eq hp (fun c hc => inside c (List.mem_reverse.1 hc))
    (by rwa [List.getLast?_reverse])] at h ⊢
  split at h
  · rename_i dotted
    rw [if_pos dotted]
    obtain ⟨stem, hf⟩ := List.getLast?_eq_some_iff.1 dotted.2
    exact ⟨stem, run.reverse, by rw [hp, hf, List.append_assoc, List.singleton_append], rfl⟩
  · exact absurd rfl h

theorem extensionOf_of_tail {path : String} {stem tail : List Char}
    (hp : path.toList = stem ++ '.' :: tail)
    (filled : tail ≠ []) (inside : ∀ c ∈ tail, isInside c = true) :
    extensionOf path = String.ofList (Text.lower ('.' :: tail)) := by
  have split : path.toList = (stem ++ ['.']) ++ tail := by rw [hp, List.append_cons]
  rw [extensionOf_eq split inside (by simp [isInside]), if_pos ⟨filled, List.getLast?_concat⟩]

def IsExtension (extension : List Char) : Prop :=
  extension.head? = some '.' ∧ extension.tail ≠ [] ∧ extension.tail.all fun k =>
    Text.IsCommon k ∧ k ≠ '.'

instance (extension : List Char) : Decidable (IsExtension extension) :=
  inferInstanceAs (Decidable (_ ∧ _ ∧ _))

theorem isExtension_of_mem {extension : String} (h : extension ∈ sourceExtensions) :
    IsExtension extension.toList := by
  revert extension
  decide

theorem IsExtension.eq_cons {extension : List Char} (h : IsExtension extension) :
    extension = '.' :: extension.tail :=
  (List.cons_head?_tail h.1).symm

theorem IsExtension.letter {extension : List Char} (h : IsExtension extension) {k : Char}
    (hk : k ∈ extension.tail) : Text.IsCommon k ∧ k ≠ '.' :=
  of_decide_eq_true (List.all_eq_true.1 h.2.2 k hk)

theorem IsExtension.common {extension : List Char} (h : IsExtension extension) :
    ∀ k ∈ extension, Text.IsCommon k := by
  rw [h.eq_cons]
  exact List.forall_mem_cons.2 ⟨.inl rfl, fun k hk => (h.letter hk).1⟩

theorem isInside_of_caseless {c k : Char} (hk : Text.IsCommon k) (other : k ≠ '.')
    (same : Text.caseless c = Text.caseless k) : isInside c = true := by
  have range := hk.toNat
  have letter : k.toNat ≠ 46 := fun dot => other (Char.toNat_inj.1 dot)
  have capital := @Text.toNat_caseless k (by omega)
  rw [← same] at capital
  by_contra outside
  have mark : c = '.' ∨ c = '/' ∨ c = '\\' := by
    simpa [isInside, or_iff_not_imp_left] using outside
  have bound : (Text.caseless c).toNat = 46 ∨ (Text.caseless c).toNat = 47 ∨
      (Text.caseless c).toNat = 92 := by
    rcases mark with rfl | rfl | rfl <;> decide
  split at capital <;> omega

theorem extensionOf_eq_iff {path extension : String} (h : IsExtension extension.toList) :
    extensionOf path = extension ↔
      ∃ ending, ending <:+ path.toList ∧ Glob.caseless ending = Glob.caseless extension.toList := by
  constructor
  · rintro he
    have extended : extensionOf path ≠ "" := by
      rw [he]
      rintro rfl
      cases h.1
    obtain ⟨stem, tail, hp, ht⟩ := exists_tail extended
    refine ⟨'.' :: tail, ⟨stem, hp.symm⟩, (Text.lower_eq_iff h.common).1 ?_⟩
    rw [← he, ht, String.toList_ofList]
  · rintro ⟨ending, ⟨stem, hp⟩, same⟩
    have spelled := same
    rw [h.eq_cons] at spelled
    cases ending with
    | nil => cases spelled
    | cons c tail =>
      obtain ⟨dot, letters⟩ := List.cons.inj spelled
      obtain rfl := Text.eq_dot_of_caseless dot
      have inside : ∀ c ∈ tail, isInside c = true := by
        intro c hc
        have among := List.mem_map_of_mem (f := Text.caseless) hc
        rw [letters] at among
        obtain ⟨k, hk, alike⟩ := List.mem_map.1 among
        exact isInside_of_caseless (h.letter hk).1 (h.letter hk).2 alike.symm
      have filled : tail ≠ [] := by
        rintro rfl
        exact h.2.1 (List.map_eq_nil_iff.1 letters.symm)
      rw [extensionOf_of_tail hp.symm filled inside, (Text.lower_eq_iff h.common).2 same,
        String.ofList_toList]

theorem slash_not_mem {ending extension : List Char} (h : IsExtension extension)
    (same : Glob.caseless ending = Glob.caseless extension) : '/' ∉ ending := by
  intro hs
  have among : Text.caseless '/' ∈ Glob.caseless ending := List.mem_map_of_mem hs
  rw [same] at among
  obtain ⟨k, hk, alike⟩ := List.mem_map.1 among
  have small := (Text.caseless_eq_iff_small (h.common k hk)).1 alike.symm
  obtain rfl : '/' = k := List.singleton_inj.1 small
  exact absurd (h.common '/' hk) (by decide)

theorem isSource_iff {path : String} : isSource path = true ↔ ∃ extension ∈ sourceExtensions,
    ∃ ending, ending <:+ path.toList ∧ Glob.caseless ending = Glob.caseless extension.toList := by
  rw [isSource, List.contains_iff_mem]
  constructor
  · exact fun h => ⟨_, h, (extensionOf_eq_iff (isExtension_of_mem h)).1 rfl⟩
  · rintro ⟨extension, h, ending⟩
    rwa [(extensionOf_eq_iff (isExtension_of_mem h)).2 ending]

end Dialect

theorem suffix_append_cons_iff {ending front name : List Char} {c : Char} (h : c ∉ ending) :
    ending <:+ front ++ c :: name ↔ ending <:+ name := by
  refine ⟨fun behind => ?_, fun behind =>
    behind.trans ((List.suffix_cons c name).trans (List.suffix_append _ _))⟩
  rcases List.suffix_or_suffix_of_suffix behind
    (List.suffix_append front (c :: name)) with within | beyond
  · rcases List.suffix_cons_iff.1 within with rfl | within
    · exact absurd List.mem_cons_self h
    · exact within
  · exact absurd (beyond.subset List.mem_cons_self) h

theorem Matcher.Lawful.source_iff {accepts : Matcher} (h : accepts.Lawful) {names : List String}
    (hn : names ≠ []) :
    accepts sourcePattern (names.map String.toList) = true ↔
    Dialect.isSource (Path.glue names) = true := by
  obtain ⟨start, last, rfl⟩ := (List.eq_nil_or_concat' names).resolve_left hn
  rw [h.source, Dialect.isSource_iff, List.map_append, List.map_singleton, List.getLast?_concat]
  simp only [Option.mem_some_iff, exists_eq_left']
  refine exists_congr fun extension => and_congr_right fun he => exists_congr fun ending =>
    and_congr_left fun same => ?_
  have slash := Dialect.slash_not_mem (Dialect.isExtension_of_mem he) same
  by_cases hs : start = []
  · simp [hs, Path.glue]
  · have spelled : (Path.glue (start ++ [last])).toList =
        (Path.glue start).toList ++ '/' :: last.toList := by
      rw [Path.glue_concat hs]
      simp
    rw [spelled, suffix_append_cons_iff slash]

end EndpointAtlas
