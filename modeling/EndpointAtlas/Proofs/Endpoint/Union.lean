import EndpointAtlas.Proofs.Endpoint.Lines

/-!
What detection makes of the endpoints that its tiers give. Main statements: the key of an endpoint
tells its method, its route and its first line, and detection gives the union of what the tiers
give, each endpoint in the form in which it came first.
-/

set_option autoImplicit false

namespace EndpointAtlas

namespace Endpoint

/-! ### Keys -/

theorem readable_key (identity : Identity) (h : IsExactLine identity.2.2) :
    (Json.list [.text identity.1.text, .optionalText identity.2.1,
      .int identity.2.2]).Readable := by
  refine .list ?_
  simp only [List.forall_mem_cons]
  exact ⟨.text _, Json.readable_optionalText _, Json.readable_int h, List.forall_mem_nil _⟩

theorem optionalText_injective {s t : Option String}
    (h : Json.optionalText s = Json.optionalText t) : s = t := by
  cases s <;> cases t <;> simp_all [Json.optionalText]

theorem int_injective {m n : Int} (h : Json.int m = Json.int n) : m = n := by
  simpa [Json.int, Number.ofInt] using h

theorem keyOf_injective {a b : Identity} (ha : IsExactLine a.2.2) (hb : IsExactLine b.2.2)
    (h : keyOf a = keyOf b) : a = b := by
  obtain ⟨method, route, line⟩ := a
  obtain ⟨method', route', line'⟩ := b
  have hread := congrArg Json.parse? h
  rw [keyOf, keyOf, Json.parse?_render (readable_key _ ha), Json.parse?_render (readable_key _ hb)]
    at hread
  simp only [Option.some.injEq, Json.list.injEq, List.cons.injEq, Json.text.injEq,
    and_true] at hread
  obtain ⟨hm, hr, hl⟩ := hread
  rw [Method.text_injective _ _ hm, optionalText_injective hr, int_injective hl]

/-! ### Endpoints of distinct keys -/

section distinct

variable {seen : List String} {es : List Endpoint} {e : Endpoint}

theorem distinctFrom_cons_seen {rest : List Endpoint} (h : e.key ∈ seen) :
    distinctFrom seen (e :: rest) = distinctFrom seen rest := by
  rw [distinctFrom, if_pos (List.contains_iff_mem.2 h)]

theorem distinctFrom_cons_new {rest : List Endpoint} (h : e.key ∉ seen) :
    distinctFrom seen (e :: rest) = e :: distinctFrom (e.key :: seen) rest := by
  rw [distinctFrom, if_neg fun hc => h (List.contains_iff_mem.1 hc)]

theorem distinctFrom_sublist (seen : List String) (es : List Endpoint) :
    (distinctFrom seen es).Sublist es := by
  induction es generalizing seen with
  | nil => exact .slnil
  | cons first rest ih =>
    by_cases h : first.key ∈ seen
    · rw [distinctFrom_cons_seen h]
      exact (ih seen).cons first
    · rw [distinctFrom_cons_new h]
      exact (ih _).cons_cons first

theorem key_not_mem_seen (h : e ∈ distinctFrom seen es) : e.key ∉ seen := by
  induction es generalizing seen with
  | nil => cases h
  | cons first rest ih =>
    by_cases hf : first.key ∈ seen
    · rw [distinctFrom_cons_seen hf] at h
      exact ih h
    · rw [distinctFrom_cons_new hf] at h
      rcases List.mem_cons.1 h with rfl | h
      · exact hf
      · exact fun hs => ih h (List.mem_cons_of_mem _ hs)

theorem pairwise_key_distinctFrom (seen : List String) (es : List Endpoint) :
    (distinctFrom seen es).Pairwise fun earlier later => earlier.key ≠ later.key := by
  induction es generalizing seen with
  | nil => exact .nil
  | cons first rest ih =>
    by_cases hf : first.key ∈ seen
    · rw [distinctFrom_cons_seen hf]
      exact ih seen
    · rw [distinctFrom_cons_new hf]
      refine .cons (fun later hl hk => ?_) (ih _)
      exact key_not_mem_seen hl (List.mem_cons.2 (.inl hk.symm))

theorem exists_key_eq (seen : List String) (h : e ∈ es) (new : e.key ∉ seen) :
    ∃ other ∈ distinctFrom seen es, other.key = e.key := by
  induction es generalizing seen with
  | nil => cases h
  | cons first rest ih =>
    by_cases hf : first.key ∈ seen
    · rw [distinctFrom_cons_seen hf]
      rcases List.mem_cons.1 h with rfl | h
      · contradiction
      · exact ih seen h new
    · rw [distinctFrom_cons_new hf]
      by_cases same : first.key = e.key
      · exact ⟨first, List.mem_cons_self, same⟩
      · rcases List.mem_cons.1 h with rfl | h
        · contradiction
        · obtain ⟨other, ho, hk⟩ := ih (first.key :: seen) h (by simp [new, Ne.symm same])
          exact ⟨other, List.mem_cons_of_mem first ho, hk⟩

theorem find?_key (h : e ∈ distinctFrom seen es) :
    es.find? (fun other => other.key = e.key) = some e := by
  induction es generalizing seen with
  | nil => cases h
  | cons first rest ih =>
    by_cases hf : first.key ∈ seen
    · rw [distinctFrom_cons_seen hf] at h
      have hne : first.key ≠ e.key := fun hk => key_not_mem_seen h (by rwa [← hk])
      rw [List.find?_cons_of_neg (by simpa using hne)]
      exact ih h
    · rw [distinctFrom_cons_new hf] at h
      rcases List.mem_cons.1 h with rfl | h
      · exact List.find?_cons_of_pos (by simp)
      · have hne : first.key ≠ e.key :=
          fun hk => key_not_mem_seen h (List.mem_cons.2 (.inl hk.symm))
        rw [List.find?_cons_of_neg (by simpa using hne)]
        exact ih h

end distinct

theorem distinctFrom_congr {seen seen' : List String} (h : ∀ k, k ∈ seen ↔ k ∈ seen')
    (es : List Endpoint) : distinctFrom seen es = distinctFrom seen' es := by
  induction es generalizing seen seen' with
  | nil => rfl
  | cons first rest ih =>
    by_cases hs : first.key ∈ seen
    · rw [distinctFrom_cons_seen hs, distinctFrom_cons_seen ((h _).1 hs), ih h]
    · rw [distinctFrom_cons_new hs, distinctFrom_cons_new fun hs' => hs ((h _).2 hs')]
      exact congrArg _ (ih fun k => by simp [h])

theorem distinctFrom_append (seen : List String) (first second : List Endpoint) :
    distinctFrom seen (first ++ second) =
      distinctFrom seen first ++ distinctFrom
        ((distinctFrom seen first).map key ++ seen) second := by
  induction first generalizing seen with
  | nil => rfl
  | cons e rest ih =>
    rw [List.cons_append]
    by_cases hs : e.key ∈ seen
    · rw [distinctFrom_cons_seen hs, distinctFrom_cons_seen hs, ih]
    · rw [distinctFrom_cons_new hs, distinctFrom_cons_new hs, ih, List.cons_append]
      congr 2
      exact distinctFrom_congr (fun k => by simp [or_left_comm]) second

/-! ### The union of the tiers -/

/-- A list of endpoints as the union of what was found: no identity twice, none left out, each
endpoint the first of its identity, and all in the order in which they were found. -/
structure IsUnion (found union : List Endpoint) : Prop where
  distinct : (union.map identity).Nodup
  complete : ∀ e ∈ found, e.identity ∈ union.map identity
  first : ∀ e ∈ union, found.find? (fun other => other.identity = e.identity) = some e
  inOrder : union.Sublist found

theorem isUnion_distinctFrom {found : List Endpoint}
    (told : ∀ e ∈ found, IsExactLine e.lines.first) : IsUnion found (distinctFrom [] found) := by
  have same : ∀ a ∈ found, ∀ b ∈ found, a.key = b.key ↔ a.identity = b.identity := fun a ha b hb =>
    ⟨keyOf_injective (told a ha) (told b hb), congrArg keyOf⟩
  have within : ∀ e ∈ distinctFrom [] found, e ∈ found := (distinctFrom_sublist [] found).subset
  refine ⟨?_, fun e he => ?_, fun e he => ?_, distinctFrom_sublist [] found⟩
  · rw [List.Nodup, List.pairwise_map]
    exact (pairwise_key_distinctFrom [] found).imp fun hne hi => hne (congrArg keyOf hi)
  · obtain ⟨other, ho, hk⟩ := exists_key_eq [] he List.not_mem_nil
    exact List.mem_map.2 ⟨other, ho, (same other (within other ho) e he).1 hk⟩
  · rw [← find?_key he]
    refine List.find?_congr fun other ho => ?_
    exact decide_eq_decide.2 (same other ho e (within e he)).symm

/-- Detection gives the union of what the decorators, the calls and the raw text of a source give,
one tier after the other, and the keys by which it tells endpoints apart are different for different
methods, routes and lines. The source has to have fewer lines than there are whole numbers of the
format to count them by. -/
theorem detect_isUnion (filePath source : String)
    (numbered : Text.lineCount source.toList < 2 ^ 53) :
    IsUnion (Detection.ofSource filePath source.toList).found (detect filePath source) ∧
      ∀ a b : Identity, IsExactLine a.2.2 → IsExactLine b.2.2 → keyOf a = keyOf b → a = b := by
  refine ⟨isUnion_distinctFrom fun e he => ?_, fun a b => keyOf_injective⟩
  obtain ⟨hone, hlast⟩ := Detection.onLine_of_mem_found he
  unfold IsExactLine
  omega

def seenTwice : String := "app.get('/x', h);\n)"

theorem detect_isUnion_seenTwice :
    Text.lineCount seenTwice.toList < 2 ^ 53 ∧
      IsUnion (Detection.ofSource "app.js" seenTwice.toList).found (detect "app.js" seenTwice) ∧
      (Detection.ofSource "app.js" seenTwice.toList).found.map (·.tier) = [.call, .text] ∧
      (detect "app.js" seenTwice).map (·.tier) = [.call] := by
  have numbered : Text.lineCount seenTwice.toList < 2 ^ 53 := by decide
  exact ⟨numbered,
    (detect_isUnion "app.js" seenTwice numbered).1, by decide +kernel, by decide +kernel⟩

end Endpoint

/-! ### What the raw text adds -/

namespace Detection

def endpoints (d : Detection) : List Endpoint := Endpoint.distinctFrom [] d.found

def inTree (d : Detection) : List Endpoint :=
  Endpoint.distinctFrom [] (d.decorated.getD [] ++ d.called)

/-- What the raw text gives beyond that. -/
def added (d : Detection) : List Endpoint :=
  Endpoint.distinctFrom (d.inTree.map Endpoint.key) (d.scanned.getD [])

theorem detect_eq_endpoints (filePath source : String) :
    Endpoint.detect filePath source = (ofSource filePath source.toList).endpoints := rfl

theorem endpoints_eq (d : Detection) : d.endpoints = d.inTree ++ d.added := by
  rw [endpoints, found, Endpoint.distinctFrom_append, List.append_nil]
  rfl

end Detection

end EndpointAtlas
