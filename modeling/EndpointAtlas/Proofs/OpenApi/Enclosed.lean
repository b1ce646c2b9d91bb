import EndpointAtlas.Proofs.Inventory.RoundTrip
import EndpointAtlas.Proofs.OpenApi.Replies

set_option autoImplicit false

namespace EndpointAtlas

theorem Json.read?_compact {value : Json} (h : value.Readable) :
    read? value.compact = some value := by
  rw [compact_eq_laid 0, read?_laid blank_oneLine h]

namespace Fragment

def OnlyOperations (fragment : Fragment) : Prop :=
  ∀ entry ∈ fragment.paths, ∀ operation ∈ entry.2, IsOperation operation.1 operation.2

def ownOperation (operation : Json) : Json :=
  match ownFields? operation with
  | some fields => .object fields
  | none => operation

def ownItem (item : PathItem) : PathItem :=
  item.map fun (key, operation) => (key, ownOperation operation)

/-- A fragment without the path that would stand for a prototype, and each of its operations without
such a field. What lies further inside stays, whatever its name. -/
def own (fragment : Fragment) : Fragment :=
  ⟨(Entries.erase "__proto__" fragment.paths).map fun (path, item) => (path, ownItem item)⟩

/-- Does a path, or a field of an operation, have the name that stands for a prototype? -/
def NamesPrototype (fragment : Fragment) : Prop :=
  "__proto__" ∈ fragment.paths.keys ∨ ∃ entry ∈ fragment.paths, ∃ operation ∈ entry.2,
    ∃ fields, operation.2 = .object fields ∧ "__proto__" ∈ Entries.keys fields

variable {fragment : Fragment}

/-! ### Finding the text -/

theorem outermost?_enclosed {before after : List Char} (hb : '{' ∉ before) (ha : '}' ∉ after)
    (inner : List Char) :
    outermost? (before ++ '{' :: (inner ++ '}' :: after)) = some ('{' :: (inner ++ ['}'])) := by
  have opens : (before ++ '{' :: (inner ++ '}' :: after)).dropWhile (· ≠ '{') =
      '{' :: (inner ++ '}' :: after) := by
    rw [List.dropWhile_append_of_pos fun c hc => by simpa using ne_of_mem_of_not_mem hc hb]
    simp
  have closes : ('{' :: (inner ++ '}' :: after)).reverse.dropWhile (· ≠ '}') =
      '}' :: ('{' :: inner).reverse := by
    have turned : ('{' :: (inner ++ '}' :: after)).reverse =
        after.reverse ++ '}' :: ('{' :: inner).reverse := by simp
    rw [turned, List.dropWhile_append_of_pos fun c hc => by
      simpa using ne_of_mem_of_not_mem (List.mem_reverse.1 hc) ha]
    simp
  rw [outermost?, opens, closes]
  simp

theorem exists_compact_object (fields : List (String × Json)) :
    ∃ inner, (Json.object fields).compact = '{' :: (inner ++ ['}']) :=
  ⟨_, by rw [Json.compact]; rfl⟩

theorem outermost?_compact {before after : List Char} (hb : '{' ∉ before) (ha : '}' ∉ after)
    (fields : List (String × Json)) :
    outermost? (before ++ ((Json.object fields).compact ++ after)) =
      some (Json.object fields).compact := by
  obtain ⟨inner, spelled⟩ := exists_compact_object fields
  rw [spelled, List.cons_append, List.append_assoc, List.singleton_append,
    outermost?_enclosed hb ha]

/-! ### Reading the value -/

theorem operationsOf_eq {item : PathItem}
    (h : ∀ operation ∈ item, IsOperation operation.1 operation.2) :
    operationsOf item = ownItem item := by
  rw [operationsOf, ownItem, ← List.filterMap_eq_map]
  refine List.filterMap_congr fun ⟨key, operation⟩ there => ?_
  obtain ⟨known, fields, rfl⟩ := h _ there
  exact if_pos (List.contains_iff_mem.2 known)

theorem ofValue?_encode (h : fragment.OnlyOperations) :
    ofValue? fragment.encode = some fragment.own := by
  have items : (fragment.paths.map fun (path, item) => (path, Json.object item)).mapM
      (fun (path, item) => item.fields?.map fun fields => (path, fields)) = some fragment.paths :=
    mapM_map_eq_some fun _ _ => rfl
  have operations : ((Entries.erase "__proto__" fragment.paths).map fun (path, item) =>
      (path, operationsOf item)) = fragment.own.paths :=
    List.map_congr_left fun entry there =>
      congrArg (Prod.mk entry.1) (operationsOf_eq (h entry (List.mem_of_mem_filter there)))
  refine (congrArg (Option.bind · fun items => some (Fragment.mk
    ((Entries.erase "__proto__" items).map fun (path, item) =>
      (path, operationsOf item)))) items).trans ?_
  rw [Option.bind_some, operations]

theorem ofReply_eq_own (readable : fragment.encode.Readable) (h : fragment.OnlyOperations)
    {before after : String}
    (hb : '{' ∉ before.toList) (ha : '}' ∉ after.toList) (route : Option String) :
    ofReply (before ++ fragment.encode.render ++ after) route = fragment.own := by
  have found : outermost? (before ++ fragment.encode.render ++ after).toList =
      some fragment.encode.compact := by
    rw [String.toList_append, String.toList_append, Json.render, String.toList_ofList,
      List.append_assoc]
    exact outermost?_compact hb ha _
  rw [ofReply, found, Option.bind_some, Json.read?_compact readable, Option.bind_some,
    ofValue?_encode h, Option.getD_some]

/-! ### What is kept -/

theorem ownOperation_eq_self_iff {operation : Json} : ownOperation operation = operation ↔
    ∀ fields, operation = .object fields → "__proto__" ∉ Entries.keys fields := by
  cases operation with
  | object fields =>
    rw [show ownOperation (.object fields) = .object (Entries.erase "__proto__" fields) from rfl,
      Json.object.injEq, Entries.erase_eq_self_iff]
    simp
  | _ => simp [ownOperation, ownFields?, Json.fields?]

theorem ownItem_eq_self_iff {item : PathItem} : ownItem item = item ↔
    ∀ operation ∈ item, ownOperation operation.2 = operation.2 := Entries.map_eq_self_iff

theorem own_eq_self_iff : fragment.own = fragment ↔ ¬fragment.NamesPrototype := by
  obtain ⟨paths⟩ := fragment
  rw [own, Fragment.mk.injEq, NamesPrototype, not_or]
  constructor
  · intro same
    have missing : "__proto__" ∉ Entries.keys paths := by
      intro there
      rw [← same, Entries.keys, List.map_map] at there
      obtain ⟨entry, kept, named⟩ := List.mem_map.1 there
      exact of_decide_eq_true (List.mem_filter.1 kept).2 named
    rw [Entries.erase_of_not_mem missing, Entries.map_eq_self_iff] at same
    refine ⟨missing, ?_⟩
    rintro ⟨entry, there, operation, member, fields, isObject, named⟩
    exact ownOperation_eq_self_iff.1 (ownItem_eq_self_iff.1 (same entry there) operation member)
      fields isObject named
  · rintro ⟨missing, none⟩
    rw [Entries.erase_of_not_mem missing, Entries.map_eq_self_iff]
    intro entry there
    refine ownItem_eq_self_iff.2 fun operation member =>
      ownOperation_eq_self_iff.2 fun fields isObject named => ?_
    exact none ⟨entry, there, operation, member, fields, isObject, named⟩

/-- A fragment of operations, with numbers of the format and every object's fields in order, is
written on one line and put between a text without an open brace and one without a closing brace.
Read as a reply for whatever route, the whole gives the fragment without the paths and the fields of
operations that would stand for a prototype: the very fragment exactly if it has none of these. -/
theorem ofReply_enclosed (fragment : Fragment) (readable : fragment.encode.Readable)
    (operations : fragment.OnlyOperations)
    (before after : String) (unopened : '{' ∉ before.toList) (unclosed : '}' ∉ after.toList)
    (route : Option String) :
    ofReply (before ++ fragment.encode.render ++ after) route = fragment.own ∧
      (ofReply (before ++ fragment.encode.render ++ after) route = fragment ↔
        ¬fragment.NamesPrototype) := by
  rw [ofReply_eq_own readable operations unopened unclosed]
  exact ⟨rfl, own_eq_self_iff⟩

/-- Braces, quotes, escapes and other letters in texts and names, and the name of a prototype
further inside. -/
def trickyFields : Entries Json :=
  [("7", .list [.number (.finite 7), .bool true, .null]),
    ("summary", .text "\x7d \"\\\n\t\u001f \x7b é 😀"),
    ("x\x7d", .object [("__proto__", .text "\x7b")])]

def tricky : Fragment :=
  ⟨[("/\x7bid\x7d", [("get", .object trickyFields), ("delete", .object [])]), ("\"\x7d", [])]⟩

theorem readable_trickyFields : (Json.object trickyFields).Readable := by
  have items : (Json.list [.number (.finite 7), .bool true, .null]).Readable := by
    refine .list ?_
    simp only [List.forall_mem_cons]
    exact ⟨.number (Number.isExact_natCast (n := 7) (by decide)), .bool _, .null,
      List.forall_mem_nil _⟩
  have inner : (Json.object [("__proto__", .text "\x7b")]).Readable :=
    .object rfl (List.forall_mem_singleton.2 (.text _))
  refine .object (Entries.ofList_of_inOrder ?_) ?_
  · exact (by decide : Entries.InOrder ["7", "summary", "x\x7d"])
  simp only [trickyFields, List.forall_mem_cons]
  exact ⟨items, .text _, inner, List.forall_mem_nil _⟩

theorem readable_tricky : tricky.encode.Readable := by
  have item : (Json.object [("get", .object trickyFields), ("delete", .object [])]).Readable := by
    refine .object (Entries.ofList_of_inOrder ?_) ?_
    · exact (by decide : Entries.InOrder ["get", "delete"])
    simp only [List.forall_mem_cons]
    exact ⟨readable_trickyFields, .object rfl (List.forall_mem_nil _), List.forall_mem_nil _⟩
  refine .object rfl (List.forall_mem_singleton.2 (.object (Entries.ofList_of_inOrder ?_) ?_))
  · exact (by decide : Entries.InOrder ["/\x7bid\x7d", "\"\x7d"])
  simp only [tricky, List.map_cons, List.map_nil, List.forall_mem_cons]
  exact ⟨item, .object rfl (List.forall_mem_nil _), List.forall_mem_nil _⟩

theorem onlyOperations_tricky : tricky.OnlyOperations := by
  simp only [OnlyOperations, tricky, List.forall_mem_cons]
  exact ⟨⟨⟨by decide, _, rfl⟩, ⟨by decide, _, rfl⟩, List.forall_mem_nil _⟩, List.forall_mem_nil _,
    List.forall_mem_nil _⟩

theorem not_namesPrototype_tricky : ¬tricky.NamesPrototype := by
  refine own_eq_self_iff.1 ?_
  rw [own, Fragment.mk.injEq]
  rfl

theorem ofReply_enclosed_tricky :
    tricky.encode.Readable ∧ tricky.OnlyOperations ∧ '{' ∉ "Sure \x7d: ".toList ∧
    '}' ∉ " \x7b?".toList ∧
      ofReply ("Sure \x7d: " ++ tricky.encode.render ++ " \x7b?") none = tricky := by
  have unopened : '{' ∉ "Sure \x7d: ".toList := by decide
  have unclosed : '}' ∉ " \x7b?".toList := by decide
  exact ⟨readable_tricky, onlyOperations_tricky, unopened, unclosed,
    (ofReply_enclosed tricky readable_tricky onlyOperations_tricky _ _ unopened unclosed none).2.2
      not_namesPrototype_tricky⟩

def prototyped : Fragment := ⟨[("/x", [("get", .object [("__proto__", .text "kept")])])]⟩

/-- The field of that name is lost, so a fragment does not always read back. -/
theorem ofReply_prototyped :
    prototyped.encode.Readable ∧ prototyped.OnlyOperations ∧ '{' ∉ "Here: ".toList ∧
    '}' ∉ ".".toList ∧
      ofReply ("Here: " ++ prototyped.encode.render ++ ".") none ≠ prototyped := by
  have readable : prototyped.encode.Readable := by
    have operation : (Json.object [("__proto__", .text "kept")]).Readable :=
      .object rfl (List.forall_mem_singleton.2 (.text _))
    have item : (Json.object [("get", .object [("__proto__", .text "kept")])]).Readable :=
      .object rfl (List.forall_mem_singleton.2 operation)
    have paths :
        (Json.object [("/x", .object [("get", .object [("__proto__", .text "kept")])])]).Readable :=
      .object rfl (List.forall_mem_singleton.2 item)
    exact .object rfl (List.forall_mem_singleton.2 paths)
  have operations : prototyped.OnlyOperations := by
    simp only [OnlyOperations, prototyped, List.forall_mem_singleton]
    exact ⟨by decide, _, rfl⟩
  have unopened : '{' ∉ "Here: ".toList := by decide
  have unclosed : '}' ∉ ".".toList := by decide
  refine ⟨readable, operations, unopened, unclosed, ?_⟩
  rw [ofReply_eq_own readable operations unopened unclosed]
  intro same
  refine own_eq_self_iff.1 same (.inr ?_)
  exact ⟨_, List.mem_singleton_self _, _, List.mem_singleton_self _, _, rfl,
    List.mem_singleton_self _⟩

end Fragment

end EndpointAtlas
