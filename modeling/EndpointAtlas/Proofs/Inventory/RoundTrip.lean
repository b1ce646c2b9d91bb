import EndpointAtlas.Inventory.Decoded
import EndpointAtlas.Proofs.Json.RoundTrip

set_option autoImplicit false

namespace EndpointAtlas

def LineRange.Both (p : Int → Prop) (lines : LineRange) : Prop := p lines.first ∧ p lines.last

structure Inventory.EachLine (p : Int → Prop) (inventory : Inventory) : Prop where
  classes : ∀ d ∈ inventory.classes, d.lines.Both p
  functions : ∀ d ∈ inventory.functions, d.lines.Both p
  vars : ∀ d ∈ inventory.vars, d.lines.Both p
  calls : ∀ c ∈ inventory.calls, c.lines.Both p
  imports : ∀ i ∈ inventory.imports, p i.line ∧ ∀ n ∈ i.usageLines, p n

theorem mapM_map_eq_some {α β : Type} {write : α → β} {read : β → Option α} {items : List α}
    (h : ∀ item ∈ items, read (write item) = some item) :
    (items.map write).mapM read = some items := by
  induction items with
  | nil => rfl
  | cons item rest ih =>
    rw [List.map_cons, List.mapM_cons, h item List.mem_cons_self,
      ih fun other hm => h other (List.mem_cons_of_mem item hm)]
    rfl

/-! ### Decoding -/

section decode

variable {accept : Int → Bool}

@[simp] theorem toInt?_ofInt (n : Int) : (Number.ofInt n).toInt? = some n := by
  simp [Number.ofInt, Number.toInt?]

@[simp] theorem Json.number?_int (n : Int) : (Json.int n).number? = some (.ofInt n) := rfl

theorem CallKind.ofName?_name (kind : CallKind) : CallKind.ofName? kind.name = some kind := by
  cases kind <;> decide

theorem ImportForm.ofName?_name (form : ImportForm) : ImportForm.ofName? form.name = some form := by
  cases form <;> decide

theorem Declaration.decode?_encode {d : Declaration} (h : d.lines.Both (accept · = true)) :
    Declaration.decode? accept d.encode = some d := by
  obtain ⟨hf, hl⟩ := h
  simp [decode?, encode, LineRange.decode?, LineRange.fields, Json.textField, Json.wholeField,
    Json.field?, Json.fields?, Entries.get?, Json.text?, hf, hl]

theorem Call.decode?_encode {c : Call} (h : c.lines.Both (accept · = true)) :
    Call.decode? accept c.encode = some c := by
  obtain ⟨hf, hl⟩ := h
  simp [decode?, encode, LineRange.decode?, LineRange.fields, Json.textField, Json.wholeField,
    Json.field?, Json.fields?, Entries.get?, Json.text?, hf, hl,
    CallKind.ofName?_name]

theorem Json.nullableField_optionalText {value : Json} {name : String} {s : Option String}
    (h : value.field? name = some (optionalText s)) : value.nullableField name = some s := by
  cases s <;> simp [nullableField, h, optionalText]

theorem Import.decode?_encode {i : Import} (hl : accept i.line = true)
    (hu : ∀ n ∈ i.usageLines, accept n = true) : Import.decode? accept i.encode = some i := by
  have hlocal : i.encode.nullableField "localName" = some i.localName :=
    Json.nullableField_optionalText (by simp [encode, Json.field?, Json.fields?, Entries.get?])
  have horigin : i.encode.nullableField "origin" = some i.origin.text? :=
    Json.nullableField_optionalText (by simp [encode, Json.field?, Json.fields?, Entries.get?])
  have hlines : i.encode.listField (fun item => do
      let n ← item.number?.bind Number.toInt?
      if accept n then some n else none) "usageLines" = some i.usageLines := by
    have hitems : (i.encode.field? "usageLines").bind Json.items? =
        some (i.usageLines.map Json.int) := by
      simp [encode, Json.field?, Json.fields?, Entries.get?, Json.items?]
    obtain ⟨value, hf, hv⟩ := Option.bind_eq_some_iff.1 hitems
    simp only [Json.listField, hf, hv, Option.bind_eq_bind, Option.bind_some]
    exact mapM_map_eq_some fun n hn => by simp [hu n hn]
  simp only [decode?, hlocal, horigin, hlines]
  simp [encode, Json.textField, Json.wholeField, Json.field?, Json.fields?, Entries.get?,
    Json.text?, Json.bool?, hl, ImportForm.ofName?_name]

theorem Inventory.decode?_encode {inventory : Inventory}
    (h : inventory.EachLine (accept · = true)) :
    Inventory.decode? accept inventory.encode = some inventory := by
  have hc := mapM_map_eq_some fun d hd => Declaration.decode?_encode (h.classes d hd)
  have hf := mapM_map_eq_some fun d hd => Declaration.decode?_encode (h.functions d hd)
  have hv := mapM_map_eq_some fun d hd => Declaration.decode?_encode (h.vars d hd)
  have hk := mapM_map_eq_some fun c hc => Call.decode?_encode (h.calls c hc)
  have hi := mapM_map_eq_some fun i hi =>
    Import.decode?_encode (h.imports i hi).1 (h.imports i hi).2
  simp [decode?, encode, Json.textField, Json.listField, Json.field?, Json.fields?, Entries.get?,
    Json.text?, Json.items?, hc, hf, hv, hk, hi]

end decode

/-! ### Reading the text -/

section readable

open Number

theorem Json.readable_int {n : Int} (h : n.natAbs < 2 ^ 53) : (Json.int n).Readable :=
  .number (isExact_intCast h)

theorem Json.readable_optionalText (s : Option String) : (optionalText s).Readable := by
  cases s with
  | none => exact .null
  | some s => exact .text s

theorem Json.readable_list_map {α : Type} {write : α → Json} {items : List α}
    (h : ∀ item ∈ items, (write item).Readable) : (Json.list (items.map write)).Readable := by
  refine .list fun value hm => ?_
  obtain ⟨item, hi, rfl⟩ := List.mem_map.1 hm
  exact h item hi

/-- A line number that is a number of the format. -/
def IsExactLine (n : Int) : Prop := n.natAbs < 2 ^ 53

theorem Declaration.readable_encode {d : Declaration} (h : d.lines.Both IsExactLine) :
    d.encode.Readable := by
  refine .object (Entries.ofList_of_inOrder ?_) ?_
  · exact (by decide : Entries.InOrder ["name", "startLine", "endLine"])
  simp only [LineRange.fields, List.forall_mem_cons]
  exact ⟨.text _, Json.readable_int h.1, Json.readable_int h.2, List.forall_mem_nil _⟩

theorem Call.readable_encode {c : Call} (h : c.lines.Both IsExactLine) : c.encode.Readable := by
  refine .object (Entries.ofList_of_inOrder ?_) ?_
  · exact (by decide : Entries.InOrder ["name", "startLine", "endLine", "kind"])
  simp only [LineRange.fields, List.cons_append, List.nil_append, List.forall_mem_cons]
  exact ⟨.text _, Json.readable_int h.1, Json.readable_int h.2, .text _, List.forall_mem_nil _⟩

theorem Import.readable_encode {i : Import} (hl : IsExactLine i.line)
    (hu : ∀ n ∈ i.usageLines, IsExactLine n) : i.encode.Readable := by
  refine .object (Entries.ofList_of_inOrder ?_) ?_
  · exact (by decide : Entries.InOrder ["importedName", "localName", "source", "kind", "origin",
      "line", "pathExists", "usageLines"])
  simp only [List.forall_mem_cons]
  exact ⟨.text _, Json.readable_optionalText _, .text _, .text _, Json.readable_optionalText _,
    Json.readable_int hl, .bool _, Json.readable_list_map fun n hn => Json.readable_int (hu n hn),
    List.forall_mem_nil _⟩

theorem Inventory.readable_encode {inventory : Inventory} (h : inventory.EachLine IsExactLine) :
    inventory.encode.Readable := by
  refine .object (Entries.ofList_of_inOrder ?_) ?_
  · exact (by decide : Entries.InOrder ["filePath", "dialect", "classes", "functions", "variables",
      "functionCalls", "imports"])
  simp only [List.forall_mem_cons]
  exact ⟨.text _, .text _,
    Json.readable_list_map fun d hd => Declaration.readable_encode (h.classes d hd),
    Json.readable_list_map fun d hd => Declaration.readable_encode (h.functions d hd),
    Json.readable_list_map fun d hd => Declaration.readable_encode (h.vars d hd),
    Json.readable_list_map fun c hc => Call.readable_encode (h.calls c hc),
    Json.readable_list_map fun i hi =>
      Import.readable_encode (h.imports i hi).1 (h.imports i hi).2,
    List.forall_mem_nil _⟩

end readable

end EndpointAtlas
