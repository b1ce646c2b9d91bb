import EndpointAtlas.Proofs.Endpoint.Twice
import EndpointAtlas.Proofs.Inventory.Memory
import EndpointAtlas.Proofs.Syntax.Comments
import Mathlib.Data.List.Flatten

/-!
The local names that a file binds to what other modules give. Main statement: the imports of an
inventory are, in the order of the text, one for each place where such a name is bound by an import
statement, by `require` behind `import`, or by a variable whose value is a call of `require`; of
these last the ones in braces that have a default value, stand behind three dots or lie in a pattern
inside, and those before a literal behind a comment, are missing.
-/

set_option autoImplicit false

namespace EndpointAtlas

namespace Tree

/-! ### What a file binds -/

mutual

/-- Where a pattern or an import clause spells the names that it binds: everywhere but in keys, in
default values and in names of the other module that go by another name here. -/
def binders : Tree → List Tree
  | .node kind role span children =>
    if kind = .identifier ∨ kind = .shorthandTarget then [.node kind role span children]
    else bindersAmong (children.any fun child => child.role = .newName) children

def bindersAmong (renamed : Bool) : List Tree → List Tree
  | [] => []
  | first :: rest =>
    (if first.role = .key ∨ first.role = .fallback ∨ first.role = .name ∧ renamed = true then []
      else first.binders) ++ bindersAmong renamed rest

end

/-- The children but for comments. -/
def parts (tree : Tree) : List Tree := tree.children.filter (!·.isComment)

def inside (source : List Char) (tree : Tree) : String :=
  String.ofList ((tree.textIn source).drop 1).dropLast

def requiredLiteral? (source : List Char) (tree : Tree) : Option Tree :=
  if tree.kind = .call ∧ (tree.child? .callee).any (fun callee =>
      callee.kind = .identifier ∧ callee.text source = "require") then
    ((tree.child? .arguments).bind (·.parts.head?)).filter (·.kind = .string)
  else none

def moduleLiteral? (source : List Char) (tree : Tree) : Option Tree :=
  if tree.kind = .importStatement ∨ tree.kind = .importRequire then tree.child? .source
  else if tree.kind = .declarator then (tree.child? .value).bind (·.requiredLiteral? source)
  else none

/-- What of a node binds names from a module. Of variables these are a plain name and a pattern in
braces. -/
def bindingParts (tree : Tree) : List Tree :=
  if tree.kind = .importStatement then tree.children.filter (·.kind = .importClause)
  else if tree.kind = .importRequire then [tree]
  else if tree.kind = .declarator then
    (tree.child? .name).toList.filter fun name =>
      name.kind = .identifier ∨ name.kind = .objectPattern
  else []

/-- The names that parts of a node bind, each with the specifier of the module. -/
def bindings (source : List Char) (tree : Tree) (parts : List Tree) : List (String × String) :=
  match tree.moduleLiteral? source with
  | some literal => (parts.flatMap binders).map fun name =>
    (name.text source, literal.inside source)
  | none => []

/-- Every local name that a file binds to what a module gives, with the specifier of the module, in
the order of the text. -/
def bound (source : List Char) (tree : Tree) : List (String × String) :=
  tree.nodes.flatMap fun node => node.bindings source node.bindingParts

/-! ### What is recorded of it -/

/-- Does an item of a pattern in braces bind a property under its own name or another one, and
nothing else? -/
def isPlainItem (item : Tree) : Bool :=
  item.kind = .shorthandTarget || item.kind = .pairPattern &&
  (item.child? .value).any (·.kind = .identifier)

def plainParts (pattern : Tree) : List Tree :=
  if pattern.kind = .identifier then [pattern]
  else if pattern.kind = .objectPattern then pattern.children.filter isPlainItem
  else []

def leadsWithLiteral (call : Tree) : Bool :=
  ((call.child? .arguments).bind (·.children.head?)).any (·.kind = .string)

def recordedParts (tree : Tree) : List Tree :=
  if tree.kind = .declarator then
    if (tree.child? .value).any leadsWithLiteral then (tree.child? .name).toList.flatMap plainParts
    else []
  else tree.bindingParts

/-- The names with their specifiers that an inventory records. -/
def recorded (source : List Char) (tree : Tree) : List (String × String) :=
  tree.nodes.flatMap fun node => node.bindings source node.recordedParts

/-- Does a variable that takes its value from `require` bind names in the plain way only? -/
def BindsPlainly (source : List Char) (tree : Tree) : Prop :=
  tree.bindings source tree.bindingParts = [] ∨
    (tree.child? .value).any leadsWithLiteral = true ∧
      ∀ pattern ∈ tree.child? .name, ∀ item ∈ pattern.children, item.isPlainItem = true ∨
      item.binders = []

instance (source : List Char) (tree : Tree) : Decidable (tree.BindsPlainly source) :=
  inferInstanceAs (Decidable (_ ∨ _ ∧ ∀ _ ∈ _, ∀ _ ∈ _, _))

/-! ### How imports and patterns are built -/

def forms (tree : Tree) : List (Kind × Role) := tree.parts.map fun part => (part.kind, part.role)

/-- What the grammar has below a node of a kind, as far as names from other modules go. -/
def Allows (kind : Kind) (forms : List (Kind × Role)) : Prop :=
  match kind with
  | .importStatement => (forms.filter (·.1 = .importClause)).length ≤ 1 ∧
    ∀ form ∈ forms, form.2 = .source → form.1 = .string
  | .importClause => ∀ form ∈ forms,
    form ∈ [(Kind.identifier, Role.plain), (.namespaceImport, .plain), (.namedImports, .plain)]
  | .namespaceImport => forms = [(.identifier, .plain)]
  | .namedImports => ∀ form ∈ forms, form = (.importSpecifier, .plain)
  | .importSpecifier =>
    forms ∈ [[(Kind.identifier, Role.name)], [(.identifier, .name), (.identifier, .newName)],
    [(.string, .name), (.identifier, .newName)]]
  | .importRequire => forms = [(.identifier, .plain), (.string, .source)]
  | .objectPattern => ∀ form ∈ forms, form.2 = .plain
  | .pairPattern => forms.map Prod.snd = [.key, .value]
  | _ => True

instance (kind : Kind) (forms : List (Kind × Role)) : Decidable (Allows kind forms) := by
  cases kind <;> dsimp only [Allows] <;> infer_instance

/-- Is a node built as the grammar has it? Comments can stand everywhere but inside words, literals
and comments. -/
@[mk_iff] structure Regular (source : List Char) (node : Tree) : Prop where
  leaf : node.kind ∈ [Kind.comment, .identifier, .shorthandTarget, .string] → node.children = []
  comments : ∀ child ∈ node.children, child.isComment = true → child.role = .plain
  quoted : node.kind = .string → (node.textIn source).head?.any (fun quote => Text.isQuote quote &&
    2 ≤ (node.textIn source).length && (node.textIn source).getLast? = some quote) = true
  built : Allows node.kind node.forms

instance (source : List Char) (node : Tree) : Decidable (node.Regular source) :=
  decidable_of_iff _ (regular_iff source node).symm

/-! ### Nodes that are built so -/

section

variable {source : List Char} {node child : Tree}

def AllRegular (source : List Char) (tree : Tree) : Prop := ∀ node ∈ tree.nodes, node.Regular source

instance (source : List Char) (tree : Tree) : Decidable (tree.AllRegular source) :=
  inferInstanceAs (Decidable (∀ _ ∈ _, _))

theorem AllRegular.self (h : node.AllRegular source) : node.Regular source :=
  h node node.mem_nodes_self

theorem AllRegular.of_child (h : node.AllRegular source) (hc : child ∈ node.children) :
    child.AllRegular source :=
  fun inner hi => h inner (nodes_subset_of_mem_children hc hi)

def adds (node child : Tree) : List Tree :=
  if child.role = .key ∨ child.role = .fallback ∨
      child.role = .name ∧ (node.children.any fun other => other.role = .newName) = true then []
  else child.binders

theorem bindersAmong_eq (renamed : Bool) (trees : List Tree) :
    bindersAmong renamed trees = trees.flatMap fun tree =>
      if tree.role = .key ∨ tree.role = .fallback ∨ tree.role = .name ∧ renamed = true then []
      else tree.binders := by
  induction trees with
  | nil => rfl
  | cons first rest ih => rw [bindersAmong, ih, List.flatMap_cons]

theorem binders_of_name (h : node.kind = .identifier ∨ node.kind = .shorthandTarget) :
    node.binders = [node] := by
  cases node
  rw [binders]
  exact if_pos h

theorem binders_of_not_name (h : ¬(node.kind = .identifier ∨ node.kind = .shorthandTarget)) :
    node.binders = node.children.flatMap node.adds := by
  cases node
  rw [binders, bindersAmong_eq]
  exact if_neg h

theorem adds_of_role (h : child.role ∈ [Role.plain, .value, .newName, .source]) :
    node.adds child = child.binders := by
  rw [adds, if_neg]
  rintro (role | role | ⟨role, -⟩) <;> simp [role] at h

theorem adds_of_comment (h : node.AllRegular source) (hc : child ∈ node.children)
    (comment : child.isComment = true) : node.adds child = [] ∧ child.kind = .comment := by
  have kind : child.kind = .comment := by simpa [isComment] using comment
  have leaf := (h.of_child hc).self.leaf (by simp [kind])
  rw [adds_of_role (by simp [h.self.comments child hc comment]),
    binders_of_not_name (by simp [kind]), leaf]
  exact ⟨rfl, kind⟩

theorem binders_eq_parts (h : node.AllRegular source)
    (kind : ¬(node.kind = .identifier ∨ node.kind = .shorthandTarget)) :
    node.binders = node.parts.flatMap node.adds := by
  rw [binders_of_not_name kind, parts]
  refine ((Endpoint.flatMap_filter_eq_iff _ _ _).2 fun child hc comment => ?_).symm
  exact (adds_of_comment h hc (by simpa using comment)).1

theorem child?_eq_parts (h : node.Regular source) {role : Role} (named : role ≠ .plain) :
    node.child? role = node.parts.find? (·.role = role) := by
  rw [child?, parts, List.find?_filter]
  refine List.find?_congr fun child hc => ?_
  cases comment : child.isComment with
  | false => simp
  | true => simp [h.comments child hc comment, Ne.symm named]

theorem find?_kind_eq_parts (node : Tree) {kind : Kind} (named : kind ≠ .comment) :
    node.children.find? (·.kind = kind) = node.parts.find? (·.kind = kind) := by
  rw [parts, List.find?_filter]
  refine List.find?_congr fun child _ => ?_
  by_cases comment : child.kind = .comment
  · simp [isComment, comment, Ne.symm named]
  · simp [isComment, comment]

theorem newName_eq_parts (h : node.Regular source) :
    (node.children.any fun other => other.role = .newName) = node.parts.any fun other =>
      other.role = .newName := by
  rw [parts, List.any_filter, Bool.eq_iff_iff, List.any_eq_true, List.any_eq_true]
  refine exists_congr fun child => and_congr_right fun hc => ?_
  cases comment : child.isComment with
  | false => simp
  | true => simp [h.comments child hc comment]

theorem literal_eq_inside (h : node.Regular source) (kind : node.kind = .string) :
    node.literal source = node.inside source := by
  obtain ⟨quote, first, shape⟩ := (Option.any_eq_true _ _).1 (h.quoted kind)
  simp only [Bool.and_eq_true, decide_eq_true_eq] at shape
  obtain ⟨⟨isQuote, long⟩, last⟩ := shape
  obtain ⟨rest, text⟩ : ∃ rest, node.textIn source = quote :: rest := by
    cases ht : node.textIn source <;> simp_all
  have ends : rest = rest.dropLast ++ [quote] := by
    have : rest ≠ [] := by
      rintro rfl
      simp [text] at long
    rw [text, List.getLast?_cons_of_ne_nil this, List.getLast?_eq_some_getLast this] at last
    rw [← Option.some.inj last, List.dropLast_append_getLast]
  rw [literal, inside, text, List.drop_one, List.tail_cons]
  refine congrArg String.ofList ?_
  conv_lhs => rw [ends]
  exact Text.unquote_quoted isQuote _

theorem parts_of_one {kind : Kind} {role : Role} (h : node.forms = [(kind, role)]) :
    ∃ only, node.parts = [only] ∧ only.kind = kind ∧ only.role = role := by
  obtain ⟨only, hp, form⟩ := List.map_eq_singleton_iff.1 h
  exact ⟨only, hp, congrArg Prod.fst form, congrArg Prod.snd form⟩

theorem parts_of_two {kind kind' : Kind} {role role' : Role}
    (h : node.forms = [(kind, role), (kind', role')]) :
    ∃ first second, node.parts = [first, second] ∧ (first.kind = kind ∧ first.role = role) ∧
      second.kind = kind' ∧ second.role = role' := by
  obtain ⟨first, rest, hp, form, hr⟩ := List.map_eq_cons_iff.1 h
  obtain ⟨second, rfl, form'⟩ := List.map_eq_singleton_iff.1 hr
  exact ⟨first, second, hp, ⟨congrArg Prod.fst form, congrArg Prod.snd form⟩,
    congrArg Prod.fst form', congrArg Prod.snd form'⟩

theorem form_mem (hc : child ∈ node.children) (plain : child.isComment = false) :
    (child.kind, child.role) ∈ node.forms :=
  List.mem_map_of_mem (List.mem_filter.2 ⟨hc, by simp [plain]⟩)

theorem specifier_binds (h : node.AllRegular source) (kind : node.kind = .importSpecifier) :
    ∃ name, node.child? .name = some name ∧ node.binders = [(node.child? .newName).getD name] := by
  have built := h.self.built
  rw [kind] at built
  have shape : node.binders = node.parts.flatMap node.adds := binders_eq_parts h (by simp [kind])
  rw [child?_eq_parts h.self (by decide), child?_eq_parts h.self (by decide), shape]
  have named (first second : Tree) (hp : node.parts = [first, second])
      (outside : first.role = .name) (inside : second.kind = .identifier ∧ second.role = .newName) :
      ∃ name, node.parts.find? (·.role = .name) = some name ∧
        node.parts.flatMap node.adds = [(node.parts.find? (·.role = .newName)).getD name] := by
    have own :
        node.adds first = [] := by simp [adds, outside, newName_eq_parts h.self, hp, inside.2]
    have new : node.adds second = [second] := by
      rw [adds_of_role (by simp [inside.2]), binders_of_name (.inl inside.1)]
    exact ⟨first, by simp [hp, outside], by simp [hp, own, new, outside, inside.2]⟩
  simp only [Allows, List.mem_cons, List.not_mem_nil, or_false] at built
  rcases built with forms | forms | forms
  · obtain ⟨only, hp, kind, role⟩ := parts_of_one forms
    have own : node.adds only = [only] := by
      rw [← binders_of_name (.inl kind)]
      simp [adds, role, newName_eq_parts h.self, hp]
    exact ⟨only, by simp [hp, role], by simp [hp, own, role]⟩
  · obtain ⟨first, second, hp, ⟨-, outside⟩, inside⟩ := parts_of_two forms
    exact named first second hp outside inside
  · obtain ⟨first, second, hp, ⟨-, outside⟩, inside⟩ := parts_of_two forms
    exact named first second hp outside inside

theorem whole_binds (h : node.AllRegular source) (kind : node.kind = .namespaceImport) :
    ∃ name, node.children.find? (·.kind = .identifier) = some name ∧ node.binders = [name] := by
  have built := h.self.built
  rw [kind] at built
  obtain ⟨only, hp, kind', role⟩ := parts_of_one built
  refine ⟨only, by simp [find?_kind_eq_parts, hp, kind'], ?_⟩
  rw [binders_eq_parts h (by simp [kind]), hp, List.flatMap_singleton,
    adds_of_role (by simp [role]), binders_of_name (.inl kind')]

theorem named_binds (h : node.AllRegular source) (kind : node.kind = .namedImports) :
    (node.children.filterMap fun specifier =>
        if specifier.kind = .importSpecifier then
          (specifier.child? .name).map fun name =>
            (name.literal source, some (((specifier.child? .newName).getD name).text source))
        else none).filterMap Prod.snd = node.binders.map (·.text source) := by
  have built := h.self.built
  rw [kind] at built
  rw [List.filterMap_filterMap, List.filterMap_eq_flatMap_toList,
    binders_of_not_name (by simp [kind]), List.map_flatMap]
  refine List.flatMap_congr fun specifier hs => ?_
  have all := h.of_child hs
  cases comment : specifier.isComment with
  | true =>
    obtain ⟨none, kind'⟩ := adds_of_comment h hs comment
    simp [none, kind']
  | false =>
    obtain ⟨kind', role⟩ := Prod.mk.inj (built _ (form_mem hs comment))
    obtain ⟨name, hn, hb⟩ := specifier_binds all kind'
    rw [adds_of_role (by simp [role]), hb, if_pos kind', hn]
    rfl

theorem clauseNames_eq (h : node.AllRegular source) (kind : node.kind = .importClause) :
    (node.clauseNames source).filterMap Prod.snd = node.binders.map (·.text source) := by
  have built := h.self.built
  rw [kind] at built
  rw [clauseNames, List.filterMap_flatMap, binders_of_not_name (by simp [kind]), List.map_flatMap]
  refine List.flatMap_congr fun item hi => ?_
  have all := h.of_child hi
  cases comment : item.isComment with
  | true =>
    obtain ⟨none, kind'⟩ := adds_of_comment h hi comment
    simp [none, kind']
  | false =>
    have form := built _ (form_mem hi comment)
    simp only [List.mem_cons, Prod.mk.injEq, List.not_mem_nil, or_false] at form
    rcases form with ⟨kind', role⟩ | ⟨kind', role⟩ | ⟨kind', role⟩
    · simp [adds_of_role, role, kind', binders_of_name]
    · obtain ⟨name, hn, hb⟩ := whole_binds all kind'
      simp [adds_of_role, role, kind', hn, hb]
    · rw [adds_of_role (by simp [role]), ← named_binds all kind']
      simp [kind']

def itemName? (source : List Char) (item : Tree) : Option (String × Option String) :=
  if item.kind = .shorthandTarget then some (item.text source, some (item.text source))
  else if item.kind = .pairPattern then
    match item.child? .key, item.child? .value with
    | some key, some value =>
      if value.kind = .identifier then some (key.text source, some (value.text source)) else none
    | _, _ => none
  else none

theorem itemName?_cases (h : node.AllRegular source) :
    (node.isPlainItem = true ∧ ∃ name outside,
      node.itemName? source = some (outside, some (name.text source)) ∧
      node.binders = [name]) ∨ node.isPlainItem = false ∧ node.itemName? source = none := by
  by_cases short : node.kind = .shorthandTarget
  · exact .inl ⟨by simp [isPlainItem, short], node, node.text source, by simp [itemName?, short],
      binders_of_name (.inr short)⟩
  by_cases pair : node.kind = .pairPattern
  · have built := h.self.built
    rw [pair] at built
    obtain ⟨key, value, hp, hk, hv⟩ :
        ∃ key value, node.parts = [key, value] ∧ key.role = .key ∧ value.role = .value := by
      obtain ⟨first, rest, hp, hk, hr⟩ := List.map_eq_cons_iff.1 (List.map_map.symm.trans built)
      obtain ⟨second, rfl, hv⟩ := List.map_eq_singleton_iff.1 hr
      exact ⟨first, second, hp, hk, hv⟩
    have foundKey : node.child? .key = some key := by simp [child?_eq_parts h.self, hp, hk]
    have foundValue :
        node.child? .value = some value := by simp [child?_eq_parts h.self, hp, hk, hv]
    by_cases name : value.kind = .identifier
    · refine .inl ⟨by simp [isPlainItem, pair, foundValue, name], value, key.text source,
        by simp [itemName?, pair, foundKey, foundValue, name], ?_⟩
      rw [binders_eq_parts h (by simp [pair]), hp]
      simp [adds, hk, hv, binders_of_name, name]
    · exact .inr ⟨by simp [isPlainItem, pair, foundValue, name],
        by simp [itemName?, pair, foundKey, foundValue, name]⟩
  · exact .inr ⟨by simp [isPlainItem, short, pair], by simp [itemName?, short, pair]⟩

theorem requiredNames_eq (h : node.AllRegular source) :
    (node.requiredNames source).filterMap Prod.snd =
      (node.plainParts.flatMap binders).map (·.text source) := by
  by_cases name : node.kind = .identifier
  · simp [requiredNames, plainParts, name, binders_of_name]
  by_cases braces : node.kind = .objectPattern
  · have each : ∀ item ∈ node.children, item.AllRegular source := fun item hi => h.of_child hi
    rw [requiredNames, if_neg name, if_pos braces, plainParts, if_neg name, if_pos braces]
    change (node.children.filterMap (itemName? source)).filterMap Prod.snd = _
    generalize node.children = items at each
    induction items with
    | nil => rfl
    | cons item rest ih =>
      obtain ⟨first, others⟩ := List.forall_mem_cons.1 each
      rcases itemName?_cases first with ⟨plain, found, outside, given, binds⟩ | ⟨other, none⟩
      · simp [given, plain, binds, ih others]
      · simp [none, other, ih others]
  · simp [requiredNames, plainParts, name, braces]

theorem required?_eq (h : node.AllRegular source) :
    node.required? source = if node.leadsWithLiteral = true then
      (node.requiredLiteral? source).map (inside source) else none := by
  unfold required? requiredLiteral? leadsWithLiteral
  split
  · cases ha : node.child? .arguments with
    | none => rfl
    | some arguments =>
      simp only [Option.bind_some]
      cases hc : arguments.children with
      | nil => rfl
      | cons first rest =>
        have all := (h.of_child (mem_children_of_child? ha)).of_child (hc ▸ List.mem_cons_self)
        by_cases literal : first.kind = .string
        · have leads : arguments.parts.head? = some first := by
            simp [parts, hc, isComment, literal]
          simp [literal, leads, literal_eq_inside all.self literal]
        · simp [literal]
  · simp

theorem kind_of_source (h : node.Regular source)
    (kind : node.kind = .importStatement ∨ node.kind = .importRequire)
    {module : Tree} (hm : node.child? .source = some module) : module.kind = .string := by
  have role : module.role = .source := by simpa using List.find?_some hm
  have plain : module.isComment = false := by
    cases comment : module.isComment with
    | false => rfl
    | true => simp [h.comments module (mem_children_of_child? hm) comment] at role
  have form := form_mem (mem_children_of_child? hm) plain
  have built := h.built
  rcases kind with kind | kind <;> rw [kind] at built
  · exact built.2 _ form role
  · rw [built] at form
    simpa [role] using form

theorem importedNames_eq (h : node.AllRegular source) (kind : node.kind = .importStatement) :
    (node.importedNames source).filterMap Prod.snd =
      ((node.children.filter (·.kind = .importClause)).flatMap binders).map (·.text source) := by
  have built := h.self.built
  rw [kind] at built
  have few : (node.children.filter (·.kind = .importClause)).length ≤ 1 := by
    have same : node.children.filter (·.kind = .importClause) =
        node.parts.filter (·.kind = .importClause) := by
      rw [parts, List.filter_filter]
      refine List.filter_congr fun child _ => ?_
      by_cases clause : child.kind = .importClause <;> simp [clause, isComment]
    have counted := built.1
    rw [forms, List.filter_map, List.length_map] at counted
    rw [same]
    exact counted
  unfold importedNames
  rw [← List.head?_filter]
  have clauses : ∀ clause ∈ node.children.filter (·.kind = .importClause),
      clause.kind = .importClause ∧ clause.AllRegular source := fun clause hc =>
    ⟨by simpa using (List.mem_filter.1 hc).2, h.of_child (List.mem_filter.1 hc).1⟩
  generalize node.children.filter (·.kind = .importClause) = found at few clauses
  cases found with
  | nil => rfl
  | cons clause others =>
    obtain rfl : others = [] :=
      List.length_eq_zero_iff.1 (Nat.le_zero.1 (Nat.le_of_succ_le_succ few))
    obtain ⟨kind, all⟩ := clauses clause List.mem_cons_self
    simpa using clauseNames_eq all kind

end

end Tree

/-- The local name of an import with the specifier of its module, if it has such a name. -/
def Import.binding? (import_ : Import) : Option (String × String) :=
  import_.localName.map fun name => (name, import_.source)

def Arrival.binding? (arrival : Arrival) : Option (String × String) :=
  arrival.localName.map fun name => (name, arrival.source)

namespace Tree

variable {source : List Char} {node : Tree}

theorem arriving_bindings (form : ImportForm) (module : String) (lines : LineRange)
    (names : List (String × Option String)) :
    (arriving form module lines names).filterMap Arrival.binding? =
      (names.filterMap Prod.snd).map fun name => (name, module) := by
  rw [arriving, List.filterMap_map, List.map_filterMap]
  rfl

theorem arrivals_of_statement {visit : Visit} (h : visit.tree.AllRegular source)
    (kind : visit.tree.kind = .importStatement) :
    (arrivals source visit).filterMap Arrival.binding? =
      visit.tree.bindings source visit.tree.recordedParts := by
  rw [bindings, moduleLiteral?, if_pos (.inl kind)]
  simp only [arrivals, kind, if_true]
  cases hm : visit.tree.child? .source with
  | none => rfl
  | some module =>
    have literal := literal_eq_inside (h.of_child (mem_children_of_child? hm)).self
      (kind_of_source h.self (.inl kind) hm)
    simp only [arriving_bindings, importedNames_eq h kind, literal]
    simp [recordedParts, bindingParts, kind]

theorem arrivals_of_require {visit : Visit} (h : visit.tree.AllRegular source)
    (kind : visit.tree.kind = .importRequire) :
    (arrivals source visit).filterMap Arrival.binding? =
      visit.tree.bindings source visit.tree.recordedParts := by
  obtain ⟨node, parent, earlier⟩ := visit
  simp only at h kind ⊢
  have built := h.self.built
  rw [kind] at built
  obtain ⟨name, module, hp, hn, hm⟩ := parts_of_two built
  have mem : module ∈ node.children := (List.mem_filter.1 (show module ∈ node.parts by simp [hp])).1
  have literal := literal_eq_inside (h.of_child mem).self hm.1
  have empty : module.binders = [] := by
    rw [binders_of_not_name (by simp [hm]), (h.of_child mem).self.leaf (by simp [hm]),
      List.flatMap_nil]
  have binds : node.binders = [name] := by
    rw [binders_eq_parts h (by simp [kind]), hp]
    simp [adds_of_role, hn, hm, empty, binders_of_name]
  have found : node.child? .source = some module := by simp [child?_eq_parts h.self, hp, hn, hm]
  simp [arrivals, kind, find?_kind_eq_parts, hp, hn, hm, arriving_bindings, bindings,
    moduleLiteral?, found, recordedParts, bindingParts, binds, literal]

theorem arrivals_of_declarator {visit : Visit} (h : visit.tree.AllRegular source)
    (kind : visit.tree.kind = .declarator) :
    (arrivals source visit).filterMap Arrival.binding? =
      visit.tree.bindings source visit.tree.recordedParts := by
  rw [bindings, moduleLiteral?, if_neg (by simp [kind]), if_pos kind]
  simp only [arrivals, kind, reduceCtorEq, if_true, if_false]
  cases hn : visit.tree.child? .name with
  | none => cases (visit.tree.child? .value).bind (requiredLiteral? source) <;> simp [recordedParts,
      kind, hn]
  | some name =>
    cases hv : visit.tree.child? .value with
    | none => rfl
    | some value =>
      simp only [Option.bind_some]
      rw [required?_eq (h.of_child (mem_children_of_child? hv))]
      cases leads : value.leadsWithLiteral with
      | false => cases value.requiredLiteral? source <;> simp [recordedParts, kind, hv, leads]
      | true =>
        cases value.requiredLiteral? source with
        | none => rfl
        | some literal =>
          simp [arriving_bindings, requiredNames_eq (h.of_child (mem_children_of_child? hn)),
            recordedParts, kind, hn, hv, leads]

theorem arrivals_bindings {visit : Visit} (h : visit.tree.AllRegular source) :
    (arrivals source visit).filterMap Arrival.binding? =
      visit.tree.bindings source visit.tree.recordedParts := by
  by_cases statement : visit.tree.kind = .importStatement
  · exact arrivals_of_statement h statement
  by_cases require : visit.tree.kind = .importRequire
  · exact arrivals_of_require h require
  by_cases variable_ : visit.tree.kind = .declarator
  · exact arrivals_of_declarator h variable_
  · simp [arrivals, statement, require, variable_, bindings, moduleLiteral?]

/-! ### What is missing -/

theorem map_eq_map_iff_of_sublist {α β : Type} {f : α → β} {s t : List α} (h : s.Sublist t) :
    s.map f = t.map f ↔ s = t :=
  ⟨fun same => h.eq_of_length (by simpa using congrArg List.length same), fun same => by rw [same]⟩

theorem flatMap_eq_flatMap_iff_of_sublist {α β : Type} {f g : α → List β} {items : List α}
    (h : ∀ a ∈ items, (f a).Sublist (g a)) : items.flatMap f = items.flatMap g ↔
    ∀ a ∈ items, f a = g a := by
  induction items with
  | nil => simp
  | cons a rest ih =>
    obtain ⟨first, others⟩ := List.forall_mem_cons.1 h
    rw [List.flatMap_cons, List.flatMap_cons, List.forall_mem_cons, ← ih others]
    constructor
    · intro same
      -- Both parts of the left side are no longer than those of the right side, so neither is
      -- shorter.
      have lengths := congrArg List.length same
      rw [List.length_append, List.length_append] at lengths
      have less := first.length_le
      have less' := (List.Sublist.flatMap_right rest others).length_le
      have here : f a = g a := first.eq_of_length (by omega)
      exact ⟨here, by rwa [here, List.append_cancel_left_eq] at same⟩
    · rintro ⟨here, there⟩
      rw [here, there]

theorem plainParts_binders (h : node.AllRegular source) :
    let all := ([node].filter fun name =>
        name.kind = .identifier ∨ name.kind = .objectPattern).flatMap binders
    (node.plainParts.flatMap binders).Sublist all ∧
      (node.plainParts.flatMap binders = all ↔
        all = [] ∨ ∀ item ∈ node.children, item.isPlainItem = true ∨ item.binders = []) := by
  intro all
  by_cases name : node.kind = .identifier
  · have whole : node.plainParts.flatMap binders = all := by simp [all, plainParts, name]
    exact ⟨whole ▸ .refl _, iff_of_true whole (.inr (by simp [h.self.leaf (by simp [name])]))⟩
  by_cases braces : node.kind = .objectPattern
  · have built := h.self.built
    rw [braces] at built
    have whole : all = node.children.flatMap binders := by
      have one : all = node.binders := by simp [all, braces]
      rw [one, binders_of_not_name (by simp [braces])]
      refine List.flatMap_congr fun item hi => adds_of_role ?_
      cases comment : item.isComment with
      | true => simp [h.self.comments item hi comment]
      | false => simp [show item.role = .plain from built _ (form_mem hi comment)]
    have looked : node.plainParts = node.children.filter isPlainItem := by simp [plainParts, braces]
    have each : (∀ item ∈ node.children, item.isPlainItem = false → item.binders = []) ↔
        ∀ item ∈ node.children, item.isPlainItem = true ∨ item.binders = [] :=
      forall₂_congr fun item _ => by cases item.isPlainItem <;> simp
    rw [looked, whole]
    refine ⟨List.filter_sublist.flatMap _, ?_⟩
    rw [Endpoint.flatMap_filter_eq_iff, each]
    refine ⟨.inr, fun either => either.elim (fun none item hi => .inr ?_) id⟩
    exact List.flatMap_eq_nil_iff.1 none item hi
  · simp [all, plainParts, name, braces]

theorem recordedParts_bindings (h : node.AllRegular source) :
    (node.bindings source node.recordedParts).Sublist (node.bindings source node.bindingParts) ∧
      (node.bindings source node.recordedParts = node.bindings source node.bindingParts ↔
        (node.kind = .declarator → node.BindsPlainly source)) := by
  by_cases variable_ : node.kind = .declarator
  · simp only [variable_, forall_const]
    cases hl : node.moduleLiteral? source with
    | none => simp [bindings, BindsPlainly, hl]
    | some literal =>
      have shown (parts : List Tree) : node.bindings source parts =
          (parts.flatMap binders).map fun name => (name.text source, literal.inside source) := by
        rw [bindings, hl]
      have bound : node.bindingParts = (node.child? .name).toList.filter fun name =>
          name.kind = .identifier ∨ name.kind = .objectPattern := by simp [bindingParts, variable_]
      have looked : node.recordedParts = if (node.child? .value).any leadsWithLiteral = true then
          (node.child? .name).toList.flatMap plainParts else
            [] := by simp [recordedParts, variable_]
      rw [BindsPlainly, shown, shown, looked, bound]
      cases hn : node.child? .name with
      | none => simp
      | some name =>
        obtain ⟨part, whole⟩ := plainParts_binders (h.of_child (mem_children_of_child? hn))
        cases (node.child? .value).any leadsWithLiteral with
        | false =>
          simp only [Bool.false_eq_true, if_false, List.flatMap_nil, List.map_nil,
            List.nil_sublist, false_and, or_false, true_and]
          exact eq_comm
        | true =>
          simp only [Option.toList_some, List.flatMap_singleton, if_true, true_and,
            Option.mem_some_iff, forall_eq', List.map_eq_nil_iff]
          exact ⟨part.map _, (map_eq_map_iff_of_sublist part).trans whole⟩
  · have whole : node.recordedParts = node.bindingParts := by simp [recordedParts, variable_]
    simp [whole, variable_]

end Tree

namespace Inventory

/-- The imports of a file that reads without errors. Those with a local name are, one by one and in
the order of the text, the names that the file binds to what modules give, each with the specifier
of its module, but for some that variables bind; they are all of these exactly if every variable
with a value from `require` binds plainly. -/
theorem imports_eq_bound_iff {source : List Char} {tree : Tree}
    (grammar : tree.hasErrors = false → tree.AllRegular source) (clean : tree.hasErrors = false)
    (files : FileTree)
    (options : ExtractOptions) (directory filePath : String) (dialect : Dialect) (memory : Memory) :
    let imports :=
      ((ofFindings files options directory filePath dialect (.ofTree source tree)).run
        memory).1.imports
    imports.filterMap Import.binding? = tree.recorded source ∧
    (tree.recorded source).Sublist (tree.bound source) ∧
      (imports.filterMap Import.binding? = tree.bound source ↔
        ∀ node ∈ tree.nodes, node.kind = .declarator → node.BindsPlainly source) := by
  intro imports
  have regular : ∀ node ∈ tree.nodes, node.AllRegular source := fun node hn inner hi =>
    grammar clean inner (Tree.nodes_subset hn hi)
  have arrived : imports.filterMap Import.binding? =
      (tree.visits.flatMap (Tree.arrivals source)).filterMap Arrival.binding? := by
    have given := congrArg Inventory.imports
      (ofFindings_answers files options directory filePath dialect (.ofTree source tree) memory).1
    rw [show imports = _ from given, listed, List.filterMap_map]
    rfl
  have recorded : imports.filterMap Import.binding? = tree.recorded source := by
    rw [arrived, List.filterMap_flatMap, Tree.recorded, ← Tree.map_tree_visits, List.flatMap_map]
    exact List.flatMap_congr fun visit hv =>
      Tree.arrivals_bindings (regular _ (Tree.map_tree_visits tree ▸ List.mem_map_of_mem hv))
  have each := fun node hn => Tree.recordedParts_bindings (regular node hn)
  refine ⟨recorded, List.Sublist.flatMap_right _ fun node hn => (each node hn).1, ?_⟩
  rw [recorded, Tree.recorded, Tree.bound, Tree.flatMap_eq_flatMap_iff_of_sublist fun node hn =>
    (each node hn).1]
  exact forall₂_congr fun node hn => (each node hn).2

def importing : List Char :=
  "import d, \x7b a as c \x7d from 'm';\nimport e = require('k');\n".toList ++
    "const \x7b f, g = 1 \x7d = require('v');\n".toList

def importingTree : Tree := parse .typescript importing

theorem imports_eq_bound_iff_importing :
    importingTree.hasErrors = false ∧ importingTree.AllRegular importing ∧
      importingTree.bound importing = [("d", "m"), ("c", "m"), ("e", "k"), ("f", "v"), ("g", "v")] ∧
      ((ofFindings (.empty "/") ⟨none, []⟩ "/p" "/p/a.ts" .typescript
        (.ofTree importing importingTree)).run
        .empty).1.imports.filterMap Import.binding? =
          [("d", "m"), ("c", "m"), ("e", "k"), ("f", "v")] := by
  have facts : importingTree.hasErrors = false ∧ importingTree.AllRegular importing ∧
      importingTree.bound importing = [("d", "m"), ("c", "m"), ("e", "k"), ("f", "v"), ("g", "v")] ∧
      importingTree.recorded importing = [("d", "m"), ("c", "m"), ("e", "k"),
        ("f", "v")] := by decide +kernel
  obtain ⟨clean, regular, bound, recorded⟩ := facts
  have imports := (imports_eq_bound_iff (fun _ =>
      regular) clean (.empty "/") ⟨none, []⟩ "/p" "/p/a.ts" .typescript
    .empty).1
  exact ⟨clean, regular, bound, imports.trans recorded⟩

end Inventory

end EndpointAtlas
