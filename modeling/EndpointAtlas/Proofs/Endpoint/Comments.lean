import EndpointAtlas.Proofs.Endpoint.Range
import EndpointAtlas.Proofs.Syntax.Comments
import EndpointAtlas.Proofs.Text.Overwritten
import Mathlib.Tactic.MkIffOfInductiveProp

/-!
Detection and comments. Reading is a parameter here: of it this takes that a text with its comments
overwritten reads as the text does, less the comments, and that it sets comments apart from what
detection takes the text of. Main statement: what is found in the tree stays when comments are
overwritten, unless one of them stands among decorators or changes what a call's receiver is taken
for; what raw text adds can change, because comments are text to it.
-/

set_option autoImplicit false

namespace EndpointAtlas

namespace Text

theorem mem_dropWhile_of_not {α : Type} {p : α → Bool} {a : α} {s : List α} (h : a ∈ s)
    (hp : p a = false) : a ∈ s.dropWhile p := by
  rw [← List.takeWhile_append_dropWhile (p := p) (l := s), List.mem_append] at h
  rcases h with h | h
  · rw [List.mem_takeWhile_imp h] at hp
    cases hp
  · exact h

theorem mem_trim {c : Char} {s : List Char} (h : c ∈ s) (hc : isBlank c = false) : c ∈ trim s := by
  unfold trim trimEnd trimStart
  exact List.mem_reverse.2
    (mem_dropWhile_of_not (List.mem_reverse.2 (mem_dropWhile_of_not h hc)) hc)

theorem dot_mem_lowerFrom {before : Bool} {s : List Char} (h : '.' ∈ s) :
    '.' ∈ lowerFrom before s := by
  induction s generalizing before with
  | nil => exact h
  | cons c rest ih =>
    rw [lowerFrom]
    rcases List.mem_cons.1 h with rfl | h
    · rw [if_neg (by decide)]
      exact List.mem_append_left _ (by decide)
    · split
      · exact List.mem_cons_of_mem _ (ih h)
      · exact List.mem_append_right _ (ih h)

end Text

theorem Method.ofName?_eq_none_of_dot {name : List Char} (h : '.' ∈ name) :
    Method.ofName? name = none := by
  have hdot : '.' ∈ Text.upper (Text.trim name) :=
    List.mem_flatMap.2 ⟨'.', Text.mem_trim h (by decide), by decide⟩
  rw [Method.ofName?, List.find?_eq_none]
  intro m _ hm
  have htext := congrArg String.toList (of_decide_eq_true hm)
  rw [String.toList_ofList] at htext
  rw [← htext] at hdot
  cases m <;> exact absurd hdot (by decide)

/-! ### Hypotheses -/

namespace Tree

def isWord (tree : Tree) : Bool :=
  tree.kind = .identifier || tree.kind = .propertyName || tree.kind = .string

/-- What reading keeps to about comments: they are leaves without a role that stand apart from
words; in a template they stand behind the start of an interpolation; outside of its comments a
member has a dot; and what a decorator calls is a name or a member. -/
@[mk_iff] structure SetsApart (source : List Char) (tree : Tree) : Prop where
  root : tree.isComment = false
  leaves : tree.CommentsAreLeaves
  roles : ∀ c ∈ tree.nodes, c.isComment = true → c.role = .plain
  aligned : ∀ t ∈ tree.nodes, Text.IsBoundary source t.span.start
  words : ∀ t ∈ tree.nodes, t.isWord = true → ∀ c ∈ tree.comments, c.Apart t.span
  templates : ∀ t ∈ tree.nodes, t.kind = .template → (∀ c ∈ tree.comments, c.Apart t.span) ∨
    Text.interpolates (t.textIn (Text.overwrite tree.comments source)) = true
  members : ∀ t ∈ tree.nodes, t.kind = .member →
    Text.contains ['.'] (t.textIn (Text.overwrite tree.comments source)) = true
  callees : ∀ d ∈ tree.nodes, d.isDecorator = true → ∀ call ∈ d.children.head?, call.kind = .call →
    ∀ callee ∈ call.child? .callee, callee.kind = .identifier ∨ callee.kind = .member

/-- No comment stands where detection stumbles over it: between a class or a member and its
decorators, at the start of a decorator, or inside a receiver that is taken for another with it than
without it. -/
@[mk_iff] structure Undisturbed (source : List Char) (tree : Tree) : Prop where
  uncut : ∀ t ∈ tree.nodes, ∀ child ∈ withEarlier [] t.children,
    child.1.isClass = true ∨ child.1.kind = .method ∨ child.1.kind = .field → Uncut child.2
  opened : ∀ d ∈ tree.nodes, d.isDecorator = true →
    ∀ first ∈ d.children.head?, first.isComment = false
  receivers : ∀ call ∈ tree.nodes, call.kind = .call →
    ∀ callee ∈ call.child? .callee, callee.kind = .member →
    ∀ property ∈ callee.child? .property, (Method.ofName? (property.textIn source)).isSome = true →
    ∀ object ∈ callee.child? .object,
      Route.isRegistrar (object.textIn (Text.overwrite tree.comments source)) =
        Route.isRegistrar (object.textIn source)

instance (tree : Tree) : Decidable tree.CommentsAreLeaves :=
  inferInstanceAs (Decidable (∀ c ∈ tree.nodes, c.isComment = true → c.children = []))

instance (source : List Char) (tree : Tree) : Decidable (tree.SetsApart source) :=
  decidable_of_iff _ (setsApart_iff source tree).symm

instance (source : List Char) (tree : Tree) : Decidable (tree.Undisturbed source) :=
  decidable_of_iff _ (undisturbed_iff source tree).symm

/-! ### Texts of nodes -/

section texts

variable {source : List Char} {tree t : Tree} (apart : tree.SetsApart source)

include apart

theorem SetsApart.child? {role : Role} (ht : t ∈ tree.nodes) (hr : role ≠ .plain) :
    t.withoutComments.child? role = (t.child? role).map withoutComments :=
  child?_withoutComments fun child hc hm => by
    rw [apart.roles child (nodes_subset ht (mem_nodes_of_mem_children hc)) hm]
    exact hr.symm

theorem SetsApart.textIn (ht : t ∈ tree.nodes) (h : ∀ c ∈ tree.comments, c.Apart t.span) :
    t.textIn (Text.overwrite tree.comments source) = t.textIn source :=
  Text.slice_overwrite (apart.aligned t ht) t.span.ordered h

theorem SetsApart.textIn_word (ht : t ∈ tree.nodes) (hw : t.isWord = true) :
    t.textIn (Text.overwrite tree.comments source) = t.textIn source :=
  apart.textIn ht (apart.words t ht hw)

theorem SetsApart.templateText? (ht : t ∈ tree.nodes) (hk : t.kind = .template) :
    Text.templateText? (t.textIn (Text.overwrite tree.comments source)) =
      Text.templateText? (t.textIn source) := by
  rcases apart.templates t ht hk with h | h
  · rw [apart.textIn ht h]
  · have hsource : Text.interpolates (t.textIn source) = true :=
      Text.contains_of_overwrite (apart.aligned t ht) (by decide) (by decide) h
    rw [Text.templateText?, Text.templateText?, if_pos h, if_pos hsource]

theorem SetsApart.dot_mem (ht : t ∈ tree.nodes) (hk : t.kind = .member) :
    '.' ∈ t.textIn (Text.overwrite tree.comments source) ∧ '.' ∈ t.textIn source := by
  have h := apart.members t ht hk
  have hsource := Text.contains_of_overwrite (apart.aligned t ht) (by decide) (by decide) h
  rw [Text.contains_iff_isInfix] at h hsource
  exact ⟨h.subset (by simp), hsource.subset (by simp)⟩

theorem SetsApart.firstLiteral? (ht : t ∈ tree.nodes) :
    t.withoutComments.firstLiteral? (Text.overwrite tree.comments source) =
      t.firstLiteral? source := by
  have hfind : (withoutCommentsAmong t.children).find? (fun a =>
      a.kind = .string ∨ a.kind = .template) =
      (t.children.find? fun a => a.kind = .string ∨ a.kind = .template).map withoutComments :=
    find?_withoutCommentsAmong (fun a => by simp) fun a _ ha => by simp_all [isComment]
  rw [Tree.firstLiteral?, children_withoutComments, hfind, Tree.firstLiteral?]
  cases hf : t.children.find? fun a => a.kind = .string ∨ a.kind = .template with
  | none => rfl
  | some found =>
    have hmem : found ∈ tree.nodes :=
      nodes_subset ht (mem_nodes_of_mem_children (List.mem_of_find?_eq_some hf))
    have hkind := List.find?_some hf
    simp only [decide_eq_true_eq] at hkind
    rcases hkind with hk | hk
    · simp [hk, literal, apart.textIn_word hmem (by simp [isWord, hk])]
    · simp [hk, apart.templateText? hmem hk]

theorem SetsApart.names (ht : t ∈ tree.nodes) :
    (t.withoutComments.children.filter (·.kind = .identifier)).map
        (·.text (Text.overwrite tree.comments source)) =
      (t.children.filter (·.kind = .identifier)).map (·.text source) := by
  have hfilter : (withoutCommentsAmong t.children).filter (fun a => a.kind = .identifier) =
      (t.children.filter fun a => a.kind = .identifier).map withoutComments :=
    filter_withoutCommentsAmong (fun a => by simp) fun a _ ha => by simp_all [isComment]
  rw [children_withoutComments, hfilter, List.map_map]
  refine List.map_congr_left fun a ha => ?_
  obtain ⟨ha, hk⟩ := List.mem_filter.1 ha
  have hword : a.isWord = true := by simp_all [isWord]
  simp [text, apart.textIn_word (nodes_subset ht (mem_nodes_of_mem_children ha)) hword]

end texts

end Tree

/-! ### Decorators -/

theorem findSome?_congr {α β : Type} {f g : α → Option β} {items : List α}
    (h : ∀ a ∈ items, f a = g a) : items.findSome? f = items.findSome? g := by
  induction items with
  | nil => rfl
  | cons first rest ih =>
    rw [List.findSome?_cons, List.findSome?_cons, h first List.mem_cons_self,
      ih fun a ha => h a (List.mem_cons_of_mem _ ha)]

section decorators

variable {source : List Char} {filePath : String} {tree : Tree} (apart : tree.SetsApart source)
  (quiet : tree.Undisturbed source)

include apart quiet

theorem Tree.decoration?_overwrite {d : Tree} (hd : d ∈ tree.nodes) (hk : d.isDecorator = true) :
    d.withoutComments.decoration? (Text.overwrite tree.comments source) = d.decoration? source ∨
      ∃ name name' argument, '.' ∈ name ∧ '.' ∈ name' ∧
      d.decoration? source = some (name, argument) ∧
        d.withoutComments.decoration? (Text.overwrite tree.comments source) =
          some (name', argument) := by
  cases hh : d.children with
  | nil => exact .inl (by simp [decoration?, hh, withoutCommentsAmong])
  | cons expression rest =>
    have hhead : expression ∈ d.children.head? := by simp [hh]
    have hmem : expression ∈ tree.nodes :=
      nodes_subset hd (mem_nodes_of_mem_children (by simp [hh]))
    have hcode := quiet.opened d hd hk expression hhead
    have hfirst : d.withoutComments.children.head? = some expression.withoutComments := by
      simp [hh, withoutCommentsAmong, hcode]
    rw [decoration?, hfirst, decoration?, hh]
    simp only [kind_withoutComments, textIn_withoutComments, List.head?_cons]
    by_cases hname : expression.kind = .identifier ∨ expression.kind = .propertyName
    · refine .inl ?_
      have hw : expression.isWord = true := by rcases hname with h | h <;> simp [isWord, h]
      rw [if_pos hname, if_pos hname, apart.textIn_word hmem hw]
    · rw [if_neg hname, if_neg hname]
      by_cases hcall : expression.kind = .call
      · rw [if_pos hcall, if_pos hcall, apart.child? hmem (by decide),
          apart.child? hmem (by decide)]
        cases hc : expression.child? .callee with
        | none => exact .inl rfl
        | some callee =>
          have hcallee : callee ∈ tree.nodes :=
            nodes_subset hmem (mem_nodes_of_mem_children (mem_children_of_child? hc))
          have hargument : ((expression.child? .arguments).map withoutComments).bind
              (Tree.firstLiteral? (Text.overwrite tree.comments source)) =
              (expression.child? .arguments).bind (Tree.firstLiteral? source) := by
            cases ha : expression.child? .arguments with
            | none => rfl
            | some arguments =>
              exact apart.firstLiteral?
                (nodes_subset hmem (mem_nodes_of_mem_children (mem_children_of_child? ha)))
          simp only [Option.map_some, textIn_withoutComments, hargument]
          rcases apart.callees d hd hk expression hhead hcall callee hc with hk | hk
          · exact .inl (by rw [apart.textIn_word hcallee (by simp [isWord, hk])])
          · obtain ⟨hdot', hdot⟩ := apart.dot_mem hcallee hk
            exact .inr ⟨_, _, _, hdot, hdot', rfl, rfl⟩
      · exact .inl (by rw [if_neg hcall, if_neg hcall])

theorem Controller.baseOf?_overwrite {decorators : List Tree}
    (hd : ∀ d ∈ decorators, d ∈ tree.nodes ∧ d.isDecorator = true) :
    baseOf? (Text.overwrite tree.comments source) (decorators.map Tree.withoutComments) =
      baseOf? source decorators := by
  rw [baseOf?, baseOf?, List.findSome?_map]
  refine findSome?_congr fun d hm => ?_
  obtain ⟨hnode, hk⟩ := hd d hm
  rcases Tree.decoration?_overwrite apart quiet hnode hk with h | ⟨name, name', argument, hdot,
    hdot', h, h'⟩
  · simp only [Function.comp_apply, h]
  · have hne {name : List Char} (hdot : '.' ∈ name) : Text.lower name ≠ "controller".toList :=
      fun he =>
      absurd (he ▸ Text.dot_mem_lowerFrom hdot : '.' ∈ "controller".toList) (by decide)
    simp only [Function.comp_apply, h, h', if_neg (hne hdot), if_neg (hne hdot')]

theorem Controller.verb?_overwrite {decorators : List Tree}
    (hd : ∀ d ∈ decorators, d ∈ tree.nodes ∧ d.isDecorator = true) :
    verb? (Text.overwrite tree.comments source) (decorators.map Tree.withoutComments) =
      verb? source decorators := by
  rw [verb?, verb?, List.findSome?_map]
  refine findSome?_congr fun d hm => ?_
  obtain ⟨hnode, hk⟩ := hd d hm
  rcases Tree.decoration?_overwrite apart quiet hnode hk with h | ⟨name, name', argument, hdot,
    hdot', h, h'⟩
  · simp only [Function.comp_apply, h]
  · simp only [Function.comp_apply, h, h', Method.ofName?_eq_none_of_dot hdot,
      Method.ofName?_eq_none_of_dot hdot', Option.map_none]

theorem Controller.endpoint?_overwrite {base : String} {member : Tree} {decorators : List Tree}
    (hd : ∀ d ∈ decorators, d ∈ tree.nodes ∧ d.isDecorator = true) :
    endpoint? (Text.overwrite tree.comments source) filePath base member.withoutComments
      (decorators.map Tree.withoutComments) = endpoint? source filePath base member decorators := by
  have hline (t : Tree) : t.firstLine (Text.overwrite tree.comments source) = t.firstLine source :=
    Text.lineAt_overwrite _ _ _
  have hlast (t : Tree) : t.lastLine (Text.overwrite tree.comments source) = t.lastLine source :=
    Text.lineAt_overwrite _ _ _
  simp [endpoint?, verb?_overwrite apart quiet hd, hline, hlast, Function.comp_def]

theorem Controller.endpoints_overwrite {controller : Controller}
    (hc : controller.tree ∈ tree.nodes) :
    endpoints (Text.overwrite tree.comments source) filePath
        ⟨controller.tree.withoutComments, controller.base⟩ =
      controller.endpoints source filePath := by
  rw [endpoints, endpoints, apart.child? hc (by decide)]
  cases hb : controller.tree.child? .body with
  | none => rfl
  | some body =>
    have hbody : body ∈ tree.nodes :=
      Tree.nodes_subset hc (Tree.mem_nodes_of_mem_children (Tree.mem_children_of_child? hb))
    have hearlier := Tree.withEarlier_withoutComments [] body.children
    rw [Tree.withoutCommentsAmong] at hearlier
    simp only [Option.map_some, Tree.children_withoutComments, hearlier, List.filterMap_map,
      List.filterMap_filter]
    refine List.filterMap_congr fun ⟨member, earlier⟩ hm => ?_
    by_cases hk : member.kind = .method ∨ member.kind = .field
    · have hcode : member.isComment = false := by rcases hk with h | h <;> simp [Tree.isComment, h]
      have huncut := quiet.uncut body hbody (member, earlier) hm (.inr hk)
      have hdecorators := Tree.decoratorsOf_withoutComments member (some body) huncut
      rw [Option.map_some] at hdecorators
      simp only [hcode, Function.comp_apply, Tree.kind_withoutComments, if_pos hk, hdecorators]
      exact endpoint?_overwrite apart quiet fun d =>
        (Tree.Visit.Within.of_child hbody hm).decorators
    · simp [hk]

theorem Controller.all_overwrite :
    all (Text.overwrite tree.comments source) tree.withoutComments =
      (all source tree).map fun controller =>
        ⟨controller.tree.withoutComments, controller.base⟩ := by
  rw [all, all, Tree.visits_withoutComments apart.root apart.leaves, List.filterMap_map,
    List.filterMap_filter, List.map_filterMap]
  refine List.filterMap_congr fun visit hv => ?_
  have hwithin := Tree.within_of_mem_visits hv
  by_cases hk : visit.tree.isClass = true
  · have hcode : visit.tree.isComment = false := by
      cases hc : visit.tree.isComment <;> simp_all [Tree.isClass, Tree.isComment]
    have huncut : Tree.Uncut visit.earlier := by
      rcases hwithin.place with he | ⟨around, ha, hm⟩
      · rw [he]
        rfl
      · exact quiet.uncut around ha _ hm (.inl hk)
    have hbase := baseOf?_overwrite apart quiet fun d => hwithin.decorators
    rw [← Tree.decoratorsOf_withoutComments visit.tree visit.parent huncut] at hbase
    simp only [hcode, Function.comp_apply, Tree.Visit.withoutComments,
      Tree.isClass_withoutComments, if_pos hk, hbase, Bool.not_false, if_true, Option.map_map]
    rfl
  · simp [hk, Tree.Visit.withoutComments]

theorem Endpoint.decorated_overwrite {dialect : Dialect} :
    decorated (Text.overwrite tree.comments source) filePath dialect tree.withoutComments =
      decorated source filePath dialect tree := by
  unfold decorated
  split
  · rw [Controller.all_overwrite apart quiet, List.flatMap_map]
    refine congrArg some (List.flatMap_congr fun controller hc => ?_)
    obtain ⟨visit, hv, hvc⟩ := List.mem_filterMap.1 hc
    refine Controller.endpoints_overwrite apart quiet ?_
    have hnode := (Tree.within_of_mem_visits hv).node
    split at hvc
    · obtain ⟨base, -, rfl⟩ := Option.map_eq_some_iff.1 hvc
      exact hnode
    · cases hvc
  · rfl

/-! ### Calls -/

theorem Endpoint.ofCall?_overwrite {node : Tree} (hn : node ∈ tree.nodes) :
    ofCall? (Text.overwrite tree.comments source) filePath node.withoutComments =
      ofCall? source filePath node := by
  have hwithin {child : Tree} {role : Role} {t : Tree} (ht : t ∈ tree.nodes)
      (hc : t.child? role = some child) : child ∈ tree.nodes :=
    Tree.nodes_subset ht (Tree.mem_nodes_of_mem_children (Tree.mem_children_of_child? hc))
  by_cases hcall : node.kind = .call
  · simp only [ofCall?, Option.bind_eq_bind, Tree.kind_withoutComments, if_pos hcall,
      apart.child? hn (show Role.callee ≠ .plain by decide),
      apart.child? hn (show Role.arguments ≠ .plain by decide), Option.bind_map]
    refine Option.bind_congr fun callee hcallee => ?_
    have hcalleeIn := hwithin hn hcallee
    by_cases hmember : callee.kind = .member
    · simp only [Function.comp_apply, Tree.kind_withoutComments, if_pos hmember,
        apart.child? hcalleeIn (show Role.property ≠ .plain by decide),
        apart.child? hcalleeIn (show Role.object ≠ .plain by decide), Option.bind_map]
      refine Option.bind_congr fun property hproperty => ?_
      refine Option.bind_congr fun object hobject => ?_
      by_cases hname : property.kind = .propertyName ∨ property.kind = .identifier
      · have hword : property.isWord = true := by rcases hname with h | h <;> simp [Tree.isWord, h]
        simp only [Tree.textIn_withoutComments, if_pos hname,
          apart.textIn_word (hwithin hcalleeIn hproperty) hword]
        refine Option.bind_congr fun method hmethod => ?_
        have hreceiver := quiet.receivers node hn hcall callee hcallee hmember property hproperty
          (by simp [hmethod]) object hobject
        have hlines : node.withoutComments.lines (Text.overwrite tree.comments source) =
            node.lines source := by
          simp [Tree.lines, Tree.firstLine, Tree.lastLine, Span.firstLine, Span.lastLine,
            Text.lineAt_overwrite]
        simp only [hreceiver, hlines]
        cases harguments : node.child? .arguments with
        | none => rfl
        | some arguments =>
          have hargumentsIn := hwithin hn harguments
          simp only [Option.map_some, Option.bind_some, apart.firstLiteral? hargumentsIn,
            apart.names hargumentsIn]
      · simp [hname]
    · simp [hmember]
  · simp [ofCall?, hcall]

theorem Endpoint.called_overwrite :
    called (Text.overwrite tree.comments source) filePath tree.withoutComments =
      called source filePath tree := by
  rw [called, called, Tree.nodes_withoutComments apart.root apart.leaves, List.filterMap_map,
    List.filterMap_filter]
  refine List.filterMap_congr fun node hn => ?_
  cases hc : node.isComment with
  | true => simp_all [ofCall?, Tree.isComment]
  | false => simp [ofCall?_overwrite apart quiet hn]

end decorators

/-! ### Detection -/

namespace Detection

variable {read : Dialect → List Char → Tree} {filePath : String} {source : List Char} {tree : Tree}

theorem reading_of_clean (reads : read (Dialect.ofPath filePath) source = tree)
    (clean : tree.hasErrors = false) :
    reading read filePath source = ⟨filePath, source, Dialect.ofPath filePath, source, tree,
      false⟩ := by
  simp [reading, reads, clean]

theorem scanned_of_clean {d : Detection} (clean : d.failed = false)
    (h : d.dialect.isTyped = false ∨ d.controllers.isEmpty = false) : d.scanned = none := by
  rcases h with h | h <;> simp [scanned, Endpoint.scanned, clean, h]

/-- Where reading treats comments as blanks, overwriting them leaves what decorators and calls in
the tree give as it is. The whole result stays exactly if what the raw text adds does, and it does
in an untyped dialect or beside a controller in the tree. -/
theorem found_overwrite_comments (reads : read (Dialect.ofPath filePath) source = tree)
    (clean : tree.hasErrors = false)
    (blank : read (Dialect.ofPath filePath) (Text.overwrite tree.comments source) =
      tree.withoutComments)
    (apart : tree.SetsApart source) (quiet : tree.Undisturbed source) :
    let before := reading read filePath source
    let after := reading read filePath (Text.overwrite tree.comments source)
    after.decorated = before.decorated ∧ after.called = before.called ∧
      (after.endpoints = before.endpoints ↔ after.added = before.added) ∧
      (before.dialect.isTyped = false ∨ before.controllers ≠ [] →
        after.endpoints = before.endpoints) := by
  intro before after
  have hbefore := reading_of_clean reads clean
  have hafter := reading_of_clean blank
    (by rw [Tree.hasErrors_withoutComments apart.root apart.leaves, clean])
  have hdecorated : after.decorated = before.decorated := by
    simp only [before, after, hbefore, hafter]
    exact Endpoint.decorated_overwrite apart quiet
  have hcalled : after.called = before.called := by
    simp only [before, after, hbefore, hafter]
    exact Endpoint.called_overwrite apart quiet
  have hinTree : after.inTree = before.inTree := by rw [inTree, inTree, hdecorated, hcalled]
  refine ⟨hdecorated, hcalled, by simp [endpoints_eq, hinTree], fun unscanned => ?_⟩
  have hcontrollers : after.controllers.isEmpty = before.controllers.isEmpty := by
    simp only [before, after, hbefore, hafter, controllers, Controller.all_overwrite apart quiet,
      List.isEmpty_map]
  have hbare : before.dialect.isTyped = false ∨ before.controllers.isEmpty =
      false := by simpa using unscanned
  have hscanned : before.scanned = none := scanned_of_clean (by simp [before, hbefore]) hbare
  have hscanned' : after.scanned = none := by
    refine scanned_of_clean (by simp [after, hafter]) ?_
    rw [hcontrollers]
    simpa [after, before, hafter, hbefore] using hbare
  rw [endpoints_eq, endpoints_eq, added, added, hinTree, hscanned, hscanned']

def annotated : List Char :=
  "// users\n@Controller('/c')\nclass A \x7b\n  // all\n  @Get('/x')\n".toList ++
    "  m(/* none */) \x7b\x7d\n\x7d\napp.get(/* y */ '/y', h);\n".toList

def annotatedTree : Tree := parse (Dialect.ofPath "/proj/a.ts") annotated

theorem found_overwrite_comments_annotated :
    annotatedTree.comments.length = 4 ∧
      (reading parse "/proj/a.ts" annotated).endpoints.map (·.route) = [some "/c/x", some "/y"] ∧
      (reading parse "/proj/a.ts" (Text.overwrite annotatedTree.comments annotated)).endpoints =
        (reading parse "/proj/a.ts" annotated).endpoints := by
  have h : (annotatedTree.hasErrors = false ∧
      parse (Dialect.ofPath "/proj/a.ts") (Text.overwrite annotatedTree.comments annotated) =
        annotatedTree.withoutComments ∧
      annotatedTree.SetsApart annotated ∧ annotatedTree.Undisturbed annotated) ∧
      (reading parse "/proj/a.ts" annotated).controllers ≠ [] ∧ annotatedTree.comments.length = 4 ∧
      (reading parse "/proj/a.ts" annotated).endpoints.map (·.route) =
        [some "/c/x", some "/y"] := by
    decide +kernel
  obtain ⟨⟨clean, blank, apart, quiet⟩, hcontrollers, hcomments, hroutes⟩ := h
  have reads : parse (Dialect.ofPath "/proj/a.ts") annotated =
      annotatedTree := by rw [annotatedTree]
  exact ⟨hcomments, hroutes,
    (found_overwrite_comments reads clean blank apart quiet).2.2.2 (.inr hcontrollers)⟩

end Detection

namespace Endpoint

def ChangedByComments (filePath source : String) : Prop :=
  let tree := parse (Dialect.ofPath filePath) source.toList
  tree.hasErrors = false ∧
    detect filePath (String.ofList (Text.overwrite tree.comments source.toList)) ≠
      detect filePath source

instance (filePath source : String) : Decidable (ChangedByComments filePath source) :=
  inferInstanceAs (Decidable (_ ∧ _))

/-- A controller inside a comment, a comment behind a decorator, one at a decorator's start, and one
inside a receiver. -/
theorem changedByComments :
    ChangedByComments "/proj/a.ts"
        "// @Controller('/c') class A \x7b @Get('/x') m() \x7b\x7d \x7d\nlet a = 1;\n" ∧
      ChangedByComments "/proj/a.ts"
        "@Controller('/c')\nclass A \x7b\n  @Get('/x') // note\n  m() \x7b\x7d\n\x7d\n" ∧
      ChangedByComments "/proj/a.ts"
        "@Controller('/c')\nclass A \x7b\n  @/* c */Get('/x')\n  m() \x7b\x7d\n\x7d\n" ∧
      ChangedByComments "/proj/a.js" "foo./*.app*/bar.get('/x', h);\n" := by
  decide +kernel

end Endpoint

end EndpointAtlas
