import Mathlib.Data.List.TakeWhile
import EndpointAtlas.Endpoint.Decorated
import EndpointAtlas.Proofs.Syntax.Walk

set_option autoImplicit false

namespace EndpointAtlas.Tree

def isComment (tree : Tree) : Bool := tree.kind = .comment

def comments (tree : Tree) : List Span := (tree.nodes.filter isComment).map span

mutual

/-- A tree less the comments below it. -/
def withoutComments : Tree → Tree
  | .node kind role span children => .node kind role span (withoutCommentsAmong children)

def withoutCommentsAmong : List Tree → List Tree
  | [] => []
  | first :: rest =>
    if first.isComment then withoutCommentsAmong rest
    else withoutComments first :: withoutCommentsAmong rest

end

def Visit.withoutComments (visit : Visit) : Visit :=
  ⟨visit.tree.withoutComments, visit.parent.map Tree.withoutComments,
    withoutCommentsAmong visit.earlier⟩

variable {tree : Tree} {p : Tree → Bool}

@[simp] theorem kind_withoutComments (tree : Tree) : tree.withoutComments.kind = tree.kind := by
  cases tree
  rfl

@[simp] theorem role_withoutComments (tree : Tree) : tree.withoutComments.role = tree.role := by
  cases tree
  rfl

@[simp] theorem span_withoutComments (tree : Tree) : tree.withoutComments.span = tree.span := by
  cases tree
  rfl

@[simp] theorem children_withoutComments (tree : Tree) :
    tree.withoutComments.children = withoutCommentsAmong tree.children := by
  cases tree
  rfl

@[simp] theorem isDecorator_withoutComments (tree : Tree) :
    tree.withoutComments.isDecorator = tree.isDecorator := by
  simp [isDecorator]

@[simp] theorem isClass_withoutComments (tree : Tree) :
    tree.withoutComments.isClass = tree.isClass := by
  simp [isClass]

@[simp] theorem textIn_withoutComments (tree : Tree) (source : List Char) :
    tree.withoutComments.textIn source = tree.textIn source := by
  simp [textIn]

@[simp] theorem firstLine_withoutComments (tree : Tree) (source : List Char) :
    tree.withoutComments.firstLine source = tree.firstLine source := by
  simp [firstLine]

@[simp] theorem lastLine_withoutComments (tree : Tree) (source : List Char) :
    tree.withoutComments.lastLine source = tree.lastLine source := by
  simp [lastLine]

theorem isComment_eq_false_of_isDecorator (h : tree.isDecorator = true) :
    tree.isComment = false := by
  simp_all [isDecorator, isComment]

/-! ### Searches among siblings -/

section searches

variable {trees : List Tree} (same : ∀ t : Tree, p t.withoutComments = p t)
  (passes : ∀ t ∈ trees, t.isComment = true → p t = false)

include same passes

theorem find?_withoutCommentsAmong :
    (withoutCommentsAmong trees).find? p = (trees.find? p).map withoutComments := by
  induction trees with
  | nil => rfl
  | cons first rest ih =>
    have ih := ih fun t ht => passes t (List.mem_cons_of_mem _ ht)
    cases hc : first.isComment with
    | true => simp [withoutCommentsAmong, hc, passes first List.mem_cons_self hc, ih]
    | false => cases hp : p first <;> simp [withoutCommentsAmong, hc, hp, same, ih]

theorem filter_withoutCommentsAmong :
    (withoutCommentsAmong trees).filter p = (trees.filter p).map withoutComments := by
  induction trees with
  | nil => rfl
  | cons first rest ih =>
    have ih := ih fun t ht => passes t (List.mem_cons_of_mem _ ht)
    cases hc : first.isComment with
    | true => simp [withoutCommentsAmong, hc, passes first List.mem_cons_self hc, ih]
    | false => cases hp : p first <;> simp [withoutCommentsAmong, hc, hp, same, ih]

end searches

theorem child?_withoutComments {role : Role}
    (passes : ∀ child ∈ tree.children, child.isComment = true → child.role ≠ role) :
    tree.withoutComments.child? role = (tree.child? role).map withoutComments := by
  rw [child?, children_withoutComments, child?]
  exact find?_withoutCommentsAmong (fun t => by simp) fun t ht hc => by simpa using passes t ht hc

/-! ### Walks -/

def CommentsAreLeaves (tree : Tree) : Prop :=
  ∀ c ∈ tree.nodes, c.isComment = true → c.children = []

mutual

theorem visitsFrom_withoutComments (parent : Option Tree) (earlier : List Tree) :
    ∀ tree : Tree, tree.isComment = false → tree.CommentsAreLeaves →
      visitsFrom (parent.map withoutComments) (withoutCommentsAmong earlier) tree.withoutComments =
        ((visitsFrom parent earlier tree).filter fun v =>
          !v.tree.isComment).map Visit.withoutComments
  | .node kind role span children, hc, leaves => by
    have hbelow := visitsAmong_withoutComments (.node kind role span children) [] children
      fun c hm => leaves c (List.mem_cons_of_mem _ hm)
    rw [withoutComments] at hbelow
    rw [withoutComments, visitsFrom, visitsFrom, List.filter_cons_of_pos (by simp [hc]),
      List.map_cons, ← hbelow]
    rfl

theorem visitsAmong_withoutComments (parent : Tree) (earlier : List Tree) :
    ∀ trees : List Tree, (∀ c ∈ nodesAmong trees, c.isComment = true → c.children = []) →
      visitsAmong parent.withoutComments (withoutCommentsAmong earlier)
        (withoutCommentsAmong trees) = ((visitsAmong parent earlier trees).filter fun v =>
          !v.tree.isComment).map Visit.withoutComments
  | [], _ => by simp [withoutCommentsAmong, visitsAmong]
  | first :: rest, leaves => by
    have hfirst : first.CommentsAreLeaves := fun c hm => leaves c (List.mem_append_left _ hm)
    have hrest := visitsAmong_withoutComments parent (first :: earlier) rest
      fun c hm => leaves c (List.mem_append_right _ hm)
    cases hc : first.isComment with
    | true =>
      have hchildren := hfirst first first.mem_nodes_self hc
      obtain ⟨kind, role, span, children⟩ := first
      rw [Tree.children] at hchildren
      subst hchildren
      rw [withoutCommentsAmong, if_pos hc] at hrest ⊢
      rw [hrest]
      simp [visitsAmong, visitsFrom, hc]
    | false =>
      have hhere := visitsFrom_withoutComments (some parent) earlier first hc hfirst
      rw [withoutCommentsAmong, if_neg (by simp [hc])] at hrest ⊢
      rw [visitsAmong, visitsAmong, List.filter_append, List.map_append, ← hrest, ← hhere]
      rfl

end

variable (code : tree.isComment = false) (leaves : tree.CommentsAreLeaves)

include code leaves

theorem visits_withoutComments :
    tree.withoutComments.visits =
      (tree.visits.filter fun v => !v.tree.isComment).map Visit.withoutComments :=
  visitsFrom_withoutComments none [] tree code leaves

theorem nodes_withoutComments :
    tree.withoutComments.nodes = (tree.nodes.filter fun t => !t.isComment).map withoutComments := by
  rw [← map_tree_visits, visits_withoutComments code leaves, ← map_tree_visits tree, List.map_map,
    List.filter_map, List.map_map]
  rfl

theorem hasErrors_withoutComments : tree.withoutComments.hasErrors = tree.hasErrors := by
  rw [hasErrors_eq, hasErrors_eq, nodes_withoutComments code leaves, List.any_map, List.any_filter]
  refine List.any_congr rfl fun t => ?_
  cases h : t.kind <;> simp [isComment, h]

omit code leaves

/-! ### Decorators -/

theorem withEarlier_withoutComments (earlier trees : List Tree) :
    withEarlier (withoutCommentsAmong earlier) (withoutCommentsAmong trees) =
      ((withEarlier earlier trees).filter fun t => !t.1.isComment).map fun t =>
        (t.1.withoutComments, withoutCommentsAmong t.2) := by
  induction trees generalizing earlier with
  | nil => rfl
  | cons first rest ih =>
    have ih := ih (first :: earlier)
    cases hc : first.isComment <;>
      simp [withoutCommentsAmong, withEarlier, hc] at ih ⊢ <;> exact ih

/-- Does no comment stand between a node and a decorator before it, or between two of these? -/
def Uncut (earlier : List Tree) : Prop :=
  ((earlier.dropWhile isDecorator).dropWhile isComment).head?.any isDecorator = false

instance (earlier : List Tree) : Decidable (Uncut earlier) := inferInstanceAs (Decidable (_ = _))

theorem takeWhile_isDecorator_of_comments {trees : List Tree}
    (h : (trees.dropWhile isComment).head?.any isDecorator = false) :
    (withoutCommentsAmong trees).takeWhile isDecorator = [] := by
  induction trees with
  | nil => rfl
  | cons first rest ih => cases hc : first.isComment <;> simp_all [withoutCommentsAmong]

theorem Uncut.takeWhile_isDecorator {earlier : List Tree} (uncut : Uncut earlier) :
    (withoutCommentsAmong earlier).takeWhile isDecorator =
      (earlier.takeWhile isDecorator).map withoutComments := by
  induction earlier with
  | nil => rfl
  | cons first rest ih =>
    cases hd : first.isDecorator with
    | true =>
      have hc := isComment_eq_false_of_isDecorator hd
      simpa [withoutCommentsAmong, hc, hd] using ih (by simpa [Uncut, hd] using uncut)
    | false =>
      rw [List.takeWhile_cons_of_neg (by simp [hd])]
      exact takeWhile_isDecorator_of_comments (by simpa [Uncut, hd] using uncut)

theorem decoratorsOf_withoutComments (tree : Tree) (parent : Option Tree) {earlier : List Tree}
    (uncut : Uncut earlier) :
    tree.withoutComments.decoratorsOf (parent.map withoutComments) (withoutCommentsAmong earlier) =
      (tree.decoratorsOf parent earlier).map withoutComments := by
  have hown (trees : List Tree) :
      (withoutCommentsAmong trees).filter isDecorator =
        (trees.filter isDecorator).map withoutComments :=
    filter_withoutCommentsAmong isDecorator_withoutComments fun t _ hc => by
      cases hd : t.isDecorator
      · rfl
      · rw [isComment_eq_false_of_isDecorator hd] at hc
        cases hc
  have hbefore := uncut.takeWhile_isDecorator
  cases parent with
  | none => simp [decoratorsOf, hbefore, hown]
  | some around =>
    by_cases h : around.kind = .exportStatement <;> simp [decoratorsOf, hbefore, hown, h]

theorem mem_of_mem_withEarlier {earlier trees : List Tree} {child : Tree × List Tree}
    (h : child ∈ withEarlier earlier trees) :
    child.1 ∈ trees ∧ ∀ sibling ∈ child.2, sibling ∈ earlier ∨ sibling ∈ trees := by
  induction trees generalizing earlier with
  | nil => cases h
  | cons first rest ih =>
    rcases List.mem_cons.1 h with rfl | h
    · exact ⟨List.mem_cons_self, fun _ hs => .inl hs⟩
    · obtain ⟨hc, hs⟩ := ih h
      refine ⟨List.mem_cons_of_mem _ hc, fun sibling hm => ?_⟩
      rcases hs sibling hm with hs | hs
      · rcases List.mem_cons.1 hs with rfl | hs
        · exact .inr List.mem_cons_self
        · exact .inl hs
      · exact .inr (List.mem_cons_of_mem _ hs)

theorem mem_decoratorsOf {decorator : Tree} {parent : Option Tree} {earlier : List Tree}
    (h : decorator ∈ tree.decoratorsOf parent earlier) :
    decorator.isDecorator = true ∧
      (decorator ∈ earlier ∨ decorator ∈ tree.children ∨
        ∃ around, parent = some around ∧ decorator ∈ around.children) := by
  unfold decoratorsOf at h
  rw [List.mem_append, List.mem_append, List.mem_reverse] at h
  rcases h with (h | h) | h
  · exact ⟨List.mem_takeWhile_imp h, .inl ((List.takeWhile_prefix _).subset h)⟩
  · exact ⟨(List.mem_filter.1 h).2, .inr (.inl (List.mem_filter.1 h).1)⟩
  · cases parent with
    | none => cases h
    | some around =>
      simp only at h
      split at h
      · exact ⟨(List.mem_filter.1 h).2, .inr (.inr ⟨around, rfl, (List.mem_filter.1 h).1⟩)⟩
      · cases h

/-! ### Where a walk meets a node -/

/-- A visit to a node of a tree: it has a parent in the tree and the siblings before it, or it is
the root. -/
structure Visit.Within (root : Tree) (visit : Visit) : Prop where
  node : visit.tree ∈ root.nodes
  parent : ∀ around, visit.parent = some around → around ∈ root.nodes
  place : visit.earlier = [] ∨
    ∃ around ∈ root.nodes, (visit.tree, visit.earlier) ∈ withEarlier [] around.children

theorem Visit.Within.of_child {root around : Tree} (ha : around ∈ root.nodes)
    {child : Tree × List Tree} (hc : child ∈ withEarlier [] around.children) :
    Visit.Within root ⟨child.1, some around, child.2⟩ where
  node := nodes_subset ha (mem_nodes_of_mem_children (mem_of_mem_withEarlier hc).1)
  parent := by
    rintro _ ⟨⟩
    exact ha
  place := .inr ⟨around, ha, hc⟩

theorem Visit.Within.earlier {root : Tree} {visit : Visit} (h : visit.Within root) {sibling : Tree}
    (hs : sibling ∈ visit.earlier) : sibling ∈ root.nodes := by
  rcases h.place with he | ⟨around, ha, hm⟩
  · rw [he] at hs
    cases hs
  · rcases (mem_of_mem_withEarlier hm).2 sibling hs with hs | hs
    · cases hs
    · exact nodes_subset ha (mem_nodes_of_mem_children hs)

theorem Visit.Within.decorators {root : Tree} {visit : Visit} (h : visit.Within root)
    {decorator : Tree} (hd : decorator ∈ visit.tree.decoratorsOf visit.parent visit.earlier) :
    decorator ∈ root.nodes ∧ decorator.isDecorator = true := by
  obtain ⟨hk, hp⟩ := mem_decoratorsOf hd
  rcases hp with he | hc | ⟨around, ha, hc⟩
  · exact ⟨h.earlier he, hk⟩
  · exact ⟨nodes_subset h.node (mem_nodes_of_mem_children hc), hk⟩
  · exact ⟨nodes_subset (h.parent around ha) (mem_nodes_of_mem_children hc), hk⟩

mutual

theorem within_of_mem_visitsFrom {root : Tree} (parent : Option Tree) (earlier : List Tree) :
    ∀ tree : Tree, Visit.Within root ⟨tree, parent, earlier⟩ →
      ∀ visit ∈ visitsFrom parent earlier tree, visit.Within root
  | .node kind role span children, here, visit, h => by
    rcases List.mem_cons.1 h with rfl | h
    · exact here
    · exact within_of_mem_visitsAmong _ [] children here.node (fun _ hc => hc) visit h

theorem within_of_mem_visitsAmong {root : Tree} (parent : Tree) (earlier : List Tree) :
    ∀ trees : List Tree, parent ∈ root.nodes →
      (∀ child ∈ withEarlier earlier trees, child ∈ withEarlier [] parent.children) →
      ∀ visit ∈ visitsAmong parent earlier trees, visit.Within root
  | [], _, _, _, h => by cases h
  | first :: rest, hp, placed, visit, h => by
    have hfirst := placed (first, earlier) List.mem_cons_self
    rcases List.mem_append.1 h with h | h
    · exact within_of_mem_visitsFrom (some parent) earlier first (.of_child hp hfirst) visit h
    · exact within_of_mem_visitsAmong parent (first :: earlier) rest hp
        (fun child hc => placed child (List.mem_cons_of_mem _ hc)) visit h

end

theorem within_of_mem_visits {visit : Visit} (h : visit ∈ tree.visits) : visit.Within tree :=
  within_of_mem_visitsFrom none [] tree
    { node := tree.mem_nodes_self
      parent := by rintro _ ⟨⟩
      place := .inl rfl } visit h

end EndpointAtlas.Tree
