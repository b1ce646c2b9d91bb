import EndpointAtlas.Endpoint.Called
import EndpointAtlas.Endpoint.Decorated
import EndpointAtlas.Proofs.Syntax.Walk

/-!
The walk over a tree with a stack, round by round. Main statement: it ends after as many rounds as
the tree has nodes, and by then it has listed every node at every place once, in the order in which
the tree is read by recursion; what looks for errors, calls and controllers goes through the nodes
in this order.
-/

set_option autoImplicit false

namespace EndpointAtlas.Tree

/-! ### Rounds of a walk -/

/-- A walk under way: what is on the stack, its top at the end, and what has been listed. -/
structure Walking (α : Type) where
  stack : Array α
  listed : List α

namespace Walking

variable {α : Type} (below : α → List α)

def start (node : α) : Walking α := ⟨#[node], []⟩

/-- Takes the top off the stack, lists it, and puts what is below it on, the last of it first. -/
def next? (w : Walking α) : Option (Walking α) :=
  w.stack.back?.map fun node =>
    ⟨(below node).foldr (fun child stack => stack.push child) w.stack.pop, w.listed ++ [node]⟩

/-- The walk some rounds later, unless its stack is empty before. -/
def after? : Nat → Walking α → Option (Walking α)
  | 0, w => some w
  | n + 1, w => (w.next? below).bind (after? n)

/-- What is still to list with a stack, where `order` gives what comes of one node. -/
def pending (order : α → List α) (stack : Array α) : List α := stack.toList.reverse.flatMap order

variable {below} {order : α → List α}
  (law : ∀ node, order node = node :: (below node).flatMap order)

include law

theorem next?_cases (w : Walking α) :
    (w.next? below = none ∧ w.stack = #[]) ∨
      ∃ node stack, w.next? below = some ⟨stack, w.listed ++ [node]⟩ ∧
        pending order w.stack = node :: pending order stack := by
  obtain ⟨stack, listed⟩ := w
  by_cases empty : stack = #[]
  · subst empty
    exact .inl ⟨rfl, rfl⟩
  · obtain ⟨under, node, rfl⟩ := Array.exists_push_of_ne_empty empty
    refine .inr ⟨node, _, by rw [next?, Array.back?_push]; rfl, ?_⟩
    simp [pending, law node]

theorem after?_of_le {n : Nat} {w : Walking α} (h : n ≤ (pending order w.stack).length) :
    ∃ stack, after? below n w = some ⟨stack, w.listed ++ (pending order w.stack).take n⟩ ∧
      pending order stack = (pending order w.stack).drop n := by
  induction n generalizing w with
  | zero => exact ⟨w.stack, by simp [after?], rfl⟩
  | succ n ih =>
    rcases next?_cases law w with ⟨-, empty⟩ | ⟨node, next, hn, hp⟩
    · simp [empty, pending] at h
    · rw [hp] at h ⊢
      obtain ⟨stack, ha, left⟩ := ih (w := ⟨next, w.listed ++ [node]⟩) (Nat.le_of_succ_le_succ h)
      exact ⟨stack, by rw [after?, hn, Option.bind_some, ha, List.append_assoc]; rfl, left⟩

theorem after?_of_lt {n : Nat} {w : Walking α} (h : (pending order w.stack).length < n) :
    after? below n w = none := by
  induction n generalizing w with
  | zero => exact absurd h (Nat.not_lt_zero _)
  | succ n ih =>
    rcases next?_cases law w with ⟨hn, -⟩ | ⟨node, next, hn, hp⟩
    · rw [after?, hn, Option.bind_none]
    · rw [hp] at h
      rw [after?, hn, Option.bind_some, ih (w := ⟨next, _⟩) (Nat.lt_of_succ_lt_succ h)]

theorem pending_eq_nil_iff (stack : Array α) : pending order stack = [] ↔ stack = #[] := by
  constructor
  · intro h
    rcases next?_cases law ⟨stack, []⟩ with ⟨-, empty⟩ | ⟨node, next, -, hp⟩
    · exact empty
    · rw [h] at hp
      cases hp
  · rintro rfl
    rfl

end Walking

/-! ### Nodes at their places -/

/-- A node with its place in a tree: the numbers of the children that lead to it, from the root
down. -/
structure Spot where
  path : List Nat
  tree : Tree

def Spot.children (spot : Spot) : List Spot :=
  spot.tree.children.mapIdx fun i child => ⟨spot.path ++ [i], child⟩

/-- The node at a place. -/
def at? : Tree → List Nat → Option Tree
  | tree, [] => some tree
  | tree, i :: path => tree.children[i]?.bind fun child => child.at? path

mutual

/-- A node and those below it with their places, each before its children and these from left to
right. -/
def spotsFrom (path : List Nat) : Tree → List Spot
  | .node kind role span children =>
    ⟨path, .node kind role span children⟩ :: spotsAmong path 0 children

def spotsAmong (path : List Nat) (i : Nat) : List Tree → List Spot
  | [] => []
  | first :: rest => spotsFrom (path ++ [i]) first ++ spotsAmong path (i + 1) rest

end

def spots (tree : Tree) : List Spot := spotsFrom [] tree

theorem spotsAmong_eq (path : List Nat) (i : Nat) (trees : List Tree) :
    spotsAmong path i trees =
      (trees.mapIdx fun k child => (⟨path ++ [i + k], child⟩ : Spot)).flatMap fun spot =>
        spotsFrom spot.path spot.tree := by
  induction trees generalizing i with
  | nil => rfl
  | cons first rest ih =>
    rw [spotsAmong, ih, List.mapIdx_cons, List.flatMap_cons]
    simp only [Nat.add_zero, Nat.add_assoc, Nat.add_comm 1]

theorem spotsFrom_eq (spot : Spot) :
    spotsFrom spot.path spot.tree = spot :: spot.children.flatMap fun child =>
      spotsFrom child.path child.tree := by
  obtain ⟨path, kind, role, span, children⟩ := spot
  rw [spotsFrom, spotsAmong_eq]
  simp only [Nat.zero_add, Spot.children, Tree.children]

mutual

theorem map_tree_spotsFrom (path : List Nat) : ∀ tree :
    Tree, (spotsFrom path tree).map (·.tree) = tree.nodes
  | .node kind role span children => by rw [spotsFrom, nodes, List.map_cons, map_tree_spotsAmong]

theorem map_tree_spotsAmong (path : List Nat) (i : Nat) :
    ∀ trees : List Tree, (spotsAmong path i trees).map (·.tree) = nodesAmong trees
  | [] => by simp [spotsAmong, nodesAmong]
  | first :: rest => by
    rw [spotsAmong, nodesAmong, List.map_append, map_tree_spotsFrom, map_tree_spotsAmong]

end

mutual

theorem mem_spotsFrom {path : List Nat} {spot : Spot} : ∀ {tree : Tree},
    spot ∈ spotsFrom path tree ↔ ∃ down, spot.path = path ++ down ∧ tree.at? down = some spot.tree
  | .node kind role span children => by
    rw [spotsFrom, List.mem_cons, mem_spotsAmong]
    constructor
    · rintro (rfl | ⟨k, down, child, hk, hpath, hat⟩)
      · exact ⟨[], by simp, rfl⟩
      · rw [Nat.zero_add] at hpath
        exact ⟨k :: down, hpath, by rw [at?, Tree.children, hk, Option.bind_some, hat]⟩
    · rintro ⟨down, hpath, hat⟩
      cases down with
      | nil =>
        obtain ⟨p, t⟩ := spot
        rw [at?, Option.some.injEq] at hat
        rw [List.append_nil] at hpath
        exact .inl (by rw [Spot.mk.injEq]; exact ⟨hpath, hat.symm⟩)
      | cons k down =>
        rw [at?, Option.bind_eq_some_iff] at hat
        obtain ⟨child, hk, hat⟩ := hat
        exact .inr ⟨k, down, child, hk, by rw [Nat.zero_add, hpath], hat⟩

theorem mem_spotsAmong {path : List Nat} {i : Nat} {spot : Spot} : ∀ {trees : List Tree},
    spot ∈ spotsAmong path i trees ↔
      ∃ k down child, trees[k]? = some child ∧ spot.path = path ++ (i + k) :: down ∧
      child.at? down = some spot.tree
  | [] => by simp [spotsAmong]
  | first :: rest => by
    rw [spotsAmong, List.mem_append, mem_spotsFrom, mem_spotsAmong]
    constructor
    · rintro (⟨down, hpath, hat⟩ | ⟨k, down, child, hk, hpath, hat⟩)
      · exact ⟨0, down, first, rfl, by rw [hpath]; simp, hat⟩
      · exact ⟨k + 1, down, child, hk, by rw [hpath, Nat.add_assoc, Nat.add_comm 1], hat⟩
    · rintro ⟨k, down, child, hk, hpath, hat⟩
      cases k with
      | zero =>
        cases hk
        exact .inl ⟨down, by rw [hpath]; simp, hat⟩
      | succ k => exact .inr ⟨k, down, child, hk, by rw [hpath, Nat.add_assoc, Nat.add_comm 1], hat⟩

end

mutual

theorem ascending_spotsFrom (path : List Nat) : ∀ tree :
    Tree, (spotsFrom path tree).Pairwise (·.path < ·.path)
  | .node kind role span children => by
    rw [spotsFrom, List.pairwise_cons]
    refine ⟨fun spot h => ?_, ascending_spotsAmong path 0 children⟩
    obtain ⟨k, down, child, -, hpath, -⟩ := mem_spotsAmong.1 h
    have below : path ++ [] < path ++ (0 + k) :: down := List.append_left_lt (List.nil_lt_cons _ _)
    rw [List.append_nil] at below
    rwa [hpath]

theorem ascending_spotsAmong (path : List Nat) (i : Nat) :
    ∀ trees : List Tree, (spotsAmong path i trees).Pairwise (·.path < ·.path)
  | [] => by simp [spotsAmong]
  | first :: rest => by
    rw [spotsAmong, List.pairwise_append]
    refine ⟨ascending_spotsFrom _ first, ascending_spotsAmong path (i + 1) rest, fun a ha b hb =>
      ?_⟩
    obtain ⟨down, ha, -⟩ := mem_spotsFrom.1 ha
    obtain ⟨k, down', child, -, hb, -⟩ := mem_spotsAmong.1 hb
    rw [ha, hb, List.append_assoc, List.singleton_append]
    exact List.append_left_lt (List.cons_lt_cons_iff.2 (.inl (by omega)))

end

theorem at?_append (tree : Tree) (path down : List Nat) :
    tree.at? (path ++ down) = (tree.at? path).bind (·.at? down) := by
  induction path generalizing tree with
  | nil => rfl
  | cons i path ih =>
    rw [List.cons_append, at?, at?]
    cases tree.children[i]? with
    | none => rfl
    | some child => exact ih child

mutual

theorem length_nodes : ∀ tree : Tree, tree.nodes.length = tree.size
  | .node kind role span children => by rw [nodes, List.length_cons, length_nodesAmong, size]

theorem length_nodesAmong : ∀ trees : List Tree, (nodesAmong trees).length = sizeAmong trees
  | [] => by rw [nodesAmong, sizeAmong, List.length_nil]
  | first :: rest => by rw [nodesAmong, List.length_append, length_nodes,
      length_nodesAmong, sizeAmong]

end

/-! ### Visits at their places -/

/-- How a node at a place of a tree is met: with its parent, and with the siblings before it. -/
def visitAt (root : Tree) (spot : Spot) : Visit :=
  let parent := if spot.path = [] then none else root.at? spot.path.dropLast
  { tree := spot.tree
    parent := parent
    earlier := ((parent.elim [] Tree.children).take (spot.path.getLast?.getD 0)).reverse }

theorem visitAt_concat {root parent : Tree} {path : List Nat} {earlier : List Tree} {child : Tree}
    {rest : List Tree} (here : root.at? path = some parent)
    (split : parent.children = earlier.reverse ++ child :: rest) :
    visitAt root ⟨path ++ [earlier.length], child⟩ = ⟨child, some parent, earlier⟩ := by
  have cut : parent.children.take earlier.length = earlier.reverse := by
    rw [split, List.take_left' (List.length_reverse)]
  simp [visitAt, here, cut]

mutual

theorem visitsFrom_eq (root : Tree) (path : List Nat) : ∀ tree : Tree, root.at? path = some tree →
    visitsFrom (visitAt root ⟨path, tree⟩).parent (visitAt root ⟨path, tree⟩).earlier tree =
      (spotsFrom path tree).map (visitAt root)
  | .node kind role span children, here => by
    rw [visitsFrom, spotsFrom, List.map_cons, visitsAmong_eq root path _ here [] children rfl]
    rfl

theorem visitsAmong_eq (root : Tree) (path : List Nat) (parent : Tree)
    (here : root.at? path = some parent)
    (earlier : List Tree) : ∀ trees : List Tree, parent.children = earlier.reverse ++ trees →
      visitsAmong parent earlier trees = (spotsAmong path earlier.length trees).map (visitAt root)
  | [], _ => by simp [visitsAmong, spotsAmong]
  | first :: rest, split => by
    have visit := visitAt_concat here split
    have below : root.at? (path ++ [earlier.length]) = some first := by
      rw [at?_append, here, Option.bind_some, at?, split]
      simp [at?]
    have met := visitsFrom_eq root (path ++ [earlier.length]) first below
    rw [visit] at met
    rw [visitsAmong, spotsAmong, List.map_append, met,
      visitsAmong_eq root path parent here (first :: earlier) rest (by rw [split]; simp)]
    rfl

end

theorem visits_eq (tree : Tree) : tree.visits = tree.spots.map (visitAt tree) :=
  visitsFrom_eq tree [] tree rfl

/-! ### What the walk lists -/

/-- A list has the node at every place of a tree, each place once, a node before those below it and
what is below one child before what is below the next. -/
structure ListsAll (tree : Tree) (listed : List Spot) : Prop where
  each : ∀ path node, ⟨path, node⟩ ∈ listed ↔ tree.at? path = some node
  ascending : listed.Pairwise (·.path < ·.path)
  once : (listed.map (·.path)).Nodup

theorem listsAll_spots (tree : Tree) : ListsAll tree tree.spots where
  each path node := by
    rw [spots, mem_spotsFrom]
    simp
  ascending := ascending_spotsFrom [] tree
  once := by
    refine List.pairwise_map.2 ((ascending_spotsFrom [] tree).imp ?_)
    intro a b before same
    rw [same] at before
    exact List.lt_irrefl _ before

theorem length_spots (tree : Tree) : tree.spots.length = tree.size := by
  rw [← length_nodes, ← map_tree_spotsFrom [] tree, List.length_map, spots]

theorem pending_start (tree : Tree) :
    Walking.pending (fun spot => spotsFrom spot.path spot.tree) (Walking.start ⟨[], tree⟩).stack =
      tree.spots := by
  simp [Walking.pending, Walking.start, spots]

theorem any_kind_iff (tree : Tree) (kind : Kind) :
    tree.nodes.any (·.kind = kind) = true ↔ ∃ path node, tree.at? path = some node ∧
    node.kind = kind := by
  rw [← map_tree_spotsFrom [] tree, List.any_map, List.any_eq_true]
  constructor
  · rintro ⟨spot, mem, same⟩
    exact ⟨spot.path, spot.tree, ((listsAll_spots tree).each _ _).1 mem, by simpa using same⟩
  · rintro ⟨path, node, here, same⟩
    exact ⟨⟨path, node⟩, ((listsAll_spots tree).each path node).2 here, by simpa using same⟩

def Visit.controller? (source : List Char) (visit : Visit) : Option Controller :=
  if visit.tree.isClass then
    (Controller.baseOf? source (visit.tree.decoratorsOf visit.parent visit.earlier)).map
      (⟨visit.tree, ·⟩)
  else none

/-- The walk with a stack goes on for as many rounds as the tree has nodes and no longer, with its
stack empty then and not before, and lists one node more in every round. What it lists are the nodes
at all places of the tree, each once and in the order of the text, which is the order of the
recursion. There is a node that could not be read exactly if one stands at some place, and calls and
controllers are looked for at every node in this order. -/
theorem walk_inOrder (tree : Tree) :
    (∀ n ≤ tree.size, ∃ stack, Walking.after? Spot.children n (.start ⟨[], tree⟩) =
      some ⟨stack, tree.spots.take n⟩ ∧ (stack = #[] ↔ n = tree.size)) ∧
      (∀ n, tree.size < n → Walking.after? Spot.children n (.start ⟨[], tree⟩) = none) ∧
      ListsAll tree tree.spots ∧ tree.spots.map (·.tree) = tree.walk ∧
      tree.walk = tree.nodes ∧ tree.nodes = tree :: tree.children.flatMap nodes ∧
      (tree.hasErrors = true ↔ ∃ path node, tree.at? path = some node ∧ node.kind = .error) ∧
      (∀ source filePath, Endpoint.called source filePath tree =
        tree.spots.filterMap fun spot => Endpoint.ofCall? source filePath spot.tree) ∧
      ∀ source, Controller.all source tree =
        tree.spots.filterMap fun spot => (visitAt tree spot).controller? source := by
  have total := pending_start tree
  refine ⟨fun n h => ?_, fun n h => ?_, listsAll_spots tree, ?_, walk_eq_nodes tree,
    nodes_eq tree, ?_, ?_, ?_⟩
  · obtain ⟨stack, run, left⟩ :=
      Walking.after?_of_le spotsFrom_eq (n := n) (w := .start ⟨[], tree⟩)
        (by rwa [total, length_spots])
    rw [total] at run left
    refine ⟨stack, run, ?_⟩
    rw [← Walking.pending_eq_nil_iff spotsFrom_eq, left, List.drop_eq_nil_iff, length_spots]
    omega
  · exact Walking.after?_of_lt spotsFrom_eq (by rwa [total, length_spots])
  · rw [walk_eq_nodes, spots, map_tree_spotsFrom]
  · rw [hasErrors_eq, any_kind_iff]
  · intro source filePath
    rw [Endpoint.called, ← map_tree_spotsFrom [] tree, List.filterMap_map]
    rfl
  · intro source
    rw [Controller.all, visits_eq, List.filterMap_map]
    rfl

def brokenTree : Tree :=
  .node .program .plain (.between 0 9)
    [.node .call .plain (.between 0 3) [.node .identifier .callee (.between 0 1) []],
      .node .other .plain (.between 4 9) [.node .error .plain (.between 6 9) []]]

theorem walk_inOrder_broken :
    (3 ≤ brokenTree.size ∧
      ∃ stack, Walking.after? Spot.children 3 (.start ⟨[], brokenTree⟩) =
        some ⟨stack, brokenTree.spots.take 3⟩ ∧
        (stack = #[] ↔ 3 = brokenTree.size)) ∧
      brokenTree.size < 6 ∧ Walking.after? Spot.children 6 (.start ⟨[], brokenTree⟩) = none ∧
      brokenTree.at? [1, 0] = some (.node .error .plain (.between 6 9) []) ∧
      brokenTree.hasErrors = true := by
  have more : 3 ≤ brokenTree.size := by decide
  have beyond : brokenTree.size < 6 := by decide
  have unread : brokenTree.at? [1, 0] = some (.node .error .plain (.between 6 9) []) := rfl
  obtain ⟨goes, ends, -, -, -, -, errors, -⟩ := walk_inOrder brokenTree
  exact ⟨⟨more, goes 3 more⟩, beyond, ends 6 beyond, unread, errors.2 ⟨_, _, unread, rfl⟩⟩

end EndpointAtlas.Tree
