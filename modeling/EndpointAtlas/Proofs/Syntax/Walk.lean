import EndpointAtlas.Syntax.Tree

set_option autoImplicit false

namespace EndpointAtlas.Tree

mutual

def decEq : (s t : Tree) → Decidable (s = t)
  | .node kind role span children, .node kind' role' span' children' =>
    match decEqAmong children children' with
    | isTrue same =>
      if alike : kind = kind' ∧ role = role' ∧ span = span' then
        isTrue (by simp [alike, same])
      else isFalse (by simp_all)
    | isFalse differ => isFalse (by simp [differ])

def decEqAmong : (s t : List Tree) → Decidable (s = t)
  | [], [] => isTrue rfl
  | [], _ :: _ => isFalse (by simp)
  | _ :: _, [] => isFalse (by simp)
  | first :: rest, first' :: rest' =>
    match decEq first first', decEqAmong rest rest' with
    | isTrue same, isTrue same' => isTrue (by simp [same, same'])
    | isFalse differ, _ => isFalse (by simp [differ])
    | _, isFalse differ => isFalse (by simp [differ])

end

instance : DecidableEq Tree := decEq

theorem nodesAmong_eq_flatMap (trees : List Tree) : nodesAmong trees = trees.flatMap nodes := by
  induction trees with
  | nil => rfl
  | cons first rest ih => simp [nodesAmong, ih]

theorem nodes_eq (tree : Tree) : tree.nodes = tree :: tree.children.flatMap nodes := by
  cases tree
  simp [nodes, children, nodesAmong_eq_flatMap]

theorem mem_nodes_self (tree : Tree) : tree ∈ tree.nodes := by
  rw [nodes_eq]
  exact List.mem_cons_self

theorem walkStack_eq (stack : List Tree) : walkStack stack = stack.flatMap nodes := by
  fun_induction walkStack stack with
  | case1 => rfl
  | case2 kind role span children rest ih =>
    rw [ih, List.flatMap_cons, nodes_eq]
    simp [Tree.children]

theorem walk_eq_nodes (tree : Tree) : tree.walk = tree.nodes := by
  simp [walk, walkStack_eq]

theorem hasErrors_eq (tree : Tree) : tree.hasErrors = tree.nodes.any (·.kind = .error) := by
  rw [hasErrors, walk_eq_nodes]

theorem nodes_subset_of_mem_children {child tree : Tree} (h : child ∈ tree.children) :
    child.nodes ⊆ tree.nodes := by
  intro node hn
  rw [nodes_eq tree]
  exact List.mem_cons_of_mem _ (List.mem_flatMap.2 ⟨child, h, hn⟩)

theorem mem_nodes_of_mem_children {child tree : Tree} (h : child ∈ tree.children) :
    child ∈ tree.nodes := nodes_subset_of_mem_children h child.mem_nodes_self

mutual

theorem nodes_subset {node : Tree} : ∀ {tree : Tree}, node ∈ tree.nodes → node.nodes ⊆ tree.nodes
  | .node kind role span children, h => by
    rw [nodes] at h
    rcases List.mem_cons.1 h with rfl | h
    · exact fun _ hn => hn
    · intro other ho
      rw [nodes]
      exact List.mem_cons_of_mem _ (nodesAmong_subset h ho)

theorem nodesAmong_subset {node : Tree} : ∀ {trees : List Tree}, node ∈ nodesAmong trees →
    node.nodes ⊆ nodesAmong trees
  | [], h => by cases h
  | first :: rest, h => by
    rw [nodesAmong] at h ⊢
    rcases List.mem_append.1 h with h | h
    · exact fun other ho => List.mem_append_left _ (nodes_subset h ho)
    · exact fun other ho => List.mem_append_right _ (nodesAmong_subset h ho)

end

theorem mem_children_of_child? {role : Role} {child tree : Tree}
    (h : tree.child? role = some child) :
    child ∈ tree.children := List.mem_of_find?_eq_some h

/-! ### Visits -/

mutual

theorem map_tree_visitsFrom (parent : Option Tree) (earlier : List Tree) :
    ∀ tree : Tree, (visitsFrom parent earlier tree).map (·.tree) = tree.nodes
  | .node kind role span children => by
    rw [visitsFrom, nodes, List.map_cons, map_tree_visitsAmong]

theorem map_tree_visitsAmong (parent : Tree) (earlier : List Tree) :
    ∀ trees : List Tree, (visitsAmong parent earlier trees).map (·.tree) = nodesAmong trees
  | [] => by simp [visitsAmong, nodesAmong]
  | first :: rest => by
    rw [visitsAmong, nodesAmong, List.map_append, map_tree_visitsFrom, map_tree_visitsAmong]

end

theorem map_tree_visits (tree : Tree) : tree.visits.map (·.tree) = tree.nodes :=
  map_tree_visitsFrom none [] tree

end EndpointAtlas.Tree
