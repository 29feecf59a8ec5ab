import ObjectModel.Proofs.Graph.Typing

/-!
# Networks

A model with a single entity, of nodes that refer to nodes: to a next one, and
to those in two lists, which have one relation. Whatever its nodes are, a
network is well typed (`Network.wellTyped`), and it is live if nodes refer to
nodes that there are (`Network.live`). Statements about graphs are tried out
on networks.
-/

namespace ObjectModel.Network

/-- The entity of nodes. -/
def entity : Entity where
  name := "node"
  kind := .leaf
  base := none
  members := [
    .plain "name" (.scalar .string),
    .plain "next" (.object "node" .one),
    { name := "left", content := .object "node" .many, relation := "links" },
    { name := "right", content := .object "node" .many, relation := "links" }]
  tag := 0
  subclasses := []

/-- The model of networks. -/
def model (policy : PolicyTable) : Model where
  resolution := ⟨{ name := "network", entities := [entity], groups := [] }, ∅⟩
  policy := policy
  layouts := [some (entity.members.map fun m => ⟨m, if m.isReference then [0] else []⟩)]

/-- A node, with what it refers to by position. -/
structure Node where
  name : String := ""
  next : Option Nat := none
  left : Option (List Nat) := none
  right : Option (List Nat) := none
  parent : Option Nat := none
  children : List Nat := []

/-- The node at a position. -/
def ref (i : Nat) : Ref := ⟨0, i⟩

/-- The object of a node. -/
def Node.object (n : Node) (id : UInt32) : Object where
  header := { id, parent := n.parent.map ref, children := n.children.map ref }
  values := [.text n.name, .ref (n.next.map ref), .refs (n.left.map (·.map ref)),
    .refs (n.right.map (·.map ref))]

/-- The positions that the members of a node refer to. -/
def Node.targets (n : Node) : List Nat := n.next.toList ++ n.left.getD [] ++ n.right.getD []

/-- The network of some nodes. -/
def graph (policy : PolicyTable) (nodes : List Node) : Graph where
  model := model policy
  stores := [nodes.mapIdx fun i n => n.object (UInt32.ofNat (i + 1))]
  lastId := UInt32.ofNat nodes.length

theorem built (policy : PolicyTable) : (model policy).Built := rfl

variable {policy : PolicyTable} {nodes : List Node} {r : Ref} {o : Object}

/-- The objects of a network are its nodes, which have their numbers for ids. -/
theorem object?_eq_some : (graph policy nodes).object? r = some o ↔
    r.tag = 0 ∧ ∃ n, nodes[r.index]? = some n ∧ n.object (UInt32.ofNat (r.index + 1)) = o := by
  obtain ⟨tag, index⟩ := r
  cases tag with
  | zero => simp [Graph.object?, graph]
  | succ tag => simp [Graph.object?, graph]

theorem contains_ref {i : Nat} :
    (graph policy nodes).contains (ref i) = true ↔ i < nodes.length := by
  simp [Graph.contains, Graph.object?, graph, ref]

theorem wellTyped (policy : PolicyTable) (nodes : List Node) : (graph policy nodes).WellTyped where
  built := built policy
  typed r o ho := by
    obtain ⟨htag, n, -, rfl⟩ := object?_eq_some.1 ho
    refine ⟨entity, by rw [htag]; rfl, rfl, ?_⟩
    exact .cons rfl (.cons rfl (.cons rfl (.cons rfl .nil)))

theorem Node.references (n : Node) (id : UInt32) :
    (n.object id).values.flatMap Value.references = n.targets.map ref := by
  obtain ⟨name, next, left, right, parent, children⟩ := n
  cases next <;> cases left <;> cases right <;>
    simp [object, targets, Value.references]

theorem live (h : ∀ n ∈ nodes, ∀ i ∈ n.targets, i < nodes.length) : (graph policy nodes).Live := by
  intro r o ho v hv s hs
  obtain ⟨-, n, hn, rfl⟩ := object?_eq_some.1 ho
  have hmem : s ∈ n.targets.map ref :=
    n.references _ ▸ List.mem_flatMap.2 ⟨v, hv, hs⟩
  obtain ⟨i, hi, rfl⟩ := List.mem_map.1 hmem
  exact contains_ref.2 (h n (List.mem_of_getElem? hn) i hi)

/-- Children are such as there are, too. -/
theorem whole (h : ∀ n ∈ nodes, ∀ i ∈ n.children ++ n.targets, i < nodes.length) :
    (graph policy nodes).Whole := by
  intro r o ho s hs
  obtain ⟨-, n, hn, rfl⟩ := object?_eq_some.1 ho
  have hmem : s ∈ (n.children ++ n.targets).map ref := by
    rw [List.map_append]
    exact n.references _ ▸ hs
  obtain ⟨i, hi, rfl⟩ := List.mem_map.1 hmem
  exact contains_ref.2 (h n (List.mem_of_getElem? hn) i hi)

/-- Children and parents agree if they do node by node. -/
theorem adopted (hlive : ∀ n ∈ nodes, ∀ i ∈ n.children ++ n.parent.toList, i < nodes.length)
    (h : ∀ i < nodes.length, ∀ j < nodes.length, j ∈ (nodes[i]?.map (·.children)).getD [] ↔
      nodes[j]?.bind (·.parent) = some i) :
    ∀ p k, k ∈ (graph policy nodes).childrenOf p ↔ (graph policy nodes).parent? k = some p := by
  -- Every object is a node of the list, with the children and the parent given there.
  have hobject {r : Ref} (hr : (graph policy nodes).contains r = true) : ∃ i n, r = ref i ∧
      nodes[i]? = some n ∧ (graph policy nodes).childrenOf r = n.children.map ref ∧
      (graph policy nodes).parent? r = n.parent.map ref := by
    obtain ⟨o, ho⟩ := Graph.contains_iff.1 hr
    obtain ⟨htag, n, hn, rfl⟩ := object?_eq_some.1 ho
    refine ⟨r.index, n, ?_, hn, Graph.childrenOf_eq ho, Graph.parent?_eq ho⟩
    rw [ref, ← htag]
  have hinj : Function.Injective ref := fun i j hij => congrArg Ref.index hij
  have hiff {i j : Nat} {n n' : Node} (hn : nodes[i]? = some n) (hn' : nodes[j]? = some n') :
      ref j ∈ n.children.map ref ↔ n'.parent.map ref = some (ref i) := by
    have hi := (List.getElem?_eq_some_iff.1 hn).1
    have hj := (List.getElem?_eq_some_iff.1 hn').1
    have hboth := h i hi j hj
    rw [hn, hn', Option.map_some, Option.getD_some, Option.bind_some] at hboth
    rw [List.mem_map_of_injective hinj, hboth]
    simp [hinj.eq_iff]
  intro p k
  constructor
  · intro hk
    obtain ⟨i, n, rfl, hn, hchildren, -⟩ := hobject (Graph.contains_of_mem_childrenOf hk)
    rw [hchildren] at hk
    obtain ⟨j, hj, rfl⟩ := List.mem_map.1 hk
    have hj := hlive n (List.mem_of_getElem? hn) j (List.mem_append_left _ hj)
    obtain ⟨j', n', hsame, hn', -, hparent⟩ := hobject (contains_ref.2 hj)
    obtain rfl := hinj hsame
    rw [hparent]
    exact (hiff hn hn').1 hk
  · intro hp
    obtain ⟨j, n', rfl, hn', -, hparent⟩ := hobject (Graph.contains_of_parent? hp)
    rw [hparent] at hp
    obtain ⟨i, hi, rfl⟩ := Option.map_eq_some_iff.1 hp
    have hi := hlive n' (List.mem_of_getElem? hn') i
      (List.mem_append_right _ (Option.mem_toList.2 hi))
    obtain ⟨i', n, hsame, hn, hchildren, -⟩ := hobject (contains_ref.2 hi)
    obtain rfl := hinj hsame
    rw [hchildren]
    exact (hiff hn hn').2 hp

end ObjectModel.Network
