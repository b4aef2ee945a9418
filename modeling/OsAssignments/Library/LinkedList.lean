import Mathlib.Data.List.Basic

/-!
# Doubly linked lists threaded through a store

Nodes are addresses; the store is seen only through its two link functions. `Chain` lays a list
of nodes out between two ends: each node's backward link is the node before it and its forward
link the node after it. Chains are cut and joined at any node, survive changes of links outside
them, and a walk along the forward links visits exactly their nodes.
-/

namespace LinkedList

variable {α : Type}

/-- The node a list starts with, or what comes after an empty list. -/
def first (nodes : List α) (after : α) : α := nodes.head?.getD after

/-- The node a list ends with, or what comes before an empty list. -/
def last (before : α) (nodes : List α) : α := nodes.getLast?.getD before

@[simp]
theorem first_nil (after : α) : first [] after = after := rfl

@[simp]
theorem first_cons (node : α) (rest : List α) (after : α) : first (node :: rest) after = node := rfl

@[simp]
theorem last_nil (before : α) : last before [] = before := rfl

@[simp]
theorem last_cons (before node : α) (rest : List α) :
    last before (node :: rest) = last node rest := by
  cases rest <;> simp [last, List.getLast?_cons]

@[simp]
theorem first_append (left right : List α) (after : α) :
    first (left ++ right) after = first left (first right after) := by
  cases left <;> rfl

@[simp]
theorem last_append (before : α) (left right : List α) :
    last before (left ++ right) = last (last before left) right := by
  induction left generalizing before with
  | nil => rfl
  | cons node rest ih => simp [ih]

/-- The nodes lie in order between two ends, linked both ways. -/
def Chain (next prev : α → α) : α → List α → α → Prop
  | _, [], _ => True
  | before, node :: rest, after =>
    prev node = before ∧ next node = first rest after ∧ Chain next prev node rest after

variable {next prev next' prev' : α → α} {before after : α} {nodes left right : List α}

/-- A chain is cut, or two are joined, at any point. -/
theorem chain_append :
    Chain next prev before (left ++ right) after ↔
      Chain next prev before left (first right after) ∧
        Chain next prev (last before left) right after := by
  induction left generalizing before with
  | nil => simp [Chain]
  | cons node rest ih => simp [Chain, ih, and_assoc]

/-- A chain depends only on the links of its own nodes. -/
theorem Chain.congr (chain : Chain next prev before nodes after)
    (forward : ∀ node ∈ nodes, next' node = next node)
    (backward : ∀ node ∈ nodes, prev' node = prev node) :
    Chain next' prev' before nodes after := by
  induction nodes generalizing before with
  | nil => trivial
  | cons node rest ih =>
    obtain ⟨back, front, tail⟩ := chain
    refine ⟨?_, ?_, ih tail ?_ ?_⟩
    · rw [backward node List.mem_cons_self, back]
    · rw [forward node List.mem_cons_self, front]
    · exact fun other member => forward other (List.mem_cons_of_mem _ member)
    · exact fun other member => backward other (List.mem_cons_of_mem _ member)

/-- The links of a chain are determined by its nodes and ends. -/
theorem Chain.unique (chain : Chain next prev before nodes after)
    (chain' : Chain next' prev' before nodes after) :
    ∀ node ∈ nodes, next node = next' node ∧ prev node = prev' node := by
  induction nodes generalizing before with
  | nil => simp
  | cons node rest ih =>
    obtain ⟨back, front, tail⟩ := chain
    obtain ⟨back', front', tail'⟩ := chain'
    intro other member
    cases List.mem_cons.mp member with
    | inl same =>
      subst same
      exact ⟨front.trans front'.symm, back.trans back'.symm⟩
    | inr inner => exact ih tail tail' other inner

/-- The forward link of every node but the last is the next node, whose backward link returns. -/
theorem Chain.links (chain : Chain next prev before nodes after) (index : Nat)
    (inside : index + 1 < nodes.length) :
    next nodes[index] = nodes[index + 1] ∧ prev nodes[index + 1] = nodes[index] := by
  induction nodes generalizing before index with
  | nil => simp at inside
  | cons node rest ih =>
    obtain ⟨_, front, tail⟩ := chain
    cases index with
    | zero =>
      cases rest with
      | nil => simp at inside
      | cons second rest => exact ⟨front, tail.1⟩
    | succ index =>
      simpa using ih tail index (by simpa using inside)

/-- The backward link of the first node is what comes before the list. -/
theorem Chain.prev_first (chain : Chain next prev before nodes after)
    (nonempty : 0 < nodes.length) : prev nodes[0] = before := by
  cases nodes with
  | nil => simp at nonempty
  | cons node rest => exact chain.1

/-- In a chain that ends at the null node, the forward link that is null is that of the last
node. -/
theorem Chain.next_null_iff {null : α} (chain : Chain next prev before nodes null)
    (proper : ∀ node ∈ nodes, node ≠ null) (index : Nat) (inside : index < nodes.length) :
    next nodes[index] = null ↔ index + 1 = nodes.length := by
  induction nodes generalizing before index with
  | nil => simp at inside
  | cons node rest ih =>
    obtain ⟨_, front, tail⟩ := chain
    have properRest := fun other member => proper other (List.mem_cons_of_mem node member)
    cases index with
    | zero =>
      cases rest with
      | nil => exact iff_of_true front rfl
      | cons second rest =>
        have followed : next node ≠ null := by
          rw [front]
          exact properRest second List.mem_cons_self
        exact iff_of_false followed (by simp)
    | succ index =>
      simpa using ih tail properRest index (by simpa using inside)

/-- The nodes a walk along the forward links visits before it meets the null node, or nothing
when it has not met it within the given number of steps. -/
def walk [DecidableEq α] (null : α) (next : α → α) : Nat → α → Option (List α)
  | 0, _ => none
  | fuel + 1, node =>
    if node = null then some [] else (walk null next fuel (next node)).map (node :: ·)

/-- A node is met by following the forward links from a start without meeting the null node. -/
inductive Visits (null : α) (next : α → α) : α → α → Prop
  /-- The walk starts at a proper node. -/
  | here {node : α} (proper : node ≠ null) : Visits null next node node
  /-- The walk goes on from a proper node. -/
  | later {node found : α} (proper : node ≠ null) (rest : Visits null next (next node) found) :
      Visits null next node found

/-- A walk along a chain that ends at the null node visits exactly the nodes of the chain. -/
theorem walk_chain [DecidableEq α] {null : α} (chain : Chain next prev before nodes null)
    (proper : ∀ node ∈ nodes, node ≠ null) {fuel : Nat} (enough : nodes.length < fuel) :
    walk null next fuel (first nodes null) = some nodes := by
  induction nodes generalizing before fuel with
  | nil =>
    obtain ⟨fuel, rfl⟩ := Nat.exists_eq_succ_of_ne_zero (Nat.ne_of_gt enough)
    simp [walk]
  | cons node rest ih =>
    obtain ⟨fuel, rfl⟩ := Nat.exists_eq_succ_of_ne_zero (Nat.ne_of_gt (Nat.zero_lt_of_lt enough))
    obtain ⟨_, front, tail⟩ := chain
    have rest' := ih tail (fun other member => proper other (List.mem_cons_of_mem _ member))
      (show rest.length < fuel by simpa using enough)
    simp [walk, proper node List.mem_cons_self, front, rest']

/-- The nodes visited from the start of a chain that ends at the null node are its nodes. -/
theorem visits_chain_iff {null found : α} (chain : Chain next prev before nodes null)
    (proper : ∀ node ∈ nodes, node ≠ null) :
    Visits null next (first nodes null) found ↔ found ∈ nodes := by
  induction nodes generalizing before with
  | nil =>
    simp only [first_nil, List.not_mem_nil, iff_false]
    intro visit
    cases visit <;> contradiction
  | cons node rest ih =>
    obtain ⟨_, front, tail⟩ := chain
    have rest' := ih tail (fun other member => proper other (List.mem_cons_of_mem _ member))
    rw [first_cons, List.mem_cons, ← rest', ← front]
    constructor
    · intro visit
      cases visit with
      | here _ => exact .inl rfl
      | later _ visit => exact .inr visit
    · rintro (rfl | visit)
      · exact .here (proper found List.mem_cons_self)
      · exact .later (proper node List.mem_cons_self) visit

/-! ## Searching along the forward links -/

/-- The first node that passes a test before the null node; nothing when neither has been met
within the given number of steps. -/
def search [DecidableEq α] (null : α) (next : α → α) (test : α → Bool) : Nat → α → Option (Option α)
  | 0, _ => none
  | fuel + 1, node =>
    if node = null then some none
    else if test node then some (some node)
    else search null next test fuel (next node)

/-- The first node that passes a test or is the last one; nothing when neither has been met within
the given number of steps. -/
def searchLast [DecidableEq α] (null : α) (next : α → α) (test : α → Bool) : Nat → α → Option α
  | 0, _ => none
  | fuel + 1, node =>
    if next node = null then some node
    else if test node then some node
    else searchLast null next test fuel (next node)

variable {null node node' : α} {test : α → Bool} {fuel : Nat}

/-- A search along a chain that ends at the null node is one through its nodes. -/
theorem search_chain [DecidableEq α] (chain : Chain next prev before nodes null)
    (proper : ∀ node ∈ nodes, node ≠ null) (enough : nodes.length < fuel) :
    search null next test fuel (first nodes null) = some (nodes.find? test) := by
  induction nodes generalizing before fuel with
  | nil =>
    obtain ⟨fuel, rfl⟩ := Nat.exists_eq_succ_of_ne_zero (Nat.ne_of_gt enough)
    simp [search]
  | cons node rest ih =>
    obtain ⟨fuel, rfl⟩ := Nat.exists_eq_succ_of_ne_zero (Nat.ne_of_gt (Nat.zero_lt_of_lt enough))
    obtain ⟨_, front, tail⟩ := chain
    have rest' := ih tail (fun other member => proper other (List.mem_cons_of_mem _ member))
      (show rest.length < fuel by simpa using enough)
    rw [first_cons, search, if_neg (proper node List.mem_cons_self), front, rest', List.find?_cons]
    cases test node <;> rfl

/-- A search that stops at the last node of a chain finds it when no node before it passes. -/
theorem searchLast_chain [DecidableEq α] (chain : Chain next prev before (nodes ++ [node]) null)
    (proper : ∀ other ∈ nodes ++ [node], other ≠ null) (enough : nodes.length < fuel)
    (fails : ∀ other ∈ nodes, test other = false) :
    searchLast null next test fuel (first (nodes ++ [node]) null) = some node := by
  induction nodes generalizing before fuel with
  | nil =>
    obtain ⟨fuel, rfl⟩ := Nat.exists_eq_succ_of_ne_zero (Nat.ne_of_gt enough)
    have ends : next node = null := chain.2.1
    rw [List.nil_append, first_cons, searchLast, if_pos ends]
  | cons other rest ih =>
    obtain ⟨fuel, rfl⟩ := Nat.exists_eq_succ_of_ne_zero (Nat.ne_of_gt (Nat.zero_lt_of_lt enough))
    have front : next other = first (rest ++ [node]) null := chain.2.1
    have more : next other ≠ null := by
      rw [front]
      cases rest with
      | nil => exact proper node (by simp)
      | cons second rest => exact proper second (by simp)
    have rest' := ih chain.2.2 (fun inner member => proper inner (List.mem_cons_of_mem _ member))
      (show rest.length < fuel by simpa using enough)
      (fun inner member => fails inner (List.mem_cons_of_mem _ member))
    rw [List.cons_append, first_cons, searchLast, if_neg more,
      if_neg (by simp [fails other List.mem_cons_self]), front, rest']

/-- A search that stops finds a node that passes or is the last one. -/
theorem searchLast_spec [DecidableEq α] (found : searchLast null next test fuel node = some node') :
    test node' = true ∨ next node' = null := by
  induction fuel generalizing node with
  | zero => contradiction
  | succ fuel ih =>
    rw [searchLast] at found
    split at found
    · rename_i atEnd
      cases found
      exact .inr atEnd
    · split at found
      · rename_i passes
        cases found
        exact .inl passes
      · exact ih found

/-- A search along a chain stops at the first node that passes. -/
theorem searchLast_found [DecidableEq α] (chain : Chain next prev before (left ++ node :: right) null)
    (proper : ∀ other ∈ left ++ node :: right, other ≠ null) (enough : left.length < fuel)
    (fails : ∀ other ∈ left, test other = false) (passes : test node = true) :
    searchLast null next test fuel (first (left ++ node :: right) null) = some node := by
  induction left generalizing before fuel with
  | nil =>
    obtain ⟨fuel, rfl⟩ := Nat.exists_eq_succ_of_ne_zero (Nat.ne_of_gt enough)
    rw [List.nil_append, first_cons, searchLast, if_pos passes, ite_self]
  | cons other rest ih =>
    obtain ⟨fuel, rfl⟩ := Nat.exists_eq_succ_of_ne_zero (Nat.ne_of_gt (Nat.zero_lt_of_lt enough))
    have front : next other = first (rest ++ node :: right) null := chain.2.1
    have more : next other ≠ null := by
      rw [front]
      cases rest with
      | nil => exact proper node (by simp)
      | cons second rest => exact proper second (by simp)
    have rest' := ih chain.2.2 (fun inner member => proper inner (List.mem_cons_of_mem _ member))
      (show rest.length < fuel by simpa using enough)
      (fun inner member => fails inner (List.mem_cons_of_mem _ member))
    rw [List.cons_append, first_cons, searchLast, if_neg more,
      if_neg (by simp [fails other List.mem_cons_self]), front, rest']

/-! ## Changing links -/

/-- Changing the forward link of the last node changes what comes after a chain. -/
theorem Chain.relinkNext {after' : α} (chain : Chain next prev before (nodes ++ [node]) after)
    (forward : ∀ other ∈ nodes, next' other = next other) (changed : next' node = after')
    (backward : ∀ other ∈ nodes ++ [node], prev' other = prev other) :
    Chain next' prev' before (nodes ++ [node]) after' := by
  obtain ⟨front, back⟩ := chain_append.mp chain
  apply chain_append.mpr
  constructor
  · apply Chain.congr front forward
    exact fun other member => backward other (List.mem_append_left _ member)
  · exact ⟨(backward node (by simp)).trans back.1, changed, trivial⟩

/-- Changing the backward link of the first node changes what comes before a chain. -/
theorem Chain.relinkPrev {before' : α} (chain : Chain next prev before (node :: nodes) after)
    (changed : prev' node = before') (backward : ∀ other ∈ nodes, prev' other = prev other)
    (forward : ∀ other ∈ node :: nodes, next' other = next other) :
    Chain next' prev' before' (node :: nodes) after := by
  obtain ⟨_, front, tail⟩ := chain
  have same := fun other member => forward other (List.mem_cons_of_mem node member)
  exact ⟨changed, (forward node List.mem_cons_self).trans front, tail.congr same backward⟩

/-- Where two chains along the same forward links start at one node and end at the null node, they
have the same nodes. -/
theorem Chain.nodes_unique {nodes' : List α} {before' : α}
    (chain : Chain next prev before nodes null) (chain' : Chain next prev' before' nodes' null)
    (proper : ∀ node ∈ nodes, node ≠ null) (proper' : ∀ node ∈ nodes', node ≠ null)
    (same : first nodes null = first nodes' null) : nodes = nodes' := by
  induction nodes generalizing before before' nodes' with
  | nil =>
    cases nodes' with
    | nil => rfl
    | cons node' rest' => exact absurd same.symm (proper' node' List.mem_cons_self)
  | cons node rest ih =>
    cases nodes' with
    | nil => exact absurd same (proper node List.mem_cons_self)
    | cons node' rest' =>
      obtain rfl : node = node' := same
      have tail := ih chain.2.2 chain'.2.2
        (fun other member => proper other (List.mem_cons_of_mem node member))
        (fun other member => proper' other (List.mem_cons_of_mem node member))
        (chain.2.1.symm.trans chain'.2.1)
      rw [tail]

end LinkedList
