import FormulaCalculus.Proofs.Tree.Validity
import Mathlib.Data.List.Perm.Basic

/-!
# What traversals visit

A node is an occurrence of a subtree, and the path to it from the root tells it apart from other
occurrences of the same subtree. The walk in preorder follows the lexicographic order of the paths.
The walk in breadth takes the paths by their lengths first: its queue holds what is left of one
level and, behind it, the children of the part of the level that was taken off.
-/

namespace FormulaCalculus.Tree

variable {α : Type} {t : Tree α}

/-- The way down from the root to a node, by the numbers of the children that it takes. -/
abbrev Path := List Nat

/-- The node at the end of a path. -/
def nodeAt? : Tree α → Path → Option (Tree α)
  | t, [] => some t
  | t, i :: p => t.children[i]?.bind (nodeAt? · p)

/-- The paths to all nodes, parents before children and left before right. -/
def paths : Tree α → List Path
  | binary _ l r => [] :: (l.paths.map (0 :: ·) ++ r.paths.map (1 :: ·))
  | call _ x => [] :: x.paths.map (0 :: ·)
  | _ => [[]]

/-- The nodes at a depth below the root, from left to right. -/
def level : Nat → Tree α → List (Tree α)
  | 0, t => [t]
  | n + 1, t => t.children.flatMap (level n)

/-! ### Paths -/

section Paths
variable {c : Code} {l r x : Tree α} {p : Path} {i : Nat}

theorem nodeAt?_binary_left : (binary c l r).nodeAt? (0 :: p) = l.nodeAt? p :=
  rfl

theorem nodeAt?_binary_right : (binary c l r).nodeAt? (1 :: p) = r.nodeAt? p :=
  rfl

theorem nodeAt?_call : (call c x).nodeAt? (0 :: p) = x.nodeAt? p :=
  rfl

theorem nodeAt?_cons_of_length_le (h : t.children.length ≤ i) : t.nodeAt? (i :: p) = none := by
  rw [nodeAt?, List.getElem?_eq_none h, Option.bind_none]

theorem map_nodeAt?_binary (c : Code) (ps qs : List Path) :
    (ps.map (0 :: ·) ++ qs.map (1 :: ·)).map (binary c l r).nodeAt? =
      ps.map l.nodeAt? ++ qs.map r.nodeAt? := by
  rw [List.map_append, List.map_map, List.map_map]
  rfl

theorem map_nodeAt?_call (c : Code) (ps : List Path) :
    (ps.map (0 :: ·)).map (call c x).nodeAt? = ps.map x.nodeAt? := by
  rw [List.map_map]
  rfl

theorem mem_paths_iff : p ∈ t.paths ↔ (t.nodeAt? p).isSome := by
  induction t generalizing p with
  | binary c l r ihl ihr =>
    rcases p with _ | ⟨_ | _ | i, p⟩
    · exact iff_of_true List.mem_cons_self rfl
    · simp [paths, ihl, nodeAt?_binary_left]
    · simp [paths, ihr, nodeAt?_binary_right]
    · simp [paths, nodeAt?_cons_of_length_le, children]
  | call c x ih =>
    rcases p with _ | ⟨_ | i, p⟩
    · exact iff_of_true List.mem_cons_self rfl
    · simp [paths, ih, nodeAt?_call]
    · simp [paths, nodeAt?_cons_of_length_le, children]
  | num | var | foreign | missing =>
    cases p with
    | nil => exact iff_of_true List.mem_cons_self rfl
    | cons i p =>
      rw [nodeAt?_cons_of_length_le (Nat.zero_le i)]
      simp [paths]

theorem pairwise_map_cons {ps : List Path} (i : Nat) (h : ps.Pairwise (· < ·)) :
    (ps.map (i :: ·)).Pairwise (· < ·) :=
  h.map _ fun _ _ hpq => List.cons_lt_cons_iff.2 (Or.inr ⟨rfl, hpq⟩)

/-- Paths are listed in their lexicographic order. -/
theorem pairwise_paths (t : Tree α) : t.paths.Pairwise (· < ·) := by
  induction t with
  | binary c l r ihl ihr =>
    refine List.pairwise_cons.2 ⟨fun p hp => ?_, List.pairwise_append.2
      ⟨pairwise_map_cons 0 ihl, pairwise_map_cons 1 ihr, fun p hp q hq => ?_⟩⟩
    · simp only [List.mem_append, List.mem_map] at hp
      obtain ⟨q, -, rfl⟩ | ⟨q, -, rfl⟩ := hp <;> exact List.nil_lt_cons _ _
    · obtain ⟨p, -, rfl⟩ := List.mem_map.1 hp
      obtain ⟨q, -, rfl⟩ := List.mem_map.1 hq
      exact List.cons_lt_cons_iff.2 (Or.inl Nat.zero_lt_one)
  | call c x ih =>
    refine List.pairwise_cons.2 ⟨fun p hp => ?_, pairwise_map_cons 0 ih⟩
    obtain ⟨q, -, rfl⟩ := List.mem_map.1 hp
    exact List.nil_lt_cons _ _
  | num | var | foreign | missing => exact List.pairwise_singleton _ _

end Paths

/-! ### Walks -/

theorem preorder_eq (h : t.isComplete) : t.preorder = t :: t.children.flatMap preorder := by
  cases t with
  | missing => cases h
  | binary c l r => simp [preorder, children]
  | call c x => simp [preorder, children]
  | _ => rfl

theorem isComplete_of_mem_children {s : Tree α} (h : t.isComplete) (hs : s ∈ t.children) :
    s.isComplete := by
  cases t with
  | binary c l r =>
    obtain ⟨hl, hr⟩ := Bool.and_eq_true_iff.1 h
    simp only [children, List.mem_cons, List.not_mem_nil, or_false] at hs
    rcases hs with rfl | rfl
    · exact hl
    · exact hr
  | call c x => exact List.mem_singleton.1 hs ▸ h
  | _ => cases hs

theorem length_preorder (h : t.isComplete) : t.preorder.length = t.size := by
  induction t with
  | binary c l r ihl ihr =>
    obtain ⟨hl, hr⟩ := Bool.and_eq_true_iff.1 h
    simp only [preorder, size, List.length_cons, List.length_append, ihl hl, ihr hr]
    omega
  | call c x ih =>
    simp only [preorder, size, List.length_cons, ih h, Nat.add_comm]
  | missing => cases h
  | _ => rfl

theorem isComplete_of_mem_preorder {s : Tree α} (ht : t.isComplete) (hs : s ∈ t.preorder) :
    s.isComplete := by
  induction t with
  | binary c l r ihl ihr =>
    obtain ⟨hl, hr⟩ := Bool.and_eq_true_iff.1 ht
    rcases List.mem_cons.1 hs with rfl | hs
    · exact ht
    · exact (List.mem_append.1 hs).elim (ihl hl) (ihr hr)
  | call c x ih =>
    rcases List.mem_cons.1 hs with rfl | hs
    · exact ht
    · exact ih ht hs
  | missing => cases hs
  | _ => exact List.mem_singleton.1 hs ▸ ht

/-- The nodes of a subtree follow one another in preorder. -/
theorem preorder_prefix_drop {s : Tree α} {k : Nat} (h : t.preorder[k]? = some s) :
    s.preorder <+: t.preorder.drop k := by
  induction t generalizing k with
  | binary c l r ihl ihr =>
    cases k with
    | zero =>
      cases h
      exact List.prefix_refl _
    | succ k =>
      rw [preorder, List.getElem?_cons_succ] at h
      rw [preorder, List.drop_succ_cons, List.drop_append]
      by_cases hk : k < l.preorder.length
      · rw [List.getElem?_append_left hk] at h
        exact (ihl h).trans (List.prefix_append _ _)
      · rw [List.getElem?_append_right (Nat.le_of_not_lt hk)] at h
        rw [List.drop_eq_nil_of_le (Nat.le_of_not_lt hk)]
        exact ihr h
  | call c x ih =>
    cases k with
    | zero =>
      cases h
      exact List.prefix_refl _
    | succ k => exact ih h
  | missing => cases h
  | _ =>
    cases k with
    | zero =>
      cases h
      exact List.prefix_refl _
    | succ k => cases h

/-- The walk in preorder takes the paths in their order. -/
theorem map_nodeAt?_paths (h : t.isComplete) : t.paths.map t.nodeAt? = t.preorder.map some := by
  induction t with
  | binary c l r ihl ihr =>
    obtain ⟨hl, hr⟩ := Bool.and_eq_true_iff.1 h
    rw [paths, preorder, List.map_cons, List.map_cons, map_nodeAt?_binary, ihl hl, ihr hr,
      List.map_append]
    rfl
  | call c x ih =>
    rw [paths, preorder, List.map_cons, List.map_cons, map_nodeAt?_call, ih h]
    rfl
  | missing => cases h
  | _ => rfl

theorem inorder_perm (t : Tree α) : t.inorder.Perm t.preorder := by
  induction t with
  | binary c l r ihl ihr => exact List.perm_middle.trans ((ihl.append ihr).cons _)
  | call c x ih => exact ih.cons _
  | _ => exact .refl _

theorem postorder_perm (t : Tree α) : t.postorder.Perm t.preorder := by
  induction t with
  | binary c l r ihl ihr => exact (List.perm_append_singleton _ _).trans ((ihl.append ihr).cons _)
  | call c x ih => exact (List.perm_append_singleton _ _).trans (ih.cons _)
  | _ => exact .refl _

theorem walk_perm (t : Tree α) (order : WalkOrder) : (t.walk order).Perm t.preorder := by
  cases order with
  | pre => exact .refl _
  | inside => exact t.inorder_perm
  | post => exact t.postorder_perm

/-! ### The queue -/

/-- What the queue yields are the nodes of its trees. -/
theorem visitQueue_perm {ts : List (Tree α)} (h : ∀ t ∈ ts, t.isComplete) :
    (visitQueue ts).Perm (ts.flatMap preorder) := by
  fun_induction visitQueue ts with
  | case1 => exact .refl _
  | case2 t queue ih =>
    obtain ⟨ht, hqueue⟩ := List.forall_mem_cons.1 h
    have hall : ∀ s ∈ queue ++ t.children, s.isComplete := fun s hs =>
      (List.mem_append.1 hs).elim (hqueue s) (isComplete_of_mem_children ht)
    rw [List.flatMap_cons, preorder_eq ht, List.cons_append]
    refine (ih hall).cons _ |>.trans (.cons _ ?_)
    rw [List.flatMap_append]
    exact List.perm_append_comm

/-- The queue takes the trees at its head one by one, while their children gather at its end. -/
theorem visitQueue_append (ts us : List (Tree α)) :
    visitQueue (ts ++ us) = ts ++ visitQueue (us ++ ts.flatMap children) := by
  induction ts generalizing us with
  | nil => simp
  | cons t ts ih =>
    rw [List.cons_append, visitQueue, List.append_assoc, ih, List.flatMap_cons, List.cons_append,
      List.append_assoc]

theorem level_succ (n : Nat) (t : Tree α) : level (n + 1) t = (level n t).flatMap children := by
  induction n generalizing t with
  | zero => simp [level]
  | succ n ih =>
    rw [level, level, List.flatMap_assoc]
    exact List.flatMap_congr fun s _ => ih s

theorem level_eq_nil {n : Nat} (h : t.depth ≤ n) : level n t = [] := by
  induction n generalizing t with
  | zero =>
    have := t.depth_pos
    omega
  | succ n ih =>
    cases t with
    | binary c l r =>
      rw [depth] at h
      simp only [level, children, List.flatMap_cons, List.flatMap_nil]
      rw [ih (by omega), ih (by omega)]
      rfl
    | call c x =>
      rw [depth] at h
      simp only [level, children, List.flatMap_cons, List.flatMap_nil]
      rw [ih (by omega)]
      rfl
    | _ => rfl

/-- Once the queue holds a level, it yields this level and those below it. -/
theorem visitQueue_level (n k : Nat) (t : Tree α) :
    visitQueue (level n t) =
      (List.range' n k).flatMap (level · t) ++ visitQueue (level (n + k) t) := by
  induction k generalizing n with
  | zero => rfl
  | succ k ih =>
    have hnext := visitQueue_append (level n t) []
    rw [List.append_nil, List.nil_append, ← level_succ] at hnext
    rw [hnext, ih, List.range'_succ, List.flatMap_cons, List.append_assoc, Nat.add_right_comm,
      Nat.add_assoc]

/-- The walk in breadth yields one level after the other. -/
theorem breadthFirst_eq (t : Tree α) :
    t.breadthFirst = (List.range t.depth).flatMap (level · t) := by
  have := visitQueue_level 0 t.depth t
  rwa [Nat.zero_add, level_eq_nil (Nat.le_refl _), visitQueue, List.append_nil,
    ← List.range_eq_range'] at this

theorem breadthFirst_perm (h : t.isComplete) : t.breadthFirst.Perm t.preorder := by
  have := visitQueue_perm (List.forall_mem_singleton.2 h)
  rwa [List.flatMap_singleton] at this

section Lengths
variable {ps : List Path} {n i : Nat}

theorem filter_length_zero_map_cons : (ps.map (i :: ·)).filter (·.length = 0) = [] := by
  simp [List.filter_map, Function.comp_def]

theorem filter_length_succ_map_cons :
    (ps.map (i :: ·)).filter (·.length = n + 1) = (ps.filter (·.length = n)).map (i :: ·) := by
  simp [List.filter_map, Function.comp_def]

/-- A level has the nodes at the paths of its length, in the order of the paths. -/
theorem map_level (n : Nat) (t : Tree α) :
    (level n t).map some = (t.paths.filter (·.length = n)).map t.nodeAt? := by
  induction t generalizing n with
  | binary c l r ihl ihr =>
    rw [paths]
    cases n with
    | zero =>
      rw [List.filter_cons_of_pos rfl, List.filter_append, filter_length_zero_map_cons,
        filter_length_zero_map_cons]
      rfl
    | succ n =>
      rw [List.filter_cons_of_neg (by simp), List.filter_append, filter_length_succ_map_cons,
        filter_length_succ_map_cons, map_nodeAt?_binary, ← ihl, ← ihr, ← List.map_append]
      simp [level, children]
  | call c x ih =>
    rw [paths]
    cases n with
    | zero =>
      rw [List.filter_cons_of_pos rfl, filter_length_zero_map_cons]
      rfl
    | succ n =>
      rw [List.filter_cons_of_neg (by simp), filter_length_succ_map_cons, map_nodeAt?_call, ← ih]
      simp [level, children]
  | _ => cases n <;> rfl

end Lengths

/-- All traversals of a tree visit every node once. The walk in preorder takes the paths to the
nodes in their order, the other walks list the same nodes, and the walk in breadth goes through the
levels, each in the order of the paths. -/
theorem traversals_visit (h : t.WellFormed) :
    ∃ ps : List Path, ps.Pairwise (· < ·) ∧ (∀ p, p ∈ ps ↔ (t.nodeAt? p).isSome) ∧
      ps.map t.nodeAt? = t.preorder.map some ∧ t.preorder.length = t.size ∧
      (∀ order, (t.walk order).Perm t.preorder) ∧
      ∃ nodes, t.nodesNamed "breadth_first" = .ok nodes ∧ nodes.Perm t.preorder ∧
        nodes = (List.range t.depth).flatMap (level · t) ∧
        ∀ n, (level n t).map some = (ps.filter (·.length = n)).map t.nodeAt? := by
  have hcomplete := h.isComplete
  exact ⟨t.paths, t.pairwise_paths, fun _ => mem_paths_iff, map_nodeAt?_paths hcomplete,
    length_preorder hcomplete, t.walk_perm, t.breadthFirst, if_pos hcomplete,
    breadthFirst_perm hcomplete, t.breadthFirst_eq, fun n => map_level n t⟩

/-- `x + 2 * y`: the walk in breadth comes to the operands of the product last. -/
theorem traversals_visit_sum :
    let product : Tree Float := mul (num 2) (var 1)
    let t := add (var 0) product
    t.WellFormed ∧ t.preorder.length = 5 ∧
      t.nodesNamed "breadth_first" = .ok [t, var 0, product, num 2, var 1] ∧
      [t, var 0, product, num 2, var 1].Perm t.preorder := by
  intro product t
  have ht : t.WellFormed := by decide
  obtain ⟨ps, -, -, -, hsize, -, nodes, hnodes, hperm, hlevels, -⟩ := traversals_visit ht
  obtain rfl : nodes = [t, var 0, product, num 2, var 1] := hlevels
  exact ⟨ht, hsize, hnodes, hperm⟩

end FormulaCalculus.Tree
