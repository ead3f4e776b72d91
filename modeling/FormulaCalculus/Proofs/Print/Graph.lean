import FormulaCalculus.Proofs.Latex.Injective
import FormulaCalculus.Proofs.Print.Total
import FormulaCalculus.Proofs.Tree.Traversal
import Mathlib.Logic.Relation

/-!
# The graph of a tree

The vertices of a tree are its nodes in preorder, and the subtrees of a node stand one after another
behind it. So the place of a child is known from the sizes of the children before it, every vertex
but the first has one edge to it, from a vertex before it, and the list of the vertices determines
the tree.
-/

namespace FormulaCalculus.Graph

open FormulaCalculus.Tree

variable {s : Style} {t u l r x : Tree Float} {k : Nat} {vs ws : List Vertex}

/-- The places of trees whose nodes are listed one after another, from a place on. -/
def placesFrom (k : Nat) : List (Tree Float) → List Nat
  | [] => []
  | t :: ts => k :: placesFrom (k + t.size) ts

/-- The vertex of a node at a place of the preorder. -/
def vertexAt (s : Style) (t : Tree Float) (k : Nat) : Vertex :=
  ⟨k, t.kindNumber, t.label s, placesFrom (k + 1) t.children⟩

theorem isLeaf_vertexAt : (vertexAt s t k).isLeaf = t.isLeaf := by
  rw [vertexAt, Vertex.isLeaf, isLeaf]
  cases t.children <;> rfl

theorem le_of_mem_placesFrom {i : Nat} {ts : List (Tree Float)} (h : i ∈ placesFrom k ts) :
    k ≤ i := by
  induction ts generalizing k with
  | nil => cases h
  | cons t ts ih =>
    rcases List.mem_cons.1 h with rfl | h
    · exact Nat.le_refl _
    · exact (Nat.le_add_right _ _).trans (ih h)

/-! ### Vertices in preorder -/

theorem verticesFrom_eq (h : t.isComplete) :
    verticesFrom s k t = (t.preorder.zipIdx k).map fun p => vertexAt s p.1 p.2 := by
  induction t generalizing k with
  | binary c l r ihl ihr =>
    obtain ⟨hl, hr⟩ := Bool.and_eq_true_iff.1 h
    rw [verticesFrom, preorder, List.zipIdx_cons, List.zipIdx_append, List.map_cons,
      List.map_append, ihl hl, ihr hr, List.length_map, List.length_zipIdx, length_preorder hl]
    rfl
  | call c x ih =>
    rw [verticesFrom, preorder, List.zipIdx_cons, List.map_cons, ih h]
    rfl
  | missing => cases h
  | _ => rfl

theorem length_verticesFrom (h : t.isComplete) : (verticesFrom s k t).length = t.size := by
  rw [verticesFrom_eq h, List.length_map, List.length_zipIdx, length_preorder h]

theorem getElem?_vertices (h : t.isComplete) :
    (vertices s t)[k]? = t.preorder[k]?.map (vertexAt s · k) := by
  rw [vertices, verticesFrom_eq h, List.getElem?_map, List.getElem?_zipIdx, Option.map_map,
    Nat.zero_add]
  rfl

theorem getElem?_placesFrom {ts nodes : List (Tree Float)} (hcomplete : ∀ t ∈ ts, t.isComplete)
    (h : ts.flatMap preorder <+: nodes.drop k) :
    (placesFrom k ts).map (nodes[·]?) = ts.map some := by
  induction ts generalizing k with
  | nil => rfl
  | cons t ts ih =>
    obtain ⟨ht, hts⟩ := List.forall_mem_cons.1 hcomplete
    obtain ⟨post, hpost⟩ := h
    rw [List.flatMap_cons, List.append_assoc] at hpost
    have hhead : nodes[k]? = some t := by
      rw [← Nat.add_zero k, ← List.getElem?_drop, ← hpost, preorder_eq ht]
      rfl
    have hrest : ts.flatMap preorder <+: nodes.drop (k + t.size) := by
      rw [← List.drop_drop, ← hpost, ← length_preorder ht, List.drop_left]
      exact List.prefix_append _ _
    rw [placesFrom, List.map_cons, List.map_cons, hhead, ih hts hrest]

/-- The numbers of a vertex's children are the places of the node's children. -/
theorem getElem?_placesFrom_children (ht : t.isComplete) (h : t.preorder[k]? = some u) :
    (placesFrom (k + 1) u.children).map (t.preorder[·]?) = u.children.map some := by
  have hu : u.isComplete := isComplete_of_mem_preorder ht (List.mem_of_getElem? h)
  obtain ⟨post, hpost⟩ := preorder_prefix_drop h
  rw [preorder_eq hu, List.cons_append] at hpost
  refine getElem?_placesFrom (fun s hs => isComplete_of_mem_children hu hs) ⟨post, ?_⟩
  rw [← List.drop_drop, ← hpost, List.drop_succ_cons, List.drop_zero]

/-! ### Edges -/

theorem map_snd_edges (vs : List Vertex) :
    (edges vs).map Prod.snd = vs.flatMap Vertex.children := by
  simp [edges, List.map_flatMap, Function.comp_def]

theorem exists_of_mem_edges {e : Nat × Nat} (h : e ∈ edges vs) :
    ∃ v ∈ vs, e.1 = v.id ∧ e.2 ∈ v.children := by
  obtain ⟨v, hv, he⟩ := List.mem_flatMap.1 h
  obtain ⟨i, hi, rfl⟩ := List.mem_map.1 he
  exact ⟨v, hv, rfl, hi⟩

theorem range'_of_pos {n : Nat} (h : 0 < n) (k : Nat) :
    List.range' k n = k :: List.range' (k + 1) (n - 1) := by
  obtain ⟨n, rfl⟩ := Nat.exists_eq_add_one.2 h
  exact List.range'_succ

/-- Every vertex but the first is the child of one vertex. -/
theorem children_perm (h : t.isComplete) : ((verticesFrom s k t).flatMap Vertex.children).Perm
    (List.range' (k + 1) (t.size - 1)) := by
  induction t generalizing k with
  | binary c l r ihl ihr =>
    obtain ⟨hl, hr⟩ := Bool.and_eq_true_iff.1 h
    have hsize : (binary c l r).size - 1 = l.size + r.size := by
      rw [size]
      omega
    rw [hsize, ← List.range'_append_1, range'_of_pos l.size_pos, range'_of_pos r.size_pos,
      verticesFrom, List.flatMap_cons, List.flatMap_append, length_verticesFrom hl]
    refine .cons _ (.trans ?_ List.perm_middle.symm)
    exact .cons _ ((ihl hl).append (ihr hr))
  | call c x ih =>
    have hsize : (call c x).size - 1 = x.size := by
      rw [size]
      omega
    rw [hsize, range'_of_pos x.size_pos, verticesFrom, List.flatMap_cons]
    exact .cons _ (ih h)
  | missing => cases h
  | _ => exact .refl _

theorem lt_of_mem_edges (h : t.isComplete) {e : Nat × Nat} (he : e ∈ edges (vertices s t)) :
    e.1 < e.2 := by
  obtain ⟨v, hv, hsource, htarget⟩ := exists_of_mem_edges he
  obtain ⟨k, hk⟩ := List.mem_iff_getElem?.1 hv
  rw [getElem?_vertices h] at hk
  obtain ⟨u, -, rfl⟩ := Option.map_eq_some_iff.1 hk
  rw [hsource]
  exact le_of_mem_placesFrom htarget

/-- Following the edges upwards leads to 0, since every edge comes from a smaller number. -/
theorem reachable_of_exists_edge {edge : Nat → Nat → Prop} {n : Nat}
    (h : ∀ k, 0 < k → k < n → ∃ i < k, edge i k) (hk : k < n) : Relation.ReflTransGen edge 0 k := by
  induction k using Nat.strong_induction_on with
  | _ k ih =>
    rcases Nat.eq_zero_or_pos k with rfl | hpos
    · exact .refl
    · obtain ⟨i, hi, hedge⟩ := h k hpos hk
      exact (ih i hi (hi.trans hk)).tail hedge

/-! ### From vertices to trees -/

theorem symbol_inj {op op' : Op} (h : op.symbol = op'.symbol) : op = op' :=
  Option.some.inj (by rw [← Op.ofSymbol?_symbol, h, Op.ofSymbol?_symbol])

theorem same_of_symbol_eq {c c' : Code} {op op' : Op} (hc : c.op? = some op)
    (hc' : c'.op? = some op') (h : c.symbol = c'.symbol) : c.same c' := by
  rw [Code.symbol, Code.symbol, hc, hc'] at h
  obtain rfl := symbol_inj h
  exact Latex.same_of_op? hc hc'

theorem plainText_inj {x y : Float} (hx : x.isFinite) (hy : y.isFinite)
    (h : Decimal.plainText none x = Decimal.plainText none y) : x = y := by
  have hspells := Decimal.spells_plainText hx
  rw [h] at hspells
  exact (Latex.spells_unique hspells (Decimal.spells_plainText hy) (u := []) (v := []) nofun nofun
    rfl).2

/-- A style whose labels tell all finite numbers apart, and the variables of both trees. -/
structure Separates (s : Style) (t u : Tree Float) : Prop where
  number : s.number = Decimal.plainText none
  name : ∀ i ∈ t.indices, ∀ j ∈ u.indices, s.name i = s.name j → i = j

namespace Separates
variable {c c' : Code} {l' r' x' : Tree Float}

theorem left (h : Separates s (binary c l r) (binary c' l' r')) : Separates s l l' :=
  ⟨h.number, fun i hi j hj =>
    h.name i (mem_indices_binary.2 (Or.inl hi)) j (mem_indices_binary.2 (Or.inl hj))⟩

theorem right (h : Separates s (binary c l r) (binary c' l' r')) : Separates s r r' :=
  ⟨h.number, fun i hi j hj =>
    h.name i (mem_indices_binary.2 (Or.inr hi)) j (mem_indices_binary.2 (Or.inr hj))⟩

theorem argument (h : Separates s (call c x) (call c' x')) : Separates s x x' :=
  ⟨h.number, fun i hi j hj => h.name i (mem_indices_call.2 hi) j (mem_indices_call.2 hj)⟩

/-- A table without repetitions separates the variables that it names. -/
theorem of_names {names : List String} (hnames : names.Nodup)
    (ht : ∀ i ∈ t.indices, i < names.length) (hu : ∀ i ∈ u.indices, i < names.length) :
    Separates (.of names none) t u := by
  refine ⟨rfl, fun i hi j hj h => ?_⟩
  simp only [Style.of, Equation.shownName, List.getElem?_eq_getElem (ht i hi),
    List.getElem?_eq_getElem (hu j hj), Option.getD_some] at h
  exact (hnames.getElem_inj_iff).1 h

end Separates

/-- The vertices at the head of a list determine the tree that they come from, and where they
end. -/
theorem same_of_verticesFrom (ht : t.WellFormed) (hu : u.WellFormed) (hs : Separates s t u)
    (htfinite : ∀ x, .num x ∈ t.numbers → x.isFinite)
    (hufinite : ∀ x, .num x ∈ u.numbers → x.isFinite)
    (h : verticesFrom s k t ++ vs = verticesFrom s k u ++ ws) : t.same u ∧ vs = ws := by
  induction t generalizing u k vs ws with
  | num x =>
    cases u with
    | num y =>
      obtain ⟨hhead, hrest⟩ := List.cons.inj h
      have hlabel : s.number x = s.number y := congrArg Vertex.label hhead
      rw [hs.number] at hlabel
      obtain rfl := plainText_inj (htfinite x (mem_numbers_num.2 rfl))
        (hufinite y (mem_numbers_num.2 rfl)) hlabel
      exact ⟨Double.beq_self_of_isFinite (htfinite x (mem_numbers_num.2 rfl)), hrest⟩
    | foreign | missing => exact hu.elim
    | _ => cases congrArg Vertex.kind (List.cons.inj h).1
  | var i =>
    cases u with
    | var j =>
      obtain ⟨hhead, hrest⟩ := List.cons.inj h
      obtain rfl := hs.name i List.mem_cons_self j List.mem_cons_self (congrArg Vertex.label hhead)
      exact ⟨beq_self_eq_true _, hrest⟩
    | foreign | missing => exact hu.elim
    | _ => cases congrArg Vertex.kind (List.cons.inj h).1
  | binary c l r ihl ihr =>
    cases u with
    | binary c' l' r' =>
      obtain ⟨hc, hl, hr⟩ := ht
      obtain ⟨hc', hl', hr'⟩ := hu
      obtain ⟨op, hop, -⟩ := Code.op?_of_isBinary hc
      obtain ⟨op', hop', -⟩ := Code.op?_of_isBinary hc'
      obtain ⟨htl, htr⟩ := forall_numbers_binary.1 htfinite
      obtain ⟨hul, hur⟩ := forall_numbers_binary.1 hufinite
      simp only [verticesFrom, List.cons_append, List.append_assoc, List.cons.injEq,
        Vertex.mk.injEq, true_and] at h
      obtain ⟨⟨hsymbol, hchildren⟩, hrest⟩ := h
      have hlength : (verticesFrom s (k + 1) l).length = (verticesFrom s (k + 1) l').length := by
        simpa using hchildren
      rw [hlength] at hrest
      obtain ⟨hsamel, hrest⟩ := ihl hl hl' hs.left htl hul hrest
      obtain ⟨hsamer, hrest⟩ := ihr hr hr' hs.right htr hur hrest
      refine ⟨?_, hrest⟩
      simp only [same, sameWith, same_of_symbol_eq hop hop' hsymbol, Bool.true_and,
        Bool.and_eq_true]
      exact ⟨hsamel, hsamer⟩
    | foreign | missing => exact hu.elim
    | _ => cases congrArg Vertex.kind (List.cons.inj h).1
  | call c x ih =>
    cases u with
    | call c' x' =>
      obtain ⟨hc, hx⟩ := ht
      obtain ⟨hc', hx'⟩ := hu
      obtain ⟨op, hop, -⟩ := Code.op?_of_isFunction hc
      obtain ⟨op', hop', -⟩ := Code.op?_of_isFunction hc'
      simp only [verticesFrom, List.cons_append, List.cons.injEq, Vertex.mk.injEq, true_and] at h
      obtain ⟨⟨hsymbol, -⟩, hrest⟩ := h
      obtain ⟨hsame, hrest⟩ := ih hx hx' hs.argument (forall_numbers_call.1 htfinite)
        (forall_numbers_call.1 hufinite) hrest
      refine ⟨?_, hrest⟩
      simp only [same, sameWith, same_of_symbol_eq hop hop' hsymbol, Bool.true_and]
      exact hsame
    | foreign | missing => exact hu.elim
    | _ => cases congrArg Vertex.kind (List.cons.inj h).1
  | foreign | missing => exact ht.elim

/-! ### The whole graph -/

/-- The vertices stand for the nodes of the tree in preorder, and the edges form a tree on them. -/
structure Depicts (s : Style) (t : Tree Float) (vs : List Vertex) : Prop where
  length : vs.length = t.size
  node : ∀ k v, vs[k]? = some v → ∃ u, t.preorder[k]? = some u ∧ v.id = k ∧
    v.kind = u.kindNumber ∧ v.label = u.label s ∧ v.isLeaf = u.isLeaf ∧
    v.children = placesFrom (k + 1) u.children ∧
    v.children.map (t.preorder[·]?) = u.children.map some
  length_edges : (edges vs).length = t.size - 1
  targets : ((edges vs).map Prod.snd).Perm (List.range' 1 (t.size - 1))
  ascending : ∀ e ∈ edges vs, e.1 < e.2
  connected : ∀ k < t.size, Relation.ReflTransGen (fun a b => (a, b) ∈ edges vs) 0 k

theorem depicts_vertices (ht : t.isComplete) (s : Style) : Depicts s t (vertices s t) := by
  have htargets : ((edges (vertices s t)).map Prod.snd).Perm (List.range' 1 (t.size - 1)) := by
    rw [map_snd_edges]
    exact children_perm ht
  refine ⟨length_verticesFrom ht, fun k v hv => ?_, ?_, htargets, fun e he => lt_of_mem_edges ht he,
    fun k hk => reachable_of_exists_edge (fun k hpos hk => ?_) hk⟩
  · rw [getElem?_vertices ht] at hv
    obtain ⟨u, hu, rfl⟩ := Option.map_eq_some_iff.1 hv
    exact ⟨u, hu, rfl, rfl, rfl, isLeaf_vertexAt, rfl, getElem?_placesFrom_children ht hu⟩
  · rw [← List.length_map, htargets.length_eq, List.length_range']
  · have hmem : k ∈ (edges (vertices s t)).map Prod.snd := by
      rw [htargets.mem_iff, List.mem_range'_1]
      omega
    obtain ⟨e, he, rfl⟩ := List.mem_map.1 hmem
    exact ⟨e.1, lt_of_mem_edges ht he, he⟩

/-- The graph of a well-formed tree: a vertex for each node, numbered in preorder, edges from every
node to its children, and no other tree with the same vertices, if labels tell variables apart. -/
theorem vertices_depict (ht : t.WellFormed) (s : Style) :
    vertices? s t = (if t.isTooDeep then .error .recursion else .ok (vertices s t)) ∧
      Depicts s t (vertices s t) ∧
      ∀ u : Tree Float, u.WellFormed → Separates s t u →
        (∀ x, .num x ∈ t.numbers → x.isFinite) → (∀ x, .num x ∈ u.numbers → x.isFinite) →
        vertices s t = vertices s u → t.same u := by
  refine ⟨?_, depicts_vertices ht.isComplete s, fun u hu hs htfinite hufinite h => ?_⟩
  · cases hdeep : t.isTooDeep with
    | true => simp only [vertices?, hdeep]; rfl
    | false => exact ht.vertices? hdeep s
  · have hlists : verticesFrom s 0 t ++ [] = verticesFrom s 0 u ++ [] := congrArg (· ++ []) h
    exact (same_of_verticesFrom ht hu hs htfinite hufinite hlists).1

/-- `x * (y + 1)` and the same tree with the numbers of its operators. -/
theorem vertices_depict_product :
    let s := Style.of ["x", "y"] none
    let t : Tree Float := mul (var 0) (add (var 1) (num 1))
    let u : Tree Float := .binary (.number 2) (var 0) (.binary (.number 0) (var 1) (num 1))
    t.WellFormed ∧ u.WellFormed ∧ vertices s t = vertices s u ∧ t.same u ∧
      vertices? s t = .ok (vertices s t) ∧ Depicts s t (vertices s t) ∧
      edges (vertices s t) = [(0, 1), (0, 2), (2, 3), (2, 4)] := by
  intro s t u
  have ht : t.WellFormed := by decide
  have hu : u.WellFormed := by decide
  have hs : Separates s t u := .of_names (by decide) (by decide) (by decide)
  have hfinite (c c' : Code) (x : Float)
      (hx : .num x ∈ (Tree.binary c (var 0) (.binary c' (var 1) (num 1))).numbers) :
      x.isFinite := by
    obtain rfl : x = 1 := by
      simpa [mem_numbers_binary, numbers, preorder, isNumber] using hx
    decide +kernel
  have h : vertices s t = vertices s u := rfl
  obtain ⟨hok, hdepicts, hsame⟩ := vertices_depict ht s
  exact ⟨ht, hu, h, hsame u hu hs (hfinite _ _) (hfinite _ _) h, hok, hdepicts, rfl⟩

end FormulaCalculus.Graph
