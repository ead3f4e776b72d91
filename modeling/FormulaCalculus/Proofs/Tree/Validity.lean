import FormulaCalculus.Proofs.Tree.Copy

/-!
# Valid trees

What the validator accepts, as a property of trees that can be followed down to the children. A copy
of a valid tree is valid, and all that can go wrong in its evaluation is an operator outside its
domain.
-/

namespace FormulaCalculus

namespace Fault

/-- An operator was applied outside its domain. -/
def IsDomain (fault : Fault) : Prop :=
  ∃ d, fault = .domain d

/-- A tree is nested too deeply for the stack. -/
def IsExhaustion (fault : Fault) : Prop :=
  fault = .recursion ∨ ∃ operation, fault = .nestedTooDeeply operation

theorem isDomain_of_mapError {β : Type} {x : Except DomainFault β} {fault : Fault}
    (h : x.mapError domain = .error fault) : fault.IsDomain := by
  cases x with
  | error d => cases h; exact ⟨d, rfl⟩
  | ok y => cases h

end Fault

namespace Tree

variable {α : Type} {count : Option Int} {c : Code} {t l r : Tree α}

/-- Well-formed, and with no variable outside of a table of `count` names, if there is one. -/
structure Valid (count : Option Int) (t : Tree α) : Prop where
  wellFormed : t.WellFormed
  index_lt : ∀ n ∈ count, ∀ i ∈ t.indices, (i : Int) < n

@[simp] theorem valid_num (x : α) : (num x).Valid count :=
  ⟨trivial, fun _ _ _ hi => by cases hi⟩

@[simp] theorem valid_var_iff {i : Nat} :
    (var i : Tree α).Valid count ↔ ∀ n ∈ count, (i : Int) < n := by
  refine ⟨fun h n hn => h.index_lt n hn i List.mem_cons_self, fun h => ⟨trivial, ?_⟩⟩
  intro n hn j hj
  rw [List.mem_singleton.1 hj]
  exact h n hn

@[simp] theorem valid_binary_iff :
    (binary c l r).Valid count ↔ c.isBinary ∧ l.Valid count ∧ r.Valid count := by
  constructor
  · rintro ⟨⟨hc, hl, hr⟩, hindex⟩
    exact ⟨hc, ⟨hl, fun n hn i hi => hindex n hn i (mem_indices_binary.2 (Or.inl hi))⟩,
      ⟨hr, fun n hn i hi => hindex n hn i (mem_indices_binary.2 (Or.inr hi))⟩⟩
  · rintro ⟨hc, hl, hr⟩
    refine ⟨⟨hc, hl.wellFormed, hr.wellFormed⟩, fun n hn i hi => ?_⟩
    exact (mem_indices_binary.1 hi).elim (hl.index_lt n hn i) (hr.index_lt n hn i)

@[simp] theorem valid_call_iff : (call c t).Valid count ↔ c.isFunction ∧ t.Valid count := by
  constructor
  · rintro ⟨⟨hc, ht⟩, hindex⟩
    exact ⟨hc, ht, fun n hn i hi => hindex n hn i (mem_indices_call.2 hi)⟩
  · rintro ⟨hc, ht⟩
    exact ⟨⟨hc, ht.wellFormed⟩, fun n hn i hi => ht.index_lt n hn i (mem_indices_call.1 hi)⟩

theorem Valid.isMissing_eq_false (h : t.Valid count) : t.isMissing = false :=
  h.wellFormed.isMissing_eq_false

theorem WellFormed.isComplete (h : t.WellFormed) : t.isComplete := by
  induction t with
  | num | var => rfl
  | binary c l r ihl ihr => simp only [Tree.isComplete, ihl h.2.1, ihr h.2.2, Bool.and_self]
  | call c t ih => simp only [Tree.isComplete, ih h.2]
  | foreign | missing => exact h.elim

/-! ### The validator -/

theorem validateAll_eq_ok_iff {ts : List (Tree α)} :
    validateAll count ts = .ok () ↔ ∀ t ∈ ts, t.Valid count := by
  have hrefused {fault : Fault} {t : Tree α} {rest : List (Tree α)} (h : ¬t.Valid count) :
      (.error fault : Except Fault Unit) = .ok () ↔ ∀ s ∈ t :: rest, s.Valid count := by
    rw [List.forall_mem_cons]
    exact iff_of_false nofun fun hall => h hall.1
  fun_induction validateAll count ts with
  | case1 => exact iff_of_true rfl nofun
  | case2 x rest ih => simp only [ih, List.forall_mem_cons, valid_num, true_and]
  | case3 i rest n hcount h =>
    refine hrefused fun hi => ?_
    have := valid_var_iff.1 hi n hcount
    omega
  | case4 i rest n hcount h ih =>
    simp only [← hcount, ih, List.forall_mem_cons, valid_var_iff]
    refine (and_iff_right fun m hm => ?_).symm
    obtain rfl := Option.some.inj (hcount.symm.trans hm)
    omega
  | case5 i rest hcount ih =>
    simp only [← hcount, ih, List.forall_mem_cons, valid_var_iff]
    refine (and_iff_right fun m hm => ?_).symm
    rw [hcount] at hm
    cases hm
  | case6 c l r rest h => exact hrefused fun hvalid => by simp_all
  | case7 c l r rest h hmissing =>
    refine hrefused fun hvalid => ?_
    obtain ⟨-, hl, hr⟩ := valid_binary_iff.1 hvalid
    rw [hl.isMissing_eq_false, hr.isMissing_eq_false] at hmissing
    cases hmissing
  | case8 c l r rest h _ ih =>
    have hc : c.isBinary = true := by simpa using h
    simp only [ih, List.forall_mem_cons, valid_binary_iff, hc, true_and, and_assoc, and_left_comm]
  | case9 c x rest h => exact hrefused fun hvalid => by simp_all
  | case10 c x rest h hmissing =>
    refine hrefused fun hvalid => ?_
    rw [(valid_call_iff.1 hvalid).2.isMissing_eq_false] at hmissing
    cases hmissing
  | case11 c x rest h _ ih =>
    have hc : c.isFunction = true := by simpa using h
    simp only [ih, List.forall_mem_cons, valid_call_iff, hc, true_and]
  | case12 t rest hnum hvar hbinary hcall =>
    refine hrefused fun hvalid => ?_
    cases t with
    | num x => exact hnum x rfl
    | var i => exact hvar i rfl
    | binary c l r => exact hbinary c l r rfl
    | call c x => exact hcall c x rfl
    | foreign | missing => exact hvalid.wellFormed

theorem validate_eq_ok_iff : t.validate count = .ok () ↔ t.Valid count := by
  rw [validate, validateAll_eq_ok_iff, List.forall_mem_singleton]

/-! ### Copies and values -/

theorem Valid.exists_copy (h : t.Valid count) : ∃ s, t.copy? = .ok s ∧ s.Valid count := by
  induction t with
  | num | var => exact ⟨_, rfl, h⟩
  | binary c l r ihl ihr =>
    obtain ⟨hc, hl, hr⟩ := valid_binary_iff.1 h
    obtain ⟨op, hop, hbin⟩ := Code.op?_of_isBinary hc
    obtain ⟨l', hcopyl, hl'⟩ := ihl hl
    obtain ⟨r', hcopyr, hr'⟩ := ihr hr
    exact ⟨_, copy?_binary hop hbin hcopyl hcopyr hl'.wellFormed hr'.wellFormed,
      valid_binary_iff.2 ⟨hbin, hl', hr'⟩⟩
  | call c t ih =>
    obtain ⟨hc, ht⟩ := valid_call_iff.1 h
    obtain ⟨op, hop, hfun⟩ := Code.op?_of_isFunction hc
    obtain ⟨t', hcopy, ht'⟩ := ih ht
    exact ⟨_, copy?_call hop hfun hcopy ht'.wellFormed, valid_call_iff.2 ⟨hfun, ht'⟩⟩
  | foreign | missing => exact h.wellFormed.elim

section Evaluate
variable [Scalar α]

theorem isDomain_of_apply {op : Op} {x y : α} {fault : Fault} (hop : c.op? = some op)
    (h : c.apply x y = .error fault) : fault.IsDomain := by
  rw [Code.apply_of_op? hop] at h
  exact Fault.isDomain_of_mapError h

/-- Where there is a value for every variable, a valid tree evaluates but for its operators'
domains. -/
theorem Valid.isDomain_of_evaluate {n : Nat} {values : List α} {fault : Fault}
    (h : t.Valid (some n)) (hn : n ≤ values.length) (heval : t.evaluate values = .error fault) :
    fault.IsDomain := by
  induction t generalizing fault with
  | num x => cases heval
  | var i =>
    have hi : i < values.length := by
      have := valid_var_iff.1 h n rfl
      omega
    rw [evaluate, List.getElem?_eq_getElem hi] at heval
    cases heval
  | binary c l r ihl ihr =>
    obtain ⟨hc, hl, hr⟩ := valid_binary_iff.1 h
    obtain ⟨op, hop, -⟩ := Code.op?_of_isBinary hc
    rw [evaluate] at heval
    cases hx : l.evaluate values with
    | error f => rw [hx] at heval; cases heval; exact ihl hl hx
    | ok x =>
      cases hy : r.evaluate values with
      | error f => rw [hx, hy] at heval; cases heval; exact ihr hr hy
      | ok y => rw [hx, hy] at heval; exact isDomain_of_apply hop heval
  | call c t ih =>
    obtain ⟨hc, ht⟩ := valid_call_iff.1 h
    obtain ⟨op, hop, -⟩ := Code.op?_of_isFunction hc
    rw [evaluate] at heval
    cases hx : t.evaluate values with
    | error f => rw [hx] at heval; cases heval; exact ih ht hx
    | ok x => rw [hx] at heval; exact isDomain_of_apply hop heval
  | foreign | missing => exact h.wellFormed.elim

/-- A well-formed tree has a value only where every variable has one. -/
theorem WellFormed.valid_of_evaluate {values : List α} {v : α} (h : t.WellFormed)
    (heval : t.evaluate values = .ok v) : t.Valid (some values.length) := by
  induction t generalizing v with
  | num x => exact valid_num x
  | var i =>
    refine valid_var_iff.2 fun n hn => ?_
    obtain rfl := Option.some.inj hn
    rw [evaluate] at heval
    cases hi : values[i]? with
    | none => rw [hi] at heval; cases heval
    | some x => exact Int.ofNat_lt.2 (List.getElem?_eq_some_iff.1 hi).1
  | binary c l r ihl ihr =>
    rw [evaluate] at heval
    cases hx : l.evaluate values with
    | error f => rw [hx] at heval; cases heval
    | ok x =>
      cases hy : r.evaluate values with
      | error f => rw [hx, hy] at heval; cases heval
      | ok y => exact valid_binary_iff.2 ⟨h.1, ihl h.2.1 hx, ihr h.2.2 hy⟩
  | call c t ih =>
    rw [evaluate] at heval
    cases hx : t.evaluate values with
    | error f => rw [hx] at heval; cases heval
    | ok x => exact valid_call_iff.2 ⟨h.1, ih h.2 hx⟩
  | foreign | missing => exact h.elim

end Evaluate

end Tree

end FormulaCalculus
