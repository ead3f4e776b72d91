import FormulaCalculus.Proofs.Equation.Good

/-!
# How operations on good equations end

Pre- and postconditions of computations that may fail, with one statement for each operation. An
equation is walkable if it is good and not too deep: then nothing but an operator outside its domain
can go wrong while it is walked, and only forming its derivative can exhaust the stack.
-/

namespace FormulaCalculus

/-- The computation ends with a value that satisfies `P`, or with a fault that satisfies `E`. -/
inductive Ensures {φ β : Type} (P : β → Prop) (E : φ → Prop) : Except φ β → Prop
  | ok {b : β} (h : P b) : Ensures P E (.ok b)
  | error {fault : φ} (h : E fault) : Ensures P E (.error fault)

namespace Ensures

variable {φ β γ : Type} {P P' : β → Prop} {Q : γ → Prop} {E E' : φ → Prop} {x : Except φ β}

theorem of_forall (h : ∀ b, x = .ok b → P b) (h' : ∀ fault, x = .error fault → E fault) :
    Ensures P E x := by
  cases x with
  | ok b => exact .ok (h b rfl)
  | error fault => exact .error (h' fault rfl)

theorem value {b : β} (h : Ensures P E (.ok b)) : P b := by
  cases h with
  | ok h => exact h

theorem fault {fault : φ} (h : Ensures P E (.error fault)) : E fault := by
  cases h with
  | error h => exact h

theorem imp (h : Ensures P E x) (hP : ∀ b, P b → P' b) (hE : ∀ fault, E fault → E' fault) :
    Ensures P' E' x := by
  cases h with
  | ok h => exact .ok (hP _ h)
  | error h => exact .error (hE _ h)

theorem imp_fault (h : Ensures P E x) (hE : ∀ fault, E fault → E' fault) : Ensures P E' x :=
  h.imp (fun _ h => h) hE

theorem bind {f : β → Except φ γ} (h : Ensures P E x) (hf : ∀ b, P b → Ensures Q E (f b)) :
    Ensures Q E (x >>= f) := by
  cases h with
  | ok h => exact hf _ h
  | error h => exact .error h

theorem outcome_bind {ε : Type} {y : Traced ε φ β} {f : β → Traced ε φ γ}
    (h : Ensures P E y.outcome) (hf : ∀ b, P b → Ensures Q E (f b).outcome) :
    Ensures Q E (y >>= f).outcome := by
  rw [Traced.outcome_bind]
  exact h.bind hf

theorem mapM {α : Type} {f : α → Except φ β} {l : List α}
    (h : ∀ a ∈ l, Ensures (fun _ => True) E (f a)) : Ensures (fun _ => True) E (l.mapM f) := by
  induction l with
  | nil => exact .ok trivial
  | cons a l ih =>
    obtain ⟨ha, hl⟩ := List.forall_mem_cons.1 h
    rw [List.mapM_cons]
    exact ha.bind fun _ _ => (ih hl).bind fun _ _ => .ok trivial

end Ensures

namespace Equation

variable {α : Type} {e e' : Equation α}

/-- The equation is good and can be walked. -/
structure Walkable (e : Equation α) : Prop where
  good : e.Good
  shallow : e.root.isTooDeep = false

/-- The equation `e'` is walkable and has the table of `e`. -/
structure Follows (e e' : Equation α) : Prop where
  walkable : e'.Walkable
  names_eq : e'.names = e.names

theorem Walkable.isDomain (h : e.Walkable) {fault : Fault} (hf : e.MayRaise fault) :
    fault.IsDomain := by
  rcases hf with hf | ⟨-, hdeep⟩
  · exact hf
  · rw [h.shallow] at hdeep
    cases hdeep

theorem Walkable.wellFormed (h : e.Walkable) : e.root.WellFormed :=
  (good_iff.1 h.good).wellFormed

theorem Walkable.follows (h : e.Walkable) : e.Follows e :=
  ⟨h, rfl⟩

theorem Follows.trans {e'' : Equation α} (h : e.Follows e') (h' : e'.Follows e'') :
    e.Follows e'' :=
  ⟨h'.walkable, h'.names_eq.trans h.names_eq⟩

variable [Scalar α] {ε : α}

namespace Walkable

theorem ensures_evaluate (h : e.Walkable) (values : List α)
    (hvalues : e.names.length ≤ values.length) :
    Ensures (fun v => e.root.evaluate values = .ok v) Fault.IsDomain (e.evaluate values) := by
  refine .of_forall (fun v hv => ?_) fun fault hf =>
    h.isDomain (h.good.mayRaise_of_evaluate hvalues hf)
  rwa [evaluate, if_neg (Nat.not_lt.2 hvalues), h.shallow, if_neg Bool.false_ne_true] at hv

/-- A derivative is formed, and then measured: that fails if it is too deep. -/
theorem exists_ensures_differentiate (h : e.Walkable) {i : Int} (h0 : 0 ≤ i)
    (hi : i < max e.names.length 1) : ∃ d, e.root.differentiate? i = .ok d ∧
      Ensures (fun e' => e' = e.withRoot d ∧ e.Follows e')
        (fun fault => fault = .recursion ∧ d.isTooDeep) (e.differentiate i).outcome := by
  obtain ⟨d, hd, hvalid, houtcome⟩ := h.good.outcome_differentiate h0 hi
  refine ⟨d, hd, ?_⟩
  rw [houtcome, h.shallow, if_neg Bool.false_ne_true]
  cases hdeep : d.isTooDeep with
  | true => exact .error ⟨rfl, rfl⟩
  | false => exact .ok ⟨rfl, ⟨good_iff.2 hvalid, hdeep⟩, rfl⟩

theorem follows_of_runPass (h : e.Walkable) {n : Nat} (hrun : e.runPass ε = (e', .ok n)) :
    e.Follows e' := by
  obtain ⟨hkeeps, hdeep⟩ := h.good.runPass_of_ok hrun
  exact ⟨⟨hkeeps.good, Bool.eq_false_iff.2 (mt hdeep (Bool.eq_false_iff.1 h.shallow))⟩,
    hkeeps.names_eq⟩

/-- A simplification leaves what a pass makes of the tree. -/
theorem ensures_simplify (h : e.Walkable) (ε : α) :
    Ensures (fun _ => (e.simplify ε).equation = e.withRoot (e.root.simplifyPass ε).tree ∧
      e.Follows (e.simplify ε).equation) Fault.IsDomain (e.simplify ε).result.outcome := by
  refine .of_forall (fun _ hok => ?_) fun fault hf =>
    h.isDomain ((h.good.simplify ε).faults fault hf)
  obtain ⟨n, hrun⟩ := runPass_of_simplify hok
  obtain ⟨p, o, hp, -, htree, -⟩ := runPass_eq_ok hrun
  obtain ⟨-, rfl⟩ := Tree.simplify?_eq_ok.1 hp
  exact ⟨htree, h.follows_of_runPass hrun⟩

theorem outcome_simplify (h : e.Walkable) {n : Nat} (hrun : e.runPass ε = (e', .ok n)) :
    (e.simplify ε).result.outcome = .ok () := by
  have hbefore := Tree.size?_of_isComplete h.wellFormed.isComplete h.shallow
  have h' := (h.follows_of_runPass hrun).walkable
  have hafter := Tree.size?_of_isComplete h'.wellFormed.isComplete h'.shallow
  simp only [simplify, hbefore, hrun, Traced.outcome_bind, Traced.outcome_ofExcept, hafter]
  rfl

theorem follows_repeatPasses (h : e.Walkable) {limit : Count} {fuel passed : Nat} {n : Count}
    (hok : (repeatPasses ε limit fuel passed e).result.outcome = .ok n) :
    e.Follows (repeatPasses ε limit fuel passed e).equation := by
  induction fuel generalizing e passed with
  | zero => exact h.follows
  | succ fuel ih =>
    unfold repeatPasses at hok ⊢
    split at hok
    · cases hok
    · rename_i e' hrun
      exact h.follows_of_runPass hrun
    · rename_i e' n hrun
      have hfollows := h.follows_of_runPass hrun
      exact hfollows.trans (ih hfollows.walkable hok)

theorem ensures_simplifyFully (h : e.Walkable) (ε : α) (limit : Count)
    (hlimit : 0 < limit.value) :
    Ensures (fun _ => e.Follows (e.simplifyFully ε limit).equation) Fault.IsDomain
      (e.simplifyFully ε limit).result.outcome := by
  have hpositive := Int.not_le.2 hlimit
  refine .of_forall (fun _ hok => ?_) fun fault hf => ?_
  · rw [simplifyFully, if_neg hpositive] at hok ⊢
    exact h.follows_repeatPasses hok
  · rcases (h.good.simplifyFully ε limit).faults fault hf with hraise | ⟨hnone, -⟩
    · exact h.isDomain hraise
    · exact absurd hnone hpositive

end Walkable

end Equation

/-- What a formula is read as is walkable. -/
theorem Formula.walkable_of_parse {limit : Count} {formula : Option String} {e : Equation Float}
    (h : (parse limit formula).outcome = .ok e) : e.Walkable := by
  refine ⟨good_of_parse h, ?_⟩
  cases formula with
  | none => cases h
  | some formula =>
    obtain ⟨ts, p, -, -, -, -, hshallow⟩ := derives_of_parse h
    exact hshallow

end FormulaCalculus
