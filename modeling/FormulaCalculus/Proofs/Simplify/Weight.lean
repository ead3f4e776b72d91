import FormulaCalculus.Proofs.Simplify.FixedPoint

/-!
# Repeated passes settle

A pass can build what a later pass replaces again: of `x + x` it makes `2 * x`, and at a tolerance
above 2 that is taken for 0. But every replacement makes a tree lighter. A sum or a difference
weighs more than the product that an identity makes of it, and a product more than the power; all
else that takes the place of a node is a part of it or a number. So passes come to a fixed point
under every tolerance, at the latest after as many as the tree weighs.
-/

namespace FormulaCalculus

def Op.weight : Op → Nat
  | add | sub => 3
  | mul => 2
  | _ => 1

def Code.weight (c : Code) : Nat :=
  c.op?.elim 1 Op.weight

theorem Code.weight_of_op? {c : Code} {op : Op} (h : c.op? = some op) : c.weight = op.weight := by
  rw [weight, h, Option.elim_some]

theorem Code.one_le_weight (c : Code) : 1 ≤ c.weight := by
  unfold weight
  rcases c.op? with _ | op
  · exact Nat.le_refl 1
  · cases op <;> decide

theorem Code.weight_le_three (c : Code) : c.weight ≤ 3 := by
  unfold weight
  rcases c.op? with _ | op
  · exact Nat.le_of_ble_eq_true rfl
  · cases op <;> decide

namespace Tree

variable {α : Type}

/-- What every replacement makes less. -/
def weight : Tree α → Nat
  | binary c l r => c.weight + l.weight + r.weight
  | call _ x => 1 + x.weight
  | _ => 1

theorem one_le_weight (t : Tree α) : 1 ≤ t.weight := by
  cases t with
  | binary c l r =>
    have := c.one_le_weight
    simp only [weight]
    omega
  | call => simp only [weight]; omega
  | _ => exact Nat.le_refl 1

theorem weight_le (t : Tree α) : t.weight ≤ 3 * t.size := by
  induction t with
  | binary c l r ihl ihr =>
    have := c.weight_le_three
    simp only [weight, size]
    omega
  | call c x ih => simp only [weight, size]; omega
  | _ => exact Nat.le_of_ble_eq_true rfl

variable [Scalar α] {ε : α} {op : Op} {l r t t' : Tree α} {n : Nat}

/-! ### One pass -/

theorem Rewrite.size_le (h : Rewrite ε op l r t) : t.size ≤ 1 + l.size + r.size := by
  cases h <;> simp only [size, mul, pow, int] <;> omega

theorem Rewrite.weight_lt (h : Rewrite ε op l r t) :
    t.weight < op.weight + l.weight + r.weight := by
  cases h with
  | add_self | zero_sub | mul_self =>
    simp only [weight, mul, pow, int, Code.weight_of_op? (c := .op _) rfl, Op.weight]
    omega
  | _ =>
    simp only [weight, int, Op.weight]
    omega

theorem Replaces.size_le (h : Replaces ε t t' n) : t'.size ≤ t.size := by
  induction h with
  | refl t => exact Nat.le_refl _
  | binary _ _ ihl ihr => simp only [size]; omega
  | call _ ih => simp only [size]; omega
  | fold v _ _ ihl ihr => simp only [size]; omega
  | fold_call v _ ih => simp only [size]; omega
  | rewrite hop _ _ h ihl ihr =>
    have := h.size_le
    simp only [size]
    omega

/-- The weight falls by 1 at least for every node that is replaced. -/
theorem Replaces.weight_add_le (h : Replaces ε t t' n) : t'.weight + n ≤ t.weight := by
  induction h with
  | refl t => exact Nat.le_refl _
  | binary _ _ ihl ihr => simp only [weight]; omega
  | call _ ih => simp only [weight]; omega
  | @fold c l l' r r' m n v _ _ ihl ihr =>
    have hc := c.one_le_weight
    have hl := l'.one_le_weight
    have hr := r'.one_le_weight
    simp only [weight]
    omega
  | @fold_call c x x' n v _ ih =>
    have hx := x'.one_le_weight
    simp only [weight]
    omega
  | rewrite hop _ _ h ihl ihr =>
    have hlt := h.weight_lt
    simp only [weight, Code.weight_of_op? hop]
    omega

theorem Replaces.eq_of_zero (h : Replaces ε t t' n) (hn : n = 0) : t' = t := by
  induction h with
  | refl t => rfl
  | binary _ _ ihl ihr => rw [ihl (by omega), ihr (by omega)]
  | call _ ih => rw [ih hn]
  | fold | fold_call | rewrite => omega

/-- A pass replaces something exactly if it changes the tree. -/
theorem replaced_simplifyPass_eq_zero_iff (ε : α) (t : Tree α) :
    (t.simplifyPass ε).replaced = 0 ↔ (t.simplifyPass ε).tree = t := by
  have h := replaces_simplifyPass ε t
  refine ⟨h.eq_of_zero, fun heq => ?_⟩
  have hweight := h.weight_add_le
  rw [heq] at hweight
  omega

end Tree

namespace Equation

variable {α : Type} [Scalar α] {ε : α} {e e' : Equation α} {n : Nat}

/-! ### Repeated passes -/

/-- The equation after a number of passes, whether they succeed or not. -/
def afterPasses (ε : α) : Nat → Equation α → Equation α
  | 0, e => e
  | k + 1, e => afterPasses ε k (e.runPass ε).1

theorem afterPasses_succ (ε : α) (k : Nat) (e : Equation α) :
    afterPasses ε (k + 1) e = ((afterPasses ε k e).runPass ε).1 := by
  induction k generalizing e with
  | zero => rfl
  | succ k ih => exact ih (e.runPass ε).1

theorem replaces_of_runPass (h : e.runPass ε = (e', .ok n)) :
    Tree.Replaces ε e.root e'.root n := by
  obtain ⟨p, o, hp, -, rfl, rfl⟩ := runPass_eq_ok h
  obtain ⟨-, rfl⟩ := Tree.simplify?_eq_ok.1 hp
  exact Tree.replaces_simplifyPass ε e.root

theorem eq_of_runPass_zero (h : e.runPass ε = (e', .ok 0)) : e' = e := by
  have hroot := (replaces_of_runPass h).eq_of_zero rfl
  obtain ⟨p, o, -, -, rfl, -⟩ := runPass_eq_ok h
  rw [root_withRoot] at hroot
  rw [withRoot, hroot]

/-- A pass breaks off the repetition after fewer passes than the tree weighs, or the repetition ends
after at most as many. -/
theorem repeatPasses_settles (ε : α) (limit : Count) (fuel passed : Nat) (e : Equation α)
    (hfuel : e.root.weight ≤ fuel) :
    (∃ k < e.root.weight, ∃ fault, ((afterPasses ε k e).runPass ε).2 = .error fault ∧
      repeatPasses ε limit fuel passed e =
        ⟨afterPasses ε (k + 1) e, .ofExcept (.error fault)⟩) ∨
    ∃ k < e.root.weight, (afterPasses ε k e).runPass ε = (afterPasses ε k e, .ok 0) ∧
      repeatPasses ε limit fuel passed e = ⟨afterPasses ε k e,
        ⟨[.settled (passed + k + 1)], .ok (.number (passed + k + 1 : Nat))⟩⟩ := by
  have hweight := e.root.one_le_weight
  induction fuel generalizing passed e with
  | zero => omega
  | succ fuel ih =>
    match hrun : e.runPass ε with
    | (e', .error fault) =>
      refine .inl ⟨0, hweight, fault, ?_, ?_⟩
      · rw [afterPasses, hrun]
      · simp only [repeatPasses, hrun, afterPasses]
    | (e', .ok 0) =>
      obtain rfl := eq_of_runPass_zero hrun
      refine .inr ⟨0, hweight, hrun, ?_⟩
      simp only [repeatPasses, hrun]
      rfl
    | (e', .ok (n + 1)) =>
      have hlight := (replaces_of_runPass hrun).weight_add_le
      have hnext : ∀ k, afterPasses ε (k + 1) e = afterPasses ε k e' := by
        intro k
        rw [afterPasses, hrun]
      have hrepeat : repeatPasses ε limit (fuel + 1) passed e =
          repeatPasses ε limit fuel (passed + 1) e' := by
        simp only [repeatPasses, hrun]
      rw [hrepeat]
      rcases ih (passed + 1) e' (by omega) e'.root.one_le_weight with
        ⟨k, hk, fault, hfault, heq⟩ | ⟨k, hk, hfix, heq⟩
      · refine .inl ⟨k + 1, by omega, fault, ?_, ?_⟩
        · rw [hnext, hfault]
        · rw [hnext, heq]
      · refine .inr ⟨k + 1, by omega, ?_, ?_⟩
        · rw [hnext, hfix]
        · rw [hnext, heq, show passed + 1 + k + 1 = passed + (k + 1) + 1 by omega]

/-- Repeated passes settle under every tolerance: no pass makes a tree larger, it replaces nothing
exactly if it leaves the tree as it is, and else it makes the tree lighter. So with a limit of three
passes for each node or more, unless a pass breaks off, `simplifyFully` ends within so many passes
at an equation that a pass leaves as it is. -/
theorem simplifyFully_settles (ε : α) :
    (∀ t : Tree α, (t.simplifyPass ε).tree.size ≤ t.size ∧
      ((t.simplifyPass ε).replaced = 0 ↔ (t.simplifyPass ε).tree = t) ∧
      (0 < (t.simplifyPass ε).replaced → (t.simplifyPass ε).tree.weight < t.weight)) ∧
    ∀ (e : Equation α) (limit : Count), 3 * e.root.size ≤ limit.value →
      (∃ k < 3 * e.root.size, ∃ fault, ((e.afterPasses ε k).runPass ε).2 = .error fault ∧
        e.simplifyFully ε limit = ⟨e.afterPasses ε (k + 1), .ofExcept (.error fault)⟩) ∨
      ∃ passes : Nat, 0 < passes ∧ passes ≤ 3 * e.root.size ∧
        e.simplifyFully ε limit =
          ⟨e.afterPasses ε passes, ⟨[.settled passes], .ok (.number passes)⟩⟩ ∧
        (e.afterPasses ε passes).runPass ε = (e.afterPasses ε passes, .ok 0) := by
  refine ⟨fun t => ?_, fun e limit hlimit => ?_⟩
  · have h := Tree.replaces_simplifyPass ε t
    have hweight := h.weight_add_le
    exact ⟨h.size_le, Tree.replaced_simplifyPass_eq_zero_iff ε t, fun _ => by omega⟩
  · have hpos := e.root.size_pos
    have hweight := e.root.weight_le
    have hlimit' : ¬ limit.value ≤ 0 := by omega
    simp only [simplifyFully, hlimit', if_false]
    rcases repeatPasses_settles ε limit limit.value.toNat 0 e (by omega) with
      ⟨k, hk, fault, hfault, heq⟩ | ⟨k, hk, hfix, heq⟩
    · exact .inl ⟨k, by omega, fault, hfault, heq⟩
    · have hlast : e.afterPasses ε (k + 1) = e.afterPasses ε k := by rw [afterPasses_succ, hfix]
      refine .inr ⟨k + 1, by omega, by omega, ?_, ?_⟩
      · rw [hlast, heq, Nat.zero_add]
      · rw [hlast, hfix]

/-- `x + x` at the tolerance 10: two passes make `2 * x` and then 0 of it, and the third one leaves
that alone. -/
theorem simplifyFully_settles_sum :
    let e : Equation Float := ⟨.add (.var 0) (.var 0), ["x"], by decide⟩
    3 * e.root.size ≤ (9 : Count).value ∧ (e.afterPasses 10 1).root = .mul (.int 2) (.var 0) ∧
      ∃ passes : Nat, passes ≤ 9 ∧ (e.simplifyFully 10 9).result.outcome = .ok (.number passes) ∧
        (e.simplifyFully 10 9).equation = e.withRoot (.int 0) ∧
        (e.withRoot (.int 0)).runPass 10 = (e.withRoot (.int 0), .ok 0) := by
  intro e
  have hlimit : 3 * e.root.size ≤ (9 : Count).value := by decide
  have hequation : (e.simplifyFully 10 9).equation = e.withRoot (.int 0) := rfl
  have hok : (e.simplifyFully 10 9).result.outcome = .ok (.number 3) := rfl
  rcases (simplifyFully_settles (10 : Float)).2 e 9 hlimit with
    ⟨k, -, fault, -, heq⟩ | ⟨passes, -, hpasses, heq, hfix⟩
  · rw [heq] at hok
    cases hok
  · have hafter : e.afterPasses 10 passes = e.withRoot (.int 0) := by rw [← hequation, heq]
    rw [hafter] at hfix
    exact ⟨hlimit, rfl, passes, hpasses, by rw [heq], hequation, hfix⟩

end Equation

end FormulaCalculus
