import FormulaCalculus.Proofs.Equation.Good

/-!
# Runs of operations

Operations are applied one after another to the equations of a list: each changes or keeps the
equation that it is applied to, and may put a new one at the end of the list. Starting from good
equations there are only good ones at any point of a run, and each keeps its table.
-/

namespace FormulaCalculus

/-- What yields or changes an equation. -/
inductive Operation (α : Type)
  | copy
  | differentiate (i : Int)
  | simplify (ε : α)
  | simplifyFully (ε : α) (limit : Count)
  | taylor (ε : α) (order : Option Int) (point : α)

namespace Operation

variable {α : Type} [Scalar α]

/-- The equation as the operation leaves it, whether the operation fails or not. -/
def left : Operation α → Equation α → Equation α
  | simplify ε, e => (e.simplify ε).equation
  | simplifyFully ε limit, e => (e.simplifyFully ε limit).equation
  | _, e => e

/-- The new equation, if the operation yields one and does not fail. -/
def yield? : Operation α → Equation α → Option (Equation α)
  | copy, e => e.copy?.toOption
  | differentiate i, e => (e.differentiate i).outcome.toOption
  | taylor ε order point, e => (e.taylor ε order point).outcome.toOption
  | _, _ => none

/-- Applies the operation to the equation at a place of the list. -/
def apply (o : Operation α) (place : Nat) (es : List (Equation α)) : List (Equation α) :=
  match es[place]? with
  | some e => es.set place (o.left e) ++ (o.yield? e).toList
  | none => es

/-- Applies operations, each with the place of its equation, one after another. -/
def run (es : List (Equation α)) (steps : List (Nat × Operation α)) : List (Equation α) :=
  steps.foldl (fun es step => step.2.apply step.1 es) es

end Operation

open Operation Equation

section Runs
variable {α : Type} [Scalar α] {es : List (Equation α)} {e e' : Equation α}

theorem Equation.Good.keeps_left (h : e.Good) (o : Operation α) : Keeps e (o.left e) := by
  cases o with
  | simplify ε => exact (h.simplify ε).keeps
  | simplifyFully ε limit => exact (h.simplifyFully ε limit).keeps
  | _ => exact h.keeps

theorem Equation.Good.keeps_yield (h : e.Good) {o : Operation α} (ho : o.yield? e = some e') :
    Keeps e e' := by
  cases o with
  | copy => exact h.keeps_of_copy? (toOption_eq_some.1 ho)
  | differentiate i => exact h.keeps_of_differentiate (toOption_eq_some.1 ho)
  | taylor => exact keeps_of_taylor (toOption_eq_some.1 ho)
  | _ => cases ho

/-- A step keeps the tables of the equations in place, and all that there is then is good. -/
theorem good_apply (h : ∀ e ∈ es, e.Good) (o : Operation α) (place : Nat) :
    (∀ e ∈ o.apply place es, e.Good) ∧
      es.map Equation.names <+: (o.apply place es).map Equation.names := by
  unfold Operation.apply
  split
  · rename_i e he
    have hgood := h e (List.mem_of_getElem? he)
    have hleft := hgood.keeps_left o
    constructor
    · intro e' he'
      rcases List.mem_append.1 he' with hset | hnew
      · rcases List.mem_or_eq_of_mem_set hset with hmem | rfl
        · exact h e' hmem
        · exact hleft.good
      · exact (hgood.keeps_yield (Option.mem_toList.1 hnew)).good
    · have hnames : (es.set place (o.left e)).map Equation.names = es.map Equation.names := by
        obtain ⟨hlt, rfl⟩ := List.getElem?_eq_some_iff.1 he
        have hlt' : place < (es.map Equation.names).length := by rwa [List.length_map]
        have hname : (es.map Equation.names)[place] = es[place].names := List.getElem_map _
        rw [List.map_set, hleft.names_eq, ← hname, List.set_getElem_self]
      rw [List.map_append, hnames]
      exact List.prefix_append _ _
  · exact ⟨h, List.prefix_refl _⟩

theorem good_run (h : ∀ e ∈ es, e.Good) (steps : List (Nat × Operation α)) :
    (∀ e ∈ run es steps, e.Good) ∧
      es.map Equation.names <+: (run es steps).map Equation.names := by
  induction steps generalizing es with
  | nil => exact ⟨h, List.prefix_refl _⟩
  | cons step steps ih =>
    obtain ⟨hgood, hnames⟩ := good_apply h step.2 step.1
    obtain ⟨hgood', hnames'⟩ := ih hgood
    exact ⟨hgood', hnames.trans hnames'⟩

end Runs

namespace Operation

/-- What is read is good, and runs on good equations find and leave only good ones. Each keeps its
table, and a new one has the table of the equation that it came from. On good equations nothing goes
wrong but an operator outside its domain, where the stack suffices and passes are to be made. -/
theorem good_of_runs {α : Type} [Scalar α] :
    (∀ (limit : Count) (formula : Option String) (e : Equation Float),
      (Formula.parse limit formula).outcome = .ok e → e.Good) ∧
    (∀ (es : List (Equation α)) (steps : List (Nat × Operation α)), (∀ e ∈ es, e.Good) →
      es.map Equation.names <+: (run es steps).map Equation.names ∧
      ∀ e ∈ run es steps, e.Good ∧ ∀ o : Operation α, Keeps e (o.left e) ∧
        ∀ e', o.yield? e = some e' → Keeps e e') ∧
    ∀ e : Equation α, e.Good →
      (∀ i : Int, 0 ≤ i → i < max e.names.length 1 → ∃ d, e.root.differentiate? i = .ok d ∧
        (e.differentiate i).outcome =
          if e.root.isTooDeep then .error (.nestedTooDeeply "differentiate")
          else if d.isTooDeep then .error .recursion else .ok (e.withRoot d)) ∧
      (∀ values : List α, e.names.length ≤ values.length → ∀ fault,
        e.evaluate values = .error fault → e.MayRaise fault) ∧
      (∀ ε fault, (e.simplify ε).result.outcome = .error fault → e.MayRaise fault) ∧
      ∀ ε limit fault, (e.simplifyFully ε limit).result.outcome = .error fault →
        e.MayRaise fault ∨ limit.value ≤ 0 ∧ fault = .badPassLimit := by
  refine ⟨fun _ _ _ => Formula.good_of_parse, fun es steps hes => ?_, fun e h => ⟨?_, ?_, ?_, ?_⟩⟩
  · obtain ⟨hgood, hnames⟩ := good_run hes steps
    exact ⟨hnames, fun e he => ⟨hgood e he, fun o =>
      ⟨(hgood e he).keeps_left o, fun _ => (hgood e he).keeps_yield⟩⟩⟩
  · intro i h0 hi
    obtain ⟨d, hd, -, houtcome⟩ := h.outcome_differentiate h0 hi
    exact ⟨d, hd, houtcome⟩
  · exact fun values hvalues fault => h.mayRaise_of_evaluate hvalues
  · exact fun ε => (h.simplify ε).faults
  · exact fun ε limit => (h.simplifyFully ε limit).faults

/-- The simplification of `1/(x-x)` fails and leaves `1/0`; whatever is done to it then, the
equations are good. -/
theorem good_of_runs_quotient :
    let e : Equation Float := ⟨.div (.num (Decimal.readLiteral ['1'])) (.sub (.var 0) (.var 0)),
      ["x"], by decide⟩
    let steps : List (Nat × Operation Float) := [(0, .simplify 0), (0, .differentiate 0),
      (1, .simplifyFully 0 32), (0, .taylor 0 (some 2) 1), (1, .copy)]
    (Formula.parse 100 (some "1/(x-x)")).outcome = .ok e ∧ e.Good ∧
      (e.simplify 0).equation.root = .div (.num (Decimal.readLiteral ['1'])) (.int 0) ∧
      (e.simplify 0).result.outcome = .error (.domain .divisionByZero) ∧
      e.MayRaise (.domain .divisionByZero) ∧
      (∀ e' ∈ run [e] steps, e'.Good) ∧ [["x"]] <+: (run [e] steps).map Equation.names ∧
      ∃ d, (e.differentiate 0).outcome = .ok (e.withRoot d) := by
  intro e steps
  have hscan : Token.scan "1/(x-x)" = .ok [⟨.number ['1'], 0⟩, ⟨.op .div, 1⟩, ⟨.opening, 2⟩,
      ⟨.name ['x'], 3⟩, ⟨.op .sub, 4⟩, ⟨.name ['x'], 5⟩, ⟨.closing, 6⟩, ⟨.finish, 7⟩] := by cbv
  have hok : (Formula.parse 100 (some "1/(x-x)")).outcome = .ok e := by
    rw [Formula.outcome_parse hscan]
    rfl
  obtain ⟨hparse, hruns, hfaults⟩ := good_of_runs (α := Float)
  have hgood : e.Good := hparse _ _ _ hok
  obtain ⟨hnames, hall⟩ := hruns [e] steps (List.forall_mem_singleton.2 hgood)
  obtain ⟨d, hd, hdifferentiate⟩ := (hfaults e hgood).1 0 (by decide) (by decide)
  have hfault : (e.simplify 0).result.outcome = .error (.domain .divisionByZero) := rfl
  refine ⟨hok, hgood, rfl, hfault, (hfaults e hgood).2.2.1 0 _ hfault,
    fun e' he' => (hall e' he').1, hnames, d, ?_⟩
  cases hd
  rwa [if_neg (by decide), if_neg (by decide)] at hdifferentiate

/-- To make no pass at all is refused, by a fault that is not the equation's. -/
theorem simplifyFully_refuses_zero :
    let e : Equation Float := ⟨.var 0, ["x"], by decide⟩
    e.Good ∧ (e.simplifyFully 0 0).result.outcome = .error .badPassLimit ∧
      ¬e.MayRaise .badPassLimit := by
  intro e
  refine ⟨good_iff.2 (Tree.valid_var_iff.2 ?_), rfl, ?_⟩
  · rintro _ ⟨⟩
    decide
  · rintro (⟨d, hd⟩ | ⟨hd | ⟨operation, hd⟩, -⟩) <;> cases hd

end Operation

end FormulaCalculus
