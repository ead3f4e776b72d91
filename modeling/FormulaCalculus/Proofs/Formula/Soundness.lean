import FormulaCalculus.Proofs.Formula.Scanning
import FormulaCalculus.Proofs.Formula.Steps

/-!
# What is read is derived by the grammar

The state of the reader is a picture of the tokens read so far: `Reached names ts s` cuts them into
those that led to the open brackets, those that wait for the rest of their operator and those that
the mode holds. Every step keeps this picture, so at the end the tokens derive from the grammar and
denote the tree.
-/

namespace FormulaCalculus.Formula

/-- The tokens derive from the level and the tree is what they denote. -/
def Means (names : List String) (l : Level) (ts : List Token) (t : Tree Float) : Prop :=
  ∃ p, Derives l ts p ∧ p.tree names = t

/-- The tokens of what waits on a level: an operand and its operator, or none. -/
inductive Kept (names : List String) (l : Level) : Option (Op × Tree Float) → List Token → Prop
  | none : Kept names l none []
  | some {op : Op} {t : Tree Float} {ts : List Token} {o : Token} (hop : op ∈ l.operators)
    (ho : o.lexeme = .op op) (h : Means names l ts t) : Kept names l (some (op, t)) (ts ++ [o])

/-- The tokens of all that waits. -/
def Keeps (names : List String) (w : Waiting) (ts : List Token) : Prop :=
  ∃ as bs cs, ts = as ++ (bs ++ cs) ∧ Kept names .sum (w.slot .sum) as ∧
    Kept names .product (w.slot .product) bs ∧ Kept names .power (w.slot .power) cs

/-- The tokens that led to the open brackets, each with all that waits outside of it. -/
inductive Opened (names : List String) : List Bracket → List Token → Prop
  | nil : Opened names [] []
  | group {bs : List Bracket} {w : Waiting} {position : Nat} {us vs : List Token} {o : Token}
    (h : Opened names bs us) (hw : Keeps names w vs) (ho : o.lexeme = .opening) :
    Opened names (⟨w, none, position⟩ :: bs) (us ++ (vs ++ [o]))
  | call {bs : List Bracket} {w : Waiting} {position : Nat} {us vs : List Token} {f o : Token}
    {letters : List Char} {op : Op} (h : Opened names bs us) (hw : Keeps names w vs)
    (hf : f.lexeme = .name letters) (hop : Op.function? (String.ofList letters) = some op)
    (ho : o.lexeme = .opening) : Opened names (⟨w, some op, position⟩ :: bs) (us ++ (vs ++ [f, o]))

/-- The tokens that a mode stands for. -/
inductive Held (names : List String) : Mode → List Token → Prop
  | operand : Held names .operand []
  | sign {t : Token} (h : t.lexeme = .op .sub) : Held names (.sign t.position) [t]
  | function {t : Token} {letters : List Char} {op : Op} {position : Nat}
    (h : t.lexeme = .name letters) (hop : Op.function? (String.ofList letters) = some op) :
    Held names (.function op position) [t]
  | ident {t : Token} {letters : List Char} {position : Nat} (h : t.lexeme = .name letters)
    (hf : Op.function? (String.ofList letters) = none) :
    Held names (.variable (String.ofList letters) position) [t]
  | operator {ts : List Token} {x : Tree Float} (h : Means names .primary ts x) :
    Held names (.operator x) ts

def Reached (names : List String) (ts : List Token) (s : State) : Prop :=
  ∃ us vs ms, ts = us ++ (vs ++ ms) ∧ Opened names s.brackets us ∧ Keeps names s.waiting vs ∧
    Held names s.mode ms

section Keeping
variable {names : List String} {l : Level} {slot : Option (Op × Tree Float)} {w : Waiting}
  {ts us vs ms : List Token} {t : Token} {x : Tree Float} {m : Mode} {op : Op}

theorem Means.descend (h : Means names l.next ts x) : Means names l ts x := by
  obtain ⟨p, hp, rfl⟩ := h
  exact ⟨p, .descend hp, rfl⟩

theorem Kept.means (hk : Kept names l slot us) (h : Means names l.next ts x) :
    Means names l (us ++ ts) (Waiting.join slot x) := by
  cases hk with
  | none => exact h.descend
  | @some op t us o hop ho hu =>
    obtain ⟨p, hp, rfl⟩ := hu
    obtain ⟨q, hq, rfl⟩ := h
    rw [List.append_assoc]
    exact ⟨.binary op p q, .join hop ho hp hq, rfl⟩

theorem Keeps.means_sum (hw : Keeps names w vs) (h : Means names .primary ms x) :
    Means names .sum (vs ++ ms) (w.closeSum x) := by
  obtain ⟨as, bs, cs, rfl, ha, hb, hc⟩ := hw
  rw [List.append_assoc, List.append_assoc]
  exact ha.means (hb.means (hc.means h))

theorem keeps_empty : Keeps names {} [] :=
  ⟨[], [], [], rfl, .none, .none, .none⟩

theorem kept_push_self (hop : op ∈ l.operators) (ho : t.lexeme = .op op)
    (h : Means names l us (w.close l x)) : Kept names l ((w.push op x).slot l) (us ++ [t]) := by
  rw [Waiting.slot_push_self hop]
  exact .some hop ho h

theorem kept_push_of_gt {k : Level} (hop : op ∈ l.operators) (hk : l.rank < k.rank) :
    Kept names k ((w.push op x).slot k) [] := by
  rw [Waiting.slot_push_of_gt hop hk]
  exact .none

theorem kept_push_of_lt {k : Level} (hop : op ∈ l.operators) (hk : k.rank < l.rank)
    (h : Kept names k (w.slot k) us) : Kept names k ((w.push op x).slot k) us := by
  rwa [Waiting.slot_push_of_lt hop hk]

/-- An operator makes its level wait for an operand that ends with the one just read. -/
theorem Keeps.push (hw : Keeps names w vs) (h : Means names .primary ms x) (hop : op.isBinary)
    (ho : t.lexeme = .op op) : Keeps names (w.push op x) (vs ++ (ms ++ [t])) := by
  obtain ⟨l, hl⟩ : ∃ l : Level, op ∈ l.operators := ⟨_, Level.mem_operators_iff.2 ⟨hop, rfl⟩⟩
  obtain ⟨as, bs, cs, rfl, ha, hb, hc⟩ := hw
  cases l with
  | sum =>
    refine ⟨as ++ (bs ++ (cs ++ ms)) ++ [t], [], [], by simp, ?_, ?_, ?_⟩
    · exact kept_push_self hl ho (ha.means (hb.means (hc.means h)))
    · exact kept_push_of_gt hl (by decide)
    · exact kept_push_of_gt hl (by decide)
  | product =>
    refine ⟨as, bs ++ (cs ++ ms) ++ [t], [], by simp, ?_, ?_, ?_⟩
    · exact kept_push_of_lt hl (by decide) ha
    · exact kept_push_self hl ho (hb.means (hc.means h))
    · exact kept_push_of_gt hl (by decide)
  | power =>
    refine ⟨as, bs, cs ++ ms ++ [t], by simp, ?_, ?_, ?_⟩
    · exact kept_push_of_lt hl (by decide) ha
    · exact kept_push_of_lt hl (by decide) hb
    · exact kept_push_self hl ho (hc.means h)
  | primary => cases hl

theorem Held.means (h : Held names m ms) (hx : Holds names m x) : Means names .primary ms x := by
  cases hx with
  | operator =>
    obtain ⟨⟩ := h
    assumption
  | ident =>
    cases h with
    | ident h hf => exact ⟨_, .ident h hf, rfl⟩
  | done => cases h

end Keeping

/-! ### Steps and runs -/

section Runs
variable {limit : Count} {names : List String} {s s' : State} {ts us : List Token} {t : Token}

theorem reached_start : Reached names [] {} :=
  ⟨[], [], [], rfl, .nil, keeps_empty, .operand⟩

theorem Reached.step (h : Reached names ts s) (hs : Step limit names s t s')
    (ht : Ordinary t.lexeme) : Reached names (ts ++ [t]) s' := by
  obtain ⟨us, vs, ms, rfl, ho, hw, hm⟩ := h
  cases hs with
  | number h =>
    cases hm
    exact ⟨us, vs, [t], by simp, ho, hw, .operator ⟨_, .number h, rfl⟩⟩
  | sign h =>
    cases hm
    exact ⟨us, vs, [t], by simp, ho, hw, .sign h⟩
  | negative h hgap =>
    cases hm with
    | @sign s hs => exact ⟨us, vs, [s, t], by simp, ho, hw, .operator ⟨_, .negative hs h hgap, rfl⟩⟩
  | function h hop =>
    cases hm
    exact ⟨us, vs, [t], by simp, ho, hw, .function h hop⟩
  | ident h hf =>
    cases hm
    exact ⟨us, vs, [t], by simp, ho, hw, .ident h hf⟩
  | group h =>
    cases hm
    exact ⟨us ++ (vs ++ [t]), [], [], by simp, .group ho hw h, keeps_empty, .operand⟩
  | call h =>
    cases hm with
    | @function f letters op position hf hop =>
      exact ⟨us ++ (vs ++ [f, t]), [], [], by simp, .call ho hw hf hop h, keeps_empty, .operand⟩
  | operator hx h =>
    rw [h] at ht
    cases ht with
    | op hop =>
      exact ⟨us, vs ++ (ms ++ [t]), [], by simp, ho, hw.push (hm.means hx) hop h, .operand⟩
  | close hx h =>
    obtain ⟨p, hp, hclosed⟩ := hw.means_sum (hm.means hx)
    cases ho with
    | @group _ w position us₀ vs₀ o ho hw₀ hopen =>
      refine ⟨us₀, vs₀, o :: (vs ++ ms ++ [t]), by simp, ho, hw₀, ?_⟩
      exact .operator ⟨p, .group hopen h hp, hclosed⟩
    | @call _ w position us₀ vs₀ f o letters op ho hw₀ hf hop hopen =>
      refine ⟨us₀, vs₀, f :: o :: (vs ++ ms ++ [t]), by simp, ho, hw₀, ?_⟩
      exact .operator ⟨.call op p, .call hf hop hopen h hp, congrArg _ hclosed⟩
  | finish _ h =>
    rw [h] at ht
    cases ht

theorem Reached.run (h : Reached names ts s) (hr : Run limit names s us s')
    (hus : ∀ t ∈ us, Ordinary t.lexeme) : Reached names (ts ++ us) s' := by
  induction us generalizing ts s with
  | nil =>
    rw [List.append_nil, ← run_nil_iff.1 hr]
    exact h
  | cons u us ih =>
    obtain ⟨s₁, hstep, hrest⟩ := run_cons_iff.1 hr
    rw [List.forall_mem_cons] at hus
    have := ih (h.step hstep hus.1) hrest hus.2
    rwa [List.append_assoc] at this

/-- The end of the formula closes all that waits. -/
theorem Reached.finish (h : Reached names ts s) (hs : Step limit names s t s')
    (ht : t.lexeme = .finish) : ∃ x, s'.mode = .done x ∧ Means names .sum ts x := by
  obtain ⟨us, vs, ms, rfl, ho, hw, hm⟩ := h
  cases hs with
  | finish hx =>
    cases ho
    exact ⟨_, rfl, hw.means_sum (hm.means hx)⟩
  | number h | sign h | negative h | function h | ident h | group h | call h | operator _ h
  | close _ h => rw [ht] at h; cases h

end Runs

end FormulaCalculus.Formula
