import FormulaCalculus.CommandLine.Run
import FormulaCalculus.Proofs.Equation.Outcomes

/-!
# Steps of a run

Triples for the actions of a run, with one rule for each way to put actions together. What an action
yields or fails with does not depend on what was written before it, and no action logs an error: the
only error is logged for the fault that ends a run.
-/

namespace FormulaCalculus.CommandLine

open Log

/-! ### What is logged -/

/-- The text of lines on standard error. -/
def transcript (lines : List Line) : String :=
  String.join (lines.map Line.written)

theorem transcript_append (ls ms : List Line) :
    transcript (ls ++ ms) = transcript ls ++ transcript ms := by
  rw [transcript, List.map_append, String.join_append]
  rfl

/-- No line is an error. -/
def Calm (lines : List Line) : Prop :=
  ∀ l ∈ lines, l.severity ≠ .error

theorem calm_lines_tree (name dump : String) : Calm (Message.tree name dump).lines := by
  simp only [Calm, Message.lines, List.cons_append, List.mem_cons, List.mem_append, List.mem_map]
  rintro l (rfl | ⟨line, -, rfl⟩ | rfl | h)
  · exact nofun
  · exact nofun
  · exact nofun
  · cases h

/-- The reports of operations are no errors. -/
theorem calm_lines_messageOf (event : Event Float) : Calm (messageOf event).lines := by
  cases event with
  | parsedTree e => exact calm_lines_tree _ _
  | _ =>
    intro l hl
    obtain rfl := List.mem_singleton.1 hl
    exact nofun

theorem Calm.of_messages {messages : List Message} (h : ∀ m ∈ messages, Calm m.lines)
    (logger : Logger) : Calm (messages.flatMap logger.lines) := by
  intro l hl
  obtain ⟨m, hm, hl⟩ := List.mem_flatMap.1 hl
  unfold Logger.lines at hl
  split at hl
  · exact h m hm l hl
  · cases hl

/-- The run logs at the level, and has logged no errors so far. -/
structure State.Calm (level : Level) (s : State) : Prop where
  logger : s.logger = .make level none
  stderr : ∃ lines, CommandLine.Calm lines ∧ s.stderr = transcript lines

/-! ### Triples -/

/-- The action yields what satisfies `P` or fails with what satisfies `E`, and logs no errors. -/
structure Leads {β : Type} (P : β → Prop) (E : Fault → Prop) (a : Action β) : Prop where
  ensures : ∀ s, Ensures P E (a.run.run s).1
  calm : ∀ level s, s.Calm level → State.Calm level (a.run.run s).2

theorem run_bind {β γ : Type} (a : Action β) (f : β → Action γ) (s : State) :
    (a >>= f).run.run s = match a.run.run s with
      | (.ok b, s') => (f b).run.run s'
      | (.error fault, s') => (.error fault, s') := by
  rw [ExceptT.run_bind, StateT.run_bind]
  rcases a.run.run s with ⟨_ | _, s'⟩ <;> rfl

namespace Leads

variable {β γ : Type} {P : β → Prop} {Q : γ → Prop} {E : Fault → Prop} {a : Action β}

theorem pure {b : β} (h : P b) : Leads P E (pure b) :=
  ⟨fun _ => .ok h, fun _ _ hs => hs⟩

theorem throw {fault : Fault} (h : E fault) : Leads P E (throw fault) :=
  ⟨fun _ => .error h, fun _ _ hs => hs⟩

theorem bind {f : β → Action γ} (h : Leads P E a) (hf : ∀ b, P b → Leads Q E (f b)) :
    Leads Q E (a >>= f) := by
  constructor
  · intro s
    have hs := h.ensures s
    rw [run_bind]
    generalize a.run.run s = r at hs
    rcases r with ⟨fault | b, s'⟩
    · exact .error hs.fault
    · exact (hf b hs.value).ensures s'
  · intro level s hcalm
    have hs := h.ensures s
    have hcalm' := h.calm level s hcalm
    rw [run_bind]
    generalize a.run.run s = r at hs hcalm'
    rcases r with ⟨fault | b, s'⟩
    · exact hcalm'
    · exact (hf b hs.value).calm level s' hcalm'

end Leads

/-! ### Actions -/

variable {β : Type} {P : β → Prop} {E : Fault → Prop}

theorem leads_modify {f : State → State}
    (h : ∀ s, (f s).logger = s.logger ∧ (f s).stderr = s.stderr) :
    Leads (fun _ => True) E (modify f : Action Unit) := by
  refine ⟨fun _ => .ok trivial, fun level s hs => ?_⟩
  obtain ⟨hlogger, hstderr⟩ := h s
  exact ⟨hlogger.trans hs.logger, by
    obtain ⟨lines, hlines, htext⟩ := hs.stderr
    exact ⟨lines, hlines, hstderr.trans htext⟩⟩

theorem leads_say (label text : String) : Leads (fun _ => True) E (say label text) :=
  leads_modify fun _ => ⟨rfl, rfl⟩

theorem leads_log {messages : List Message} (h : ∀ m ∈ messages, Calm m.lines) :
    Leads (fun _ => True) E (log messages) := by
  refine ⟨fun _ => .ok trivial, fun level s hs => ⟨hs.logger, ?_⟩⟩
  obtain ⟨lines, hlines, htext⟩ := hs.stderr
  refine ⟨lines ++ messages.flatMap s.logger.lines, ?_, ?_⟩
  · exact List.forall_mem_append.2 ⟨hlines, Calm.of_messages h _⟩
  · rw [transcript_append, ← htext]
    rfl

theorem leads_ofExcept {x : Except Fault β} (h : Ensures P E x) :
    Leads P E (MonadExcept.ofExcept x) := by
  cases h with
  | ok h => exact .pure h
  | error h => exact .throw h

/-- An operation that is performed ends as it does by itself. -/
theorem leads_perform {operation : Outcome Float β} (h : Ensures P E operation.outcome) :
    Leads P E (perform operation) := by
  refine (leads_log fun m hm => ?_).bind fun _ _ => leads_ofExcept h
  obtain ⟨event, -, rfl⟩ := List.mem_map.1 hm
  exact calm_lines_messageOf event

theorem leads_require {x : Except Fault β} (h : Ensures P E x) : Leads P E (require x) :=
  leads_perform h

/-- A calculation that succeeds. -/
theorem leads_require_ok {x : Except Fault β} {b : β} (h : x = .ok b) :
    Leads (fun _ => True) E (require x) :=
  leads_require (h ▸ .ok trivial)

/-- A text that can be formed is written, and the rest is done. -/
theorem leads_require_say {x : Except Fault String} {text : String} (h : x = .ok text)
    (label : String) {rest : Action β} (hrest : Leads P E rest) : Leads P E (do
      say label (← require x)
      rest) :=
  (leads_require_ok h).bind fun _ _ => (leads_say _ _).bind fun _ _ => hrest

end FormulaCalculus.CommandLine
