import FormulaCalculus.Workbook
import Mathlib.Data.List.Induction

/-!
# Handlers follow the level

A program changes the level of its logger or makes a new one, in any order. The logger writes to
standard error unless it is silent, to one file at most, and to a null handler if there is nothing
else. So a line shows on standard error once, and only if the level admits it.

A log file that cannot be opened is the exception: the handlers are then those of the level asked
for, and the level is the one before. `handlers_follow_level`: handlers and level disagree if and
only if one of these two is silent and nothing has chosen the handlers anew since.
-/

namespace FormulaCalculus.Log

def Handler.isFile : Handler → Bool
  | file _ => true
  | _ => false

/-- The handlers are those that the level asks for. -/
structure Logger.Consistent (l : Logger) : Prop where
  console : l.handlers.count .console = if l.level = .silent then 0 else 1
  file : l.handlers.countP Handler.isFile ≤ 1
  null : l.handlers.count .null = if ∀ h ∈ l.handlers, h = .null then 1 else 0

/-- The lines of a message that handlers equal to `h` write; every line goes to every handler. -/
def Logger.delivered (l : Logger) (h : Handler) (m : Message) : List Line :=
  (l.lines m).flatMap fun line => List.replicate (l.handlers.count h) line

/-- What a program asks of the logger that all its parts share. -/
inductive Call
  | fetch
  | setLevel (level : Level)
  /-- Makes a new logger, with a log file if one is given, which is opened at once or cannot be. -/
  | configure (level : Level) (file : Option (Except Fault String))
  deriving Repr

/-- The shared logger after a call. There is none before the first call that makes one. -/
def Call.apply : Option Logger → Call → Option Logger
  | l, fetch => some (l.getD .silent)
  | none, setLevel level => some (.make level none)
  | some l, setLevel level => some (l.setLevel level)
  | none, configure _ (some (.error _)) => none
  | l, configure level file => some ((l.getD .silent).configure level file)

/-- The shared logger after some calls, if one was made. -/
def loggerAfter? (calls : List Call) : Option Logger :=
  calls.foldl Call.apply none

/-- The logger that is fetched after some calls. -/
def loggerAfter (calls : List Call) : Logger :=
  (loggerAfter? calls).getD .silent

/-- Whether a call leaves a logger its handlers, given a level it has had since they were chosen. -/
def Call.KeepsHandlers (level : Level) : Call → Prop
  | fetch => True
  | setLevel other => other = .silent ↔ level = .silent
  | configure .. => False

/-- A log file could not be opened, and nothing has chosen the handlers anew since. The new logger
was to have the level `asked`, the old one had the level `kept`. -/
def Refused (asked kept : Level) (calls : List Call) : Prop :=
  ∃ before fault after, calls = before ++ .configure asked (some (.error fault)) :: after ∧
    (∃ l ∈ loggerAfter? before, l.level = kept) ∧ ∀ c ∈ after, c.KeepsHandlers kept

/-! ### The handlers -/

namespace Logger

variable {l : Logger} {level : Level} {h : Handler} {m : Message}

theorem consistent_make (level : Level) (file : Option String) : (make level file).Consistent := by
  cases file <;> by_cases h : level = .silent <;> constructor <;>
    simp [make, console, h, Handler.isFile]

theorem Consistent.withLevel (hl : l.Consistent) (h : level = .silent ↔ l.level = .silent) :
    { l with level }.Consistent :=
  ⟨by simp only [hl.console, h], hl.file, hl.null⟩

theorem delivered_of_count_eq_zero (h0 : l.handlers.count h = 0) : l.delivered h m = [] := by
  simp [delivered, h0]

theorem delivered_of_count_eq_one (h1 : l.handlers.count h = 1) :
    l.delivered h m = l.lines m := by
  simp [delivered, h1]

/-- A line shows on standard error once, unless the level does not admit it or is silent. -/
theorem Consistent.delivered_console (hl : l.Consistent) (m : Message) : l.delivered .console m =
    if l.level ≠ .silent ∧ l.level.admits m.required then m.lines else [] := by
  by_cases h : l.level = .silent
  · rw [delivered_of_count_eq_zero (by rw [hl.console, if_pos h]), if_neg fun hn => hn.1 h]
  · rw [delivered_of_count_eq_one (by rw [hl.console, if_neg h]), lines]
    exact if_congr (and_iff_right h).symm rfl rfl

/-- Handlers for standard error alone suit a level if neither was to be silent. -/
theorem consistent_iff_of_handlers (h : l.handlers = console level) :
    l.Consistent ↔ level ≠ .silent ∧ l.level ≠ .silent := by
  constructor
  · intro hl
    have hcount := hl.console
    have hnull := hl.null
    by_cases hlevel : level = .silent
    · -- There is no handler at all, not even a null handler.
      rw [h, console, if_pos hlevel] at hnull
      simp at hnull
    · refine ⟨hlevel, fun hsilent => ?_⟩
      rw [h, console, if_neg hlevel, if_pos hsilent] at hcount
      simp at hcount
  · rintro ⟨hlevel, hl⟩
    rw [console, if_neg hlevel] at h
    constructor <;> simp [h, hl, Handler.isFile]

/-- Standard error shows the lines that the console handlers write. -/
theorem Consistent.shown_lines (hl : l.Consistent) (m : Message) :
    l.shown (l.lines m) = String.join ((l.delivered .console m).map Line.written) := by
  have hempty : l.handlers.isEmpty = false := by
    rw [List.isEmpty_eq_false_iff]
    intro hnil
    have hnull := hl.null
    rw [hnil] at hnull
    simp at hnull
  rw [shown, hempty, if_neg Bool.false_ne_true]
  have hcount := hl.console
  split at hcount
  · have hnot : l.handlers.contains .console = false := by
      simpa [List.count_eq_zero] using hcount
    rw [hnot, if_neg Bool.false_ne_true, delivered_of_count_eq_zero hcount]
    rfl
  · have hmem : l.handlers.contains .console = true := by
      simpa using List.count_pos_iff.1 (hcount ▸ Nat.zero_lt_one)
    rw [if_pos hmem, delivered_of_count_eq_one hcount]

end Logger

/-! ### Calls -/

section Calls

variable {asked kept : Level} {calls : List Call} {c : Call} {l : Logger}

theorem loggerAfter?_concat (calls : List Call) (c : Call) :
    loggerAfter? (calls ++ [c]) = c.apply (loggerAfter? calls) := by
  rw [loggerAfter?, List.foldl_append]
  rfl

theorem Call.keepsHandlers_iff (h : asked = .silent ↔ kept = .silent) :
    c.KeepsHandlers asked ↔ c.KeepsHandlers kept := by
  cases c <;> simp only [KeepsHandlers, h]

theorem Call.apply_of_keepsHandlers (hc : c.KeepsHandlers l.level) :
    ∃ level, c.apply (some l) = some { l with level } ∧
      (level = .silent ↔ l.level = .silent) := by
  cases c with
  | fetch => exact ⟨l.level, rfl, Iff.rfl⟩
  | setLevel level =>
    refine ⟨level, ?_, hc⟩
    rw [apply, Logger.setLevel, if_pos (propext hc.symm)]
  | configure level file => exact hc.elim

/-- What a call does: it makes a logger, finds none, keeps the handlers or refuses a log file. -/
theorem Call.apply_cases (s : Option Logger) (c : Call) :
    (∃ level file, c.apply s = some (.make level file)) ∨
      c.apply s = none ∨
      (∃ l ∈ s, c.KeepsHandlers l.level) ∨
      ∃ l ∈ s, ∃ level fault, c = .configure level (some (.error fault)) ∧
        c.apply s = some { l with handlers := Logger.console level } := by
  cases s with
  | none =>
    match c with
    | fetch => exact .inl ⟨.silent, none, rfl⟩
    | setLevel level | configure level none => exact .inl ⟨level, none, rfl⟩
    | configure level (some (.ok path)) => exact .inl ⟨level, some path, rfl⟩
    | configure level (some (.error fault)) => exact .inr (.inl rfl)
  | some l =>
    match c with
    | fetch => exact .inr (.inr (.inl ⟨l, rfl, trivial⟩))
    | setLevel level =>
      by_cases h : level = .silent ↔ l.level = .silent
      · exact .inr (.inr (.inl ⟨l, rfl, h⟩))
      · refine .inl ⟨level, none, ?_⟩
        rw [apply, Logger.setLevel, if_neg fun heq => h (iff_of_eq heq.symm)]
    | configure level none => exact .inl ⟨level, none, rfl⟩
    | configure level (some (.ok path)) => exact .inl ⟨level, some path, rfl⟩
    | configure level (some (.error fault)) =>
      exact .inr (.inr (.inr ⟨l, rfl, level, fault, rfl, rfl⟩))

theorem Refused.concat (h : Refused asked kept calls) (hc : c.KeepsHandlers kept) :
    Refused asked kept (calls ++ [c]) := by
  obtain ⟨before, fault, after, rfl, hbefore, hafter⟩ := h
  refine ⟨before, fault, after ++ [c], by simp, hbefore, fun d hd => ?_⟩
  rcases List.mem_append.1 hd with hd | hd
  · exact hafter d hd
  · rwa [List.mem_singleton.1 hd]

/-- After a refusal the handlers are those of the level asked for, and the level is silent if and
only if the one before was. -/
theorem Refused.exists_logger (h : Refused asked kept calls) : ∃ l, loggerAfter? calls = some l ∧
    l.handlers = Logger.console asked ∧ (l.level = .silent ↔ kept = .silent) := by
  obtain ⟨before, fault, after, rfl, ⟨l, hl, hkept⟩, hafter⟩ := h
  induction after using List.reverseRecOn with
  | nil =>
    refine ⟨l.configure asked (some (.error fault)), ?_, rfl, by rw [← hkept]; rfl⟩
    rw [loggerAfter?_concat, hl]
    rfl
  | append_singleton after c ih =>
    obtain ⟨l', hl', hhandlers, hlevel⟩ := ih fun d hd => hafter d (List.mem_append_left _ hd)
    have hc : c.KeepsHandlers l'.level := (Call.keepsHandlers_iff hlevel).2
      (hafter c (List.mem_append_right _ (List.mem_singleton_self c)))
    obtain ⟨level, happly, hsame⟩ := Call.apply_of_keepsHandlers hc
    refine ⟨{ l' with level }, ?_, hhandlers, hsame.trans hlevel⟩
    rw [← List.cons_append, ← List.append_assoc, loggerAfter?_concat, hl', happly]

/-- The handlers are those that the level asks for, unless a log file was refused. -/
theorem consistent_or_refused (calls : List Call) :
    (∀ l ∈ loggerAfter? calls, l.Consistent) ∨ ∃ asked kept, Refused asked kept calls := by
  induction calls using List.reverseRecOn with
  | nil => exact .inl nofun
  | append_singleton calls c ih =>
    rcases c.apply_cases (loggerAfter? calls) with ⟨level, file, h⟩ | h | ⟨l, hl, hkeeps⟩ |
      ⟨l, hl, level, fault, rfl, -⟩
    · left
      rw [loggerAfter?_concat, h]
      rintro l ⟨⟩
      exact Logger.consistent_make level file
    · left
      rw [loggerAfter?_concat, h]
      nofun
    · rcases ih with hconsistent | ⟨asked, kept, hrefused⟩
      · left
        obtain ⟨level, happly, hsame⟩ := Call.apply_of_keepsHandlers hkeeps
        rw [loggerAfter?_concat, hl, happly]
        rintro _ ⟨⟩
        exact (hconsistent l hl).withLevel hsame
      · right
        obtain ⟨l', hl', -, hlevel⟩ := hrefused.exists_logger
        obtain rfl : l' = l := Option.some.inj (hl'.symm.trans hl)
        exact ⟨asked, kept, hrefused.concat ((Call.keepsHandlers_iff hlevel).1 hkeeps)⟩
    · exact .inr ⟨level, l.level, calls, fault, [], rfl, ⟨l, hl, rfl⟩, nofun⟩

theorem Refused.handlers_loggerAfter (h : Refused asked kept calls) :
    (loggerAfter calls).handlers = Logger.console asked ∧
      ((loggerAfter calls).level = .silent ↔ kept = .silent) := by
  obtain ⟨l, hl, hlogger⟩ := h.exists_logger
  rwa [loggerAfter, hl]

theorem consistent_loggerAfter_iff (calls : List Call) : (loggerAfter calls).Consistent ↔
    ∀ asked kept, Refused asked kept calls → asked ≠ .silent ∧ kept ≠ .silent := by
  constructor
  · intro hl asked kept h
    obtain ⟨hhandlers, hlevel⟩ := h.handlers_loggerAfter
    have hboth := (Logger.consistent_iff_of_handlers hhandlers).1 hl
    exact ⟨hboth.1, fun hkept => hboth.2 (hlevel.2 hkept)⟩
  · intro hall
    rcases consistent_or_refused calls with hl | ⟨asked, kept, h⟩
    · rw [loggerAfter]
      cases hstate : loggerAfter? calls with
      | none => exact Logger.consistent_make .silent none
      | some l => exact hl l hstate
    · obtain ⟨hhandlers, hlevel⟩ := h.handlers_loggerAfter
      obtain ⟨hasked, hkept⟩ := hall asked kept h
      exact (Logger.consistent_iff_of_handlers hhandlers).2
        ⟨hasked, fun hsilent => hkept (hlevel.1 hsilent)⟩

end Calls

/-! ### Workbooks -/

/-- The command of a workbook that makes the call. -/
def Call.command : Call → Command
  | fetch => .enabled
  | setLevel level => .setLogLevel level
  | configure level file => .configureLogging level file

/-- The workbook that some calls leave. Its logger is there from the start. -/
def workbookAfter (calls : List Call) : Workbook :=
  calls.foldl (fun w c => (w.run c.command).1) {}

theorem logger_foldl_writeLines (text : String) (hs : List Handler) (w : Workbook) :
    (hs.foldl (Workbook.writeLines text) w).logger = w.logger := by
  induction hs generalizing w with
  | nil => rfl
  | cons h hs ih =>
    rw [List.foldl_cons, ih]
    cases h <;> rfl

theorem logger_run_command (w : Workbook) (c : Call) :
    some (w.run c.command).1.logger = c.apply (some w.logger) := by
  match c with
  | .fetch => rfl
  | .setLevel level => exact congrArg some (logger_foldl_writeLines "" _ _)
  | .configure level none | .configure level (some (.ok path))
  | .configure level (some (.error fault)) => exact congrArg some (logger_foldl_writeLines "" _ _)

theorem logger_workbookAfter (calls : List Call) :
    (workbookAfter calls).logger = loggerAfter (.fetch :: calls) := by
  have hrun (w : Workbook) : some (calls.foldl (fun w c => (w.run c.command).1) w).logger =
      calls.foldl Call.apply (some w.logger) := by
    induction calls generalizing w with
    | nil => rfl
    | cons c calls ih => rw [List.foldl_cons, List.foldl_cons, ih, logger_run_command]
  rw [loggerAfter, loggerAfter?, List.foldl_cons]
  show _ = (calls.foldl Call.apply (some ({} : Workbook).logger)).getD _
  rw [← hrun, Option.getD_some]
  rfl

theorem log_run_log (w : Workbook) (m : Message) :
    (w.run (.log m)).2.log = w.logger.shown (w.logger.lines m) := by
  show w.logger.shown ([m].flatMap w.logger.lines) = _
  rw [List.flatMap_singleton]

/-- Whatever was called, the handlers are those that the level asks for, unless the last call that
chose them could not open its log file and one of its level and the level before is silent. Where
they are, a message shows each of its lines once if the level is not silent and admits it, and none
otherwise. After a refused file there are the handlers of the level asked for, whatever the level.
A workbook has the logger that its calls make of a silent one. -/
theorem handlers_follow_level (calls : List Call) :
    let l := loggerAfter calls
    let w := workbookAfter calls
    (l.Consistent ↔
      ∀ asked kept, Refused asked kept calls → asked ≠ .silent ∧ kept ≠ .silent) ∧
    (∀ asked kept, Refused asked kept calls →
      l.handlers = Logger.console asked ∧ (l.level = .silent ↔ kept = .silent)) ∧
    (l.Consistent → ∀ m,
      (l.delivered .console m =
        if l.level ≠ .silent ∧ l.level.admits m.required then m.lines else []) ∧
      l.shown (l.lines m) = String.join ((l.delivered .console m).map Line.written)) ∧
    w.logger = loggerAfter (.fetch :: calls) ∧
    ∀ m, (w.run (.log m)).2.log = w.logger.shown (w.logger.lines m) := by
  intro l w
  refine ⟨consistent_loggerAfter_iff calls, fun asked kept h => h.handlers_loggerAfter,
    fun hl m => ⟨hl.delivered_console m, hl.shown_lines m⟩, logger_workbookAfter calls, ?_⟩
  exact log_run_log w

/-- A silent logger whose log file cannot be opened writes to standard error from then on. -/
theorem refused_file_breaks_silence :
    let refused := .configure .moderate (some (.error (.noSuchFile "/no/such/dir/x.log")))
    let l := loggerAfter [.fetch, refused]
    l.level = .silent ∧ l.handlers.count .console = 1 ∧ ¬l.Consistent ∧
      ((workbookAfter [refused]).run (.log (.info "late" .silent))).2.log =
        "00:00:00 - INFO - late\n" := by
  refine ⟨rfl, rfl, fun h => ?_, by decide⟩
  have := h.console
  revert this
  decide

/-- Where output is switched off and on again, the console comes back and the file does not. -/
example : loggerAfter [.configure .verbose (some (.ok "a.log")), .setLevel .silent,
    .setLevel .minimal] = ⟨.minimal, [.console]⟩ := rfl

end FormulaCalculus.Log
