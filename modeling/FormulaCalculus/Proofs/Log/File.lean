import FormulaCalculus.Proofs.Log.Handlers
import FormulaCalculus.Proofs.Workbook.Shared

/-!
# Log files

A log file is opened together with a logger. `log_file_kept`: it takes every message that the level
admits, whatever else runs, as long as the level does not pass from silent to not silent or back.
There the handlers are chosen anew and the file is not among them, so nothing is written any more.
-/

namespace FormulaCalculus

open Log

namespace Command

/-- The level that a command asks for. -/
def level? : Command → Option Level
  | setLogLevel level => some level
  | _ => none

/-- Whether a command makes a new logger. -/
def isConfigureLogging : Command → Bool
  | configureLogging .. => true
  | _ => false

end Command

/-! ### Levels -/

namespace Log.Logger

variable (l : Logger)

theorem level_make (level : Level) (file : Option String) : (make level file).level = level :=
  rfl

theorem level_setLevel (level : Level) : (l.setLevel level).level = level := by
  unfold setLevel
  split <;> rfl

theorem count_file_make (level : Level) (file : Option String) (path : String) :
    (make level file).handlers.count (.file path) = if file = some path then 1 else 0 := by
  cases file <;> by_cases h : level = .silent <;> simp [make, console, h, List.count_cons]

/-- A file is kept where output stays on or stays off. -/
theorem count_file_setLevel (level : Level) (path : String) :
    (l.setLevel level).handlers.count (.file path) =
      if level = .silent ↔ l.level = .silent then l.handlers.count (.file path) else 0 := by
  unfold setLevel
  by_cases h : level = .silent ↔ l.level = .silent
  · rw [if_pos (propext h.symm), if_pos h]
  · rw [if_neg fun heq => h (iff_of_eq heq.symm), if_neg h, count_file_make]
    rfl

theorem level_foldl_setLevel (levels : List Level) :
    (levels.foldl setLevel l).level = levels.getLast?.getD l.level := by
  induction levels generalizing l with
  | nil => rfl
  | cons level levels ih =>
    rw [List.foldl_cons, ih, level_setLevel, List.getLast?_cons, Option.getD_some]

theorem count_file_foldl_setLevel (levels : List Level) (path : String) :
    (levels.foldl setLevel l).handlers.count (.file path) =
      if ∀ level ∈ levels, level = .silent ↔ l.level = .silent then l.handlers.count (.file path)
      else 0 := by
  induction levels generalizing l with
  | nil => simp
  | cons level levels ih =>
    rw [List.foldl_cons, ih, level_setLevel, count_file_setLevel]
    by_cases h : level = .silent ↔ l.level = .silent
    · simp only [List.forall_mem_cons, h, true_and, if_true]
    · -- The file is lost here, and it stays so whatever levels follow.
      rw [if_neg h, ite_self, if_neg fun hall => h (hall level List.mem_cons_self)]

end Log.Logger

/-! ### Commands -/

namespace Workbook

/-- Between two configurations only levels change the logger. -/
theorem logger_runs (w : Workbook) {cs : List Command}
    (hcs : ∀ c ∈ cs, c.isConfigureLogging = false) :
    (w.runs cs).logger = (cs.filterMap Command.level?).foldl Logger.setLevel w.logger := by
  induction cs generalizing w with
  | nil => rfl
  | cons c cs ih =>
    obtain ⟨hc, hcs⟩ := List.forall_mem_cons.1 hcs
    rw [runs_cons, ih _ hcs, logger_run]
    cases c <;> first | rfl | cases hc

/-- What a message adds to a file. -/
theorem written_run_log (w : Workbook) (m : Message) (path : String) :
    (w.run (.log m)).1.written path = w.written path ++ String.join
      (List.replicate (w.logger.handlers.count (.file path))
        (String.join ((w.logger.lines m).map Line.written))) := by
  show (w.logger.handlers.foldl
    (writeLines (String.join (([m].flatMap w.logger.lines).map Line.written))) w).written path = _
  rw [written_foldl_writeLines, List.flatMap_singleton]

/-- A log file takes a message exactly if the level admits it and no level since the file was opened
switched output on or off. Whatever runs afterwards, the text stays. -/
theorem log_file_kept (w : Workbook) (level : Level) (path : String) (cs : List Command)
    (hcs : ∀ c ∈ cs, c.isConfigureLogging = false) :
    let v := (w.run (.configureLogging level (some (.ok path)))).1.runs cs
    let levels := cs.filterMap Command.level?
    v.logger.level = levels.getLast?.getD level ∧ ∀ m,
      let u := (v.run (.log m)).1
      u.written path = v.written path ++
        (if (∀ l ∈ levels, l = .silent ↔ level = .silent) ∧ v.logger.level.admits m.required then
          String.join (m.lines.map Line.written) else "") ∧
      ∀ later, ∃ text, (u.runs later).written path = u.written path ++ text := by
  intro v levels
  have hlogger : v.logger = levels.foldl Logger.setLevel (.make level (some path)) := by
    rw [logger_runs _ hcs, logger_run]
    rfl
  have hcount := Logger.count_file_foldl_setLevel (.make level (some path)) levels path
  rw [← hlogger, Logger.count_file_make, if_pos rfl, Logger.level_make] at hcount
  refine ⟨by rw [hlogger, Logger.level_foldl_setLevel, Logger.level_make], fun m => ?_⟩
  refine ⟨?_, fun later => written_runs _ later path⟩
  rw [written_run_log, hcount]
  by_cases hkept : ∀ l ∈ levels, l = .silent ↔ level = .silent
  · rw [if_pos hkept, List.replicate_one, String.join_cons, String.join_nil, String.append_empty,
      Logger.lines]
    by_cases hadmits : v.logger.level.admits m.required
    · rw [if_pos hadmits, if_pos ⟨hkept, hadmits⟩]
    · rw [if_neg hadmits, if_neg fun h => hadmits h.2]
      rfl
  · rw [if_neg hkept, if_neg fun h => hkept h.1]
    rfl

/-- A file opened by a logger for errors takes the warning that a higher level admits later. -/
theorem log_file_kept_warning :
    let cs := [Command.setLogLevel .verbose, .log (.debug "early"), .setLogLevel .moderate]
    (∀ c ∈ cs, c.isConfigureLogging = false) ∧
      let v := (({} : Workbook).run (.configureLogging .minimal (some (.ok "run.log")))).1.runs cs
      v.logger.level = .moderate ∧ v.written "run.log" = "00:00:00 - DEBUG - DEBUG: early\n" ∧
      (v.run (.log (.warning "late"))).1.written "run.log" =
        v.written "run.log" ++ "00:00:00 - WARNING - late\n" := by
  intro cs
  have hcs : ∀ c ∈ cs, c.isConfigureLogging = false := by decide
  obtain ⟨hlevel, hwritten⟩ := log_file_kept {} .minimal "run.log" cs hcs
  refine ⟨hcs, hlevel, by decide, ((hwritten (.warning "late")).1).trans ?_⟩
  rw [if_pos ⟨by decide, by rw [hlevel]; decide⟩]
  rfl

/-- A file does not outlast a while of silence, though the level admits the warning again. -/
theorem log_file_lost :
    let v := (({} : Workbook).run (.configureLogging .moderate (some (.ok "run.log")))).1.runs
      [.setLogLevel .silent, .setLogLevel .moderate]
    v.logger.level.admits (Message.warning "late").required ∧
      (v.run (.log (.warning "late"))).1.written "run.log" = "" := by
  decide

end Workbook

end FormulaCalculus
