import FormulaCalculus.Workbook

/-!
# What commands share

The settings, the logger and the files of a workbook. `run_extends`: a command changes the settings
and the logger as `Command.settingsAfter` and `Command.loggerAfter` say, which few commands do, and
a file only grows.
-/

namespace FormulaCalculus

open Log

namespace Command

/-- The settings after a command. A change that is refused is none. -/
def settingsAfter : Command → Settings → Settings
  | configure fields, s =>
    match s.update? fields with
    | .ok changed => changed
    | .error _ => s
  | reset, _ => {}
  | _, s => s

/-- The logger after a command. -/
def loggerAfter : Command → Logger → Logger
  | setLogLevel level, l => l.setLevel level
  | configureLogging level file, l => l.configure level file
  | _, l => l

end Command

namespace Workbook

/-- The workbook that commands leave one after another. -/
def runs (w : Workbook) (cs : List Command) : Workbook :=
  cs.foldl (fun w c => (w.run c).1) w

theorem runs_cons (w : Workbook) (c : Command) (cs : List Command) :
    w.runs (c :: cs) = (w.run c).1.runs cs :=
  rfl

/-! ### Files -/

/-- The text of the file at a path, empty where there is none. -/
def written (w : Workbook) (path : String) : String :=
  (lookup? w.files path).getD ""

section Entries

variable {β : Type} (entries : List (String × β)) {name other : String} (x : β)

theorem lookup?_cons (e : String × β) (name : String) :
    lookup? (e :: entries) name = if e.1 = name then some e.2 else lookup? entries name := by
  by_cases he : e.1 = name <;> simp [lookup?, he]

theorem lookup?_map_of_ne (hne : name ≠ other) :
    lookup? (entries.map fun e => if e.1 = name then (name, x) else e) other =
      lookup? entries other := by
  induction entries with
  | nil => rfl
  | cons e entries ih =>
    rw [List.map_cons, lookup?_cons, lookup?_cons, ih]
    by_cases he : e.1 = name
    · rw [if_pos he, if_neg hne, if_neg (he ▸ hne)]
    · rw [if_neg he]

theorem store_cons (e : String × β) : store (e :: entries) name x =
    if e.1 = name then (name, x) :: entries.map fun e => if e.1 = name then (name, x) else e
    else e :: store entries name x := by
  by_cases he : e.1 = name
  · simp [store, he]
  · by_cases hany : entries.any (·.1 = name) = true <;> simp [store, he, hany]

theorem lookup?_store (name other : String) : lookup? (store entries name x) other =
    if name = other then some x else lookup? entries other := by
  induction entries with
  | nil => exact lookup?_cons [] (name, x) other
  | cons e entries ih =>
    rw [store_cons]
    by_cases he : e.1 = name
    · rw [if_pos he, lookup?_cons, lookup?_cons]
      by_cases ho : name = other
      · rw [if_pos ho, if_pos ho]
      · rw [if_neg ho, if_neg ho, if_neg (he ▸ ho), lookup?_map_of_ne entries x ho]
    · rw [if_neg he, lookup?_cons, lookup?_cons, ih]
      by_cases ho : e.1 = other
      · rw [if_pos ho, if_pos ho, if_neg (ho ▸ Ne.symm he)]
      · rw [if_neg ho, if_neg ho]

end Entries

theorem written_writeLines (text : String) (w : Workbook) (h : Handler) (path : String) :
    (writeLines text w h).written path =
      if h = .file path then w.written path ++ text else w.written path := by
  cases h with
  | console | null => rfl
  | file other =>
    simp only [writeLines, written, lookup?_store, Handler.file.injEq]
    split
    · next h => rw [h, Option.getD_some]
    · rfl

/-- Text goes to every handler. -/
theorem written_foldl_writeLines (text : String) (hs : List Handler) (w : Workbook)
    (path : String) : (hs.foldl (writeLines text) w).written path =
      w.written path ++ String.join (List.replicate (hs.count (.file path)) text) := by
  induction hs generalizing w with
  | nil => simp
  | cons h hs ih =>
    rw [List.foldl_cons, ih, written_writeLines]
    by_cases heq : h = .file path
    · rw [if_pos heq, heq, List.count_cons_self, List.replicate_succ, String.join_cons,
        String.append_assoc]
    · rw [if_neg heq, List.count_cons_of_ne heq]

/-! ### Commands -/

/-- The settings and the logger are the same, and no text is lost. -/
structure Extends (v w : Workbook) : Prop where
  settings : v.settings = w.settings
  logger : v.logger = w.logger
  written : ∀ path, ∃ text, v.written path = w.written path ++ text

namespace Extends

variable {u v w : Workbook}

theorem of_files (hs : v.settings = w.settings) (hl : v.logger = w.logger)
    (hf : v.files = w.files) : v.Extends w :=
  ⟨hs, hl, fun path => ⟨"", by rw [Workbook.written, hf, String.append_empty]; rfl⟩⟩

theorem refl (w : Workbook) : w.Extends w :=
  of_files rfl rfl rfl

theorem trans (huv : u.Extends v) (hvw : v.Extends w) : u.Extends w := by
  refine ⟨huv.settings.trans hvw.settings, huv.logger.trans hvw.logger, fun path => ?_⟩
  obtain ⟨text, htext⟩ := hvw.written path
  obtain ⟨text', htext'⟩ := huv.written path
  exact ⟨text ++ text', by rw [htext', htext, String.append_assoc]⟩

end Extends

variable (w : Workbook)

theorem extends_writeLines (text : String) (h : Handler) : (writeLines text w h).Extends w := by
  refine ⟨?_, ?_, fun path => ?_⟩
  · cases h <;> rfl
  · cases h <;> rfl
  · rw [written_writeLines]
    split
    · exact ⟨text, rfl⟩
    · exact ⟨"", String.append_empty.symm⟩

theorem extends_foldl_writeLines (text : String) (hs : List Handler) :
    (hs.foldl (writeLines text) w).Extends w := by
  induction hs generalizing w with
  | nil => exact .refl w
  | cons h hs ih => exact (ih _).trans (extends_writeLines w text h)

theorem extends_logMessages (messages : List Message) : (w.logMessages messages).1.Extends w :=
  extends_foldl_writeLines w _ _

theorem extends_put (name : String) (e : Equation Float) : (w.put name e).Extends w :=
  .of_files rfl rfl rfl

theorem extends_install (l : Logger) : (w.install l).Extends { w with logger := l } :=
  extends_foldl_writeLines _ "" _

theorem extends_keep (name : String) (result : Outcome Float (Equation Float)) :
    (w.keep name result).1.Extends w := by
  have hlog := extends_logMessages w (result.events.map messageOf)
  unfold keep
  cases result.outcome with
  | error fault => exact hlog
  | ok e => exact (extends_put _ name e).trans hlog

theorem extends_rework {β : Type} (name : String)
    (operation : Equation Float → Except Fault (Rework Float β))
    (reply : Workbook → β → Except Fault Reply) :
    (w.rework name operation reply).1.Extends w := by
  unfold rework
  cases w.slot? name with
  | error fault => exact .refl w
  | ok e =>
    dsimp only
    cases operation e with
    | error fault => exact .refl w
    | ok r =>
      have hput := (extends_put _ name r.equation).trans
        (extends_logMessages w (r.result.events.map messageOf))
      dsimp only
      cases r.result.outcome with
      | error fault => exact hput
      | ok x => exact hput

theorem run_configure_of_error {fields : Fields} {fault : Fault}
    (h : w.settings.update? fields = .error fault) :
    w.run (.configure fields) = (w, { reply := .error fault }) := by
  simp only [run, h, answer]

theorem run_configure_of_ok {fields : Fields} {settings : Settings}
    (h : w.settings.update? fields = .ok settings) :
    w.run (.configure fields) = ({ w with settings }, { reply := .ok (.settings settings) }) := by
  simp only [run, h, answer]

/-- What a command does to the settings, the logger and the files. -/
theorem run_extends (c : Command) : (w.run c).1.Extends
    { w with settings := c.settingsAfter w.settings, logger := c.loggerAfter w.logger } := by
  cases c with
  | parse | build | copy | differentiate | taylor => exact extends_keep w _ _
  | simplify | simplifyFully => exact extends_rework w _ _ _
  | display | minimal | latex | evaluate | equal | enabled | fileText | reset => exact .refl _
  | configure fields =>
    rw [Command.settingsAfter]
    cases h : w.settings.update? fields with
    | error fault => rw [run_configure_of_error w h]; exact .refl w
    | ok settings => rw [run_configure_of_ok w h]; exact .refl _
  | logTree slot title =>
    unfold run
    dsimp only
    split
    · exact .refl w
    · exact extends_logMessages w _
  | setLogLevel level => exact extends_install w _
  | configureLogging level file => exact extends_install w _
  | log message => exact extends_logMessages w _

theorem settings_run (c : Command) : (w.run c).1.settings = c.settingsAfter w.settings :=
  (run_extends w c).settings

theorem logger_run (c : Command) : (w.run c).1.logger = c.loggerAfter w.logger :=
  (run_extends w c).logger

/-- What was written stays. -/
theorem written_runs (cs : List Command) (path : String) :
    ∃ text, (w.runs cs).written path = w.written path ++ text := by
  induction cs generalizing w with
  | nil => exact ⟨"", String.append_empty.symm⟩
  | cons c cs ih =>
    obtain ⟨text, htext⟩ := (run_extends w c).written path
    obtain ⟨text', htext'⟩ := ih (w.run c).1
    exact ⟨text ++ text', by rw [runs_cons, htext', htext, String.append_assoc]; rfl⟩

end Workbook

end FormulaCalculus
