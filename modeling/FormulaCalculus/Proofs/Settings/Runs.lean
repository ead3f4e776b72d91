import FormulaCalculus.Proofs.Settings
import FormulaCalculus.Proofs.Workbook.Shared

/-!
# Settings over whole runs

`settings_stay_valid`: whatever commands a workbook runs, valid or not, its limits and its precision
stay within their bounds, and its tolerance is from 0 on unless a change gave NaN. A change that is
refused leaves the workbook as it was.
-/

namespace FormulaCalculus

namespace Settings

variable {s σ : Settings} {g : Option Given} {fields : List (String × Given)}

/-- The limits allow something, and the precision is a number of digits. -/
structure Bounded (s : Settings) : Prop where
  depth : 1 ≤ s.maxNestingDepth.value
  passes : 1 ≤ s.maxSimplifyPasses.value
  precision : ∀ c ∈ s.numberPrecision, 0 ≤ c.value

/-- A tolerance from 0 on, or NaN that was given as such. -/
def Tolerated (g : Option Given) (t : Tolerance) : Prop :=
  t.Nonnegative ∨ ∃ x, t = .double x ∧ x.isNaN ∧ g = some (.double x)

theorem bounded_default : ({} : Settings).Bounded :=
  ⟨by decide, by decide, nofun⟩

/-! ### Fields -/

theorem le_of_count? {least : Int} {g : Given} {c : Count} (h : g.count? least = some c) :
    least ≤ c.value :=
  of_decide_eq_true (Option.filter_eq_some_iff.1 h).2

/-- A number that passes the check is tolerated: truth values and integers are never NaN. -/
theorem tolerated_of_tolerance? {v : Given} {t : Tolerance} (h : v.tolerance? = some t)
    (hnegative : t.isNegative = false) : Tolerated (some v) t := by
  rcases Tolerance.nonnegative_or_isNaN hnegative with hle | ⟨x, rfl, hnan⟩
  · exact .inl hle
  cases v with
  | double y => cases h; exact .inr ⟨x, rfl, hnan, rfl⟩
  | whole | truth | nothing | other => cases h

namespace Bounded

variable (hs : s.Bounded)
include hs

theorem updateEpsilon? (h : s.updateEpsilon? g = .ok σ) : σ.Bounded := by
  unfold Settings.updateEpsilon? at h
  repeat' split at h
  all_goals cases h <;> exact ⟨hs.depth, hs.passes, hs.precision⟩

theorem updateNestingDepth? (h : s.updateNestingDepth? g = .ok σ) : σ.Bounded := by
  unfold Settings.updateNestingDepth? at h
  split at h
  · cases h; exact hs
  split at h
  · cases h
  · next c hc => cases h; exact ⟨le_of_count? hc, hs.passes, hs.precision⟩

theorem updateSimplifyPasses? (h : s.updateSimplifyPasses? g = .ok σ) : σ.Bounded := by
  unfold Settings.updateSimplifyPasses? at h
  split at h
  · cases h; exact hs
  split at h
  · cases h
  · next c hc => cases h; exact ⟨hs.depth, le_of_count? hc, hs.precision⟩

theorem updateNumberPrecision? (h : s.updateNumberPrecision? g = .ok σ) : σ.Bounded := by
  unfold Settings.updateNumberPrecision? at h
  split at h
  · cases h; exact hs
  · cases h; exact ⟨hs.depth, hs.passes, nofun⟩
  split at h
  · cases h
  · next c hc =>
    cases h
    refine ⟨hs.depth, hs.passes, fun d hd => ?_⟩
    cases hd
    exact le_of_count? hc

theorem update? (h : s.update? fields = .ok σ) : σ.Bounded := by
  obtain ⟨s₁, s₂, s₃, hepsilon, hdepth, hpasses, hprecision⟩ := exists_of_update? h
  have h₁ := hs.updateEpsilon? hepsilon
  have h₂ := h₁.updateNestingDepth? hdepth
  have h₃ := h₂.updateSimplifyPasses? hpasses
  exact h₃.updateNumberPrecision? hprecision

end Bounded

theorem tolerated_of_update? (h : s.update? fields = .ok σ) :
    σ.tolerance = s.tolerance ∨ Tolerated (given? fields "epsilon") σ.tolerance := by
  rcases tolerance_of_update? h with hsame | ⟨v, t, hv, ht, hnegative, rfl⟩
  · exact .inl hsame
  · rw [hv]
    exact .inr (tolerated_of_tolerance? ht hnegative)

/-! ### Commands -/

/-- Within bounds, with a tolerance that is from 0 on or the NaN that one of the commands gave. -/
structure Admitted (cs : List Command) (s : Settings) : Prop where
  bounded : s.Bounded
  tolerance : s.tolerance.Nonnegative ∨ ∃ x, s.tolerance = .double x ∧ x.isNaN ∧
    ∃ fields, Command.configure fields ∈ cs ∧ given? fields "epsilon" = some (.double x)

theorem admitted_default (cs : List Command) : ({} : Settings).Admitted cs :=
  ⟨bounded_default, .inl (show Float.le 0 1e-9 by decide +kernel)⟩

theorem Admitted.settingsAfter {cs : List Command} (hs : s.Admitted cs) {c : Command}
    (hc : c ∈ cs) : (c.settingsAfter s).Admitted cs := by
  cases c with
  | configure fields =>
    rw [Command.settingsAfter]
    cases h : s.update? fields with
    | error fault => exact hs
    | ok σ =>
      refine ⟨hs.bounded.update? h, ?_⟩
      rcases tolerated_of_update? h with hsame | hle | ⟨x, hx, hnan, hgiven⟩
      · show σ.tolerance.Nonnegative ∨ ∃ x, σ.tolerance = .double x ∧ _
        rw [hsame]
        exact hs.tolerance
      · exact .inl hle
      · exact .inr ⟨x, hx, hnan, fields, hc, hgiven⟩
  | reset => exact admitted_default cs
  | _ => exact hs

end Settings

namespace Workbook

open Settings

theorem admitted_runs {w : Workbook} {cs ds : List Command} (hw : w.settings.Admitted cs)
    (hds : ∀ c ∈ ds, c ∈ cs) : (w.runs ds).settings.Admitted cs := by
  induction ds generalizing w with
  | nil => exact hw
  | cons c ds ih =>
    obtain ⟨hc, hds⟩ := List.forall_mem_cons.1 hds
    refine ih (w := (w.run c).1) ?_ hds
    rw [settings_run]
    exact hw.settingsAfter hc

/-- Over every run the settings stay within their bounds. The tolerance is from 0 on, or it is a NaN
that one of the changes gave. A refused change leaves the workbook as it was. -/
theorem settings_stay_valid (cs : List Command) :
    let w := ({} : Workbook).runs cs
    1 ≤ w.settings.maxNestingDepth.value ∧ 1 ≤ w.settings.maxSimplifyPasses.value ∧
      (∀ c ∈ w.settings.numberPrecision, 0 ≤ c.value) ∧
      (w.settings.tolerance.Nonnegative ∨ ∃ x, w.settings.tolerance = .double x ∧ x.isNaN ∧
        ∃ fields, Command.configure fields ∈ cs ∧
          given? fields "epsilon" = some (.double x)) ∧
      ∀ fields fault, (w.run (.configure fields)).2.reply = .error fault →
        (w.run (.configure fields)).1 = w := by
  intro w
  have hadmitted : w.settings.Admitted cs := admitted_runs (admitted_default cs) fun _ h => h
  obtain ⟨⟨hdepth, hpasses, hprecision⟩, htolerance⟩ := hadmitted
  refine ⟨hdepth, hpasses, hprecision, htolerance, fun fields fault h => ?_⟩
  cases hupdate : w.settings.update? fields with
  | error _ => rw [run_configure_of_error w hupdate]
  | ok settings =>
    rw [run_configure_of_ok w hupdate] at h
    cases h

/-- NaN passes as a tolerance, since it is not negative; neither is it from 0 on. -/
theorem settings_admit_nan :
    let w := ({} : Workbook).runs [.configure [("epsilon", .double (0 / 0))]]
    w.settings.epsilon.isNaN ∧ ¬Float.le 0 w.settings.epsilon := by
  decide +kernel

end Workbook

end FormulaCalculus
