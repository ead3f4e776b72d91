import FormulaCalculus.Disk.Folder
import FormulaCalculus.Proofs.CommandLine.Steps
import FormulaCalculus.Proofs.Formula.Faults
import FormulaCalculus.Proofs.Print.Total
import FormulaCalculus.Proofs.Taylor.Faults

/-!
# How runs end

A run that was asked for in proper words ends with the status 0, or logs one error and ends with the
status 1, except for four kinds of faults that it lets through: an empty name of an input file, an
expansion without a point, the factorials above that of 170, and trees too deep to be walked.
-/

namespace FormulaCalculus.CommandLine

open Log FormulaCalculus.Tree

/-! ### Disks -/

/-- There is a failure of files, or a path that no file can have. -/
def IsFileFault (fault : Fault) : Prop :=
  fault.family = .file ∨ fault = .nullInPath

/-- A disk fails as files do. -/
structure Fails (disk : Disk) : Prop where
  read : ∀ path fault, disk.read path = .error fault → IsFileFault fault
  writable : ∀ path fault, disk.writable path = .error fault → IsFileFault fault

section Folder

variable (f : Folder) (path : String)

theorem ensures_walk (place : Folder.Place) (names : List String) :
    Ensures (fun _ => True) IsFileFault (f.walk path place names) := by
  induction names generalizing place with
  | nil => exact .ok trivial
  | cons name rest ih =>
    cases place with
    | directory here => exact ih _
    | file | vacant => exact .error (.inl rfl)

theorem ensures_locate : Ensures (fun _ => True) IsFileFault (f.locate path) := by
  unfold Folder.locate
  split
  · exact .error (.inr rfl)
  · exact ensures_walk f path _ _

theorem ensures_read? : Ensures (fun _ => True) IsFileFault (f.read? path) := by
  refine (ensures_locate f path).bind fun place _ => ?_
  cases place with
  | directory | vacant => exact .error (.inl rfl)
  | file names bytes =>
    dsimp only
    split
    · exact .error (.inl rfl)
    · exact .ok trivial

theorem ensures_target? : Ensures (fun _ => True) IsFileFault (f.target? path) := by
  refine (ensures_locate f path).bind fun place _ => ?_
  cases place with
  | directory => exact .error (.inl rfl)
  | vacant names | file names bytes =>
    dsimp only
    split
    · exact .error (.inl rfl)
    · exact .ok trivial

theorem fails_disk : Fails f.disk := by
  constructor
  · intro path fault h
    have hread := ensures_read? f path
    rw [show f.read? path = .error fault from h] at hread
    exact hread.fault
  · intro path fault h
    have htarget := ensures_target? f path
    have h : (f.target? path).map (fun _ => ()) = .error fault := h
    cases ht : f.target? path with
    | error g =>
      rw [ht] at h htarget
      cases h
      exact htarget.fault
    | ok key => rw [ht] at h; cases h

end Folder

/-! ### What a run reads -/

/-- The text that a run reads, if there is one. -/
inductive Source (o : Options) (disk : Disk) : Option String → Prop
  | given (h : o.input.filter (· ≠ "") = none) : Source o disk o.formula
  | file {path : String} {bytes : List UInt8} {cs : List Char}
    (h : o.input.filter (· ≠ "") = some path) (hread : disk.read path = .ok bytes)
    (hdecode : Text.Utf8.decode bytes = .ok cs) :
    Source o disk (some (String.ofList (Text.unifyLineEnds cs)))

/-- There is no text if the name of the input file is empty. -/
theorem Source.eq_empty {o : Options} {disk : Disk} {text : Option String} (h : Source o disk text)
    (hnone : text = none) (hgiven : o.formula.isSome ∨ o.input.isSome) : o.input = some "" := by
  cases h with
  | given h =>
    obtain ⟨path, hpath⟩ : ∃ path, o.input = some path := by
      rcases hgiven with hgiven | hgiven
      · rw [hnone] at hgiven
        cases hgiven
      · exact Option.isSome_iff_exists.1 hgiven
    rw [hpath, Option.filter_eq_none_iff] at h
    have hempty := h path rfl
    rw [decide_eq_true_eq, not_not] at hempty
    rw [hpath, hempty]
  | file => cases hnone

/-- A tree that a run walks is too deep: that of the formula, its derivative, or one of those that
are formed for an expansion. -/
inductive Exhausts (o : Options) (e : Equation Float) : Prop
  | formula (h : e.root.isTooDeep)
  | derivative {i : Int} {d : Tree Float} (hd : e.root.differentiate? i = .ok d) (h : d.isTooDeep)
  | expansion {n : ℕ} (hn : o.taylor = some (some (n : Int)))
    (h : (e.root.formedDerivatives ({} : Settings).epsilon (max n 1)).any isTooDeep)

/-- The equation is what the text of the run is read as. -/
def Reads (o : Options) (disk : Disk) (e : Equation Float) : Prop :=
  ∃ text, Source o disk (some text) ∧
    Formula.read? ({} : Settings).maxNestingDepth text = .ok e

/-- The faults that a run lets through. -/
inductive Escapes (o : Options) (disk : Disk) : Fault → Prop
  | formulaNotText (h : o.input = some "") : Escapes o disk .formulaNotText
  | noPoint (h : o.point = none) (htaylor : o.taylor.isSome) : Escapes o disk .noPoint
  | factorialOverflow {n : ℕ} (hn : o.taylor = some (some (n : Int))) (h : 170 < n) :
    Escapes o disk .factorialOverflow
  | recursion {e : Equation Float} (hread : Reads o disk e) (h : Exhausts o e) :
    Escapes o disk .recursion

/-- What may end a run early. -/
def Stops (o : Options) (disk : Disk) (fault : Fault) : Prop :=
  isReported fault ∨ Escapes o disk fault

variable {o : Options} {disk : Disk} {fault : Fault} {e d : Equation Float}

/-! ### Faults that are reported -/

theorem Stops.of_isDomain (h : fault.IsDomain) : Stops o disk fault := by
  obtain ⟨f, rfl⟩ := h
  exact .inl rfl

theorem Stops.of_isFormula (h : fault.IsFormula) : Stops o disk fault := by
  obtain ⟨f, position, rfl⟩ := h
  exact .inl rfl

theorem Stops.of_file (h : IsFileFault fault) : Stops o disk fault := by
  rcases h with h | rfl
  · exact .inl (by rw [isReported, h])
  · exact .inl rfl

/-! ### The steps -/

theorem leads_source (hdisk : Fails disk) :
    Leads (Source o disk) (Stops o disk) (source o disk) := by
  unfold source
  split
  · rename_i h
    exact .pure (.given h)
  · rename_i path h
    have hread :
        Ensures (fun bytes => disk.read path = .ok bytes) (Stops o disk) (disk.read path) :=
      .of_forall (fun _ => id) fun fault hf => .of_file (hdisk.read path fault hf)
    refine (leads_require hread).bind fun bytes hbytes => ?_
    split
    · rename_i cs hdecode
      exact .pure (.file h hbytes hdecode)
    · exact .throw (.inl rfl)

theorem leads_logTree (h : e.Walkable) (name : String) :
    Leads (fun _ => True) (Stops o disk) (logTree e name) := by
  refine (leads_require_ok (h.wellFormed.outline? h.shallow _)).bind fun dump _ =>
    leads_log fun m hm => ?_
  obtain rfl := List.mem_singleton.1 hm
  exact calm_lines_tree _ _

theorem leads_simplified (h : e.Walkable) :
    Leads e.Follows (Stops o disk) (simplified o e) := by
  let s : Settings := {}
  unfold simplified
  dsimp only
  split
  · have hpasses := h.ensures_simplifyFully s.epsilon s.maxSimplifyPasses (by decide)
    exact (leads_perform (hpasses.imp_fault fun _ => .of_isDomain)).bind fun _ h => .pure h
  · have hpass := h.ensures_simplify s.epsilon
    exact (leads_perform (hpass.imp_fault fun _ => .of_isDomain)).bind fun _ h => .pure h.2

theorem ensures_assignment? (item : String) :
    Ensures (fun _ => True) (Stops o disk) (assignment? item) := by
  unfold assignment?
  split
  · exact .error (.inl rfl)
  · split
    · exact .ok trivial
    · exact .error (.inl rfl)

theorem leads_sayValue (h : e.Walkable) (label : String) {point : List Float}
    (hpoint : e.names.length ≤ point.length) :
    Leads (fun _ => True) (Stops o disk) (sayValue label e point) := by
  have hvalue := h.ensures_evaluate point hpoint
  exact (leads_require (hvalue.imp_fault fun _ => .of_isDomain)).bind fun v _ => leads_say _ _

theorem leads_evaluate (he : e.Walkable) (hd : e.Follows d) (items : List String) :
    Leads (fun _ => True) (Stops o disk) (evaluate e d items) := by
  refine (leads_require (Ensures.mapM fun item _ => ensures_assignment? item)).bind
    fun assignments _ => ?_
  have hlength : (values e.names assignments).length = e.names.length := List.length_map _
  refine (leads_sayValue he _ hlength.ge).bind fun _ _ => leads_sayValue hd.walkable _ ?_
  rw [hd.names_eq, hlength]

/-- What stops an expansion in a run. -/
theorem Stops.of_expansionFault (hread : Reads o disk e) {order : Option Int}
    (horder : o.taylor = some order) (h : ExpansionFault ({} : Settings).epsilon e order fault) :
    Stops o disk fault := by
  cases h with
  | severalVariables | badOrder | domain => exact .inl rfl
  | @term _ n hn _ h =>
    obtain rfl : order = some (n : Int) := hn
    cases h with
    | domain => exact .inl rfl
    | @factorialOverflow k hk hfits =>
      have hlarge : 170 < k := Nat.lt_of_not_le fun hle => hfits (factorialFits_of_le hle)
      exact .inr (.factorialOverflow horder (hlarge.trans_le hk))
    | recursion h => exact .inr (.recursion hread (.expansion horder h))

theorem leads_expand (he : e.Walkable) (hread : Reads o disk e) {order : Option Int}
    (horder : o.taylor = some order) :
    Leads (fun _ => True) (Stops o disk) (expand o e order) := by
  unfold expand
  dsimp only
  split
  · rename_i point hpoint
    have htaylor := he.ensures_taylor ({} : Settings).epsilon point order
    refine (leads_perform (htaylor.imp_fault fun _ =>
      .of_expansionFault hread horder)).bind fun p hp => ?_
    obtain ⟨n, -, hp⟩ := hp
    refine (leads_simplified hp.walkable).bind fun q hq => ?_
    have hq := hq.walkable
    exact (leads_require_ok (hq.wellFormed.minimal? hq.shallow _)).bind fun _ _ => leads_say _ _
  · rename_i hpoint
    have hnone : o.point = none := Option.eq_none_iff_forall_ne_some.2 fun x h => hpoint x h
    have hresult := ensures_expansionOrder? e order ({} : Settings).epsilon
    refine (leads_require (hresult.imp_fault fun _ =>
      .of_expansionFault hread horder)).bind fun _ _ => ?_
    exact .throw (.inr (.noPoint hnone (by rw [horder]; rfl)))

theorem leads_draw (hdisk : Fails disk) (he : e.Walkable) (path : String) :
    Leads (fun _ => True) (Stops o disk) (draw e path disk) := by
  have hwritable : Ensures (fun _ => True) (Stops o disk) (disk.writable path) :=
    .of_forall (fun _ _ => trivial) fun fault hf => .of_file (hdisk.writable path fault hf)
  refine (leads_require hwritable).bind fun _ _ => ?_
  refine (leads_require_ok (he.wellFormed.vertices? he.shallow _)).bind fun _ _ => ?_
  exact leads_modify fun _ => ⟨rfl, rfl⟩

/-! ### The run -/

section Rest

/-! What is left of a run from each of its optional steps on. -/

variable (o : Options) (disk : Disk) (e derivative : Equation Float)

def fromDrawing : Action Unit := do
  if let some path := o.dot.filter (· ≠ "") then draw e path disk

def fromLatex : Action Unit := do
  if o.latex then
    say "latex " (← require (e.root.latex? (style e)))
    say "latex'" (← require (derivative.root.latex? (style derivative)))
  fromDrawing o disk e

def fromExpansion : Action Unit := do
  if let some order := o.taylor then expand o e order
  fromLatex o disk e derivative

def fromValues : Action Unit := do
  if let some items := o.assignments then evaluate e derivative items
  fromExpansion o disk e derivative

def fromDerivative (index : Nat) : Action Unit := do
  let derivative ← simplified o (← perform (e.differentiate index))
  logTree derivative "derivative"
  say "f     " (← require (e.root.minimal? (style e)))
  say "f'    " (← require (derivative.root.minimal? (style derivative)))
  say "tree  " (← require (e.root.full? (style e)))
  fromValues o disk e derivative

theorem calculate_eq : calculate o disk = (do
    let e ← perform (Formula.parse ({} : Settings).maxNestingDepth (← source o disk))
    logTree e "input"
    match o.target.filter (· ≠ "") with
    | some name => fromDerivative o disk e (← require (e.indexOf? name))
    | none => fromDerivative o disk e 0) :=
  rfl

end Rest

theorem leads_fromDrawing (hdisk : Fails disk) (he : e.Walkable) :
    Leads (fun _ => True) (Stops o disk) (fromDrawing o disk e) := by
  unfold fromDrawing
  split
  · exact leads_draw hdisk he _
  · exact .pure trivial

theorem leads_fromLatex (hdisk : Fails disk) (he : e.Walkable) (hd : d.Walkable) :
    Leads (fun _ => True) (Stops o disk) (fromLatex o disk e d) := by
  have hrest := leads_fromDrawing (o := o) hdisk he
  unfold fromLatex
  dsimp only
  split
  · refine leads_require_say (he.wellFormed.latex? he.shallow _) _ ?_
    exact leads_require_say (hd.wellFormed.latex? hd.shallow _) _ hrest
  · exact hrest

theorem leads_fromExpansion (hdisk : Fails disk) (he : e.Walkable) (hread : Reads o disk e)
    (hd : d.Walkable) : Leads (fun _ => True) (Stops o disk) (fromExpansion o disk e d) := by
  have hrest := leads_fromLatex (o := o) hdisk he hd
  unfold fromExpansion
  dsimp only
  split
  · rename_i order horder
    exact (leads_expand he hread horder).bind fun _ _ => hrest
  · exact hrest

theorem leads_fromValues (hdisk : Fails disk) (he : e.Walkable) (hread : Reads o disk e)
    (hd : e.Follows d) : Leads (fun _ => True) (Stops o disk) (fromValues o disk e d) := by
  have hrest := leads_fromExpansion hdisk he hread hd.walkable
  unfold fromValues
  dsimp only
  split
  · exact (leads_evaluate he hd _).bind fun _ _ => hrest
  · exact hrest

theorem leads_fromDerivative (hdisk : Fails disk) (he : e.Walkable) (hread : Reads o disk e)
    {index : Nat} (hindex : (index : Int) < max e.names.length 1) :
    Leads (fun _ => True) (Stops o disk) (fromDerivative o disk e index) := by
  unfold fromDerivative
  obtain ⟨t, ht, hderivative⟩ := he.exists_ensures_differentiate (Int.natCast_nonneg index) hindex
  have hperform : Ensures e.Follows (Stops o disk) (e.differentiate index).outcome := by
    refine hderivative.imp (fun _ h => h.2) ?_
    rintro _ ⟨rfl, hdeep⟩
    exact .inr (.recursion hread (.derivative ht hdeep))
  refine (leads_perform hperform).bind fun d₀ hd₀ => ?_
  refine (leads_simplified hd₀.walkable).bind fun d hd => ?_
  have hfollows := hd₀.trans hd
  have hd := hd.walkable
  refine (leads_logTree hd _).bind fun _ _ => ?_
  refine leads_require_say (he.wellFormed.minimal? he.shallow _) _ ?_
  refine leads_require_say (hd.wellFormed.minimal? hd.shallow _) _ ?_
  refine leads_require_say (he.wellFormed.full? he.shallow _) _ ?_
  exact leads_fromValues hdisk he hread hfollows

/-- A name that has a place in the table, or else a fault that is reported. -/
theorem ensures_indexOf? (e : Equation Float) (name : String) :
    Ensures (fun i : Nat => (i : Int) < max e.names.length 1) (Stops o disk) (e.indexOf? name) := by
  unfold Equation.indexOf?
  split
  · rename_i i hi
    obtain ⟨hlt, -⟩ := List.idxOf?_eq_some_iff.1 hi
    exact .ok (Int.ofNat_lt.2 (lt_max_of_lt_left hlt))
  · exact .error (.inl rfl)

theorem ensures_parse_source (hgiven : o.formula.isSome ∨ o.input.isSome) {text : Option String}
    (hsource : Source o disk text) :
    Ensures (fun e => e.Walkable ∧ Reads o disk e) (Stops o disk)
      (Formula.parse ({} : Settings).maxNestingDepth text).outcome := by
  cases text with
  | none => exact .error (.inr (.formulaNotText (hsource.eq_empty rfl hgiven)))
  | some text =>
    refine (Formula.ensures_parse (by decide) text).imp (fun e he => ⟨he.1, text, hsource, he.2⟩) ?_
    rintro fault (hf | ⟨rfl, e, hread, hdeep⟩)
    · exact .of_isFormula hf
    · exact .inr (.recursion ⟨text, hsource, hread⟩ (.formula hdeep))

theorem leads_calculate (hdisk : Fails disk) (hgiven : o.formula.isSome ∨ o.input.isSome) :
    Leads (fun _ => True) (Stops o disk) (calculate o disk) := by
  rw [calculate_eq]
  refine (leads_source hdisk).bind fun text hsource => ?_
  refine (leads_perform (ensures_parse_source hgiven hsource)).bind fun e he => ?_
  obtain ⟨he, hread⟩ := he
  refine (leads_logTree he _).bind fun _ _ => ?_
  split
  · exact (leads_require (ensures_indexOf? e _)).bind fun index hindex =>
      leads_fromDerivative hdisk he hread hindex
  · exact leads_fromDerivative hdisk he hread (by omega)

/-! ### Exits -/

/-- Words that are accepted give a formula or name an input file. -/
theorem isSome_of_parse {words : List String} (h : Options.parse words = .ok o) :
    o.formula.isSome ∨ o.input.isSome := by
  unfold Options.parse at h
  cases hwords : (Word.classifyAll words).mapError Stop.usage with
  | error stop => rw [hwords] at h; cases h
  | ok classes =>
    cases hrun : ({} : Progress).run classes with
    | error stop => simp only [hwords, hrun, bind, Except.bind] at h; cases h
    | ok p =>
      simp only [hwords, hrun, bind, Except.bind] at h
      split at h
      · cases h
      rename_i hsource
      split at h
      · cases h
      obtain rfl := Except.ok.inj h
      rw [Bool.and_eq_true, not_and_or] at hsource
      simpa only [Option.isNone_iff_eq_none, ← ne_eq, Option.ne_none_iff_isSome] using hsource

theorem calm_start (o : Options) :
    State.Calm (levelOf o.verbosity) { logger := .make (levelOf o.verbosity) none } :=
  ⟨rfl, [], nofun, rfl⟩

/-- Every level of a run admits a fault that stops an operation. -/
theorem lines_critical (o : Options) (message : String) :
    (Logger.make (levelOf o.verbosity) none).lines (.critical message) =
      [⟨.error, "CRITICAL: " ++ message⟩] := by
  unfold levelOf
  split <;> rfl

/-- A run for words that are accepted ends with the status 0; or it logs one error, as its last
line, and ends with the status 1; or a fault escapes that is one of `Escapes`. -/
theorem run_exits {words : List String} (h : Options.parse words = .ok o) (hdisk : Fails disk) :
    ∃ lines, Calm lines ∧
      ((run words disk).exit = .ok 0 ∧ (run words disk).stderr = transcript lines ∨
        (∃ fault, isReported fault ∧ (run words disk).exit = .ok 1 ∧ (run words disk).stderr =
          transcript (lines ++ [⟨.error, "CRITICAL: " ++ fault.message⟩])) ∨
        ∃ fault, Escapes o disk fault ∧ (run words disk).exit = .error fault ∧
          (run words disk).stderr = transcript lines) := by
  have hleads := leads_calculate hdisk (isSome_of_parse h)
  have hensures := hleads.ensures { logger := .make (levelOf o.verbosity) none }
  have hcalm := hleads.calm _ _ (calm_start o)
  have hrun : run words disk = execute o disk := by rw [run, h]
  rw [hrun, execute]
  generalize (calculate o disk).run.run { logger := .make (levelOf o.verbosity) none } = r
    at hensures hcalm
  obtain ⟨hlogger, lines, hlines, hstderr⟩ := hcalm
  refine ⟨lines, hlines, ?_⟩
  rcases r with ⟨fault | _, s⟩
  · dsimp only
    split
    · rename_i hreported
      refine .inr (.inl ⟨fault, hreported, rfl, ?_⟩)
      have hlogger : s.logger = .make (levelOf o.verbosity) none := hlogger
      show s.stderr ++ String.join (([.critical fault.message].flatMap s.logger.lines).map
        Line.written) = _
      rw [List.flatMap_singleton, hlogger, lines_critical, transcript_append, ← hstderr]
      rfl
    · rename_i hreported
      exact .inr (.inr ⟨fault, hensures.fault.resolve_left hreported, rfl, hstderr⟩)
  · exact .inl ⟨rfl, hstderr⟩

/-- The formula `1/0`: the derivative is formed, and its simplification fails. -/
theorem run_exits_quotient :
    let o : Options := { formula := some "1/0" }
    let disk := ({} : Folder).disk
    Options.parse ["1/0"] = .ok o ∧ Fails disk ∧
      ∃ lines fault, Calm lines ∧ isReported fault ∧ (run ["1/0"] disk).exit = .ok 1 ∧
        (run ["1/0"] disk).stderr =
          transcript (lines ++ [⟨.error, "CRITICAL: " ++ fault.message⟩]) := by
  intro o disk
  have hparse : Options.parse ["1/0"] = .ok o := rfl
  have hdisk : Fails disk := fails_disk {}
  have hexit : (run ["1/0"] disk).exit = .ok 1 := by decide +kernel
  refine ⟨hparse, hdisk, ?_⟩
  obtain ⟨lines, hlines, ⟨hok, -⟩ | ⟨fault, h⟩ | ⟨fault, -, herror, -⟩⟩ := run_exits hparse hdisk
  · rw [hexit] at hok
    cases hok
  · exact ⟨lines, fault, hlines, h⟩
  · rw [hexit] at herror
    cases herror

/-- An input file without a name. -/
theorem run_escapes :
    let disk := ({} : Folder).disk
    (∃ o, Options.parse ["-i", ""] = .ok o) ∧
      (run ["-i", ""] disk).exit = .error .formulaNotText ∧ (run ["-i", ""] disk).stderr = "" := by
  intro disk
  exact ⟨⟨_, rfl⟩, by decide +kernel, by decide +kernel⟩

end FormulaCalculus.CommandLine
