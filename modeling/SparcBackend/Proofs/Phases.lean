import SparcBackend.Pipeline

/-!
Every phase deals with one procedure after the other, and what it does with one depends on
no other. So a whole run comes down to what is made of each procedure, in order.
-/
namespace SparcBackend

namespace Logged
variable {α β : Type}

theorem value_mapM (f : α → Logged β) (l : List α) : (l.mapM f).value = l.map fun a => (f a).value := by
  have loop : ∀ (l : List α) (done : List β), (List.mapM.loop f l done).value = done.reverse ++ l.map fun a => (f a).value := by
    intro l
    induction l with
    | nil => simp [List.mapM.loop]
    | cons a rest ih => simp [List.mapM.loop,ih]
  exact loop l []

theorem log_mapM (f : α → Logged β) (l : List α) : (l.mapM f).log = l.flatMap fun a => (f a).log := by
  have loop : ∀ (l : List α) (done : List β), (List.mapM.loop f l done).log = l.flatMap fun a => (f a).log := by
    intro l
    induction l with
    | nil => simp [List.mapM.loop]
    | cons a rest ih => simp [List.mapM.loop,ih]
  exact loop l []

theorem eq_mk {x : Logged α} {value : α} {log : Log} (sameValue : x.value = value) (sameLog : x.log = log) :
    x = { value,log } := by
  subst sameValue sameLog
  rfl

end Logged

/-- The reports with further ones behind them. -/
def Reporter.withDiagnostics (r : Reporter) (diagnostics : List Diagnostic) : Reporter :=
  { r with diagnostics := r.diagnostics ++ diagnostics }

namespace Pipeline
variable {config : Config} {p : OwningProcedure} {ps : List OwningProcedure} {s : State}

theorem target_eq (arch : Arch) : target arch = .sparc := by
  cases arch
  rfl

/-! ### One procedure -/

/-- What selection makes of a procedure. -/
def selection (config : Config) (p : OwningProcedure) : Selection.Selected :=
  Selection.select (target config.arch) p.supply p.toProcedure config.procedureFrames

/-- The frame size of a procedure does not fit, which ends the whole compilation. -/
def Overflows (config : Config) (p : OwningProcedure) : Prop := (selection config p).outcome = .error (.access .overflow)

/-- The instructions of a procedure, if it has any. -/
def selected? (config : Config) (p : OwningProcedure) : Option CodeFragment :=
  match (selection config p).outcome with
  | .ok f => some f
  | .error _ => none

/-- The error for a procedure that has no instructions. -/
def complaint? (config : Config) (p : OwningProcedure) : Option Diagnostic :=
  match (selection config p).outcome with
  | .ok _ => none
  | .error e => some { severity := .error,phase := some "CodeGen",message := (Failure.selection p.name e.message).message }

/-- The lines written while a procedure is selected. -/
def selectionLog (config : Config) (p : OwningProcedure) : Log :=
  (selection config p).log ++ match (selection config p).outcome with
    | .ok f => [Log.debug s!"Selected {f.code.length} instructions for {p.name}"]
    | .error e => [Log.error (Failure.selection p.name e.message).message]

/-- A fragment with the machine registers that it is assigned. -/
def allocated (f : CodeFragment) : CodeFragment :=
  { f with registers := some (Allocation.firstFit f.code f.supply f.lifetimes Machine.localRegisters).value.map }

/-- The warning on a fragment for which the machine registers do not suffice. -/
def shortage? (f : CodeFragment) : Option Diagnostic :=
  (Allocation.firstFit f.code f.supply f.lifetimes Machine.localRegisters).value.exhausted.map fun e =>
    { severity := .warning,phase := some "RegAlloc",message := f.name ++ ": " ++ e.message,
      notes := ["unassigned registers keep their virtual names"] }

/-- The lines written while machine registers are assigned to a fragment. -/
def allocationLog (f : CodeFragment) : Log :=
  let allocation := Allocation.firstFit f.code f.supply f.lifetimes Machine.localRegisters
  allocation.log ++ match allocation.value.exhausted with
    | some e => [Log.warn (f.name ++ ": " ++ e.message)]
    | none => []

/-- What the phases behind selection make of a fragment. -/
def finished (config : Config) (f : CodeFragment) : CodeFragment := allocated (optimizeOne config f).value

/-! ### Steps -/

theorem selectOne_none : selectOne config s p = none ↔ Overflows config p := by
  unfold selectOne Overflows selection
  simp only
  split
  · rename_i came
    simp [came]
  · rename_i came
    simp [came]
  · rename_i e other came
    rw [came,Except.error.injEq]
    exact ⟨fun none => (Option.some_ne_none _ none).elim,fun overflow => (other overflow).elim⟩

theorem report_value {r : Reporter} {phase : String} (runs : r.phase = some phase) (failure : Failure) :
    (r.report failure []).value = r.withDiagnostics [{ severity := .error,phase := some phase,message := failure.message }] := by
  show r.push .error failure.message [] = _
  simp [Reporter.push,Reporter.withDiagnostics,runs]

/-- Selecting a procedure adds its instructions to the fragments or its error to the reports. -/
theorem selectOne_some (fits : ¬ Overflows config p) (phase : s.reporter.phase = some "CodeGen") :
    ∃ next, selectOne config s p = some next ∧
      next.value = { fragments := s.fragments ++ (selected? config p).toList,
                     reporter := s.reporter.withDiagnostics (complaint? config p).toList } ∧
      next.log = selectionLog config p := by
  unfold selectOne
  simp only
  split
  · rename_i f came
    have came : (selection config p).outcome = .ok f := came
    refine ⟨_,rfl,?_,?_⟩
    · simp [selected?,complaint?,came,Reporter.withDiagnostics]
    · simp only [selectionLog,came]
      rfl
  · rename_i came
    exact absurd came fits
  · rename_i e other came
    have came : (selection config p).outcome = .error e := came
    have reports := report_value phase (.selection p.name e.message)
    refine ⟨_,rfl,?_,?_⟩
    · simp only [Logged.value_bind,Logged.value_pure,reports,selected?,complaint?,came,Option.toList_none,Option.toList_some,
        List.append_nil]
    · simp only [selectionLog,came]
      rfl

theorem optimizeOne_fresh (config : Config) (f : CodeFragment) :
    (optimizeOne config f).value.lifetimes = .ofCode (optimizeOne config f).value.code (optimizeOne config f).value.supply := by
  unfold optimizeOne
  cases config.verbose <;> cases config.optLevel.runsPeephole <;> rfl

theorem optimizeOne_code (config : Config) (f : CodeFragment) : (optimizeOne config f).value.code =
    if config.optLevel.runsPeephole then (Peephole.optimize .sparc f.supply f.code).code else f.code := by
  unfold optimizeOne
  rw [target_eq]
  cases config.verbose <;> cases config.optLevel.runsPeephole <;> rfl

theorem optimizeOne_supply (config : Config) (f : CodeFragment) : (optimizeOne config f).value.supply = f.supply := by
  unfold optimizeOne
  cases config.verbose <;> cases config.optLevel.runsPeephole <;> rfl

theorem allocateOne_value (phase : s.reporter.phase = some "RegAlloc") (f : CodeFragment) : (allocateOne s f).value =
    { fragments := s.fragments ++ [allocated f],reporter := s.reporter.withDiagnostics (shortage? f).toList } := by
  simp only [allocateOne,Logged.value_bind,shortage?,allocated]
  cases (Allocation.firstFit f.code f.supply f.lifetimes Machine.localRegisters).value.exhausted with
  | none => simp [Reporter.withDiagnostics]
  | some e => simp [Reporter.warning,Reporter.push,Reporter.withDiagnostics,phase]

theorem allocateOne_log (s : State) (f : CodeFragment) : (allocateOne s f).log = allocationLog f := by
  simp only [allocateOne,Logged.log_bind,allocationLog]
  cases (Allocation.firstFit f.code f.supply f.lifetimes Machine.localRegisters).value.exhausted with
  | none => simp
  | some e => simp [Reporter.warning,Logged.write]

/-! ### Runs -/

theorem withDiagnostics_append (r : Reporter) (first second : List Diagnostic) :
    (r.withDiagnostics first).withDiagnostics second = r.withDiagnostics (first ++ second) := by
  simp [Reporter.withDiagnostics]

theorem selectAll_some (fit : ∀ p ∈ ps, ¬ Overflows config p) (s : Logged State) (phase : s.value.reporter.phase = some "CodeGen") :
    ∃ last, selectAll config ps s = some last ∧
      last.value = { fragments := s.value.fragments ++ ps.filterMap (selected? config),
                     reporter := s.value.reporter.withDiagnostics (ps.filterMap (complaint? config)) } ∧
      last.log = s.log ++ ps.flatMap (selectionLog config) := by
  induction ps generalizing s with
  | nil => exact ⟨s,rfl,by simp [Reporter.withDiagnostics],by simp⟩
  | cons p rest ih =>
    obtain ⟨next,first,value,log⟩ := selectOne_some (fit p (by simp)) phase
    obtain ⟨last,others,lastValue,lastLog⟩ := ih (fun p mem => fit p (List.mem_cons_of_mem _ mem))
      { value := next.value,log := s.log ++ next.log } (by rw [value]; exact phase)
    refine ⟨last,by simp only [selectAll,first]; exact others,?_,?_⟩
    · rw [lastValue,value]
      simp only [withDiagnostics_append,List.append_assoc]
      cases chosen : selected? config p <;> cases complains : complaint? config p <;> simp [chosen,complains]
    · rw [lastLog,log,List.flatMap_cons,List.append_assoc]

theorem selectAll_none (overflows : ∃ p ∈ ps, Overflows config p) (s : Logged State) : selectAll config ps s = none := by
  induction ps generalizing s with
  | nil =>
    obtain ⟨p,none,-⟩ := overflows
    cases none
  | cons p rest ih =>
    cases first : selectOne config s.value p with
    | none => simp only [selectAll,first]; rfl
    | some next =>
      have fits : ¬ Overflows config p := fun overflow => Option.some_ne_none _ (first.symm.trans (selectOne_none.2 overflow))
      simp only [List.mem_cons,exists_eq_or_imp,fits,false_or] at overflows
      simp only [selectAll,first]
      exact ih overflows _

theorem allocate_value (s : State) : (allocate s).value =
    { fragments := s.fragments.map allocated
      reporter := { diagnostics := s.reporter.diagnostics ++ s.fragments.filterMap shortage?,phase := some "RegAlloc" } } := by
  have fold : ∀ (fragments : List CodeFragment) (s : State), s.reporter.phase = some "RegAlloc" →
      (fragments.foldlM allocateOne s).value =
        { fragments := s.fragments ++ fragments.map allocated,reporter := s.reporter.withDiagnostics (fragments.filterMap shortage?) } := by
    intro fragments
    induction fragments with
    | nil => simp [Reporter.withDiagnostics]
    | cons f rest ih =>
      intro s phase
      have others := ih (allocateOne s f).value (by rw [allocateOne_value phase]; exact phase)
      rw [List.foldlM_cons,Logged.value_bind,others,allocateOne_value phase]
      simp only [withDiagnostics_append,List.append_assoc]
      cases short : shortage? f <;> simp [short]
  simp only [allocate,Logged.value_bind]
  rw [fold _ _ rfl]
  rfl

theorem allocate_log (s : State) : (allocate s).log = Log.info "[Entering RegAlloc phase]" :: s.fragments.flatMap allocationLog := by
  have fold : ∀ (fragments : List CodeFragment) (s : State), (fragments.foldlM allocateOne s).log = fragments.flatMap allocationLog := by
    intro fragments
    induction fragments with
    | nil => simp
    | cons f rest ih =>
      intro s
      rw [List.foldlM_cons,Logged.log_bind,allocateOne_log,ih,List.flatMap_cons]
  simp only [allocate,Logged.log_bind,fold]
  rfl

theorem optimize_value (config : Config) (s : State) : (optimize config s).value =
    { fragments := s.fragments.map fun f => (optimizeOne config f).value,reporter := { s.reporter with phase := some "Optimize" } } := by
  simp only [optimize,Logged.value_bind,Logged.value_pure,Logged.value_mapM]
  rfl

theorem optimize_log (config : Config) (s : State) : (optimize config s).log =
    Log.info "[Entering Optimize phase]" :: s.fragments.flatMap fun f => (optimizeOne config f).log := by
  simp only [optimize,Logged.log_bind,Logged.log_pure,Logged.log_mapM,List.append_nil]
  rfl

/-! ### Whole compilations -/

/-- The reports once everything has been selected. -/
def reported (config : Config) (r : Reporter) (ps : List OwningProcedure) : Reporter where
  diagnostics := r.diagnostics ++ ps.filterMap (complaint? config)
  phase := some "CodeGen"

/-- What a compilation leaves. -/
def outcome (config : Config) (r : Reporter) (ps : List OwningProcedure) : Result :=
  if (reported config r ps).hasErrors then
    { fragments := none,reporter := reported config r ps }
  else
    let fs := (ps.filterMap (selected? config)).map (finished config)
    { fragments := some fs
      reporter := { diagnostics := (reported config r ps).diagnostics ++ fs.filterMap shortage?,phase := some "RegAlloc" } }

/-- The lines that a compilation writes behind selection. -/
def laterLog (config : Config) (r : Reporter) (ps : List OwningProcedure) : Log :=
  if (reported config r ps).hasErrors then
    []
  else
    let fs := ps.filterMap (selected? config)
    Log.info "[Entering Optimize phase]" :: fs.flatMap (fun f => (optimizeOne config f).log) ++
      Log.info "[Entering RegAlloc phase]" :: fs.flatMap fun f => allocationLog (optimizeOne config f).value

/-- The lines that a compilation writes. -/
def chronicle (config : Config) (r : Reporter) (ps : List OwningProcedure) : Log :=
  Log.info s!"Compiling {ps.length} fragment(s) for {(target config.arch).name} at {config.optLevel.name}" ::
    Log.info "[Entering CodeGen phase]" :: ps.flatMap (selectionLog config) ++ laterLog config r ps

theorem runOwning_none (r : Reporter) (overflows : ∃ p ∈ ps, Overflows config p) : runOwning config ⟨ps⟩ r = none := by
  simp only [runOwning,codeGenOwning,selectAll_none overflows]
  rfl

theorem runOwning_some (r : Reporter) (fit : ∀ p ∈ ps, ¬ Overflows config p) :
    runOwning config ⟨ps⟩ r = some { value := outcome config r ps,log := chronicle config r ps } := by
  obtain ⟨last,came,value,log⟩ := selectAll_some fit (do return { reporter := ← r.beginPhase "CodeGen" }) rfl
  have reports : last.value.reporter = reported config r ps := by rw [value]; rfl
  have fragments : last.value.fragments = ps.filterMap (selected? config) := by rw [value]; rfl
  have begins : last.log = Log.info "[Entering CodeGen phase]" :: ps.flatMap (selectionLog config) := by rw [log]; rfl
  unfold runOwning codeGenOwning outcome chronicle laterLog
  simp only [came,Option.bind_eq_bind,Option.bind_some]
  refine congrArg some (Logged.eq_mk ?_ ?_)
  · simp only [Logged.value_bind,reports]
    by_cases failed : (reported config r ps).hasErrors = true
    · rw [if_pos failed,if_pos failed]
      rfl
    · rw [if_neg failed,if_neg failed]
      simp only [Logged.value_bind,Logged.value_pure,allocate_value,optimize_value,fragments,reports,List.map_map,List.filterMap_map]
      rfl
  · simp only [Logged.log_bind,begins,reports]
    by_cases failed : (reported config r ps).hasErrors = true
    · rw [if_pos failed,if_pos failed]
      simp [Logged.write]
    · rw [if_neg failed,if_neg failed]
      simp [Logged.write,allocate_log,optimize_log,optimize_value,fragments,List.flatMap_map]

end Pipeline

end SparcBackend
