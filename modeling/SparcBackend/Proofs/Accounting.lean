import Mathlib.Data.List.Forall2
import SparcBackend.Proofs.Phases
import SparcBackend.Proofs.Selection.Grammar

/-!
Compilations account for all of their procedures: each is attempted, each that has no
instructions is reported, and what is made of one does not depend on the others. The one
exception is a frame whose size does not fit, at which everything stops.
-/
namespace SparcBackend
open Selection

/-- A frame is asked for, and it cannot hold the locals. -/
structure OwningProcedure.Outgrows (config : Config) (p : OwningProcedure) : Prop where
  framed : config.procedureFrames = true
  inner : p.isEntry = false
  legal : ∀ n ∈ p.body.flatMap Statement.nodes, n.IsLegal
  large : Machine.sizeLimit ≤ (p.locals.toNat + Machine.reservedWords) * Machine.wordSize + 7

namespace Pipeline
variable {config : Config} {p : OwningProcedure} {ps qs : List OwningProcedure} {result other : Logged Result} {reporter : Reporter}
  {fs : List CodeFragment} {f : CodeFragment}

/-! ### Frames that do not fit -/

theorem frame?_eq_none {m : Method} {code : List Instruction} : frame? m code = none ↔
    m.isEntry = false ∧ Machine.sizeLimit ≤ (m.locals.toNat + Machine.reservedWords) * Machine.wordSize + 7 := by
  unfold frame? Machine.prologue? Machine.frameSize?
  cases m.isEntry <;> simp

theorem error?_ne_overflow (n : Node) : n.error? ≠ some (.access .overflow) := by
  unfold Node.error?
  split <;> first | (split <;> simp) | simp

/-- The supply from which the body of a procedure is covered. -/
def bodySupply (p : OwningProcedure) : RegisterSupply := p.supply.adoptAll (virtualRegisters p.body)

theorem overflows_of_error {e : Selection.Error} (came : (tileBody .sparc p.body (bodySupply p)).outcome = .error e) :
    Overflows config p ↔ e = .access .overflow := by
  unfold bodySupply at came
  rw [Overflows,selection,target_eq,select,came]
  exact Except.error.injEq .. |> Iff.of_eq

theorem overflows_of_ok {supply : RegisterSupply} (came : (tileBody .sparc p.body (bodySupply p)).outcome = .ok ((),supply)) :
    Overflows config p ↔
      config.procedureFrames = true ∧ frame? p.toMethod (tileBody .sparc p.body (bodySupply p)).code = none := by
  unfold bodySupply at came ⊢
  rw [Overflows,selection,target_eq,select,came]
  cases config.procedureFrames with
  | false => simp [bind,Except.bind,pure,Except.pure]
  | true =>
    cases frame? p.toMethod (tileBody .sparc p.body (p.supply.adoptAll (virtualRegisters p.body))).code <;>
      simp [bind,Except.bind,pure,Except.pure]

theorem overflows_iff : Overflows config p ↔ p.Outgrows config := by
  have judged := judged_body p.body (bodySupply p)
  cases found : (p.body.flatMap Statement.nodes).findSome? Node.error? with
  | some e =>
    rw [found] at judged
    obtain ⟨n,mem,is⟩ := List.exists_of_findSome?_eq_some found
    have illegal : ¬ n.IsLegal := fun legal => Option.some_ne_none e (is.symm.trans (Node.error?_eq_none_iff.2 legal))
    rw [overflows_of_error judged]
    constructor
    · rintro rfl
      exact absurd is (error?_ne_overflow n)
    · intro outgrows
      exact absurd (outgrows.legal n mem) illegal
  | none =>
    rw [found] at judged
    obtain ⟨u,left,came,-⟩ := judged
    have legal : ∀ n ∈ p.body.flatMap Statement.nodes, n.IsLegal := by
      simpa only [List.findSome?_eq_none_iff,Node.error?_eq_none_iff] using found
    rw [overflows_of_ok came,frame?_eq_none]
    constructor
    · rintro ⟨framed,inner,large⟩
      exact ⟨framed,inner,legal,large⟩
    · intro outgrows
      exact ⟨outgrows.framed,outgrows.inner,outgrows.large⟩

/-! ### Accounts -/

/-- The errors reported are those of the procedures without instructions. -/
theorem hasErrors_reported : (reported config {} ps).hasErrors = true ↔ ∃ p ∈ ps, ∃ e, (selection config p).outcome = .error e := by
  have counts : (reported config {} ps).hasErrors = true ↔ ∃ d ∈ ps.filterMap (complaint? config), d.severity = .error := by
    simp only [Reporter.hasErrors,Reporter.errorCount,reported,List.nil_append,decide_eq_true_eq,List.countP_pos_iff]
  rw [counts]
  constructor
  · rintro ⟨d,reported,-⟩
    obtain ⟨p,mem,complains⟩ := List.mem_filterMap.1 reported
    refine ⟨p,mem,?_⟩
    unfold complaint? at complains
    split at complains
    · cases complains
    · rename_i e came
      exact ⟨e,came⟩
  · rintro ⟨p,mem,e,came⟩
    exact ⟨_,List.mem_filterMap.2 ⟨p,mem,by rw [complaint?,came]⟩,rfl⟩

/-- All procedures have instructions. -/
def Whole (config : Config) (ps : List OwningProcedure) : Prop := ∀ p ∈ ps, ∃ g, (selection config p).outcome = .ok g

theorem whole_iff : Whole config ps ↔ ¬ ∃ p ∈ ps, ∃ e, (selection config p).outcome = .error e := by
  simp only [Whole,not_exists,not_and]
  constructor
  · intro whole p mem e failed
    obtain ⟨g,came⟩ := whole p mem
    rw [came] at failed
    cases failed
  · intro none p mem
    cases came : (selection config p).outcome with
    | ok g => exact ⟨g,rfl⟩
    | error e => exact absurd came (none p mem e)

theorem complaints_eq_nil (whole : Whole config ps) : ps.filterMap (complaint? config) = [] := by
  rw [List.filterMap_eq_nil_iff]
  intro p mem
  obtain ⟨g,came⟩ := whole p mem
  rw [complaint?,came]

/-- The fragments that a compilation of procedures with instructions leaves. -/
def compiled (config : Config) (ps : List OwningProcedure) : List CodeFragment :=
  (ps.filterMap (selected? config)).map (finished config)

theorem outcome_of_whole (whole : Whole config ps) : outcome config {} ps =
    { fragments := some (compiled config ps)
      reporter := { diagnostics := (compiled config ps).filterMap shortage?,phase := some "RegAlloc" } } := by
  have none : ¬ (reported config {} ps).hasErrors = true := fun failed => whole_iff.1 whole (hasErrors_reported.1 failed)
  rw [outcome,if_neg none]
  simp [reported,complaints_eq_nil whole,compiled]

theorem outcome_of_failure (failure : ∃ p ∈ ps, ∃ e, (selection config p).outcome = .error e) : outcome config {} ps =
    { fragments := none,reporter := { diagnostics := ps.filterMap (complaint? config),phase := some "CodeGen" } } := by
  rw [outcome,if_pos (hasErrors_reported.2 failure)]
  rfl

theorem forall₂_compiled (whole : Whole config ps) :
    List.Forall₂ (fun p f => ∃ g, (selection config p).outcome = .ok g ∧ f = finished config g) ps (compiled config ps) := by
  induction ps with
  | nil => exact .nil
  | cons p rest ih =>
    obtain ⟨g,came⟩ := whole p (by simp)
    have others := ih fun q mem => whole q (List.mem_cons_of_mem _ mem)
    have front : compiled config (p :: rest) = finished config g :: compiled config rest := by simp [compiled,selected?,came]
    rw [front]
    exact .cons ⟨g,came,rfl⟩ others

theorem exists_of_forall₂ {α β : Type} {R : α → β → Prop} {as : List α} {bs : List β} {b : β} (all : List.Forall₂ R as bs)
    (member : b ∈ bs) : ∃ a ∈ as, R a b := by
  induction all with
  | nil => cases member
  | cons one _ ih =>
    rcases List.mem_cons.1 member with rfl | later
    · exact ⟨_,List.mem_cons_self,one⟩
    · obtain ⟨a,among,holds⟩ := ih later
      exact ⟨a,List.mem_cons_of_mem _ among,holds⟩

/-- A compilation that leaves fragments leaves one for each procedure, in the same order. -/
theorem forall₂_of_run (ran : runOwning config ⟨ps⟩ reporter = some result) (fragments : result.value.fragments = some fs) :
    List.Forall₂ (fun p f => ∃ g, (selection config p).outcome = .ok g ∧ f = finished config g) ps fs := by
  have fit : ∀ p ∈ ps, ¬ Overflows config p := fun p member overflow =>
    Option.some_ne_none _ (ran.symm.trans (runOwning_none reporter ⟨p,member,overflow⟩))
  cases (runOwning_some reporter fit).symm.trans ran
  simp only [outcome] at fragments
  split at fragments
  · cases fragments
  · rename_i errors
    cases fragments
    have whole : Whole config ps := by
      rw [whole_iff]
      rintro ⟨p,member,e,failed⟩
      have complains : 0 < (ps.filterMap (complaint? config)).countP (fun d => d.severity = .error) :=
        List.countP_pos_iff.2 ⟨_,List.mem_filterMap.2 ⟨p,member,by rw [complaint?,failed]⟩,rfl⟩
      apply errors
      simp only [Reporter.hasErrors,Reporter.errorCount,reported,List.countP_append,decide_eq_true_eq]
      omega
    exact forall₂_compiled whole

/-- Every fragment of a compilation is made of a procedure by itself. -/
theorem made_of_run (ran : runOwning config ⟨ps⟩ reporter = some result) (fragments : result.value.fragments = some fs) (member : f ∈ fs) :
    ∃ p ∈ ps, ∃ g, (selection config p).outcome = .ok g ∧ f = finished config g := exists_of_forall₂ (forall₂_of_run ran fragments) member

theorem run_of_whole (whole : Whole config ps) :
    ∃ result, runOwning config ⟨ps⟩ {} = some result ∧ result.value.fragments = some (compiled config ps) := by
  have fit : ∀ p ∈ ps, ¬ Overflows config p := by
    intro p member overflow
    obtain ⟨g,came⟩ := whole p member
    rw [Overflows,came] at overflow
    cases overflow
  refine ⟨_,runOwning_some {} fit,?_⟩
  rw [outcome_of_whole whole]

/-- What is made of the procedures of a compilation with a fresh reporter. -/
structure Accounts (config : Config) (ps : List OwningProcedure) (result : Logged Result) : Prop where
  /-- Every procedure is attempted, one after the other. If one fails, nothing is done behind that. -/
  attempted : ∃ later, result.log =
      Log.info s!"Compiling {ps.length} fragment(s) for {(target config.arch).name} at {config.optLevel.name}" ::
        Log.info "[Entering CodeGen phase]" :: ps.flatMap (selectionLog config) ++ later ∧
    (result.value.fragments = none → later = [])
  failed : result.value.fragments = none ↔ ∃ p ∈ ps, ∃ e, (selection config p).outcome = .error e
  /-- The reports of a failure are the errors of the procedures that fail. -/
  errors : result.value.fragments = none →
    result.value.reporter = { diagnostics := ps.filterMap (complaint? config),phase := some "CodeGen" }
  /-- Otherwise each procedure has the fragment that is made of it alone. -/
  alone : ∀ fs, result.value.fragments = some fs → List.Forall₂ (fun p f =>
    ∃ single, runOwning config ⟨[p]⟩ {} = some single ∧ single.value.fragments = some [f]) ps fs
  /-- The reports are then the warnings on the fragments that run out of registers. -/
  warnings : ∀ fs, result.value.fragments = some fs →
    result.value.reporter = { diagnostics := fs.filterMap shortage?,phase := some "RegAlloc" }

/-- What is made of a procedure does not depend on the others. -/
theorem run_alone {g : CodeFragment} (came : (selection config p).outcome = .ok g) :
    ∃ single, runOwning config ⟨[p]⟩ {} = some single ∧ single.value.fragments = some [finished config g] := by
  have whole : Whole config [p] := by
    intro q only
    rw [List.mem_singleton.1 only]
    exact ⟨g,came⟩
  obtain ⟨single,ran,fragments⟩ := run_of_whole whole
  refine ⟨single,ran,?_⟩
  rw [fragments]
  simp [compiled,selected?,came]

theorem accounts (config : Config) (ps : List OwningProcedure) :
    Accounts config ps { value := outcome config {} ps,log := chronicle config {} ps } := by
  by_cases failure : ∃ p ∈ ps, ∃ e, (selection config p).outcome = .error e
  · rw [outcome_of_failure failure]
    refine ⟨⟨[],?_,fun _ => rfl⟩,⟨fun _ => failure,fun _ => rfl⟩,fun _ => rfl,?_,?_⟩
    · simp [chronicle,laterLog,hasErrors_reported.2 failure]
    · intro fs is
      cases is
    · intro fs is
      cases is
  · have whole := whole_iff.2 failure
    rw [outcome_of_whole whole]
    refine ⟨⟨_,rfl,?_⟩,⟨?_,fun failed => absurd failed failure⟩,?_,?_,?_⟩
    · intro none
      cases none
    · intro none
      cases none
    · intro none
      cases none
    · intro fs is
      cases is
      refine (forall₂_compiled whole).imp ?_
      rintro p f ⟨g,came,rfl⟩
      exact run_alone came
    · intro fs is
      cases is
      rfl

/-! ### Order -/

/-- Two compilations of the same procedures in different orders differ in the order alone. -/
structure Permuted (ps qs : List OwningProcedure) (result other : Logged Result) : Prop where
  fragments : (result.value.fragments = none ∧ other.value.fragments = none) ∨
    ∃ fs gs, result.value.fragments = some fs ∧ other.value.fragments = some gs ∧ (ps.zip fs).Perm (qs.zip gs)
  diagnostics : result.value.reporter.diagnostics.Perm other.value.reporter.diagnostics
  phase : result.value.reporter.phase = other.value.reporter.phase
  log : result.log.Perm other.log

theorem zip_compiled (whole : Whole config ps) : ps.zip (compiled config ps) =
    ps.filterMap fun p => (selected? config p).map fun g => (p,finished config g) := by
  induction ps with
  | nil => rfl
  | cons p rest ih =>
    obtain ⟨g,came⟩ := whole p (by simp)
    have others := ih fun q mem => whole q (List.mem_cons_of_mem _ mem)
    have chosen : selected? config p = some g := by rw [selected?,came]
    have front : compiled config (p :: rest) = finished config g :: compiled config rest := by simp [compiled,chosen]
    rw [front,List.zip_cons_cons,others,List.filterMap_cons_some (by rw [chosen]; rfl)]

theorem compiled_perm (same : ps.Perm qs) : (compiled config ps).Perm (compiled config qs) :=
  (same.filterMap _).map _

theorem laterLog_perm (same : ps.Perm qs) : (laterLog config {} ps).Perm (laterLog config {} qs) := by
  have errors : (reported config {} ps).hasErrors = true ↔ (reported config {} qs).hasErrors = true := by
    simp only [hasErrors_reported,same.mem_iff]
  have selected := same.filterMap (selected? config)
  unfold laterLog
  by_cases failed : (reported config {} ps).hasErrors = true
  · rw [if_pos failed,if_pos (errors.1 failed)]
  · rw [if_neg failed,if_neg fun also => failed (errors.2 also)]
    exact ((selected.flatMap_right _).cons _).append ((selected.flatMap_right _).cons _)

theorem chronicle_perm (same : ps.Perm qs) : (chronicle config {} ps).Perm (chronicle config {} qs) := by
  unfold chronicle
  rw [same.length_eq]
  exact (((same.flatMap_right _).cons _).cons _).append (laterLog_perm same)

theorem permuted (config : Config) (same : ps.Perm qs) :
    Permuted ps qs { value := outcome config {} ps,log := chronicle config {} ps }
      { value := outcome config {} qs,log := chronicle config {} qs } := by
  have among : ∀ p, p ∈ ps ↔ p ∈ qs := fun p => same.mem_iff
  by_cases failure : ∃ p ∈ ps, ∃ e, (selection config p).outcome = .error e
  · have too : ∃ p ∈ qs, ∃ e, (selection config p).outcome = .error e := by simpa only [among] using failure
    rw [outcome_of_failure failure,outcome_of_failure too]
    exact ⟨.inl ⟨rfl,rfl⟩,same.filterMap _,rfl,chronicle_perm same⟩
  · have whole := whole_iff.2 failure
    have too : Whole config qs := fun p mem => whole p ((among p).2 mem)
    rw [outcome_of_whole whole,outcome_of_whole too]
    refine ⟨.inr ⟨_,_,rfl,rfl,?_⟩,(compiled_perm same).filterMap _,rfl,chronicle_perm same⟩
    rw [zip_compiled whole,zip_compiled too]
    exact same.filterMap _

/-- What may become of a compilation. -/
def Accounted (config : Config) (ps : List OwningProcedure) : Option (Logged Result) → Prop
  | none => ∃ p ∈ ps, p.Outgrows config
  | some result => (∀ p ∈ ps, ¬ p.Outgrows config) ∧ Accounts config ps result ∧
      ∀ qs, ps.Perm qs → ∃ other, runOwning config ⟨qs⟩ {} = some other ∧ Permuted ps qs result other

end Pipeline

open Pipeline

/-- A compilation with a fresh reporter accounts for all of its procedures and treats each
    as if it were alone and in whatever order they come. Only where a frame outgrows a
    64-bit word is nothing left of any of them. -/
theorem runOwning_accounted (config : Config) (ps : List OwningProcedure) : Accounted config ps (runOwning config ⟨ps⟩ {}) := by
  by_cases overflow : ∃ p ∈ ps, Overflows config p
  · rw [runOwning_none {} overflow]
    obtain ⟨p,mem,overflows⟩ := overflow
    exact ⟨p,mem,overflows_iff.1 overflows⟩
  · have fit : ∀ p ∈ ps, ¬ Overflows config p := fun p mem overflows => overflow ⟨p,mem,overflows⟩
    rw [runOwning_some {} fit]
    refine ⟨fun p mem outgrows => fit p mem (overflows_iff.2 outgrows),accounts config ps,?_⟩
    intro qs same
    exact ⟨_,runOwning_some {} fun p mem => fit p (same.mem_iff.2 mem),permuted config same⟩

/-- A move to a constant, which has no instructions. -/
def misplaced : Procedure where
  className := "Test"
  methodName := "misplaced"
  body := [.move (.constant 1) (.constant 2)]

/-- More locals than a frame can hold. -/
def bottomless : Procedure where
  className := "Test"
  methodName := "bottomless"
  locals := 18446744073709551615
  body := []

/-- The error for one procedure is lost with everything else when another one is too large. -/
theorem not_runOwning_accounted_bottomless :
    (∃ e, (selection {} { toProcedure := misplaced }).outcome = .error e) ∧
    runOwning {} ⟨[{ toProcedure := misplaced },{ toProcedure := bottomless }]⟩ {} = none := by
  refine ⟨⟨_,rfl⟩,runOwning_none {} ⟨_,List.mem_cons_of_mem _ List.mem_cons_self,overflows_iff.2 ?_⟩⟩
  exact ⟨rfl,rfl,by simp [bottomless],by decide⟩

end SparcBackend
