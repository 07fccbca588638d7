import SparcBackend.Proofs.Accounting
import SparcBackend.Proofs.Asm.Rendering
import SparcBackend.Proofs.Ir.Methods
import SparcBackend.Proofs.Machine.Frame
import SparcBackend.Proofs.Peephole.Simulation
import SparcBackend.Proofs.Peephole.Skeleton
import SparcBackend.Proofs.Selection.Yielding

/-!
What becomes of frames in a compilation. The optimizer leaves them alone: it keeps all
labels, and the lines that open a method stay in front. So the labels of frames clash
exactly where the names of methods do, and the line that allocates a frame has the size
that its locals ask for, whether an instruction has room for it or not.
-/
namespace SparcBackend
open Selection (Yields tileBody virtualRegisters frame?)

namespace Peephole
open Machine (Target)
variable {t : Target} {supply : RegisterSupply} {before after code front : List Instruction} {deleted : Nat}

/-! ### Labels -/

theorem label?_of_isMarker {i : Instruction} (isOperation : i.isMarker = false) : i.label? = none := by
  cases i with
  | operation | move | comment => rfl
  | label => cases isOperation

theorem Trims.labels_eq (trims : Trims before after deleted) : labels after = labels before := by
  cases trims with
  | copied sum copies _ =>
    have new := label?_of_isMarker (isMarker_of_kind (ne_of_eq_of_ne copies (by decide)))
    have old := label?_of_isMarker (isMarker_of_expendable (isExpendable_of_isArithmetic sum))
    simp only [labels,List.filterMap_cons,new,old]
  | forward expendable replaces | backward expendable replaces =>
    have gone := label?_of_isMarker (isMarker_of_expendable expendable)
    simp only [labels,List.filterMap_append,List.filterMap_cons,gone,label?_of_isMarker replaces.isOperation.1,
      label?_of_isMarker replaces.isOperation.2]
  | vanished expendable => simp only [labels,List.filterMap_cons,label?_of_isMarker (isMarker_of_expendable expendable)]
  | @jump head nops behind _ jumps _ idle _ _ =>
    have gone := label?_of_isMarker (isMarker_of_kind (ne_of_eq_of_ne jumps (by decide)))
    have none : nops.filterMap Instruction.label? = [] := by
      rw [List.filterMap_eq_nil_iff]
      intro i member
      exact label?_of_isMarker (isMarker_of_kind (ne_of_eq_of_ne (idle i member) (by decide)))
    simp only [labels,List.cons_append,List.filterMap_cons,List.filterMap_append,gone,none,List.nil_append]

/-- The optimizer keeps all labels, in their order. -/
theorem labels_optimize (t : Target) (supply : RegisterSupply) (code : List Instruction) :
    labels (optimize t supply code).code = labels code := by
  apply optimize_induction (P := fun later => labels later = labels code) (fun _ => True)
  · intro s made _ same
    have whole := List.take_append_drop s.line s.code
    calc labels s.after
      _ = labels (s.code.take s.line) ++ labels s.change.code := List.filterMap_append
      _ = labels (s.code.take s.line) ++ labels (s.code.drop s.line) := by rw [(trims_of_changeAt made).labels_eq]
      _ = labels (s.code.take s.line ++ s.code.drop s.line) := List.filterMap_append.symm
      _ = labels code := by rw [whole,same]
  · exact fun _ _ => trivial
  · rfl

/-! ### Lines in front -/

/-- No rule fires at a line, whatever comes behind. -/
def IsInert (i : Instruction) : Prop := i.isMarker = true ∨ (i.kind = .other ∧ i.uses = [])

theorem change?_of_isInert {ends : EndsAfter} {head : Instruction} {rest : List Instruction} (inert : IsInert head) :
    change? t ends head rest = none := by
  rcases inert with marker | ⟨kind,reads⟩
  · rw [change?,if_pos marker]
  · have special : kindRule? t ends head rest = none := by simp only [kindRule?,kind]
    have general : mergeMove? ends head rest = none := by simp [mergeMove?,reads,guard,failure]
    rw [change?,special,general]
    split <;> rfl

/-- Lines at which no rule fires stay where they are, if they are the first ones. -/
theorem isPrefix_optimize (inert : ∀ i ∈ front, IsInert i) (opens : front <+: code) : front <+: (optimize t supply code).code := by
  apply optimize_induction (P := fun later => front <+: later) (fun _ => True)
  · intro s made _ opens
    have beyond : front.length ≤ s.line := by
      by_contra inside
      have inside : s.line < front.length := Nat.lt_of_not_le inside
      obtain ⟨behind,whole⟩ := opens
      have split : s.code.drop s.line = front[s.line] :: (front.drop (s.line + 1) ++ behind) := by
        rw [← whole,List.drop_append_of_le_length (Nat.le_of_lt inside),List.drop_eq_getElem_cons inside,List.cons_append]
      have quiet : changeAt? t supply s.code s.line = none := by
        rw [changeAt?,split]
        exact change?_of_isInert (inert _ (List.getElem_mem inside))
      exact Option.some_ne_none _ (made.symm.trans quiet)
    exact (List.prefix_take_iff.2 ⟨opens,beyond⟩).trans (List.prefix_append _ _)
  · exact fun _ _ => trivial
  · exact opens

end Peephole

/-! ### Frames of a compilation -/

namespace Pipeline
open Peephole (labels)
variable {config : Config} {ps : List OwningProcedure} {p : OwningProcedure} {reporter : Reporter} {result : Logged Result}
  {fs : List CodeFragment} {f : CodeFragment}

theorem toMethod_of_select {t : Machine.Target} {supply : RegisterSupply} {p : Procedure} {frames : Bool} {f : CodeFragment}
    (accepted : (Selection.select t supply p frames).outcome = .ok f) : f.toMethod = p.toMethod := by
  cases came : (tileBody t p.body (supply.adoptAll (virtualRegisters p.body))).outcome with
  | error e =>
    simp only [Selection.select,came] at accepted
    cases accepted
  | ok pair =>
    cases frames with
    | true =>
      cases framed : frame? p.toMethod (tileBody t p.body (supply.adoptAll (virtualRegisters p.body))).code <;>
        simp only [Selection.select,came,if_true,framed] at accepted <;> cases accepted
      rfl
    | false =>
      simp only [Selection.select,came] at accepted
      cases accepted
      rfl

theorem finished_toMethod (config : Config) (g : CodeFragment) : (finished config g).toMethod = g.toMethod := by
  unfold finished allocated optimizeOne
  cases config.verbose <;> cases config.optLevel.runsPeephole <;> rfl

/-- A fragment of a compilation with frames: what is between the prologue and the epilogue is covered
    from the body, and then all of it is optimized, or not. -/
theorem framed_of_run (framed : config.procedureFrames = true) (made : ∃ g, (selection config p).outcome = .ok g ∧ f = finished config g) :
    f.toMethod = p.toMethod ∧ ∃ prologue code, Machine.prologue? p.toMethod = some prologue ∧
      Yields (tileBody .sparc p.body) (p.supply.adoptAll (virtualRegisters p.body)) () code f.supply ∧
      f.code = if config.optLevel.runsPeephole then
          (Peephole.optimize .sparc f.supply (prologue ++ code ++ Machine.epilogue p.toMethod)).code
        else prologue ++ code ++ Machine.epilogue p.toMethod := by
  obtain ⟨g,accepted,rfl⟩ := made
  rw [selection,target_eq] at accepted
  have same := toMethod_of_select accepted
  obtain ⟨code,yields,is⟩ := Selection.yields_of_select accepted
  rw [framed,if_pos rfl] at is
  obtain ⟨prologue,opened,whole⟩ := Option.map_eq_some_iff.1 is
  refine ⟨(finished_toMethod config g).trans same,prologue,code,opened,?_,?_⟩
  · rw [finished,allocated,optimizeOne_supply]
    exact yields
  · rw [finished,allocated,optimizeOne_supply,optimizeOne_code,whole]

/-! ### Labels of frames -/

theorem labels_prologue {m : Method} {prologue : List Instruction} (opened : Machine.prologue? m = some prologue) :
    labels prologue = [⟨m.name⟩] := by
  unfold Machine.prologue? at opened
  split at opened
  · cases opened
    rfl
  · obtain ⟨size,-,rfl⟩ := Option.map_eq_some_iff.1 opened
    rfl

theorem labels_epilogue (m : Method) : labels (Machine.epilogue m) = [⟨m.epilogueLabel⟩] := by
  unfold Machine.epilogue
  split <;> rfl

theorem labels_of_framed {prologue code : List Instruction} (opened : Machine.prologue? p.toMethod = some prologue)
    (is : f.code = if config.optLevel.runsPeephole then
        (Peephole.optimize .sparc f.supply (prologue ++ code ++ Machine.epilogue p.toMethod)).code
      else prologue ++ code ++ Machine.epilogue p.toMethod) :
    labels f.code = ⟨p.name⟩ :: labels code ++ [⟨p.epilogueLabel⟩] := by
  have whole : labels (prologue ++ code ++ Machine.epilogue p.toMethod) = ⟨p.name⟩ :: labels code ++ [⟨p.epilogueLabel⟩] := by
    have opening := labels_prologue opened
    have ending := labels_epilogue p.toMethod
    simp only [labels,List.filterMap_append] at opening ending ⊢
    rw [opening,ending]
    rfl
  rw [is]
  split
  · rw [Peephole.labels_optimize,whole]
  · exact whole

/-- The frames of a compilation are those of its procedures. -/
theorem frameLabels_of_run (framed : config.procedureFrames = true) (ran : runOwning config ⟨ps⟩ reporter = some result)
    (fragments : result.value.fragments = some fs) :
    (fs.flatMap fun f => f.frameLabels) = (ps.map fun p => p.toMethod).flatMap Method.frameLabels := by
  have each := (forall₂_of_run ran fragments).imp fun _ _ => framed_of_run framed
  have methods : fs.map (fun f => f.toMethod) = ps.map fun p => p.toMethod := by
    clear ran fragments
    induction each with
    | nil => rfl
    | cons one _ ih => rw [List.map_cons,List.map_cons,one.1,ih]
  rw [← methods,List.flatMap_map]

end Pipeline

open Pipeline
open Peephole (labels)

/-- In a compilation with frames, optimized or not, the first and the last label of each
    fragment are those of its frame. The labels of all frames are distinct exactly if no
    name of a method straddles another one and none names an epilogue. This is so if there
    are no dollar signs in the names of classes and no method is named like an epilogue. -/
theorem runOwning_frameLabels {config : Config} {ps : List OwningProcedure} {reporter : Reporter} {result : Logged Pipeline.Result}
    {fs : List CodeFragment} (framed : config.procedureFrames = true) (distinct : (ps.map fun p => p.key).Nodup)
    (ran : runOwning config ⟨ps⟩ reporter = some result) (fragments : result.value.fragments = some fs) :
    List.Forall₂ (fun p f => f.toMethod = p.toMethod ∧ ∃ code,
      Yields (tileBody .sparc p.body) (p.supply.adoptAll (virtualRegisters p.body)) () code f.supply ∧
      labels f.code = ⟨f.name⟩ :: labels code ++ [⟨f.epilogueLabel⟩]) ps fs ∧
    ((fs.flatMap fun f => f.frameLabels).Nodup ↔ ∀ p ∈ ps, ∀ q ∈ ps, ¬ p.Straddles q.toMethod ∧ ¬ p.NamesEpilogue q.toMethod) ∧
    ((∀ p ∈ ps, '$' ∉ p.className.toList) → (∀ p ∈ ps, ∀ x, p.methodName ≠ Name.qualified [x,"epilogueBegin"]) →
      (fs.flatMap fun f => f.frameLabels).Nodup) := by
  have each := (forall₂_of_run ran fragments).imp fun _ _ => framed_of_run framed
  have keys : ((ps.map fun p => p.toMethod).map Method.key).Nodup := by rwa [List.map_map]
  have free := Method.nodup_frameLabels_iff keys
  have plain := Method.free_of_plain (ps.map fun p => p.toMethod)
  rw [← frameLabels_of_run framed ran fragments] at free
  simp only [List.forall_mem_map] at free plain
  refine ⟨each.imp ?_,free,fun classes methods => free.2 (plain classes methods)⟩
  rintro p f ⟨same,prologue,code,opened,yields,is⟩
  refine ⟨same,code,yields,?_⟩
  rw [labels_of_framed opened is,Method.name,Method.epilogueLabel,same]
  rfl

/-- A method without statements. -/
def idle (className methodName : String) : Procedure where
  className := className
  methodName := methodName
  body := []

theorem whole_idle (names : List (String × String)) :
    Whole {} (names.map fun name => { toProcedure := idle name.1 name.2 }) := by
  intro p member
  obtain ⟨name,-,rfl⟩ := List.mem_map.1 member
  exact ⟨_,rfl⟩

theorem runOwning_frameLabels_sisters : ∃ result fs, run {} ⟨[idle "Fac" "left",idle "Fac" "right"]⟩ {} = some result ∧
    result.value.fragments = some fs ∧ (fs.flatMap fun f => f.frameLabels).Nodup := by
  obtain ⟨result,ran,fragments⟩ := run_of_whole (whole_idle [("Fac","left"),("Fac","right")])
  obtain ⟨-,-,plain⟩ := runOwning_frameLabels rfl (by decide) ran fragments
  refine ⟨result,_,ran,fragments,plain (by decide) ?_⟩
  have plain : ∀ name ∈ [("Fac","left"),("Fac","right")], '$' ∉ name.2.toList := by decide
  intro p member x
  obtain ⟨name,among,rfl⟩ := List.mem_map.1 member
  exact Name.ne_qualified_pair (plain name among) x _

/-- The joint of the one name is inside the class of the other. -/
theorem not_runOwning_frameLabels_nested : ([idle "A$B" "C",idle "A" "B$C"].map fun p => p.key).Nodup ∧
    ∃ result fs, run {} ⟨[idle "A$B" "C",idle "A" "B$C"]⟩ {} = some result ∧ result.value.fragments = some fs ∧
      ¬ (fs.flatMap fun f => f.frameLabels).Nodup := by
  obtain ⟨result,ran,fragments⟩ := run_of_whole (whole_idle [("A$B","C"),("A","B$C")])
  refine ⟨by decide,result,_,ran,fragments,?_⟩
  rw [frameLabels_of_run rfl ran fragments]
  decide

/-! ### Allocations of frames -/

namespace Machine

/-- The line that allocates a frame. -/
def allocation (size locals : Nat) : Instruction :=
  (Instruction.plain s!"save %sp, -{size}, %sp" [] []).withNote s!"{locals} locals"

theorem textWith_allocation (registers : Option RegisterMap) (size locals : Nat) :
    (allocation size locals).textWith registers = s!"save %sp, -{size}, %sp ! {locals} locals" := by
  have plain : Template.mark ∉ (s!"save %sp, -{size}, %sp").toList := by
    have digits : Template.mark ∉ (toString size).toList := by
      rw [Nat.toString_eq_ofList_toDigits,String.toList_ofList]
      exact Template.mark_not_mem fun _ member => Nat.isDigit_of_mem_toDigits (by omega) (Nat.le_refl 10) member
    have front : Template.mark ∉ "save %sp, -".toList := by decide
    have behind : Template.mark ∉ ", %sp".toList := by decide
    show Template.mark ∉ ("save %sp, -" ++ toString size ++ ", %sp").toList
    simp only [String.toList_append,List.mem_append,digits,front,behind,or_false,not_false_iff]
  show Template.fill _ _ ++ " ! " ++ _ = _
  rw [Template.fill_of_plain plain]
  simp [toString,String.append_assoc]

theorem line_label (f : CodeFragment) (name : Label) : f.line (.label name) = name.name ++ ":\n" := by
  have behind : ":\n" = ":" ++ "\n" := rfl
  show "" ++ (name.name ++ ":") ++ "\n" = _
  rw [behind,String.empty_append,String.append_assoc]

theorem line_allocation (f : CodeFragment) (size locals : Nat) :
    f.line (allocation size locals) = s!"    save %sp, -{size}, %sp ! {locals} locals\n" := by
  have front : "    save %sp, -" = "    " ++ "save %sp, -" := rfl
  have behind : " locals\n" = " locals" ++ "\n" := rfl
  show "    " ++ (allocation size locals).textWith f.registers ++ "\n" = _
  rw [textWith_allocation]
  simp only [front,behind,toString,String.append_assoc]

theorem isInert_allocation (size locals : Nat) : Peephole.IsInert (allocation size locals) := by
  cases Instruction.hasAction ((Instruction.action?_withNote _ _).trans (Instruction.action?_save size)) with
  | special kind _ uses _ => exact .inr ⟨kind,uses⟩

end Machine

/-- A frame is allocated on the second line, optimized or not. -/
theorem Pipeline.lines_of_framed {config : Config} {p : OwningProcedure} {f : CodeFragment} (framed : config.procedureFrames = true)
    (made : ∃ g, (selection config p).outcome = .ok g ∧ f = finished config g) (inner : f.isEntry = false) :
    ∃ size, Machine.frameSize? f.locals.toNat = some size ∧
      (f.code.map f.line).take 2 = [f.name ++ ":\n",s!"    save %sp, -{size}, %sp ! {f.locals.toNat} locals\n"] := by
  obtain ⟨same,prologue,code,opened,-,is⟩ := framed_of_run framed made
  rw [← same,Machine.prologue?,if_neg (by simp [inner])] at opened
  obtain ⟨size,sized,rfl⟩ := Option.map_eq_some_iff.1 opened
  have inert : ∀ i ∈ [.label ⟨f.name⟩,Machine.allocation size f.locals.toNat], Peephole.IsInert i := by
    intro i member
    rcases List.mem_cons.1 member with rfl | last
    · exact .inl rfl
    · exact List.mem_singleton.1 last ▸ Machine.isInert_allocation _ _
  have opens : [.label ⟨f.name⟩,Machine.allocation size f.locals.toNat] <+: f.code := by
    rw [is,List.append_assoc]
    split
    · exact Peephole.isPrefix_optimize inert (List.prefix_append _ _)
    · exact List.prefix_append _ _
  obtain ⟨behind,whole⟩ := opens
  refine ⟨size,sized,?_⟩
  rw [← whole]
  simp only [List.cons_append,List.nil_append,List.map_cons,List.take_succ_cons,List.take_zero,Machine.line_label,Machine.line_allocation]

/-- In a compilation with frames, optimized or not, the second line of each fragment but
    the entry allocates a frame of the size for its locals. An instruction has room for
    that number exactly if there are at most 1001 locals. -/
theorem runOwning_allocation {config : Config} {ps : List OwningProcedure} {reporter : Reporter} {result : Logged Pipeline.Result}
    {fs : List CodeFragment} {f : CodeFragment} (framed : config.procedureFrames = true)
    (ran : runOwning config ⟨ps⟩ reporter = some result) (fragments : result.value.fragments = some fs) (member : f ∈ fs)
    (inner : f.isEntry = false) :
    ∃ size, Machine.frameSize? f.locals.toNat = some size ∧
      (f.code.map f.line).take 2 = [f.name ++ ":\n",s!"    save %sp, -{size}, %sp ! {f.locals.toNat} locals\n"] ∧
      (Machine.Target.sparc.immediateFits (-size) = true ↔ f.locals.toNat ≤ 1001) := by
  obtain ⟨p,-,made⟩ := made_of_run ran fragments member
  obtain ⟨size,sized,lines⟩ := lines_of_framed framed made inner
  exact ⟨size,sized,lines,immediateFits_iff.trans (Machine.fits_frameSize_iff sized)⟩

/-- A method without statements and with a number of locals. -/
def roomy (locals : UInt64) : Procedure where
  className := "Test"
  methodName := "roomy"
  locals := locals
  body := []

theorem runOwning_allocation_largest : ∃ result f, run {} ⟨[roomy 1001]⟩ {} = some result ∧ result.value.fragments = some [f] ∧
    ∃ size, Machine.frameSize? f.locals.toNat = some size ∧
      (f.code.map f.line).take 2 = [f.name ++ ":\n",s!"    save %sp, -{size}, %sp ! {f.locals.toNat} locals\n"] ∧
      Machine.Target.sparc.immediateFits (-size) = true := by
  obtain ⟨g,came,same⟩ : ∃ g, (selection {} { toProcedure := roomy 1001 }).outcome = .ok g ∧ g.toMethod = (roomy 1001).toMethod :=
    ⟨_,rfl,rfl⟩
  have kept := (finished_toMethod {} g).trans same
  obtain ⟨result,ran,fragments⟩ := run_alone came
  obtain ⟨size,sized,lines,fits⟩ :=
    runOwning_allocation rfl ran fragments List.mem_cons_self (congrArg Method.isEntry kept)
  refine ⟨result,_,ran,fragments,size,sized,lines,fits.2 ?_⟩
  rw [congrArg Method.locals kept]
  decide

/-- One local more, and the frame is too large for the instruction that allocates it. -/
theorem not_runOwning_allocation_larger : ∃ result f, run {} ⟨[roomy 1002]⟩ {} = some result ∧ result.value.fragments = some [f] ∧
    f.isEntry = false ∧ (f.code.map f.line).take 2 = ["Test$roomy:\n","    save %sp, -4104, %sp ! 1002 locals\n"] ∧
    Machine.Target.sparc.immediateFits (-4104) = false := by
  obtain ⟨g,came,same⟩ : ∃ g, (selection {} { toProcedure := roomy 1002 }).outcome = .ok g ∧ g.toMethod = (roomy 1002).toMethod :=
    ⟨_,rfl,rfl⟩
  have kept := (finished_toMethod {} g).trans same
  have inner := congrArg Method.isEntry kept
  obtain ⟨result,ran,fragments⟩ := run_alone came
  obtain ⟨size,sized,lines⟩ := lines_of_framed rfl ⟨g,came,rfl⟩ inner
  rw [congrArg Method.locals kept] at sized lines
  rw [Method.name,kept] at lines
  cases (show some 4104 = some size from sized)
  exact ⟨result,_,ran,fragments,inner,lines,rfl⟩

end SparcBackend
