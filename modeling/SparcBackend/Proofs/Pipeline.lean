import SparcBackend.Proofs.Accounting
import SparcBackend.Proofs.Allocation.Sharing
import SparcBackend.Proofs.Peephole.Behaviour
import SparcBackend.Proofs.Peephole.DelaySlots

/-!
The fragments that a compilation leaves have been allocated by lifetimes of their own
code, whether it was optimized before or not, and whatever registers their procedures
owned before.
-/
namespace SparcBackend

namespace Pipeline
variable {config : Config} {ps : List OwningProcedure} {reporter : Reporter} {result : Logged Result} {fs : List CodeFragment}
  {f : CodeFragment}

/-- Every fragment of a compilation was selected for a procedure, with what that one owns,
    and optimized if so configured. -/
theorem selected_of_run (ran : runOwning config ⟨ps⟩ reporter = some result) (fragments : result.value.fragments = some fs)
    (member : f ∈ fs) : ∃ p ∈ ps, ∃ g,
      (Selection.select .sparc p.supply p.toProcedure config.procedureFrames).outcome = .ok g ∧
      f.code = if config.optLevel.runsPeephole then (Peephole.optimize .sparc g.supply g.code).code else g.code := by
  obtain ⟨p,listed,g,accepted,rfl⟩ := made_of_run ran fragments member
  rw [selection,target_eq] at accepted
  exact ⟨p,listed,g,accepted,optimizeOne_code config g⟩

/-- Every fragment of a compilation has machine registers by the lifetimes of its code. -/
theorem registers_of_run (ran : runOwning config ⟨ps⟩ reporter = some result) (fragments : result.value.fragments = some fs)
    (member : f ∈ fs) : f.registers = some (Allocation.ofCode f.supply f.code).map := by
  obtain ⟨-,-,g,-,rfl⟩ := made_of_run ran fragments member
  simp only [Allocation.ofCode,finished,allocated,optimizeOne_fresh]

end Pipeline

open Allocation Machine

/-- In what a compilation leaves, optimized or not and even if registers ran out, no value
    is overwritten by one that another virtual register holds in the same machine register,
    exactly if this is so on the lines above the first definition of its register and below
    the last mention: on all other lines the machine register is held for it. Where all
    jumps lead forward no value gets to such lines. -/
theorem runOwning_intact {config : Config} {ps : List OwningProcedure} {reporter : Reporter} {result : Logged Pipeline.Result}
    {fs : List CodeFragment} {f : CodeFragment} (ran : Pipeline.runOwning config ⟨ps⟩ reporter = some result)
    (fragments : result.value.fragments = some fs) (member : f ∈ fs) :
    ∃ m, f.registers = some m ∧
      (Intact f.supply f.code m ↔
        ∀ line r s, r ∈ f.supply.children → s ∈ f.supply.children → r ≠ s → Crosses f.code r s line → ¬ Holds f.code r line →
          ¬ Shares m r s) ∧
      (LeadsForward f.code → Intact f.supply f.code m) := by
  have assigned := Pipeline.registers_of_run ran fragments member
  have sound := ofCode_sound f.supply f.code
  exact ⟨_,assigned,sound.intact_iff,sound.intact_of_leadsForward⟩

theorem exists_of_run {config : Config} {ps : List OwningProcedure} {p : List CodeFragment → Bool}
    (evaluates : ((Pipeline.runOwning config ⟨ps⟩ {}).bind fun result => result.value.fragments).any p = true) :
    ∃ result fs, Pipeline.runOwning config ⟨ps⟩ {} = some result ∧ result.value.fragments = some fs ∧ p fs = true := by
  obtain ⟨fs,among,holds⟩ := (Option.any_eq_true _ _).1 evaluates
  obtain ⟨result,ran,fragments⟩ := Option.bind_eq_some_iff.1 among
  exact ⟨result,fs,ran,fragments,holds⟩

/-- The procedure `successor`, which has minted a register before. -/
def laterSuccessor : OwningProcedure where
  toProcedure := successor
  supply := { next := 1,children := [⟨"t0000"⟩] }

theorem runOwning_intact_laterSuccessor : ∃ result f m, Pipeline.runOwning {} ⟨[laterSuccessor]⟩ {} = some result ∧
    result.value.fragments = some [f] ∧ ⟨"t0000"⟩ ∈ f.supply.children ∧ f.registers = some m ∧ Intact f.supply f.code m := by
  have evaluates : ((Pipeline.runOwning {} ⟨[laterSuccessor]⟩ {}).bind fun result => result.value.fragments).any
      (fun fs => fs.length = 1 && fs.all fun f => LeadsForward f.code && f.supply.owns ⟨"t0000"⟩) = true := by decide +kernel
  obtain ⟨result,fs,ran,fragments,holds⟩ := exists_of_run evaluates
  simp only [Bool.and_eq_true,decide_eq_true_eq,List.all_eq_true] at holds
  obtain ⟨f,rfl⟩ := List.length_eq_one_iff.1 holds.1
  obtain ⟨forward,owns⟩ := holds.2 f List.mem_cons_self
  obtain ⟨m,assigned,-,intact⟩ := runOwning_intact ran fragments List.mem_cons_self
  exact ⟨result,f,m,ran,fragments,List.contains_iff_mem.1 owns,assigned,intact forward⟩

/-- So it is in particular where no procedure owns anything before. -/
theorem run_intact {config : Config} {program : Program} {reporter : Reporter} {result : Logged Pipeline.Result}
    {fs : List CodeFragment} {f : CodeFragment} (ran : Pipeline.run config program reporter = some result)
    (fragments : result.value.fragments = some fs) (member : f ∈ fs) :
    ∃ m, f.registers = some m ∧
      (Intact f.supply f.code m ↔
        ∀ line r s, r ∈ f.supply.children → s ∈ f.supply.children → r ≠ s → Crosses f.code r s line → ¬ Holds f.code r line →
          ¬ Shares m r s) ∧
      (LeadsForward f.code → Intact f.supply f.code m) := by
  have assigned := Pipeline.registers_of_run ran fragments member
  have sound := ofCode_sound f.supply f.code
  exact ⟨_,assigned,sound.intact_iff,sound.intact_of_leadsForward⟩

/-- A loop that reads one value once on each round, and then another one twice. -/
def roundabout : Procedure where
  className := "Test"
  methodName := "roundabout"
  body := [.move (.named "x") (.named "%i0"),.label ⟨"LOOP"⟩,.move (.named "%i1") (.named "x"),.move (.named "y") (.named "%i2"),
    .move (.named "%i3") (.named "y"),.move (.named "%i4") (.named "y"),.jump ⟨"LOOP"⟩]

/-- The instructions of the loop, which the optimizer leaves as they are. -/
def roundaboutCode : List Instruction :=
  [Peephole.copy (.register ⟨"%i0"⟩) ⟨"x"⟩,.label ⟨"LOOP"⟩,Peephole.copy (.register ⟨"x"⟩) ⟨"%i1"⟩,
    Peephole.copy (.register ⟨"%i2"⟩) ⟨"y"⟩,Peephole.copy (.register ⟨"y"⟩) ⟨"%i3"⟩,Peephole.copy (.register ⟨"y"⟩) ⟨"%i4"⟩,
    Machine.jump ⟨"LOOP"⟩,Machine.nop]

/-- The value of `x` goes round past the line that writes `y`. -/
theorem crosses_roundabout : Crosses roundaboutCode ⟨"x"⟩ ⟨"y"⟩ 3 := by
  have first : Carries roundaboutCode ⟨"x"⟩ 1 := .start rfl rfl (.onward rfl (by decide +kernel))
  have second : Carries roundaboutCode ⟨"x"⟩ 2 := .step first rfl rfl (.onward rfl (by decide +kernel))
  have third : Carries roundaboutCode ⟨"x"⟩ 3 := .step second rfl rfl (.onward rfl (by decide +kernel))
  have around : Flow roundaboutCode 6 1 := .jump rfl (.inl (by decide +kernel)) List.mem_cons_self rfl
  have top : Live roundaboutCode ⟨"x"⟩ 1 := .step rfl rfl (.onward rfl (by decide +kernel)) (.read rfl rfl)
  have bottom : Live roundaboutCode ⟨"x"⟩ 6 := .step rfl rfl around top
  have middle : Live roundaboutCode ⟨"x"⟩ 5 := .step rfl rfl (.onward rfl (by decide +kernel)) bottom
  exact ⟨third,⟨_,rfl,rfl,rfl⟩,4,.onward rfl (by decide +kernel),.step rfl rfl (.onward rfl (by decide +kernel)) middle⟩

theorem not_run_intact_roundabout : ∃ result f m, Pipeline.run { procedureFrames := false } ⟨[roundabout]⟩ {} = some result ∧
    result.value.fragments = some [f] ∧ f.registers = some m ∧
    (Allocation.firstFit f.code f.supply f.lifetimes Machine.localRegisters).value.exhausted = none ∧ ¬ Intact f.supply f.code m := by
  have evaluates : ((Pipeline.run { procedureFrames := false } ⟨[roundabout]⟩ {}).bind fun result => result.value.fragments).any
      (fun fs => fs.length = 1 && fs.all fun f => f.code = roundaboutCode && f.supply.children = [⟨"x"⟩,⟨"y"⟩] &&
        f.registers = some (.ofList [(⟨"x"⟩,⟨"%l0"⟩),(⟨"y"⟩,⟨"%l0"⟩)]) &&
        (Allocation.firstFit f.code f.supply f.lifetimes Machine.localRegisters).value.exhausted = none) = true := by decide +kernel
  obtain ⟨result,fs,ran,fragments,holds⟩ := exists_of_run evaluates
  simp only [Bool.and_eq_true,decide_eq_true_eq,List.all_eq_true] at holds
  obtain ⟨f,rfl⟩ := List.length_eq_one_iff.1 holds.1
  obtain ⟨⟨⟨code,children⟩,assigned⟩,enough⟩ := holds.2 f List.mem_cons_self
  refine ⟨result,f,_,ran,fragments,assigned,enough,?_⟩
  intro intact
  refine intact 3 ⟨"x"⟩ ⟨"y"⟩ (by simp [children]) (by simp [children]) (by decide) (code.symm ▸ crosses_roundabout) ?_
  exact ⟨⟨"%l0"⟩,by decide +kernel,by decide +kernel⟩

/-- Slots are filled in what is selected, and they are in what the optimizer makes of it and
    in all that it makes on the way. -/
theorem fillsSlots_of_select {config : Config} {supply : RegisterSupply} {p : Procedure} {f g : CodeFragment}
    (accepted : (Selection.select .sparc supply p config.procedureFrames).outcome = .ok g)
    (is : f.code = if config.optLevel.runsPeephole then (Peephole.optimize .sparc g.supply g.code).code else g.code) :
    FillsSlots f.code ∧ (∀ s ∈ Peephole.sweeps .sparc g.supply g.code, FillsSlots s.code) ∧
      ∀ s ∈ Peephole.sites .sparc g.supply g.code, FillsSlots s.code ∧ FillsSlots s.after := by
  have start := select_filled accepted
  obtain ⟨last,sweeps,sites⟩ := Peephole.fillsSlots_optimize g.supply start
  refine ⟨?_,sweeps,sites⟩
  rw [is]
  split
  · exact last
  · exact start.fillsSlots

/-- In what a compilation leaves, every jump, branch and call has a line behind it that does
    nothing, and no other line does nothing. So it is before and behind each change that
    the optimizer makes on the way. -/
theorem runOwning_fillsSlots {config : Config} {ps : List OwningProcedure} {reporter : Reporter} {result : Logged Pipeline.Result}
    {fs : List CodeFragment} {f : CodeFragment} (ran : Pipeline.runOwning config ⟨ps⟩ reporter = some result)
    (fragments : result.value.fragments = some fs) (member : f ∈ fs) :
    FillsSlots f.code ∧ ∃ p ∈ ps, ∃ g,
      (Selection.select .sparc p.supply p.toProcedure config.procedureFrames).outcome = .ok g ∧
      f.code = (if config.optLevel.runsPeephole then (Peephole.optimize .sparc g.supply g.code).code else g.code) ∧
      (∀ s ∈ Peephole.sweeps .sparc g.supply g.code, FillsSlots s.code) ∧
      ∀ s ∈ Peephole.sites .sparc g.supply g.code, FillsSlots s.code ∧ FillsSlots s.after := by
  obtain ⟨p,listed,g,accepted,is⟩ := Pipeline.selected_of_run ran fragments member
  obtain ⟨filled,sweeps,sites⟩ := fillsSlots_of_select accepted is
  exact ⟨filled,p,listed,g,accepted,is,sweeps,sites⟩

theorem runOwning_fillsSlots_laterSuccessor : ∃ result f, Pipeline.runOwning {} ⟨[laterSuccessor]⟩ {} = some result ∧
    result.value.fragments = some [f] ∧ ⟨"t0000"⟩ ∈ f.supply.children ∧ FillsSlots f.code := by
  have evaluates : ((Pipeline.runOwning {} ⟨[laterSuccessor]⟩ {}).bind fun result => result.value.fragments).any
      (fun fs => fs.length = 1 && fs.all fun f => f.supply.owns ⟨"t0000"⟩) = true := by decide +kernel
  obtain ⟨result,fs,ran,fragments,holds⟩ := exists_of_run evaluates
  simp only [Bool.and_eq_true,decide_eq_true_eq,List.all_eq_true] at holds
  obtain ⟨f,rfl⟩ := List.length_eq_one_iff.1 holds.1
  have owns := List.contains_iff_mem.1 (holds.2 f List.mem_cons_self)
  exact ⟨result,f,ran,fragments,owns,(runOwning_fillsSlots ran fragments List.mem_cons_self).1⟩

/-- So it is in particular where no procedure owns anything before. -/
theorem run_fillsSlots {config : Config} {program : Program} {reporter : Reporter} {result : Logged Pipeline.Result}
    {fs : List CodeFragment} {f : CodeFragment} (ran : Pipeline.run config program reporter = some result)
    (fragments : result.value.fragments = some fs) (member : f ∈ fs) :
    FillsSlots f.code ∧ ∃ p ∈ program.procedures, ∃ g, (Selection.select .sparc {} p config.procedureFrames).outcome = .ok g ∧
      f.code = (if config.optLevel.runsPeephole then (Peephole.optimize .sparc g.supply g.code).code else g.code) ∧
      (∀ s ∈ Peephole.sweeps .sparc g.supply g.code, FillsSlots s.code) ∧
      ∀ s ∈ Peephole.sites .sparc g.supply g.code, FillsSlots s.code ∧ FillsSlots s.after := by
  obtain ⟨_,listed,g,accepted,is⟩ := Pipeline.selected_of_run ran fragments member
  obtain ⟨p,there,rfl⟩ := List.mem_map.1 listed
  obtain ⟨filled,sweeps,sites⟩ := fillsSlots_of_select accepted is
  exact ⟨filled,p,there,g,accepted,is,sweeps,sites⟩

end SparcBackend
