import SparcBackend.Proofs.Machine.Linearity
import SparcBackend.Proofs.Peephole.Simulation

/-!
The optimizer keeps registers linear. A change leaves a register at the stage at which it
was behind the old lines, or it takes its definition and its only use away together.
-/
namespace SparcBackend.Peephole
open Machine (Action Address Source)
variable {ends : EndsAfter} {tail before new : List Instruction} {loss : Option Loss} {r : Register} {s t u : Stage}

/-- Two lines of which the second looks at what the first wrote, and one line that does
    without: the register is written and looked at as before, or no longer at all. -/
theorem scan_window {head reader now : Instruction} {n : Nat} (writes : now.writeCount r = reader.writeCount r)
    (consumes : now.consumeCount r = head.consumeCount r + n) (looks : n + head.writeCount r ≤ reader.consumeCount r)
    (apart : head.writeCount r = 0 → n = reader.consumeCount r) (scans : Stage.scan r s [head,reader] = some u) :
    Stage.scan r s [now] = some u ∨ (s = .absent ∧ u = .spent ∧ Stage.scan r s [now] = some .absent) := by
  obtain ⟨t,one,two⟩ := Stage.scan_cons.1 scans
  rw [Stage.scan_single] at two ⊢
  rw [writes,consumes]
  rcases Stage.next_eq_some.1 one with ⟨unwritten,unseen,rfl⟩ | ⟨rfl,written,unseen,rfl⟩ | ⟨rfl,unwritten,seen,rfl⟩
  · left
    rw [unseen,apart unwritten,Nat.zero_add]
    exact two
  · right
    rcases Stage.next_eq_some.1 two with ⟨-,nothing,-⟩ | ⟨absurdity,-⟩ | ⟨-,unwritten,once,rfl⟩
    · omega
    · cases absurdity
    · obtain rfl : n = 0 := by omega
      rw [unwritten,unseen]
      exact ⟨rfl,rfl,rfl⟩
  · left
    rcases Stage.next_eq_some.1 two with ⟨unwritten',nothing,rfl⟩ | ⟨absurdity,-⟩ | ⟨absurdity,-⟩
    · rw [unwritten',seen,apart unwritten,nothing]
      rfl
    · cases absurdity
    · cases absurdity

/-- The second line looks at nothing but what the first wrote, and the new line looks at
    what the first looked at. -/
theorem scan_copied {head reader now : Instruction} {d x : Register} {source wanted result : Source}
    (computes : head.action? = some (.assign d source)) (reads : reader.action? = some (.assign x wanted))
    (folded : now.action? = some (.assign x result)) (sees : wanted.operands = [.register d])
    (same : result.operands = source.operands) (scans : Stage.scan r s [head,reader] = some u) :
    Stage.scan r s [now] = some u ∨ (s = .absent ∧ u = .spent ∧ Stage.scan r s [now] = some .absent) := by
  have looks : 0 + head.writeCount r = reader.consumeCount r := by
    rw [Instruction.writeCount_eq computes,Instruction.consumeCount_eq reads]
    simp [Action.operands,sees,List.count_cons,Action.destination?]
  refine scan_window ?_ ?_ looks.le (fun unwritten => by omega) scans
  · rw [Instruction.writeCount_eq folded,Instruction.writeCount_eq reads]
    rfl
  · rw [Instruction.consumeCount_eq folded,Instruction.consumeCount_eq computes]
    simp only [Action.operands,same,Nat.add_zero]

/-- No other register is found where `x` is read in place of `d`, and `d` is found no more. -/
theorem replaced_eq_iff {d x : Register} (other : r ≠ x) (operand : Operand) :
    (if operand.isRegister d then Operand.register x else operand) = .register r ↔ operand = .register r ∧ r ≠ d := by
  by_cases same : operand = .register d
  · subst same
    simp [Operand.isRegister,eq_comm,other]
  · simp only [Operand.isRegister,same,decide_false,Bool.false_eq_true,if_false,iff_self_and]
    rintro rfl rfl
    exact same rfl

theorem count_replaced {d x : Register} (other : r ≠ x) (operands : List Operand) :
    (operands.map fun operand => if operand.isRegister d then .register x else operand).count (.register r) =
      if r = d then 0 else operands.count (.register r) := by
  induction operands with
  | nil => simp
  | cons operand rest ih =>
    rw [List.map_cons,List.count_cons,ih,List.count_cons]
    simp only [beq_iff_eq,replaced_eq_iff other]
    by_cases dropped : r = d <;> simp [dropped]

/-- Once `x` is read in place of `d`, there is a look less at `d`, and other registers are
    looked at as often as before. -/
theorem count_mapUses {i : Instruction} {a : Action} {d x : Register} (means : i.action? = some a) (reads : i.reads d = true)
    (other : r ≠ x) :
    let now := (a.mapUses fun operand => if operand.isRegister d then .register x else operand).operands.count (.register r)
    if r = d then now < a.operands.count (.register r) else now = a.operands.count (.register r) := by
  have member := Instruction.reads_iff.1 reads
  rw [Instruction.uses_eq means,← List.count_pos_iff] at member
  simp only [Action.operands_eq,Action.values_mapUses,Action.place_mapUses,List.count_append,count_replaced other]
  split
  · rename_i same
    subst same
    omega
  · rfl

/-- The stage behind the new lines of a change. -/
theorem Rewrite.scan (rewrite : Rewrite ends tail before new loss) (other : r ≠ Machine.callResultRegister)
    (scans : Stage.scan r s before = some u) :
    Stage.scan r s new = some u ∨ (s = .absent ∧ u = .spent ∧ Stage.scan r s new = some .absent) := by
  cases rewrite with
  | @neutral head new d op left right value computes isNeutral copies =>
    left
    rw [Stage.scan_single,Instruction.writeCount_eq computes,Instruction.consumeCount_eq computes] at scans
    rw [Stage.scan_single,Instruction.writeCount_eq copies,Instruction.consumeCount_eq copies]
    cases isNeutral <;> simpa [Action.operands,Source.operands,Action.destination?,List.count_cons] using scans
  | load computes reads folded | merge computes reads folded => exact scan_copied computes reads folded rfl rfl scans
  | @store head next new d base offset value sign computes stores folded =>
    have looks : [value].count (.register r) + head.writeCount r = next.consumeCount r := by
      rw [Instruction.writeCount_eq computes,Instruction.consumeCount_eq stores]
      simp [Action.operands,Address.operands,List.count_cons,Action.destination?]
      omega
    refine scan_window ?_ ?_ looks.le (fun unwritten => by omega) scans
    · rw [Instruction.writeCount_eq folded,Instruction.writeCount_eq stores]
      rfl
    · rw [Instruction.consumeCount_eq folded,Instruction.consumeCount_eq computes]
      simp [Action.operands,Source.operands,Address.operands,List.count_cons]
  | @jump head nops target jumps idle =>
    have ignored : ∀ i ∈ head :: nops, i.Ignores r := by
      intro i member
      rcases List.mem_cons.1 member with rfl | filler
      · exact Instruction.ignores_of_bare jumps rfl rfl
      · exact Instruction.ignores_of_bare (idle i filler) rfl rfl
    rw [Stage.scan_ignored ignored] at scans
    exact .inl scans
  | @forward head copied reader new nops d target a calls idle copies means reads forwarded =>
    have ignored : ∀ i ∈ head :: nops, i.Ignores r := by
      intro i member
      rcases List.mem_cons.1 member with rfl | filler
      · exact Instruction.ignores_of_bare calls rfl rfl
      · exact Instruction.ignores_of_bare (idle i filler) rfl rfl
    have written := Instruction.writeCount_eq copies r
    rw [Stage.scan_behind_ignored ignored] at scans
    have unseen : copied.consumeCount r = 0 := by
      rw [Instruction.consumeCount_eq copies]
      simp [Action.operands,Source.operands,Ne.symm other]
    have looks := count_mapUses means reads other
    rw [← Instruction.consumeCount_eq forwarded,← Instruction.consumeCount_eq means] at looks
    rw [Stage.scan_behind_ignored ignored]
    refine scan_window (n := new.consumeCount r) ?_ ?_ ?_ ?_ scans
    · rw [Instruction.writeCount_eq forwarded,Instruction.writeCount_eq means,Action.destination?_mapUses]
    · rw [unseen,Nat.zero_add]
    · rw [Instruction.writeCount_eq copies]
      by_cases same : r = d
      · rw [if_pos same] at looks
        rw [same,Action.destination?,if_pos rfl,← same]
        omega
      · rw [if_neg same] at looks
        rw [Action.destination?,if_neg (by simpa [eq_comm] using same)]
        omega
    · intro unwritten
      by_cases same : r = d
      · simp [Instruction.writeCount_eq copies,Action.destination?,same] at unwritten
      · rw [if_neg same] at looks
        exact looks
  | @immediate head next new d value a b loads means folded placed =>
    have unseen : head.consumeCount r = 0 := by
      rw [Instruction.consumeCount_eq loads]
      simp [Action.operands,Source.operands]
    have looks : new.consumeCount r + head.writeCount r = next.consumeCount r := by
      rw [Instruction.consumeCount_eq folded,Instruction.consumeCount_eq means,Instruction.writeCount_eq loads]
      cases placed <;> simp [Action.operands,Source.operands,List.count_cons,Action.destination?,Nat.add_comm]
    refine scan_window ?_ ?_ looks.le (fun unwritten => by omega) scans
    · rw [Instruction.writeCount_eq folded,Instruction.writeCount_eq means]
      cases placed <;> rfl
    · rw [unseen,Nat.zero_add]
  | @selfMove head x copies =>
    left
    rw [Stage.scan_single,Instruction.writeCount_eq copies,Instruction.consumeCount_eq copies] at scans
    rcases Stage.next_eq_some.1 scans with ⟨-,-,rfl⟩ | ⟨-,writes,looks,-⟩ | ⟨-,writes,looks,-⟩
    · exact Stage.scan_nil
    · simp [Action.operands,Source.operands,Action.destination?,List.count_cons] at writes looks
      exact absurd writes looks
    · simp [Action.operands,Source.operands,Action.destination?,List.count_cons] at writes looks
      exact absurd looks writes

/-- A change keeps the code linear in a register, or the register disappears. -/
theorem Site.Rewrites.scan {site : Site} {supply : RegisterSupply} (rewrites : site.Rewrites supply loss)
    (other : r ≠ Machine.callResultRegister) (scans : ∃ u, Stage.scan r .absent site.code = some u) :
    ∃ u, Stage.scan r .absent site.after = some u := by
  obtain ⟨pre,before,new,tail,is,becomes,-,rewrite⟩ := rewrites
  obtain ⟨u,scans⟩ := scans
  rw [is] at scans
  rw [becomes]
  obtain ⟨s,front,scans⟩ := Stage.scan_append.1 scans
  obtain ⟨t,middle,behind⟩ := Stage.scan_append.1 scans
  rcases rewrite.scan other middle with same | ⟨rfl,rfl,gone⟩
  · exact ⟨u,Stage.scan_append.2 ⟨s,front,Stage.scan_append.2 ⟨t,same,behind⟩⟩⟩
  · -- Behind the use of the register nobody mentions it.
    obtain ⟨-,ignored⟩ := Stage.ignored_of_spent behind
    exact ⟨.absent,Stage.scan_append.2 ⟨.absent,front,Stage.scan_append.2 ⟨.absent,gone,Stage.scan_ignored ignored⟩⟩⟩

/-- However often the code is swept, it stays linear in a register until the register has
    disappeared. -/
theorem linear_afterSweeps (supply : RegisterSupply) {code : List Instruction} (meaningful : Meaningful code)
    (other : r ≠ Machine.callResultRegister) (scans : ∃ u, Stage.scan r .absent code = some u) (n : Nat) :
    (∀ i ∈ afterSweeps .sparc supply code n, i.Ignores r) ∨ IsLinear (afterSweeps .sparc supply code n) r := by
  have step := preserved_of_rewrites (G := fun _ => True) (P := fun code => ∃ u, Stage.scan r .absent code = some u)
    fun (s : Site) loss (rewrites : s.Rewrites supply loss) _ scans => rewrites.scan other scans
  obtain ⟨-,u,scans⟩ := afterSweeps_induction (P := fun code => Meaningful code ∧ ∃ u, Stage.scan r .absent code = some u)
    (fun s made => step s made trivial) ⟨meaningful,scans⟩ n
  exact Stage.ignored_or_isLinear scans

end SparcBackend.Peephole
