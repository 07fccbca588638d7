import SparcBackend.Proofs.Peephole.Behaviour
import SparcBackend.Proofs.Peephole.Linearity
import SparcBackend.Proofs.Selection.Wellformed

/-!
What selection mints is linear: a minted register is written where it is minted, and the
one line that asked for the value looks at it. While a value waits for that line, it is
pending; every covering says how often a register is pending behind it, and the values of
siblings add up.
-/
namespace SparcBackend

namespace Selection
open Machine (Source isPhysical)
variable {r : Register} {supply mid left : RegisterSupply} {code more : List Instruction} {m n : Nat}

/-- Code from `supply` to `left` is linear in `r`, and `pending` more looks at `r` are to
    come. There are none if `r` was minted before the code. -/
def Threads (r : Register) (supply : RegisterSupply) (pending : Nat) (code : List Instruction) (left : RegisterSupply) : Prop :=
  ∀ s : Stage, (s = .absent ↔ r ∉ supply.children) → ∃ u, Stage.scan r s code = some u ∧ (u = .absent ↔ r ∉ left.children) ∧
    (s = u ∧ pending = 0 ∨ s = .absent ∧ (pending = 0 ∨ pending = 1 ∧ u = .held))

theorem Threads.nil : Threads r supply 0 [] supply := fun s owned => ⟨s,rfl,owned,.inl ⟨rfl,rfl⟩⟩

theorem Threads.trans (one : Threads r supply m code mid) (two : Threads r mid n more left) :
    Threads r supply (m+n) (code ++ more) left := by
  intro s owned
  obtain ⟨t,first,owned',waits⟩ := one s owned
  obtain ⟨u,second,owned'',waits'⟩ := two t owned'
  refine ⟨u,Stage.scan_append.2 ⟨t,first,second⟩,owned'',?_⟩
  rcases waits with ⟨rfl,rfl⟩ | ⟨rfl,rfl | ⟨rfl,rfl⟩⟩
  · rw [Nat.zero_add]
    exact waits'
  · rw [Nat.zero_add]
    rcases waits' with ⟨rfl,rfl⟩ | ⟨-,waits'⟩
    · exact .inr ⟨rfl,.inl rfl⟩
    · exact .inr ⟨rfl,waits'⟩
  · rcases waits' with ⟨rfl,rfl⟩ | ⟨absurdity,-⟩
    · exact .inr ⟨rfl,.inr ⟨rfl,rfl⟩⟩
    · cases absurdity

/-- A value that nobody asks for is pending no longer. -/
theorem Threads.discard (threads : Threads r supply n code left) : Threads r supply 0 code left := by
  intro s owned
  obtain ⟨u,scans,owned',waits⟩ := threads s owned
  refine ⟨u,scans,owned',?_⟩
  rcases waits with ⟨rfl,-⟩ | ⟨rfl,-⟩
  · exact .inl ⟨rfl,rfl⟩
  · exact .inr ⟨rfl,.inl rfl⟩

/-- A line looks at what is pending. -/
theorem Threads.spend {i : Instruction} (threads : Threads r supply (n+m) code left) (writes : i.writeCount r = 0)
    (looks : i.consumeCount r = m) : Threads r supply n (code ++ [i]) left := by
  intro s owned
  obtain ⟨u,scans,owned',waits⟩ := threads s owned
  have behind (t : Stage) (goes : u.next 0 m = some t) : Stage.scan r s (code ++ [i]) = some t :=
    Stage.scan_append.2 ⟨u,scans,by rw [Stage.scan_single,writes,looks,goes]⟩
  rcases waits with ⟨rfl,none⟩ | ⟨rfl,none | ⟨once,rfl⟩⟩
  · obtain ⟨rfl,rfl⟩ : n = 0 ∧ m = 0 := by omega
    exact ⟨s,behind s s.next_zero,owned',.inl ⟨rfl,rfl⟩⟩
  · obtain ⟨rfl,rfl⟩ : n = 0 ∧ m = 0 := by omega
    exact ⟨u,behind u u.next_zero,owned',.inr ⟨rfl,.inl rfl⟩⟩
  · have owner : r ∈ left.children := by simpa using owned'
    rcases Nat.eq_zero_or_pos m with rfl | pos
    · exact ⟨.held,behind .held rfl,owned',.inr ⟨rfl,.inr ⟨by omega,rfl⟩⟩⟩
    · obtain ⟨rfl,rfl⟩ : n = 0 ∧ m = 1 := by omega
      exact ⟨.spent,behind .spent rfl,by simp [owner],.inr ⟨rfl,.inl rfl⟩⟩

theorem Threads.ignore (threads : Threads r supply n code left) (ignored : ∀ i ∈ more, i.Ignores r) :
    Threads r supply n (code ++ more) left := by
  intro s owned
  obtain ⟨u,scans,owned',waits⟩ := threads s owned
  exact ⟨u,Stage.scan_append.2 ⟨u,scans,Stage.scan_ignored ignored⟩,owned',waits⟩

/-- A line looks at all that is pending and puts its value into a register minted for it. -/
theorem Threads.fresh {source : Source} {value : Operand} (threads : Threads r supply n code mid)
    (yields : YieldsFresh source mid value more left) (looks : source.operands.count (.register r) = n) :
    Threads r supply ([value].count (.register r)) (code ++ more) left := by
  obtain ⟨i,means,rfl,rfl,rfl⟩ := yields
  intro s owned
  obtain ⟨u,scans,owned',waits⟩ := threads s owned
  have consumes : i.consumeCount r = n := by
    rw [Instruction.consumeCount_eq means,← looks]
    rfl
  have writes := Instruction.writeCount_eq means r
  have owners : r ∈ mid.create.2.children ↔ r ∈ mid.children ∨ r = mid.create.1 := by
    rw [RegisterSupply.create_children,List.mem_append,List.mem_singleton]
  have behind {t : Stage} (goes : u.next (i.writeCount r) n = some t) : Stage.scan r s (code ++ [i]) = some t :=
    Stage.scan_append.2 ⟨u,scans,by rw [Stage.scan_single,consumes,goes]⟩
  by_cases same : r = mid.create.1
  · -- Nobody knew the register before, so nothing of it is pending.
    obtain rfl : u = .absent := owned'.2 (same ▸ mid.create_not_mem)
    obtain ⟨rfl,rfl⟩ : s = .absent ∧ n = 0 := by
      rcases waits with ⟨rfl,rfl⟩ | ⟨rfl,rfl | ⟨-,absurdity⟩⟩
      · exact ⟨rfl,rfl⟩
      · exact ⟨rfl,rfl⟩
      · cases absurdity
    rw [same,Machine.Action.destination?,if_pos rfl,← same] at writes
    have owner : r ∈ mid.create.2.children := owners.2 (.inr same)
    refine ⟨.held,behind (by rw [writes]; rfl),by simp [owner],.inr ⟨rfl,.inr ⟨?_,rfl⟩⟩⟩
    rw [← same,List.count_singleton_self]
  · rw [Machine.Action.destination?,if_neg (by simpa [eq_comm] using same)] at writes
    have unasked : [Operand.register mid.create.1].count (.register r) = 0 := by simpa [List.count_eq_zero] using same
    have keeps : r ∈ mid.create.2.children ↔ r ∈ mid.children := by simp [owners,same]
    rw [unasked,keeps]
    rcases waits with ⟨rfl,rfl⟩ | ⟨rfl,rfl | ⟨rfl,rfl⟩⟩
    · exact ⟨s,behind (by rw [writes,s.next_zero]),owned',.inl ⟨rfl,rfl⟩⟩
    · exact ⟨u,behind (by rw [writes,u.next_zero]),owned',.inr ⟨rfl,.inl rfl⟩⟩
    · exact ⟨.spent,behind (by rw [writes]; rfl),by simpa using owned',.inr ⟨rfl,.inl rfl⟩⟩

/-- Linearity in a register that is not the machine's is kept, as long as the trees do not
    name the register. -/
theorem isCompositional_threads (virtual : isPhysical r = false) : IsCompositional (· ≠ r) (fun _ => True)
    fun supply xs code left => Threads r supply (xs.count (.register r)) code left where
  nil := Threads.nil
  append one two := by
    rw [List.count_append]
    exact one.trans two
  operand {supply x} named _ := by
    have other : x ≠ .register r := by
      rintro rfl
      rcases named r rfl with same | physical
      · exact same rfl
      · simp [virtual] at physical
    rw [List.count_eq_zero.2 (by simpa using Ne.symm other)]
    exact Threads.nil
  number means _ _ := Threads.nil.fresh ⟨_,means,rfl,rfl,rfl⟩ rfl
  fresh holds means := Threads.fresh holds ⟨_,means,rfl,rfl,rfl⟩ rfl
  read {_ _ xs _ i a} means _ writes holds := by
    rw [List.count_append,Nat.add_comm] at holds
    refine holds.spend ?_ (Instruction.consumeCount_eq means r)
    have other : a.destination? ≠ some r := by
      intro is
      rcases writes r is with same | physical
      · exact same rfl
      · simp [virtual] at physical
    rw [Instruction.writeCount_eq means,if_neg other]
  drop holds := holds.discard
  transfer {_ i _} means looks writes _ := by
    refine Threads.nil.ignore ?_
    intro j member
    simp only [List.mem_cons,List.not_mem_nil,or_false] at member
    rcases member with rfl | rfl
    · exact Instruction.ignores_of_bare means looks writes
    · exact Instruction.ignores_of_bare Instruction.action?_nop rfl rfl

end Selection

open Selection Peephole

/-- A register that selection mints is put a value into on one line, and on one line behind
    it is looked at in one slot at most. However often the code is swept, this stays so until
    the register has disappeared. -/
theorem minted_linear {supply : RegisterSupply} {p : Procedure} {frames : Bool} {f : CodeFragment} {r : Register}
    (accepted : (select .sparc supply p frames).outcome = .ok f) (owned : r ∈ f.supply.children)
    (unowned : r ∉ supply.children) (unnamed : r ∉ virtualRegisters p.body) :
    IsLinear f.code r ∧ ∀ n, (∀ i ∈ afterSweeps .sparc f.supply f.code n, r ∉ i.registers) ∨
      IsLinear (afterSweeps .sparc f.supply f.code n) r := by
  obtain ⟨children,proper⟩ := select_proper accepted
  have virtual : Machine.isPhysical r = false := (children r owned).resolve_left unowned
  have absent : r ∉ p.body.flatMap Statement.registers := by
    intro member
    exact unnamed (List.mem_filter.2 ⟨member,by simp [virtual]⟩)
  have threads : Threads r (supply.adoptAll (virtualRegisters p.body)) 0 f.code f.supply :=
    (isCompositional_threads virtual).select accepted (fun x member same => absent (same ▸ member)) fun _ _ => trivial
  have unknown : r ∉ (supply.adoptAll (virtualRegisters p.body)).children := by
    simp [RegisterSupply.mem_adoptAll,unowned,unnamed]
  obtain ⟨u,scans,owned',-⟩ := threads .absent (by simp [unknown])
  refine ⟨Stage.isLinear_of_scan scans (by simp [owned',owned]),fun n => ?_⟩
  have other : r ≠ Machine.callResultRegister := by
    rintro rfl
    cases virtual
  have swept := linear_afterSweeps f.supply (fun i member => (proper i member).means) other ⟨u,scans⟩ n
  simpa only [Instruction.ignores_iff] using swept

theorem minted_linear_successor : ∃ f, (select .sparc {} successor true).outcome = .ok f ∧
    ∀ r ∈ [(⟨"t0000"⟩ : Register),⟨"t0001"⟩,⟨"t0002"⟩], IsLinear f.code r ∧
      ∀ n, (∀ i ∈ afterSweeps .sparc f.supply f.code n, r ∉ i.registers) ∨ IsLinear (afterSweeps .sparc f.supply f.code n) r := by
  obtain ⟨f,accepted⟩ : ∃ f, (select .sparc {} successor true).outcome = .ok f := ⟨_,rfl⟩
  refine ⟨f,accepted,?_⟩
  intro r member
  refine minted_linear accepted ?_ List.not_mem_nil ?_
  · have owned : ∀ r ∈ [(⟨"t0000"⟩ : Register),⟨"t0001"⟩,⟨"t0002"⟩], r ∈ f.supply.children := by
      cases accepted
      decide +kernel
    exact owned r member
  · have unnamed : ∀ r ∈ [(⟨"t0000"⟩ : Register),⟨"t0001"⟩,⟨"t0002"⟩], r ∉ virtualRegisters successor.body := by decide +kernel
    exact unnamed r member

end SparcBackend
