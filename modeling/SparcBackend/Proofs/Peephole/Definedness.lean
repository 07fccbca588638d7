import SparcBackend.Proofs.Allocation.FirstFit
import SparcBackend.Proofs.Peephole.Behaviour

/-!
Every register that is read has been defined further up in the text, and the optimizer
keeps it so, but for one case: a store that has a dropped register as its value and in
its address has only one of the two replaced. Then the register stands there without a
definition for good, since nothing ever brings one back and no rule takes a store away.
-/
namespace SparcBackend.Peephole
open Machine (Action Address OffsetSign Source isPhysical)
variable {supply : RegisterSupply} {r : Register}

/-- Some line writes `r`. -/
def Writes (code : List Instruction) (r : Register) : Prop := ∃ i ∈ code, i.writes r = true

/-- A line that looks at `r` in some way comes before any that writes it. -/
def Meets (looks : Instruction → Register → Prop) : List Instruction → Register → Prop
  | [], _ => False
  | i :: rest, r => looks i r ∨ i.writes r = false ∧ Meets looks rest r

/-- Some line looks at `r` before any writes it. -/
abbrev Exposes : List Instruction → Register → Prop := Meets fun i r => i.consumes r = true

/-- Some store looks at `r` before any line writes it. -/
abbrev ExposesInStore : List Instruction → Register → Prop := Meets fun i r => i.kind = .store ∧ i.consumes r = true

/-- Every owned register that a line looks at is written by a line further up. -/
def Defined (supply : RegisterSupply) (code : List Instruction) : Prop :=
  ∀ (line : Nat) i r, code[line]? = some i → r ∈ supply.children → i.consumes r = true →
    ∃ earlier j, earlier < line ∧ code[earlier]? = some j ∧ j.writes r = true

section
variable {looks : Instruction → Register → Prop} {first second code : List Instruction}

instance decidableMeets [∀ i r, Decidable (looks i r)] : ∀ code r, Decidable (Meets looks code r)
  | [], _ => .isFalse id
  | i :: rest, r =>
    have := decidableMeets rest r
    inferInstanceAs (Decidable (looks i r ∨ i.writes r = false ∧ Meets looks rest r))

theorem writes_nil : ¬ Writes [] r := by simp [Writes]

theorem writes_cons {i : Instruction} : Writes (i :: code) r ↔ i.writes r = true ∨ Writes code r := by simp [Writes]

theorem writes_append : Writes (first ++ second) r ↔ Writes first r ∨ Writes second r := by
  simp [Writes,or_and_right,exists_or]

theorem meets_append : Meets looks (first ++ second) r ↔ Meets looks first r ∨ ¬ Writes first r ∧ Meets looks second r := by
  induction first with
  | nil => simp [Meets,writes_nil]
  | cons i rest ih =>
    simp only [List.cons_append,Meets,ih,writes_cons,not_or,Bool.not_eq_true]
    by_cases keeps : i.writes r = false <;> simp [keeps,or_assoc]

/-- The line that is met, and the lines above it. -/
theorem meets_iff : Meets looks code r ↔ ∃ front i back, code = front ++ i :: back ∧ looks i r ∧ ¬ Writes front r := by
  induction code with
  | nil => simp [Meets]
  | cons i rest ih =>
    rw [Meets,ih]
    constructor
    · rintro (here | ⟨keeps,front,j,back,rfl,there,unwritten⟩)
      · exact ⟨[],i,rest,rfl,here,writes_nil⟩
      · exact ⟨i :: front,j,back,rfl,there,by simp [writes_cons,keeps,unwritten]⟩
    · rintro ⟨front,j,back,is,there,unwritten⟩
      cases front with
      | nil =>
        cases is
        exact .inl there
      | cons k front =>
        cases is
        simp only [writes_cons,not_or,Bool.not_eq_true] at unwritten
        exact .inr ⟨unwritten.1,front,j,back,rfl,there,unwritten.2⟩

theorem defined_iff : Defined supply code ↔ ∀ r ∈ supply.children, ¬ Exposes code r := by
  constructor
  · intro defined r owned exposed
    obtain ⟨front,i,back,rfl,consumes,unwritten⟩ := meets_iff.1 exposed
    obtain ⟨earlier,j,before,here,writes⟩ := defined front.length i r (by simp) owned consumes
    rw [List.getElem?_append_left before] at here
    exact unwritten ⟨j,List.mem_of_getElem? here,writes⟩
  · intro unexposed line i r here owned consumes
    obtain ⟨split,-⟩ := split_at_line here
    by_contra undefined
    refine unexposed r owned (meets_iff.2 ⟨_,i,_,split,consumes,?_⟩)
    rintro ⟨j,member,writes⟩
    obtain ⟨earlier,found⟩ := List.mem_iff_getElem?.1 member
    rw [List.getElem?_take] at found
    split at found
    · rename_i before
      exact undefined ⟨earlier,j,before,found,writes⟩
    · cases found

instance : Decidable (Defined supply code) := decidable_of_iff _ defined_iff.symm

/-- A register is mentioned where it is looked at first or written. -/
theorem mentioned_iff : (∃ i ∈ code, r ∈ i.registers) ↔ Exposes code r ∨ Writes code r := by
  induction code with
  | nil => simp [Meets,Writes]
  | cons i rest ih =>
    have split : (∃ j ∈ i :: rest, r ∈ j.registers) ↔ r ∈ i.registers ∨ ∃ j ∈ rest, r ∈ j.registers := by simp
    rw [split,ih,Instruction.mem_registers,writes_cons,Exposes,Meets]
    by_cases writes : i.writes r = true
    · simp [writes]
    · simp [writes,or_assoc]

/-- A call and what fills its delay slot neither look at a register nor write one. -/
theorem writes_behind_call {head : Instruction} {nops lines : List Instruction} {target : Label} (calls : head.action? = some (.call target))
    (idle : ∀ i ∈ nops, i.action? = some .skip) : Writes (head :: nops ++ lines) r ↔ Writes lines r := by
  have keeps : head.writes r = false := (Instruction.writes_eq_false_iff calls r).2 (by simp [Action.destination?])
  have unwritten : ¬ Writes nops r := by
    rintro ⟨i,member,writes⟩
    cases (Instruction.writes_iff (idle i member) r).1 writes
  rw [List.cons_append,writes_cons,writes_append]
  simp [keeps,unwritten]

theorem meets_behind_call {head : Instruction} {nops lines : List Instruction} {target : Label} (calls : head.action? = some (.call target))
    (idle : ∀ i ∈ nops, i.action? = some .skip) (sees : ∀ i, looks i r → i.consumes r = true) :
    Meets looks (head :: nops ++ lines) r ↔ Meets looks lines r := by
  have unmet : ¬ Meets looks (head :: nops) r := by
    intro met
    obtain ⟨front,i,back,is,here,-⟩ := meets_iff.1 met
    have member : i ∈ head :: nops := by simp [is]
    rcases List.mem_cons.1 member with rfl | member
    · cases (Instruction.consumes_iff calls r).1 (sees i here)
    · cases (Instruction.consumes_iff (idle i member) r).1 (sees i here)
  have unwritten : ¬ Writes (head :: nops) r := by
    rw [← List.append_nil (head :: nops),writes_behind_call calls idle]
    exact writes_nil
  rw [meets_append]
  simp [unmet,unwritten]

end

/-! ### One rewrite -/

/-- A register that an action looks at once others are read in its place was among them, or
    it was looked at before and stayed. -/
theorem mem_operands_mapUses {a : Action} {d x r : Register}
    (member : .register r ∈ (a.mapUses fun operand => if operand.isRegister d then .register x else operand).operands) :
    r = x ∨ .register r ∈ a.operands ∧ (r = d → ∃ address value, a = .store address value ∧ .register d ∈ address.operands) := by
  have replaced {operand : Operand} (is : Operand.register r = if operand.isRegister d then .register x else operand) :
      r = x ∨ .register r = operand ∧ r ≠ d := by
    by_cases same : operand = .register d
    · simp only [Operand.isRegister,same,decide_true,if_true,Operand.register.injEq] at is
      exact .inl is
    · simp only [Operand.isRegister,same,decide_false] at is
      refine .inr ⟨is,?_⟩
      rintro rfl
      exact same is.symm
  have among {operands : List Operand} (member : .register r ∈ operands.map fun operand => if operand.isRegister d then .register x else operand) :
      r = x ∨ .register r ∈ operands ∧ r ≠ d := by
    obtain ⟨operand,old,is⟩ := List.mem_map.1 member
    refine (replaced is.symm).imp_right ?_
    rintro ⟨rfl,other⟩
    exact ⟨old,other⟩
  cases a with
  | assign y source =>
    rw [Action.mapUses,Action.operands,Source.operands_mapOperands] at member
    refine (among member).imp_right ?_
    rintro ⟨old,other⟩
    exact ⟨old,fun same => absurd same other⟩
  | store address value =>
    rcases List.mem_cons.1 member with is | kept
    · refine (replaced is).imp_right ?_
      rintro ⟨rfl,other⟩
      exact ⟨List.mem_cons_self,fun same => absurd same other⟩
    · refine .inr ⟨List.mem_cons_of_mem _ kept,?_⟩
      rintro rfl
      exact ⟨address,value,rfl,kept⟩
  | compare left right =>
    have looked : .register r ∈ [left,right].map fun operand => if operand.isRegister d then .register x else operand := member
    refine (among looked).imp_right ?_
    rintro ⟨old,other⟩
    exact ⟨old,fun same => absurd same other⟩
  | branch | jump | call | label | skip | special => cases member

section
variable {ends : EndsAfter} {tail before new : List Instruction} {loss : Option Loss}

/-- What the new lines look at first the old ones looked at first, but for a register that
    a store has lost. -/
theorem Rewrite.exposes_of_new (rewrite : Rewrite ends tail before new loss) (exposed : Exposes new r) :
    Exposes before r ∨ ∃ l, loss = some l ∧ l.register = r ∧ l.Strands := by
  cases rewrite with
  | neutral computes isNeutral copies =>
    left
    simp only [Exposes,Meets,and_false,or_false,Instruction.consumes_iff computes,Instruction.consumes_iff copies,Action.operands,
      Source.operands] at exposed ⊢
    cases isNeutral <;> simpa using exposed
  | load computes loads folded =>
    simp only [Exposes,Meets,and_false,or_false,Instruction.consumes_iff folded] at exposed
    exact .inl (.inl ((Instruction.consumes_iff computes r).2 exposed))
  | @store head next new d base offset value sign computes stores folded =>
    simp only [Exposes,Meets,and_false,or_false,Instruction.consumes_iff folded] at exposed
    rcases List.mem_cons.1 exposed with rfl | summand
    · by_cases same : r = d
      · subst same
        exact .inr ⟨_,rfl,rfl,(Loss.strands_iff stores).2 ⟨_,rfl,List.mem_cons_self⟩⟩
      · refine .inl (.inr ⟨(Instruction.writes_eq_false_iff computes r).2 ?_,.inl ((Instruction.consumes_iff stores r).2 List.mem_cons_self)⟩)
        simpa [Action.destination?,eq_comm] using same
    · exact .inl (.inl ((Instruction.consumes_iff computes r).2 summand))
  | jump | selfMove => exact exposed.elim
  | @forward head copied reader new nops d target a calls idle copies means reads forwarded =>
    rw [Exposes,meets_behind_call calls idle fun _ => id] at exposed ⊢
    simp only [Meets,and_false,or_false,Instruction.consumes_iff forwarded,Instruction.consumes_iff copies,
      Instruction.consumes_iff means,Instruction.writes_eq_false_iff copies,Action.operands,Source.operands,Action.destination?] at exposed ⊢
    rcases mem_operands_mapUses exposed with rfl | ⟨kept,stays⟩
    · exact .inl (.inl List.mem_cons_self)
    · by_cases same : r = d
      · subst same
        obtain ⟨address,value,rfl,member⟩ := stays rfl
        refine .inr ⟨_,rfl,rfl,?_⟩
        have read := Instruction.reads_iff.1 reads
        refine (Loss.strands_iff means).2 ⟨address,?_,member⟩
        cases Instruction.hasAction means with
        | store kind defs uses | offsetStore kind defs uses =>
          rw [uses] at read
          cases List.mem_singleton.1 read
          rfl
      · exact .inl (.inr ⟨by simpa [eq_comm] using same,kept⟩)
  | @immediate head next new d value a b loads means folded placed =>
    left
    have other {operand : Operand} (apart : operand ≠ .register d) (is : .register r = operand) : head.writes r = false := by
      refine (Instruction.writes_eq_false_iff loads r).2 ?_
      rintro same
      cases same
      exact apart is.symm
    simp only [Exposes,Meets,and_false,or_false,Instruction.consumes_iff folded,Instruction.consumes_iff means] at exposed ⊢
    cases placed with
    | right apart | compared apart =>
      simp only [Action.operands,Source.operands,List.mem_cons,List.not_mem_nil,or_false,reduceCtorEq] at exposed ⊢
      exact .inr ⟨other apart exposed,.inl exposed⟩
    | left apart =>
      simp only [Action.operands,Source.operands,List.mem_cons,List.not_mem_nil,or_false,reduceCtorEq] at exposed ⊢
      exact .inr ⟨other apart exposed,.inr exposed⟩
  | merge computes copies merged =>
    simp only [Exposes,Meets,and_false,or_false,Instruction.consumes_iff merged] at exposed
    exact .inl (.inl ((Instruction.consumes_iff computes r).2 exposed))

/-- What the old lines write the new ones write, too, unless it is dropped or the old lines
    looked at it first. -/
theorem Rewrite.writes_of_before (rewrite : Rewrite ends tail before new loss) (written : Writes before r) :
    Writes new r ∨ Exposes before r ∨ ∃ l, loss = some l ∧ l.register = r := by
  cases rewrite with
  | neutral computes _ copies =>
    simp only [writes_cons,writes_nil,or_false,Instruction.writes_iff computes,Instruction.writes_iff copies,Action.destination?] at written ⊢
    exact .inl written
  | load computes uses folded | merge computes uses folded =>
    simp only [writes_cons,writes_nil,or_false,Instruction.writes_iff computes,Instruction.writes_iff uses,
      Instruction.writes_iff folded,Action.destination?] at written ⊢
    rcases written with dropped | kept
    · exact .inr (.inr ⟨_,rfl,Option.some.inj dropped⟩)
    · exact .inl kept
  | store computes stores folded =>
    simp only [writes_cons,writes_nil,or_false,Instruction.writes_iff computes,Instruction.writes_iff stores,Action.destination?,
      reduceCtorEq] at written
    exact .inr (.inr ⟨_,rfl,Option.some.inj written⟩)
  | @jump head nops target jumps idle =>
    obtain ⟨i,member,writes⟩ := written
    rcases List.mem_cons.1 member with rfl | member
    · cases (Instruction.writes_iff jumps r).1 writes
    · cases (Instruction.writes_iff (idle i member) r).1 writes
  | forward calls idle copies means reads forwarded =>
    rw [writes_behind_call calls idle] at written ⊢
    simp only [writes_cons,writes_nil,or_false,Instruction.writes_iff copies,Instruction.writes_iff means,
      Instruction.writes_iff forwarded,Action.destination?_mapUses] at written ⊢
    rcases written with dropped | kept
    · exact .inr (.inr ⟨_,rfl,Option.some.inj dropped⟩)
    · exact .inl kept
  | immediate loads means folded placed =>
    simp only [writes_cons,writes_nil,or_false,Instruction.writes_iff loads,Instruction.writes_iff means,
      Instruction.writes_iff folded] at written ⊢
    rcases written with dropped | kept
    · exact .inr (.inr ⟨_,rfl,Option.some.inj dropped⟩)
    · left
      cases placed <;> exact kept
  | selfMove copies =>
    simp only [writes_cons,writes_nil,or_false,Instruction.writes_iff copies,Action.destination?,Option.some.injEq] at written
    subst written
    exact .inr (.inl (.inl ((Instruction.consumes_iff copies _).2 List.mem_cons_self)))

/-- The new lines write nothing that the old ones do not write. -/
theorem Rewrite.writes_of_new (rewrite : Rewrite ends tail before new loss) (written : Writes new r) : Writes before r := by
  cases rewrite with
  | neutral computes _ copies =>
    simp only [writes_cons,writes_nil,or_false,Instruction.writes_iff computes,Instruction.writes_iff copies,Action.destination?] at written ⊢
    exact written
  | load computes uses folded | store computes uses folded | merge computes uses folded =>
    simp only [writes_cons,writes_nil,or_false,Instruction.writes_iff computes,Instruction.writes_iff uses,
      Instruction.writes_iff folded,Action.destination?] at written ⊢
    exact .inr written
  | jump | selfMove => exact absurd written writes_nil
  | forward calls idle copies means reads forwarded =>
    rw [writes_behind_call calls idle] at written ⊢
    simp only [writes_cons,writes_nil,or_false,Instruction.writes_iff copies,Instruction.writes_iff means,
      Instruction.writes_iff forwarded,Action.destination?_mapUses] at written ⊢
    exact .inr written
  | immediate loads means folded placed =>
    simp only [writes_cons,writes_nil,or_false,Instruction.writes_iff loads,Instruction.writes_iff means,
      Instruction.writes_iff folded] at written ⊢
    cases placed <;> exact .inr written

/-- A store that has lost its register looks at it first. -/
theorem Rewrite.exposesInStore_of_strands {l : Loss} (rewrite : Rewrite ends tail before new (some l)) (strands : l.Strands) :
    ExposesInStore new l.register := by
  cases rewrite with
  | load _ uses | merge _ uses =>
    obtain ⟨_,absurdity,_⟩ := (Loss.strands_iff uses).1 strands
    cases absurdity
  | store _ stores folded =>
    obtain ⟨_,is,_⟩ := (Loss.strands_iff stores).1 strands
    cases is
    exact .inl ⟨(Instruction.kind_eq_store_iff folded).2 ⟨_,_,rfl⟩,(Instruction.consumes_iff folded _).2 List.mem_cons_self⟩
  | forward calls idle _ means _ forwarded =>
    obtain ⟨address,rfl,member⟩ := (Loss.strands_iff means).1 strands
    rw [ExposesInStore,meets_behind_call calls idle fun _ => And.right]
    exact .inl ⟨(Instruction.kind_eq_store_iff forwarded).2 ⟨_,_,rfl⟩,(Instruction.consumes_iff forwarded _).2 (List.mem_cons_of_mem _ member)⟩
  | immediate _ means _ placed =>
    obtain ⟨_,rfl,_⟩ := (Loss.strands_iff means).1 strands
    cases placed

/-- A register that an old store looked at first a new one looks at first. -/
theorem Rewrite.exposesInStore (rewrite : Rewrite ends tail before new loss) (exposed : ExposesInStore before r) :
    ExposesInStore new r := by
  cases rewrite with
  | neutral means | selfMove means =>
    simp only [ExposesInStore,Meets,and_false,or_false] at exposed
    exact absurd exposed.1 (Instruction.kind_ne_store means rfl)
  | load computes uses | merge computes uses =>
    simp only [ExposesInStore,Meets,and_false,or_false] at exposed
    rcases exposed with ⟨store,-⟩ | ⟨-,store,-⟩
    · exact absurd store (Instruction.kind_ne_store computes rfl)
    · exact absurd store (Instruction.kind_ne_store uses rfl)
  | @store head next new d base offset value sign computes stores folded =>
    simp only [ExposesInStore,Meets,and_false,or_false,Instruction.writes_eq_false_iff computes,Instruction.consumes_iff stores,
      Instruction.consumes_iff folded,Instruction.kind_eq_store_iff folded] at exposed ⊢
    rcases exposed with ⟨store,-⟩ | ⟨keeps,-,looks⟩
    · exact absurd store (Instruction.kind_ne_store computes rfl)
    · refine ⟨⟨_,_,rfl⟩,?_⟩
      rcases List.mem_cons.1 looks with rfl | address
      · exact List.mem_cons_self
      · simp only [Address.operands,List.mem_singleton,Operand.register.injEq] at address
        subst address
        exact absurd rfl keeps
  | @jump head nops target jumps idle =>
    obtain ⟨front,i,back,is,⟨store,-⟩,-⟩ := meets_iff.1 exposed
    have member : i ∈ head :: nops := by simp [is]
    rcases List.mem_cons.1 member with rfl | member
    · exact absurd store (Instruction.kind_ne_store jumps rfl)
    · exact absurd store (Instruction.kind_ne_store (idle i member) rfl)
  | @forward head copied reader new nops d target a calls idle copies means reads forwarded =>
    rw [ExposesInStore,meets_behind_call calls idle fun _ => And.right] at exposed ⊢
    simp only [Meets,and_false,or_false,Instruction.writes_eq_false_iff copies,Instruction.consumes_iff means,
      Instruction.consumes_iff forwarded,Instruction.kind_eq_store_iff forwarded] at exposed ⊢
    rcases exposed with ⟨store,-⟩ | ⟨keeps,store,looks⟩
    · exact absurd store (Instruction.kind_ne_store copies rfl)
    · obtain ⟨address,value,rfl⟩ := (Instruction.kind_eq_store_iff means).1 store
      refine ⟨⟨_,_,rfl⟩,?_⟩
      rcases List.mem_cons.1 looks with rfl | address
      · have apart : r ≠ d := by
          rintro rfl
          exact keeps rfl
        simp [Action.mapUses,Action.operands,Operand.isRegister,apart]
      · exact List.mem_cons_of_mem _ address
  | immediate loads means _ placed =>
    simp only [ExposesInStore,Meets,and_false,or_false] at exposed
    rcases exposed with ⟨store,-⟩ | ⟨-,store,-⟩
    · exact absurd store (Instruction.kind_ne_store loads rfl)
    · obtain ⟨_,_,rfl⟩ := (Instruction.kind_eq_store_iff means).1 store
      cases placed

end

/-! ### One change -/

/-- A change takes the definition of a register away that a store still looks at, and no
    line further up defines it. -/
def Site.Orphans (supply : RegisterSupply) (s : Site) : Prop :=
  ∃ l, s.Rewrites supply (some l) ∧ l.Strands ∧ ¬ Writes (s.code.take s.line) l.register

section
variable {s : Site} {loss : Option Loss}

/-- A change keeps registers defined unless it orphans one. -/
theorem Site.Rewrites.defined (rewrites : s.Rewrites supply loss) (defined : Defined supply s.code) (clean : ¬ s.Orphans supply) :
    Defined supply s.after := by
  obtain ⟨pre,before,new,tail,is,becomes,line,rewrite⟩ := id rewrites
  have front : s.code.take s.line = pre := by rw [is,← line,List.take_left]
  rw [defined_iff] at defined ⊢
  intro r owned exposed
  have covered := defined r owned
  rw [is,Exposes,meets_append,meets_append] at covered
  rw [becomes,Exposes,meets_append,meets_append] at exposed
  rcases exposed with early | ⟨unwritten,changed | ⟨unwritten',late⟩⟩
  · exact covered (.inl early)
  · rcases rewrite.exposes_of_new changed with before | ⟨l,rfl,rfl,strands⟩
    · exact covered (.inr ⟨unwritten,.inl before⟩)
    · exact clean ⟨l,rewrites,strands,front.symm ▸ unwritten⟩
  · by_cases written : Writes before r
    · rcases rewrite.writes_of_before written with kept | looked | ⟨l,rfl,rfl⟩
      · exact unwritten' kept
      · exact covered (.inr ⟨unwritten,.inl looked⟩)
      · -- Behind the last mention of the dropped register nobody looks at it.
        obtain ⟨first,i,back,rfl,consumes,-⟩ := meets_iff.1 late
        have ends := (Bool.and_eq_true _ _ ▸ rewrite.gone).2
        have here : s.code[pre.length+(before.length+first.length)]? = some i := by
          rw [is,List.getElem?_append_right (Nat.le_add_right _ _),Nat.add_sub_cancel_left,
            List.getElem?_append_right (Nat.le_add_right _ _),Nat.add_sub_cancel_left]
          simp
        have inside := Lifetime.le_of_endsAt ends here (Instruction.mem_registers.2 (.inl consumes))
        rw [rewrite.before_length,← line] at inside
        omega
    · exact covered (.inr ⟨unwritten,.inr ⟨written,late⟩⟩)

/-- A change that orphans a register leaves a store behind that looks at it. -/
theorem Site.exposesInStore_of_orphans (orphans : s.Orphans supply) : ∃ r ∈ supply.children, ExposesInStore s.after r := by
  obtain ⟨l,⟨pre,before,new,tail,is,becomes,line,rewrite⟩,strands,unwritten⟩ := orphans
  rw [is,← line,List.take_left] at unwritten
  refine ⟨l.register,RegisterSupply.owns_iff.1 (Bool.and_eq_true _ _ ▸ rewrite.gone).1,?_⟩
  rw [becomes,ExposesInStore,meets_append,meets_append]
  exact .inr ⟨unwritten,.inl (rewrite.exposesInStore_of_strands strands)⟩

/-- No change helps a register that a store looks at first. -/
theorem Site.Rewrites.exposesInStore (rewrites : s.Rewrites supply loss) (exposed : ExposesInStore s.code r) :
    ExposesInStore s.after r := by
  obtain ⟨pre,before,new,tail,is,becomes,line,rewrite⟩ := rewrites
  rw [is,ExposesInStore,meets_append,meets_append] at exposed
  rw [becomes,ExposesInStore,meets_append,meets_append]
  rcases exposed with early | ⟨unwritten,looked | ⟨unwritten',late⟩⟩
  · exact .inl early
  · exact .inr ⟨unwritten,.inl (rewrite.exposesInStore looked)⟩
  · exact .inr ⟨unwritten,.inr ⟨fun written => unwritten' (rewrite.writes_of_new written),late⟩⟩

/-- A change keeps every line proper. -/
theorem Site.Rewrites.proper (rewrites : s.Rewrites supply loss) (proper : ∀ i ∈ s.code, i.IsProper supply) :
    ∀ i ∈ s.after, i.IsProper supply := by
  have meaningful := rewrites.meaningful fun i member => (proper i member).means
  obtain ⟨pre,before,new,tail,is,becomes,line,rewrite⟩ := rewrites
  rw [is] at proper
  intro i member
  refine ⟨meaningful i member,?_⟩
  rw [becomes] at member
  simp only [List.mem_append] at member proper
  rcases member with early | changed | late
  · exact (proper i (.inl early)).known
  · intro r mentioned
    have mentions : ∃ j ∈ before, r ∈ j.registers := by
      rcases mentioned_iff.1 ⟨i,changed,mentioned⟩ with exposed | written
      · rcases rewrite.exposes_of_new exposed with looked | ⟨l,rfl,rfl,-,reads,-⟩
        · exact mentioned_iff.2 (.inl looked)
        · exact ⟨_,rewrite.reader_mem,Instruction.mem_registers.2 (.inl (by simp [Instruction.consumes,reads]))⟩
      · exact mentioned_iff.2 (.inr (rewrite.writes_of_new written))
    obtain ⟨j,old,there⟩ := mentions
    exact (proper j (.inr (.inl old))).known r there
  · exact (proper i (.inr (.inr late))).known

end

/-! ### Names in the listing -/

/-- The registers of an instruction are printed under the names of machine registers. -/
def IsResolved (m : RegisterMap) (i : Instruction) : Prop := ∀ r ∈ i.registers, isPhysical (m.resolve r) = true

instance (m : RegisterMap) (i : Instruction) : Decidable (IsResolved m i) :=
  inferInstanceAs (Decidable (∀ r ∈ i.registers, isPhysical (m.resolve r) = true))

/-- Where registers are defined before they are read, none is left without a machine
    register, unless there are too few of these. -/
theorem isResolved_of_defined {code : List Instruction} (proper : ∀ i ∈ code, i.IsProper supply) (defined : Defined supply code)
    (enough : (Allocation.ofCode supply code).exhausted = none) : ∀ i ∈ code, IsResolved (Allocation.ofCode supply code).map i := by
  have sound := Allocation.ofCode_sound supply code
  have physical : ∀ x ∈ Machine.localRegisters, isPhysical x = true := by decide +kernel
  have defines {i : Instruction} {r : Register} (writes : i.writes r = true) : i.defines r = true := by
    simp only [Instruction.writes,Bool.and_eq_true] at writes
    exact writes.2
  intro i member r mentioned
  unfold RegisterMap.resolve
  cases given : (Allocation.ofCode supply code).map.get? r with
  | some x => exact physical x (sound.assigned r x given).1
  | none =>
    rcases (proper i member).known r mentioned with owned | known
    · obtain ⟨line,here⟩ := List.mem_iff_getElem?.1 member
      have assigned : (Allocation.ofCode supply code).map.contains r = true := by
        rcases Instruction.mem_registers.1 mentioned with consumes | writes
        · obtain ⟨earlier,j,_,there,writes⟩ := defined line i r here owned consumes
          exact sound.complete enough earlier j r there owned (defines writes)
        · exact sound.complete enough line i r here owned (defines writes)
      simp [RegisterMap.contains,given] at assigned
    · exact known

end SparcBackend.Peephole

namespace SparcBackend
open Selection Peephole

/-- Where every register that selected code reads is defined further up, this holds behind
    every sweep of the optimizer and in the end, and then no register is left without a
    machine register unless there are too few of these: all this exactly if no change
    leaves a store behind that looks at the register whose only definition it took away. -/
theorem optimize_defined {supply : RegisterSupply} {p : Procedure} {frames : Bool} {f : CodeFragment}
    (accepted : (select .sparc supply p frames).outcome = .ok f) (defined : Defined f.supply f.code) :
    ((∀ s ∈ sweeps .sparc f.supply f.code, Defined f.supply s.code) ∧ Defined f.supply (optimize .sparc f.supply f.code).code ∧
      ((Allocation.ofCode f.supply (optimize .sparc f.supply f.code).code).exhausted = none → ∀ i ∈ (optimize .sparc f.supply f.code).code,
        IsResolved (Allocation.ofCode f.supply (optimize .sparc f.supply f.code).code).map i)) ↔
      ∀ s ∈ sites .sparc f.supply f.code, ¬ s.Orphans f.supply := by
  have proper := (select_proper accepted).2
  have meaningful : Meaningful f.code := fun i member => (proper i member).means
  constructor
  · rintro ⟨-,last,-⟩ site member orphans
    obtain ⟨⟨_,rewrites⟩,means,-⟩ := rewrites_of_mem_sites (P := fun _ => True) (fun _ _ _ => id) meaningful trivial site member
    have keeps : ∀ (s : Site) (loss : Option Loss), s.Rewrites f.supply loss → True →
        (∃ r ∈ f.supply.children, ExposesInStore s.code r) → ∃ r ∈ f.supply.children, ExposesInStore s.after r := by
      rintro s loss rewrites - ⟨r,owned,exposed⟩
      exact ⟨r,owned,rewrites.exposesInStore exposed⟩
    have stays := preserved_of_rewrites (P := fun code => ∃ r ∈ f.supply.children, ExposesInStore code r) keeps
    obtain ⟨-,r,owned,exposed⟩ :=
      survives_optimize (P := fun code => Meaningful code ∧ ∃ r ∈ f.supply.children, ExposesInStore code r)
        (fun s made => stays s made trivial) member ⟨rewrites.meaningful means,site.exposesInStore_of_orphans orphans⟩
    obtain ⟨front,i,back,is,looks,unwritten⟩ := meets_iff.1 exposed
    exact defined_iff.1 last r owned (meets_iff.2 ⟨front,i,back,is,looks.2,unwritten⟩)
  · intro clean
    have keeps : ∀ (s : Site) (loss : Option Loss), s.Rewrites f.supply loss → ¬ s.Orphans f.supply →
        ((∀ i ∈ s.code, i.IsProper f.supply) ∧ Defined f.supply s.code) → (∀ i ∈ s.after, i.IsProper f.supply) ∧ Defined f.supply s.after := by
      rintro s loss rewrites clean ⟨proper,defined⟩
      exact ⟨rewrites.proper proper,rewrites.defined defined clean⟩
    have step := preserved_of_rewrites (P := fun code => (∀ i ∈ code, i.IsProper f.supply) ∧ Defined f.supply code) keeps
    have sweeps := sweeps_induction (P := fun code => Meaningful code ∧ (∀ i ∈ code, i.IsProper f.supply) ∧ Defined f.supply code)
      (fun s => ¬ s.Orphans f.supply) step f.code clean ⟨meaningful,proper,defined⟩
    obtain ⟨-,proper,last⟩ :=
      optimize_induction (P := fun code => Meaningful code ∧ (∀ i ∈ code, i.IsProper f.supply) ∧ Defined f.supply code)
        (fun s => ¬ s.Orphans f.supply) step f.code clean ⟨meaningful,proper,defined⟩
    exact ⟨fun s member => (sweeps s member).2.2,last,isResolved_of_defined proper last⟩

theorem optimize_defined_successor : ∃ f, (select .sparc {} successor true).outcome = .ok f ∧ Defined f.supply f.code ∧
    (∀ s ∈ sweeps .sparc f.supply f.code, Defined f.supply s.code) ∧ Defined f.supply (optimize .sparc f.supply f.code).code := by
  obtain ⟨f,accepted⟩ : ∃ f, (select .sparc {} successor true).outcome = .ok f := ⟨_,rfl⟩
  have defined : Defined f.supply f.code := by
    cases accepted
    decide +kernel
  have storeless : ∀ i ∈ f.code, i.kind ≠ .store := by
    cases accepted
    decide +kernel
  have clean : ∀ s ∈ sites .sparc f.supply f.code, ¬ s.Strands f.supply :=
    not_strands_of_storeless (fun i member => ((select_proper accepted).2 i member).means) storeless
  obtain ⟨sweeps,last,-⟩ := (optimize_defined accepted defined).2 fun s member ⟨l,rewrites,strands,_⟩ => clean s member ⟨l,rewrites,strands⟩
  exact ⟨f,accepted,defined,sweeps,last⟩

/-- A cell that is to hold its own address. -/
def ownAddress : Procedure where
  className := "Test"
  methodName := "ownAddress"
  body := [.move (.named "x") (.binary .plus (.named "%i0") (.constant 8)),.move (.memory (.named "x")) (.named "x")]

/-- The sum moves into the address, and its register stays behind as the value. -/
theorem not_optimize_defined_ownAddress : ∃ f, (select .sparc {} ownAddress false).outcome = .ok f ∧ Defined f.supply f.code ∧
    ¬ Defined f.supply (optimize .sparc f.supply f.code).code ∧
    (Allocation.ofCode f.supply (optimize .sparc f.supply f.code).code).exhausted = none ∧
    ¬ ∀ i ∈ (optimize .sparc f.supply f.code).code, IsResolved (Allocation.ofCode f.supply (optimize .sparc f.supply f.code).code).map i := by
  obtain ⟨f,accepted⟩ : ∃ f, (select .sparc {} ownAddress false).outcome = .ok f := ⟨_,rfl⟩
  refine ⟨f,accepted,?_,?_,?_,?_⟩ <;>
  · cases accepted
    decide +kernel

end SparcBackend
