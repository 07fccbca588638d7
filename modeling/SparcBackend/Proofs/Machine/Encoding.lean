import SparcBackend.Machine.Target
import SparcBackend.Proofs.Machine.Action

/-!
Where numbers stand in instructions, and whether there is room for them. Only `set` takes
any number. The other instructions have a field of 13 bits with a sign, which holds one
number more below zero than above: -4096 fits, but what it stands for behind a minus
does not.
-/
namespace SparcBackend
open Machine (Action Address Kind OffsetSign Source)
variable {among : Int → Prop} {i : Instruction} {a : Action} {n : Int}

/-- The numbers of 13 bits with a sign. -/
def Fits (n : Int) : Prop := -4096 ≤ n ∧ n ≤ 4095

theorem immediateFits_iff : Machine.Target.sparc.immediateFits n = true ↔ Fits n := by
  unfold Machine.Target.immediateFits
  rw [Bool.and_eq_true]
  exact and_congr decide_eq_true_iff decide_eq_true_iff

/-- What a number behind a sign moves a base by. -/
def Machine.OffsetSign.displacement : OffsetSign → Int → Int
  | .plus, n => n
  | .minus, n => -n

theorem fits_displacement {sign : OffsetSign} (fits : Fits n) (other : ¬ (sign = .minus ∧ n = -4096)) : Fits (sign.displacement n) := by
  cases sign with
  | plus => exact fits
  | minus =>
    have least : n ≠ -4096 := fun same => other ⟨rfl,same⟩
    obtain ⟨above,below⟩ := fits
    constructor <;> simp only [OffsetSign.displacement] <;> omega

namespace Operand

theorem asImmediate?_eq_none {operand : Operand} : operand.asImmediate? = none ↔ ∀ n, operand ≠ .immediate n := by
  cases operand <;> simp [asImmediate?]

theorem mem_asImmediate? {operand : Operand} : n ∈ operand.asImmediate? ↔ operand = .immediate n := by
  cases operand <;> simp [asImmediate?]

/-- What is asked of a number is not asked of other operands. -/
theorem forall_of_bare {operand : Operand} {P : Int → Prop} (bare : operand.asImmediate? = none) : ∀ n ∈ operand.asImmediate?, P n := by
  simp [bare]

end Operand

namespace Instruction

/-- Every number in a slot can be encoded there: as the source of a `set`, in the last slot
    that an addition, a subtraction or a comparison reads, or as an offset, if what it
    stands for fits. -/
def IsEncodable (i : Instruction) : Prop :=
  (∀ k n, i.uses[k]? = some (.immediate n) →
    (i.kind = .loadImmediate ∧ i.uses = [.immediate n]) ∨
      ((i.kind = .add ∨ i.kind = .sub ∨ i.kind = .compare) ∧ k + 1 = i.uses.length ∧ Fits n) ∨
        ∃ d base sign, i.action? = some (.assign d (.load (.offset base sign (.immediate n)))) ∧ k = 1 ∧ Fits (sign.displacement n)) ∧
    ∀ k n, i.defs[k]? = some (.immediate n) →
      ∃ value base sign, i.action? = some (.store (.offset base sign (.immediate n)) value) ∧ k = 1 ∧ Fits (sign.displacement n)

/-- A load or a store whose address takes -4096 from a base. -/
def SubtractsLeast (i : Instruction) : Prop :=
  ∃ base, (∃ d, i.action? = some (.assign d (.load (.offset base .minus (.immediate (-4096)))))) ∨
    ∃ value, i.action? = some (.store (.offset base .minus (.immediate (-4096))) value)

theorem SubtractsLeast.not_isEncodable (subtracts : i.SubtractsLeast) : ¬ i.IsEncodable := by
  rintro ⟨read,written⟩
  obtain ⟨base,⟨d,means⟩ | ⟨value,means⟩⟩ := subtracts
  · have uses : i.uses = [base,.immediate (-4096)] := uses_eq means
    rcases read 1 (-4096) (by rw [uses]; rfl) with ⟨-,single⟩ | ⟨kinds,-⟩ | ⟨_,_,sign,means',-,fits⟩
    · rw [uses] at single
      cases single
    · cases hasAction means with
      | offsetLoad kind => simp [kind] at kinds
    · rw [means] at means'
      cases means'
      exact absurd fits.2 (by decide)
  · have defs : i.defs = [base,.immediate (-4096)] := defs_eq means
    obtain ⟨_,_,sign,means',-,fits⟩ := written 1 (-4096) (by rw [defs]; rfl)
    rw [means] at means'
    cases means'
    exact absurd fits.2 (by decide)

end Instruction

/-! ### Numbers in actions -/

/-- The numbers in an address are those in question; they are offsets and fit their field. -/
def Machine.Address.Carries (among : Int → Prop) : Address → Prop
  | .direct base => base.asImmediate? = none
  | .offset base _ distance => base.asImmediate? = none ∧ ∀ n ∈ distance.asImmediate?, Fits n ∧ among n

/-- The numbers that are read are those in question; they fit their field, or are loaded. -/
def Machine.Source.Carries (among : Int → Prop) (kind : Kind) : Source → Prop
  | .operand value => ∀ n ∈ value.asImmediate?, kind = .loadImmediate ∧ among n
  | .binary op left right => left.asImmediate? = none ∧ ∀ n ∈ right.asImmediate?, (op = .plus ∨ op = .minus) ∧ Fits n ∧ among n
  | .load address => address.Carries among

def Machine.Action.Carries (among : Int → Prop) (kind : Kind) : Action → Prop
  | .assign _ source => source.Carries among kind
  | .store address value => value.asImmediate? = none ∧ address.Carries among
  | .compare left right => left.asImmediate? = none ∧ ∀ n ∈ right.asImmediate?, Fits n ∧ among n
  | _ => True

theorem Machine.Address.carries_of_bare {address : Address} (bare : ∀ operand ∈ address.operands, operand.asImmediate? = none) :
    address.Carries among := by
  cases address with
  | direct base => exact bare base List.mem_cons_self
  | offset base sign distance =>
    exact ⟨bare base List.mem_cons_self,Operand.forall_of_bare (bare distance (by simp [Address.operands]))⟩

/-- An instruction whose numbers are among those in question, each in a place where the
    machine takes one and in a field that holds it. The sign of an offset is not
    looked at. -/
def Instruction.Carries (among : Int → Prop) (i : Instruction) : Prop := ∃ a, i.action? = some a ∧ a.Carries among i.kind

namespace Instruction

theorem carries_of_bare (means : i.action? = some a) (bare : ∀ operand ∈ a.operands, operand.asImmediate? = none) : i.Carries among := by
  refine ⟨a,means,?_⟩
  cases a with
  | assign d source =>
    cases source with
    | operand value => exact Operand.forall_of_bare (bare value List.mem_cons_self)
    | binary op left right =>
      exact ⟨bare left List.mem_cons_self,Operand.forall_of_bare (bare right (by simp [Action.operands,Source.operands]))⟩
    | load address => exact Address.carries_of_bare bare
  | store address value =>
    exact ⟨bare value List.mem_cons_self,Address.carries_of_bare fun operand member => bare operand (List.mem_cons_of_mem _ member)⟩
  | compare left right =>
    exact ⟨bare left List.mem_cons_self,Operand.forall_of_bare (bare right (by simp [Action.operands]))⟩
  | branch | jump | call | label | skip | special => trivial

theorem not_number_of_single {operand : Operand} {k : Nat} (bare : operand.asImmediate? = none) :
    [operand][k]? ≠ some (.immediate n) := by
  intro slot
  rcases k with _ | k
  · cases slot
    cases bare
  · cases slot

theorem number_of_pair {first second : Operand} {k : Nat} (bare : first.asImmediate? = none)
    (slot : [first,second][k]? = some (.immediate n)) : k = 1 ∧ second = .immediate n := by
  rcases k with _ | _ | k
  · cases slot
    cases bare
  · cases slot
    exact ⟨rfl,rfl⟩
  · cases slot

/-- Where numbers fit they can be encoded, unless it is -4096 behind a minus. -/
theorem Carries.isEncodable (carries : i.Carries among) (other : ¬ i.SubtractsLeast) : i.IsEncodable := by
  obtain ⟨a,means,carries⟩ := carries
  unfold IsEncodable
  cases hasAction means with
  | label is | comment is => simp [is,uses,defs]
  | branch _ defs uses | jump _ defs uses | call _ defs uses | nop _ defs uses | special _ defs uses => simp [uses,defs]
  | set kind defs uses =>
    rw [uses,defs]
    refine ⟨?_,fun k n slot => absurd slot (not_number_of_single rfl)⟩
    intro k n slot
    rcases k with _ | k
    · cases slot
      exact .inl ⟨kind,rfl⟩
    · cases slot
  | move kind defs uses =>
    rw [uses,defs]
    refine ⟨fun k n slot => absurd slot (not_number_of_single ?_),fun k n slot => absurd slot (not_number_of_single rfl)⟩
    -- A copy that read a number would be a `set`.
    rw [Operand.asImmediate?_eq_none]
    rintro n rfl
    rw [kind] at carries
    cases (carries n rfl).1
  | @arithmetic op d left right kind defs uses =>
    rw [uses,defs]
    refine ⟨?_,fun k n slot => absurd slot (not_number_of_single rfl)⟩
    intro k n slot
    obtain ⟨rfl,rfl⟩ := number_of_pair carries.1 slot
    obtain ⟨ops,fits,-⟩ := carries.2 n rfl
    refine .inr (.inl ⟨?_,rfl,fits⟩)
    rcases ops with rfl | rfl <;> simp [kind,Machine.Operation.kind]
  | load kind defs uses =>
    rw [uses,defs]
    exact ⟨fun k n slot => absurd slot (not_number_of_single carries),fun k n slot => absurd slot (not_number_of_single rfl)⟩
  | @offsetLoad d base distance sign kind defs uses =>
    rw [uses,defs]
    refine ⟨?_,fun k n slot => absurd slot (not_number_of_single rfl)⟩
    intro k n slot
    obtain ⟨rfl,rfl⟩ := number_of_pair carries.1 slot
    refine .inr (.inr ⟨d,base,sign,means,rfl,fits_displacement (carries.2 n rfl).1 ?_⟩)
    rintro ⟨rfl,rfl⟩
    exact other ⟨base,.inl ⟨d,means⟩⟩
  | store kind defs uses =>
    rw [uses,defs]
    exact ⟨fun k n slot => absurd slot (not_number_of_single carries.1),fun k n slot => absurd slot (not_number_of_single carries.2)⟩
  | @offsetStore base distance value sign kind defs uses =>
    rw [uses,defs]
    refine ⟨fun k n slot => absurd slot (not_number_of_single carries.1),?_⟩
    intro k n slot
    obtain ⟨rfl,rfl⟩ := number_of_pair carries.2.1 slot
    refine ⟨value,base,sign,means,rfl,fits_displacement (carries.2.2 n rfl).1 ?_⟩
    rintro ⟨rfl,rfl⟩
    exact other ⟨base,.inr ⟨value,means⟩⟩
  | compare kind defs uses =>
    rw [uses,defs]
    refine ⟨?_,fun k n slot => absurd slot (by simp)⟩
    intro k n slot
    obtain ⟨rfl,rfl⟩ := number_of_pair carries.1 slot
    exact .inr (.inl ⟨.inr (.inr kind),rfl,(carries.2 n rfl).1⟩)

/-- The numbers in an address are among those in question. -/
theorem Carries.among_of_subtractsLeast (carries : i.Carries among) (subtracts : i.SubtractsLeast) : among (-4096) := by
  obtain ⟨a,means,carries⟩ := carries
  obtain ⟨base,⟨d,is⟩ | ⟨value,is⟩⟩ := subtracts
  · obtain rfl := Option.some.inj (means.symm.trans is)
    exact (carries.2 _ rfl).2
  · obtain rfl := Option.some.inj (means.symm.trans is)
    exact (carries.2.2 _ rfl).2

end Instruction

end SparcBackend
