import SparcBackend.Proofs.Selection.Covering

/-!
Selected code is well formed, whatever the trees are. Every line has a meaning, and the
registers it mentions are the machine's or belong to the method. What is minted on the
way is no register of the machine.
-/
namespace SparcBackend
open Machine (Action Source isPhysical)

namespace Instruction

/-- A line with a meaning that mentions no register but those of the machine and those of
    a method. -/
structure IsProper (supply : RegisterSupply) (i : Instruction) : Prop where
  means : i.action? ≠ none
  known : ∀ r ∈ i.registers, supply.Knows r

theorem IsProper.mono {supply left : RegisterSupply} {i : Instruction} (proper : i.IsProper supply) (le : supply ≤ left) :
    i.IsProper left := ⟨proper.means,fun r member => (proper.known r member).mono le⟩

theorem isProper_of_action {supply : RegisterSupply} {i : Instruction} {a : Action} (means : i.action? = some a)
    (looks : ∀ r, .register r ∈ a.operands → supply.Knows r) (puts : ∀ r, a.destination? = some r → supply.Knows r) :
    i.IsProper supply := by
  refine ⟨by simp [means],?_⟩
  intro r member
  rcases mem_registers.1 member with consumed | written
  · exact looks r ((consumes_iff means r).1 consumed)
  · exact puts r ((writes_iff means r).1 written)

end Instruction

namespace Selection
variable {supply mid left : RegisterSupply} {code : List Instruction}

/-- What every covering keeps: the supply grows by registers that are not the machine's,
    and the lines emitted are proper. -/
structure Sound (supply : RegisterSupply) (code : List Instruction) (left : RegisterSupply) : Prop where
  grows : supply ≤ left
  minted : ∀ r ∈ left.children, r ∈ supply.children ∨ isPhysical r = false
  proper : ∀ i ∈ code, i.IsProper left

theorem Sound.nil : Sound supply [] supply := ⟨RegisterSupply.le_refl supply,fun _ => .inl,by simp⟩

theorem Sound.trans {first second : List Instruction} (one : Sound supply first mid) (two : Sound mid second left) :
    Sound supply (first ++ second) left := by
  refine ⟨RegisterSupply.le_trans one.grows two.grows,?_,?_⟩
  · intro r member
    rcases two.minted r member with before | virtual
    · exact one.minted r before
    · exact .inr virtual
  · intro i member
    rcases List.mem_append.1 member with early | late
    · exact (one.proper i early).mono two.grows
    · exact two.proper i late

theorem Sound.single {i : Instruction} {a : Action} (means : i.action? = some a)
    (looks : ∀ r, .register r ∈ a.operands → supply.Knows r) (puts : ∀ r, a.destination? = some r → supply.Knows r) :
    Sound supply [i] supply := by
  refine ⟨RegisterSupply.le_refl supply,fun _ => .inl,?_⟩
  intro j member
  cases List.mem_singleton.1 member
  exact Instruction.isProper_of_action means looks puts

/-- A line that reads nothing and writes no register. -/
theorem Sound.bare {i : Instruction} {a : Action} (means : i.action? = some a) (looks : a.operands = [])
    (writes : a.destination? = none) : Sound supply [i] supply :=
  Sound.single means (by simp [looks]) (by simp [writes])

theorem Sound.fresh {i : Instruction} {source : Source} (means : i.action? = some (.assign supply.create.1 source))
    (known : ∀ r, .register r ∈ source.operands → supply.Knows r) : Sound supply [i] supply.create.2 := by
  refine ⟨supply.le_create,?_,?_⟩
  · intro r member
    rw [RegisterSupply.create_children,List.mem_append,List.mem_singleton] at member
    rcases member with before | rfl
    · exact .inl before
    · exact .inr supply.isPhysical_create
  · intro j member
    cases List.mem_singleton.1 member
    refine Instruction.isProper_of_action means (fun r member => (known r member).mono supply.le_create) ?_
    intro r is
    cases is
    exact supply.knows_create

/-- Soundness is kept, as long as the registers of the trees are known, and registers in
    which values wait are known as well. -/
theorem isCompositional_sound (base : RegisterSupply) : IsCompositional base.Knows (fun _ => True) fun supply xs code left =>
    base ≤ supply → Sound supply code left ∧ ∀ r, .register r ∈ xs → left.Knows r where
  nil _ := ⟨Sound.nil,by simp⟩
  append one two le := by
    obtain ⟨first,known⟩ := one le
    obtain ⟨second,known'⟩ := two (RegisterSupply.le_trans le first.grows)
    refine ⟨first.trans second,fun r member => ?_⟩
    rcases List.mem_append.1 member with early | late
    · exact (known r early).mono second.grows
    · exact known' r late
  operand named _ le := by
    refine ⟨Sound.nil,fun r member => ?_⟩
    rcases named r (List.mem_singleton.1 member).symm with known | physical
    · exact known.mono le
    · exact .inr physical
  number {supply _ _} means _ _ _ := by
    refine ⟨Sound.fresh means (by simp [Source.operands]),fun r member => ?_⟩
    cases List.mem_singleton.1 member
    exact supply.knows_create
  fresh {_ mid _ _ _} holds means le := by
    obtain ⟨sound,known⟩ := holds le
    refine ⟨sound.trans (Sound.fresh means known),fun r member => ?_⟩
    cases List.mem_singleton.1 member
    exact mid.knows_create
  read means _ writes holds le := by
    obtain ⟨sound,known⟩ := holds le
    refine ⟨sound.trans (Sound.single means (fun r member => known r (List.mem_append_left _ member)) fun d is => ?_),
      fun r member => known r (List.mem_append_right _ member)⟩
    rcases writes d is with known | physical
    · exact known.mono (RegisterSupply.le_trans le sound.grows)
    · exact .inr physical
  drop holds le := ⟨(holds le).1,by simp⟩
  transfer means looks writes _ _ :=
    ⟨(Sound.bare means looks writes).trans (Sound.bare Instruction.action?_nop rfl rfl),by simp⟩

/-- The registers of a body are adopted before it is covered, or they are the machine's. -/
theorem knows_named (supply : RegisterSupply) (body : List Statement) :
    ∀ r ∈ body.flatMap Statement.registers, (supply.adoptAll (virtualRegisters body)).Knows r := by
  intro r member
  cases physical : isPhysical r with
  | true => exact .inr physical
  | false => exact .inl (RegisterSupply.mem_adoptAll.2 (.inr (List.mem_filter.2 ⟨member,by simp [physical]⟩)))

end Selection

open Selection

/-- A selected fragment owns no register of the machine but those it was given, and each of
    its lines is proper. -/
theorem select_proper {supply : RegisterSupply} {p : Procedure} {frames : Bool} {f : CodeFragment}
    (accepted : (select .sparc supply p frames).outcome = .ok f) :
    (∀ r ∈ f.supply.children, r ∈ supply.children ∨ isPhysical r = false) ∧ ∀ i ∈ f.code, i.IsProper f.supply := by
  obtain ⟨sound,-⟩ := (isCompositional_sound _).select accepted (knows_named supply p.body) (fun _ _ => trivial) (RegisterSupply.le_refl _)
  refine ⟨?_,sound.proper⟩
  intro r member
  rcases sound.minted r member with adopted | virtual
  · rcases RegisterSupply.mem_adoptAll.1 adopted with given | named
    · exact .inl given
    · right
      simpa using (List.mem_filter.1 named).2
  · exact .inr virtual

end SparcBackend
