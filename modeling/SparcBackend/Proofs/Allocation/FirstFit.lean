import SparcBackend.Proofs.Allocation.Holding

/-!
Which register an allocation chooses: the first one of the pool that no other owned
register holds at the first definition (`Walks.chooses`). A virtual register keeps its
machine register until its lifetime is over, so nobody else gets it in the meantime, and
of two virtual registers with the same machine register one is mentioned for the last
time before the other is defined for the first time (`Precedes`).
-/
namespace SparcBackend

namespace Allocation
variable {supply : RegisterSupply} {code rest : List Instruction} {registers : List Register} {before ds : List Definition}
  {line next : Nat} {r s x : Register} {p : Progress} {a : Allocation} {m : RegisterMap} {holding : Finset Register}

/-- The first of some registers that nobody has among those who are holding one. -/
def firstFree? (registers : List Register) (m : RegisterMap) (holding : Finset Register) : Option Register :=
  registers.find? fun x => decide (∀ r ∈ holding, m.get? r ≠ some x)

theorem get?_ne_of_firstFree? (is : firstFree? registers m holding = some x) (among : r ∈ holding) : m.get? r ≠ some x := by
  rw [firstFree?] at is
  have unheld := List.find?_some is
  exact of_decide_eq_true unheld r among

/-- The busy registers are those that are held, in any map that the one so far grows to. -/
theorem Progress.Exact.mem_busy (exact : p.Exact supply code registers before line)
    (grows : ∀ r x, p.map.get? r = some x → m.get? r = some x) :
    x ∈ p.pool.busy ↔ ∃ r ∈ holders supply code before line, m.get? r = some x := by
  rw [exact.busy.mem_iff,List.mem_map]
  simp only [holders,Finset.mem_filter,List.mem_toFinset,← and_assoc,← exact.keys _]
  constructor
  · rintro ⟨⟨r,x⟩,held,rfl⟩
    obtain ⟨is,mentioned⟩ := (exact.held r x).1 held
    exact ⟨r,⟨by simp [RegisterMap.contains,is],mentioned⟩,grows r x is⟩
  · rintro ⟨r,⟨assigned,mentioned⟩,is⟩
    obtain ⟨y,is'⟩ := Option.isSome_iff_exists.1 assigned
    cases is.symm.trans (grows r y is')
    exact ⟨(r,x),(exact.held r x).2 ⟨is',mentioned⟩,rfl⟩

theorem Progress.Exact.firstFree?_eq_some {pool : RegisterPool} (exact : p.Exact supply code registers before line)
    (grows : ∀ r x, p.map.get? r = some x → m.get? r = some x) (distinct : registers.Nodup)
    (acquired : p.pool.acquire? = some (x,pool)) : firstFree? registers m (holders supply code before line) = some x := by
  have idle := RegisterPool.not_mem_busy_of_acquire acquired (exact.pool ▸ distinct)
  obtain ⟨-,-,front,back,parts,taken⟩ := RegisterPool.busy_acquire acquired
  refine List.find?_eq_some_iff_append.2 ⟨decide_eq_true fun r held is => ?_,front,back,exact.pool ▸ parts,fun y member => ?_⟩
  · exact idle ((exact.mem_busy grows).2 ⟨r,held,is⟩)
  · obtain ⟨r,held,is⟩ := (exact.mem_busy grows).1 (taken y member)
    simpa using ⟨r,held,is⟩

/-- At its first definition, `x` is the first register that is free for `r`. -/
def IsChosen (supply : RegisterSupply) (code : List Instruction) (registers : List Register) (m : RegisterMap) (r x : Register) : Prop :=
  ∃ before line, IsFirst supply code before ⟨line,r⟩ ∧ firstFree? registers m (holders supply code before line) = some x

/-- What a walk assigns was the first free register at the time, and still is when one knows
    all that is assigned later. -/
theorem Walks.chooses (walks : Walks supply (.ofCode code supply) next p ds rest a) (distinct : registers.Nodup)
    (reaches : Reaches supply code registers next p before ds rest)
    (chosen : ∀ r x, p.map.get? r = some x → IsChosen supply code registers a.map r x) :
    ∀ r x, a.map.get? r = some x → IsChosen supply code registers a.map r x := by
  induction walks generalizing before with
  | done | short => exact chosen
  | enter _ ih => exact ih reaches.enter (by rwa [map_releaseOver])
  | skip unwanted _ ih => exact ih (reaches.skip unwanted) chosen
  | @take line r x p pool _ _ _ wanted acquired onward ih =>
    -- Who holds a register now has the same one in the end, and who gets one later does not hold one yet.
    refine ih (reaches.take wanted acquired) fun s y is => ?_
    by_cases new : s = r
    · subst new
      cases (RegisterMap.get?_insert_self _ _ _).symm.trans is
      have grows : ∀ s y, p.map.get? s = some y → _ := fun s y is => onward.grows (wanted.get?_take is)
      exact ⟨before,line,reaches.isFirst wanted,reaches.exact.firstFree?_eq_some grows distinct acquired⟩
    · exact chosen s y ((RegisterMap.get?_insert_of_ne _ _ new).symm.trans is)

theorem firstFit_chooses (code : List Instruction) (supply : RegisterSupply) (distinct : registers.Nodup) :
    ∀ r x, (firstFit code supply (.ofCode code supply) registers).value.map.get? r = some x →
      IsChosen supply code registers (firstFit code supply (.ofCode code supply) registers).value.map r x := by
  refine (walks_firstFit code supply (.ofCode code supply) registers).chooses distinct (.start supply code registers) ?_
  intro r x absurdity
  cases absurdity

/-! ### Registers that are held apart -/

/-- The last mention of `r` stands before every line that defines `s`. -/
def Precedes (code : List Instruction) (r s : Register) : Prop :=
  ∀ line i, code[line]? = some i → i.defines s = true → IsPast code line r

/-- Who has had a register before it is free for another one is not mentioned any more. -/
theorem IsFirst.precedes (first : IsFirst supply code before ⟨line,s⟩)
    (free : firstFree? registers m (holders supply code before line) = some x) (owned : r ∈ supply.children)
    (met : r ∈ registersOf before) (is : m.get? r = some x) : Precedes code r s := by
  have silent : ¬ MentionedFrom code line r :=
    fun mentioned => get?_ne_of_firstFree? free (by simp [holders,owned,met,mentioned]) is
  intro there i here defines
  exact isPast_iff.2 fun mentioned => silent (mentioned.mono (first.le here defines))

/-- Of two definitions the one that stands ahead has been met at the other one. -/
theorem met_of_ahead {before' : List Definition} {there : Nat} (other : r ≠ s)
    (ahead : before ++ [⟨line,r⟩] <+: before' ++ [⟨there,s⟩]) : r ∈ registersOf before' := by
  rcases List.prefix_concat_iff.1 ahead with same | inside
  · cases (List.append_singleton_inj.1 same).2
    exact absurd rfl other
  · exact List.map_subset _ inside.subset (registersOf_concat.2 (.inr rfl))

/-- What an allocation promises of its map. -/
structure Sound (supply : RegisterSupply) (code : List Instruction) (registers : List Register) (a : Allocation) : Prop where
  assigned : ∀ r x, a.map.get? r = some x → x ∈ registers ∧ r ∈ supply.children
  disjoint : ∀ r s x, r ≠ s → a.map.get? r = some x → a.map.get? s = some x → Precedes code r s ∨ Precedes code s r
  complete : a.exhausted = none → ∀ (line : Nat) i r, code[line]? = some i → r ∈ supply.children → i.defines r = true →
    a.map.contains r = true

/-- The assignment of machine registers keeps its promises. -/
theorem firstFit_sound (code : List Instruction) (supply : RegisterSupply) (distinct : registers.Nodup) :
    (firstFit code supply (.ofCode code supply) registers).value.Sound supply code registers := by
  have chosen := firstFit_chooses code supply distinct
  refine ⟨fun r x is => ?_,fun r s x other is is' => ?_,fun enough line i r here owned defines => ?_⟩
  · obtain ⟨before,line,first,free⟩ := chosen r x is
    exact ⟨List.mem_of_find?_eq_some free,first.owned⟩
  · obtain ⟨before,line,first,free⟩ := chosen r x is
    obtain ⟨before',line',first',free'⟩ := chosen s x is'
    rcases List.prefix_or_prefix_of_prefix first.place first'.place with ahead | behind
    · exact .inl (first'.precedes free' first.owned (met_of_ahead other ahead) is)
    · exact .inr (first.precedes free first'.owned (met_of_ahead other.symm behind) is')
  · refine ((firstFit_keys code supply _ registers).1 enough r).2 ⟨owned,?_⟩
    exact mem_registersOf_definitions.2 ⟨i,List.mem_of_getElem? here,defines⟩

/-- Of two registers one of which is mentioned for the last time before the other is
    defined, no line holds both. -/
theorem Precedes.not_holds (precedes : Precedes code r s) (holds : Holds code r line) : ¬ Holds code s line := by
  rintro ⟨⟨first,i,le,here,defines⟩,-⟩
  exact holds.2 ((precedes first i here defines).mono le)

/-- Of the registers that get machine registers, two that are held on one line get
    different ones, whether or not the pool suffices. All of them are owned and defined
    somewhere, and what they get is of the pool. -/
theorem firstFit_apart (distinct : registers.Nodup) (code : List Instruction) (supply : RegisterSupply) :
    (∀ r s, r ≠ s → (firstFit code supply (.ofCode code supply) registers).value.map.contains r = true →
      (firstFit code supply (.ofCode code supply) registers).value.map.contains s = true →
      (∃ line, Holds code r line ∧ Holds code s line) →
        (firstFit code supply (.ofCode code supply) registers).value.map.get? r ≠
          (firstFit code supply (.ofCode code supply) registers).value.map.get? s) ∧
    ∀ r x, (firstFit code supply (.ofCode code supply) registers).value.map.get? r = some x →
      r ∈ supply.children ∧ x ∈ registers ∧ ∃ line, Holds code r line := by
  have sound := firstFit_sound code supply distinct
  refine ⟨?_,fun r x is => ?_⟩
  · rintro r s other assigned - ⟨line,holds,holds'⟩ same
    obtain ⟨x,is⟩ := Option.isSome_iff_exists.1 assigned
    rcases sound.disjoint r s x other is (same ▸ is) with earlier | later
    · exact earlier.not_holds holds holds'
    · exact later.not_holds holds' holds
  · obtain ⟨member,owned⟩ := sound.assigned r x is
    obtain ⟨before,line,first,-⟩ := firstFit_chooses code supply distinct r x is
    exact ⟨owned,member,line,first.holds⟩

theorem firstFit_apart_compared :
    Machine.localRegisters.Nodup ∧ ∃ (supply : RegisterSupply) (code : List Instruction),
      (∃ line, Holds code ⟨"a"⟩ line ∧ Holds code ⟨"b"⟩ line) ∧
      (firstFit code supply (.ofCode code supply) Machine.localRegisters).value.map.get? ⟨"a"⟩ ≠
        (firstFit code supply (.ofCode code supply) Machine.localRegisters).value.map.get? ⟨"b"⟩ := by
  have distinct : Machine.localRegisters.Nodup := by decide +kernel
  refine ⟨distinct,{ children := [⟨"a"⟩,⟨"b"⟩] },
    [Machine.move (.register ⟨"%i0"⟩) (.register ⟨"a"⟩),Machine.move (.register ⟨"%i1"⟩) (.register ⟨"b"⟩),
      Machine.compare (.register ⟨"a"⟩) (.register ⟨"b"⟩)],⟨1,by decide +kernel⟩,?_⟩
  exact (firstFit_apart distinct _ _).1 ⟨"a"⟩ ⟨"b"⟩ (by decide) (by decide +kernel) (by decide +kernel) ⟨1,by decide +kernel⟩

/-- Machine registers for the virtual registers of some code, by its own lifetimes. -/
def ofCode (supply : RegisterSupply) (code : List Instruction) : Allocation :=
  (firstFit code supply (.ofCode code supply) Machine.localRegisters).value

theorem ofCode_sound (supply : RegisterSupply) (code : List Instruction) :
    Sound supply code Machine.localRegisters (ofCode supply code) :=
  firstFit_sound code supply (by decide +kernel)

end Allocation

end SparcBackend
