import SparcBackend.Proofs.Allocation.Holding

/-!
How many registers an allocation needs. The pressure on a line is the number of owned
registers that are held there, and a pool suffices exactly if the pressure is nowhere
greater than its size: first fit wastes nothing. Where it does not suffice, the walk stops
at the first definition for which no register is left, on the first line with too great
a pressure.
-/
namespace SparcBackend.Allocation
variable {supply : RegisterSupply} {code rest : List Instruction} {registers : List Register} {before ds : List Definition}
  {line next : Nat} {r : Register} {p : Progress} {a : Allocation}

/-- The number of owned registers that are held on a line. -/
def pressure (supply : RegisterSupply) (code : List Instruction) (line : Nat) : Nat :=
  (supply.children.toFinset.filter fun r => Holds code r line).card

/-- Behind the definitions `before` comes one of an owned register that is not assigned
    yet, when as many registers are held as there are. -/
structure IsShort (supply : RegisterSupply) (code : List Instruction) (size : Nat) (before : List Definition) (d : Definition) :
    Prop where
  owned : d.register ∈ supply.children
  new : d.register ∉ registersOf before
  full : (holders supply code before d.line).card = size

/-- When all definitions of a line have been met, those registers are held that the line is
    in the stretch of. -/
theorem pressure_eq (supply : RegisterSupply) (code : List Instruction) (line : Nat) :
    pressure supply code line = (holders supply code (definitions (code.take (line+1))) line).card := by
  unfold pressure holders
  refine congrArg Finset.card (Finset.filter_congr fun r _ => ?_)
  rw [holds_iff]

/-- A first definition adds to what is held on its line. -/
theorem IsFirst.card_holders_lt {d : Definition} (first : IsFirst supply code before d) :
    (holders supply code before d.line).card < pressure supply code d.line := by
  obtain ⟨-,ds,met⟩ : _ ∧ before ++ [d] <+: definitions (code.take (d.line+1)) :=
    (first.place_take (d.line+1)).resolve_right fun beyond => Nat.not_succ_le_self _ beyond.1
  rw [pressure_eq,← met]
  refine Finset.card_lt_card ((Finset.ssubset_iff_of_subset ?_).2 ⟨d.register,?_,?_⟩)
  · refine Finset.monotone_filter_right _ fun s _ held => ⟨?_,held.2⟩
    rw [List.append_assoc]
    exact List.map_subset _ (List.subset_append_left _ _) held.1
  · simp [holders,first.owned,registersOf,first.mentioned]
  · simp [holders,first.new]

theorem pressure_eq_zero (beyond : code.length ≤ line) : pressure supply code line = 0 := by
  have silent : ∀ r, ¬ Holds code r line := by
    intro r holds
    obtain ⟨i,among,-⟩ := (holds_iff.1 holds).2
    rw [List.drop_eq_nil_iff.2 beyond] at among
    cases among
  simp [pressure,silent]

/-! ### Where an allocation stops -/

/-- Why an allocation from `size` registers with the definitions `before` behind it stops
    at the next one. -/
structure Explains (supply : RegisterSupply) (code : List Instruction) (size : Nat) (m : RegisterMap) (before : List Definition)
    (d : Definition) : Prop extends StopsAt supply code m before d where
  full : (holders supply code before d.line).card = size
  first : ∀ earlier other, earlier ++ [other] <+: before → ¬ IsShort supply code size earlier other
  exceeds : size < pressure supply code d.line
  least : ∀ line < d.line, pressure supply code line ≤ size

theorem not_isShort_concat {size : Nat} (none : ∀ earlier other, earlier ++ [other] <+: before → ¬ IsShort supply code size earlier other)
    {d : Definition} (last : ¬ IsShort supply code size before d) :
    ∀ earlier other, earlier ++ [other] <+: before ++ [d] → ¬ IsShort supply code size earlier other := by
  intro earlier other inside
  rcases List.prefix_concat_iff.1 inside with same | inside
  · obtain ⟨rfl,rfl⟩ := List.append_singleton_inj.1 same
    exact last
  · exact none earlier other inside

/-- When all definitions of a line have been met, its pressure fits. -/
theorem Reaches.fits (reaches : Reaches supply code registers next p before [] rest)
    (fits : ∀ line, line+1 < next → pressure supply code line ≤ registers.length) (inside : line < next) :
    pressure supply code line ≤ registers.length := by
  rcases Nat.lt_or_eq_of_le (Nat.succ_le_of_lt inside) with ahead | rfl
  · exact fits line ahead
  · rw [pressure_eq,← reaches.met,List.append_nil]
    exact reaches.exact.card_le

/-- A walk that goes to the end has met no pressure above the size of its pool, and any
    other one stops where the pool is too small. -/
theorem Walks.explains (walks : Walks supply (.ofCode code supply) next p ds rest a)
    (reaches : Reaches supply code registers next p before ds rest)
    (enough : ∀ earlier other, earlier ++ [other] <+: before → ¬ IsShort supply code registers.length earlier other)
    (fits : ∀ line, line+1 < next → pressure supply code line ≤ registers.length) :
    (a.exhausted = none → ∀ line, pressure supply code line ≤ registers.length) ∧
      ∀ e, a.exhausted = some e → ∃ met, Explains supply code registers.length a.map met e.definition := by
  -- The pressure of a line is known when all its definitions have been met, so `fits` is one line behind.
  induction walks generalizing before with
  | @done next p =>
    refine ⟨fun _ line => ?_,?_⟩
    · rcases Nat.lt_or_ge line next with inside | beyond
      · exact reaches.fits fits inside
      · rw [pressure_eq_zero (Nat.le_trans (List.drop_eq_nil_iff.1 reaches.behind) beyond)]
        exact Nat.zero_le _
    · intro e absurdity
      cases absurdity
  | enter _ ih => exact ih reaches.enter enough fun line ahead => reaches.fits fits (Nat.lt_of_succ_lt_succ ahead)
  | skip unwanted _ ih =>
    refine ih (reaches.skip unwanted) (not_isShort_concat enough ?_) fits
    exact fun short => unwanted (reaches.exact.keys.wants short.owned short.new)
  | take wanted acquired _ ih =>
    refine ih (reaches.take wanted acquired) (not_isShort_concat enough ?_) fits
    exact fun short => Option.some_ne_none _ (acquired.symm.trans (reaches.exact.acquire?_eq_none.2 short.full))
  | short wanted exhausted =>
    refine ⟨?_,?_⟩
    · intro absurdity
      cases absurdity
    · rintro e same
      cases same
      have first := reaches.isFirst wanted
      have full := reaches.exact.acquire?_eq_none.1 exhausted
      exact ⟨before,⟨first,reaches.exact.keys⟩,full,enough,full.symm.trans_lt first.card_holders_lt,
        fun earlier ahead => fits earlier (Nat.succ_lt_succ ahead)⟩

/-- An allocation by lifetimes of its own code runs out of registers exactly if the
    pressure exceeds the size of the pool somewhere. If it does not run out, all owned
    registers that are defined have machine registers. If it does, it stops at the first
    definition that finds all registers held, which is on the first line where the pressure
    is too great, and the owned registers defined before have machine registers. -/
theorem firstFit_exhausted (code : List Instruction) (supply : RegisterSupply) (registers : List Register) :
    ((firstFit code supply (.ofCode code supply) registers).value.exhausted = none ↔
      ∀ line, pressure supply code line ≤ registers.length) ∧
    ((firstFit code supply (.ofCode code supply) registers).value.exhausted = none → ∀ r,
      (firstFit code supply (.ofCode code supply) registers).value.map.contains r = true ↔
        r ∈ supply.children ∧ ∃ i ∈ code, i.defines r = true) ∧
    ∀ e, (firstFit code supply (.ofCode code supply) registers).value.exhausted = some e →
      ∃ before, before ++ [e.definition] <+: definitions code ∧ IsShort supply code registers.length before e.definition ∧
        (∀ earlier d, earlier ++ [d] <+: before → ¬ IsShort supply code registers.length earlier d) ∧
        registers.length < pressure supply code e.line ∧ (∀ line < e.line, pressure supply code line ≤ registers.length) ∧
        ∀ r, (firstFit code supply (.ofCode code supply) registers).value.map.contains r = true ↔
          r ∈ supply.children ∧ r ∈ registersOf before := by
  obtain ⟨enough,short⟩ := (walks_firstFit code supply (.ofCode code supply) registers).explains (.start supply code registers)
    (by simp) (by simp)
  refine ⟨⟨enough,fun fits => ?_⟩,fun went r => ?_,fun e stopped => ?_⟩
  · by_contra stopped
    obtain ⟨e,stopped⟩ := Option.ne_none_iff_exists'.1 stopped
    obtain ⟨_,explains⟩ := short e stopped
    exact absurd (fits e.line) (Nat.not_le_of_lt explains.exceeds)
  · rw [(firstFit_keys code supply _ registers).1 went r,mem_registersOf_definitions]
  · obtain ⟨before,explains⟩ := short e stopped
    exact ⟨before,explains.place,⟨explains.owned,explains.new,explains.full⟩,explains.first,explains.exceeds,explains.least,explains.keys⟩

end SparcBackend.Allocation
