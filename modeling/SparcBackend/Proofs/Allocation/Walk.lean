import Mathlib.Tactic.Common
import SparcBackend.Allocation.FirstFit

/-!
The walk through the code, one definition at a time (`Walks`). Whatever the pool and the
lifetimes are, an allocation has assigned machine registers to the owned registers among
the definitions that it has met, and to no others; and it stops at the first definition
of the register that it has none for.
-/
namespace SparcBackend
variable {code : List Instruction} {r : Register}

/-! ### Definitions in the order of the code -/

/-- A register that stands in a written slot of a line. -/
structure Definition where
  line : Nat
  register : Register
deriving DecidableEq

/-- The definitions in code whose first line has the number `line`, line by line and slot
    by slot. -/
def definitionsFrom (line : Nat) : List Instruction → List Definition
  | [] => []
  | i :: rest => i.defRegisters.map (Definition.mk line) ++ definitionsFrom (line+1) rest

def definitions (code : List Instruction) : List Definition := definitionsFrom 0 code

def registersOf (ds : List Definition) : List Register := ds.map Definition.register

theorem definitionsFrom_append (line : Nat) (first second : List Instruction) :
    definitionsFrom line (first ++ second) = definitionsFrom line first ++ definitionsFrom (line+first.length) second := by
  induction first generalizing line with
  | nil => rfl
  | cons i rest ih =>
    simp only [List.cons_append,definitionsFrom,List.length_cons,List.append_assoc]
    rw [ih,Nat.add_assoc,Nat.add_comm 1]

theorem mem_definitionsFrom {line : Nat} {d : Definition} : d ∈ definitionsFrom line code ↔
    ∃ k i, d.line = line+k ∧ code[k]? = some i ∧ i.defines d.register = true := by
  induction code generalizing line with
  | nil => simp [definitionsFrom]
  | cons i rest ih =>
    simp only [definitionsFrom,List.mem_append,List.mem_map,ih]
    constructor
    · rintro (⟨r,member,rfl⟩ | ⟨k,j,at_,here,defines⟩)
      · exact ⟨0,i,rfl,rfl,List.contains_iff_mem.2 member⟩
      · exact ⟨k+1,j,by omega,here,defines⟩
    · rintro ⟨k,j,at_,here,defines⟩
      cases k with
      | zero =>
        cases here
        exact .inl ⟨d.register,List.contains_iff_mem.1 defines,by rw [← Nat.add_zero line,← at_]⟩
      | succ k => exact .inr ⟨k,j,by omega,here,defines⟩

theorem mem_definitions {d : Definition} :
    d ∈ definitions code ↔ ∃ i, code[d.line]? = some i ∧ i.defines d.register = true := by
  simp only [definitions,mem_definitionsFrom,Nat.zero_add]
  constructor
  · rintro ⟨-,i,rfl,here,defines⟩
    exact ⟨i,here,defines⟩
  · rintro ⟨i,here,defines⟩
    exact ⟨_,i,rfl,here,defines⟩

theorem mem_registersOf_definitions : r ∈ registersOf (definitions code) ↔ ∃ i ∈ code, i.defines r = true := by
  simp only [registersOf,List.mem_map,mem_definitions]
  constructor
  · rintro ⟨d,⟨i,here,defines⟩,rfl⟩
    exact ⟨i,List.mem_of_getElem? here,defines⟩
  · rintro ⟨i,member,defines⟩
    obtain ⟨line,here⟩ := List.mem_iff_getElem?.1 member
    exact ⟨⟨line,r⟩,⟨i,here,defines⟩,rfl⟩

def Exhaustion.definition (e : Exhaustion) : Definition := ⟨e.line,e.register⟩

namespace Allocation
variable {supply : RegisterSupply} {lifetimes : LifetimeTable} {registers : List Register} {p : Progress} {a : Allocation}

/-! ### One definition at a time -/

/-- A register that is owned and has no machine register yet. -/
def Progress.Wants (supply : RegisterSupply) (p : Progress) (r : Register) : Prop :=
  r ∈ supply.children ∧ p.map.contains r = false

/-- `r` takes `x`, which leaves `pool`. -/
def Progress.take (p : Progress) (r x : Register) (pool : RegisterPool) : Progress :=
  { pool,map := p.map.insert r x,held := (r,x) :: p.held }

/-- What comes of a walk that has still to look at some definitions on the line in front of
    the line `next`, and then at the rest of the code from there on. -/
inductive Walks (supply : RegisterSupply) (lifetimes : LifetimeTable) :
    Nat → Progress → List Definition → List Instruction → Allocation → Prop
  | done {next : Nat} {p : Progress} : Walks supply lifetimes next p [] [] { map := p.map }
  | enter {next : Nat} {p : Progress} {i : Instruction} {rest : List Instruction} {a : Allocation}
      (onward : Walks supply lifetimes (next+1) (releaseOver lifetimes next supply.children p).value
        (i.defRegisters.map (Definition.mk next)) rest a) : Walks supply lifetimes next p [] (i :: rest) a
  | skip {line : Nat} {r : Register} {p : Progress} {ds : List Definition} {rest : List Instruction} {a : Allocation}
      (unwanted : ¬ p.Wants supply r) (onward : Walks supply lifetimes (line+1) p ds rest a) :
      Walks supply lifetimes (line+1) p (⟨line,r⟩ :: ds) rest a
  | take {line : Nat} {r x : Register} {p : Progress} {pool : RegisterPool} {ds : List Definition} {rest : List Instruction}
      {a : Allocation} (wanted : p.Wants supply r) (acquired : p.pool.acquire? = some (x,pool))
      (onward : Walks supply lifetimes (line+1) (p.take r x pool) ds rest a) :
      Walks supply lifetimes (line+1) p (⟨line,r⟩ :: ds) rest a
  | short {line : Nat} {r : Register} {p : Progress} {ds : List Definition} {rest : List Instruction}
      (wanted : p.Wants supply r) (exhausted : p.pool.acquire? = none) :
      Walks supply lifetimes (line+1) p (⟨line,r⟩ :: ds) rest { map := p.map,exhausted := some ⟨line,r⟩ }

theorem wants_iff : p.Wants supply r ↔ (supply.owns r && !p.map.contains r) = true := by
  simp [Progress.Wants,RegisterSupply.owns]

theorem Walks.of_assignAll (supply : RegisterSupply) (lifetimes : LifetimeTable) (line : Nat) (rest : List Instruction)
    (rs : List Register) (p : Progress) :
    (∀ e, (assignAll supply line p rs).value.2 = some e → Walks supply lifetimes (line+1) p (rs.map (Definition.mk line)) rest
      { map := (assignAll supply line p rs).value.1.map,exhausted := some e }) ∧
    ((assignAll supply line p rs).value.2 = none → ∀ a, Walks supply lifetimes (line+1) (assignAll supply line p rs).value.1 [] rest a →
      Walks supply lifetimes (line+1) p (rs.map (Definition.mk line)) rest a) := by
  induction rs generalizing p with
  | nil =>
    refine ⟨?_,fun _ _ => id⟩
    intro e absurdity
    cases absurdity
  | cons r rest' ih =>
    rw [assignAll]
    split
    · rename_i wanted
      split
      · rename_i x pool acquired
        obtain ⟨stops,goes⟩ := ih (p.take r x pool)
        refine ⟨fun e stopped => ?_,fun went a onward => ?_⟩
        · exact .take (wants_iff.2 wanted) acquired (stops e stopped)
        · exact .take (wants_iff.2 wanted) acquired (goes went a onward)
      · rename_i none
        refine ⟨?_,fun absurdity => ?_⟩
        · rintro e same
          cases same
          exact .short (wants_iff.2 wanted) none
        · cases absurdity
    · rename_i unwanted
      obtain ⟨stops,goes⟩ := ih p
      refine ⟨fun e stopped => ?_,fun went a onward => ?_⟩
      · exact .skip (fun wants => unwanted (wants_iff.1 wants)) (stops e stopped)
      · exact .skip (fun wants => unwanted (wants_iff.1 wants)) (goes went a onward)

theorem walks_walk (rest : List Instruction) (next : Nat) (p : Progress) :
    Walks supply lifetimes next p [] rest (walk supply lifetimes next p rest).value := by
  induction rest generalizing next p with
  | nil => exact .done
  | cons i rest ih =>
    refine .enter ?_
    obtain ⟨stops,goes⟩ := Walks.of_assignAll supply lifetimes next rest i.defRegisters (releaseOver lifetimes next supply.children p).value
    simp only [walk,Logged.value_bind]
    split
    · rename_i e stopped
      exact stops e stopped
    · rename_i went
      exact goes went _ (ih _ _)

theorem walks_firstFit (code : List Instruction) (supply : RegisterSupply) (lifetimes : LifetimeTable) (registers : List Register) :
    Walks supply lifetimes 0 { pool := .ofList registers } [] code (firstFit code supply lifetimes registers).value :=
  walks_walk code 0 _

/-! ### What is assigned -/

theorem value_releaseOver (line : Nat) (owned : List Register) (p : Progress) : (releaseOver lifetimes line owned p).value =
    owned.foldl (fun p r => (releaseOne lifetimes line p r).value) p := by
  induction owned generalizing p with
  | nil => rfl
  | cons r rest ih => exact ih _

theorem map_releaseOne (line : Nat) (p : Progress) (r : Register) : (releaseOne lifetimes line p r).value.map = p.map := by
  unfold releaseOne
  split
  · rfl
  · split
    · split <;> rfl
    · rfl

theorem map_releaseOver (line : Nat) (owned : List Register) (p : Progress) :
    (releaseOver lifetimes line owned p).value.map = p.map := by
  rw [value_releaseOver]
  induction owned generalizing p with
  | nil => rfl
  | cons r rest ih => exact (ih _).trans (map_releaseOne line p r)

theorem Progress.Wants.get?_take {s x y : Register} {pool : RegisterPool} (wanted : p.Wants supply r) (is : p.map.get? s = some y) :
    (p.take r x pool).map.get? s = some y := by
  have other : s ≠ r := by
    rintro rfl
    simp [RegisterMap.contains,is,Progress.Wants] at wanted
  rwa [Progress.take,RegisterMap.get?_insert_of_ne _ _ other]

theorem Progress.contains_take {s x : Register} {pool : RegisterPool} :
    (p.take r x pool).map.contains s = true ↔ p.map.contains s = true ∨ s = r := by
  by_cases same : s = r
  · simp [same,Progress.take,RegisterMap.contains]
  · simp [same,Progress.take,RegisterMap.contains,RegisterMap.get?_insert_of_ne _ _ same]

/-- What has been assigned stays assigned. -/
theorem Walks.grows {next : Nat} {ds : List Definition} {rest : List Instruction} (walks : Walks supply lifetimes next p ds rest a)
    {x : Register} (is : p.map.get? r = some x) : a.map.get? r = some x := by
  induction walks with
  | done | short => exact is
  | enter _ ih => exact ih (by rwa [map_releaseOver])
  | skip _ _ ih => exact ih is
  | take wanted _ _ ih => exact ih (wanted.get?_take is)

/-- The owned registers among some definitions have machine registers, and no others. -/
def HasKeys (supply : RegisterSupply) (ds : List Definition) (m : RegisterMap) : Prop :=
  ∀ r, m.contains r = true ↔ r ∈ supply.children ∧ r ∈ registersOf ds

/-- Behind the definitions `before` comes the first one of an owned register. -/
structure IsFirst (supply : RegisterSupply) (code : List Instruction) (before : List Definition) (d : Definition) : Prop where
  place : before ++ [d] <+: definitions code
  owned : d.register ∈ supply.children
  new : d.register ∉ registersOf before

/-- A walk stops at a first definition, and has assigned machine registers to those owned
    registers that were defined before. -/
structure StopsAt (supply : RegisterSupply) (code : List Instruction) (m : RegisterMap) (before : List Definition) (d : Definition) :
    Prop extends IsFirst supply code before d where
  keys : HasKeys supply before m

theorem registersOf_concat {ds : List Definition} {line : Nat} {s : Register} :
    s ∈ registersOf (ds ++ [⟨line,r⟩]) ↔ s ∈ registersOf ds ∨ s = r := by
  simp [registersOf]

/-- An owned register that has not been met wants a machine register. -/
theorem HasKeys.wants {before : List Definition} (keys : HasKeys supply before p.map) (owned : r ∈ supply.children)
    (new : r ∉ registersOf before) : p.Wants supply r := by
  refine ⟨owned,?_⟩
  rw [← Bool.not_eq_true,keys]
  exact fun known => new known.2

theorem HasKeys.skip {before : List Definition} (keys : HasKeys supply before p.map) (unwanted : ¬ p.Wants supply r) (line : Nat) :
    HasKeys supply (before ++ [⟨line,r⟩]) p.map := by
  intro s
  rw [keys s,registersOf_concat]
  refine and_congr_right fun owned => ⟨.inl,?_⟩
  rintro (before | rfl)
  · exact before
  · by_contra new
    exact unwanted (keys.wants owned new)

theorem HasKeys.take {before : List Definition} (keys : HasKeys supply before p.map) (wanted : p.Wants supply r) (line : Nat)
    (x : Register) (pool : RegisterPool) : HasKeys supply (before ++ [⟨line,r⟩]) (p.take r x pool).map := by
  intro s
  rw [Progress.contains_take,keys s,registersOf_concat,and_or_left]
  refine or_congr_right ⟨?_,And.right⟩
  rintro rfl
  exact ⟨wanted.1,rfl⟩

/-- The next definition of a register that wants one is its first. -/
theorem HasKeys.new {before : List Definition} (keys : HasKeys supply before p.map) (wanted : p.Wants supply r) :
    r ∉ registersOf before := by
  intro known
  have assigned := (keys r).2 ⟨wanted.1,known⟩
  simp [wanted.2] at assigned

theorem HasKeys.isFirst {before ds : List Definition} {line : Nat} {rest : List Instruction} (keys : HasKeys supply before p.map)
    (wanted : p.Wants supply r) (all : before ++ ⟨line,r⟩ :: ds ++ definitionsFrom (line+1) rest = definitions code) :
    IsFirst supply code before ⟨line,r⟩ :=
  ⟨⟨ds ++ definitionsFrom (line+1) rest,by simp [← all]⟩,wanted.1,keys.new wanted⟩

theorem Walks.keys {next : Nat} {ds : List Definition} {rest : List Instruction} (walks : Walks supply lifetimes next p ds rest a)
    {before : List Definition} (keys : HasKeys supply before p.map) (all : before ++ ds ++ definitionsFrom next rest = definitions code) :
    (a.exhausted = none → HasKeys supply (definitions code) a.map) ∧
      ∀ e, a.exhausted = some e → ∃ met, StopsAt supply code a.map met e.definition := by
  induction walks generalizing before with
  | done =>
    simp only [definitionsFrom,List.append_nil] at all
    refine ⟨fun _ => all ▸ keys,?_⟩
    intro e absurdity
    cases absurdity
  | enter _ ih =>
    refine ih (by rwa [map_releaseOver]) ?_
    rw [← all,definitionsFrom,List.append_nil,List.append_assoc]
  | skip unwanted _ ih => exact ih (keys.skip unwanted _) (by rw [← all,List.append_assoc before,List.singleton_append])
  | take wanted _ _ ih => exact ih (keys.take wanted _ _ _) (by rw [← all,List.append_assoc before,List.singleton_append])
  | short wanted exhausted =>
    refine ⟨?_,?_⟩
    · intro absurdity
      cases absurdity
    · rintro e same
      cases same
      exact ⟨before,keys.isFirst wanted all,keys⟩

/-- An allocation assigns a machine register to every owned register that is defined, or
    to those that are defined before the definition at which it stops. -/
theorem firstFit_keys (code : List Instruction) (supply : RegisterSupply) (lifetimes : LifetimeTable) (registers : List Register) :
    ((firstFit code supply lifetimes registers).value.exhausted = none →
        HasKeys supply (definitions code) (firstFit code supply lifetimes registers).value.map) ∧
      ∀ e, (firstFit code supply lifetimes registers).value.exhausted = some e →
        ∃ met, StopsAt supply code (firstFit code supply lifetimes registers).value.map met e.definition := by
  have none : HasKeys supply [] {} := by simp [HasKeys,registersOf,RegisterMap.contains,RegisterMap.get?]
  exact (walks_firstFit code supply lifetimes registers).keys none rfl

end Allocation

end SparcBackend
