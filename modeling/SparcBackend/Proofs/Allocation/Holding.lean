import Mathlib.Data.Finset.Card
import SparcBackend.Proofs.Allocation.Pool
import SparcBackend.Proofs.Allocation.Walk
import SparcBackend.Proofs.Lifetime

/-!
Who holds a machine register while the walk goes through the code. A register is held from
its first definition to its last mention (`Holds`). With lifetimes of the same code the
walk knows exactly that wherever it has come to (`Reaches`): those hold a register that
have been defined and are still mentioned from this line on (`holders`), each of them has
one entry of the pool (`Progress.Exact`), and nobody else has any.
-/
namespace SparcBackend.Allocation
variable {supply : RegisterSupply} {lifetimes : LifetimeTable} {code : List Instruction} {registers : List Register}
  {before ds : List Definition} {rest : List Instruction} {line next : Nat} {r x : Register} {p : Progress}

/-- The lifetime of `r` in `code` is over before a line. -/
def IsPast (code : List Instruction) (line : Nat) (r : Register) : Prop := ∀ last, (Lifetime.ofCode code r).last? = some last → last < line

/-- The line is in the stretch from the first definition of `r` to its last mention. -/
def Holds (code : List Instruction) (r : Register) (line : Nat) : Prop :=
  (∃ first i, first ≤ line ∧ code[first]? = some i ∧ i.defines r = true) ∧ ¬ IsPast code line r

/-- This line or one behind it mentions `r`. -/
def MentionedFrom (code : List Instruction) (line : Nat) (r : Register) : Prop := ∃ i ∈ code.drop line, r ∈ i.registers

instance : Decidable (MentionedFrom code line r) := inferInstanceAs (Decidable (∃ i ∈ code.drop line, r ∈ i.registers))

/-- The owned registers that have been defined and are mentioned from a line on. -/
def holders (supply : RegisterSupply) (code : List Instruction) (before : List Definition) (line : Nat) : Finset Register :=
  supply.children.toFinset.filter fun r => r ∈ registersOf before ∧ MentionedFrom code line r

theorem IsPast.mono {later : Nat} (past : IsPast code line r) (le : line ≤ later) : IsPast code later r :=
  fun last is => Nat.lt_of_lt_of_le (past last is) le

/-- A lifetime is over behind its last mention. -/
theorem IsPast.lt {i : Instruction} {there : Nat} (past : IsPast code line r) (here : code[there]? = some i)
    (member : r ∈ i.registers) : there < line := by
  obtain ⟨last,is,le⟩ := Lifetime.le_last?_ofCode here member
  exact Nat.lt_of_le_of_lt le (past last is)

theorem isPast_of_isOver (owned : r ∈ supply.children) (gone : isOver (.ofCode code supply) line r = true) :
    IsPast code line r := by
  intro last is
  simp only [isOver,LifetimeTable.get?_ofCode,if_pos owned,Option.bind_some,is] at gone
  exact of_decide_eq_true gone

theorem mentionedFrom_of_getElem? {i : Instruction} (here : code[line]? = some i) (le : next ≤ line) (member : r ∈ i.registers) :
    MentionedFrom code next r := by
  refine ⟨i,List.mem_of_getElem? (i := line-next) ?_,member⟩
  rw [List.getElem?_drop,Nat.add_sub_cancel' le]
  exact here

theorem MentionedFrom.mono (mentioned : MentionedFrom code next r) (le : line ≤ next) : MentionedFrom code line r := by
  obtain ⟨i,among,member⟩ := mentioned
  exact ⟨i,List.drop_subset_drop_left code le among,member⟩

/-- A lifetime is over when nothing mentions the register any more. -/
theorem isPast_iff : IsPast code line r ↔ ¬ MentionedFrom code line r := by
  constructor
  · rintro past ⟨i,among,member⟩
    obtain ⟨k,there⟩ := List.mem_iff_getElem?.1 among
    rw [List.getElem?_drop] at there
    have behind := past.lt there member
    omega
  · intro silent last is
    obtain ⟨i,there,member⟩ := Lifetime.exists_of_last?_ofCode is
    by_contra behind
    exact silent (mentionedFrom_of_getElem? there (Nat.le_of_not_lt behind) member)

theorem isOver_iff (owned : r ∈ supply.children) : isOver (.ofCode code supply) line r = true ↔ ¬ MentionedFrom code line r := by
  rw [← isPast_iff]
  refine ⟨isPast_of_isOver owned,fun past => ?_⟩
  simp only [isOver,LifetimeTable.get?_ofCode,if_pos owned,Option.bind_some]
  split
  · rename_i last is
    exact decide_eq_true (past last is)
  · rfl

theorem holds_of_defines {i : Instruction} (here : code[line]? = some i) (defines : i.defines r = true) : Holds code r line := by
  have mentioned : r ∈ i.registers := List.mem_append_left _ (List.contains_iff_mem.1 defines)
  exact ⟨⟨line,i,Nat.le_refl line,here,defines⟩,fun past => Nat.lt_irrefl line (past.lt here mentioned)⟩

theorem holds_iff : Holds code r line ↔ r ∈ registersOf (definitions (code.take (line+1))) ∧ MentionedFrom code line r := by
  rw [Holds,isPast_iff,not_not,mem_registersOf_definitions]
  refine and_congr_left fun _ => ⟨?_,?_⟩
  · rintro ⟨first,i,le,here,defines⟩
    exact ⟨i,List.mem_of_getElem? (by rwa [List.getElem?_take_of_lt (Nat.lt_succ_of_le le)]),defines⟩
  · rintro ⟨i,among,defines⟩
    obtain ⟨first,here⟩ := List.mem_iff_getElem?.1 among
    have le : first < line+1 := Nat.lt_of_lt_of_le (List.getElem?_eq_some_iff.1 here).1 (List.length_take_le _ _)
    exact ⟨first,i,Nat.le_of_lt_succ le,by rwa [List.getElem?_take_of_lt le] at here,defines⟩

instance : Decidable (Holds code r line) := decidable_of_iff' _ holds_iff

/-! ### Who holds what -/

/-- Every register that is held stands for one busy entry of the pool, and there are no
    others. -/
structure Progress.Balanced (registers : List Register) (p : Progress) : Prop where
  pool : p.pool.registers = registers
  busy : p.pool.busy.Perm (p.held.map Prod.snd)
  once : (p.held.map Prod.fst).Nodup

/-- What has been done when the definitions `before` have been met and the walk has come
    to a line. -/
structure Progress.Exact (supply : RegisterSupply) (code : List Instruction) (registers : List Register) (before : List Definition)
    (line : Nat) (p : Progress) : Prop extends p.Balanced registers where
  keys : HasKeys supply before p.map
  held : ∀ r x, (r,x) ∈ p.held ↔ p.map.get? r = some x ∧ MentionedFrom code line r

/-- What is held by others than `r`, where nobody holds twice. -/
theorem perm_filter_held {held : List (Register × Register)} (once : (held.map Prod.fst).Nodup) (holds : held.lookup r = some x) :
    held.Perm ((r,x) :: held.filter fun entry => entry.1 ≠ r) := by
  obtain ⟨front,back,rfl,others⟩ := List.lookup_eq_some_iff.1 holds
  rw [List.map_append,List.map_cons,List.nodup_append,List.nodup_cons] at once
  have ahead : ∀ entry ∈ front, decide (entry.1 ≠ r) = true := by
    intro entry member
    exact decide_eq_true (bne_iff_ne.1 (others entry member)).symm
  have behind : ∀ entry ∈ back, decide (entry.1 ≠ r) = true := by
    intro entry member
    exact decide_eq_true fun same => once.2.1.1 (List.mem_map.2 ⟨entry,member,same⟩)
  rw [List.filter_append,List.filter_cons_of_neg (by simp),List.filter_eq_self.2 ahead,List.filter_eq_self.2 behind]
  exact List.perm_middle

theorem releaseOne_balanced (lifetimes : LifetimeTable) (line : Nat) (balanced : p.Balanced registers) (r : Register) :
    (releaseOne lifetimes line p r).value.Balanced registers ∧ ∀ entry,
      entry ∈ (releaseOne lifetimes line p r).value.held ↔ entry ∈ p.held ∧ ¬ (entry.1 = r ∧ isOver lifetimes line r = true) := by
  unfold releaseOne
  split
  · rename_i none
    refine ⟨balanced,fun entry => ⟨fun held => ⟨held,?_⟩,And.left⟩⟩
    rintro ⟨rfl,-⟩
    have differs := List.lookup_eq_none_iff.1 none entry held
    simp at differs
  · rename_i x holds
    split
    · rename_i ended
      have others := perm_filter_held balanced.once holds
      have taken : p.pool.busy.Perm (x :: (p.held.filter fun entry => entry.1 ≠ r).map Prod.snd) := balanced.busy.trans (others.map _)
      obtain ⟨after,released,same,given⟩ := RegisterPool.busy_release (taken.mem_iff.2 List.mem_cons_self)
      rw [released]
      refine ⟨⟨same.trans balanced.pool,(given.symm.trans taken).cons_inv,?_⟩,fun entry => ?_⟩
      · exact balanced.once.sublist (List.filter_sublist.map _)
      · simp [ended]
    · rename_i lasts
      exact ⟨balanced,fun entry => by simp [lasts]⟩

theorem releaseOver_balanced (lifetimes : LifetimeTable) (line : Nat) (owned : List Register) (balanced : p.Balanced registers) :
    (releaseOver lifetimes line owned p).value.Balanced registers ∧ ∀ entry,
      entry ∈ (releaseOver lifetimes line owned p).value.held ↔
        entry ∈ p.held ∧ ¬ (entry.1 ∈ owned ∧ isOver lifetimes line entry.1 = true) := by
  rw [value_releaseOver]
  induction owned generalizing p with
  | nil => exact ⟨balanced,fun entry => by simp⟩
  | cons r rest ih =>
    obtain ⟨once,held⟩ := releaseOne_balanced lifetimes line balanced r
    obtain ⟨all,held'⟩ := ih once
    refine ⟨all,fun entry => ?_⟩
    rw [List.foldl_cons,held' entry,held entry,List.mem_cons]
    constructor
    · rintro ⟨⟨held,this⟩,others⟩
      refine ⟨held,?_⟩
      rintro ⟨rfl | later,ended⟩
      · exact this ⟨rfl,ended⟩
      · exact others ⟨later,ended⟩
    · rintro ⟨held,none⟩
      refine ⟨⟨held,?_⟩,fun later => none ⟨.inr later.1,later.2⟩⟩
      rintro ⟨rfl,ended⟩
      exact none ⟨.inl rfl,ended⟩

namespace Progress

/-- At the beginning nobody holds anything. -/
theorem exact_start (supply : RegisterSupply) (code : List Instruction) (registers : List Register) :
    Exact supply code registers [] 0 { pool := .ofList registers } where
  pool := RegisterPool.registers_ofList registers
  busy := by simp [RegisterPool.busy_ofList]
  once := by simp
  keys := by simp [HasKeys,registersOf,RegisterMap.contains,RegisterMap.get?]
  held := by simp [RegisterMap.get?]

/-- Behind the release on a line those hold a register that are mentioned from there on. -/
theorem Exact.release (exact : p.Exact supply code registers before line) (le : line ≤ next) :
    (releaseOver (.ofCode code supply) next supply.children p).value.Exact supply code registers before next := by
  obtain ⟨balanced,held⟩ := releaseOver_balanced (.ofCode code supply) next supply.children exact.toBalanced
  refine { balanced with keys := by rw [map_releaseOver]; exact exact.keys,held := fun r x => ?_ }
  rw [held (r,x),exact.held r x,map_releaseOver]
  constructor
  · rintro ⟨⟨is,-⟩,stays⟩
    have owned := ((exact.keys r).1 (by simp [RegisterMap.contains,is])).1
    refine ⟨is,?_⟩
    by_contra silent
    exact stays ⟨owned,(isOver_iff owned).2 silent⟩
  · rintro ⟨is,mentioned⟩
    refine ⟨⟨is,mentioned.mono le⟩,?_⟩
    rintro ⟨owned,ended⟩
    exact (isOver_iff owned).1 ended mentioned

theorem Exact.skip (exact : p.Exact supply code registers before line) (unwanted : ¬ p.Wants supply r) :
    p.Exact supply code registers (before ++ [⟨line,r⟩]) line :=
  { exact with keys := exact.keys.skip unwanted line }

theorem Exact.take {pool : RegisterPool} (exact : p.Exact supply code registers before line) (wanted : p.Wants supply r)
    (acquired : p.pool.acquire? = some (x,pool)) (mentioned : MentionedFrom code line r) :
    (p.take r x pool).Exact supply code registers (before ++ [⟨line,r⟩]) line := by
  obtain ⟨same,busy,-⟩ := RegisterPool.busy_acquire acquired
  have unassigned : p.map.get? r = none := by simpa [Wants,RegisterMap.contains] using wanted.2
  refine { pool := same.trans exact.pool,busy := busy.trans (exact.busy.cons x),once := ?_,keys := exact.keys.take wanted line x pool,
           held := fun s y => ?_ }
  · refine List.nodup_cons.2 ⟨fun holds => ?_,exact.once⟩
    obtain ⟨⟨s,y⟩,held,rfl⟩ := List.mem_map.1 holds
    cases unassigned.symm.trans ((exact.held s y).1 held).1
  · rw [Progress.take,List.mem_cons]
    by_cases new : s = r
    · subst new
      rw [RegisterMap.get?_insert_self]
      constructor
      · rintro (is | held)
        · cases is
          exact ⟨rfl,mentioned⟩
        · cases unassigned.symm.trans ((exact.held s y).1 held).1
      · rintro ⟨is,-⟩
        cases is
        exact .inl rfl
    · rw [RegisterMap.get?_insert_of_ne _ _ new,exact.held s y]
      simp [new]

/-- As many are busy as hold a register. -/
theorem Exact.card_holders (exact : p.Exact supply code registers before line) :
    (holders supply code before line).card = p.pool.busy.length := by
  have same : holders supply code before line = (p.held.map Prod.fst).toFinset := by
    ext r
    simp only [holders,Finset.mem_filter,List.mem_toFinset,List.mem_map,← and_assoc,← exact.keys r]
    constructor
    · rintro ⟨assigned,mentioned⟩
      obtain ⟨x,is⟩ := Option.isSome_iff_exists.1 assigned
      exact ⟨(r,x),(exact.held r x).2 ⟨is,mentioned⟩,rfl⟩
    · rintro ⟨⟨s,x⟩,held,rfl⟩
      obtain ⟨is,mentioned⟩ := (exact.held s x).1 held
      exact ⟨by simp [RegisterMap.contains,is],mentioned⟩
  rw [same,List.toFinset_card_of_nodup exact.once,List.length_map,exact.busy.length_eq,List.length_map]

/-- The pool has nothing left when as many registers are held as it has. -/
theorem Exact.acquire?_eq_none (exact : p.Exact supply code registers before line) :
    p.pool.acquire? = none ↔ (holders supply code before line).card = registers.length := by
  rw [RegisterPool.acquire?_eq_none,exact.card_holders,exact.pool]

theorem Exact.card_le (exact : p.Exact supply code registers before line) : (holders supply code before line).card ≤ registers.length := by
  rw [exact.card_holders,← exact.pool]
  exact p.pool.length_busy_le

end Progress

/-! ### Along the walk -/

theorem definitions_take_succ {i : Instruction} (here : code.drop line = i :: rest) :
    definitions (code.take (line+1)) = definitions (code.take line) ++ i.defRegisters.map (Definition.mk line) := by
  have there : code[line]? = some i := by
    rw [← Nat.add_zero line,← List.getElem?_drop,here]
    rfl
  obtain ⟨-,length⟩ := split_at_line there
  rw [List.take_add_one,there,definitions,definitionsFrom_append,length]
  simp [definitions,definitionsFrom]

theorem definitions_split (code : List Instruction) (line : Nat) :
    definitions code = definitions (code.take line) ++ definitionsFrom line (code.drop line) := by
  cases behind : code.drop line with
  | nil =>
    rw [List.take_of_length_le (List.drop_eq_nil_iff.1 behind)]
    simp [definitionsFrom]
  | cons i rest =>
    have there : code[line]? = some i := by
      rw [← Nat.add_zero line,← List.getElem?_drop,behind]
      rfl
    obtain ⟨-,length⟩ := split_at_line there
    have parts : definitions (code.take line ++ code.drop line) = _ := definitionsFrom_append 0 _ _
    rwa [List.take_append_drop,length,Nat.zero_add,behind] at parts

theorem IsFirst.holds {d : Definition} (first : IsFirst supply code before d) : Holds code d.register d.line := by
  have member : d ∈ definitions code := first.place.subset (List.mem_append_right _ (List.mem_singleton_self d))
  obtain ⟨i,here,defines⟩ := mem_definitions.1 member
  exact holds_of_defines here defines

theorem IsFirst.mentioned {d : Definition} (first : IsFirst supply code before d) : MentionedFrom code d.line d.register :=
  (holds_iff.1 first.holds).2

/-- The definitions in front of a line that is not behind `d` come before it. -/
theorem IsFirst.place_take {d : Definition} (first : IsFirst supply code before d) (line : Nat) :
    d.line < line ∧ before ++ [d] <+: definitions (code.take line) ∨ line ≤ d.line ∧ definitions (code.take line) <+: before := by
  have parts := definitions_split code line
  have front : definitions (code.take line) <+: definitions code := parts ▸ List.prefix_append _ _
  have inside (up : before ++ [d] <+: definitions (code.take line)) : d.line < line := by
    obtain ⟨i,here,-⟩ := mem_definitions.1 (up.subset (List.mem_append_right _ (List.mem_singleton_self d)))
    exact Nat.lt_of_lt_of_le (List.getElem?_eq_some_iff.1 here).1 (List.length_take_le _ _)
  rcases List.prefix_or_prefix_of_prefix first.place front with up | beyond
  · exact .inl ⟨inside up,up⟩
  rcases List.prefix_concat_iff.1 beyond with same | ⟨between,rfl⟩
  · exact .inl ⟨inside (same ▸ List.prefix_rfl),same ▸ List.prefix_rfl⟩
  · obtain ⟨behind,all⟩ := first.place
    rw [parts,List.append_assoc,List.append_assoc,List.append_cancel_left_eq] at all
    have late : d ∈ definitionsFrom line (code.drop line) := all ▸ by simp
    obtain ⟨k,_,at_,-⟩ := mem_definitionsFrom.1 late
    exact .inr ⟨by omega,List.prefix_append _ _⟩

/-- No line in front of it defines its register. -/
theorem IsFirst.le {d : Definition} (first : IsFirst supply code before d) {i : Instruction} (here : code[line]? = some i)
    (defines : i.defines d.register = true) : d.line ≤ line := by
  by_contra ahead
  rcases first.place_take d.line with ⟨absurdity,-⟩ | ⟨-,met⟩
  · exact Nat.lt_irrefl _ absurdity
  · have early : ⟨line,d.register⟩ ∈ definitions (code.take d.line) :=
      mem_definitions.2 ⟨i,by rwa [List.getElem?_take_of_lt (Nat.lt_of_not_le ahead)],defines⟩
    exact first.new (List.mem_map.2 ⟨_,met.subset early,rfl⟩)

/-- The walk has met the definitions `before`, all of them in front of the line `next`; on the
    line in front of that one it has still to look at `ds`, and then at the lines `rest`. -/
structure Reaches (supply : RegisterSupply) (code : List Instruction) (registers : List Register) (next : Nat) (p : Progress)
    (before ds : List Definition) (rest : List Instruction) : Prop where
  met : before ++ ds = definitions (code.take next)
  behind : code.drop next = rest
  exact : p.Exact supply code registers before (next-1)

namespace Reaches

theorem start (supply : RegisterSupply) (code : List Instruction) (registers : List Register) :
    Reaches supply code registers 0 { pool := .ofList registers } [] [] code :=
  ⟨rfl,rfl,Progress.exact_start supply code registers⟩

theorem enter {i : Instruction} (reaches : Reaches supply code registers next p before [] (i :: rest)) :
    Reaches supply code registers (next+1) (releaseOver (.ofCode code supply) next supply.children p).value before
      (i.defRegisters.map (Definition.mk next)) rest where
  met := by rw [definitions_take_succ reaches.behind,← reaches.met,List.append_nil]
  behind := by
    rw [← List.drop_drop,reaches.behind]
    rfl
  exact := reaches.exact.release (Nat.sub_le _ _)

theorem skip (reaches : Reaches supply code registers (line+1) p before (⟨line,r⟩ :: ds) rest) (unwanted : ¬ p.Wants supply r) :
    Reaches supply code registers (line+1) p (before ++ [⟨line,r⟩]) ds rest where
  met := by rw [← reaches.met,List.append_assoc,List.singleton_append]
  behind := reaches.behind
  exact := reaches.exact.skip unwanted

/-- Where a register wants another one, the walk has come to its first definition. -/
theorem isFirst (reaches : Reaches supply code registers (line+1) p before (⟨line,r⟩ :: ds) rest) (wanted : p.Wants supply r) :
    IsFirst supply code before ⟨line,r⟩ := by
  have all : before ++ ⟨line,r⟩ :: ds ++ definitionsFrom (line+1) rest = definitions code := by
    rw [reaches.met,← reaches.behind,← definitions_split]
  exact reaches.exact.keys.isFirst wanted all

theorem take {pool : RegisterPool} (reaches : Reaches supply code registers (line+1) p before (⟨line,r⟩ :: ds) rest)
    (wanted : p.Wants supply r) (acquired : p.pool.acquire? = some (x,pool)) :
    Reaches supply code registers (line+1) (p.take r x pool) (before ++ [⟨line,r⟩]) ds rest where
  met := by rw [← reaches.met,List.append_assoc,List.singleton_append]
  behind := reaches.behind
  exact := reaches.exact.take wanted acquired (reaches.isFirst wanted |>.mentioned)

end Reaches

end SparcBackend.Allocation
