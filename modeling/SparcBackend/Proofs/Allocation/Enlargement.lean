import SparcBackend.Proofs.Allocation.Pool
import SparcBackend.Proofs.Allocation.Walk

/-!
What more registers change of an allocation. Two walks, one with some free registers
behind the pool of the other, go step by step alike until the smaller pool has none left;
there the larger one takes the first of its additional registers and goes on. So an
allocation that suffices stays as it is, and one that does not is continued, whatever
the lifetimes say.
-/
namespace SparcBackend.Allocation
variable {supply : RegisterSupply} {lifetimes : LifetimeTable} {code rest : List Instruction} {next : Nat} {ds : List Definition}
  {p : Progress} {a b : Allocation}

/-- What has been done, with more free registers behind the pool. -/
def Progress.extend (p : Progress) (more : List Register) : Progress := { p with pool := p.pool.extend more }

theorem releaseOne_extend (line : Nat) (p : Progress) (r : Register) (more : List Register) :
    (releaseOne lifetimes line (p.extend more) r).value = (releaseOne lifetimes line p r).value.extend more := by
  simp only [releaseOne,Progress.extend,RegisterPool.release?_extend]
  split
  · rfl
  · rename_i assigned holds
    split
    · cases p.pool.release? assigned with
      | none => rfl
      | some after => rfl
    · rfl

theorem releaseOver_extend (line : Nat) (owned : List Register) (p : Progress) (more : List Register) :
    (releaseOver lifetimes line owned (p.extend more)).value = (releaseOver lifetimes line owned p).value.extend more := by
  rw [value_releaseOver,value_releaseOver]
  exact List.foldl_hom (fun p => Progress.extend p more) fun p r => releaseOne_extend line p r more

/-- One walk beside another that has more registers. -/
theorem Walks.extend {more : List Register} (small : Walks supply lifetimes next p ds rest a)
    (large : Walks supply lifetimes next (p.extend more) ds rest b) : (a.exhausted = none → b = a) ∧
      ∀ e, a.exhausted = some e → (∀ r x, a.map.get? r = some x → b.map.get? r = some x) ∧
        (more ≠ [] → b.map.contains e.register = true) := by
  -- The larger walk can do nothing else than the smaller one, except where that one stops.
  induction small generalizing b with
  | done =>
    cases large
    refine ⟨fun _ => rfl,?_⟩
    intro e absurdity
    cases absurdity
  | enter _ ih =>
    cases large with
    | enter onward => exact ih (by rwa [← releaseOver_extend])
  | skip unwanted _ ih =>
    cases large with
    | skip _ onward => exact ih onward
    | take wanted _ _ => exact absurd wanted unwanted
    | short wanted _ => exact absurd wanted unwanted
  | take wanted acquired _ ih =>
    have same := RegisterPool.acquire?_extend acquired more
    cases large with
    | skip unwanted _ => exact absurd wanted unwanted
    | take _ acquired' onward =>
      cases same.symm.trans acquired'
      exact ih onward
    | short _ none => cases same.symm.trans none
  | short wanted _ =>
    refine ⟨?_,?_⟩
    · intro absurdity
      cases absurdity
    rintro e same
    cases same
    cases large with
    | skip unwanted _ => exact absurd wanted unwanted
    | take _ _ onward =>
      refine ⟨fun r x is => onward.grows (Progress.Wants.get?_take wanted is),fun _ => ?_⟩
      simp [RegisterMap.contains,onward.grows (RegisterMap.get?_insert_self _ _ _)]
    | short _ none => exact ⟨fun _ _ => id,fun some => absurd none (RegisterPool.acquire?_extend_ne_none some)⟩

/-- In the order of the code, `second` comes behind `first`, and each of them is the first
    definition of its register. -/
def IsBehind (code : List Instruction) (first second : Definition) : Prop :=
  ∃ before between, before ++ first :: between ++ [second] <+: definitions code ∧ first.register ∉ registersOf before ∧
    second.register ∉ registersOf (before ++ first :: between)

/-- A walk that has assigned a register where another one stops does not stop before. -/
theorem StopsAt.isBehind {m m' : RegisterMap} {before before' : List Definition} {d d' : Definition}
    (stops : StopsAt supply code m before d) (stops' : StopsAt supply code m' before' d') (assigned : m'.contains d.register = true) :
    IsBehind code d d' := by
  have met : d.register ∈ registersOf before' := ((stops'.keys d.register).1 assigned).2
  have beyond : before ++ [d] <+: before' := by
    have front : before' <+: definitions code := (List.prefix_append before' [d']).trans stops'.place
    rcases List.prefix_or_prefix_of_prefix front stops.place with inside | beyond
    · rcases List.prefix_concat_iff.1 inside with rfl | inside
      · exact List.prefix_rfl
      · exact absurd (List.map_subset _ inside.subset met) stops.new
    · exact beyond
  obtain ⟨between,rfl⟩ := beyond
  refine ⟨before,between,?_,stops.new,?_⟩
  · simpa using stops'.place
  · simpa using stops'.new

/-- More registers only extend an allocation. If the registers suffice, more of them
    change nothing; if they do not, what they were assigned to stays assigned, and if with
    some more of them the allocation stops again, it does so at a later definition. -/
theorem firstFit_append (code : List Instruction) (supply : RegisterSupply) (lifetimes : LifetimeTable)
    (registers more : List Register) :
    ((firstFit code supply lifetimes registers).value.exhausted = none →
      (firstFit code supply lifetimes (registers ++ more)).value = (firstFit code supply lifetimes registers).value) ∧
    ∀ e, (firstFit code supply lifetimes registers).value.exhausted = some e →
      (∀ r x, (firstFit code supply lifetimes registers).value.map.get? r = some x →
        (firstFit code supply lifetimes (registers ++ more)).value.map.get? r = some x) ∧
      (more ≠ [] → ∀ later, (firstFit code supply lifetimes (registers ++ more)).value.exhausted = some later →
        IsBehind code e.definition later.definition) := by
  have large := walks_firstFit code supply lifetimes (registers ++ more)
  rw [RegisterPool.ofList_append] at large
  obtain ⟨enough,short⟩ := (walks_firstFit code supply lifetimes registers).extend large
  refine ⟨enough,fun e stopped => ⟨(short e stopped).1,fun some later stoppedLater => ?_⟩⟩
  obtain ⟨before,stops⟩ := (firstFit_keys code supply lifetimes registers).2 e stopped
  obtain ⟨before',stops'⟩ := (firstFit_keys code supply lifetimes (registers ++ more)).2 later stoppedLater
  exact stops.isBehind stops' ((short e stopped).2 some)

end SparcBackend.Allocation
