import SparcBackend.Proofs.Allocation.Walk
import SparcBackend.Proofs.Renaming.Lines

/-!
Allocation does not look at names either. Two walks, one through code with other names,
take and give back the same machine registers at every line, and stop at the same line if
they stop.
-/
namespace SparcBackend
variable {σ : Register → Register}

def Definition.rename (σ : Register → Register) (d : Definition) : Definition := ⟨d.line,σ d.register⟩

namespace Allocation

/-- What a walk has done, and what it has done under other names. -/
structure Progress.Renames (σ : Register → Register) (p q : Progress) : Prop where
  pool : q.pool = p.pool
  map : ∀ r, q.map.get? (σ r) = p.map.get? r
  held : q.held = p.held.map fun holding => (σ holding.1,holding.2)

/-- What comes of a walk, and what comes of it under other names. -/
structure Renames (σ : Register → Register) (a b : Allocation) : Prop where
  map : ∀ r, b.map.get? (σ r) = a.map.get? r
  exhausted : b.exhausted = a.exhausted.map fun e => ⟨e.line,σ e.register⟩

section
variable (injective : Function.Injective σ) {supply : RegisterSupply} {lifetimes lifetimes' : LifetimeTable} {p q : Progress}
  {r : Register}
include injective

theorem lookup_rename (held : List (Register × Register)) (r : Register) :
    (held.map fun holding => (σ holding.1,holding.2)).lookup (σ r) = held.lookup r := by
  induction held with
  | nil => rfl
  | cons holding rest ih =>
    rw [List.map_cons,List.lookup_cons,List.lookup_cons,injective.beq_eq,ih]

theorem wants_rename (progress : p.Renames σ q) : q.Wants (supply.rename σ) (σ r) ↔ p.Wants supply r := by
  rw [wants_iff,wants_iff,owns_rename injective,RegisterMap.contains,progress.map,RegisterMap.contains]

theorem take_rename (progress : p.Renames σ q) (r x : Register) (pool : RegisterPool) :
    (p.take r x pool).Renames σ (q.take (σ r) x pool) where
  pool := rfl
  map := by
    intro s
    by_cases same : s = r
    · rw [same,Progress.take,Progress.take,RegisterMap.get?_insert_self,RegisterMap.get?_insert_self]
    · rw [Progress.take,Progress.take,RegisterMap.get?_insert_of_ne _ _ same,RegisterMap.get?_insert_of_ne _ _ (injective.ne same)]
      exact progress.map s
  held := by
    rw [Progress.take,Progress.take,progress.held,List.map_cons]

/-- A register that lives as long under its other name gives back what it holds on the same line. -/
theorem releaseOne_rename (progress : p.Renames σ q) (lives : lifetimes'.get? (σ r) = lifetimes.get? r) (line : Nat) :
    (releaseOne lifetimes line p r).value.Renames σ (releaseOne lifetimes' line q (σ r)).value := by
  have ended : isOver lifetimes' line (σ r) = isOver lifetimes line r := by rw [isOver,lives,isOver]
  have holds : q.held.lookup (σ r) = p.held.lookup r := by rw [progress.held,lookup_rename injective]
  have dropped : q.held.filter (fun holding => holding.1 ≠ σ r) =
      (p.held.filter fun holding => holding.1 ≠ r).map fun holding => (σ holding.1,holding.2) := by
    rw [progress.held,List.filter_map]
    simp only [Function.comp_def,ne_eq,injective.eq_iff]
  unfold releaseOne
  rw [holds,ended,progress.pool]
  split
  · exact progress
  · split
    · split
      · exact ⟨rfl,progress.map,dropped⟩
      · exact ⟨rfl,progress.map,dropped⟩
    · exact progress

theorem releaseOver_rename (line : Nat) (owned : List Register) (lives : ∀ r ∈ owned, lifetimes'.get? (σ r) = lifetimes.get? r)
    (progress : p.Renames σ q) :
    (releaseOver lifetimes line owned p).value.Renames σ (releaseOver lifetimes' line (owned.map σ) q).value := by
  rw [value_releaseOver,value_releaseOver,List.foldl_map]
  induction owned generalizing p q with
  | nil => exact progress
  | cons r rest ih =>
    apply ih
    · exact fun s member => lives s (List.mem_cons_of_mem _ member)
    · exact releaseOne_rename injective progress (lives r List.mem_cons_self) line

/-- One walk beside another one under other names. -/
theorem Walks.rename {next : Nat} {ds : List Definition} {rest rest' : List Instruction} {a b : Allocation}
    (lives : ∀ r ∈ supply.children, lifetimes'.get? (σ r) = lifetimes.get? r) (walks : Walks supply lifetimes next p ds rest a)
    (progress : p.Renames σ q) (lines : List.Forall₂ (SparcBackend.Renames σ) rest rest')
    (walks' : Walks (supply.rename σ) lifetimes' next q (ds.map (Definition.rename σ)) rest' b) : Renames σ a b := by
  -- Each step of one walk leaves the other one no choice.
  induction walks generalizing q rest' with
  | done =>
    cases lines
    cases walks'
    exact ⟨progress.map,rfl⟩
  | @enter next p i rest a _ ih =>
    cases lines with
    | cons renames lines =>
      cases walks' with
      | enter onward =>
        refine ih (releaseOver_rename injective next _ lives progress) lines ?_
        rw [renames.defRegisters_eq,List.map_map] at onward
        rw [List.map_map]
        exact onward
  | skip unwanted _ ih =>
    cases walks' with
    | skip _ onward => exact ih progress lines onward
    | take wanted _ _ => exact absurd ((wants_rename injective progress).1 wanted) unwanted
    | short wanted _ => exact absurd ((wants_rename injective progress).1 wanted) unwanted
  | take wanted acquired _ ih =>
    cases walks' with
    | skip unwanted _ => exact absurd ((wants_rename injective progress).2 wanted) unwanted
    | take _ acquired' onward =>
      rw [progress.pool] at acquired'
      cases acquired.symm.trans acquired'
      exact ih (take_rename injective progress _ _ _) lines onward
    | short _ none =>
      rw [progress.pool] at none
      cases acquired.symm.trans none
  | short wanted exhausted =>
    cases walks' with
    | skip unwanted _ => exact absurd ((wants_rename injective progress).2 wanted) unwanted
    | take _ acquired _ =>
      rw [progress.pool] at acquired
      cases exhausted.symm.trans acquired
    | short _ _ => exact ⟨progress.map,rfl⟩

/-- Code under other names gets the same machine registers, and as far. -/
theorem firstFit_renames {code code' : List Instruction} (lines : List.Forall₂ (SparcBackend.Renames σ) code code')
    (lives : ∀ r ∈ supply.children, lifetimes'.get? (σ r) = lifetimes.get? r) (registers : List Register) :
    Renames σ (firstFit code supply lifetimes registers).value
      (firstFit code' (supply.rename σ) lifetimes' registers).value := by
  apply Walks.rename injective lives (walks_firstFit code supply lifetimes registers)
  · exact ⟨rfl,fun _ => rfl,rfl⟩
  · exact lines
  · exact walks_firstFit code' _ _ registers

end

end Allocation

end SparcBackend
