import SparcBackend.Proofs.Peephole.Passes

/-!
A pass that changes nothing has found nothing to change. It tries every line, with the
lifetimes that the code has then, and code that a change has made lighter is not the code
it was. So the optimizer stops where no rule applies any more, and starts from there in
vain.
-/
namespace SparcBackend.Peephole
open Machine (Target)

section
variable {t : Target} {supply : RegisterSupply} {code : List Instruction} {line : Nat}

theorem changeAt?_outside (outside : code.length ≤ line) : changeAt? t supply code line = none := by
  rw [changeAt?,List.drop_eq_nil_of_le outside]

/-- A sweep is quiet exactly when there is no change from its line on. -/
theorem sweepFrom_quiet_iff : (sweepFrom t supply code line).changed = false ↔
    ∀ later, line ≤ later → changeAt? t supply code later = none := by
  fun_induction sweepFrom t supply code line with
  | case1 code line inside c made ih =>
    constructor
    · intro quiet
      cases quiet
    · intro none
      cases made.symm.trans (none line (Nat.le_refl _))
  | case2 code line inside none ih =>
    rw [ih]
    constructor
    · intro behind later le
      rcases Nat.eq_or_lt_of_le le with rfl | beyond
      · exact none
      · exact behind later beyond
    · exact fun all later le => all later (Nat.le_of_succ_le le)
  | case3 code line outside =>
    refine ⟨fun _ later le => ?_,fun _ => rfl⟩
    apply changeAt?_outside
    omega

theorem sweepFrom_of_quiet (quiet : (sweepFrom t supply code line).changed = false) :
    (sweepFrom t supply code line).code = code := by
  fun_induction sweepFrom t supply code line with
  | case1 code line inside c made ih => cases quiet
  | case2 code line inside none ih => exact ih quiet
  | case3 code line outside => rfl

/-- A sweep leaves the code as it is exactly when it is quiet. -/
theorem sweep_code_eq_iff : (sweep t supply code).code = code ↔ (sweep t supply code).changed = false := by
  constructor
  · intro same
    by_contra changed
    have lighter := weight_sweep_lt (Bool.not_eq_false _ ▸ changed)
    rw [same] at lighter
    exact absurd lighter (Nat.lt_irrefl _)
  · exact sweepFrom_of_quiet

/-- A sweep over optimized code is quiet. -/
theorem sweep_optimize_quiet (t : Target) (supply : RegisterSupply) (code : List Instruction) :
    (sweep t supply (optimize t supply code).code).changed = false := by
  induction code using sweeps.induct t supply with
  | case1 code changed ih =>
    rw [optimize_code,if_pos changed]
    exact ih
  | case2 code unchanged =>
    have quiet : (sweep t supply code).changed = false := Bool.eq_false_iff.2 unchanged
    rw [optimize_code,if_neg unchanged,sweep_code_eq_iff.2 quiet]
    exact quiet

end

namespace InPlace

/-- No rule applies to an operation of a fragment, with the lifetimes of its code. -/
def IsSettled (t : Target) (f : CodeFragment) : Prop :=
  ∀ line head, f.code[line]? = some head → head.isMarker = false →
    kindRule t (.ofCode f.code f.supply) f.code line = .error .inapplicable ∧
    mergeMove (.ofCode f.code f.supply) f.code line = .error .inapplicable

theorem orElse_eq_inapplicable {α : Type} {first second : Attempt α} : orElse first second = .error .inapplicable ↔
    first = .error .inapplicable ∧ second = .error .inapplicable := by
  constructor
  · intro neither
    unfold orElse at neither
    split at neither
    · exact ⟨rfl,neither⟩
    · rename_i other
      exact absurd neither other
  · rintro ⟨rfl,rfl⟩
    rfl

theorem isSettled_iff {t : Target} {f : CodeFragment} :
    IsSettled t f ↔ ∀ line, changeAt? t f.supply f.code line = none := by
  constructor
  · intro settled line
    cases here : f.code[line]? with
    | none => exact changeAt?_outside (List.getElem?_eq_none_iff.1 here)
    | some head =>
      cases kind : head.isMarker with
      | true => exact changeAt?_of_isMarker here kind f.supply
      | false =>
        have stays := orElse_eq_inapplicable.2 (settled line head here kind)
        rw [← change,change_ofCode here kind] at stays
        exact carry_eq_inapplicable.1 stays
  · intro none line head here kind
    apply orElse_eq_inapplicable.1
    rw [← change,change_ofCode here kind,none line]
    rfl

theorem isSettled_iff_quiet {t : Target} {f : CodeFragment} :
    IsSettled t f ↔ (sweep t f.supply f.code).changed = false := by
  rw [isSettled_iff,sweep,sweepFrom_quiet_iff]
  exact ⟨fun none line _ => none line,fun none line => none line (Nat.zero_le line)⟩

theorem isSettled_optimized (t : Target) (f : CodeFragment) : IsSettled t (optimized t f).fragment :=
  isSettled_iff_quiet.2 (sweep_optimize_quiet t f.supply f.code)

/-- To optimize once more makes no pass that changes something. -/
theorem optimized_optimized (t : Target) (f : CodeFragment) :
    optimized t (optimized t f).fragment = { fragment := (optimized t f).fragment } := by
  have quiet := sweep_optimize_quiet t f.supply f.code
  have stays : (swept t (optimized t f).fragment).fragment = (optimized t f).fragment := by
    rw [swept,Pass.standing,optimized]
    dsimp only [CodeFragment.withLifetimes]
    rw [sweep_code_eq_iff.2 quiet]
  rw [optimized_of_quiet (Bool.eq_false_iff.1 quiet),stays]

/-- A pass is quiet exactly when it leaves the code as it is, and exactly when no rule
    applies. Behind the optimizer none does: it would end at once and change nothing. -/
theorem optimize_settles (f : CodeFragment) :
    (∃ p, (∀ slack, pass .sparc (f.code.length+slack) f = .done p) ∧ p.fragment.code = (sweep .sparc f.supply f.code).code ∧
      (p.changed = false ↔ p.fragment.code = f.code) ∧ (p.changed = false ↔ IsSettled .sparc f)) ∧
    ∃ o, Optimizes f o ∧ IsSettled .sparc o.fragment ∧
      Optimizes o.fragment { fragment := o.fragment,passes := 0,messages := [] } ∧
      o.fragment.lifetimes = .ofCode o.fragment.code o.fragment.supply := by
  constructor
  · refine ⟨swept .sparc f,fun slack => ?_,rfl,sweep_code_eq_iff.symm,isSettled_iff_quiet.symm⟩
    apply pass_eq
    omega
  · have again := optimizes (optimized .sparc f).fragment
    rw [optimized_optimized] at again
    exact ⟨optimized .sparc f,optimizes f,isSettled_optimized .sparc f,again,rfl⟩

end InPlace

end SparcBackend.Peephole
