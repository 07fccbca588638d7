import SparcBackend.Proofs.Peephole.Passes
import SparcBackend.Proofs.Renaming.Lines

/-!
The optimizer does not look at names. Each rule finds the same to do in lines with other
names for the registers, as long as the register that holds the result of a call keeps
its own; so each sweep does, and there are as many sweeps.
-/
namespace SparcBackend.Peephole
open Machine (Target Kind OffsetSign)

/-- A change and the same change under other names. The reports may differ. -/
structure Change.Renames (σ : Register → Register) (c d : Change) : Prop where
  code : List.Forall₂ (SparcBackend.Renames σ) c.code d.code
  deleted : c.deleted = d.deleted

/-! ### Answers that are alike -/

section
variable {α β γ δ : Type} {R : α → β → Prop} {S : γ → δ → Prop}

theorem rel_bind {x : Option α} {y : Option β} {k : α → Option γ} {l : β → Option δ} (start : Option.Rel R x y)
    (onward : ∀ a b, x = some a → R a b → Option.Rel S (k a) (l b)) : Option.Rel S (x >>= k) (y >>= l) := by
  cases start with
  | none => exact .none
  | some related => exact onward _ _ rfl related

theorem rel_bind_map {x : Option α} {y : Option β} {k : α → Option γ} {l : β → Option δ} {f : α → β} (same : y = x.map f)
    (onward : ∀ a, x = some a → Option.Rel S (k a) (l (f a))) : Option.Rel S (x >>= k) (y >>= l) := by
  subst same
  cases x with
  | none => exact .none
  | some a => exact onward a rfl

theorem rel_guard {p q : Prop} [Decidable p] [Decidable q] {k : Unit → Option γ} {l : Unit → Option δ} (same : p ↔ q)
    (onward : p → Option.Rel S (k ()) (l ())) : Option.Rel S (guard p >>= k) (guard q >>= l) := by
  by_cases holds : p
  · rw [guard_of holds,guard_of (same.1 holds)]
    exact onward holds
  · rw [guard_of_not holds,guard_of_not (mt same.2 holds)]
    exact .none

theorem rel_or {x : Option α} {y : Option β} {x' : Option α} {y' : Option β} (first : Option.Rel R x y)
    (second : Option.Rel R x' y') : Option.Rel R (x.or x') (y.or y') := by
  cases first with
  | none => exact second
  | some related => exact .some related

theorem forall₂_split {p : α → Bool} {q : β → Bool} (same : ∀ a b, R a b → p a = q b) {as : List α} {bs : List β}
    (all : List.Forall₂ R as bs) : List.Forall₂ R (as.takeWhile p) (bs.takeWhile q) ∧
      List.Forall₂ R (as.dropWhile p) (bs.dropWhile q) := by
  induction all with
  | nil => exact ⟨.nil,.nil⟩
  | @cons a b as bs related rest ih =>
    rw [List.takeWhile_cons,List.takeWhile_cons,List.dropWhile_cons,List.dropWhile_cons,same a b related]
    by_cases holds : q b = true
    · rw [if_pos holds,if_pos holds,if_pos holds,if_pos holds]
      exact ⟨.cons related ih.1,ih.2⟩
    · rw [if_neg holds,if_neg holds,if_neg holds,if_neg holds]
      exact ⟨.nil,.cons related rest⟩

end

/-! ### Rules -/

section
variable {σ : Register → Register} (injective : Function.Injective σ) {t : Target} {ends ends' : EndsAfter} {head head' : Instruction}
  {rest rest' : List Instruction}

theorem binaryParts?_renames (renames : Renames σ head head') : binaryParts? head' =
    (binaryParts? head).map fun parts => (σ parts.1,parts.2.1.mapRegister σ,parts.2.2.mapRegister σ) := by
  rw [binaryParts?,binaryParts?,renames.defs_eq,renames.uses_eq]
  rcases head.defs with _ | ⟨d,more⟩
  · rfl
  · cases d with
    | register d =>
      rcases more with _ | ⟨_,_⟩
      · rcases head.uses with _ | ⟨left,_ | ⟨right,_ | ⟨_,_⟩⟩⟩ <;> rfl
      · rfl
    | immediate | address => rfl

theorem besideZero?_renames (left right : Operand) :
    besideZero? (left.mapRegister σ) (right.mapRegister σ) = (besideZero? left right).map (Operand.mapRegister σ) := by
  simp only [besideZero?,Operand.mapRegister_eq_immediate]
  by_cases zero : left = .immediate 0
  · rw [if_pos zero,if_pos zero]
    rfl
  · rw [if_neg zero,if_neg zero]
    by_cases zero : right = .immediate 0
    · rw [if_pos zero,if_pos zero]
      rfl
    · rw [if_neg zero,if_neg zero]
      rfl

theorem addZero?_renames (renames : Renames σ head head') (behind : List.Forall₂ (Renames σ) rest rest') :
    Option.Rel (Change.Renames σ) (addZero? head rest) (addZero? head' rest') := by
  refine rel_bind_map (binaryParts?_renames renames) fun parts _ => ?_
  refine rel_bind_map (besideZero?_renames _ _) fun source _ => ?_
  exact .some ⟨.cons .move behind,rfl⟩

theorem subZero?_renames (renames : Renames σ head head') (behind : List.Forall₂ (Renames σ) rest rest') :
    Option.Rel (Change.Renames σ) (subZero? head rest) (subZero? head' rest') := by
  refine rel_bind_map (binaryParts?_renames renames) fun parts _ => ?_
  refine rel_guard Operand.mapRegister_eq_immediate.symm fun _ => ?_
  exact .some ⟨.cons .move behind,rfl⟩

include injective in
theorem foldedAccess?_renames (renames : Renames σ head head') (d : Register) (base offset : Operand) (sign : OffsetSign) :
    Option.Rel (Renames σ) (foldedAccess? d base offset sign head)
      (foldedAccess? (σ d) (base.mapRegister σ) (offset.mapRegister σ) sign head') := by
  rw [foldedAccess?,foldedAccess?,renames.kind_eq,renames.defs_eq,renames.uses_eq]
  cases head.kind with
  | load | store =>
    rcases head.defs with _ | ⟨one,_ | ⟨_,_⟩⟩
    · exact .none
    · rcases head.uses with _ | ⟨other,_ | ⟨_,_⟩⟩
      · exact .none
      · simp only [List.map,Operand.isRegister_mapRegister injective]
        split
        · exact .some .operation
        · exact .none
      · exact .none
    · exact .none
  | add | sub | jump | branch | call | loadImmediate | move | compare | nop | other => exact .none

theorem withFoldedNote_renames (renames : Renames σ head head') (d d' : Register) (merged merged' : String)
    (note note' : Option String) : Renames σ (withFoldedNote d merged note head) (withFoldedNote d' merged' note' head') := by
  cases renames <;> cases note <;> cases note' <;> constructor

include injective in
theorem foldAddress?_renames (same : ∀ lines r, ends lines r = ends' lines (σ r)) (sign : OffsetSign) (renames : Renames σ head head')
    (behind : List.Forall₂ (Renames σ) rest rest') :
    Option.Rel (Change.Renames σ) (foldAddress? ends sign head rest) (foldAddress? ends' sign head' rest') := by
  refine rel_bind_map (binaryParts?_renames renames) fun parts _ => ?_
  obtain ⟨d,base,offset⟩ := parts
  refine rel_guard (by rw [Operand.asRegister?_mapRegister,Option.isSome_map]) fun _ => ?_
  refine rel_guard (by rw [Operand.asImmediate?_mapRegister]) fun _ => ?_
  refine rel_guard (by rw [same]) fun _ => ?_
  cases behind with
  | nil => exact .none
  | cons next behind =>
    refine rel_bind (foldedAccess?_renames injective next d base offset sign) fun access access' _ folded => ?_
    exact .some ⟨.cons (withFoldedNote_renames folded _ _ _ _ _ _) behind,rfl⟩

theorem isNop_renames (i j : Instruction) (renames : Renames σ i j) : isNop i = isNop j := by
  rw [isNop,isNop,renames.kind_eq]

theorem leadingLabels_renames {code code' : List Instruction} (lines : List.Forall₂ (Renames σ) code code') :
    leadingLabels code = leadingLabels code' := by
  have labelled : ∀ i j, Renames σ i j → i.isLabel = j.isLabel := by
    intro i j renames
    rw [Instruction.isLabel,Instruction.isLabel,renames.label?_eq]
  have all := (forall₂_split labelled lines).1
  rw [leadingLabels,leadingLabels]
  generalize code.takeWhile Instruction.isLabel = front, code'.takeWhile Instruction.isLabel = front' at all ⊢
  induction all with
  | nil => rfl
  | cons first _ ih => rw [List.filterMap_cons,List.filterMap_cons,first.label?_eq,ih]

theorem dropJump?_renames (renames : Renames σ head head') (behind : List.Forall₂ (Renames σ) rest rest') :
    Option.Rel (Change.Renames σ) (dropJump? head rest) (dropJump? head' rest') := by
  obtain ⟨nops,onward⟩ := forall₂_split isNop_renames behind
  refine rel_bind_map (f := id) (by rw [renames.jumps_eq,Option.map_id_fun,id]) fun target _ => ?_
  refine rel_guard (by rw [leadingLabels_renames onward]; rfl) fun _ => ?_
  exact .some ⟨onward,by rw [nops.length_eq]⟩

include injective in
theorem forwardResult?_renames (same : ∀ lines r, ends lines r = ends' lines (σ r))
    (fixed : ∀ result ∈ t.callResult.asRegister?, σ result = result) (renames : Renames σ head head')
    (behind : List.Forall₂ (Renames σ) rest rest') :
    Option.Rel (Change.Renames σ) (forwardResult? t ends head rest) (forwardResult? t ends' head' rest') := by
  obtain ⟨nops,onward⟩ := forall₂_split isNop_renames behind
  have length := nops.length_eq
  unfold forwardResult?
  generalize rest.takeWhile isNop = idle, rest'.takeWhile isNop = idle', rest.dropWhile isNop = after,
    rest'.dropWhile isNop = after' at nops length onward ⊢
  cases onward with
  | nil => exact .none
  | @cons i i' after after' copied onward =>
    cases onward with
    | nil => exact .none
    | @cons j j' behind behind' consumer onward =>
      dsimp only
      refine rel_guard (by rw [copied.kind_eq]) fun _ => ?_
      refine rel_bind_map (f := id) (by rw [Option.map_id_fun,id]) fun result is => ?_
      rw [copied.defs_eq,copied.uses_eq]
      rcases i.defs with _ | ⟨d,more⟩
      · exact .none
      · cases d with
        | immediate | address => exact .none
        | register d =>
          rcases more with _ | ⟨_,_⟩
          · rcases i.uses with _ | ⟨source,_ | ⟨_,_⟩⟩
            · exact .none
            · have kept := fixed result is
              have read : source.isRegister result = (source.mapRegister σ).isRegister result := by
                conv_rhs => rw [← kept]
                exact (Operand.isRegister_mapRegister injective source result).symm
              refine rel_guard (by rw [read]; rfl) fun _ => ?_
              refine rel_guard (by rw [same,length]) fun _ => ?_
              refine rel_guard (by rw [consumer.reads_eq injective]) fun _ => ?_
              have replaced := consumer.replaceUse injective d (.register result)
              rw [Operand.mapRegister,kept] at replaced
              exact .some ⟨List.rel_append (.cons renames nops) (.cons replaced onward),rfl⟩
            · exact .none
          · exact .none

include injective in
theorem placeImmediate?_renames (kind : Kind) (d : Register) (value : Int) (uses : List Operand) :
    placeImmediate? kind (σ d) value (uses.map (Operand.mapRegister σ)) =
      (placeImmediate? kind d value uses).map (List.map (Operand.mapRegister σ)) := by
  have immediate : ∀ operands : List Operand, ((operands.map (Operand.mapRegister σ)).any fun operand => operand.asImmediate?.isSome) =
      operands.any fun operand => operand.asImmediate?.isSome := by
    intro operands
    rw [List.any_map]
    congr 1
    funext operand
    exact congrArg _ (Operand.asImmediate?_mapRegister operand)
  have last : (uses.map (Operand.mapRegister σ)).getLast? = some (.register (σ d)) ↔ uses.getLast? = some (.register d) := by
    rw [List.getLast?_map]
    exact (Option.map_injective (Operand.mapRegister_injective injective)).eq_iff (b := some (.register d))
  simp only [placeImmediate?,last,← List.map_dropLast,immediate]
  split
  · split <;> simp [Operand.mapRegister]
  · rcases uses with _ | ⟨one,_ | ⟨other,_ | ⟨_,_⟩⟩⟩
    · rfl
    · rfl
    · simp only [List.map,Operand.isRegister_mapRegister injective,Operand.asImmediate?_mapRegister]
      split <;> rfl
    · rfl

include injective in
theorem foldImmediate?_renames (same : ∀ lines r, ends lines r = ends' lines (σ r)) (renames : Renames σ head head')
    (behind : List.Forall₂ (Renames σ) rest rest') :
    Option.Rel (Change.Renames σ) (foldImmediate? t ends head rest) (foldImmediate? t ends' head' rest') := by
  unfold foldImmediate?
  rw [renames.defs_eq,renames.uses_eq]
  rcases head.defs with _ | ⟨d,more⟩
  · exact .none
  · cases d with
    | immediate | address => exact .none
    | register d =>
      rcases more with _ | ⟨_,_⟩
      · rcases head.uses with _ | ⟨source,others⟩
        · exact .none
        · cases source with
          | register | address => exact .none
          | immediate value =>
            rcases others with _ | ⟨_,_⟩
            · refine rel_guard (by rw [same]) fun _ => ?_
              cases behind with
              | nil => exact .none
              | @cons i i' behind behind' next onward =>
                refine rel_guard (by rw [next.kind_eq,next.useCount_eq injective]) fun _ => ?_
                rw [next.kind_eq,next.uses_eq]
                refine rel_bind_map (placeImmediate?_renames injective _ _ _ _) fun uses _ => ?_
                exact .some ⟨.cons ((next.withUses uses).renameInNote _ _ _ _) onward,rfl⟩
            · exact .none
      · exact .none

include injective in
theorem dropSelfMove?_renames (renames : Renames σ head head') (behind : List.Forall₂ (Renames σ) rest rest') :
    Option.Rel (Change.Renames σ) (dropSelfMove? head rest) (dropSelfMove? head' rest') := by
  unfold dropSelfMove?
  rw [renames.defs_eq,renames.uses_eq]
  rcases head.defs with _ | ⟨destination,_ | ⟨_,_⟩⟩
  · exact .none
  · rcases head.uses with _ | ⟨source,_ | ⟨_,_⟩⟩
    · exact .none
    · refine rel_guard (Operand.mapRegister_injective injective).eq_iff.symm fun _ => ?_
      exact .some ⟨behind,rfl⟩
    · exact .none
  · exact .none

include injective in
theorem mergeMove?_renames (same : ∀ lines r, ends lines r = ends' lines (σ r)) (renames : Renames σ head head')
    (behind : List.Forall₂ (Renames σ) rest rest') :
    Option.Rel (Change.Renames σ) (mergeMove? ends head rest) (mergeMove? ends' head' rest') := by
  unfold mergeMove?
  rw [renames.defs_eq,renames.uses_eq,renames.kind_eq]
  refine rel_guard (by rw [List.isEmpty_map]) fun _ => ?_
  rcases head.defs with _ | ⟨d,others⟩
  · exact .none
  · cases d with
    | immediate | address => exact .none
    | register d =>
      refine rel_guard (by rw [same]) fun _ => ?_
      cases behind with
      | nil => exact .none
      | @cons i i' behind behind' next onward =>
        refine rel_guard (by rw [next.kind_eq,next.reads_eq injective]) fun _ => ?_
        refine rel_bind_map (f := Operand.mapRegister σ) (by rw [next.defs_eq,List.head?_map]) fun destination _ => ?_
        exact .some ⟨.cons ((renames.withDefs (destination :: others)).renameInNote _ _ _ _) onward,rfl⟩

include injective in
/-- The same change is found under other names, if lifetimes end alike. -/
theorem change?_renames (same : ∀ lines r, ends lines r = ends' lines (σ r))
    (fixed : ∀ result ∈ t.callResult.asRegister?, σ result = result) (renames : Renames σ head head')
    (behind : List.Forall₂ (Renames σ) rest rest') :
    Option.Rel (Change.Renames σ) (change? t ends head rest) (change? t ends' head' rest') := by
  have special : Option.Rel (Change.Renames σ) (kindRule? t ends head rest) (kindRule? t ends' head' rest') := by
    rw [kindRule?,kindRule?,renames.kind_eq]
    cases head.kind with
    | add => exact rel_or (addZero?_renames renames behind) (foldAddress?_renames injective same .plus renames behind)
    | sub => exact rel_or (subZero?_renames renames behind) (foldAddress?_renames injective same .minus renames behind)
    | jump => exact dropJump?_renames renames behind
    | call => exact forwardResult?_renames injective same fixed renames behind
    | loadImmediate => exact foldImmediate?_renames injective same renames behind
    | move => exact dropSelfMove?_renames injective renames behind
    | branch | load | store | compare | nop | other => exact .none
  rw [change?,change?,renames.isMarker_eq]
  by_cases marker : head.isMarker = true
  · rw [if_pos marker,if_pos marker]
    exact .none
  · rw [if_neg marker,if_neg marker]
    exact rel_or special (mergeMove?_renames injective same renames behind)

end

/-! ### Sweeps -/

section
variable {σ : Register → Register} (injective : Function.Injective σ) {t : Target} {supply : RegisterSupply}
  (fixed : ∀ result ∈ t.callResult.asRegister?, σ result = result) {code code' : List Instruction}
include injective

theorem endsOn_renames (lines : List.Forall₂ (Renames σ) code code') (line : Nat) (r : Register) :
    endsOn supply code line r = endsOn (supply.rename σ) code' line (σ r) := by
  rw [endsOn,endsOn,owns_rename injective,Lifetime.ofCode_renames injective lines]

include fixed

theorem changeAt?_renames (lines : List.Forall₂ (Renames σ) code code') (line : Nat) :
    Option.Rel (Change.Renames σ) (changeAt? t supply code line) (changeAt? t (supply.rename σ) code' line) := by
  have behind := List.forall₂_drop line lines
  unfold changeAt?
  generalize code.drop line = after, code'.drop line = after' at behind ⊢
  cases behind with
  | nil => exact .none
  | cons renames behind =>
    exact change?_renames injective (fun _ r => endsOn_renames injective lines _ r) fixed renames behind

theorem sweepFrom_renames (lines : List.Forall₂ (Renames σ) code code') (line : Nat) :
    List.Forall₂ (Renames σ) (sweepFrom t supply code line).code (sweepFrom t (supply.rename σ) code' line).code ∧
      (sweepFrom t supply code line).changed = (sweepFrom t (supply.rename σ) code' line).changed := by
  fun_induction sweepFrom t supply code line generalizing code' with
  | case1 code line inside c made ih =>
    have found : Option.Rel _ _ (changeAt? t (supply.rename σ) code' line) := changeAt?_renames injective fixed lines line
    rw [made] at found
    generalize made' : changeAt? t (supply.rename σ) code' line = other at found
    cases found with
    | @some _ d renames =>
      have after : List.Forall₂ (Renames σ) (applyAt code line c) (applyAt code' line d) :=
        List.rel_append (List.forall₂_take line lines) renames.code
      rw [sweepFrom_of_some (lines.length_eq ▸ inside) made',← renames.deleted]
      exact ⟨(ih after).1,rfl⟩
  | case2 code line inside none ih =>
    have found : Option.Rel _ _ (changeAt? t (supply.rename σ) code' line) := changeAt?_renames injective fixed lines line
    rw [none] at found
    generalize none' : changeAt? t (supply.rename σ) code' line = other at found
    cases found
    rw [sweepFrom_of_none (lines.length_eq ▸ inside) none']
    exact ih lines
  | case3 code line outside =>
    have outside' : ¬ line < code'.length := lines.length_eq ▸ outside
    unfold sweepFrom
    rw [if_neg outside']
    exact ⟨lines,rfl⟩

variable (supply) in
/-- Optimizing code under other names gives what it gives under its own, in as many sweeps. -/
theorem optimize_renames (lines : List.Forall₂ (Renames σ) code code') :
    List.Forall₂ (Renames σ) (optimize t supply code).code (optimize t (supply.rename σ) code').code ∧
      (optimize t supply code).passes = (optimize t (supply.rename σ) code').passes := by
  induction code using sweeps.induct t supply generalizing code' with
  | case1 code changed ih =>
    obtain ⟨after,alike⟩ : _ ∧ (sweep t supply code).changed = (sweep t (supply.rename σ) code').changed :=
      sweepFrom_renames injective fixed lines 0
    have changed' : (sweep t (supply.rename σ) code').changed = true := alike ▸ changed
    obtain ⟨later,passes⟩ := ih after
    rw [optimize_code t supply code,optimize_code t _ code',optimize_passes t supply code,optimize_passes t _ code',if_pos changed,
      if_pos changed,if_pos changed',if_pos changed']
    exact ⟨later,congrArg _ passes⟩
  | case2 code unchanged =>
    obtain ⟨after,alike⟩ : _ ∧ (sweep t supply code).changed = (sweep t (supply.rename σ) code').changed :=
      sweepFrom_renames injective fixed lines 0
    have unchanged' : (sweep t (supply.rename σ) code').changed ≠ true := alike ▸ unchanged
    rw [optimize_code t supply code,optimize_code t _ code',optimize_passes t supply code,optimize_passes t _ code',if_neg unchanged,
      if_neg unchanged,if_neg unchanged',if_neg unchanged']
    exact ⟨after,rfl⟩

end

end SparcBackend.Peephole
