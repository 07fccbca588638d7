import Mathlib.Data.List.Basic
import SparcBackend.Peephole.InPlace

/-!
The rules in place say what the rules say of the code from a line on, for any code and
any table of lifetimes (`change_eq`). So no rule asks for a line or a slot that is not
there: where it does not apply, it says so.
-/
namespace SparcBackend.Peephole.InPlace
open Machine (Target OffsetSign)

/-! ### Lines and slots -/

section
variable {α : Type} (front : List α) (item next new : α) (rest : List α)

theorem fetch_front : fetch (front ++ item :: rest) front.length = .ok item := by
  simp [fetch]

theorem put_front : put (front ++ item :: rest) front.length new = .ok (front ++ new :: rest) := by
  simp [put]

theorem remove_front : remove (front ++ item :: rest) front.length = .ok (front ++ rest) := by
  simp [remove,List.eraseIdx_append_of_length_le]

theorem getElem?_next : (front ++ item :: rest)[front.length+1]? = rest.head? := by
  simp [List.getElem?_append_right,List.head?_eq_getElem?]

theorem put_next : put (front ++ item :: next :: rest) (front.length+1) new = .ok (front ++ item :: new :: rest) := by
  simpa using put_front (front ++ [item]) next new rest

theorem remove_next : remove (front ++ item :: next :: rest) (front.length+1) = .ok (front ++ item :: rest) := by
  simpa using remove_front (front ++ [item]) next rest

theorem drain_front (middle : List α) :
    drain (front ++ (middle ++ rest)) front.length (front.length+middle.length) = .ok (front ++ rest) := by
  simp [drain]

theorem drop_front : (front ++ item :: rest).drop (front.length+1) = rest := by
  simp

end

/-! ### Attempts beside rules -/

theorem ok_bind {α β : Type} (a : α) (k : α → Attempt β) : (.ok a >>= k : Attempt β) = k a := rfl

theorem want_some {α : Type} (a : α) : want (some a) = .ok a := rfl

/-- What a rule makes of the lines from a line on, with those in front. -/
def carry (front : List Instruction) : Option Change → Attempt Edit
  | some c => .ok ⟨front ++ c.code,c.deleted,c.message⟩
  | none => .error .inapplicable

theorem want_bind {β : Type} {front : List Instruction} {x : Option β} {k : β → Attempt Edit} {rule : β → Option Change}
    (same : ∀ b, x = some b → k b = carry front (rule b)) : (want x >>= k) = carry front (x >>= rule) := by
  cases x with
  | none => rfl
  | some b => exact same b rfl

theorem require_bind {front : List Instruction} {p : Prop} [Decidable p] {k : Unit → Attempt Edit} {rule : Unit → Option Change}
    {condition : Bool} (is : condition = true ↔ p) (same : p → k () = carry front (rule ())) :
    (require condition >>= k) = carry front (guard p >>= rule) := by
  by_cases holds : p
  · rw [require,guard_of holds,if_pos (is.2 holds)]
    exact same holds
  · rw [require,guard_of_not holds,if_neg (mt is.1 holds)]
    rfl

theorem want_stops {β : Type} {x : Option β} {k : β → Attempt Edit} (stops : ∀ b, k b = .error .inapplicable) :
    (want x >>= k) = .error .inapplicable := by
  cases x with
  | none => rfl
  | some b => exact stops b

theorem require_stops {condition : Bool} {k : Unit → Attempt Edit} (stops : k () = .error .inapplicable) :
    (require condition >>= k) = .error .inapplicable := by
  cases condition with
  | false => rfl
  | true => exact stops

theorem orElse_carry (front : List Instruction) (first second : Option Change) :
    orElse (carry front first) (carry front second) = carry front (first.or second) := by
  cases first <;> rfl

theorem carry_eq_inapplicable {front : List Instruction} {x : Option Change} : carry front x = .error .inapplicable ↔ x = none := by
  cases x with
  | none => exact ⟨fun _ => rfl,fun _ => rfl⟩
  | some c => exact ⟨nofun,nofun⟩

/-- What ends behind a line, by a table. -/
def endsByTable (lifetimes : LifetimeTable) (line : Nat) : EndsAfter := fun lines r => lifetimes.endsAt r (line+lines)

/-! ### Operands -/

section
variable {kind : Machine.Kind} {d : Register} {value : Int}

theorem count_concat (init : List Operand) (last : Operand) : ((init ++ [last]).filterMap Operand.asRegister?).count d =
    (init.filterMap Operand.asRegister?).count d+if last = .register d then 1 else 0 := by
  rw [List.filterMap_append,List.count_append]
  cases last with
  | register r => simp [Operand.asRegister?,List.count_singleton]
  | immediate | address => simp [Operand.asRegister?,List.filterMap_cons]

theorem findIdx?_eq_none_iff {uses : List Operand} : (uses.findIdx? fun operand => operand.isRegister d) = none ↔
    (uses.filterMap Operand.asRegister?).count d = 0 := by
  rw [List.findIdx?_eq_none_iff,List.count_eq_zero,List.mem_filterMap]
  constructor
  · rintro absent ⟨operand,member,is⟩
    have other := absent operand member
    cases operand with
    | register r =>
      cases is
      simp [Operand.isRegister] at other
    | immediate | address => cases is
  · intro absent operand member
    by_contra is
    obtain rfl : operand = .register d := by simpa [Operand.isRegister] using is
    exact absent ⟨_,member,rfl⟩

theorem lastPlace_concat (init : List Operand) (last : Operand) : lastPlace (init ++ [last]) = .ok init.length := by
  simp [lastPlace]

/-- The operand that is looked for stands in the last slot. -/
theorem placeImmediate_last {init : List Operand} (absent : (init.filterMap Operand.asRegister?).count d = 0) :
    placeImmediate kind d value (init ++ [.register d]) =
      (placeImmediate? kind d value (init ++ [.register d])).elim (.error .inapplicable) .ok := by
  have slot : ((init ++ [Operand.register d]).findIdx? fun operand => operand.isRegister d) = some init.length := by
    rw [List.findIdx?_append,findIdx?_eq_none_iff.2 absent]
    simp [Operand.isRegister,List.findIdx?_cons]
  unfold placeImmediate placeImmediate?
  rw [slot,want_some,ok_bind,lastPlace_concat,ok_bind,putLast,if_pos rfl,put_front,ok_bind,upTo,if_pos (by simp),List.take_left,
    ok_bind,List.getLast?_concat,if_pos rfl,List.dropLast_concat]
  cases init.any fun operand => operand.asImmediate?.isSome <;> rfl

/-- The operand that is looked for stands in front of the last slot. -/
theorem placeImmediate_before {init : List Operand} {last : Operand} (other : last ≠ .register d)
    (among : (init.filterMap Operand.asRegister?).count d ≠ 0) :
    placeImmediate kind d value (init ++ [last]) =
      (placeImmediate? kind d value (init ++ [last])).elim (.error .inapplicable) .ok := by
  obtain ⟨slot,here⟩ := Option.ne_none_iff_exists'.1 (mt findIdx?_eq_none_iff.1 among)
  have inside : slot < init.length := (List.findIdx?_eq_some_iff_getElem.1 here).1
  have notLast : ¬ some last = some (.register d) := by simpa using other
  unfold placeImmediate placeImmediate?
  rw [List.findIdx?_append,here,Option.some_or,want_some,ok_bind,lastPlace_concat,ok_bind,putLast,if_neg (Nat.ne_of_lt inside),
    List.getLast?_concat,if_neg notLast]
  cases init with
  | nil => cases inside
  | cons first more =>
    cases more with
    | nil =>
      have isFirst : first.isRegister d = true := by
        by_contra another
        rw [List.findIdx?_cons,if_neg another] at here
        cases here
      simp only [List.cons_append,List.nil_append,List.length_cons,List.length_nil,isFirst,Bool.true_and]
      cases kind.operator?.any BinaryOp.isCommutative with
      | false => rfl
      | true => cases last <;> rfl
    | cons second more =>
      rw [if_neg (by simp)]
      cases more <;> rfl

/-- A number is put in the place of a register that is read once. -/
theorem placeImmediate_eq {uses : List Operand} (once : (uses.filterMap Operand.asRegister?).count d = 1) :
    placeImmediate kind d value uses = (placeImmediate? kind d value uses).elim (.error .inapplicable) .ok := by
  rcases List.eq_nil_or_concat' uses with rfl | ⟨init,last,rfl⟩
  · cases once
  rw [count_concat] at once
  by_cases found : last = .register d
  · subst found
    rw [if_pos rfl] at once
    exact placeImmediate_last (by omega)
  · rw [if_neg found] at once
    exact placeImmediate_before found (by omega)

theorem length_placeImmediate? {uses placed : List Operand} (is : placeImmediate? kind d value uses = some placed) :
    placed.length = uses.length := by
  unfold placeImmediate? at is
  split at is
  · rename_i last
    split at is
    · cases is
    · cases is
      obtain ⟨init,rfl⟩ := List.getLast?_eq_some_iff.1 last
      simp
  · split at is
    · split at is
      · cases is
        rfl
      · cases is
    · cases is

theorem fillUses_eq {i : Instruction} {uses : List Operand} (placed : placeImmediate? kind d value i.uses = some uses) :
    fillUses i uses = .ok (i.withUses uses) := by
  rw [fillUses,if_pos (length_placeImmediate? placed)]

theorem fillFirstDef_eq {i : Instruction} {first : Operand} {others : List Operand} (defs : i.defs = first :: others)
    (operand : Operand) : fillFirstDef i operand = .ok (i.withDefs (operand :: others)) := by
  rw [fillFirstDef,defs]
  rfl

end

/-! ### Rules -/

section
variable {lifetimes : LifetimeTable} (front : List Instruction) (head : Instruction) (rest : List Instruction)

theorem addZero_eq : addZero (front ++ head :: rest) front.length = carry front (addZero? head rest) := by
  unfold addZero addZero?
  rw [fetch_front]
  refine want_bind fun parts _ => ?_
  refine want_bind fun source _ => ?_
  rw [put_front]
  rfl

theorem subZero_eq : subZero (front ++ head :: rest) front.length = carry front (subZero? head rest) := by
  unfold subZero subZero?
  rw [fetch_front]
  refine want_bind fun parts _ => ?_
  refine require_bind decide_eq_true_iff fun _ => ?_
  rw [put_front]
  rfl

theorem foldAddress_eq (sign : OffsetSign) : foldAddress lifetimes sign (front ++ head :: rest) front.length =
    carry front (foldAddress? (endsByTable lifetimes front.length) sign head rest) := by
  unfold foldAddress foldAddress?
  rw [fetch_front]
  refine want_bind fun parts _ => ?_
  refine require_bind .rfl fun _ => ?_
  refine require_bind .rfl fun _ => ?_
  refine require_bind .rfl fun _ => ?_
  rw [getElem?_next]
  cases rest with
  | nil => rfl
  | cons next behind =>
    rw [List.head?_cons,want_some,ok_bind]
    refine want_bind fun access _ => ?_
    simp only [put_next,ok_bind,remove_front]
    rfl

/-- The loop over nops stops where they stop. -/
theorem skipNops_eq (code : List Instruction) (line : Nat) : skipNops code line =
    .ok (line+((code.drop line).takeWhile isNop).length) := by
  fun_induction skipNops code line with
  | case1 line inside ih =>
    rw [List.drop_eq_getElem_cons inside,List.takeWhile_cons,fetch,List.getElem?_eq_getElem inside]
    rw [Option.elim_some,ok_bind]
    split
    · rw [ih,List.length_cons,Nat.add_assoc,Nat.add_comm 1]
    · rfl
  | case2 line outside =>
    rw [List.drop_eq_nil_of_le (Nat.le_of_not_lt outside)]
    rfl

theorem labelFollows_eq (code : List Instruction) (target : Label) (line : Nat) : labelFollows code target line =
    (leadingLabels (code.drop line)).contains target := by
  fun_induction labelFollows code target line with
  | case1 line inside label here ih =>
    rw [List.getElem?_eq_getElem inside] at here
    have isLabel : code[line].isLabel = true := by
      simpa [Instruction.isLabel] using congrArg Option.isSome here
    have first : leadingLabels (code.drop line) = label :: leadingLabels (code.drop (line+1)) := by
      rw [List.drop_eq_getElem_cons inside,leadingLabels,List.takeWhile_cons,if_pos isLabel,List.filterMap_cons]
      simp only [Option.bind_some] at here
      rw [here]
      rfl
    rw [first,List.contains_cons,ih]
    by_cases same : label = target
    · simp [same]
    · simp [same,Ne.symm same]
  | case2 line inside none =>
    rw [List.getElem?_eq_getElem inside,Option.bind_some] at none
    rw [List.drop_eq_getElem_cons inside,leadingLabels,List.takeWhile_cons,if_neg (by simp [Instruction.isLabel,none])]
    rfl
  | case3 line outside =>
    rw [List.drop_eq_nil_of_le (Nat.le_of_not_lt outside)]
    rfl

theorem dropJump_eq : dropJump (front ++ head :: rest) front.length = carry front (dropJump? head rest) := by
  unfold dropJump dropJump?
  rw [fetch_front]
  refine want_bind fun target _ => ?_
  have split : front ++ head :: rest = front ++ ((head :: rest.takeWhile isNop) ++ rest.dropWhile isNop) := by simp
  have behind : front.length+1+(rest.takeWhile isNop).length = front.length+(head :: rest.takeWhile isNop).length := by
    rw [List.length_cons]
    omega
  rw [skipNops_eq,drop_front,ok_bind,behind]
  refine require_bind ?_ fun _ => ?_
  · rw [labelFollows_eq,split,← List.append_assoc,← List.length_append,List.drop_left]
  · rw [split,drain_front,ok_bind,Nat.add_sub_cancel_left]
    rfl

theorem forwardResult_eq (t : Target) : forwardResult t lifetimes (front ++ head :: rest) front.length =
    carry front (forwardResult? t (endsByTable lifetimes front.length) head rest) := by
  have split : front ++ head :: rest = (front ++ head :: rest.takeWhile isNop) ++ rest.dropWhile isNop := by simp
  have place : front.length+1+(rest.takeWhile isNop).length = (front ++ head :: rest.takeWhile isNop).length := by
    simp only [List.length_append,List.length_cons]
    omega
  have behindBoth : (front ++ head :: rest.takeWhile isNop).length+1 = front.length+((rest.takeWhile isNop).length+2) := by
    simp only [List.length_append,List.length_cons]
    omega
  unfold forwardResult forwardResult?
  rw [skipNops_eq,drop_front,ok_bind,place,split]
  cases rest.dropWhile isNop with
  | nil =>
    rw [List.append_nil,List.getElem?_eq_none (Nat.le_refl _)]
    rfl
  | cons copied behind =>
    have first : ((front ++ head :: rest.takeWhile isNop) ++ copied :: behind)[(front ++ head :: rest.takeWhile isNop).length]? =
        some copied := by simp
    rw [first,want_some,ok_bind,getElem?_next]
    cases behind with
    | nil =>
      refine require_stops ?_
      refine want_stops fun result => ?_
      split
      · refine require_stops ?_
        refine require_stops ?_
        rfl
      · rfl
    | cons consumer behind =>
      rw [List.head?_cons,want_some]
      refine require_bind decide_eq_true_iff fun _ => ?_
      refine want_bind fun result _ => ?_
      rcases copied.defs with _ | ⟨d,more⟩
      · rfl
      · cases d with
        | immediate | address => rfl
        | register d =>
          rcases more with _ | ⟨_,_⟩
          · rcases copied.uses with _ | ⟨source,_ | ⟨_,_⟩⟩
            · rfl
            · refine require_bind .rfl fun _ => ?_
              refine require_bind (by rw [endsByTable,← behindBoth]) fun _ => ?_
              refine require_bind .rfl fun _ => ?_
              rw [put_next,ok_bind,remove_front,ok_bind]
              simp [carry,pure,Except.pure]
            · rfl
          · rfl

theorem foldImmediate_eq (t : Target) : foldImmediate t lifetimes (front ++ head :: rest) front.length =
    carry front (foldImmediate? t (endsByTable lifetimes front.length) head rest) := by
  unfold foldImmediate foldImmediate?
  rw [fetch_front,ok_bind]
  rcases head.defs with _ | ⟨d,more⟩
  · rfl
  · cases d with
    | immediate | address => rfl
    | register d =>
      rcases more with _ | ⟨_,_⟩
      · rcases head.uses with _ | ⟨source,others⟩
        · rfl
        · cases source with
          | register | address => rfl
          | immediate value =>
            rcases others with _ | ⟨_,_⟩
            · refine require_bind .rfl fun _ => ?_
              rw [getElem?_next]
              cases rest with
              | nil => rfl
              | cons next behind =>
                rw [List.head?_cons,want_some,ok_bind]
                refine require_bind .rfl fun suits => ?_
                have once : next.useCount d = 1 := of_decide_eq_true (Bool.and_eq_true _ _ ▸ suits).2
                rw [placeImmediate_eq once]
                refine want_bind fun uses placed => ?_
                rw [fillUses_eq placed,ok_bind]
                simp only [put_next,ok_bind,remove_front]
                rfl
            · rfl
      · rfl

theorem dropSelfMove_eq : dropSelfMove (front ++ head :: rest) front.length = carry front (dropSelfMove? head rest) := by
  unfold dropSelfMove dropSelfMove?
  rw [fetch_front,ok_bind]
  rcases head.defs with _ | ⟨destination,_ | ⟨_,_⟩⟩
  · rfl
  · rcases head.uses with _ | ⟨source,_ | ⟨_,_⟩⟩
    · rfl
    · refine require_bind decide_eq_true_iff fun _ => ?_
      rw [remove_front]
      rfl
    · rfl
  · rfl

theorem mergeMove_eq : mergeMove lifetimes (front ++ head :: rest) front.length =
    carry front (mergeMove? (endsByTable lifetimes front.length) head rest) := by
  unfold mergeMove mergeMove?
  rw [fetch_front,ok_bind]
  refine require_bind .rfl fun _ => ?_
  cases defs : head.defs with
  | nil => rfl
  | cons d others =>
    cases d with
    | immediate | address => rfl
    | register d =>
      refine require_bind .rfl fun _ => ?_
      rw [getElem?_next]
      cases rest with
      | nil => rfl
      | cons next behind =>
        rw [List.head?_cons,want_some,ok_bind]
        refine require_bind .rfl fun _ => ?_
        refine want_bind fun destination _ => ?_
        rw [fillFirstDef_eq defs,ok_bind]
        simp only [put_front,ok_bind,remove_next]
        rfl

theorem kindRule_eq (t : Target) : kindRule t lifetimes (front ++ head :: rest) front.length =
    carry front (kindRule? t (endsByTable lifetimes front.length) head rest) := by
  unfold kindRule kindRule?
  rw [fetch_front,ok_bind]
  cases head.kind with
  | add =>
    dsimp only
    rw [addZero_eq,foldAddress_eq,orElse_carry]
  | sub =>
    dsimp only
    rw [subZero_eq,foldAddress_eq,orElse_carry]
  | jump => exact dropJump_eq front head rest
  | call => exact forwardResult_eq front head rest t
  | loadImmediate => exact foldImmediate_eq front head rest t
  | move => exact dropSelfMove_eq front head rest
  | branch | load | store | compare | nop | other => rfl

/-- In place, a change is what the rules say of the code from its line on. -/
theorem change_eq (t : Target) : change t lifetimes (front ++ head :: rest) front.length =
    carry front ((kindRule? t (endsByTable lifetimes front.length) head rest).or
      (mergeMove? (endsByTable lifetimes front.length) head rest)) := by
  rw [change,kindRule_eq,mergeMove_eq,orElse_carry]

end

end SparcBackend.Peephole.InPlace
