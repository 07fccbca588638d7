import SparcBackend.Peephole.Sweep
import SparcBackend.Proofs.Machine.Action

/-!
What the rules do to instructions that have a meaning. A change puts a few lines in
place of others at the head of some code. Most rules thereby drop a register: its
definition goes, because the line that reads it can do without (`Loss`). Here the rules
are read as what they do to actions; the text of the lines is gone from now on.
-/
namespace SparcBackend.Peephole
open Machine (Action OffsetSign Source)

/-- A register whose definition goes, the instruction that read it, and how many lines
    behind the head of the change that instruction stood. -/
structure Loss where
  register : Register
  reader : Instruction
  distance : Nat

/-- An operator of which one operand is the result whatever the registers hold. -/
inductive Neutral : BinaryOp → Operand → Operand → Operand → Prop
  | zeroPlus {value : Operand} : Neutral .plus (.immediate 0) value value
  | plusZero {value : Operand} : Neutral .plus value (.immediate 0) value
  | minusZero {value : Operand} : Neutral .minus value (.immediate 0) value

/-- An action that looks at `d` once, and the same action with a number for it. Summands
    may change places. -/
inductive Placed (d : Register) (value : Int) : Action → Action → Prop
  | right {x : Register} {op : BinaryOp} {left : Operand} (other : left ≠ .register d) :
      Placed d value (.assign x (.binary op left (.register d))) (.assign x (.binary op left (.immediate value)))
  | left {x : Register} {right : Operand} (other : right ≠ .register d) :
      Placed d value (.assign x (.binary .plus (.register d) right)) (.assign x (.binary .plus right (.immediate value)))
  | compared {left : Operand} (other : left ≠ .register d) :
      Placed d value (.compare left (.register d)) (.compare left (.immediate value))

/-- Lines in front of `tail`, the lines that come in their place, and what is lost. -/
inductive Rewrite (ends : EndsAfter) (tail : List Instruction) : List Instruction → List Instruction → Option Loss → Prop
  /-- An operator with a neutral operand is a copy. -/
  | neutral {head new : Instruction} {d : Register} {op : BinaryOp} {left right value : Operand}
      (computes : head.action? = some (.assign d (.binary op left right))) (isNeutral : Neutral op left right value)
      (copies : new.action? = some (.assign d (.operand value))) : Rewrite ends tail [head] [new] none
  /-- A sum moves into the address of a load. -/
  | load {head next new : Instruction} {d x : Register} {base offset : Operand} {sign : OffsetSign}
      (computes : head.action? = some (.assign d (.binary sign.operator base offset)))
      (loads : next.action? = some (.assign x (.load (.direct (.register d)))))
      (folded : new.action? = some (.assign x (.load (.offset base sign offset)))) (gone : ends 1 d = true) :
      Rewrite ends tail [head,next] [new] (some ⟨d,next,1⟩)
  /-- A sum moves into the address of a store. -/
  | store {head next new : Instruction} {d : Register} {base offset value : Operand} {sign : OffsetSign}
      (computes : head.action? = some (.assign d (.binary sign.operator base offset)))
      (stores : next.action? = some (.store (.direct (.register d)) value))
      (folded : new.action? = some (.store (.offset base sign offset) value)) (gone : ends 1 d = true) :
      Rewrite ends tail [head,next] [new] (some ⟨d,next,1⟩)
  /-- A jump to a label that follows goes. -/
  | jump {head : Instruction} {nops : List Instruction} {target : Label} (jumps : head.action? = some (.jump target))
      (idle : ∀ i ∈ nops, i.action? = some .skip) (follows : target ∈ leadingLabels tail) :
      Rewrite ends tail (head :: nops) [] none
  /-- The result of a call is read where the call left it. -/
  | forward {head copied reader new : Instruction} {nops : List Instruction} {d : Register} {target : Label} {a : Action}
      (calls : head.action? = some (.call target)) (idle : ∀ i ∈ nops, i.action? = some .skip)
      (copies : copied.action? = some (.assign d (.operand (.register Machine.callResultRegister))))
      (means : reader.action? = some a) (reads : reader.reads d = true)
      (forwarded : new.action? = some
        (a.mapUses fun operand => if operand.isRegister d then .register Machine.callResultRegister else operand))
      (gone : ends (nops.length+2) d = true) :
      Rewrite ends tail (head :: nops ++ [copied,reader]) (head :: nops ++ [new]) (some ⟨d,reader,nops.length+2⟩)
  /-- A number moves into the instruction it was loaded for. -/
  | immediate {head next new : Instruction} {d : Register} {value : Int} {a b : Action}
      (loads : head.action? = some (.assign d (.operand (.immediate value)))) (means : next.action? = some a)
      (folded : new.action? = some b) (placed : Placed d value a b) (gone : ends 1 d = true) :
      Rewrite ends tail [head,next] [new] (some ⟨d,next,1⟩)
  /-- A copy of a register to itself goes. -/
  | selfMove {head : Instruction} {x : Register} (copies : head.action? = some (.assign x (.operand (.register x)))) :
      Rewrite ends tail [head] [] none
  /-- A value is computed where the next instruction copies it. -/
  | merge {head next new : Instruction} {d x : Register} {source : Source}
      (computes : head.action? = some (.assign d source)) (copies : next.action? = some (.assign x (.operand (.register d))))
      (merged : new.action? = some (.assign x source)) (gone : ends 1 d = true) :
      Rewrite ends tail [head,next] [new] (some ⟨d,next,1⟩)

/-- A change is a rewrite of some lines at the head of the code. -/
def Change.Rewrites (c : Change) (ends : EndsAfter) (code : List Instruction) (loss : Option Loss) : Prop :=
  ∃ before after tail, code = before ++ tail ∧ c.code = after ++ tail ∧ Rewrite ends tail before after loss

/-- A change makes one line of the first two. The register that hands a value from one to
    the other goes. -/
structure Change.Joins (c : Change) (ends : EndsAfter) (head next : Instruction) (behind : List Instruction) (new : Instruction)
    (d : Register) : Prop where
  code_eq : c.code = new :: behind
  rewrite : Rewrite ends behind [head,next] [new] (some ⟨d,next,1⟩)

theorem Change.Joins.rewrites {c : Change} {ends : EndsAfter} {head next new : Instruction} {behind : List Instruction}
    {d : Register} (joins : c.Joins ends head next behind new d) : ∃ loss, c.Rewrites ends (head :: next :: behind) loss :=
  ⟨_,[head,next],[new],behind,rfl,joins.code_eq,joins.rewrite⟩

section
variable {ends : EndsAfter} {head : Instruction} {rest : List Instruction} {c : Change}

theorem binaryParts?_eq_some {d : Register} {left right : Operand} (parts : binaryParts? head = some (d,left,right)) :
    head.defs = [.register d] ∧ head.uses = [left,right] := by
  unfold binaryParts? at parts
  split at parts
  · cases parts
    exact ⟨by assumption,by assumption⟩
  · cases parts

/-- The action of an operator is known from its kind and its parts. -/
theorem action_of_parts {a : Action} {d : Register} {left right : Operand} (sign : OffsetSign) (means : head.action? = some a)
    (kind : head.kind = (Machine.Operation.arithmetic sign.operator).kind) (parts : binaryParts? head = some (d,left,right)) :
    head.action? = some (.assign d (.binary sign.operator left right)) := by
  obtain ⟨defs,uses⟩ := binaryParts?_eq_some parts
  have shape := Instruction.action_of_kind means
  cases sign <;>
  · simp only [OffsetSign.operator,Machine.Operation.kind] at kind
    rw [kind] at shape
    obtain ⟨_,_,_,defs',uses',-,rfl⟩ := shape
    rw [defs] at defs'
    rw [uses] at uses'
    cases defs'
    cases uses'
    exact means

/-- The action of a copy is known from its operand lists. -/
theorem action_of_copy {i : Instruction} {a : Action} {d : Register} {value : Operand} (means : i.action? = some a)
    (kind : i.kind = .move ∨ i.kind = .loadImmediate) (parts : (i.defs,i.uses) = ([.register d],[value])) :
    i.action? = some (.assign d (.operand value)) := by
  obtain ⟨defs,uses⟩ := Prod.mk.injEq _ _ _ _ ▸ parts
  have shape := Instruction.action_of_kind means
  rcases kind with kind | kind <;>
  · rw [kind] at shape
    obtain ⟨_,_,defs',uses',rfl⟩ := shape
    rw [defs] at defs'
    rw [uses] at uses'
    cases defs'
    cases uses'
    exact means

theorem action?_copy (source : Operand) (d : Register) : (copy source d).action? = some (.assign d (.operand source)) :=
  (Instruction.action?_withNote _ _).trans (Instruction.action?_move source d)

theorem rewrites_of_addZero {a : Action} (means : head.action? = some a) (kind : head.kind = .add)
    (changed : addZero? head rest = some c) : c.Rewrites ends (head :: rest) none := by
  obtain ⟨⟨d,left,right⟩,parts,changed⟩ := Option.bind_eq_some_iff.1 changed
  obtain ⟨value,beside,changed⟩ := Option.bind_eq_some_iff.1 changed
  cases changed
  have computes := action_of_parts .plus means kind parts
  refine ⟨[head],[copy value d],rest,rfl,rfl,.neutral computes ?_ (action?_copy value d)⟩
  unfold besideZero? at beside
  split at beside
  · rename_i zero
    cases beside
    rw [zero]
    exact .zeroPlus
  · split at beside
    · rename_i zero
      cases beside
      rw [zero]
      exact .plusZero
    · cases beside

theorem rewrites_of_subZero {a : Action} (means : head.action? = some a) (kind : head.kind = .sub)
    (changed : subZero? head rest = some c) : c.Rewrites ends (head :: rest) none := by
  obtain ⟨⟨d,left,right⟩,parts,changed⟩ := Option.bind_eq_some_iff.1 changed
  obtain ⟨_,zero,changed⟩ := Option.bind_eq_some_iff.1 changed
  cases changed
  have computes := action_of_parts .minus means kind parts
  obtain rfl : right = .immediate 0 := by
    by_contra other
    simp [guard,other] at zero
  exact ⟨[head],[copy left d],rest,rfl,rfl,.neutral computes .minusZero (action?_copy left d)⟩

/-- What a load or a store does once its address has been spelt out. -/
theorem action_of_foldedAccess {i j : Instruction} {a : Action} {d : Register} {base offset : Operand} {sign : OffsetSign}
    (means : i.action? = some a) (folded : foldedAccess? d base offset sign i = some j) :
    (∃ x, a = .assign x (.load (.direct (.register d))) ∧ j.action? = some (.assign x (.load (.offset base sign offset)))) ∨
      ∃ value, a = .store (.direct (.register d)) value ∧ j.action? = some (.store (.offset base sign offset) value) := by
  unfold foldedAccess? at folded
  split at folded
  · rename_i value address kind defs uses
    split at folded
    · rename_i same
      cases folded
      obtain rfl : address = .register d := of_decide_eq_true same
      left
      cases Instruction.hasAction means with
      | @load x base' _ defs' uses' =>
        rw [defs] at defs'
        rw [uses] at uses'
        cases defs'
        cases uses'
        exact ⟨x,rfl,by cases sign <;> rfl⟩
      | offsetLoad _ _ uses' => simp [uses] at uses'
      | @arithmetic op _ _ _ kind' => cases op <;> simp [kind,Machine.Operation.kind] at kind'
      | label is | comment is => simp [is] at kind
      | set kind' | move kind' | store kind' | offsetStore kind' | compare kind' | branch kind' | jump kind' | call kind'
      | nop kind' | special kind' => simp [kind] at kind'
    · cases folded
  · rename_i address value kind defs uses
    split at folded
    · rename_i same
      cases folded
      obtain rfl : address = .register d := of_decide_eq_true same
      right
      cases Instruction.hasAction means with
      | @store base' value' _ defs' uses' =>
        rw [defs] at defs'
        rw [uses] at uses'
        cases defs'
        cases uses'
        exact ⟨value,rfl,by cases sign <;> rfl⟩
      | offsetStore _ defs' => simp [defs] at defs'
      | @arithmetic op _ _ _ kind' => cases op <;> simp [kind,Machine.Operation.kind] at kind'
      | label is | comment is => simp [is] at kind
      | set kind' | move kind' | load kind' | offsetLoad kind' | compare kind' | branch kind' | jump kind' | call kind'
      | nop kind' | special kind' => simp [kind] at kind'
    · cases folded
  · cases folded

/-- An address is folded into the line below, a load or a store that has nothing but the
    sum for its address. -/
theorem joins_of_foldAddress (sign : OffsetSign) {a : Action} (decodes : ∀ i ∈ rest, i.action? ≠ none)
    (means : head.action? = some a) (kind : head.kind = (Machine.Operation.arithmetic sign.operator).kind)
    (changed : foldAddress? ends sign head rest = some c) : ∃ d base offset next new behind, rest = next :: behind ∧
      head.action? = some (.assign d (.binary sign.operator base offset)) ∧ c.Joins ends head next behind new d ∧
      ((∃ x, next.action? = some (.assign x (.load (.direct (.register d)))) ∧
          new.action? = some (.assign x (.load (.offset base sign offset)))) ∨
        ∃ value, next.action? = some (.store (.direct (.register d)) value) ∧
          new.action? = some (.store (.offset base sign offset) value)) := by
  obtain ⟨⟨d,base,offset⟩,parts,onward⟩ := Option.bind_eq_some_iff.1 changed
  obtain ⟨_,_,onward⟩ := Option.bind_eq_some_iff.1 onward
  obtain ⟨_,_,onward⟩ := Option.bind_eq_some_iff.1 onward
  obtain ⟨_,passed,onward⟩ := Option.bind_eq_some_iff.1 onward
  have gone := guard_eq_some passed
  have computes := action_of_parts sign means kind parts
  cases rest with
  | nil => cases onward
  | cons next behind =>
    obtain ⟨access,folded,onward⟩ := Option.bind_eq_some_iff.1 onward
    cases onward
    obtain ⟨b,means'⟩ := Option.ne_none_iff_exists'.1 (decodes next List.mem_cons_self)
    have note : (withFoldedNote d s!"{base.text} {sign.symbol} {offset.text}" next.note? access).action? = access.action? := by
      cases next.note? <;> simp [withFoldedNote]
    rcases action_of_foldedAccess means' folded with ⟨x,rfl,spelt⟩ | ⟨value,rfl,spelt⟩
    · have new := note.trans spelt
      exact ⟨d,base,offset,next,_,behind,rfl,computes,⟨rfl,.load computes means' new gone⟩,.inl ⟨x,means',new⟩⟩
    · have new := note.trans spelt
      exact ⟨d,base,offset,next,_,behind,rfl,computes,⟨rfl,.store computes means' new gone⟩,.inr ⟨value,means',new⟩⟩

theorem idle_of_takeWhile (decodes : ∀ i ∈ rest, i.action? ≠ none) : ∀ i ∈ rest.takeWhile isNop, i.action? = some .skip := by
  intro i member
  obtain ⟨a,means⟩ := Option.ne_none_iff_exists'.1 (decodes i ((List.takeWhile_sublist _).subset member))
  have shape := Instruction.action_of_kind means
  have kind : i.kind = .nop := by simpa [isNop] using List.all_eq_true.1 List.all_takeWhile i member
  rw [kind] at shape
  exact means.trans (congrArg some shape)

theorem rewrites_of_dropJump {a : Action} (decodes : ∀ i ∈ rest, i.action? ≠ none) (means : head.action? = some a)
    (kind : head.kind = .jump) (changed : dropJump? head rest = some c) : c.Rewrites ends (head :: rest) none := by
  obtain ⟨target,first,onward⟩ := Option.bind_eq_some_iff.1 changed
  obtain ⟨_,passed,onward⟩ := Option.bind_eq_some_iff.1 onward
  cases onward
  have follows := guard_eq_some passed
  have shape := Instruction.action_of_kind means
  rw [kind] at shape
  obtain ⟨_,jumps,rfl⟩ := shape
  rw [jumps] at first
  cases first
  refine ⟨head :: rest.takeWhile isNop,[],rest.dropWhile isNop,?_,rfl,
    .jump means (idle_of_takeWhile decodes) (List.contains_iff_mem.1 follows)⟩
  rw [List.cons_append,List.takeWhile_append_dropWhile]

/-- What an instruction does once it reads a register under another name. -/
theorem action?_replaceUse {i : Instruction} {a : Action} {d : Register} (value : Operand) (means : i.action? = some a)
    (reads : i.reads d = true) : (i.replaceUse d value).action? = some
      (a.mapUses fun operand => if operand.isRegister d then value else operand) := by
  cases named : i.template? with
  | none =>
    cases i with
    | operation | move => cases named
    | label | comment => simp [Instruction.reads,Instruction.useRegisters,Instruction.uses] at reads
  | some template =>
    exact Instruction.action?_mapUses named (by simp [named]) _ (Instruction.defs_replaceUse _ _ _)
      (Instruction.uses_replaceUse _ _ _) (Instruction.jumps_replaceUse _ _ _) means

/-- The result of a call is read where the call left it, by the line below its copy. -/
theorem rewrite_of_forwardResult {a : Action} (decodes : ∀ i ∈ rest, i.action? ≠ none) (means : head.action? = some a)
    (kind : head.kind = .call) (changed : forwardResult? .sparc ends head rest = some c) : ∃ nops copied reader behind d b,
      rest = nops ++ copied :: reader :: behind ∧ (∀ i ∈ nops, i.action? = some .skip) ∧
      copied.action? = some (.assign d (.operand (.register Machine.callResultRegister))) ∧ reader.action? = some b ∧
      reader.reads d = true ∧ c.code = head :: nops ++ reader.replaceUse d (.register Machine.callResultRegister) :: behind ∧
      Rewrite ends behind (head :: nops ++ [copied,reader])
        (head :: nops ++ [reader.replaceUse d (.register Machine.callResultRegister)]) (some ⟨d,reader,nops.length+2⟩) := by
  unfold forwardResult? at changed
  split at changed
  · rename_i copied reader behind follows
    obtain ⟨_,isMove,onward⟩ := Option.bind_eq_some_iff.1 changed
    obtain ⟨_,result,onward⟩ := Option.bind_eq_some_iff.1 onward
    cases result
    split at onward
    · rename_i d source parts
      obtain ⟨_,isResult,onward⟩ := Option.bind_eq_some_iff.1 onward
      obtain ⟨_,gone,onward⟩ := Option.bind_eq_some_iff.1 onward
      obtain ⟨_,reads,onward⟩ := Option.bind_eq_some_iff.1 onward
      cases onward
      have reads := guard_eq_some reads
      have split : rest = rest.takeWhile isNop ++ copied :: reader :: behind := by
        rw [← follows,List.takeWhile_append_dropWhile]
      obtain ⟨target,calls⟩ : ∃ target, head.action? = some (.call target) := by
        have shape := Instruction.action_of_kind means
        rw [kind] at shape
        obtain ⟨target,rfl⟩ := shape
        exact ⟨target,means⟩
      obtain ⟨_,meansCopied⟩ := Option.ne_none_iff_exists'.1 (decodes copied (by rw [split]; simp))
      obtain ⟨b,meansReader⟩ := Option.ne_none_iff_exists'.1 (decodes reader (by rw [split]; simp))
      have copies : copied.action? = some (.assign d (.operand (.register Machine.callResultRegister))) := by
        rw [action_of_copy meansCopied (.inl (guard_eq_some isMove)) parts,of_decide_eq_true (guard_eq_some isResult)]
      have idle := idle_of_takeWhile decodes
      exact ⟨rest.takeWhile isNop,copied,reader,behind,d,b,split,idle,copies,meansReader,reads,rfl,
        .forward calls idle copies meansReader reads (action?_replaceUse _ meansReader reads) (guard_eq_some gone)⟩
    · cases onward
  · cases changed

theorem placeImmediate?_pair {kind : Machine.Kind} {d : Register} {value : Int} {left right : Operand} {uses : List Operand}
    (placed : placeImmediate? kind d value [left,right] = some uses) :
    right = .register d ∧ uses = [left,.immediate value] ∨
      right ≠ .register d ∧ left = .register d ∧ kind.operator?.any BinaryOp.isCommutative = true ∧
        uses = [right,.immediate value] := by
  unfold placeImmediate? at placed
  split at placed
  · rename_i last
    split at placed
    · cases placed
    · cases placed
      exact .inl ⟨by simpa using last,rfl⟩
  · rename_i last
    simp only [Bool.and_eq_true] at placed
    split at placed
    · rename_i found
      cases placed
      exact .inr ⟨by simpa using last,of_decide_eq_true found.1.1,found.1.2,rfl⟩
    · cases placed

/-- A register that is read once is not read twice. -/
theorem other_of_useCount {i : Instruction} {d : Register} {left right : Operand} (uses : i.uses = [left,right])
    (once : i.useCount d = 1) : ¬ (left = .register d ∧ right = .register d) := by
  rintro ⟨rfl,rfl⟩
  simp [Instruction.useCount,Instruction.useRegisters,uses,Operand.asRegister?] at once

/-- What an instruction does once a number stands for a register that it read. -/
theorem placed_of_placeImmediate {i : Instruction} {a : Action} {d : Register} {value : Int} {uses : List Operand}
    (means : i.action? = some a) (once : i.useCount d = 1)
    (accepts : Machine.Target.sparc.acceptsImmediate i.kind = true)
    (placed : placeImmediate? i.kind d value i.uses = some uses) :
    ∃ b, ((i.withUses uses).renameInNote d.name (toString value)).action? = some b ∧ Placed d value a b := by
  have kinds : i.kind = .add ∨ i.kind = .sub ∨ i.kind = .compare := by
    simpa [Machine.Target.acceptsImmediate,Machine.Target.sparc] using accepts
  obtain ⟨template,named⟩ : ∃ template, i.template? = some template := by
    cases i with
    | operation | move => exact ⟨_,rfl⟩
    | label | comment => simp at kinds
  have same : ((i.withUses uses).renameInNote d.name (toString value)).template? = some template := by simp [named]
  have shape := Instruction.action_of_kind means
  have binary {x : Register} {op : BinaryOp} {left right : Operand} (read : i.uses = [left,right])
      (is : a = .assign x (.binary op left right)) (commutes : i.kind.operator?.any BinaryOp.isCommutative = true → op = .plus) :
      ∃ b, ((i.withUses uses).renameInNote d.name (toString value)).action? = some b ∧ Placed d value a b := by
    rw [read] at placed
    subst is
    rcases placeImmediate?_pair placed with ⟨rfl,rfl⟩ | ⟨other,rfl,commutative,rfl⟩
    · refine ⟨_,Instruction.action?_operands named same (by simp) ?_ (by simp) means,.right ?_⟩
      · rw [Instruction.uses_renameInNote,Instruction.uses_withUses (by simp [read])]
      · intro also
        exact other_of_useCount read once ⟨also,rfl⟩
    · obtain rfl := commutes commutative
      refine ⟨_,Instruction.action?_operands named same (by simp) ?_ (by simp) means,.left other⟩
      rw [Instruction.uses_renameInNote,Instruction.uses_withUses (by simp [read])]
  rcases kinds with kind | kind | kind <;> rw [kind] at shape
  · obtain ⟨x,left,right,-,read,-,is⟩ := shape
    exact binary read is fun _ => rfl
  · obtain ⟨x,left,right,-,read,-,is⟩ := shape
    refine binary read is ?_
    rw [kind]
    intro commutative
    cases commutative
  · obtain ⟨left,right,-,read,rfl⟩ := shape
    rw [read,kind] at placed
    rcases placeImmediate?_pair placed with ⟨rfl,rfl⟩ | ⟨-,-,commutative,-⟩
    · have other : left ≠ .register d := fun also => other_of_useCount read once ⟨also,rfl⟩
      refine ⟨_,Instruction.action?_mapUses named same (fun operand => if operand = .register d then .immediate value else operand)
        (by simp) ?_ (by simp) means,?_⟩
      · rw [Instruction.uses_renameInNote,Instruction.uses_withUses (by simp [read])]
        simp [read,other]
      · simp only [Action.mapUses,if_neg other,if_true]
        exact .compared other
    · cases commutative

/-- A number moves into the next line, which is not a store. -/
theorem joins_of_foldImmediate {a : Action} (decodes : ∀ i ∈ rest, i.action? ≠ none) (means : head.action? = some a)
    (kind : head.kind = .loadImmediate) (changed : foldImmediate? .sparc ends head rest = some c) :
    ∃ d next new behind, rest = next :: behind ∧ c.Joins ends head next behind new d ∧ next.kind ≠ .store := by
  unfold foldImmediate? at changed
  split at changed
  · rename_i d value parts
    obtain ⟨_,passed,onward⟩ := Option.bind_eq_some_iff.1 changed
    have gone := (Bool.and_eq_true _ _ ▸ guard_eq_some passed).2
    cases rest with
    | nil => cases onward
    | cons next behind =>
      obtain ⟨_,passed,onward⟩ := Option.bind_eq_some_iff.1 onward
      obtain ⟨uses,placed,onward⟩ := Option.bind_eq_some_iff.1 onward
      cases onward
      obtain ⟨accepts,once⟩ := Bool.and_eq_true _ _ ▸ guard_eq_some passed
      obtain ⟨b,means'⟩ := Option.ne_none_iff_exists'.1 (decodes next List.mem_cons_self)
      obtain ⟨new,folded,put⟩ := placed_of_placeImmediate means' (of_decide_eq_true once) accepts placed
      have loads := action_of_copy means (.inr kind) parts
      refine ⟨d,next,_,behind,rfl,⟨rfl,.immediate loads means' folded put gone⟩,?_⟩
      intro store
      rw [store] at accepts
      cases accepts
  · cases changed

theorem rewrites_of_dropSelfMove {a : Action} (means : head.action? = some a) (kind : head.kind = .move)
    (changed : dropSelfMove? head rest = some c) : c.Rewrites ends (head :: rest) none := by
  unfold dropSelfMove? at changed
  split at changed
  · rename_i destination source parts
    obtain ⟨_,passed,onward⟩ := Option.bind_eq_some_iff.1 changed
    cases onward
    obtain rfl := guard_eq_some passed
    obtain ⟨x,rfl⟩ : ∃ x, destination = .register x := by
      have shape := Instruction.action_of_kind means
      rw [kind,(Prod.mk.inj parts).1] at shape
      obtain ⟨x,_,wrote,-,-⟩ := shape
      exact ⟨x,(List.singleton_inj.1 wrote)⟩
    exact ⟨[head],[],rest,rfl,rfl,.selfMove (action_of_copy means (.inl kind) parts)⟩
  · cases changed

/-- An instruction that reads something and writes a register puts a value into it. -/
theorem assign_of_defs {i : Instruction} {a : Action} {d : Register} {others : List Operand} (means : i.action? = some a)
    (kind : i.kind ≠ .store) (defs : i.defs = .register d :: others) : others = [] ∧ ∃ source, a = .assign d source := by
  cases Instruction.hasAction means with
  | label is | comment is => simp [is,Instruction.defs] at defs
  | compare _ defs' | branch _ defs' | jump _ defs' | call _ defs' | nop _ defs' | special _ defs' => simp [defs] at defs'
  | store kind' | offsetStore kind' => exact absurd kind' kind
  | set _ defs' | move _ defs' | arithmetic _ defs' | load _ defs' | offsetLoad _ defs' =>
    rw [defs] at defs'
    cases defs'
    exact ⟨rfl,_,rfl⟩

/-- A value is computed where the next line copies it. -/
theorem joins_of_mergeMove {a : Action} (decodes : ∀ i ∈ rest, i.action? ≠ none) (means : head.action? = some a)
    (changed : mergeMove? ends head rest = some c) :
    ∃ d next new behind, rest = next :: behind ∧ c.Joins ends head next behind new d ∧ next.kind ≠ .store := by
  unfold mergeMove? at changed
  obtain ⟨_,passed,onward⟩ := Option.bind_eq_some_iff.1 changed
  have regular : head.kind ≠ .store := of_decide_eq_true (Bool.and_eq_true _ _ ▸ guard_eq_some passed).1
  split at onward
  · rename_i d others defs
    obtain ⟨_,gone,onward⟩ := Option.bind_eq_some_iff.1 onward
    cases rest with
    | nil => cases onward
    | cons next behind =>
      obtain ⟨_,passed,onward⟩ := Option.bind_eq_some_iff.1 onward
      obtain ⟨destination,first,onward⟩ := Option.bind_eq_some_iff.1 onward
      cases onward
      obtain ⟨isMove,reads⟩ := Bool.and_eq_true _ _ ▸ guard_eq_some passed
      have isMove : next.kind = .move := of_decide_eq_true isMove
      obtain ⟨rfl,source,rfl⟩ := assign_of_defs means regular defs
      obtain ⟨b,meansNext⟩ := Option.ne_none_iff_exists'.1 (decodes next List.mem_cons_self)
      obtain ⟨template,named⟩ : ∃ template, head.template? = some template := by
        cases head with
        | operation | move => exact ⟨_,rfl⟩
        | label | comment => cases defs
      have shape := Instruction.action_of_kind meansNext
      rw [isMove] at shape
      obtain ⟨x,value,wrote,read,rfl⟩ := shape
      rw [wrote] at first
      cases first
      have copied : value = .register d := by
        have member := Instruction.reads_iff.1 reads
        rw [read] at member
        exact (List.mem_singleton.1 member).symm
      subst copied
      refine ⟨d,next,_,behind,rfl,⟨rfl,.merge means meansNext ?_ (guard_eq_some gone)⟩,by simp [isMove]⟩
      refine Instruction.action?_retarget named (by simp [named]) ?_ (by simp) (by simp) means
      rw [Instruction.defs_renameInNote,Instruction.defs_withDefs (by simp [defs])]
  · cases onward

/-- Every change of code that has a meaning is a rewrite. -/
theorem rewrites_of_change (decodes : ∀ i ∈ head :: rest, i.action? ≠ none) (changed : change? .sparc ends head rest = some c) :
    ∃ loss, c.Rewrites ends (head :: rest) loss := by
  obtain ⟨a,means⟩ := Option.ne_none_iff_exists'.1 (decodes head List.mem_cons_self)
  have others : ∀ i ∈ rest, i.action? ≠ none := fun i member => decodes i (List.mem_cons_of_mem _ member)
  unfold change? at changed
  split at changed
  · cases changed
  · rcases Option.or_eq_some_iff.1 changed with special | ⟨-,general⟩
    · unfold kindRule? at special
      split at special
      · rename_i kind
        rcases Option.or_eq_some_iff.1 special with zero | ⟨-,fold⟩
        · exact ⟨_,rewrites_of_addZero means kind zero⟩
        · obtain ⟨_,_,_,_,_,_,rfl,-,joins,-⟩ := joins_of_foldAddress .plus others means kind fold
          exact joins.rewrites
      · rename_i kind
        rcases Option.or_eq_some_iff.1 special with zero | ⟨-,fold⟩
        · exact ⟨_,rewrites_of_subZero means kind zero⟩
        · obtain ⟨_,_,_,_,_,_,rfl,-,joins,-⟩ := joins_of_foldAddress .minus others means kind fold
          exact joins.rewrites
      · rename_i kind
        exact ⟨_,rewrites_of_dropJump others means kind special⟩
      · rename_i kind
        obtain ⟨nops,copied,reader,behind,_,_,rfl,-,-,-,-,code,rewrite⟩ := rewrite_of_forwardResult others means kind special
        exact ⟨_,_,_,behind,by simp,by simp [code],rewrite⟩
      · rename_i kind
        obtain ⟨_,_,_,_,rfl,joins,-⟩ := joins_of_foldImmediate others means kind special
        exact joins.rewrites
      · rename_i kind
        exact ⟨_,rewrites_of_dropSelfMove means kind special⟩
      · cases special
    · obtain ⟨_,_,_,_,rfl,joins,-⟩ := joins_of_mergeMove others means general
      exact joins.rewrites

end

end SparcBackend.Peephole
