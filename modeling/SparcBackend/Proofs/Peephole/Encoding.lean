import SparcBackend.Proofs.Machine.Encoding
import SparcBackend.Proofs.Peephole.Simulation
import SparcBackend.Proofs.Selection.Wellformed

/-!
Where the optimizer puts numbers. A number leaves the line that loads it only for a slot
with a field that holds it. From there it may move into an address, where nobody looks
at the sign in front of it: so -4096, which fits, ends up where it stands for 4096.
-/
namespace SparcBackend
variable {among : Int → Prop}

namespace Peephole
open Machine (Action Kind OffsetSign Source)
variable {ends : EndsAfter} {head next : Instruction} {rest after : List Instruction} {c : Change}

/-- A number takes the place of the other summand only if that is no number. -/
theorem bare_of_placeImmediate {kind : Kind} {d : Register} {value : Int} {left right : Operand} {uses : List Operand}
    (placed : placeImmediate? kind d value [left,right] = some uses) (other : right ≠ .register d) : right.asImmediate? = none := by
  unfold placeImmediate? at placed
  rw [if_neg (by simpa using other)] at placed
  simp only [Bool.and_eq_true,Option.isNone_iff_eq_none] at placed
  split at placed
  · rename_i found
    exact found.2
  · cases placed

/-- What is known of a number that moves into the next instruction. -/
theorem fits_of_foldImmediate {d : Register} {n : Int} (writes : head.defs = [.register d]) (loads : head.uses = [.immediate n])
    (changed : foldImmediate? .sparc ends head (next :: after) = some c) :
    Fits n ∧ (next.kind = .add ∨ next.kind = .sub ∨ next.kind = .compare) ∧
      ∃ uses, placeImmediate? next.kind d n next.uses = some uses := by
  unfold foldImmediate? at changed
  rw [writes,loads] at changed
  obtain ⟨_,passed,onward⟩ := Option.bind_eq_some_iff.1 changed
  obtain ⟨_,passed',onward⟩ := Option.bind_eq_some_iff.1 onward
  obtain ⟨uses,placed,-⟩ := Option.bind_eq_some_iff.1 onward
  refine ⟨immediateFits_iff.1 (Bool.and_eq_true _ _ ▸ guard_eq_some passed).1,?_,uses,placed⟩
  have accepts := (Bool.and_eq_true _ _ ▸ guard_eq_some passed').1
  simpa [Machine.Target.acceptsImmediate,Machine.Target.sparc] using accepts

/-- An instruction that takes the place of a copy stays of its kind. -/
theorem kind_of_mergeMove (changed : mergeMove? ends head (next :: after) = some c) :
    next.kind = .move ∧ ∃ now, c.code = now :: after ∧ now.kind = head.kind := by
  unfold mergeMove? at changed
  obtain ⟨_,_,onward⟩ := Option.bind_eq_some_iff.1 changed
  split at onward
  · obtain ⟨_,_,onward⟩ := Option.bind_eq_some_iff.1 onward
    obtain ⟨_,passed,onward⟩ := Option.bind_eq_some_iff.1 onward
    obtain ⟨_,_,onward⟩ := Option.bind_eq_some_iff.1 onward
    cases onward
    exact ⟨of_decide_eq_true (Bool.and_eq_true _ _ ▸ guard_eq_some passed).1,_,rfl,by simp⟩
  · cases onward

/-- The two rules for a line that loads something. -/
theorem change_of_loadImmediate (kind : head.kind = .loadImmediate) (changed : change? .sparc ends head rest = some c) :
    foldImmediate? .sparc ends head rest = some c ∨ mergeMove? ends head rest = some c := by
  unfold change? at changed
  split at changed
  · cases changed
  · simp only [kindRule?,kind] at changed
    rcases Option.or_eq_some_iff.1 changed with fold | ⟨-,merge⟩
    · exact .inl fold
    · exact .inr merge

theorem operator_of_kind {x : Register} {op : BinaryOp} {left right : Operand}
    (means : next.action? = some (.assign x (.binary op left right)))
    (kinds : next.kind = .add ∨ next.kind = .sub ∨ next.kind = .compare) : op = .plus ∨ op = .minus := by
  cases Instruction.hasAction means with
  | arithmetic kind =>
    rw [kind] at kinds
    cases op <;> simp [Machine.Operation.kind] at kinds ⊢

/-- What a number moves into is no copy, so it is the rule for numbers that moves it. -/
theorem fold_of_placed {d : Register} {n : Int} {a b : Action} (kind : head.kind = .loadImmediate) (means : next.action? = some a)
    (placed : Placed d n a b) (changed : change? .sparc ends head (next :: after) = some c) :
    foldImmediate? .sparc ends head (next :: after) = some c := by
  rcases change_of_loadImmediate kind changed with fold | merge
  · exact fold
  · have shape := Instruction.action_of_kind means
    rw [(kind_of_mergeMove merge).1] at shape
    obtain ⟨_,_,-,-,rfl⟩ := shape
    cases placed

/-- A number that fits is put into the last slot, and none is left in the other. -/
theorem carries_of_placed {now : Instruction} {d : Register} {n : Int} {a b : Action} {uses : List Operand}
    (means : next.action? = some a) (folded : now.action? = some b) (placed : Placed d n a b) (old : a.Carries among next.kind)
    (kinds : next.kind = .add ∨ next.kind = .sub ∨ next.kind = .compare) (fits : Fits n) (member : among n)
    (put : placeImmediate? next.kind d n next.uses = some uses) : now.Carries among := by
  refine ⟨b,folded,?_⟩
  have new {P : Int → Prop} (holds : P n) : ∀ m ∈ (Operand.immediate n).asImmediate?, P m := by
    rintro m is
    cases is
    exact holds
  cases placed with
  | right other => exact ⟨old.1,new ⟨operator_of_kind means kinds,fits,member⟩⟩
  | left other =>
    rw [Instruction.uses_eq means] at put
    exact ⟨bare_of_placeImmediate put other,new ⟨.inl rfl,fits,member⟩⟩
  | compared other => exact ⟨old.1,new ⟨fits,member⟩⟩

theorem asImmediate?_replaced (d x : Register) (operand : Operand) :
    (if operand.isRegister d then Operand.register x else operand).asImmediate? = operand.asImmediate? := by
  split
  · rename_i same
    rw [of_decide_eq_true same]
    rfl
  · rfl

/-- An instruction that reads `x` in place of `d` carries what it carried. -/
theorem carries_of_forwarded {reader now : Instruction} {d x : Register} {a : Action} (means : reader.action? = some a)
    (reads : reader.reads d = true) (old : a.Carries among reader.kind)
    (forwarded : now.action? = some (a.mapUses fun operand => if operand.isRegister d then .register x else operand)) :
    now.Carries among := by
  refine ⟨_,forwarded,?_⟩
  cases a with
  | assign _ source =>
    cases source with
    | operand value =>
      have member := Instruction.reads_iff.1 reads
      rw [Instruction.uses_eq means] at member
      obtain rfl := List.mem_singleton.1 member
      exact Operand.forall_of_bare (asImmediate?_replaced d x _)
    | binary => simpa only [Action.mapUses,Source.mapOperands,Action.Carries,Source.Carries,asImmediate?_replaced] using old
    | load address =>
      cases address with
      | direct | offset =>
        simpa only [Action.mapUses,Source.mapOperands,Machine.Address.mapOperands,Action.Carries,Source.Carries,
          Machine.Address.Carries,asImmediate?_replaced] using old
  | store | compare => simpa only [Action.mapUses,Action.Carries,asImmediate?_replaced] using old
  | branch | jump | call | label | skip | special => trivial

/-- A number that a line loads is loaded by a line of that kind, wherever it goes. -/
theorem kind_of_merged {d x : Register} {n : Int} {now : Instruction} (kind : head.kind = .loadImmediate)
    (computes : head.action? = some (.assign d (.operand (.immediate n))))
    (copies : next.action? = some (.assign x (.operand (.register d)))) (becomes : c.code = now :: after)
    (changed : change? .sparc ends head (next :: after) = some c) : now.kind = .loadImmediate := by
  rcases change_of_loadImmediate kind changed with fold | merge
  · obtain ⟨-,kinds,-⟩ := fits_of_foldImmediate (Instruction.defs_eq computes) (Instruction.uses_eq computes) fold
    cases Instruction.hasAction copies with
    | set kind | move kind => simp [kind] at kinds
  · obtain ⟨-,same,is,kept⟩ := kind_of_mergeMove merge
    rw [becomes] at is
    cases is
    exact kept.trans kind

theorem carries_of_change (changed : change? .sparc ends head rest = some c) (carries : ∀ i ∈ head :: rest, i.Carries among) :
    ∀ i ∈ c.code, i.Carries among := by
  have decodes : ∀ i ∈ head :: rest, i.action? ≠ none := by
    intro i member
    obtain ⟨a,means,-⟩ := carries i member
    simp [means]
  obtain ⟨loss,before,new,tail,is,becomes,rewrite⟩ := rewrites_of_change decodes changed
  have old {i : Instruction} {a : Action} (member : i ∈ before) (means : i.action? = some a) : a.Carries among i.kind := by
    obtain ⟨b,means',carries⟩ := carries i (is ▸ List.mem_append_left _ member)
    cases means.symm.trans means'
    exact carries
  have lines : ∀ i ∈ new, i.Carries among := by
    cases rewrite with
    | neutral computes isNeutral copies =>
      have left := (old List.mem_cons_self computes).1
      simp only [List.mem_singleton,forall_eq]
      refine ⟨_,copies,Operand.forall_of_bare ?_⟩
      cases isNeutral with
      | zeroPlus => cases left
      | plusZero | minusZero => exact left
    | load computes loads folded =>
      obtain ⟨base,offset⟩ := old List.mem_cons_self computes
      simp only [List.mem_singleton,forall_eq]
      exact ⟨_,folded,base,fun n is => (offset n is).2⟩
    | store computes stores folded =>
      obtain ⟨base,offset⟩ := old List.mem_cons_self computes
      have value := (old (List.mem_cons_of_mem _ List.mem_cons_self) stores).1
      simp only [List.mem_singleton,forall_eq]
      exact ⟨_,folded,value,base,fun n is => (offset n is).2⟩
    | jump | selfMove => exact nofun
    | @forward head copied reader new nops d target a calls idle copies means reads forwarded =>
      intro i member
      rcases List.mem_append.1 member with front | last
      · exact carries i (is ▸ List.mem_append_left _ (List.mem_append_left _ front))
      · cases List.mem_singleton.1 last
        exact carries_of_forwarded means reads (old (by simp) means) forwarded
    | @immediate head next new d value a b loads means folded placed =>
      obtain ⟨rfl,rfl⟩ := List.cons.inj is
      obtain ⟨kind,member⟩ := old List.mem_cons_self loads value rfl
      simp only [List.mem_singleton,forall_eq]
      have fold := fold_of_placed kind means placed changed
      obtain ⟨fits,kinds,_,put⟩ := fits_of_foldImmediate (Instruction.defs_eq loads) (Instruction.uses_eq loads) fold
      exact carries_of_placed means folded placed (old (List.mem_cons_of_mem _ List.mem_cons_self) means) kinds fits member put
    | @merge head next new d x source computes copies merged =>
      obtain ⟨rfl,rfl⟩ := List.cons.inj is
      have carried := old List.mem_cons_self computes
      simp only [List.mem_singleton,forall_eq]
      refine ⟨_,merged,?_⟩
      cases source with
      | operand value =>
        intro n loads
        obtain ⟨kind,member⟩ := carried n loads
        obtain rfl := Operand.mem_asImmediate?.1 loads
        exact ⟨kind_of_merged kind computes copies becomes changed,member⟩
      | binary | load => exact carried
  rw [becomes]
  intro i member
  rcases List.mem_append.1 member with changed | same
  · exact lines i changed
  · exact carries i (is ▸ List.mem_append_right _ same)

theorem Site.carries {s : Site} {supply : RegisterSupply} (made : s.IsMade .sparc supply) (carries : ∀ i ∈ s.code, i.Carries among) :
    ∀ i ∈ s.after, i.Carries among := by
  unfold Site.IsMade changeAt? at made
  split at made
  · cases made
  · rename_i head rest behind
    have inside : ∀ i ∈ head :: rest, i.Carries among := fun i member => carries i (List.mem_of_mem_drop (behind ▸ member))
    intro i member
    rcases List.mem_append.1 member with front | changed
    · exact carries i (List.mem_of_mem_take front)
    · exact carries_of_change made inside i changed

end Peephole

namespace Selection

/-- Selected lines carry no number but one that they load, and no number waits for a line. -/
theorem isCompositional_carries : IsCompositional (fun _ => True) among fun _ xs code _ =>
    (∀ i ∈ code, i.Carries among) ∧ ∀ x ∈ xs, x.asImmediate? = none where
  nil := ⟨nofun,nofun⟩
  append one two := ⟨List.forall_mem_append.2 ⟨one.1,two.1⟩,List.forall_mem_append.2 ⟨one.2,two.2⟩⟩
  operand _ bare := ⟨nofun,List.forall_mem_singleton.2 bare⟩
  number means kind member := by
    refine ⟨List.forall_mem_singleton.2 ⟨_,means,?_⟩,List.forall_mem_singleton.2 rfl⟩
    rintro m is
    cases is
    exact ⟨kind,member⟩
  fresh holds means := by
    refine ⟨List.forall_mem_append.2 ⟨holds.1,List.forall_mem_singleton.2 ?_⟩,List.forall_mem_singleton.2 rfl⟩
    exact Instruction.carries_of_bare means holds.2
  read means _ _ holds := by
    obtain ⟨bare,others⟩ := List.forall_mem_append.1 holds.2
    exact ⟨List.forall_mem_append.2 ⟨holds.1,List.forall_mem_singleton.2 (Instruction.carries_of_bare means bare)⟩,others⟩
  drop holds := ⟨holds.1,nofun⟩
  transfer means looks _ _ := by
    have filler : Machine.nop.Carries among := Instruction.carries_of_bare Instruction.action?_nop nofun
    refine ⟨List.forall_mem_cons.2 ⟨Instruction.carries_of_bare means ?_,List.forall_mem_singleton.2 filler⟩,nofun⟩
    simp [looks]

end Selection

open Selection Peephole

/-- A number is a constant somewhere in a body. -/
def IsConstantIn (body : List Statement) (n : Int) : Prop :=
  ∃ m : Int32, .expression (.constant m) ∈ body.flatMap Statement.nodes ∧ m.toInt = n

/-- After optimization every number stands where it can be encoded, except that -4096 may
    be taken from the base of an address: the field holds it, but not what it stands for
    there. Where it is no constant of the trees all numbers can be encoded. -/
theorem optimize_encodable {supply : RegisterSupply} {p : Procedure} {frames : Bool} {f : CodeFragment}
    (accepted : (select .sparc supply p frames).outcome = .ok f) :
    (∀ i ∈ (optimize .sparc f.supply f.code).code, i.IsEncodable ↔ ¬ i.SubtractsLeast) ∧
      (¬ IsConstantIn p.body (-4096) → ∀ i ∈ (optimize .sparc f.supply f.code).code, i.IsEncodable) := by
  have start : ∀ i ∈ f.code, i.Carries (IsConstantIn p.body) :=
    (isCompositional_carries.select accepted (fun _ _ => trivial) fun m member => ⟨m,member,rfl⟩).1
  have carries : ∀ i ∈ (optimize .sparc f.supply f.code).code, i.Carries (IsConstantIn p.body) :=
    optimize_induction (P := fun code => ∀ i ∈ code, i.Carries (IsConstantIn p.body)) (fun _ => True)
      (fun s made _ => s.carries made) f.code (fun _ _ => trivial) start
  refine ⟨fun i member => ⟨?_,(carries i member).isEncodable⟩,?_⟩
  · intro encodable subtracts
    exact subtracts.not_isEncodable encodable
  · intro absent i member
    refine (carries i member).isEncodable fun subtracts => ?_
    exact absent ((carries i member).among_of_subtractsLeast subtracts)

/-- A cell below an address is read, and one above another is written. -/
def neighbours : Procedure where
  className := "Test"
  methodName := "neighbours"
  body := [.move (.memory (.binary .minus (.named "%i0") (.constant (-4095)))) (.memory (.binary .plus (.named "%i1") (.constant (-4))))]

theorem optimize_encodable_neighbours : ∃ f, (select .sparc {} neighbours false).outcome = .ok f ∧
    ∀ i ∈ (optimize .sparc f.supply f.code).code, i.IsEncodable := by
  obtain ⟨f,accepted⟩ : ∃ f, (select .sparc {} neighbours false).outcome = .ok f := ⟨_,rfl⟩
  refine ⟨f,accepted,(optimize_encodable accepted).2 ?_⟩
  rintro ⟨m,member,is⟩
  have constants : m = -4095 ∨ m = -4 := by simpa [neighbours,Statement.nodes,Expression.nodes,Expression.named,or_comm] using member
  rcases constants with rfl | rfl <;> exact absurd is (by decide)

/-- A cell is read that lies as far above an address as the field for offsets goes down. -/
def farAbove : Procedure where
  className := "Test"
  methodName := "farAbove"
  body := [.move (.named "%i0") (.memory (.binary .minus (.named "%i1") (.constant (-4096))))]

/-- The number moves into the subtraction and with it into the address of the load. -/
theorem not_optimize_encodable_farAbove : ∃ f, (select .sparc {} farAbove false).outcome = .ok f ∧
    ¬ ∀ i ∈ (optimize .sparc f.supply f.code).code, i.IsEncodable := by
  obtain ⟨f,accepted⟩ : ∃ f, (select .sparc {} farAbove false).outcome = .ok f := ⟨_,rfl⟩
  have becomes : (optimize .sparc f.supply f.code).code =
      [(Machine.offsetLoad (.register ⟨"%i1"⟩) (.immediate (-4096)) .minus (.register ⟨"%i0"⟩)).withNote "*(%i1 - -4096) -> %i0"] := by
    cases accepted
    decide +kernel
  refine ⟨f,accepted,fun encodable => ?_⟩
  rw [becomes] at encodable
  have subtracts : ((Machine.offsetLoad (.register ⟨"%i1"⟩) (.immediate (-4096)) .minus (.register ⟨"%i0"⟩)).withNote
      "*(%i1 - -4096) -> %i0").SubtractsLeast := ⟨.register ⟨"%i1"⟩,.inl ⟨⟨"%i0"⟩,rfl⟩⟩
  exact subtracts.not_isEncodable (encodable _ List.mem_cons_self)

end SparcBackend
