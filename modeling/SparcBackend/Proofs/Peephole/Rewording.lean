import SparcBackend.Proofs.Asm.Note
import SparcBackend.Proofs.Peephole.Rewrite

/-!
What a change does to lines and to their notes, whether the lines have a meaning or not.
A sum becomes a copy; or of two lines one goes and the other is kept with another operand,
and the name of a register is replaced in its note by what stands for the register from
now on; or a line goes, or a jump with the nops behind it (`Rewords`).
-/
namespace SparcBackend

namespace Peephole
open Machine (Target Kind OffsetSign)

/-- An operation in place of another of the same kind, with the same jumps. A load or a
    store that is written anew has none. -/
structure Replaces (new old : Instruction) : Prop where
  kind : new.kind = old.kind
  isOperation : new.isMarker = false ∧ old.isMarker = false
  jumps : new.jumps = old.jumps ∨ new.jumps = [] ∧ (old.kind = .load ∨ old.kind = .store)

theorem isMarker_of_kind {i : Instruction} (special : i.kind ≠ .other) : i.isMarker = false := by
  cases i with
  | operation | move => rfl
  | label | comment => exact absurd rfl special

theorem isMarker_of_uses {i : Instruction} (reads : i.uses ≠ []) : i.isMarker = false := by
  cases i with
  | operation | move => rfl
  | label | comment => exact absurd rfl reads

theorem isMarker_eq_of_template? {i j : Instruction} (same : i.template? = j.template?) : i.isMarker = j.isMarker := by
  rw [Instruction.isMarker,Instruction.isMarker,same]

/-- An instruction with another text for its template replaces none other. -/
theorem replaces_of_template? {new old : Instruction} (same : new.template? = old.template?) (jumps : new.jumps = old.jumps)
    (isOperation : old.isMarker = false) : Replaces new old where
  kind := Instruction.kind_eq_of_template? same
  isOperation := ⟨(isMarker_eq_of_template? same).trans isOperation,isOperation⟩
  jumps := .inl jumps

/-- A line that is kept beside one that goes: what stood for a register is put down as a value. -/
structure Rewording where
  gone : Instruction
  old : Instruction
  new : Instruction
  register : Register
  value : Note

/-- The new line replaces the old one and holds operands of the two lines, and in its note the name of
    the register is replaced. -/
structure Rewording.IsRenaming (w : Rewording) : Prop where
  replaces : Replaces w.new w.old
  reads : w.old.uses ≠ []
  operands : w.new.operands ⊆ w.old.operands ++ w.gone.operands
  note : w.new.note? = w.old.note?.map (Text.replaceAll w.register.name w.value.text)

/-- What a line puts into its register, as a note puts it. -/
def worth? (i : Instruction) : Option Note :=
  match i.kind, i.uses with
  | .add, [left,right] => some [.mention left,.word " + ",.mention right]
  | .sub, [left,right] => some [.mention left,.word " - ",.mention right]
  | .loadImmediate, [value] => some [.mention value]
  | .move, [value] => some [.mention value]
  | _, _ => none

/-- The code from the head of a change on, what comes of it, how many lines go and the line whose note
    is kept. -/
inductive Rewords (ends : EndsAfter) : List Instruction → List Instruction → Nat → Option Rewording → Prop
  /-- A sum becomes a copy with a note of its own. -/
  | anew {head : Instruction} {rest : List Instruction} {d : Register} {source : Operand} (sum : isArithmetic head = true)
      (defs : head.defs = [.register d]) (uses : source ∈ head.uses) : Rewords ends (head :: rest) (copy source d :: rest) 0 none
  /-- The line behind the one that goes reads what its register was to hold. -/
  | forward {front behind : List Instruction} {w : Rewording} (defs : w.gone.defs = [.register w.register])
      (worth : worth? w.gone = some w.value) (drops : ends (front.length+1) w.register = true) (renames : w.IsRenaming) :
      Rewords ends (front ++ w.gone :: w.old :: behind) (front ++ w.new :: behind) 1 (some w)
  /-- The line in front of the copy that goes writes the destination of the copy. -/
  | backward {behind : List Instruction} {w : Rewording} {destination : Operand}
      (defs : w.old.defs.head? = some (.register w.register)) (copies : w.gone.kind = .move)
      (reads : .register w.register ∈ w.gone.uses) (writes : w.gone.defs.head? = some destination)
      (value : w.value = [.mention destination]) (drops : ends 1 w.register = true) (renames : w.IsRenaming) :
      Rewords ends (w.old :: w.gone :: behind) (w.new :: behind) 1 (some w)
  /-- A copy goes. -/
  | vanished {gone : Instruction} {behind : List Instruction} (copies : gone.kind = .move) :
      Rewords ends (gone :: behind) behind 1 none
  /-- A jump goes with the nops behind it, and its label follows. -/
  | jump {head : Instruction} {nops behind : List Instruction} {target : Label} (jumps : head.kind = .jump)
      (first : head.jumps.head? = some target) (idle : ∀ i ∈ nops, i.kind = .nop) (all : ∀ i ∈ behind.head?, i.kind ≠ .nop)
      (follows : target ∈ leadingLabels behind) : Rewords ends (head :: nops ++ behind) behind (nops.length+1) none

section
variable {t : Target} {ends : EndsAfter} {head : Instruction} {rest : List Instruction} {c : Change}

theorem rewords_of_addZero (sum : isArithmetic head = true) (changed : addZero? head rest = some c) :
    Rewords ends (head :: rest) c.code c.deleted none := by
  obtain ⟨⟨d,left,right⟩,parts,changed⟩ := Option.bind_eq_some_iff.1 changed
  obtain ⟨source,beside,changed⟩ := Option.bind_eq_some_iff.1 changed
  obtain ⟨defs,uses⟩ := binaryParts?_eq_some parts
  cases changed
  refine .anew sum defs ?_
  rw [uses]
  unfold besideZero? at beside
  split at beside
  · cases beside
    exact List.mem_cons_of_mem _ (List.mem_singleton.2 rfl)
  · split at beside
    · cases beside
      exact List.mem_cons_self
    · cases beside

theorem rewords_of_subZero (sum : isArithmetic head = true) (changed : subZero? head rest = some c) :
    Rewords ends (head :: rest) c.code c.deleted none := by
  obtain ⟨⟨d,left,right⟩,parts,changed⟩ := Option.bind_eq_some_iff.1 changed
  obtain ⟨_,_,changed⟩ := Option.bind_eq_some_iff.1 changed
  obtain ⟨defs,uses⟩ := binaryParts?_eq_some parts
  cases changed
  exact .anew sum defs (uses ▸ List.mem_cons_self)

theorem foldedAccess?_eq_some {d : Register} {base offset : Operand} {sign : OffsetSign} {i j : Instruction}
    (folded : foldedAccess? d base offset sign i = some j) :
    (∃ x, i.kind = .load ∧ i.defs = [x] ∧ i.uses = [.register d] ∧ j = Machine.offsetLoad base offset sign x) ∨
      ∃ x, i.kind = .store ∧ i.defs = [.register d] ∧ i.uses = [x] ∧ j = Machine.offsetStore x base offset sign := by
  unfold foldedAccess? at folded
  split at folded
  · rename_i x a kind defs uses
    split at folded
    · rename_i same
      cases folded
      exact .inl ⟨x,kind,defs,of_decide_eq_true same ▸ uses,rfl⟩
    · cases folded
  · rename_i a x kind defs uses
    split at folded
    · rename_i same
      cases folded
      exact .inr ⟨x,kind,of_decide_eq_true same ▸ defs,uses,rfl⟩
    · cases folded
  · cases folded

/-- A load or a store that is written anew gets its note from the old one. -/
theorem renames_withFoldedNote {gone i j : Instruction} {value : Note} (d : Register) (kind : j.kind = i.kind)
    (access : i.kind = .load ∨ i.kind = .store) (bare : j.jumps = []) (silent : j.note? = none) (reads : i.uses ≠ [])
    (operands : j.operands ⊆ i.operands ++ gone.operands) :
    Rewording.IsRenaming ⟨gone,i,withFoldedNote d value.text i.note? j,d,value⟩ := by
  have special : i.kind ≠ .other := by rcases access with kind | kind <;> simp [kind]
  have isOperation : j.isMarker = false := isMarker_of_kind (kind ▸ special)
  have same := (kind_withFoldedNote d value.text i.note? j).trans kind
  refine ⟨⟨same,⟨isMarker_of_kind (same ▸ special),isMarker_of_kind special⟩,.inr ⟨?_,access⟩⟩,reads,?_,?_⟩
  · cases i.note? <;> simp [withFoldedNote,bare]
  · have slots : (withFoldedNote d value.text i.note? j).operands = j.operands := by
      cases i.note? <;> simp [withFoldedNote,Instruction.operands]
    exact slots ▸ operands
  · cases i.note? with
    | none => exact silent
    | some note => exact Instruction.note?_withNote isOperation _

theorem renames_foldedAccess {d : Register} {base offset : Operand} {sign : OffsetSign} {i j : Instruction} (value : Note)
    (uses : head.uses = [base,offset]) (folded : foldedAccess? d base offset sign i = some j) :
    Rewording.IsRenaming ⟨head,i,withFoldedNote d value.text i.note? j,d,value⟩ := by
  rcases foldedAccess?_eq_some folded with ⟨x,kind,defs,reads,rfl⟩ | ⟨x,kind,-,reads,rfl⟩
  · have operands : (Machine.offsetLoad base offset sign x).operands = [x,base,offset] := rfl
    refine renames_withFoldedNote d ((Machine.kind_offsetLoad _ _ _ _).trans kind.symm) (.inl kind) rfl rfl (by simp [reads]) ?_
    rw [operands,Instruction.operands,Instruction.operands,defs,uses]
    simp
  · have operands : (Machine.offsetStore x base offset sign).operands = [base,offset,x] := rfl
    refine renames_withFoldedNote d ((Machine.kind_offsetStore _ _ _ _).trans kind.symm) (.inr kind) rfl rfl (by simp [reads]) ?_
    rw [operands,Instruction.operands,Instruction.operands,reads,uses]
    simp

theorem rewords_of_foldAddress (sign : OffsetSign) (kind : head.kind = (Machine.Operation.arithmetic sign.operator).kind)
    (changed : foldAddress? ends sign head rest = some c) : ∃ k, Rewords ends (head :: rest) c.code c.deleted k := by
  obtain ⟨⟨d,base,offset⟩,parts,changed⟩ := Option.bind_eq_some_iff.1 changed
  obtain ⟨_,_,changed⟩ := Option.bind_eq_some_iff.1 changed
  obtain ⟨_,_,changed⟩ := Option.bind_eq_some_iff.1 changed
  obtain ⟨_,drops,changed⟩ := Option.bind_eq_some_iff.1 changed
  obtain ⟨defs,uses⟩ := binaryParts?_eq_some parts
  cases rest with
  | nil => cases changed
  | cons next behind =>
    obtain ⟨access,folded,changed⟩ := Option.bind_eq_some_iff.1 changed
    cases changed
    obtain ⟨value,worth,text⟩ : ∃ value, worth? head = some value ∧ s!"{base.text} {sign.symbol} {offset.text}" = value.text := by
      cases sign <;> refine ⟨_,by simp only [worth?,kind,uses]; rfl,?_⟩ <;>
        simp [toString,OffsetSign.symbol,String.append_assoc]
    rw [text]
    exact ⟨_,@Rewords.forward _ [] _ ⟨_,_,_,_,_⟩ defs worth (guard_eq_some drops) (renames_foldedAccess value uses folded)⟩

theorem rewords_of_dropJump (jumps : head.kind = .jump) (changed : dropJump? head rest = some c) :
    Rewords ends (head :: rest) c.code c.deleted none := by
  obtain ⟨target,first,changed⟩ := Option.bind_eq_some_iff.1 changed
  obtain ⟨_,follows,changed⟩ := Option.bind_eq_some_iff.1 changed
  cases changed
  have idle : ∀ i ∈ rest.takeWhile isNop, i.kind = .nop := by
    intro i member
    simpa [isNop] using List.all_eq_true.1 List.all_takeWhile i member
  have all : ∀ i ∈ (rest.dropWhile isNop).head?, i.kind ≠ .nop := by
    intro i member
    have stops := List.head?_dropWhile_not isNop rest
    rw [Option.mem_def.1 member] at stops
    simpa [isNop] using stops
  have labelled := List.contains_iff_mem.1 (guard_eq_some follows)
  have whole : head :: rest = head :: rest.takeWhile isNop ++ rest.dropWhile isNop := by simp
  rw [whole]
  exact .jump jumps first idle all labelled

/-- A line with other read slots, of which only one operand is new. -/
theorem renames_withUses {gone i : Instruction} (r : Register) {value : Operand} {uses : List Operand} (reads : i.uses ≠ [])
    (slots : uses ⊆ i.uses ++ [value]) (read : value ∈ gone.uses) :
    Rewording.IsRenaming ⟨gone,i,(i.withUses uses).renameInNote r.name value.text,r,[.mention value]⟩ where
  replaces := replaces_of_template? (by simp) (by simp) (isMarker_of_uses reads)
  reads := reads
  operands := by
    rw [Instruction.operands,Instruction.defs_renameInNote,Instruction.defs_withUses,Instruction.uses_renameInNote]
    intro operand member
    rcases List.mem_append.1 member with written | member
    · exact List.mem_append_left _ (List.mem_append_left _ written)
    · have known : operand ∈ i.uses ++ [value] := by
        rcases List.mem_append.1 (Instruction.uses_withUses_subset i uses member) with old | new
        · exact List.mem_append_left _ old
        · exact slots new
      rcases List.mem_append.1 known with old | new
      · exact List.mem_append_left _ (List.mem_append_right _ old)
      · exact List.mem_append_right _ (List.mem_append_right _ (List.mem_singleton.1 new ▸ read))
  note := by rw [Instruction.note?_renameInNote,Instruction.note?_withUses,Note.text_mention,Note.text_nil,String.append_empty]

/-- A line that writes another operand first. -/
theorem renames_withDefs {gone i : Instruction} {r : Register} {destination : Operand} {others : List Operand}
    (reads : i.uses ≠ []) (defs : i.defs = .register r :: others) (written : gone.defs.head? = some destination) :
    Rewording.IsRenaming
      ⟨gone,i,(i.withDefs (destination :: others)).renameInNote r.name destination.text,r,[.mention destination]⟩ where
  replaces := replaces_of_template? (by simp) (by simp) (isMarker_of_uses reads)
  reads := reads
  operands := by
    rw [Instruction.operands,Instruction.defs_renameInNote,Instruction.uses_renameInNote,Instruction.uses_withDefs]
    intro operand member
    rcases List.mem_append.1 member with member | read
    · rcases List.mem_append.1 (Instruction.defs_withDefs_subset i _ member) with old | new
      · exact List.mem_append_left _ (List.mem_append_left _ old)
      · rcases List.mem_cons.1 new with rfl | other
        · exact List.mem_append_right _ (List.mem_append_left _ (List.mem_of_mem_head? written))
        · exact List.mem_append_left _ (List.mem_append_left _ (defs ▸ List.mem_cons_of_mem _ other))
    · exact List.mem_append_left _ (List.mem_append_right _ read)
  note := by rw [Instruction.note?_renameInNote,Instruction.note?_withDefs,Note.text_mention,Note.text_nil,String.append_empty]

theorem rewords_of_forwardResult (changed : forwardResult? t ends head rest = some c) :
    ∃ k, Rewords ends (head :: rest) c.code c.deleted k := by
  unfold forwardResult? at changed
  split at changed
  · rename_i copied consumer behind onward
    obtain ⟨_,move,changed⟩ := Option.bind_eq_some_iff.1 changed
    obtain ⟨result,_,changed⟩ := Option.bind_eq_some_iff.1 changed
    split at changed
    · rename_i d source parts
      obtain ⟨_,is,changed⟩ := Option.bind_eq_some_iff.1 changed
      obtain ⟨_,drops,changed⟩ := Option.bind_eq_some_iff.1 changed
      obtain ⟨_,reads,changed⟩ := Option.bind_eq_some_iff.1 changed
      cases changed
      obtain ⟨defs,uses⟩ := Prod.mk.injEq _ _ _ _ ▸ parts
      obtain rfl : source = .register result := of_decide_eq_true (guard_eq_some is)
      have whole : head :: rest = (head :: rest.takeWhile isNop) ++ copied :: consumer :: behind := by
        rw [← onward,List.cons_append,List.takeWhile_append_dropWhile]
      have worth : worth? copied = some [.mention (.register result)] := by
        simp only [worth?,guard_eq_some move,uses]
      have read := guard_eq_some reads
      have slots : (consumer.uses.map fun operand => if operand.isRegister d then .register result else operand) ⊆
          consumer.uses ++ [.register result] := by
        intro operand member
        obtain ⟨old,there,rfl⟩ := List.mem_map.1 member
        split
        · exact List.mem_append_right _ (List.mem_singleton.2 rfl)
        · exact List.mem_append_left _ there
      rw [whole,Instruction.replaceUse,if_pos read]
      exact ⟨_,@Rewords.forward _ (head :: rest.takeWhile isNop) _ ⟨_,_,_,_,_⟩ defs worth (guard_eq_some drops)
        (renames_withUses d (List.ne_nil_of_mem (Instruction.reads_iff.1 read)) slots (uses ▸ List.mem_singleton.2 rfl))⟩
    · cases changed
  · cases changed

/-- A number in the last place, which is free for it. -/
theorem subset_placeImmediate {kind : Kind} {d : Register} {value : Int} {uses placed : List Operand}
    (is : placeImmediate? kind d value uses = some placed) : placed ⊆ uses ++ [.immediate value] := by
  unfold placeImmediate? at is
  split at is
  · split at is
    · cases is
    · cases is
      exact List.append_subset.2 ⟨fun operand member => List.mem_append_left _ (List.dropLast_subset _ member),
        List.subset_append_right _ _⟩
  · split at is
    · split at is
      · cases is
        simp
      · cases is
    · cases is

theorem rewords_of_foldImmediate (loads : head.kind = .loadImmediate) (changed : foldImmediate? t ends head rest = some c) :
    ∃ k, Rewords ends (head :: rest) c.code c.deleted k := by
  unfold foldImmediate? at changed
  split at changed
  · rename_i d n parts
    obtain ⟨_,fits,changed⟩ := Option.bind_eq_some_iff.1 changed
    cases rest with
    | nil => cases changed
    | cons next behind =>
      obtain ⟨_,suits,changed⟩ := Option.bind_eq_some_iff.1 changed
      obtain ⟨uses,placed,changed⟩ := Option.bind_eq_some_iff.1 changed
      cases changed
      obtain ⟨defs,number⟩ := Prod.mk.injEq _ _ _ _ ▸ parts
      have drops := (Bool.and_eq_true _ _ ▸ guard_eq_some fits).2
      have once : next.useCount d = 1 := of_decide_eq_true (Bool.and_eq_true _ _ ▸ guard_eq_some suits).2
      have worth : worth? head = some [.mention (.immediate n)] := by simp only [worth?,loads,number]
      have reads : next.uses ≠ [] := by
        intro none
        rw [Instruction.useCount,Instruction.useRegisters,none] at once
        cases once
      have renames := @renames_withUses head next d (.immediate n) uses reads (subset_placeImmediate placed)
        (number ▸ List.mem_singleton.2 rfl)
      exact ⟨_,@Rewords.forward _ [] _ ⟨_,_,_,_,_⟩ defs worth drops renames⟩
  · cases changed

theorem rewords_of_dropSelfMove (move : head.kind = .move) (changed : dropSelfMove? head rest = some c) :
    Rewords ends (head :: rest) c.code c.deleted none := by
  unfold dropSelfMove? at changed
  split at changed
  · obtain ⟨_,_,changed⟩ := Option.bind_eq_some_iff.1 changed
    cases changed
    exact .vanished move
  · cases changed

theorem rewords_of_mergeMove (changed : mergeMove? ends head rest = some c) : ∃ k, Rewords ends (head :: rest) c.code c.deleted k := by
  obtain ⟨_,suits,changed⟩ := Option.bind_eq_some_iff.1 changed
  have reads : head.uses ≠ [] := by
    intro none
    have some := (Bool.and_eq_true _ _ ▸ guard_eq_some suits).2
    rw [none] at some
    cases some
  split at changed
  · rename_i d others defs
    obtain ⟨_,drops,changed⟩ := Option.bind_eq_some_iff.1 changed
    cases rest with
    | nil => cases changed
    | cons next behind =>
      obtain ⟨_,copies,changed⟩ := Option.bind_eq_some_iff.1 changed
      obtain ⟨destination,writes,changed⟩ := Option.bind_eq_some_iff.1 changed
      cases changed
      obtain ⟨move,read⟩ := Bool.and_eq_true _ _ ▸ guard_eq_some copies
      exact ⟨_,@Rewords.backward _ _ ⟨_,_,_,_,_⟩ destination (by rw [defs]; rfl) (of_decide_eq_true move)
        (Instruction.reads_iff.1 read) writes rfl (guard_eq_some drops) (renames_withDefs reads defs writes)⟩
  · cases changed

theorem rewords_of_kindRule (changed : kindRule? t ends head rest = some c) : ∃ k, Rewords ends (head :: rest) c.code c.deleted k := by
  unfold kindRule? at changed
  split at changed
  · rename_i kind
    rcases Option.or_eq_some_iff.1 changed with zero | ⟨-,fold⟩
    · exact ⟨none,rewords_of_addZero (by simp [isArithmetic,kind]) zero⟩
    · exact rewords_of_foldAddress .plus kind fold
  · rename_i kind
    rcases Option.or_eq_some_iff.1 changed with zero | ⟨-,fold⟩
    · exact ⟨none,rewords_of_subZero (by simp [isArithmetic,kind]) zero⟩
    · exact rewords_of_foldAddress .minus kind fold
  · rename_i kind
    exact ⟨none,rewords_of_dropJump kind changed⟩
  · exact rewords_of_forwardResult changed
  · rename_i kind
    exact rewords_of_foldImmediate kind changed
  · rename_i kind
    exact ⟨none,rewords_of_dropSelfMove kind changed⟩
  · cases changed

/-- Whatever the lines are, this is all that a change does to their notes. -/
theorem rewords_of_change (changed : change? t ends head rest = some c) : ∃ k, Rewords ends (head :: rest) c.code c.deleted k := by
  unfold change? at changed
  split at changed
  · cases changed
  · rcases Option.or_eq_some_iff.1 changed with special | ⟨-,general⟩
    · exact rewords_of_kindRule special
    · exact rewords_of_mergeMove general

variable {before after : List Instruction} {deleted : Nat} {k : Option Rewording}

/-- A line behind a change was there before, or is the one that is kept with another operand, or the copy
    that a sum has become. -/
theorem Rewords.of_mem {i : Instruction} (rewords : Rewords ends before after deleted k) (member : i ∈ after) :
    i ∈ before ∨ (∃ w, k = some w ∧ i = w.new) ∨
      ∃ head ∈ before, ∃ d source, head.defs = [.register d] ∧ source ∈ head.uses ∧ i = copy source d := by
  cases rewords with
  | @anew head rest d source sum defs uses =>
    rcases List.mem_cons.1 member with rfl | other
    · exact .inr (.inr ⟨head,List.mem_cons_self,d,source,defs,uses,rfl⟩)
    · exact .inl (List.mem_cons_of_mem _ other)
  | @forward front behind w defs worth drops renames =>
    rcases List.mem_append.1 member with early | late
    · exact .inl (List.mem_append_left _ early)
    · rcases List.mem_cons.1 late with rfl | other
      · exact .inr (.inl ⟨w,rfl,rfl⟩)
      · exact .inl (List.mem_append_right _ (List.mem_cons_of_mem _ (List.mem_cons_of_mem _ other)))
  | @backward behind w destination defs copies reads writes value drops renames =>
    rcases List.mem_cons.1 member with rfl | other
    · exact .inr (.inl ⟨w,rfl,rfl⟩)
    · exact .inl (List.mem_cons_of_mem _ (List.mem_cons_of_mem _ other))
  | vanished copies => exact .inl (List.mem_cons_of_mem _ member)
  | jump jumps first idle all follows => exact .inl (List.mem_append_right _ member)

end

end Peephole

end SparcBackend
