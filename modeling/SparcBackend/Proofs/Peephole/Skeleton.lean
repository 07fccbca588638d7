import SparcBackend.Proofs.Peephole.Passes

/-!
Of everything that changes leave where it is: labels and comments, and the calls,
branches, comparisons, loads, stores and whatever has no meaning here, in their order and
with the labels that they go to. A jump goes only if its label follows, and a nop only
with the jump in front of it.
-/
namespace SparcBackend.Peephole
open Machine (Target Kind)

/-- What stays of a line whatever happens to its operands. -/
inductive Mark where
  | label (name : Label)
  | comment (text : String)
  | operation (kind : Kind) (jumps : List Label)
deriving DecidableEq, Repr

/-- What stays of an operation if it is of one of the kinds that are asked for, and what stays of any
    label and any comment. -/
def mark? (kinds : List Kind) : Instruction → Option Mark
  | .label name => some (.label name)
  | .comment text => some (.comment text)
  | i => if i.kind ∈ kinds then some (.operation i.kind i.jumps) else none

/-- The kinds of lines that no rule takes away. -/
def lasting : List Kind := [.call,.branch,.compare,.load,.store,.other]

/-- Labels, comments and the lines that no rule takes away. -/
def skeleton (code : List Instruction) : List Mark := code.filterMap (mark? lasting)

/-- Labels, comments, jumps and nops. -/
def jumpsAndNops (code : List Instruction) : List Mark := code.filterMap (mark? [.jump,.nop])

/-- Only jumps, branches and calls say where to go. -/
def OnlyTransfersJump (code : List Instruction) : Prop :=
  ∀ i ∈ code, i.jumps ≠ [] → i.kind = .jump ∨ i.kind = .branch ∨ i.kind = .call

/-- A jump has gone with all nops behind it, and its label follows. -/
def DropsJump (before after : List Instruction) : Prop :=
  ∃ front head nops behind target, before = front ++ (head :: nops ++ behind) ∧ after = front ++ behind ∧
    head.kind = .jump ∧ (∀ i ∈ nops, i.kind = .nop) ∧ (∀ i ∈ behind.head?, i.kind ≠ .nop) ∧
    head.jumps.head? = some target ∧ target ∈ leadingLabels behind

theorem mark?_of_operation {kinds : List Kind} {i : Instruction} (isOperation : i.isMarker = false) :
    mark? kinds i = if i.kind ∈ kinds then some (.operation i.kind i.jumps) else none := by
  cases i with
  | operation | move => rfl
  | label | comment => cases isOperation

theorem mark?_of_not_mem {kinds : List Kind} {i : Instruction} (isOperation : i.isMarker = false) (absent : i.kind ∉ kinds) :
    mark? kinds i = none := by
  rw [mark?_of_operation isOperation,if_neg absent]

/-- An operation in place of another leaves the same mark, unless it is a load or a store
    that has lost where to go. -/
theorem mark?_of_replaces {kinds : List Kind} {new old : Instruction} (replaces : Replaces new old)
    (bare : old.kind ∈ kinds → old.kind = .load ∨ old.kind = .store → old.jumps = []) : mark? kinds new = mark? kinds old := by
  rw [mark?_of_operation replaces.isOperation.1,mark?_of_operation replaces.isOperation.2,replaces.kind]
  by_cases member : old.kind ∈ kinds
  · rcases replaces.jumps with same | ⟨none,access⟩
    · rw [same]
    · rw [none,bare member access]
  · rw [if_neg member,if_neg member]

section
variable {before after : List Instruction} {deleted : Nat}

/-- A change keeps the marks of some kinds if none of them is taken away, or drops a jump. -/
theorem Trims.marks (trims : Trims before after deleted) (kinds : List Kind) (stay : ∀ kind ∈ kinds, isExpendable kind = false)
    (bare : ∀ i ∈ before, i.kind ∈ kinds → i.kind = .load ∨ i.kind = .store → i.jumps = []) :
    after.filterMap (mark? kinds) = before.filterMap (mark? kinds) ∨ DropsJump before after := by
  have goes : ∀ {i : Instruction}, isExpendable i.kind = true → mark? kinds i = none := by
    intro i expendable
    apply mark?_of_not_mem (isMarker_of_expendable expendable)
    intro member
    rw [stay _ member] at expendable
    cases expendable
  cases trims with
  | @copied head new rest sum copies _ =>
    have move : isExpendable new.kind = true := by rw [copies]; rfl
    left
    rw [List.filterMap_cons_none (goes move),List.filterMap_cons_none (goes (isExpendable_of_isArithmetic sum))]
  | @forward front behind gone old new expendable replaces =>
    have same := mark?_of_replaces replaces (bare old (by simp))
    left
    simp only [List.filterMap_append,List.filterMap_cons,goes expendable,same]
  | @backward behind gone old new expendable replaces =>
    have same := mark?_of_replaces replaces (bare old (by simp))
    left
    simp only [List.filterMap_cons,goes expendable,same]
  | vanished expendable => exact .inl (List.filterMap_cons_none (goes expendable)).symm
  | jump jumps first idle all follows => exact .inr ⟨[],_,_,_,_,rfl,rfl,jumps,idle,all,first,follows⟩

theorem skeleton_of_dropsJump (drops : DropsJump before after) : skeleton after = skeleton before := by
  obtain ⟨front,head,nops,behind,target,rfl,rfl,jumps,idle,-,-,-⟩ := drops
  have gone : mark? lasting head = none := mark?_of_not_mem (isMarker_of_kind (by rw [jumps]; nofun)) (by rw [jumps]; decide)
  have none : nops.filterMap (mark? lasting) = [] := by
    rw [List.filterMap_eq_nil_iff]
    intro i member
    exact mark?_of_not_mem (isMarker_of_kind (by rw [idle i member]; nofun)) (by rw [idle i member]; decide)
  simp only [skeleton,List.filterMap_append,List.filterMap_cons,List.cons_append,gone,none,List.nil_append]

theorem Trims.skeleton_eq (trims : Trims before after deleted) (only : OnlyTransfersJump before) :
    skeleton after = skeleton before := by
  have bare : ∀ i ∈ before, i.kind ∈ lasting → i.kind = .load ∨ i.kind = .store → i.jumps = [] := by
    intro i member _ access
    by_contra jumps
    have transfers := only i member jumps
    rcases access with kind | kind <;> rw [kind] at transfers <;> simp at transfers
  rcases trims.marks lasting (by decide) bare with same | drops
  · exact same
  · exact skeleton_of_dropsJump drops

/-- What goes to a label behind a change went there before. -/
theorem Trims.onlyTransfersJump (trims : Trims before after deleted) (only : OnlyTransfersJump before) :
    OnlyTransfersJump after := by
  have replaced : ∀ {new old : Instruction}, old ∈ before → Replaces new old → new.jumps ≠ [] →
      new.kind = .jump ∨ new.kind = .branch ∨ new.kind = .call := by
    intro new old member replaces jumps
    rcases replaces.jumps with same | ⟨none,-⟩
    · rw [replaces.kind]
      exact only old member (same ▸ jumps)
    · exact absurd none jumps
  intro i member jumps
  cases trims with
  | copied _ _ bare =>
    rcases List.mem_cons.1 member with rfl | behind
    · exact absurd bare jumps
    · exact only i (List.mem_cons_of_mem _ behind) jumps
  | forward _ replaces =>
    rcases List.mem_append.1 member with front | new
    · exact only i (List.mem_append_left _ front) jumps
    · rcases List.mem_cons.1 new with rfl | behind
      · exact replaced (by simp) replaces jumps
      · exact only i (by simp [behind]) jumps
  | backward _ replaces =>
    rcases List.mem_cons.1 member with rfl | behind
    · exact replaced List.mem_cons_self replaces jumps
    · exact only i (by simp [behind]) jumps
  | vanished => exact only i (List.mem_cons_of_mem _ member) jumps
  | jump => exact only i (List.mem_append_right _ member) jumps

end

/-- The optimizer keeps the skeleton of the code. -/
theorem skeleton_optimize (t : Target) (supply : RegisterSupply) {code : List Instruction} (only : OnlyTransfersJump code) :
    skeleton (optimize t supply code).code = skeleton code := by
  suffices kept : skeleton (optimize t supply code).code = skeleton code ∧ OnlyTransfersJump (optimize t supply code).code from
    kept.1
  apply optimize_induction (P := fun later => skeleton later = skeleton code ∧ OnlyTransfersJump later) (fun _ => True)
  · rintro s made - ⟨same,only⟩
    have trims := trims_of_changeAt made
    have window : OnlyTransfersJump (s.code.drop s.line) := fun i member => only i (List.mem_of_mem_drop member)
    rw [Site.after,applyAt]
    constructor
    · rw [← same]
      conv_rhs => rw [← List.take_append_drop s.line s.code]
      simp only [skeleton,List.filterMap_append]
      exact congrArg _ (trims.skeleton_eq window)
    · intro i member jumps
      rcases List.mem_append.1 member with front | behind
      · exact only i (List.mem_of_mem_take front) jumps
      · exact trims.onlyTransfersJump window i behind jumps
  · exact fun _ _ => trivial
  · exact ⟨rfl,only⟩

namespace InPlace

/-- In any state, a turn of a pass keeps all jumps and nops, or drops a jump with its nops. -/
theorem jumpsAndNops_of_turn? {t : Target} {p q : Pass} (turn : p.turn? t = some q) :
    jumpsAndNops q.fragment.code = jumpsAndNops p.fragment.code ∨ DropsJump p.fragment.code q.fragment.code := by
  have going : p.line < p.fragment.code.length := by
    by_contra outside
    unfold Pass.turn? at turn
    rw [fetch,List.getElem?_eq_none (Nat.le_of_not_lt outside)] at turn
    cases turn
  obtain ⟨q',turn',changes⟩ := turn?_trims t going
  cases turn.symm.trans turn'
  rcases changes with same | ⟨window,deleted,code,trims⟩
  · exact .inl (by rw [same])
  · have whole := List.take_append_drop p.line p.fragment.code
    have bare : ∀ i ∈ p.fragment.code.drop p.line, i.kind ∈ [Kind.jump,.nop] → i.kind = .load ∨ i.kind = .store →
        i.jumps = [] := by
      intro i _ member access
      rcases access with kind | kind <;> rw [kind] at member <;> simp at member
    rcases trims.marks [.jump,.nop] (by decide) bare with kept | drops
    · left
      rw [jumpsAndNops,jumpsAndNops,code,List.filterMap_append,kept,← List.filterMap_append,whole]
    · obtain ⟨front,head,nops,behind,target,before,after,drops⟩ := drops
      refine .inr ⟨p.fragment.code.take p.line ++ front,head,nops,behind,target,?_,?_,drops⟩
      · rw [List.append_assoc,← before,whole]
      · rw [code,after,List.append_assoc]

/-- Control goes on as it went: the optimizer keeps the skeleton of a fragment and everything
    but its code and its lifetimes, and each of its turns keeps all jumps and nops or drops
    a jump to a label that follows. -/
theorem optimize_keeps_skeleton (f : CodeFragment) (only : OnlyTransfersJump f.code) :
    (∃ o, Optimizes f o ∧ skeleton o.fragment.code = skeleton f.code ∧
      o.fragment = { f with code := o.fragment.code,lifetimes := o.fragment.lifetimes }) ∧
    ∀ p q : Pass, p.turn? .sparc = some q →
      jumpsAndNops q.fragment.code = jumpsAndNops p.fragment.code ∨ DropsJump p.fragment.code q.fragment.code :=
  ⟨⟨optimized .sparc f,optimizes f,skeleton_optimize .sparc f.supply only,rfl⟩,fun _ _ => jumpsAndNops_of_turn?⟩

/-- A call, and a jump to what stands behind its nop. -/
def callAndJump : CodeFragment where
  className := "Main"
  methodName := "run"
  code := [Machine.call ⟨"work"⟩,Machine.nop,Machine.jump ⟨"next"⟩,Machine.nop,.label ⟨"next"⟩]

theorem optimize_keeps_skeleton_callAndJump : OnlyTransfersJump callAndJump.code ∧
    ∃ o, optimize .sparc 6 callAndJump = .done o ∧ skeleton o.fragment.code = [.operation .call [⟨"work"⟩],.label ⟨"next"⟩] := by
  have only : OnlyTransfersJump callAndJump.code := by
    intro i member _
    simp only [callAndJump,List.mem_cons,List.not_mem_nil,or_false] at member
    rcases member with rfl | rfl | rfl | rfl | rfl
    · exact .inr (.inr rfl)
    · contradiction
    · exact .inl rfl
    · contradiction
    · contradiction
  obtain ⟨⟨o,optimizes,kept,-⟩,-⟩ := optimize_keeps_skeleton callAndJump only
  exact ⟨only,o,optimizes.ends 0,kept⟩

end InPlace

end SparcBackend.Peephole
