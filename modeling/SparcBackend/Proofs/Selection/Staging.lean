import SparcBackend.Proofs.Selection.Siblings

/-!
The arguments of a call are moved to the outgoing registers one after another, the first
one first. A tree may name an outgoing register as an argument, and if an earlier argument
has been moved there, that one is moved on. All others wait in minted registers, or where
no argument has been moved, and arrive.
-/
namespace SparcBackend
open Machine (Action State block groupRegister)

namespace Selection

/-! ### Moves, one after another -/

/-- Behind the moves each outgoing register holds what the register of its argument held in
    front of them, as if they had been made all at once. -/
def Parallel (rs : List Register) (moves : List Instruction) : Prop :=
  ∀ (Memory : Type) (w : World Memory) (m : State Memory), ∃ last, block w moves m = some last ∧
    ∀ k r, rs[k]? = some r → last.registers (groupRegister 'o' k) = m.registers r

/-- What moves leave behind: an outgoing register holds its argument, or what was moved to
    the register of its argument before, and no other register has changed. -/
structure Staged (rs : List Register) {Memory : Type} (m last : State Memory) : Prop where
  others : ∀ r, (∀ k < rs.length, groupRegister 'o' k ≠ r) → last.registers r = m.registers r
  kept : ∀ k r, rs[k]? = some r → (∀ j < k, groupRegister 'o' j ≠ r) → last.registers (groupRegister 'o' k) = m.registers r
  handed_on : ∀ k j, rs[k]? = some (groupRegister 'o' j) → j < k →
    last.registers (groupRegister 'o' k) = last.registers (groupRegister 'o' j)

theorem groupRegister_inj {j k : Nat} (small : j < Machine.groupSize) (small' : k < Machine.groupSize) :
    groupRegister 'o' j = groupRegister 'o' k ↔ j = k := by
  constructor
  · intro same
    exact congrArg Fin.val (outgoing_injective (show outgoing ⟨j,small⟩ = outgoing ⟨k,small'⟩ from same))
  · rintro rfl
    rfl

theorem getElem?_concat_eq_some {rs : List Register} {r x : Register} {k : Nat} :
    (rs ++ [r])[k]? = some x ↔ k < rs.length ∧ rs[k]? = some x ∨ k = rs.length ∧ x = r := by
  rw [List.getElem?_append]
  by_cases inside : k < rs.length
  · rw [if_pos inside]
    simp [inside,Nat.ne_of_lt inside]
  · rw [if_neg inside,List.getElem?_singleton]
    by_cases last : k = rs.length
    · simp [last,eq_comm]
    · rw [if_neg (by omega)]
      simp [inside,last]

/-- One more argument is moved. -/
theorem Staged.snoc {Memory : Type} {w : World Memory} {m last : State Memory} {rs : List Register} (staged : Staged rs m last)
    (few : rs.length < Machine.groupSize) (r : Register) :
    Staged (rs ++ [r]) m ((Action.assign (groupRegister 'o' rs.length) (.operand (.register r))).effect w last) := by
  have here : ((Action.assign (groupRegister 'o' rs.length) (.operand (.register r))).effect w last).registers
      (groupRegister 'o' rs.length) = last.registers r := Function.update_self _ _ _
  have there {x : Register} (other : groupRegister 'o' rs.length ≠ x) :
      ((Action.assign (groupRegister 'o' rs.length) (.operand (.register r))).effect w last).registers x = last.registers x :=
    Function.update_of_ne (Ne.symm other) _ _
  have apart {k : Nat} (inside : k < rs.length) : groupRegister 'o' rs.length ≠ groupRegister 'o' k := by
    intro same
    have := (groupRegister_inj few (by omega)).1 same
    omega
  refine ⟨?_,?_,?_⟩
  · intro x outside
    rw [List.length_append,List.length_singleton] at outside
    rw [there (outside _ (Nat.lt_succ_self _)),staged.others x fun k inside => outside k (Nat.lt_succ_of_lt inside)]
  · intro k x is unmoved
    rcases getElem?_concat_eq_some.1 is with ⟨inside,is⟩ | ⟨rfl,rfl⟩
    · rw [there (apart inside),staged.kept k x is unmoved]
    · rw [here,staged.others x unmoved]
  · intro k j is before
    rcases getElem?_concat_eq_some.1 is with ⟨inside,is⟩ | ⟨rfl,rfl⟩
    · rw [there (apart inside),there (apart (Nat.lt_trans before inside)),staged.handed_on k j is before]
    · rw [here,there (apart before)]

section
variable {rs : List Register} {moves : List Instruction} (few : rs.length ≤ Machine.groupSize)
  (moved : moves.map Instruction.action? = rs.mapIdx fun k r => some (.assign (groupRegister 'o' k) (.operand (.register r))))
include few moved

theorem block_moves {Memory : Type} (w : World Memory) (m : State Memory) :
    ∃ last, block w moves m = some last ∧ Staged rs m last := by
  induction rs using List.reverseRecOn generalizing moves with
  | nil =>
    obtain rfl := List.map_eq_nil_iff.1 moved
    exact ⟨m,rfl,fun _ _ => rfl,by simp,by simp⟩
  | append_singleton rs r ih =>
    rw [List.mapIdx_concat] at moved
    obtain ⟨front,added,rfl,moved_front,single⟩ := List.map_eq_append_iff.1 moved
    obtain ⟨i,rfl,means⟩ := List.map_eq_singleton_iff.1 single
    rw [List.length_append,List.length_singleton] at few
    obtain ⟨last,ran,staged⟩ := ih (by omega) moved_front
    refine ⟨_,?_,staged.snoc (w := w) few r⟩
    rw [Machine.block_append,ran,Option.bind_some,Machine.block_single w means rfl]

/-- All arguments arrive just if no register is moved on that something else has been moved
    to. -/
theorem parallel_iff : Parallel rs moves ↔
    ∀ k j, rs[k]? = some (groupRegister 'o' j) → j < k → rs[j]? = some (groupRegister 'o' j) := by
  constructor
  · intro parallel k j is before
    have inside : k < rs.length := (List.getElem?_eq_some_iff.1 is).1
    obtain ⟨r,first⟩ : ∃ r, rs[j]? = some r := ⟨_,List.getElem?_eq_getElem (by omega)⟩
    rw [first]
    by_contra other
    have apart : r ≠ groupRegister 'o' j := fun same => other (congrArg some same)
    -- The register holds what no other does.
    obtain ⟨m,marked,unmarked⟩ : ∃ m : State (Word → Word), m.registers (groupRegister 'o' j) = 1 ∧ m.registers r = 0 :=
      ⟨⟨⟨Function.update (fun _ => 0) (groupRegister 'o' j) 1,fun _ => 0,[]⟩,0,0⟩,by simp,by simp [apart]⟩
    obtain ⟨last,ran,staged⟩ := block_moves few moved World.idle m
    obtain ⟨last',ran',arrive⟩ := parallel _ World.idle m
    obtain rfl := Option.some.inj (ran.symm.trans ran')
    have same := staged.handed_on k j is before
    rw [arrive k _ is,arrive j r first,marked,unmarked] at same
    cases same
  · intro apart Memory w m
    obtain ⟨last,ran,staged⟩ := block_moves few moved w m
    refine ⟨last,ran,fun k r is => ?_⟩
    by_cases before : ∃ j < k, groupRegister 'o' j = r
    · obtain ⟨j,before,rfl⟩ := before
      have inside : k < rs.length := (List.getElem?_eq_some_iff.1 is).1
      have stays := staged.kept j _ (apart k j is before) fun i earlier same => by
        have := (groupRegister_inj (by omega) (by omega)).1 same
        omega
      rw [staged.handed_on k j is before,stays]
    · exact staged.kept k r is fun j earlier same => before ⟨j,earlier,same⟩

end

/-! ### Calls -/

/-- The value of an expression waits in an outgoing register only if the expression names
    it. -/
theorem Waits.outgoing_iff {e : Expression} {supply left : RegisterSupply} {r : Register} (waits : Waits e supply r left)
    (k : Fin Machine.groupSize) : e.bare? = some (outgoing k) ↔ r = outgoing k := by
  constructor
  · intro named
    rcases waits.2 with is | ⟨computed,-⟩
    · exact Option.some.inj (is.symm.trans named)
    · cases computed.symm.trans named
  · rintro rfl
    exact waits.2.resolve_right fun unknown => unknown.2 (.inr (isPhysical_outgoing k))

/-- The argument with number `k` is an outgoing register to which the argument with number
    `j` has been moved before. -/
def HandsOn (arguments : List Expression) (k j : Nat) : Prop :=
  j < k ∧ arguments[k]?.bind Expression.bare? = some (groupRegister 'o' j)

namespace Gathering
variable (q : Gathering)

/-- A call stands right behind the moves of its arguments, one for each, in their order. -/
structure Staging (arguments : List Expression) (moves : List Instruction) (call : Instruction) (target : Label) : Prop where
  reading_eq : q.reading = moves ++ [call]
  calls : call.action? = some (.call target)
  length_eq : moves.length = arguments.length
  copies : ∀ (k : Nat) (i : Instruction) piece, moves[k]? = some i → q.pieces[k]? = some piece → i.kind = .move ∧
    i.action? = some (.assign (groupRegister 'o' k) (.operand (.register piece.register)))
  /-- The moves put an argument in its place unless they hand on an earlier one in its stead. -/
  delivers : ∀ (Memory : Type) (w : World Memory) (m : State Memory), ∃ last, block w moves m = some last ∧
    ∀ k piece, q.pieces[k]? = some piece →
      ((∀ j, ¬ HandsOn arguments k j) → last.registers (groupRegister 'o' k) = m.registers piece.register) ∧
      ∀ j, HandsOn arguments k j → last.registers (groupRegister 'o' k) = last.registers (groupRegister 'o' j)
  /-- All arguments arrive, whatever the registers held, just if those that are handed on were
      in their places from the start. -/
  parallel_iff : Parallel (q.pieces.map Piece.register) moves ↔
    ∀ k j, HandsOn arguments k j → arguments[j]?.bind Expression.bare? = some (groupRegister 'o' j)

/-- If the node is a call, its arguments are staged. -/
def Stages (n : Node) : Prop := ∀ function arguments, n = .expression (.call function arguments) →
  ∃ target moves call, function = .name target ∧ q.Staging arguments moves call target

variable {q} {base : RegisterSupply} {n : Node} {code : List Instruction}

/-- An argument waits in an outgoing register just if it names it. -/
theorem Serves.bare_iff (serves : q.Serves n code) (knows : q.Knows base n) {k j : Nat}
    (small : k < n.operands.length → j < Machine.groupSize) :
    n.operands[k]?.bind Expression.bare? = some (groupRegister 'o' j) ↔
      (q.pieces.map Piece.register)[k]? = some (groupRegister 'o' j) := by
  have lengths := serves.evaluates.length_eq
  by_cases inside : k < n.operands.length
  · have here := List.getElem?_eq_getElem inside
    have there := List.getElem?_eq_getElem (l := q.pieces) (i := k) (by omega)
    obtain ⟨s,mid,-,-,waits,-⟩ := serves.evaluates.drop knows.2 knows.1 here there
    rw [here,List.getElem?_map,there,Option.bind_some,Option.map_some,Option.some.injEq]
    exact waits.outgoing_iff ⟨j,small inside⟩
  · have outside : n.operands[k]? = none := List.getElem?_eq_none (by omega)
    have outside' : (q.pieces.map Piece.register)[k]? = none := List.getElem?_eq_none (by rw [List.length_map]; omega)
    simp [outside,outside']

theorem Serves.stages (serves : q.Serves n code) (fits : q.Fits base n) : q.Stages n := by
  rintro function arguments rfl
  have lengths : q.pieces.length = arguments.length := serves.evaluates.length_eq
  have copies := fits.moves
  have reads := serves.reads
  generalize is : q.reading = reading at copies reads
  cases reads with
  | @call target _ _ moves i few moved called =>
    rw [List.length_map,lengths] at few
    have count : moves.length = arguments.length := by simpa [lengths] using congrArg List.length moved
    have bare {k j : Nat} (before : j ≤ k) : arguments[k]?.bind Expression.bare? = some (groupRegister 'o' j) ↔
        (q.pieces.map Piece.register)[k]? = some (groupRegister 'o' j) :=
      serves.bare_iff fits.knows fun inside => Nat.lt_of_le_of_lt before (Nat.lt_of_lt_of_le inside few)
    have waits {k : Nat} {piece : Piece} (is : q.pieces[k]? = some piece) :
        (q.pieces.map Piece.register)[k]? = some piece.register := by rw [List.getElem?_map,is]; rfl
    have few : (q.pieces.map Piece.register).length ≤ Machine.groupSize := by rw [List.length_map,lengths]; exact few
    refine ⟨target,moves,i,rfl,is,called,count,?_,?_,?_⟩
    · intro k j piece here there
      have means := moved_at moved k
      rw [here,waits there] at means
      refine ⟨copies j ?_,Option.some.inj means⟩
      rw [List.dropLast_concat]
      exact List.mem_of_getElem? here
    · intro Memory w m
      obtain ⟨last,ran,staged⟩ := block_moves few moved w m
      refine ⟨last,ran,fun k piece is => ⟨fun alone => ?_,fun j hands => ?_⟩⟩
      · refine staged.kept k _ (waits is) fun j before same => alone j ⟨before,?_⟩
        rw [bare (Nat.le_of_lt before),waits is,same]
      · exact staged.handed_on k j ((bare (Nat.le_of_lt hands.1)).1 hands.2) hands.1
    · rw [parallel_iff few moved]
      constructor
      · intro apart k j hands
        exact (bare (Nat.le_refl j)).2 (apart k j ((bare (Nat.le_of_lt hands.1)).1 hands.2) hands.1)
      · intro apart k j is before
        exact (bare (Nat.le_refl j)).1 (apart k j ⟨before,(bare (Nat.le_of_lt before)).2 is⟩)

end Gathering

end Selection

open Selection

/-- Every call stands right behind the moves of its arguments. An argument arrives unless the
    tree names an outgoing register for it to which an earlier one has been moved. -/
theorem select_stages {supply : RegisterSupply} {p : Procedure} {frames : Bool} {f : CodeFragment}
    (accepted : (select .sparc supply p frames).outcome = .ok f) :
    Gathers (p.body.flatMap Statement.nodes) f.code fun n q => q.Stages n := by
  obtain ⟨code,yields,framed⟩ := yields_of_select accepted
  have body := (renders_body yields (knows_named supply p.body) (RegisterSupply.le_refl _)).fits
  have whole : Gathers (p.body.flatMap Statement.nodes) f.code (Gathering.Fits (supply.adoptAll (virtualRegisters p.body))) := by
    cases frames with
    | true => exact body.frame (fun _ _ lines fits => fits.shift lines) framed
    | false => exact framed ▸ body
  exact whole.imp fun n q serves fits => serves.stages fits

theorem select_stages_nestedCall : ∃ f, (select .sparc {} nestedCall true).outcome = .ok f ∧
    Gathers (nestedCall.body.flatMap Statement.nodes) f.code fun n q => q.Stages n := by
  obtain ⟨f,accepted⟩ : ∃ f, (select .sparc {} nestedCall true).outcome = .ok f := ⟨_,rfl⟩
  exact ⟨f,accepted,select_stages accepted⟩

/-- A call whose second argument is the register of its first. -/
def handedOn : Procedure where
  className := "Test"
  methodName := "handedOn"
  body := [.discard (.callNamed "f" [.named "%i0",.named "%o0"])]

/-- The first argument is moved to where the second one is. -/
theorem not_select_stages_handedOn : ∃ f, (select .sparc {} handedOn false).outcome = .ok f ∧
    ¬ Gathers (handedOn.body.flatMap Statement.nodes) f.code fun n q =>
      n.isCall = true → Parallel (q.pieces.map Piece.register) q.reading.dropLast := by
  refine ⟨_,rfl,?_⟩
  rintro ⟨gathered,all,-,served⟩
  obtain ⟨⟨n,q⟩,rfl,rfl⟩ := List.map_eq_singleton_iff.1 (List.perm_singleton.1 all)
  obtain ⟨serves,atOnce⟩ := served _ q (List.mem_singleton.2 rfl)
  have parallel := atOnce rfl
  obtain ⟨supply,left,line,pieces,reading⟩ := q
  cases serves.evaluates with
  | @cons _ _ _ _ _ first _ tiled rest =>
    cases rest with
    | @cons _ _ _ _ _ second _ tiled' rest =>
      cases rest
      simp only [Expression.named,tileExpression] at tiled tiled'
      obtain ⟨waits,-,-⟩ := yields_pure.1 tiled
      obtain ⟨waits',-,-⟩ := yields_pure.1 tiled'
      have registers : [first.register,second.register] = [⟨"%i0"⟩,groupRegister 'o' 0] := by
        rw [Operand.register.inj waits,Operand.register.inj waits']
        rfl
      have reads := serves.reads
      simp only [List.map_cons,List.map_nil,registers] at reads parallel
      cases reads with
      | call few moved =>
        rw [List.dropLast_concat,parallel_iff few moved] at parallel
        have same : [⟨"%i0"⟩,groupRegister 'o' 0][0]? = some (groupRegister 'o' 0) := parallel 1 0 rfl Nat.one_pos
        exact absurd same (by decide +kernel)

end SparcBackend
