import SparcBackend.Proofs.Machine.Flow
import SparcBackend.Proofs.Selection.Rendering
import SparcBackend.Proofs.Selection.Statements
import SparcBackend.Proofs.Selection.Wellformed

/-!
Operands wait for each other. The value of each waits in a register until the line that
reads it. A value that was computed waits in a minted register, which no other line
writes. A register that the tree names waits as itself: it is not copied, and an operand
further right that assigns it is seen.
-/
namespace SparcBackend
open Machine (Action Configuration Source Stays groupRegister)

/-- Something in an expression puts a value into a register. -/
def Expression.Overwrites (e : Expression) (r : Register) : Prop := ∃ n ∈ e.nodes, n.Overwrites r

def Expression.Calls (e : Expression) : Prop := ∃ n ∈ e.nodes, n.isCall = true

/-- How far below the first line that reads an operand the one stands that reads the operand
    with a number. Only calls take more than one line, as they move their arguments. -/
def Node.wait (n : Node) (number : Nat) : Nat := if n.isCall then number else 0

/-- Nothing that happens between the evaluation of an operand and its use changes the register
    it names, if it names one: no operand further right assigns it, none calls a procedure
    that may change it, and no argument further left is moved there. -/
def Node.Leaves (n : Node) (number : Nat) (e : Expression) : Prop := ∀ r, e.bare? = some r →
  (∀ late ∈ n.operands.drop (number+1), ¬ late.Overwrites r ∧ (IsOutgoing r → ¬ late.Calls)) ∧
    ∀ k < n.wait number, groupRegister 'o' k ≠ r

namespace Selection

namespace Gathering
variable (q : Gathering)

/-- The line behind an operand. -/
def behind (number : Nat) : Nat := q.line + ((q.pieces.take (number+1)).flatMap Piece.lines).length

/-- No line of an operand writes the register in which an operand further left waits. -/
def Spares (n : Node) : Prop :=
  (n.operands.zip q.pieces).Pairwise fun early late => ∀ i ∈ late.2.lines, i.writes early.2.register = false

/-- A line of an operand writes the register in which an operand further left waits just if
    that names its register and the other assigns it. -/
def SparesComputed (n : Node) : Prop :=
  (n.operands.zip q.pieces).Pairwise fun early late => (∃ i ∈ late.2.lines, i.writes early.2.register = true) ↔
    early.1.bare? = some early.2.register ∧ late.1.Overwrites early.2.register

/-- Each operand has a line that reads it, and this finds the value that was there behind the
    operand, if nothing in between changes a register that the tree names. -/
def Keeps (n : Node) (code : List Instruction) : Prop :=
  ∀ number e piece, n.operands[number]? = some e → q.pieces[number]? = some piece →
    (∃ i, code[q.reader+n.wait number]? = some i ∧ i.consumes piece.register = true) ∧
      (n.Leaves number e → ∀ {Memory : Type} (w : World Memory) (c last : Configuration Memory),
        Stays w code (q.behind number) (q.reader+n.wait number) c last →
          last.state.registers piece.register = c.state.registers piece.register)

end Gathering

section
variable {base supply mid left : RegisterSupply} {code : List Instruction}

/-! ### Operands that wait -/

section
variable {e late : Expression} {r : Register} {s : RegisterSupply} {lines : List Instruction}

/-- Only a register that an expression names can be overwritten while its value waits. -/
theorem Waits.writes_iff (waits : Waits e supply r mid) (le : base ≤ supply) (emits : Emits base s late.nodes lines) (grows : mid ≤ s) :
    (∃ i ∈ lines, i.writes r = true) ↔ e.bare? = some r ∧ late.Overwrites r := by
  obtain ⟨known,named⟩ := waits
  rw [emits.writes r (known.mono grows)]
  constructor
  · rintro ⟨n,member,overwrites⟩
    rcases named with named | ⟨-,unknown⟩
    · exact ⟨named,n,member,overwrites⟩
    · exact absurd ((emits.known n member r overwrites).mono le) unknown
  · exact And.right

/-- Lines leave a register alone in which a value waits, unless the tree names it. -/
theorem Waits.spares (waits : Waits e supply r mid) (le : base ≤ supply) (emits : Emits base s late.nodes lines) (grows : mid ≤ s)
    (leaves : e.bare? = some r → ¬ late.Overwrites r ∧ (IsOutgoing r → ¬ late.Calls)) :
    ∀ i ∈ lines, ∀ a, i.action? = some a → a.Spares r := by
  intro i member a means
  cases a with
  | assign d source =>
    rintro rfl
    obtain ⟨named,overwrites⟩ := (waits.writes_iff le emits grows).1 ⟨i,member,(Instruction.writes_iff means d).2 rfl⟩
    exact (leaves named).1 overwrites
  | call target =>
    intro out
    rcases waits.2 with named | ⟨-,unknown⟩
    · exact (leaves named).2 out (emits.calls i member target means)
    · exact unknown (.inr (isPhysical_of_isOutgoing out))
  | special text => exact emits.tame i member text means
  | store | compare | branch | jump | label | skip => trivial

end

section
variable {es : List Expression} {pieces : List Piece}

/-- The lines of each operand are those of its nodes. -/
theorem Evaluates.emits (evaluates : Evaluates supply es pieces left) : (∀ e ∈ es, ∀ r ∈ e.registers, base.Knows r) →
    base ≤ supply → ∀ x ∈ es.zip pieces, ∃ s, supply ≤ s ∧ Emits base s x.1.nodes x.2.lines := by
  induction evaluates with
  | nil =>
    intro _ _ x member
    cases member
  | @cons supply mid left e es piece pieces tiled rest ih =>
    intro names le x member
    obtain ⟨-,-,renders,-⟩ := renders_expression tiled (names e List.mem_cons_self) le
    rcases List.mem_cons.1 member with rfl | behind
    · exact ⟨supply,RegisterSupply.le_refl supply,renders.emits⟩
    · obtain ⟨s,grows,emits⟩ := ih (fun e member => names e (List.mem_cons_of_mem _ member))
        (RegisterSupply.le_trans le renders.grows) x behind
      exact ⟨s,RegisterSupply.le_trans renders.grows grows,emits⟩

/-- Every piece is that of an operand. -/
theorem Evaluates.exists_mem_zip (evaluates : Evaluates supply es pieces left) {piece : Piece} (member : piece ∈ pieces) :
    ∃ e, (e,piece) ∈ es.zip pieces := by
  rw [← List.map_snd_zip (Nat.le_of_eq evaluates.length_eq)] at member
  obtain ⟨⟨e,_⟩,pair,rfl⟩ := List.mem_map.1 member
  exact ⟨e,pair⟩

theorem Evaluates.spares (evaluates : Evaluates supply es pieces left) : (∀ e ∈ es, ∀ r ∈ e.registers, base.Knows r) →
    base ≤ supply → (es.zip pieces).Pairwise fun early late => (∃ i ∈ late.2.lines, i.writes early.2.register = true) ↔
      early.1.bare? = some early.2.register ∧ late.1.Overwrites early.2.register := by
  induction evaluates with
  | nil => exact fun _ _ => List.Pairwise.nil
  | @cons supply mid left e es piece pieces tiled rest ih =>
    intro names le
    have behind : ∀ e ∈ es, ∀ r ∈ e.registers, base.Knows r := fun e member => names e (List.mem_cons_of_mem _ member)
    obtain ⟨_,is,renders,waits⟩ := renders_expression tiled (names e List.mem_cons_self) le
    cases is
    have further := RegisterSupply.le_trans le renders.grows
    refine List.Pairwise.cons (fun x member => ?_) (ih behind further)
    obtain ⟨s,grows,emits⟩ := rest.emits behind further x member
    exact (waits rfl).writes_iff le emits grows

/-- Behind an operand the others are evaluated. -/
theorem Evaluates.drop (evaluates : Evaluates supply es pieces left) : (∀ e ∈ es, ∀ r ∈ e.registers, base.Knows r) →
    base ≤ supply → ∀ {number : Nat} {e : Expression} {piece : Piece}, es[number]? = some e → pieces[number]? = some piece →
      ∃ s mid, base ≤ s ∧ s ≤ mid ∧ Waits e s piece.register mid ∧
        Evaluates mid (es.drop (number+1)) (pieces.drop (number+1)) left := by
  induction evaluates with
  | nil =>
    intro _ _ number e piece absurdity
    cases absurdity
  | @cons supply mid left e es piece pieces tiled rest ih =>
    intro names le number x y here there
    obtain ⟨_,is,renders,waits⟩ := renders_expression tiled (names e List.mem_cons_self) le
    cases is
    cases number with
    | zero =>
      cases here
      cases there
      exact ⟨supply,mid,le,renders.grows,waits rfl,rest⟩
    | succ number =>
      exact ih (fun e member => names e (List.mem_cons_of_mem _ member)) (RegisterSupply.le_trans le renders.grows) here there

end

section
variable {rs : List Register} {moves : List Instruction}

/-- The moves of arguments, one by one. -/
theorem moved_at (moved : moves.map Instruction.action? =
    rs.mapIdx fun k r => some (.assign (groupRegister 'o' k) (.operand (.register r)))) (k : Nat) :
    (moves[k]?).map Instruction.action? =
      (rs[k]?).map fun r => some (.assign (groupRegister 'o' k) (.operand (.register r))) := by
  rw [← List.getElem?_map,moved,List.getElem?_mapIdx]

/-- A line reads each operand, and above it, among the lines that read, stand the moves of
    earlier arguments to their places. -/
theorem Reads.reader {n : Node} {reading : List Instruction} (reads : Reads n rs reading) {number : Nat} {r : Register}
    (waits : rs[number]? = some r) : ∃ i, reading[n.wait number]? = some i ∧ i.consumes r = true ∧
      ∀ j ∈ reading.take (n.wait number), ∃ k < n.wait number, k < Machine.groupSize ∧ ∃ source,
        j.action? = some (.assign (groupRegister 'o' k) source) := by
  have among := List.mem_of_getElem? waits
  cases reads with
  | branch compares =>
    refine ⟨_,rfl,(Instruction.consumes_iff compares r).2 ?_,by simp [Node.wait,Node.isCall]⟩
    simpa [Action.operands] using among
  | store stores =>
    refine ⟨_,rfl,(Instruction.consumes_iff stores r).2 ?_,by simp [Node.wait,Node.isCall]⟩
    simpa [Action.operands,Machine.Address.operands] using among
  | binary computes =>
    refine ⟨_,rfl,(Instruction.consumes_iff computes r).2 ?_,by simp [Node.wait,Node.isCall]⟩
    simpa [Action.operands,Source.operands] using among
  | @call target arguments _ moves i few moved called =>
    have bound := (List.getElem?_eq_some_iff.1 waits).1
    have same : moves.length = rs.length := by simpa using congrArg List.length moved
    show ∃ i', (moves ++ [i])[number]? = some i' ∧ _ ∧ ∀ j ∈ (moves ++ [i]).take number, ∃ k < number, _
    rw [List.getElem?_append_left (by omega),List.take_append_of_le_length (by omega)]
    have here := moved_at moved number
    rw [waits] at here
    obtain ⟨m,there,means⟩ := Option.map_eq_some_iff.1 here
    refine ⟨m,there,(Instruction.consumes_iff means r).2 (by simp [Action.operands,Source.operands]),fun j member => ?_⟩
    obtain ⟨k,inside,is⟩ := List.mem_take_iff_getElem.1 member
    have move := moved_at moved k
    rw [List.getElem?_eq_getElem (by omega),is,List.getElem?_eq_getElem (by omega)] at move
    exact ⟨k,by omega,by omega,_,Option.some.inj move⟩

end

namespace Gathering
variable {q : Gathering} {n : Node}

/-- The lines that read stand from the first of them on. -/
theorem Serves.reading_at (serves : q.Serves n code) {k : Nat} (inside : k < q.reading.length) :
    code[q.reader+k]? = q.reading[k]? := by
  obtain ⟨-,-,before,after,rfl,length⟩ := serves
  rw [Gathering.reader,← length,List.append_assoc,List.append_assoc,List.getElem?_append_right (by omega),
    List.getElem?_append_right (by omega),List.getElem?_append_left (by omega)]
  congr 1
  omega

/-- Between an operand and the line that reads it stand the operands further right, and the
    moves of arguments further left. -/
theorem Serves.between (serves : q.Serves n code) {number : Nat} (inside : n.wait number < q.reading.length) :
    ∃ before after, code = before ++ ((q.pieces.drop (number+1)).flatMap Piece.lines ++ q.reading.take (n.wait number)) ++ after ∧
      q.behind number = before.length ∧ q.reader+n.wait number = before.length+
        ((q.pieces.drop (number+1)).flatMap Piece.lines ++ q.reading.take (n.wait number)).length := by
  obtain ⟨-,-,before,after,rfl,length⟩ := serves
  have split := congrArg (List.flatMap Piece.lines) (List.take_append_drop (number+1) q.pieces)
  rw [List.flatMap_append] at split
  refine ⟨before ++ (q.pieces.take (number+1)).flatMap Piece.lines,q.reading.drop (n.wait number) ++ after,?_,?_,?_⟩
  · rw [← split]
    simp only [List.append_assoc,List.append_cancel_left_eq]
    rw [← List.append_assoc (List.take _ _),List.take_append_drop]
  · rw [List.length_append,length]
    rfl
  · have sizes := congrArg List.length split
    simp only [Gathering.reader,List.length_append,List.length_take] at sizes ⊢
    omega

/-- The values of operands are still there when they are read. -/
theorem Serves.keeps (serves : q.Serves n code) (knows : q.Knows base n) : q.Keeps n code := by
  obtain ⟨le,names⟩ := knows
  intro number e piece here there
  have waiting : (q.pieces.map Piece.register)[number]? = some piece.register := by rw [List.getElem?_map,there]; rfl
  obtain ⟨i,reader,consumes,staging⟩ := serves.reads.reader waiting
  have inside := (List.getElem?_eq_some_iff.1 reader).1
  refine ⟨⟨i,(serves.reading_at inside).trans reader,consumes⟩,?_⟩
  intro leaves Memory w c last run
  obtain ⟨s,mid,le',grows,waits,rest⟩ := serves.evaluates.drop names le here there
  obtain ⟨before,after,whole,low,high⟩ := serves.between inside
  rw [low,high] at run
  refine run.registers_of_stretch whole fun j member a means => ?_
  rcases List.mem_append.1 member with later | staged
  · obtain ⟨other,among,line⟩ := List.mem_flatMap.1 later
    obtain ⟨late,pair⟩ := rest.exists_mem_zip among
    obtain ⟨t,further,emits⟩ := rest.emits (fun e member => names e (List.mem_of_mem_drop member))
      (RegisterSupply.le_trans le' grows) _ pair
    exact waits.spares le' emits further (fun named => (leaves _ named).1 late (List.of_mem_zip pair).1) j line a means
  · obtain ⟨k,early,few,source,moves⟩ := staging j staged
    cases means.symm.trans moves
    intro same
    rcases waits.2 with named | ⟨-,unknown⟩
    · exact (leaves _ named).2 k early same
    · exact unknown (same ▸ .inr (isPhysical_outgoing ⟨k,few⟩))

end Gathering

end

end Selection

open Selection

/-- Every operator, branch, call and move into memory reads its operands at a place of its own.
    The values wait undisturbed until then, except where the tree names a register and changes
    it further right. -/
theorem select_gathers {supply : RegisterSupply} {p : Procedure} {frames : Bool} {f : CodeFragment}
    (accepted : (select .sparc supply p frames).outcome = .ok f) :
    Gathers (p.body.flatMap Statement.nodes) f.code fun n q => q.SparesComputed n ∧ q.Keeps n f.code := by
  obtain ⟨code,yields,framed⟩ := yields_of_select accepted
  have body := (renders_body yields (knows_named supply p.body) (RegisterSupply.le_refl _)).gathers
  have whole : Gathers (p.body.flatMap Statement.nodes) f.code
      (Gathering.Knows (supply.adoptAll (virtualRegisters p.body))) := by
    cases frames with
    | true => exact body.frame (fun _ _ _ => id) framed
    | false => exact framed ▸ body
  exact whole.imp fun n q serves knows => ⟨serves.evaluates.spares knows.2 knows.1,serves.keeps knows⟩

theorem select_gathers_nestedCall : ∃ f, (select .sparc {} nestedCall true).outcome = .ok f ∧
    Gathers (nestedCall.body.flatMap Statement.nodes) f.code fun n q => q.SparesComputed n ∧ q.Keeps n f.code := by
  obtain ⟨f,accepted⟩ : ∃ f, (select .sparc {} nestedCall true).outcome = .ok f := ⟨_,rfl⟩
  exact ⟨f,accepted,select_gathers accepted⟩

/-- `x` is added to what it is once 5 has been put into it. -/
def assignedBetween : Procedure where
  className := "Test"
  methodName := "assigned"
  body := [.move (.named "%i0") (.binary .plus (.named "x") (.resultOf (.move (.named "x") (.constant 5)) (.named "x")))]

/-- The left operand is not copied, so the right one overwrites it. -/
theorem not_select_gathers_assignedBetween : ∃ f, (select .sparc {} assignedBetween false).outcome = .ok f ∧
    ¬ Gathers (assignedBetween.body.flatMap Statement.nodes) f.code fun n q => q.Spares n := by
  refine ⟨_,rfl,?_⟩
  rintro ⟨gathered,all,-,served⟩
  obtain ⟨⟨n,q⟩,rfl,rfl⟩ := List.map_eq_singleton_iff.1 (List.perm_singleton.1 all)
  obtain ⟨serves,spares⟩ := served _ q (List.mem_singleton.2 rfl)
  obtain ⟨supply,left,line,pieces,reading⟩ := q
  cases serves.evaluates with
  | @cons _ _ _ _ _ early _ tiled rest =>
    cases rest with
    | @cons _ _ _ _ _ late _ tiled' rest =>
      cases rest
      simp only [Expression.named,tileExpression] at tiled
      obtain ⟨waits,-,-⟩ := yields_pure.1 tiled
      simp only [Expression.named,tileExpression,tileStatement] at tiled'
      obtain ⟨_,_,_,_,assigned,-,lines⟩ := yields_bind.1 tiled'
      rw [yields_enter_bind] at assigned
      obtain ⟨_,_,_,_,-,copied,split⟩ := yields_bind.1 assigned
      obtain ⟨-,i,means,rfl⟩ := yields_copy copied
      have writes : i.writes early.register = true := (Instruction.writes_iff means _).2 (by injection waits with same; rw [same]; rfl)
      have member : i ∈ late.lines := by simp [lines,split]
      have spared := List.rel_of_pairwise_cons spares (List.mem_singleton.2 rfl) i member
      exact absurd writes (by simp [spared])

end SparcBackend
