import Mathlib.Order.Bounds.Basic
import Mathlib.Tactic.Common
import SparcBackend.Peephole.Sweep

/-!
A lifetime spans the mentions of a register and tells one mention from more. The lines of
all mentions come in order, a line as often as slots of it hold the register
(`mentionLines`). The lifetime starts on the first of them and stops on the last of the
others, so it has no end if there are no others.
-/
namespace SparcBackend

/-- Code is what stands in front of a line, the line and what stands behind it. -/
theorem split_at_line {code : List Instruction} {line : Nat} {i : Instruction} (here : code[line]? = some i) :
    code = code.take line ++ i :: code.drop (line+1) ∧ (code.take line).length = line := by
  obtain ⟨inside,is⟩ := List.getElem?_eq_some_iff.1 here
  rw [← is,← List.drop_eq_getElem_cons inside,List.take_append_drop,List.length_take]
  exact ⟨rfl,Nat.min_eq_left (Nat.le_of_lt inside)⟩

/-- A slot of a line holds `r`. -/
def MentionedAt (code : List Instruction) (r : Register) (line : Nat) : Prop := ∃ i, code[line]? = some i ∧ r ∈ i.registers

/-- The number of slots that hold `r`, all slots of all lines counted. -/
def mentionCount (code : List Instruction) (r : Register) : Nat := (code.flatMap Instruction.registers).count r

namespace Lifetime
variable {r : Register} {code more : List Instruction} {line : Nat}

/-! ### The lines of all mentions -/

/-- The lines that mention `r`, a line once for each slot that holds `r`. The lines of the
    code are numbered from `first` on. -/
def mentionLines (r : Register) (first : Nat) (code : List Instruction) : List Nat :=
  (code.zipIdx first).flatMap fun p => List.replicate (p.1.registers.count r) p.2

theorem mentionLines_cons (r : Register) (first : Nat) (i : Instruction) (code : List Instruction) :
    mentionLines r first (i :: code) = List.replicate (i.registers.count r) first ++ mentionLines r (first+1) code := by
  rw [mentionLines,List.zipIdx_cons,List.flatMap_cons]
  rfl

theorem mentionLines_append (r : Register) (first : Nat) (code more : List Instruction) :
    mentionLines r first (code ++ more) = mentionLines r first code ++ mentionLines r (first+code.length) more := by
  rw [mentionLines,List.zipIdx_append,List.flatMap_append]
  rfl

theorem mem_mentionLines : line ∈ mentionLines r 0 code ↔ MentionedAt code r line := by
  simp only [mentionLines,List.mem_flatMap,List.mem_replicate,List.mem_zipIdx_iff_getElem?,MentionedAt]
  constructor
  · rintro ⟨p,here,some,rfl⟩
    exact ⟨p.1,here,List.count_pos_iff.1 (Nat.pos_of_ne_zero some)⟩
  · rintro ⟨i,here,member⟩
    exact ⟨⟨i,line⟩,here,Nat.ne_of_gt (List.count_pos_iff.2 member),rfl⟩

theorem length_mentionLines (r : Register) (first : Nat) (code : List Instruction) :
    (mentionLines r first code).length = mentionCount code r := by
  induction code generalizing first with
  | nil => rfl
  | cons i rest ih =>
    rw [mentionLines_cons,List.length_append,List.length_replicate,ih]
    simp only [mentionCount,List.flatMap_cons,List.count_append]

/-- No mention stands above the first line, and the lines come in order. -/
theorem mentionLines_ordered (r : Register) (first : Nat) (code : List Instruction) :
    (∀ line ∈ mentionLines r first code, first ≤ line) ∧ (mentionLines r first code).Pairwise (· ≤ ·) := by
  induction code generalizing first with
  | nil => simp [mentionLines]
  | cons i rest ih =>
    obtain ⟨below,ordered⟩ := ih (first+1)
    rw [mentionLines_cons]
    have here : ∀ line ∈ List.replicate (i.registers.count r) first, line = first := fun line => List.eq_of_mem_replicate
    refine ⟨?_,List.pairwise_append.2 ⟨List.pairwise_replicate.2 (.inr (Nat.le_refl first)),ordered,?_⟩⟩
    · intro line member
      rcases List.mem_append.1 member with same | later
      · exact Nat.le_of_eq (here line same).symm
      · exact Nat.le_of_succ_le (below line later)
    · intro line same later member
      rw [here line same]
      exact Nat.le_of_succ_le (below later member)

/-! ### A lifetime by the lines of the mentions -/

theorem mentionIn_eq (r : Register) (line : Nat) (life : Lifetime) (i : Instruction) :
    mentionIn r line life i = (List.replicate (i.registers.count r) line).foldl mention life := by
  unfold mentionIn
  induction i.registers generalizing life with
  | nil => rfl
  | cons s rest ih =>
    by_cases same : s = r
    · subst same
      rw [List.foldl_cons,if_pos rfl,ih,List.count_cons_self,List.replicate_succ,List.foldl_cons]
    · rw [List.foldl_cons,if_neg same,ih,List.count_cons_of_ne same]

theorem scan_eq (r : Register) (life : Lifetime) (first : Nat) (code : List Instruction) :
    scan r life first code = (mentionLines r first code).foldl mention life := by
  induction code generalizing life first with
  | nil => rfl
  | cons i rest ih => rw [scan,ih,mentionIn_eq,mentionLines_cons,List.foldl_append]

/-- A lifetime that has started stops on the last line that is mentioned to it. -/
theorem foldl_mention (start : Nat) (stop : Option Nat) (lines : List Nat) :
    lines.foldl mention { start := some start,stop := stop } = { start := some start,stop := lines.getLast?.or stop } := by
  induction lines generalizing stop with
  | nil => rfl
  | cons line rest ih =>
    rw [List.foldl_cons,mention,ih,List.getLast?_cons]
    cases rest.getLast? <;> rfl

theorem ofCode_eq (code : List Instruction) (r : Register) :
    ofCode code r = { start := (mentionLines r 0 code).head?,stop := (mentionLines r 0 code).tail.getLast? } := by
  rw [ofCode,scan_eq]
  cases mentionLines r 0 code with
  | nil => rfl
  | cons line rest =>
    rw [List.foldl_cons]
    exact (foldl_mention line none rest).trans (by rw [Option.or_none]; rfl)

theorem last?_ofCode (code : List Instruction) (r : Register) : (ofCode code r).last? = (mentionLines r 0 code).getLast? := by
  rw [ofCode_eq]
  cases mentionLines r 0 code with
  | nil => rfl
  | cons line rest =>
    rw [List.getLast?_cons]
    cases last : rest.getLast? <;> simp [last?,last]

/-! ### First and last mentions -/

theorem start_eq_some_iff : (ofCode code r).start = some line ↔ IsLeast {line | MentionedAt code r line} line := by
  simp only [ofCode_eq,IsLeast,lowerBounds,Set.mem_ofPred_eq,← mem_mentionLines]
  obtain ⟨-,ordered⟩ := mentionLines_ordered r 0 code
  generalize mentionLines r 0 code = lines at ordered ⊢
  cases lines with
  | nil => simp
  | cons first rest =>
    rw [List.head?_cons,Option.some_inj]
    constructor
    · rintro rfl
      refine ⟨List.mem_cons_self,fun other member => ?_⟩
      rcases List.mem_cons.1 member with rfl | later
      · exact Nat.le_refl other
      · exact List.rel_of_pairwise_cons ordered later
    · rintro ⟨member,least⟩
      rcases List.mem_cons.1 member with rfl | later
      · rfl
      · exact Nat.le_antisymm (List.rel_of_pairwise_cons ordered later) (least List.mem_cons_self)

theorem last?_eq_some_iff : (ofCode code r).last? = some line ↔ IsGreatest {line | MentionedAt code r line} line := by
  simp only [last?_ofCode,IsGreatest,upperBounds,Set.mem_ofPred_eq,← mem_mentionLines]
  obtain ⟨-,ordered⟩ := mentionLines_ordered r 0 code
  rcases List.eq_nil_or_concat (mentionLines r 0 code) with none | ⟨before,last,is⟩
  · simp [none]
  · rw [List.concat_eq_append] at is
    rw [is] at ordered ⊢
    rw [List.getLast?_concat,Option.some_inj]
    obtain ⟨-,-,below⟩ := List.pairwise_append.1 ordered
    have le : ∀ ⦃other⦄, other ∈ before ++ [last] → other ≤ last := by
      intro other member
      rcases List.mem_append.1 member with earlier | same
      · exact below other earlier last (List.mem_singleton.2 rfl)
      · exact Nat.le_of_eq (List.mem_singleton.1 same)
    have among : last ∈ before ++ [last] := List.mem_append_right _ (List.mem_singleton.2 rfl)
    constructor
    · rintro rfl
      exact ⟨among,le⟩
    · rintro ⟨member,greatest⟩
      exact Nat.le_antisymm (greatest among) (le member)

/-- A lifetime has an end, which is its last line, exactly if there are two mentions. -/
theorem stop_eq (code : List Instruction) (r : Register) :
    (ofCode code r).stop = if 2 ≤ mentionCount code r then (ofCode code r).last? else none := by
  rw [last?_ofCode,ofCode_eq,← length_mentionLines r 0]
  cases mentionLines r 0 code with
  | nil => rfl
  | cons line rest => cases rest <;> simp [List.getLast?_cons]

/-- No mention stands behind the last line of a lifetime. -/
theorem le_last?_ofCode {i : Instruction} (here : code[line]? = some i) (member : r ∈ i.registers) :
    ∃ last, (ofCode code r).last? = some last ∧ line ≤ last := by
  have mentioned : MentionedAt code r line := ⟨i,here,member⟩
  have is := List.getLast?_eq_some_getLast (List.ne_nil_of_mem (mem_mentionLines.2 mentioned))
  rw [← last?_ofCode] at is
  exact ⟨_,is,(last?_eq_some_iff.1 is).2 mentioned⟩

/-- The last line that is known is one of a mention. -/
theorem exists_of_last?_ofCode {last : Nat} (is : (ofCode code r).last? = some last) :
    ∃ i, code[last]? = some i ∧ r ∈ i.registers := (last?_eq_some_iff.1 is).1

theorem last?_of_endsAt {life : Lifetime} (ends : life.endsAt line = true) : life.last? = some line := by
  simp [last?,of_decide_eq_true ends]

theorem le_of_endsAt {last : Nat} {i : Instruction} (ends : (ofCode code r).endsAt last = true)
    (here : code[line]? = some i) (member : r ∈ i.registers) : line ≤ last :=
  (last?_eq_some_iff.1 (last?_of_endsAt ends)).2 ⟨i,here,member⟩

/-! ### What a lifetime says -/

/-- The lifetime of a register, told by its mentions: it starts on the least line with one,
    and from the second mention on it stops on the greatest. -/
structure Describes (life : Lifetime) (code : List Instruction) (r : Register) : Prop where
  start : ∀ line, life.start = some line ↔ IsLeast {line | MentionedAt code r line} line
  unstarted : life.start = none ↔ ∀ line, ¬ MentionedAt code r line
  stop : ∀ line, life.stop = some line ↔ 2 ≤ mentionCount code r ∧ IsGreatest {line | MentionedAt code r line} line
  unstopped : life.stop = none ↔ mentionCount code r < 2
  valid : life.isValid = true ↔ 2 ≤ mentionCount code r
  bounded : ∀ line, MentionedAt code r line → ∃ last, life.last? = some last ∧ line ≤ last

theorem start_eq_none_iff : (ofCode code r).start = none ↔ ∀ line, ¬ MentionedAt code r line := by
  simp only [ofCode_eq,List.head?_eq_none_iff,List.eq_nil_iff_forall_not_mem,mem_mentionLines]

theorem stop_eq_some_iff : (ofCode code r).stop = some line ↔
    2 ≤ mentionCount code r ∧ IsGreatest {line | MentionedAt code r line} line := by
  rw [stop_eq,← last?_eq_some_iff]
  split
  · rename_i twice
    exact (and_iff_right twice).symm
  · rename_i once
    simp [once]

theorem stop_eq_none_iff : (ofCode code r).stop = none ↔ mentionCount code r < 2 := by
  rw [stop_eq,last?_ofCode,← length_mentionLines r 0]
  split
  · rename_i twice
    have lines : mentionLines r 0 code ≠ [] := List.ne_nil_of_length_pos (Nat.zero_lt_of_lt twice)
    simp [lines,Nat.not_lt.2 twice]
  · rename_i once
    simp [Nat.lt_of_not_le once]

theorem isValid_iff : (ofCode code r).isValid = true ↔ 2 ≤ mentionCount code r := by
  rw [← Nat.not_lt,← stop_eq_none_iff]
  cases stops : (ofCode code r).stop with
  | none => simp [isValid,stops]
  | some last =>
    obtain ⟨-,mentioned,-⟩ := stop_eq_some_iff.1 stops
    cases starts : (ofCode code r).start with
    | none => exact absurd mentioned (start_eq_none_iff.1 starts last)
    | some first =>
      have le : first ≤ last := (start_eq_some_iff.1 starts).2 mentioned
      simp [isValid,starts,stops,le]

theorem describes (code : List Instruction) (r : Register) : (ofCode code r).Describes code r where
  start _ := start_eq_some_iff
  unstarted := start_eq_none_iff
  stop _ := stop_eq_some_iff
  unstopped := stop_eq_none_iff
  valid := isValid_iff
  bounded _ mentioned := by
    obtain ⟨i,here,member⟩ := mentioned
    exact le_last?_ofCode here member

/-- Code behind the first mention does not move the start. -/
theorem start_append (starts : (ofCode code r).start = some line) (more : List Instruction) :
    (ofCode (code ++ more) r).start = some line := by
  simp only [ofCode_eq,mentionLines_append,List.head?_append] at starts ⊢
  rw [starts,Option.some_or]

end Lifetime

/-- A table of lifetimes has a row for each register that is owned and for no other one, and
    each row is exact. Lines that are added below move no start. -/
theorem LifetimeTable.ofCode_exact (code : List Instruction) (supply : RegisterSupply) :
    (ofCode code supply).rows.map Prod.fst = supply.children ∧
    (∀ r, (∃ life, (ofCode code supply).get? r = some life) ↔ r ∈ supply.children) ∧
    ∀ r life, (ofCode code supply).get? r = some life → life.Describes code r ∧
      ∀ more, ∃ later, (ofCode (code ++ more) supply).get? r = some later ∧
        ∀ line, life.start = some line → later.start = some line := by
  refine ⟨?_,fun r => ?_,fun r life found => ?_⟩
  · simp [ofCode,Function.comp_def]
  · rw [get?_ofCode]
    split <;> simp [*]
  · rw [get?_ofCode] at found
    split at found
    · rename_i owned
      cases found
      refine ⟨Lifetime.describes code r,fun more => ⟨.ofCode (code ++ more) r,?_,fun _ starts => Lifetime.start_append starts more⟩⟩
      rw [get?_ofCode,if_pos owned]
    · cases found

theorem LifetimeTable.ofCode_exact_comparedWithItself : ∃ (supply : RegisterSupply) (code : List Instruction) (life : Lifetime),
    (ofCode code supply).get? ⟨"b"⟩ = some life ∧ life.stop = some 1 ∧ life.Describes code ⟨"b"⟩ ∧
      ∀ more, ∃ later, (ofCode (code ++ more) supply).get? ⟨"b"⟩ = some later ∧
        ∀ line, life.start = some line → later.start = some line := by
  -- The comparison mentions the register in two slots of one line.
  let code := [Machine.loadImmediate 1 ⟨"a"⟩,Machine.compare (.register ⟨"b"⟩) (.register ⟨"b"⟩)]
  refine ⟨{ children := [⟨"a"⟩,⟨"b"⟩] },code,⟨some 1,some 1⟩,by decide +kernel,rfl,?_⟩
  exact (ofCode_exact code _).2.2 ⟨"b"⟩ ⟨some 1,some 1⟩ (by decide +kernel)

end SparcBackend
