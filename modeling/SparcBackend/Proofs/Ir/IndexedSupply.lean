import Mathlib.Data.Finset.Dedup
import Mathlib.Data.Finset.Insert
import Mathlib.Data.List.Nodup
import Mathlib.Order.Bounds.Basic
import SparcBackend.Proofs.Ir.Freshness

/-!
Supplies of registers with a set in which names are looked up, and a counter of 32 bits.
What is asked of such a supply is answered as the supply of a method answers it, as long
as the counter has further values (`run_indexed`). So whatever has been asked for, list and
set agree, no register is there twice, and a name that is minted was nobody's
(`run_fresh`). The search for it ends soon: names with different numbers are different, so
each attempt that fails meets another of the registers that are owned.
-/
namespace SparcBackend

namespace RegisterSupply

/-- What a supply is asked for. -/
inductive Call where
  /-- A temporary. -/
  | create
  /-- A register whose name joins `parts` and ends in a number. -/
  | createWith (parts : List String)
  /-- To take ownership of a register. -/
  | adopt (r : Register)
deriving DecidableEq, Repr

inductive Answer where
  /-- A register is minted, with the number of names that have been tried. -/
  | minted (r : Register) (attempts : Nat)
  /-- Whether the register was not owned before. -/
  | adopted (new : Bool)
deriving DecidableEq, Repr

/-- The names that have been tried for an answer. -/
def Answer.attempts : Answer → Nat
  | .minted _ attempts => attempts
  | .adopted _ => 0

/-- The names that have been tried for all answers. -/
def attempts : List Answer → Nat
  | [] => 0
  | a :: rest => a.attempts + attempts rest

/-- The register that a supply has taken in when it gives an answer. -/
def gained? : Call → Answer → Option Register
  | _, .minted r _ => some r
  | .adopt r, .adopted true => some r
  | _, .adopted _ => none

/-- What the name begins with that a call asks for. -/
def Call.stem? : Call → Option String
  | .create => some "t"
  | .createWith parts => some (Name.qualified parts)
  | .adopt _ => none

/-- The registers that a supply has taken in, in the order of the calls. -/
def gained : List Call → List Answer → List Register
  | c :: calls, a :: answers => (gained? c a).toList ++ gained calls answers
  | _, _ => []

/-- The answer to a call that mints; the counter goes on by one with each attempt. -/
def answerMint (supply : RegisterSupply) (stem : String) : Answer × RegisterSupply :=
  (.minted (supply.mint stem).1 ((supply.mint stem).2.next - supply.next),(supply.mint stem).2)

def answer (supply : RegisterSupply) : Call → Answer × RegisterSupply
  | .create => supply.answerMint "t"
  | .createWith parts => supply.answerMint (Name.qualified parts)
  | .adopt r => (.adopted !supply.owns r,supply.adopt r)

def answerAll (supply : RegisterSupply) : List Call → List Answer × RegisterSupply
  | [] => ([],supply)
  | c :: rest => ((supply.answer c).1 :: ((supply.answer c).2.answerAll rest).1,((supply.answer c).2.answerAll rest).2)

/-- The steps that a new counter makes during calls if nothing limits it. -/
def steps (calls : List Call) : Nat := (answerAll {} calls).2.next

end RegisterSupply

open RegisterSupply (Call Answer)

/-- The registers of a method, in order, and beside the list a set of them. -/
structure IndexedSupply where
  /-- The number to try for the next name. -/
  next : Nat := 0
  children : List Register := []
  owned : Finset Register := ∅

namespace IndexedSupply

/-- The counter is less than this: it is a 32-bit word. -/
def counterLimit : Nat := 4294967296

/-- How the search for a new name ends. -/
structure Search where
  /-- The number of names that have been tried. -/
  attempts : Nat
  /-- The number of a name that is not owned, unless the counter has come to its end. -/
  free? : Option Nat
deriving DecidableEq, Repr

/-- The search with one more attempt in front. -/
def Search.later (found : Search) : Search := { found with attempts := found.attempts + 1 }

/-- Tries one number after the other until one has a name that is not owned. The counter goes on with
    each attempt, before the name is looked up. -/
def search (owned : Finset Register) (stem : String) (n : Nat) : Search :=
  if n + 1 < counterLimit then
    if ⟨Name.numbered stem n⟩ ∈ owned then (search owned stem (n + 1)).later
    else { attempts := 1,free? := some n }
  else { attempts := 1,free? := none }
termination_by counterLimit - n

def addChild (s : IndexedSupply) (r : Register) : IndexedSupply :=
  { s with children := s.children ++ [r],owned := insert r s.owned }

/-- Mints a register whose name joins `parts` and ends in a number; `none` when the counter has come
    to its end. -/
def createWith (s : IndexedSupply) (parts : List String) : Option (Answer × IndexedSupply) :=
  let found := search s.owned (Name.qualified parts) s.next
  found.free?.map fun n =>
    (.minted ⟨Name.numbered (Name.qualified parts) n⟩ found.attempts,
      { s with next := n + 1 }.addChild ⟨Name.numbered (Name.qualified parts) n⟩)

def create (s : IndexedSupply) : Option (Answer × IndexedSupply) :=
  s.createWith ["t"]

def adopt (s : IndexedSupply) (r : Register) : Answer × IndexedSupply :=
  if r ∈ s.owned then (.adopted false,s) else (.adopted true,s.addChild r)

def call (s : IndexedSupply) : Call → Option (Answer × IndexedSupply)
  | .create => s.create
  | .createWith parts => s.createWith parts
  | .adopt r => some (s.adopt r)

/-- Calls one after the other, with all answers. -/
def run (s : IndexedSupply) : List Call → Option (List Answer × IndexedSupply)
  | [] => some ([],s)
  | c :: rest => (s.call c).bind fun first => (run first.2 rest).map fun later => (first.1 :: later.1,later.2)

end IndexedSupply

namespace RegisterSupply
variable {taken : List Register} {stem : String} {n : Nat}

/-! ### The search for a number -/

/-- No more numbers are passed over than names are taken. -/
theorem freeNumber_le (stem : String) (taken : List Register) (n : Nat) : freeNumber stem taken n ≤ n + taken.length := by
  induction taken, n using freeNumber.induct stem with
  | case1 taken n found ih =>
    have := List.length_pos_of_mem found
    rw [List.length_erase_of_mem found] at ih
    rw [freeNumber,dif_pos found]
    omega
  | case2 taken n free =>
    rw [freeNumber,dif_neg free]
    exact Nat.le_add_right n _

theorem mem_of_lt_freeNumber {k : Nat} (le : n ≤ k) (lt : k < freeNumber stem taken n) : ⟨Name.numbered stem k⟩ ∈ taken := by
  induction taken, n using freeNumber.induct stem with
  | case1 taken n found ih =>
    rw [freeNumber,dif_pos found] at lt
    rcases Nat.eq_or_lt_of_le le with rfl | beyond
    · exact found
    · exact List.mem_of_mem_erase (ih beyond lt)
  | case2 taken n free =>
    rw [freeNumber,dif_neg free] at lt
    exact absurd le (Nat.not_le.2 lt)

/-- The number found is the first one whose name is free. -/
theorem isLeast_freeNumber (stem : String) (taken : List Register) (n : Nat) :
    IsLeast { k | n ≤ k ∧ ⟨Name.numbered stem k⟩ ∉ taken } (freeNumber stem taken n) := by
  refine ⟨⟨le_freeNumber stem taken n,numbered_freeNumber_not_mem stem taken n⟩,?_⟩
  rintro k ⟨le,free⟩
  by_contra lt
  exact free (mem_of_lt_freeNumber le (Nat.not_le.1 lt))

theorem freeNumber_of_not_mem (free : ⟨Name.numbered stem n⟩ ∉ taken) : freeNumber stem taken n = n := by
  rw [freeNumber,dif_neg free]

/-- A taken name can as well be left in the list. -/
theorem freeNumber_of_mem (found : ⟨Name.numbered stem n⟩ ∈ taken) :
    freeNumber stem taken n = freeNumber stem taken (n+1) := by
  refine (isLeast_freeNumber stem taken n).unique ?_
  obtain ⟨⟨le,free⟩,least⟩ := isLeast_freeNumber stem taken (n+1)
  refine ⟨⟨Nat.le_of_succ_le le,free⟩,?_⟩
  rintro k ⟨within,unowned⟩
  rcases Nat.eq_or_lt_of_le within with rfl | beyond
  · exact absurd found unowned
  · exact least ⟨beyond,unowned⟩

/-! ### Calls -/

/-- The counter goes on by one with each attempt. -/
theorem next_answer (supply : RegisterSupply) (c : Call) :
    (supply.answer c).2.next = supply.next + (supply.answer c).1.attempts := by
  have mint (stem : String) : (supply.answerMint stem).2.next = supply.next + (supply.answerMint stem).1.attempts :=
    (Nat.add_sub_of_le (Nat.le_succ_of_le (le_freeNumber stem supply.children supply.next))).symm
  cases c with
  | create => exact mint _
  | createWith parts => exact mint _
  | adopt r =>
    rw [answer,adopt]
    split <;> rfl

theorem next_answerAll (supply : RegisterSupply) (calls : List Call) :
    (supply.answerAll calls).2.next = supply.next + attempts (supply.answerAll calls).1 := by
  induction calls generalizing supply with
  | nil => rfl
  | cons c rest ih => rw [answerAll,ih,next_answer,attempts,Nat.add_assoc]

theorem next_le_answerAll (supply : RegisterSupply) (calls : List Call) : supply.next ≤ (supply.answerAll calls).2.next :=
  Nat.le.intro (supply.next_answerAll calls).symm

theorem answerAll_append (supply : RegisterSupply) (calls more : List Call) : supply.answerAll (calls ++ more) =
    ((supply.answerAll calls).1 ++ ((supply.answerAll calls).2.answerAll more).1,
      ((supply.answerAll calls).2.answerAll more).2) := by
  induction calls generalizing supply with
  | nil => rfl
  | cons c rest ih => rw [List.cons_append,answerAll,ih]; rfl

theorem length_answerAll (supply : RegisterSupply) (calls : List Call) : (supply.answerAll calls).1.length = calls.length := by
  induction calls generalizing supply with
  | nil => rfl
  | cons c rest ih => rw [answerAll,List.length_cons,ih,List.length_cons]

/-- The supply takes in what it gains, behind what it has. -/
theorem children_answer (supply : RegisterSupply) (c : Call) :
    (supply.answer c).2.children = supply.children ++ (gained? c (supply.answer c).1).toList := by
  cases c with
  | create => rfl
  | createWith parts => rfl
  | adopt r =>
    simp only [answer,adopt]
    cases supply.owns r <;> simp [gained?]

theorem children_answerAll (supply : RegisterSupply) (calls : List Call) :
    (supply.answerAll calls).2.children = supply.children ++ gained calls (supply.answerAll calls).1 := by
  induction calls generalizing supply with
  | nil => exact (List.append_nil _).symm
  | cons c rest ih => rw [answerAll,ih,children_answer,gained,List.append_assoc]

/-- The supply with the set of its registers. -/
def indexed (supply : RegisterSupply) : IndexedSupply where
  next := supply.next
  children := supply.children
  owned := supply.children.toFinset

end RegisterSupply

namespace IndexedSupply
open RegisterSupply
variable {stem : String}

/-- The search ends with the first free number, if the counter gets beyond it. -/
theorem search_eq (children : List Register) (stem : String) (n : Nat) : search children.toFinset stem n =
    if freeNumber stem children n + 1 < counterLimit then
      { attempts := freeNumber stem children n + 1 - n,free? := some (freeNumber stem children n) }
    else { attempts := max 1 (counterLimit - n),free? := none } := by
  fun_induction search children.toFinset stem n with
  | case1 n inside found ih =>
    -- The name is taken, so the first free number from here on is the one from the next number on.
    have beyond := le_freeNumber stem children (n+1)
    rw [ih,freeNumber_of_mem (List.mem_toFinset.1 found)]
    split
    · have count : freeNumber stem children (n+1) + 1 - (n+1) + 1 = freeNumber stem children (n+1) + 1 - n := by omega
      rw [Search.later,count]
    · have count : max 1 (counterLimit - (n+1)) + 1 = max 1 (counterLimit - n) := by omega
      rw [Search.later,count]
  | case2 n inside free =>
    rw [freeNumber_of_not_mem fun found => free (List.mem_toFinset.2 found),if_pos inside,Nat.add_sub_cancel_left]
  | case3 n outside =>
    have beyond := le_freeNumber stem children n
    have count : max 1 (counterLimit - n) = 1 := by omega
    rw [if_neg (by omega),count]

/-- The search makes no more attempts than one for each register and one more. -/
theorem attempts_search_le (children : List Register) (stem : String) (n : Nat) :
    (search children.toFinset stem n).attempts ≤ children.length + 1 := by
  have soon := freeNumber_le stem children n
  rw [search_eq]
  split <;> dsimp only <;> omega

/-! ### Answers -/

/-- What the answer to a call has to be: a new name, found in time and with one step of the counter
    for each attempt, or whether a register was new. -/
inductive Answers (s : IndexedSupply) : Call → Answer → Prop where
  | minted {c : Call} {stem : String} {n attempts : Nat} : c.stem? = some stem → ⟨Name.numbered stem n⟩ ∉ s.owned →
      n + 1 = s.next + attempts → attempts ≤ s.children.length + 1 → Answers s c (.minted ⟨Name.numbered stem n⟩ attempts)
  | adopted {r : Register} {new : Bool} : (new = true ↔ r ∉ s.owned) → Answers s (.adopt r) (.adopted new)

theorem answers_mint (supply : RegisterSupply) {c : Call} (asks : c.stem? = some stem) :
    supply.indexed.Answers c (supply.answerMint stem).1 := by
  have beyond := le_freeNumber stem supply.children supply.next
  have soon := freeNumber_le stem supply.children supply.next
  refine .minted asks (fun owned => ?_) ?_ ?_
  · exact numbered_freeNumber_not_mem stem supply.children supply.next (List.mem_toFinset.1 owned)
  · show _ = supply.next + (freeNumber stem supply.children supply.next + 1 - supply.next)
    omega
  · show freeNumber stem supply.children supply.next + 1 - supply.next ≤ supply.children.length + 1
    omega

theorem answers_indexed (supply : RegisterSupply) (c : Call) : supply.indexed.Answers c (supply.answer c).1 := by
  cases c with
  | create => exact answers_mint supply rfl
  | createWith parts => exact answers_mint supply rfl
  | adopt r =>
    refine .adopted ?_
    rw [Bool.not_eq_true',← Bool.not_eq_true,owns_iff]
    exact not_congr List.mem_toFinset.symm

/-- What a supply gains was not owned. -/
theorem Answers.not_mem {s : IndexedSupply} {c : Call} {a : Answer} {r : Register} (answers : s.Answers c a)
    (gains : gained? c a = some r) : r ∉ s.owned := by
  cases answers with
  | minted _ free _ _ =>
    cases gains
    exact free
  | @adopted _ new truth =>
    cases new with
    | true =>
      cases gains
      exact truth.1 rfl
    | false => cases gains

theorem nodup_answer {supply : RegisterSupply} (distinct : supply.children.Nodup) (c : Call) :
    (supply.answer c).2.children.Nodup := by
  rw [children_answer]
  cases gains : gained? c (supply.answer c).1 with
  | none => rwa [Option.toList_none,List.append_nil]
  | some r =>
    have new : r ∉ supply.children := fun member =>
      (answers_indexed supply c).not_mem gains (List.mem_toFinset.2 member)
    have grown := distinct.concat new
    rwa [List.concat_eq_append] at grown

theorem nodup_answerAll (calls : List Call) {supply : RegisterSupply} (distinct : supply.children.Nodup) :
    (supply.answerAll calls).2.children.Nodup := by
  induction calls generalizing supply with
  | nil => exact distinct
  | cons c rest ih => exact ih (nodup_answer distinct c)

/-! ### Runs -/

theorem addChild_indexed (children : List Register) (r : Register) (n : Nat) :
    ({ next := n,children := children,owned := children.toFinset } : IndexedSupply).addChild r =
      { next := n,children := children ++ [r],owned := (children ++ [r]).toFinset } := by
  have same : insert r children.toFinset = (children ++ [r]).toFinset := by
    ext x
    rw [Finset.mem_insert,List.mem_toFinset,List.mem_toFinset,List.mem_append,List.mem_singleton,or_comm]
  rw [addChild,same]

theorem createWith_indexed (supply : RegisterSupply) (parts : List String) : supply.indexed.createWith parts =
    if (supply.mint (Name.qualified parts)).2.next < counterLimit then
      some ((supply.answerMint (Name.qualified parts)).1,(supply.answerMint (Name.qualified parts)).2.indexed)
    else none := by
  have next : (supply.mint (Name.qualified parts)).2.next = freeNumber (Name.qualified parts) supply.children supply.next + 1 := rfl
  rw [createWith,indexed,search_eq,next]
  split
  · simp only [Option.map_some,addChild_indexed]
    rfl
  · rfl

/-- A call is answered unless the counter comes to its end. -/
theorem call_indexed {supply : RegisterSupply} (small : supply.next < counterLimit) (c : Call) : supply.indexed.call c =
    if (supply.answer c).2.next < counterLimit then some ((supply.answer c).1,(supply.answer c).2.indexed) else none := by
  cases c with
  | create => exact createWith_indexed supply ["t"]
  | createWith parts => exact createWith_indexed supply parts
  | adopt r =>
    have stays : (supply.answer (.adopt r)).2.next < counterLimit := (supply.next_answer (.adopt r)).symm ▸ small
    rw [if_pos stays,call,adopt,answer]
    by_cases owned : supply.owns r = true
    · have member : r ∈ supply.indexed.owned := List.mem_toFinset.2 (owns_iff.1 owned)
      rw [if_pos member,RegisterSupply.adopt,if_pos owned,owned]
      rfl
    · have new : r ∉ supply.indexed.owned := fun member => owned (owns_iff.2 (List.mem_toFinset.1 member))
      rw [if_neg new,RegisterSupply.adopt,if_neg owned,Bool.eq_false_iff.2 owned]
      exact congrArg (fun s => some (Answer.adopted true,s)) (addChild_indexed supply.children r supply.next)

theorem run_indexed {supply : RegisterSupply} (small : supply.next < counterLimit) (calls : List Call) :
    supply.indexed.run calls = if (supply.answerAll calls).2.next < counterLimit then
      some ((supply.answerAll calls).1,(supply.answerAll calls).2.indexed) else none := by
  induction calls generalizing supply with
  | nil => exact (if_pos small).symm
  | cons c rest ih =>
    have later := (supply.answer c).2.next_le_answerAll rest
    rw [run,call_indexed small,answerAll]
    by_cases fits : (supply.answer c).2.next < counterLimit
    · rw [if_pos fits,Option.bind_some]
      dsimp only
      rw [ih fits]
      split <;> rfl
    · rw [if_neg fits,if_neg fun few => fits (Nat.lt_of_le_of_lt later few)]
      rfl

theorem run_empty (calls : List Call) : run {} calls =
    if steps calls < counterLimit then some ((answerAll {} calls).1,(answerAll {} calls).2.indexed) else none := by
  have small : ({} : RegisterSupply).next < counterLimit := by decide
  exact run_indexed small calls

/-- What a supply is that has been called since it was empty, with the answers it has given. -/
structure Records (calls : List Call) (answers : List Answer) (s : IndexedSupply) : Prop where
  /-- Nothing is there twice. -/
  distinct : s.children.Nodup
  owned : ∀ r, r ∈ s.owned ↔ r ∈ s.children
  /-- Registers stand in the order in which they were minted or adopted. -/
  order : s.children = gained calls answers
  length : answers.length = calls.length
  /-- The counter has made one step for each attempt. -/
  counter : s.next = attempts answers
  /-- Every call has been answered as the supply that it was made to has to answer. -/
  answered : ∀ k c a, calls[k]? = some c → answers[k]? = some a →
    ∃ before, run {} (calls.take k) = some (answers.take k,before) ∧ before.Answers c a
  /-- Whatever name is asked for next, the search for it ends. -/
  ends : ∀ stem, (search s.owned stem s.next).attempts ≤ s.children.length + 1

/-- The answers up to a call, and the one to the call. -/
theorem answerAll_at {calls : List Call} {k : Nat} {c : Call} (supply : RegisterSupply) (asked : calls[k]? = some c) :
    (supply.answerAll calls).1.take k = (supply.answerAll (calls.take k)).1 ∧
    (supply.answerAll calls).1[k]? = some ((supply.answerAll (calls.take k)).2.answer c).1 ∧
    (supply.answerAll (calls.take k)).2.next ≤ (supply.answerAll calls).2.next := by
  obtain ⟨inside,rfl⟩ := List.getElem?_eq_some_iff.1 asked
  have long : (supply.answerAll (calls.take k)).1.length = k := by
    rw [length_answerAll,List.length_take_of_le (Nat.le_of_lt inside)]
  have apart := answerAll_append supply (calls.take k) (calls.drop k)
  rw [List.take_append_drop] at apart
  rw [apart]
  refine ⟨List.take_left' long,?_,next_le_answerAll _ _⟩
  rw [List.getElem?_append_right (Nat.le_of_eq long),long,Nat.sub_self,List.drop_eq_getElem_cons inside]
  rfl

theorem records_answerAll {calls : List Call} (few : steps calls < counterLimit) :
    Records calls (answerAll {} calls).1 (answerAll {} calls).2.indexed where
  distinct := nodup_answerAll calls List.nodup_nil
  owned r := List.mem_toFinset
  order := children_answerAll {} calls
  length := length_answerAll {} calls
  counter := (next_answerAll {} calls).trans (Nat.zero_add _)
  answered := by
    intro k c a asked given
    obtain ⟨before,here,earlier⟩ := answerAll_at {} asked
    cases here.symm.trans given
    -- The call is made to the supply that the calls in front of it leave.
    refine ⟨(answerAll {} (calls.take k)).2.indexed,?_,answers_indexed _ c⟩
    rw [before]
    exact (run_empty _).trans (if_pos (Nat.lt_of_le_of_lt earlier few))
  ends stem := attempts_search_le _ stem _

/-- Registers that are minted are new. A supply answers all calls, as the supply of a method
    does, exactly if the counter makes fewer steps than it has values; and what it holds then
    is in order. -/
theorem run_fresh (calls : List Call) : ((run {} calls).isSome = true ↔ steps calls < counterLimit) ∧
    (steps calls < counterLimit → ∃ answers s, run {} calls = some (answers,s) ∧ Records calls answers s ∧
      answers = (answerAll {} calls).1 ∧ s = (answerAll {} calls).2.indexed) := by
  refine ⟨?_,fun few => ?_⟩
  · rw [run_empty]
    by_cases few : steps calls < counterLimit
    · simp [few]
    · simp [few]
  · exact ⟨_,_,(run_empty calls).trans (if_pos few),records_answerAll few,rfl,rfl⟩

/-- Names that are taken already, one of them by a text that another beginning spells as well. -/
def overlapping : List Call :=
  [.adopt ⟨"t0001"⟩,.create,.create,.adopt ⟨"t0000"⟩,.adopt ⟨"t00003"⟩,.createWith ["t0"],.createWith ["ret","val"]]

/-- What the overlapping calls are answered. -/
def overlappingAnswers : List Answer :=
  [.adopted true,.minted ⟨"t0000"⟩ 1,.minted ⟨"t0002"⟩ 2,.adopted false,.adopted true,
    .minted ⟨"t00004"⟩ 2,.minted ⟨"ret$val0005"⟩ 1]

theorem run_fresh_overlapping : steps overlapping < counterLimit ∧
    ∃ s, run {} overlapping = some (overlappingAnswers,s) ∧ Records overlapping overlappingAnswers s := by
  have given : (answerAll {} overlapping).1 = overlappingAnswers := by decide +kernel
  have few : steps overlapping < counterLimit := by
    rw [steps,next_answerAll,given]
    decide
  obtain ⟨_,s,runs,records,rfl,-⟩ := (run_fresh overlapping).2 few
  rw [given] at runs records
  exact ⟨few,s,runs,records⟩

end IndexedSupply

end SparcBackend
