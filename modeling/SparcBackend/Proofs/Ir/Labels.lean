import Mathlib.Algebra.Group.Nat.Defs
import Mathlib.Data.List.Nodup
import Mathlib.Tactic.Common
import SparcBackend.Proofs.Ir.Freshness

/-!
Labels that one supply mints. Every label has a number of its own, but the number stands
behind a free-form text. Two labels are the same exactly if the later number ends in the
characters of the earlier one and its leading digits stand at the end of the earlier text
(`numbered_eq_iff`). So the first ten thousand labels are distinct, and so are all labels
whose texts do not continue each other with a number.
-/
namespace SparcBackend

namespace Name
variable {m n : Nat}

/-- The number of characters that a number takes in a name. -/
def width (n : Nat) : Nat := (fourDigits n).toList.length

theorem four_le_width (n : Nat) : 4 ≤ width n := by
  simp only [width,fourDigits,String.toList_ofList,List.leftpad,List.length_append,List.length_replicate]
  omega

theorem isDigit_of_mem_fourDigits {c : Char} (member : c ∈ (fourDigits n).toList) : c.isDigit = true := by
  simp only [fourDigits,String.toList_ofList,List.leftpad,List.mem_append,List.mem_replicate] at member
  rcases member with ⟨-,rfl⟩ | digit
  · decide
  · exact Nat.isDigit_of_mem_toDigits (by omega) (Nat.le_refl 10) digit

theorem digitChar_of_isDigit {c : Char} (digit : c.isDigit = true) : c.toNat - '0'.toNat < 10 ∧ Nat.digitChar (c.toNat - '0'.toNat) = c := by
  have bounds : 48 ≤ c.toNat ∧ c.toNat ≤ 57 := by
    simp only [Char.isDigit,Bool.and_eq_true,decide_eq_true_eq] at digit
    exact digit
  have zero : '0'.toNat = 48 := rfl
  refine ⟨by omega,Char.toNat_inj.1 ?_⟩
  rw [Nat.toNat_digitChar_of_lt_ten (by omega)]
  omega

/-- Digits that are read behind a number stand behind its own digits. -/
theorem toDigits_ofDigitChars {cs : List Char} (digits : ∀ c ∈ cs, c.isDigit = true) {d : Nat} (some : 0 < d) :
    Nat.toDigits 10 (Nat.ofDigitChars 10 cs d) = Nat.toDigits 10 d ++ cs := by
  induction cs generalizing d with
  | nil => simp
  | cons c rest ih =>
    obtain ⟨small,is⟩ := digitChar_of_isDigit (digits c List.mem_cons_self)
    calc Nat.toDigits 10 (Nat.ofDigitChars 10 (c :: rest) d)
      _ = Nat.toDigits 10 (10 * d + (c.toNat - '0'.toNat)) ++ rest := by
        rw [Nat.ofDigitChars_cons,ih (fun x member => digits x (List.mem_cons_of_mem c member)) (by omega)]
      _ = (Nat.toDigits 10 d ++ [c]) ++ rest := by
        rw [← Nat.toDigits_append_toDigits (by omega) some small,Nat.toDigits_of_lt_base small,is]
      _ = Nat.toDigits 10 d ++ c :: rest := List.append_assoc _ _ _

/-- A number with further digits in front. -/
theorem ofDigitChars_behind (d m : Nat) : Nat.ofDigitChars 10 (fourDigits m).toList d = d * 10 ^ width m + m := by
  rw [Nat.ofDigitChars_eq_ofDigitChars_zero,ofDigitChars_fourDigits,Nat.mul_comm,width]

theorem eq_of_fourDigits {front : List Char} (digits : (fourDigits n).toList = front ++ (fourDigits m).toList) :
    n = Nat.ofDigitChars 10 front 0 * 10 ^ width m + m := by
  rw [← ofDigitChars_behind,← Nat.ofDigitChars_append,← digits,ofDigitChars_fourDigits]

theorem fourDigits_behind {d : Nat} (some : 0 < d) (m : Nat) :
    (fourDigits (d * 10 ^ width m + m)).toList = Nat.toDigits 10 d ++ (fourDigits m).toList := by
  have digits := toDigits_ofDigitChars (fun _ member => isDigit_of_mem_fourDigits (n := m) member) some
  rw [ofDigitChars_behind] at digits
  have long : 4 - (Nat.toDigits 10 d ++ (fourDigits m).toList).length = 0 := by
    have := four_le_width m
    rw [List.length_append,← width]
    omega
  rw [fourDigits,String.toList_ofList,digits,List.leftpad,long]
  rfl

/-- Two names with different numbers are the same exactly if the later number has the
    earlier one at its end, as it is written, and goes on to the left as the stem does. -/
theorem numbered_eq_iff (s t : String) (lt : m < n) :
    numbered s m = numbered t n ↔ ∃ d, n = d * 10 ^ width m + m ∧ s = t ++ toString d := by
  simp only [← String.toList_inj,numbered,String.toList_append,Nat.toString_eq_ofList_toDigits,String.toList_ofList]
  constructor
  · intro same
    rcases List.append_eq_append_iff.1 same with ⟨front,-,digits⟩ | ⟨front,stem,digits⟩
    · have value := eq_of_fourDigits digits
      omega
    · have value := eq_of_fourDigits digits
      have some : 0 < Nat.ofDigitChars 10 front 0 := by
        by_contra none
        rw [Nat.eq_zero_of_not_pos none] at value
        omega
      refine ⟨_,value,?_⟩
      rw [value,fourDigits_behind some] at digits
      rw [stem,List.append_cancel_right digits]
  · rintro ⟨d,rfl,stem⟩
    have some : 0 < d := by
      by_contra none
      rw [Nat.eq_zero_of_not_pos none] at lt
      omega
    rw [stem,fourDigits_behind some,List.append_assoc]

theorem ends_in_digit (stem : String) (d : Nat) : (stem ++ toString d).toList.getLast?.any Char.isDigit = true := by
  have some := List.getLast?_eq_some_getLast (Nat.toDigits_ne_nil (n := d) (b := 10))
  simp only [String.toList_append,Nat.toString_eq_ofList_toDigits,String.toList_ofList,List.getLast?_append,some,
    Option.some_or,Option.any_some]
  exact Nat.isDigit_of_mem_toDigits (by omega) (Nat.le_refl 10) (List.getLast_mem _)

end Name

namespace LabelSupply
variable {supply : LabelSupply} {requests : List (List String)} {k : Nat}

/-- The labels that are minted one after the other, each from the parts of its name. -/
def createAll (supply : LabelSupply) : List (List String) → List Label
  | [] => []
  | parts :: rest => (supply.create parts).1 :: createAll (supply.create parts).2 rest

/-- The counter goes on by one with each label. -/
theorem getElem?_createAll (supply : LabelSupply) (requests : List (List String)) (k : Nat) :
    (supply.createAll requests)[k]? = requests[k]?.map fun parts => ⟨Name.numbered (Name.qualified parts) (supply.next+k)⟩ := by
  induction requests generalizing supply k with
  | nil => rfl
  | cons parts rest ih =>
    cases k with
    | zero => rfl
    | succ k =>
      have next : (supply.create parts).2.next + k = supply.next + (k+1) := by
        show supply.next + 1 + k = _
        omega
      rw [createAll,List.getElem?_cons_succ,ih,next,List.getElem?_cons_succ]

theorem length_createAll (supply : LabelSupply) (requests : List (List String)) :
    (supply.createAll requests).length = requests.length := by
  induction requests generalizing supply with
  | nil => rfl
  | cons parts rest ih => rw [createAll,List.length_cons,ih,List.length_cons]

/-- Requests for the labels with the numbers `m` and, later, `n` that get the same name. -/
def Collide (parts later : List String) (m n : Nat) : Prop :=
  ∃ d, n = d * 10 ^ Name.width m + m ∧ Name.qualified parts = Name.qualified later ++ toString d

theorem nodup_createAll_iff (supply : LabelSupply) (requests : List (List String)) : (supply.createAll requests).Nodup ↔
    ∀ i j parts later, i < j → requests[i]? = some parts → requests[j]? = some later → ¬ Collide parts later (supply.next+i) (supply.next+j) := by
  have apart {i j : Nat} {parts later : List String} (lt : i < j) (here : requests[i]? = some parts) (there : requests[j]? = some later) :
      (supply.createAll requests)[i]? = (supply.createAll requests)[j]? ↔ Collide parts later (supply.next+i) (supply.next+j) := by
    rw [getElem?_createAll,getElem?_createAll,here,there,Collide,← Name.numbered_eq_iff _ _ (Nat.add_lt_add_left lt _)]
    simp
  rw [List.nodup_iff_getElem?_ne_getElem?]
  constructor
  · intro distinct i j parts later lt here there collide
    have inside := (List.getElem?_eq_some_iff.1 there).1
    exact distinct i j lt (by rwa [length_createAll]) ((apart lt here there).2 collide)
  · intro apart' i j lt inside same
    rw [length_createAll] at inside
    have here : requests[i]? = some requests[i] := List.getElem?_eq_getElem (Nat.lt_trans lt inside)
    have there : requests[j]? = some requests[j] := List.getElem?_eq_getElem inside
    exact apart' i j _ _ lt here there ((apart lt here there).1 same)

/-- Labels of one supply are distinct exactly if no two requests collide. No number below
    ten thousand collides with a smaller one, and a text that does not end in a digit
    collides with no later one. -/
theorem createAll_distinct (supply : LabelSupply) (requests : List (List String)) :
    ((supply.createAll requests).Nodup ↔
      ∀ i j parts later, i < j → requests[i]? = some parts → requests[j]? = some later → ¬ Collide parts later (supply.next+i) (supply.next+j)) ∧
    (supply.next + requests.length ≤ 10000 → (supply.createAll requests).Nodup) ∧
    ((∀ parts ∈ requests, ¬ (Name.qualified parts).toList.getLast?.any Char.isDigit) → (supply.createAll requests).Nodup) := by
  refine ⟨nodup_createAll_iff supply requests,fun few => ?_,fun texts => ?_⟩
  · refine (nodup_createAll_iff supply requests).2 ?_
    rintro i j parts later lt - there ⟨d,beyond,-⟩
    have inside := (List.getElem?_eq_some_iff.1 there).1
    have place : 10 ^ 4 ≤ 10 ^ Name.width (supply.next+i) := Nat.pow_le_pow_right (by omega) (Name.four_le_width _)
    cases d with
    | zero => omega
    | succ d =>
      rw [Nat.succ_mul] at beyond
      omega
  · refine (nodup_createAll_iff supply requests).2 ?_
    rintro i j parts later - here - ⟨d,-,stem⟩
    exact texts parts (List.mem_of_getElem? here) (stem ▸ Name.ends_in_digit _ d)

theorem createAll_distinct_branches :
    (0 + [["if","then"],["if1"],["while"]].length ≤ 10000 ∧ (createAll {} [["if","then"],["if1"],["while"]]).Nodup) ∧
    (∀ parts ∈ [["if","then"],["if","else"],["while"]], ¬ (Name.qualified parts).toList.getLast?.any Char.isDigit) ∧
      (createAll { next := 9999 } [["if","then"],["if","else"],["while"]]).Nodup := by
  have texts : ∀ parts ∈ [["if","then"],["if","else"],["while"]], ¬ (Name.qualified parts).toList.getLast?.any Char.isDigit := by
    decide +kernel
  exact ⟨⟨by decide,(createAll_distinct {} _).2.1 (by decide)⟩,texts,(createAll_distinct _ _).2.2 texts⟩

/-- The text of the first request ends in the digit that the last number begins with. -/
def continued : List (List String) := ["if1"] :: List.replicate 9999 ["x"] ++ [["if"]]

theorem not_createAll_distinct_continued : continued.length < 4294967296 ∧ ¬ (createAll {} continued).Nodup := by
  refine ⟨by decide +kernel,fun distinct => ?_⟩
  have last : continued[10000]? = some ["if"] := by decide +kernel
  refine (nodup_createAll_iff {} continued).1 distinct 0 10000 ["if1"] ["if"] (by omega) rfl last ⟨1,?_,?_⟩
  · decide +kernel
  · decide +kernel

end LabelSupply

end SparcBackend
