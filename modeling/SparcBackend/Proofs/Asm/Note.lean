import Mathlib.Data.List.Infix
import Mathlib.Tactic.Common
import SparcBackend.Asm.Instruction
import SparcBackend.Ir.Operator

/-!
The note of an instruction as it is meant: words, and operands that are mentioned. To
rename in the text of a note is to replace what is mentioned if the name occurs nowhere
else (`replaceAll_text_iff`). It occurs nowhere else in notes made of the words of the
instruction set if it stands out from them and from the other operands
(`Note.spares_of_isSpelt`).
-/
namespace SparcBackend

namespace Text
variable {pattern value front behind : List Char}

/-- No occurrence of the pattern begins in `front`, even if it ends in what stands behind. -/
def Avoids (pattern front behind : List Char) : Prop := ∀ rest, rest ≠ [] → rest <:+ front → ¬ pattern <+: rest ++ behind

theorem avoids_nil : Avoids pattern [] behind := fun _ some is => absurd (List.suffix_nil.1 is) some

theorem avoids_cons {c : Char} : Avoids pattern (c :: front) behind ↔
    ¬ pattern <+: c :: (front ++ behind) ∧ Avoids pattern front behind := by
  constructor
  · intro avoids
    exact ⟨avoids (c :: front) (List.cons_ne_nil _ _) List.suffix_rfl,
      fun rest some is => avoids rest some (is.trans (List.suffix_cons _ _))⟩
  · rintro ⟨first,later⟩ rest some is
    rcases List.suffix_cons_iff.1 is with rfl | is
    · exact first
    · exact later rest some is

/-- Whether the pattern occurs in a text. -/
def occurs (pattern text : List Char) : Bool := text.tails.any pattern.isPrefixOf

theorem occurs_iff {text : List Char} : occurs pattern text = true ↔ pattern <:+: text := by
  simp only [occurs,List.any_eq_true,List.mem_tails,List.isPrefixOf_iff_prefix,List.infix_iff_prefix_suffix]
  exact exists_congr fun _ => and_comm

theorem replaceFrom_drop (pattern value : List Char) (n : Nat) (text : List Char) :
    replaceFrom pattern value n text = replaceFrom pattern value 0 (text.drop n) := by
  induction text generalizing n with
  | nil => rw [List.drop_nil]; rfl
  | cons c text ih =>
    cases n with
    | zero => rfl
    | succ n => exact ih n

theorem replaceFrom_pattern (some : pattern ≠ []) (text : List Char) :
    replaceFrom pattern value 0 (pattern ++ text) = value ++ replaceFrom pattern value 0 text := by
  cases pattern with
  | nil => exact absurd rfl some
  | cons c pattern =>
    have occurs : (c :: pattern).isPrefixOf (c :: (pattern ++ text)) = true :=
      List.isPrefixOf_iff_prefix.2 (List.prefix_append (c :: pattern) text)
    rw [List.cons_append,replaceFrom,if_pos occurs,List.length_cons,Nat.add_sub_cancel,replaceFrom_drop,List.drop_left]

theorem replaceFrom_cons {c : Char} {text : List Char} (absent : ¬ pattern <+: c :: text) :
    replaceFrom pattern value 0 (c :: text) = c :: replaceFrom pattern value 0 text := by
  rw [replaceFrom,if_neg (mt List.isPrefixOf_iff_prefix.1 absent)]

theorem replaceFrom_avoids (avoids : Avoids pattern front behind) :
    replaceFrom pattern value 0 (front ++ behind) = front ++ replaceFrom pattern value 0 behind := by
  induction front with
  | nil => rfl
  | cons c front ih =>
    obtain ⟨absent,avoids⟩ := avoids_cons.1 avoids
    rw [List.cons_append,replaceFrom_cons absent,ih avoids,List.cons_append]

/-- What is put in place of an occurrence is seen at once if it begins otherwise. -/
theorem avoids_of_replaceFrom {c : Char} {text : List Char} (nonempty : pattern ≠ []) (begins : value.head? = some c)
    (other : pattern.head? ≠ some c)
    (same : replaceFrom pattern value 0 (front ++ behind) = front ++ text) : Avoids pattern front behind := by
  induction front with
  | nil => exact avoids_nil
  | cons a front ih =>
    obtain ⟨value,rfl⟩ : ∃ rest, value = c :: rest := List.head?_eq_some_iff.1 begins
    have absent : ¬ pattern <+: a :: (front ++ behind) := by
      intro occurs
      rw [List.cons_append,replaceFrom,if_pos (List.isPrefixOf_iff_prefix.2 occurs)] at same
      obtain rfl : c = a := (List.cons.inj same).1
      cases pattern with
      | nil => exact nonempty rfl
      | cons d pattern => exact other (congrArg some (List.cons_prefix_cons.1 occurs).1)
    rw [List.cons_append,replaceFrom_cons absent] at same
    exact avoids_cons.2 ⟨absent,ih (List.cons.inj same).2⟩

end Text

/-! ### Notes -/

/-- A piece of a note. -/
inductive NotePart where
  | word (text : String)
  | mention (operand : Operand)
deriving DecidableEq, Repr

def NotePart.chars : NotePart → List Char
  | word text => text.toList
  | mention operand => operand.text.toList

/-- A note as it is meant. -/
abbrev Note := List NotePart

namespace Note
variable {r : Register} {value note more : Note} {operands others : List Operand}

def chars (note : Note) : List Char := note.flatMap NotePart.chars

def text (note : Note) : String := String.ofList note.chars

@[simp] theorem chars_nil : chars [] = [] := rfl

@[simp] theorem chars_cons (part : NotePart) (note : Note) : chars (part :: note) = part.chars ++ note.chars := rfl

@[simp] theorem text_nil : text [] = "" := rfl

@[simp] theorem text_word (word : String) (note : Note) : text (.word word :: note) = word ++ note.text := by
  simp [text,NotePart.chars,String.ofList_append]

@[simp] theorem text_mention (operand : Operand) (note : Note) : text (.mention operand :: note) = operand.text ++ note.text := by
  simp [text,NotePart.chars,String.ofList_append]

theorem chars_append (note more : Note) : chars (note ++ more) = note.chars ++ more.chars := List.flatMap_append

/-- `value` in place of every mention of a register. -/
def replace (note : Note) (r : Register) (value : Note) : Note :=
  note.flatMap fun part => if part = .mention (.register r) then value else [part]

theorem replace_mention (note : Note) (r : Register) (value : Note) :
    replace (.mention (.register r) :: note) r value = value ++ note.replace r value := by
  rw [replace,List.flatMap_cons,if_pos rfl]
  rfl

theorem replace_other {part : NotePart} (other : part ≠ .mention (.register r)) (note value : Note) :
    replace (part :: note) r value = part :: note.replace r value := by
  rw [replace,List.flatMap_cons,if_neg other]
  rfl

/-- The name of a register occurs in the text of a note only where the register is mentioned. -/
def Spares (r : Register) : Note → Prop
  | [] => True
  | part :: note => (part = .mention (.register r) ∨ Text.Avoids r.name.toList part.chars (chars note)) ∧ Spares r note

theorem chars_mention (r : Register) : (NotePart.mention (.register r)).chars = r.name.toList := rfl

theorem replaceFrom_chars (named : r.name.toList ≠ []) (spares : note.Spares r) :
    Text.replaceFrom r.name.toList value.chars 0 note.chars = (note.replace r value).chars := by
  induction note with
  | nil => rfl
  | cons part note ih =>
    obtain ⟨here,later⟩ := spares
    by_cases mentioned : part = .mention (.register r)
    · rw [mentioned,chars_cons,chars_mention,Text.replaceFrom_pattern named,ih later,replace_mention,chars_append]
    · rw [chars_cons,Text.replaceFrom_avoids (here.resolve_left mentioned),ih later,replace_other mentioned,chars_cons]

theorem spares_of_replaceFrom {c : Char} (named : r.name.toList ≠ []) (begins : value.chars.head? = some c)
    (other : r.name.toList.head? ≠ some c)
    (same : Text.replaceFrom r.name.toList value.chars 0 note.chars = (note.replace r value).chars) : note.Spares r := by
  induction note with
  | nil => trivial
  | cons part note ih =>
    by_cases mentioned : part = .mention (.register r)
    · rw [mentioned,chars_cons,chars_mention,Text.replaceFrom_pattern named,replace_mention,chars_append] at same
      exact ⟨.inl mentioned,ih (List.append_cancel_left same)⟩
    · rw [replace_other mentioned,chars_cons,chars_cons] at same
      have avoids := Text.avoids_of_replaceFrom named begins other same
      rw [Text.replaceFrom_avoids avoids] at same
      exact ⟨.inr avoids,ih (List.append_cancel_left same)⟩

theorem replaceAll_text (named : r.name ≠ "") (spares : note.Spares r) :
    Text.replaceAll r.name value.text note.text = (note.replace r value).text := by
  have nonempty : r.name.toList ≠ [] := mt String.toList_eq_nil_iff.1 named
  rw [Text.replaceAll,if_neg (by simpa using named),text,text,String.toList_ofList,String.toList_ofList,
    replaceFrom_chars nonempty spares]
  rfl

/-- Renaming in the text does exactly what it should if the name occurs nowhere but in mentions, and
    otherwise does not, at least where the new text begins with another character. -/
theorem replaceAll_text_iff {c : Char} (named : r.name ≠ "") (begins : value.chars.head? = some c)
    (other : r.name.toList.head? ≠ some c) :
    Text.replaceAll r.name value.text note.text = (note.replace r value).text ↔ note.Spares r := by
  refine ⟨?_,replaceAll_text named⟩
  intro same
  have nonempty : r.name.toList ≠ [] := mt String.toList_eq_nil_iff.1 named
  rw [Text.replaceAll,if_neg (by simpa using named),text,text,text,String.toList_ofList,String.toList_ofList,
    ← String.toList_inj,String.toList_ofList,String.toList_ofList] at same
  exact spares_of_replaceFrom nonempty begins other same

/-! ### Notes in the words of the instruction set -/

/-- What a word ends with, and begins with behind a mention. -/
def isDelimiter (c : Char) : Bool := [' ','(',')',',','&'].contains c

/-- The words of notes that mention operands. -/
def words : List String :=
  ["(",")","*(",", "," -> ",") -> "," -> *(","&","compare ("] ++ BinaryOp.all.map fun op => s!" {op.symbol} "

theorem ends_of_mem_words {word : String} (member : word ∈ words) : ∃ c ∈ word.toList.getLast?, isDelimiter c = true := by
  have all : words.all (fun word => word.toList.getLast?.any isDelimiter) = true := rfl
  have ends := List.all_eq_true.1 all word member
  exact (Option.any_eq_true _ _).1 ends

/-- A mention may stand in front of the note. -/
def IsApart : Note → Prop
  | [] => True
  | .word text :: _ => ∃ c ∈ text.toList.head?, isDelimiter c = true
  | .mention _ :: _ => False

/-- A note that is made of the words and mentions some of the operands. -/
def IsSpelt (operands : List Operand) : Note → Prop
  | [] => True
  | .word text :: note => text ∈ words ∧ IsSpelt operands note
  | .mention operand :: note => operand ∈ operands ∧ IsApart note ∧ IsSpelt operands note

/-- The name of a register is neither part of a word nor of another operand. -/
structure StandsOut (r : Register) (operands : List Operand) : Prop where
  named : r.name ≠ ""
  plain : ∀ c ∈ r.name.toList, isDelimiter c = false
  words : ∀ word ∈ words, ¬ r.name.toList <:+: word.toList
  operands : ∀ operand ∈ operands, r.name.toList <:+: operand.text.toList → operand = .register r

instance (r : Register) (operands : List Operand) : Decidable (StandsOut r operands) :=
  decidable_of_iff ((!r.name.isEmpty && r.name.toList.all (fun c => !isDelimiter c) &&
      words.all (fun word => !Text.occurs r.name.toList word.toList) &&
      operands.all fun operand => !Text.occurs r.name.toList operand.text.toList || operand.isRegister r) = true) <| by
    simp only [Bool.and_eq_true,List.all_eq_true,Bool.not_eq_true',Bool.or_eq_true,← Bool.not_eq_true,Text.occurs_iff,
      Operand.isRegister,decide_eq_true_eq,String.isEmpty_iff]
    constructor
    · rintro ⟨⟨⟨named,plain⟩,words⟩,operands⟩
      exact ⟨named,fun c member => by simpa using plain c member,words,
        fun operand member occurs => (operands operand member).resolve_left (not_not_intro occurs)⟩
    · intro stands
      refine ⟨⟨⟨stands.named,fun c member => by simp [stands.plain c member]⟩,stands.words⟩,?_⟩
      intro operand member
      by_cases occurs : r.name.toList <:+: operand.text.toList
      · exact .inr (stands.operands operand member occurs)
      · exact .inl occurs

theorem IsSpelt.mono (spelt : note.IsSpelt operands) (sub : operands ⊆ others) : note.IsSpelt others := by
  induction note with
  | nil => trivial
  | cons part note ih =>
    cases part with
    | word => exact ⟨spelt.1,ih spelt.2⟩
    | mention => exact ⟨sub spelt.1,spelt.2.1,ih spelt.2.2⟩

theorem IsApart.append (apart : note.IsApart) (behind : more.IsApart) : IsApart (note ++ more) := by
  cases note with
  | nil => exact behind
  | cons part =>
    cases part with
    | word | mention => exact apart

theorem IsApart.isDelimiter_head {c : Char} (apart : note.IsApart) (first : c ∈ note.chars.head?) : isDelimiter c = true := by
  cases note with
  | nil => cases first
  | cons part note =>
    cases part with
    | word text =>
      obtain ⟨d,head,delimiter⟩ := apart
      rw [chars_cons,NotePart.chars,List.head?_append,Option.mem_def.1 head] at first
      cases first
      exact delimiter
    | mention => exact apart.elim

theorem IsSpelt.append (spelt : note.IsSpelt operands) (behind : more.IsSpelt operands) (apart : more.IsApart) :
    IsSpelt operands (note ++ more) := by
  induction note with
  | nil => exact behind
  | cons part note ih =>
    cases part with
    | word => exact ⟨spelt.1,ih spelt.2⟩
    | mention => exact ⟨spelt.1,spelt.2.1.append apart,ih spelt.2.2⟩

theorem IsApart.replace (apart : note.IsApart) (r : Register) (value : Note) : (note.replace r value).IsApart := by
  cases note with
  | nil => trivial
  | cons part note =>
    cases part with
    | word text =>
      have other : NotePart.word text ≠ .mention (.register r) := by simp
      rw [replace_other other]
      exact apart
    | mention => exact apart.elim

/-- A note stays one when what is put in place of a mention is one. -/
theorem IsSpelt.replace (spelt : note.IsSpelt operands) (r : Register) (meant : value.IsSpelt operands) :
    (note.replace r value).IsSpelt operands := by
  induction note with
  | nil => trivial
  | cons part note ih =>
    by_cases mentioned : part = .mention (.register r)
    · subst mentioned
      rw [replace_mention]
      exact meant.append (ih spelt.2.2) (spelt.2.1.replace r value)
    · rw [replace_other mentioned]
      cases part with
      | word => exact ⟨spelt.1,ih spelt.2⟩
      | mention => exact ⟨spelt.1,spelt.2.1.replace r value,ih spelt.2.2⟩

/-- An occurrence that begins in a text ends in it, or else holds the rest of it and goes on behind. -/
theorem prefix_or_of_prefix_append {name rest behind : List Char} (occurs : name <+: rest ++ behind) :
    name <+: rest ∨ rest <+: name ∧ ∃ c ∈ behind.head?, c ∈ name := by
  obtain ⟨more,is⟩ := occurs
  rcases List.append_eq_append_iff.1 is with ⟨left,rfl,-⟩ | ⟨beyond,rfl,rfl⟩
  · exact .inl (List.prefix_append _ _)
  · cases beyond with
    | nil => exact .inl (by simp)
    | cons c beyond => exact .inr ⟨List.prefix_append _ _,c,rfl,by simp⟩

/-- A name that stands out occurs nowhere but where its register is mentioned: it crosses no border,
    since on one side of each there is a delimiter. -/
theorem spares_of_isSpelt (stands : StandsOut r operands) (spelt : note.IsSpelt operands) : note.Spares r := by
  induction note with
  | nil => trivial
  | cons part note ih =>
    cases part with
    | word text =>
      refine ⟨.inr ?_,ih spelt.2⟩
      intro rest some is occurs
      rcases prefix_or_of_prefix_append occurs with within | ⟨whole,-⟩
      · exact stands.words text spelt.1 (within.isInfix.trans is.isInfix)
      · obtain ⟨c,last,delimiter⟩ := ends_of_mem_words spelt.1
        have member : c ∈ rest := by
          obtain ⟨front,split⟩ := is
          rw [NotePart.chars] at split
          rw [← split,List.getLast?_append_of_ne_nil _ some] at last
          exact List.mem_of_getLast? last
        exact Bool.noConfusion ((stands.plain c (whole.subset member)).symm.trans delimiter)
    | mention operand =>
      refine ⟨?_,ih spelt.2.2⟩
      by_cases mentioned : operand = .register r
      · exact .inl (congrArg _ mentioned)
      · right
        intro rest some is occurs
        rcases prefix_or_of_prefix_append occurs with within | ⟨-,c,first,member⟩
        · exact mentioned (stands.operands operand spelt.1 (within.isInfix.trans is.isInfix))
        · exact Bool.noConfusion ((stands.plain c member).symm.trans (spelt.2.1.isDelimiter_head first))

end Note

/-! ### Instructions -/

namespace Instruction

/-- The slots of a line, written ones first. -/
def operands (i : Instruction) : List Operand := i.defs ++ i.uses

theorem note?_withNote {i : Instruction} (isOperation : i.isMarker = false) (note : String) :
    (i.withNote note).note? = some note := by
  cases i with
  | operation | move => rfl
  | label | comment => cases isOperation

theorem note?_renameInNote (old value : String) (i : Instruction) :
    (i.renameInNote old value).note? = i.note?.map (Text.replaceAll old value) := by
  cases i <;> rfl

@[simp] theorem note?_withUses (i : Instruction) (uses : List Operand) : (i.withUses uses).note? = i.note? := by
  unfold withUses
  split <;> rfl

@[simp] theorem note?_withDefs (i : Instruction) (defs : List Operand) : (i.withDefs defs).note? = i.note? := by
  unfold withDefs
  split <;> rfl

theorem uses_withUses_subset (i : Instruction) (uses : List Operand) : (i.withUses uses).uses ⊆ i.uses ++ uses := by
  unfold withUses
  split
  · exact List.subset_append_right _ _
  · exact List.subset_append_right _ _
  · exact List.subset_append_left _ _

theorem defs_withDefs_subset (i : Instruction) (defs : List Operand) : (i.withDefs defs).defs ⊆ i.defs ++ defs := by
  unfold withDefs
  split
  · exact List.subset_append_right _ _
  · exact List.subset_append_right _ _
  · exact List.subset_append_left _ _

end Instruction

end SparcBackend
