import Mathlib.Tactic.Common
import SparcBackend.Asm.Rendering

/-!
How the text of an instruction comes about. A template is read once, from left to right:
a slot with the index of an operand gives way to the text of the operand, and all else is
copied, slots without an operand among it (`Fills`). What is put in is not read. So
assigning registers while the text is made comes to the same as assigning them in the
operands before (`textWith_substitutes`).
-/
namespace SparcBackend

namespace Template
variable {operands : Source → List String} {source : Source} {cs digits rest text : List Char} {c : Char}

/-! ### The pieces of a template -/

/-- A slot begins: the mark, and behind it the letter of an operand list. -/
def Opens (cs : List Char) : Prop := ∃ source rest, cs = mark :: Source.letter source :: rest

/-- Digits end here. -/
def Stops (rest : List Char) : Prop := ∀ c ∈ rest.head?, c.isDigit = false

theorem stops_dropWhile (cs : List Char) : Stops (cs.dropWhile Char.isDigit) := by
  intro c first
  have ends := List.head?_dropWhile_not Char.isDigit cs
  rw [Option.mem_def.1 first] at ends
  exact ends

theorem isDigit_takeWhile (cs : List Char) : ∀ c ∈ cs.takeWhile Char.isDigit, c.isDigit = true :=
  List.all_eq_true.1 List.all_takeWhile

theorem letter_of_ofLetter? (is : Source.ofLetter? c = some source) : source.letter = c := by
  unfold Source.ofLetter? at is
  split at is <;> cases is <;> rfl

theorem letter_ne_mark (source : Source) : source.letter ≠ mark := by cases source <;> decide

theorem ofLetter?_letter (source : Source) : Source.ofLetter? source.letter = some source := by cases source <;> rfl

/-- What is attached in front is the character itself or the slot that it opens. -/
theorem attach_eq (c : Char) (more : List Piece) : attach c more = .char c :: more ∨
    ∃ source digits others, attach c more = .slot source digits :: others := by
  unfold attach
  split
  · split
    · split
      · exact .inr ⟨_,_,_,rfl⟩
      · exact .inl rfl
    · exact .inl rfl
  · exact .inl rfl

theorem attach_of_ne {more : List Piece} (plain : c ≠ mark) : attach c more = .char c :: more := if_neg plain

theorem pieces_cons : pieces (c :: rest) = attach c (pieces rest) := rfl

/-- What has no marks is no slot, whatever stands behind it. -/
theorem pieces_of_plain {front : List Char} (plain : mark ∉ front) (rest : List Char) :
    pieces (front ++ rest) = front.map .char ++ pieces rest := by
  induction front with
  | nil => rfl
  | cons c front ih =>
    obtain ⟨other,others⟩ := not_or.1 (mt List.mem_cons.2 plain)
    rw [List.cons_append,pieces_cons,attach_of_ne (Ne.symm other),ih others]
    rfl

theorem mark_not_mem (all : ∀ c ∈ digits, c.isDigit = true) : mark ∉ digits :=
  fun member => absurd (all mark member) (by decide)

/-- Where digits end in the template, they end in its pieces. -/
theorem leadingDigits_of_stops (stops : Stops rest) : leadingDigits (pieces rest) = [] := by
  cases rest with
  | nil => rfl
  | cons c rest =>
    rw [pieces_cons]
    rcases attach_eq c (pieces rest) with same | ⟨_,_,_,same⟩
    · rw [same,leadingDigits,stops c rfl]
      rfl
    · rw [same,leadingDigits]
      rintro _ _ ⟨⟩

theorem leadingDigits_pieces (all : ∀ c ∈ digits, c.isDigit = true) (stops : Stops rest) :
    leadingDigits (digits.map .char ++ pieces rest) = digits := by
  induction digits with
  | nil => exact leadingDigits_of_stops stops
  | cons c digits ih =>
    rw [List.map_cons,List.cons_append,leadingDigits,if_pos (all c List.mem_cons_self),
      ih fun x member => all x (List.mem_cons_of_mem c member)]

/-- A slot takes all digits that follow its letter. -/
theorem pieces_slot (source : Source) (all : ∀ c ∈ digits, c.isDigit = true) (stops : Stops rest) :
    pieces (mark :: source.letter :: (digits ++ rest)) = .slot source digits :: pieces rest := by
  rw [pieces_cons,pieces_cons,attach_of_ne (letter_ne_mark source),pieces_of_plain (mark_not_mem all)]
  simp only [attach,if_true,ofLetter?_letter,leadingDigits_pieces all stops]
  rw [List.drop_left' (List.length_map _)]

/-- The first piece is a character only where the template has it. -/
theorem head?_of_pieces {k : Char} {more : List Piece} (first : pieces rest = .char k :: more) :
    ∃ behind, rest = k :: behind := by
  cases rest with
  | nil => cases first
  | cons c rest =>
    rw [pieces_cons] at first
    rcases attach_eq c (pieces rest) with same | ⟨_,_,_,same⟩
    · rw [same] at first
      cases first
      exact ⟨rest,rfl⟩
    · rw [same] at first
      cases first

theorem pieces_of_not_opens (closed : ¬ Opens (c :: rest)) : pieces (c :: rest) = .char c :: pieces rest := by
  rw [pieces_cons]
  unfold attach
  split
  · rename_i marks
    split
    · rename_i k more first
      split
      · -- The first piece is the letter of a list, so the letter stands behind the mark.
        rename_i source letter
        obtain ⟨behind,rfl⟩ := head?_of_pieces first
        exact absurd ⟨source,behind,by rw [marks,letter_of_ofLetter? letter]⟩ closed
      · rfl
    · rfl
  · rfl

/-! ### Filling slots -/

/-- Digits that are the index of an operand. -/
structure Selects (operands : List String) (digits : List Char) (value : String) : Prop where
  nonempty : digits ≠ []
  small : Nat.ofDigitChars 10 digits 0 < indexLimit
  operand : operands[Nat.ofDigitChars 10 digits 0]? = some value

/-- Digits that are not: there are none, or their number is too large for an index, or it is
    out of range. -/
def Misses (operands : List String) (digits : List Char) : Prop :=
  digits = [] ∨ indexLimit ≤ Nat.ofDigitChars 10 digits 0 ∨ operands.length ≤ Nat.ofDigitChars 10 digits 0

theorem selects_or_misses (operands : List String) (digits : List Char) :
    (∃ value, Selects operands digits value) ∨ Misses operands digits := by
  by_cases none : digits = []
  · exact .inr (.inl none)
  · by_cases small : Nat.ofDigitChars 10 digits 0 < indexLimit
    · by_cases inside : Nat.ofDigitChars 10 digits 0 < operands.length
      · exact .inl ⟨_,none,small,List.getElem?_eq_getElem inside⟩
      · exact .inr (.inr (.inr (Nat.le_of_not_lt inside)))
    · exact .inr (.inr (.inl (Nat.le_of_not_lt small)))

theorem index?_eq (digits : List Char) : index? digits =
    if digits ≠ [] ∧ Nat.ofDigitChars 10 digits 0 < indexLimit then some (Nat.ofDigitChars 10 digits 0) else none := rfl

theorem fill_of_selects {value : String} (selects : Selects (operands source) digits value) :
    (Piece.slot source digits).fill operands = value.toList := by
  rw [Piece.fill,index?_eq,if_pos ⟨selects.nonempty,selects.small⟩,Option.bind_some,selects.operand]

theorem fill_of_misses (misses : Misses (operands source) digits) :
    (Piece.slot source digits).fill operands = mark :: source.letter :: digits := by
  have none : ((index? digits).bind fun n => (operands source)[n]?) = none := by
    rw [index?_eq]
    split
    · rename_i index
      rw [Option.bind_some,List.getElem?_eq_none_iff]
      rcases misses with empty | large | outside
      · exact absurd empty index.1
      · exact absurd index.2 (Nat.not_lt.2 large)
      · exact outside
    · rfl
  rw [Piece.fill,none]

/-- A template that is read from left to right, and the text that comes of it. -/
inductive Fills (operands : Source → List String) : List Char → List Char → Prop where
  | done : Fills operands [] []
  | copied {c : Char} {rest text : List Char} : ¬ Opens (c :: rest) → Fills operands rest text →
      Fills operands (c :: rest) (c :: text)
  | filled {source : Source} {digits rest text : List Char} {value : String} : (∀ c ∈ digits, c.isDigit = true) → Stops rest →
      Selects (operands source) digits value → Fills operands rest text →
      Fills operands (mark :: source.letter :: (digits ++ rest)) (value.toList ++ text)
  | kept {source : Source} {digits rest text : List Char} : (∀ c ∈ digits, c.isDigit = true) → Stops rest →
      Misses (operands source) digits → Fills operands rest text →
      Fills operands (mark :: source.letter :: (digits ++ rest)) (mark :: source.letter :: (digits ++ text))

theorem Fills.eq (fills : Fills operands cs text) : text = (pieces cs).flatMap (Piece.fill operands) := by
  induction fills with
  | done => rfl
  | copied closed _ ih =>
    rw [pieces_of_not_opens closed,List.flatMap_cons,← ih]
    rfl
  | filled all stops selects _ ih => rw [pieces_slot _ all stops,List.flatMap_cons,fill_of_selects selects,← ih]
  | kept all stops misses _ ih =>
    rw [pieces_slot _ all stops,List.flatMap_cons,fill_of_misses misses,← ih]
    rfl

/-- Every template can be read to its end. -/
theorem exists_fills (operands : Source → List String) : (cs : List Char) → ∃ text, Fills operands cs text
  | [] => ⟨[],.done⟩
  | c :: rest => by
    by_cases opens : Opens (c :: rest)
    · -- The reading goes on behind the digits of the slot.
      obtain ⟨source,behind,same⟩ := opens
      have shorter : (behind.dropWhile Char.isDigit).length < (c :: rest).length := by
        have := (List.dropWhile_sublist (l := behind) Char.isDigit).length_le
        simp only [same,List.length_cons]
        omega
      obtain ⟨text,fills⟩ := exists_fills operands (behind.dropWhile Char.isDigit)
      have all := isDigit_takeWhile behind
      have stops := stops_dropWhile behind
      rw [same,← List.takeWhile_append_dropWhile (p := Char.isDigit) (l := behind)]
      rcases selects_or_misses (operands source) (behind.takeWhile Char.isDigit) with ⟨value,selects⟩ | misses
      · exact ⟨_,.filled all stops selects fills⟩
      · exact ⟨_,.kept all stops misses fills⟩
    · obtain ⟨text,fills⟩ := exists_fills operands rest
      exact ⟨_,.copied opens fills⟩
termination_by cs => cs.length
decreasing_by
  · exact shorter
  · exact Nat.lt_succ_self rest.length

/-- The text of a filled template is what reading the template gives, and nothing else is. -/
theorem fills_iff {template : String} : Fills operands template.toList text ↔ text = (fill operands template).toList := by
  have same : (fill operands template).toList = (pieces template.toList).flatMap (Piece.fill operands) :=
    String.toList_ofList
  rw [same]
  constructor
  · exact Fills.eq
  · rintro rfl
    obtain ⟨text,fills⟩ := exists_fills operands template.toList
    exact fills.eq ▸ fills

/-- A template without slots stands for itself. -/
theorem fill_of_plain {template : String} (plain : mark ∉ template.toList) : fill operands template = template := by
  have same (cs : List Char) : (cs.map Piece.char).flatMap (Piece.fill operands) = cs := by
    induction cs with
    | nil => rfl
    | cons c rest ih => rw [List.map_cons,List.flatMap_cons,ih,Piece.fill,List.singleton_append]
  have whole : pieces template.toList = template.toList.map .char := by
    have apart := pieces_of_plain plain []
    rwa [List.append_nil,show pieces [] = [] from rfl,List.append_nil] at apart
  rw [fill,whole,same,String.ofList_toList]

end Template

namespace Instruction
open Template (Source Fills)
variable {i : Instruction} {text : String}

/-- The operands of an instruction by the lists that slots draw from. -/
def slotTexts (i : Instruction) : Source → List String
  | .read => i.uses.map Operand.text
  | .written => i.defs.map Operand.text
  | .jump => i.jumps.map Label.name

/-- A text that an instruction has, the note as it stands behind the filled template. -/
inductive Prints : Instruction → String → Prop where
  | label (name : Label) : Prints (.label name) (name.name ++ ":")
  | comment (remark : String) : Prints (.comment remark) ("! " ++ remark)
  | bare {i : Instruction} {template : String} {text : List Char} : i.template? = some template → i.note? = none →
      Fills i.slotTexts template.toList text → Prints i (String.ofList text)
  | noted {i : Instruction} {template note : String} {text : List Char} : i.template? = some template → i.note? = some note →
      Fills i.slotTexts template.toList text → Prints i (String.ofList text ++ " ! " ++ note)

theorem operandTexts_id (i : Instruction) : i.operandTexts id = i.slotTexts := by
  funext source
  cases source <;> simp [operandTexts,slotTexts]

theorem text_of_template {template : String} (has : i.template? = some template) :
    i.text = render.withRemark (Template.fill i.slotTexts template) i.note? := by
  rw [← operandTexts_id]
  cases i <;> cases has <;> rfl

/-- An instruction has exactly one text. -/
theorem prints_iff : i.Prints text ↔ i.text = text := by
  constructor
  · intro prints
    cases prints with
    | label name => rfl
    | comment remark => rfl
    | bare has unnoted fills =>
      rw [text_of_template has,unnoted,Template.fills_iff.1 fills,String.ofList_toList]
      rfl
    | noted has note fills =>
      rw [text_of_template has,note,Template.fills_iff.1 fills,String.ofList_toList]
      rfl
  · rintro rfl
    cases has : i.template? with
    | none =>
      cases i with
      | label name => exact .label name
      | comment remark => exact .comment remark
      | operation => cases has
      | move => cases has
    | some template =>
      have fills := Template.fills_iff.2 (rfl : (Template.fill i.slotTexts template).toList = _)
      rw [text_of_template has]
      cases note : i.note? with
      | none =>
        have prints := Prints.bare has note fills
        rwa [String.ofList_toList] at prints
      | some remark =>
        have prints := Prints.noted has note fills
        rwa [String.ofList_toList] at prints

/-- To assign registers before the text is made comes to the same as to assign them while
    it is made. -/
theorem text_mapRegisters (i : Instruction) (assign : Register → Register) : (i.mapRegisters assign).text = i.render assign := by
  have texts : (i.mapRegisters assign).operandTexts id = i.operandTexts assign := by
    funext source
    cases i <;> cases source <;> simp [operandTexts,mapRegisters,uses,defs,jumps]
  cases i with
  | operation template defs uses jumps note => exact congrArg (fun texts => render.withRemark (Template.fill texts template) note) texts
  | move template destination source note => exact congrArg (fun texts => render.withRemark (Template.fill texts template) note) texts
  | label => rfl
  | comment => rfl

/-- To give registers their names while the text is made comes to the same as to put the
    names into the slots and to make the text then; and that text is the template, read once
    from left to right, with the note behind it. -/
theorem textWith_substitutes (i : Instruction) (m : RegisterMap) :
    i.textWith (some m) = (i.mapRegisters m.resolve).textWith none ∧
    ((i.mapRegisters m.resolve).uses = i.uses.map (Operand.mapRegister m.resolve) ∧
      (i.mapRegisters m.resolve).defs = i.defs.map (Operand.mapRegister m.resolve) ∧
      (i.mapRegisters m.resolve).template? = i.template? ∧ (i.mapRegisters m.resolve).jumps = i.jumps ∧
      (i.mapRegisters m.resolve).note? = i.note?) ∧
    ∀ text, i.textWith (some m) = text ↔ (i.mapRegisters m.resolve).Prints text := by
  have same : i.textWith (some m) = (i.mapRegisters m.resolve).text := (text_mapRegisters i m.resolve).symm
  refine ⟨same,?_,fun text => ?_⟩
  · cases i <;> exact ⟨rfl,rfl,rfl,rfl,rfl⟩
  · rw [same,prints_iff]

/-- A name that looks like a slot is a name, and slots without an operand are not lost. -/
example : (Instruction.move "mov `s0, `d00, `s1, `d, `x" (.register ⟨"a"⟩) (.register ⟨"b"⟩) none).textWith
    (some ⟨[(⟨"b"⟩,⟨"`d0"⟩)]⟩) = "mov `d0, a, `s1, `d, `x" := rfl

end Instruction

end SparcBackend
