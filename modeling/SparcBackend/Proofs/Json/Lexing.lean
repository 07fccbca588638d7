import Mathlib.Data.List.TakeWhile
import Mathlib.Tactic.Common
import SparcBackend.Json.Parser
import SparcBackend.Json.Printer

/-!
A written value is cut into the tokens of that value, wherever a layout puts blanks between them.
Words end only where something follows that delimits them, so a text is taken to spell its tokens
in front of any such continuation.
-/
namespace SparcBackend.Json

mutual

/-- The tokens of a value in the order in which they are written. -/
def tokens : Json → List Token
  | .null => [.null]
  | .bool b => [.bool b]
  | .number n => [.number n]
  | .string text => [.string text]
  | .array [] => [.openArray,.closeArray]
  | .array (item :: items) => .openArray :: item.tokens ++ itemTokens items ++ [.closeArray]
  | .object [] => [.openObject,.closeObject]
  | .object ((key,value) :: members) =>
    .openObject :: .string key :: .colon :: value.tokens ++ memberTokens members ++ [.closeObject]

/-- The tokens of the items behind the first. -/
def itemTokens : List Json → List Token
  | [] => []
  | item :: items => .comma :: item.tokens ++ itemTokens items

/-- The tokens of the members behind the first. -/
def memberTokens : List (Option String × Json) → List Token
  | [] => []
  | (key,value) :: members => .comma :: .string key :: .colon :: value.tokens ++ memberTokens members

end

variable {c : Char} {t : Token} {l : Lexing} {before ts us : List Token} {text first second rest : List Char}

/-! ### Spelling -/

/-- Whether a character ends the word in front of it. -/
def isDelimiter (c : Char) : Bool := isBlank c || c == '"' || (punctuation? c).isSome

/-- A text in front of which a word ends. -/
def Delimited (text : List Char) : Prop := ∀ c ∈ text.head?, isDelimiter c = true

/-- The tokens that a lexer finds in a text that ends there. -/
def Lexing.run (l : Lexing) (text : List Char) : Option (List Token) := do (← text.foldlM Lexing.step l).finish

/-- In front of anything that ends a word, `text` is read as `ts`. -/
def Spells (text : List Char) (ts : List Token) : Prop :=
  ∀ before rest, Delimited rest → Lexing.run { tokens := before } (text ++ rest) = Lexing.run { tokens := ts.reverse ++ before } rest

/-- In front of anything at all, `text` is read as `ts`. -/
def Closes (text : List Char) (ts : List Token) : Prop :=
  ∀ before rest, Lexing.run { tokens := before } (text ++ rest) = Lexing.run { tokens := ts.reverse ++ before } rest

theorem Delimited.nil : Delimited [] := by simp [Delimited]

theorem Delimited.append (one : Delimited first) (two : Delimited second) : Delimited (first ++ second) := by
  cases first with
  | nil => exact two
  | cons c _ => simpa [Delimited] using one

theorem Delimited.cons (delimits : isDelimiter c = true) : Delimited (c :: text) := by simpa [Delimited] using delimits

theorem Closes.spells (closes : Closes text ts) : Spells text ts := fun before rest _ => closes before rest

theorem Closes.append (one : Closes first ts) (two : Closes second us) : Closes (first ++ second) (ts ++ us) := by
  intro before rest
  rw [List.append_assoc,one,two,List.reverse_append,List.append_assoc]

theorem Closes.then_spells (one : Closes first ts) (two : Spells second us) : Spells (first ++ second) (ts ++ us) := by
  intro before rest follows
  rw [List.append_assoc,one,two _ _ follows,List.reverse_append,List.append_assoc]

theorem Spells.append (one : Spells first ts) (two : Spells second us) (delimited : Delimited second) :
    Spells (first ++ second) (ts ++ us) := by
  intro before rest follows
  rw [List.append_assoc,one _ _ (delimited.append follows),two _ _ follows,List.reverse_append,List.append_assoc]

theorem Spells.tokens? (spells : Spells text ts) : tokens? text = some ts := by
  have all := spells [] [] .nil
  rw [List.append_nil] at all
  refine Eq.trans all ?_
  simp [Lexing.run,Lexing.finish]

theorem run_cons : l.run (c :: rest) = (l.step c).bind fun l' => l'.run rest := by
  simp only [Lexing.run,List.foldlM_cons,Option.bind_eq_bind,Option.bind_assoc]

/-- A finished word and no word at all are the same to what delimits it. -/
theorem run_finished (finished : l.finish = some ts.reverse) (follows : Delimited rest) :
    l.run rest = Lexing.run { tokens := ts } rest := by
  cases rest with
  | nil => simpa [Lexing.run,Lexing.finish] using finished
  | cons c rest =>
    have ends : isDelimiter c = true := by simpa [Delimited] using follows
    suffices same : l.step c = Lexing.step { tokens := ts } c by rw [run_cons,run_cons,same]
    obtain ⟨place,found⟩ := l
    cases place with
    | outside =>
      have same : found = ts := by simpa [Lexing.finish] using finished
      rw [same]
    | word letters =>
      obtain ⟨t,word,same⟩ : ∃ t, wordToken? letters.reverse = some t ∧ t :: found = ts := by
        obtain ⟨t,word,same⟩ := Option.map_eq_some_iff.mp finished
        exact ⟨t,word,List.reverse_inj.mp same⟩
      have reads : (delimiter? ts c).isSome = true := by
        unfold delimiter?
        simp only [isDelimiter,Bool.or_eq_true] at ends
        grind
      have reads := Option.some_get reads
      simp only [isDelimiter] at ends
      simp only [Lexing.step,ends,if_true,word,Option.bind_eq_bind,Option.bind_some,same]
      rw [← reads,Option.getD_some]
    | _ => simp [Lexing.finish] at finished

/-! ### Blanks and punctuation -/

theorem closes_nil : Closes [] [] := fun _ _ => rfl

theorem closes_blanks (blank : ∀ c ∈ text, isBlank c = true) : Closes text [] := by
  induction text with
  | nil => exact closes_nil
  | cons c text ih =>
    intro before rest
    have skips : Lexing.step { tokens := before } c = some { tokens := before } := by
      simp [Lexing.step,delimiter?,blank c (by simp)]
    rw [List.cons_append,run_cons,skips]
    exact ih (fun c among => blank c (List.mem_cons_of_mem _ among)) before rest

theorem closes_punctuation (spells : punctuation? c = some t) : Closes [c] [t] := by
  intro before rest
  have plain : isBlank c = false ∧ (c == '"') = false := by
    unfold punctuation? at spells
    split at spells <;> first | (constructor <;> decide) | cases spells
  have reads : Lexing.step { tokens := before } c = some { tokens := t :: before } := by
    simp [Lexing.step,delimiter?,plain,spells]
  rw [List.singleton_append,run_cons,reads]
  rfl

/-! ### Words -/

theorem foldlM_word (letters : List Char) (before : List Token) (inside : ∀ c ∈ text, isDelimiter c = false) :
    text.foldlM Lexing.step { place := .word letters,tokens := before }
      = some { place := .word (text.reverse ++ letters),tokens := before } := by
  induction text generalizing letters with
  | nil => rfl
  | cons c text ih =>
    have goes : Lexing.step { place := .word letters,tokens := before } c = some { place := .word (c :: letters),tokens := before } := by
      have ends := inside c (by simp)
      simp only [isDelimiter] at ends
      simp [Lexing.step,ends]
    rw [List.foldlM_cons,goes]
    simpa using ih (c :: letters) fun c among => inside c (List.mem_cons_of_mem _ among)

theorem spells_word (word : wordToken? text = some t) (inside : ∀ c ∈ text, isDelimiter c = false) : Spells text [t] := by
  intro before rest follows
  cases text with
  | nil => cases word
  | cons c text =>
    have starts : Lexing.step { tokens := before } c = some { place := .word [c],tokens := before } := by
      have ends := inside c (by simp)
      simp only [isDelimiter,Bool.or_eq_false_iff,Option.isSome_eq_false_iff,Option.isNone_iff_eq_none] at ends
      simp [Lexing.step,delimiter?,ends]
    have goes := foldlM_word [c] before fun c among => inside c (List.mem_cons_of_mem _ among)
    have run : Lexing.run { tokens := before } (c :: text ++ rest)
        = Lexing.run { place := .word (text.reverse ++ [c]),tokens := before } rest := by
      simp only [Lexing.run,List.cons_append,List.foldlM_cons,List.foldlM_append,starts,goes,Option.bind_eq_bind,Option.bind_some]
    rw [run]
    refine run_finished ?_ follows
    simp [Lexing.finish,word]

/-! ### Numbers -/

/-- What makes the text of a number a word that is read as that number. -/
structure Number.IsNumeral (n : Number) : Prop where
  word : wordToken? n.text.toList = some (.number n)
  inside : ∀ c ∈ n.text.toList, isDelimiter c = false

theorem toList_toString (n : Nat) : (toString n).toList = Nat.toDigits 10 n := by
  rw [Nat.toString_eq_ofList_toDigits,String.toList_ofList]

theorem isDigit_of_mem (n : Nat) : ∀ c ∈ Nat.toDigits 10 n, c.isDigit = true :=
  fun _ => Nat.isDigit_of_mem_toDigits (by decide) (by decide)

theorem isDelimiter_of_isDigit (digit : c.isDigit = true) : isDelimiter c = false := by
  have apart : ∀ d, d.isDigit = false → c ≠ d := by
    rintro d other rfl
    rw [digit] at other
    cases other
  have punctuation : punctuation? c = none := by
    unfold punctuation?
    split <;> first | rfl | cases digit
  simp [isDelimiter,isBlank,punctuation,apart ' ' (by decide),apart '\n' (by decide),apart '\t' (by decide),
    apart '\r' (by decide),apart '"' (by decide)]

theorem digitsValue_toDigits (n : Nat) : digitsValue (Nat.toDigits 10 n) = n := by
  unfold digitsValue
  rw [← Nat.ofDigitChars_eq_foldl]
  exact Nat.ofDigitChars_ten_toDigits

/-- No positive number is written with a zero in front. -/
theorem toDigits_head {n : Nat} (positive : 0 < n) : ∃ c rest, Nat.toDigits 10 n = c :: rest ∧ c ≠ '0' := by
  induction n using Nat.strongRecOn with
  | ind n ih =>
    rw [Nat.toDigits_eq_if (by decide)]
    by_cases small : n < 10
    · rw [if_pos small]
      refine ⟨n.digitChar,[],rfl,?_⟩
      have nonzero : ∀ d < 10, 0 < d → Nat.digitChar d ≠ '0' := by decide
      exact nonzero n small positive
    · obtain ⟨c,rest,front,nonzero⟩ := ih (n / 10) (by omega) (by omega)
      rw [if_neg small,front]
      exact ⟨c,rest ++ [(n % 10).digitChar],rfl,nonzero⟩

theorem isIntegerPart_toDigits (n : Nat) : isIntegerPart (Nat.toDigits 10 n) = true := by
  by_cases zero : n = 0
  · rw [zero,Nat.toDigits_zero]
    rfl
  · obtain ⟨c,rest,digits,nonzero⟩ := toDigits_head (Nat.pos_of_ne_zero zero)
    have all : (c :: rest).all Char.isDigit = true := List.all_eq_true.mpr (digits ▸ isDigit_of_mem n)
    rw [digits]
    unfold isIntegerPart
    split
    · rename_i empty
      cases empty
    · rfl
    · rename_i same
      obtain ⟨rfl,rfl⟩ := List.cons_eq_cons.mp same
      simpa [nonzero] using all

theorem unsigned_toDigits (sign : Bool) (n : Nat) :
    unsigned? sign (Nat.toDigits 10 n) = some (if sign then .negative n else .natural n) := by
  have digits := isDigit_of_mem n
  simp only [unsigned?]
  rw [List.takeWhile_eq_self_iff.mpr digits,List.dropWhile_eq_nil_iff.mpr digits]
  cases sign <;> simp [isIntegerPart_toDigits,isTail,digitsValue_toDigits]

theorem wordToken?_of_digit (digit : c.isDigit = true) : wordToken? (c :: rest) = (unsigned? false (c :: rest)).map .number := by
  unfold wordToken?
  split
  case h_5 => rfl
  all_goals
    rename_i same
    obtain ⟨rfl,_⟩ := List.cons_eq_cons.mp same
    cases digit

theorem isNumeral_natural (n : Nat) : (Number.natural n).IsNumeral := by
  have digits := isDigit_of_mem n
  constructor
  · obtain ⟨c,rest,front⟩ := List.exists_cons_of_ne_nil (Nat.toDigits_ne_nil (n := n) (b := 10))
    have digit : c.isDigit = true := digits c (by simp [front])
    show wordToken? (toString n).toList = _
    rw [toList_toString,front,wordToken?_of_digit digit,← front,unsigned_toDigits]
    rfl
  · intro c mem
    exact isDelimiter_of_isDigit (digits c (by rwa [← toList_toString]))

theorem isNumeral_negative (n : Nat) : (Number.negative n).IsNumeral := by
  have text : (Number.negative n).text.toList = '-' :: Nat.toDigits 10 n := by
    rw [← toList_toString]
    simp [Number.text]
  constructor
  · simp [text,wordToken?,unsigned_toDigits]
  · intro c mem
    rw [text,List.mem_cons] at mem
    obtain rfl | digit := mem
    · rfl
    · exact isDelimiter_of_isDigit (isDigit_of_mem n c digit)

/-! ### Strings -/

/-- What the lexer may make of one character of a text. -/
def Piece.IsOf (c : Char) (p : Piece) : Prop := p = .char c ∨ p = .unit c.toNat ∧ c.toNat < 0x20

theorem joinPieces?_cons {p : Piece} {pieces : List Piece} (of : p.IsOf c) :
    joinPieces? (p :: pieces) = (joinPieces? pieces).map (c :: ·) := by
  obtain rfl | ⟨rfl,small⟩ := of
  · rfl
  · have high : isHighSurrogate c.toNat = false := by simp [isHighSurrogate]; omega
    have low : isLowSurrogate c.toNat = false := by simp [isLowSurrogate]; omega
    cases pieces with
    | nil => simp [joinPieces?,high,low]
    | cons next pieces => cases next <;> simp [joinPieces?,high,low]

theorem hexDigit?_hexDigit : ∀ n < 16, hexDigit? (hexDigit n) = some n := by decide

theorem foldlM_unicode {n : Nat} (small : n < 0x20) (pieces : List Piece) :
    ['\\','u','0','0',hexDigit (n / 16),hexDigit (n % 16)].foldlM Lexing.step { place := .quoted pieces,tokens := before }
      = some { place := .quoted (.unit n :: pieces),tokens := before } := by
  have high := hexDigit?_hexDigit (n / 16) (by omega)
  have low := hexDigit?_hexDigit (n % 16) (by omega)
  have zero : hexDigit? '0' = some 0 := rfl
  simp only [List.foldlM_cons,List.foldlM_nil,Lexing.step,Option.bind_eq_bind,Option.bind_some,zero,high,low]
  simp [Nat.div_add_mod]

/-- Every character is read back inside quotes from what is written for it. -/
theorem foldlM_escape (c : Char) (before : List Token) : ∃ p : Piece, p.IsOf c ∧ ∀ pieces,
    (escape c).foldlM Lexing.step { place := .quoted pieces,tokens := before }
      = some { place := .quoted (p :: pieces),tokens := before } := by
  unfold escape
  split_ifs with quotes backslash _ _ _ _ _ control
  any_goals
    subst c
    exact ⟨.char _,.inl rfl,fun _ => rfl⟩
  · exact ⟨.unit c.toNat,.inr ⟨rfl,control⟩,foldlM_unicode control⟩
  · refine ⟨.char c,.inl rfl,fun pieces => ?_⟩
    have plain : Lexing.step { place := .quoted pieces,tokens := before } c = some { place := .quoted (.char c :: pieces),tokens := before } := by
      simp [Lexing.step,quotes,backslash,Nat.not_lt.mp control]
    rw [List.foldlM_cons,plain]
    rfl

theorem foldlM_escapes (text : List Char) (before : List Token) : ∃ read : List Piece, joinPieces? read = some text ∧ ∀ pieces,
    (text.flatMap escape).foldlM Lexing.step { place := .quoted pieces,tokens := before }
      = some { place := .quoted (read.reverse ++ pieces),tokens := before } := by
  induction text with
  | nil => exact ⟨[],rfl,fun _ => rfl⟩
  | cons c text ih =>
    obtain ⟨p,of,first⟩ := foldlM_escape c before
    obtain ⟨read,joins,others⟩ := ih
    refine ⟨p :: read,by rw [joinPieces?_cons of,joins]; rfl,fun pieces => ?_⟩
    rw [List.flatMap_cons,List.foldlM_append,first pieces]
    simpa using others (p :: pieces)

theorem closes_quote (s : String) : Closes (quote s).toList [.string (some s)] := by
  intro before rest
  obtain ⟨read,joins,reads⟩ := foldlM_escapes s.toList before
  have opens : Lexing.step { tokens := before } '"' = some { place := .quoted [],tokens := before } := rfl
  have closes : Lexing.step { place := .quoted (read.reverse ++ []),tokens := before } '"'
      = some { tokens := .string (some s) :: before } := by
    simp [Lexing.step,pieceText?,joins]
  have quoted : (quote s).toList = '"' :: s.toList.flatMap escape ++ ['"'] := by simp [quote]
  have lexes : (quote s).toList.foldlM Lexing.step { tokens := before } = some { tokens := .string (some s) :: before } := by
    rw [quoted,List.cons_append,List.foldlM_cons,opens]
    show (s.toList.flatMap escape ++ ['"']).foldlM Lexing.step { place := .quoted [],tokens := before } = _
    rw [List.foldlM_append,reads]
    show ['"'].foldlM Lexing.step { place := .quoted (read.reverse ++ []),tokens := before } = _
    rw [List.foldlM_cons,closes]
    rfl
  simp only [Lexing.run,List.foldlM_append,lexes]
  rfl

/-- A string that denotes no text is read back as one that denotes none. -/
theorem closes_stringText (text : Option String) : Closes (stringText text).toList [.string text] := by
  cases text with
  | some s => exact closes_quote s
  | none => exact fun _ _ => rfl

/-! ### Values -/

mutual

/-- Numbers in a value are numerals. -/
def IsWritable : Json → Prop
  | .number n => n.IsNumeral
  | .array items => AllWritable items
  | .object members => MembersWritable members
  | _ => True

def AllWritable : List Json → Prop
  | [] => True
  | item :: items => item.IsWritable ∧ AllWritable items

def MembersWritable : List (Option String × Json) → Prop
  | [] => True
  | (_,value) :: members => value.IsWritable ∧ MembersWritable members

end

/-- A layout that puts nothing but blanks between tokens. -/
structure Layout.IsBlank (layout : Layout) : Prop where
  lineBreak : ∀ depth, ∀ c ∈ (layout.lineBreak depth).toList, Json.isBlank c = true
  afterColon : ∀ c ∈ layout.afterColon.toList, Json.isBlank c = true

theorem isBlank_indented : Layout.indented.IsBlank := by
  constructor <;> simp [Layout.indented,isBlank]

theorem isDelimiter_of_isBlank (blank : isBlank c = true) : isDelimiter c = true := by simp [isDelimiter,blank]

variable {layout : Layout}

theorem delimited_of_blank (blank : ∀ c ∈ text, isBlank c = true) : Delimited text := by
  cases text with
  | nil => exact .nil
  | cons c _ => exact .cons (isDelimiter_of_isBlank (blank c (by simp)))

theorem delimited_renderItems (depth : Nat) (items : List Json) : Delimited (renderItems layout depth items).toList := by
  cases items with
  | nil => exact .nil
  | cons _ _ =>
    simp only [renderItems,String.toList_append]
    exact .cons rfl

theorem delimited_renderMembers (depth : Nat) (members : List (Option String × Json)) :
    Delimited (renderMembers layout depth members).toList := by
  cases members with
  | nil => exact .nil
  | cons _ _ =>
    simp only [renderMembers,String.toList_append]
    exact .cons rfl


mutual

theorem spells_render (blank : layout.IsBlank) (depth : Nat) (value : Json) (writable : value.IsWritable) :
    Spells (render layout depth value).toList value.tokens := by
  match value with
  | .null =>
    rw [render,tokens]
    exact spells_word rfl (by simp [isDelimiter,isBlank,punctuation?])
  | .bool true =>
    rw [render,tokens]
    exact spells_word rfl (by simp [isDelimiter,isBlank,punctuation?])
  | .bool false =>
    rw [render,tokens]
    exact spells_word rfl (by simp [isDelimiter,isBlank,punctuation?])
  | .number n =>
    rw [IsWritable] at writable
    rw [render,tokens]
    exact spells_word writable.word writable.inside
  | .string text =>
    rw [render,tokens]
    exact (closes_stringText text).spells
  | .array [] =>
    rw [render,tokens]
    exact ((closes_punctuation (c := '[') rfl).append (closes_punctuation (c := ']') rfl)).spells
  | .array (item :: items) =>
    simp only [IsWritable,AllWritable] at writable
    obtain ⟨first,others⟩ := writable
    have opening := (closes_punctuation (c := '[') rfl).append (closes_blanks (blank.lineBreak (depth + 1)))
    have contents := (spells_render blank (depth + 1) item first).append
      (spells_renderItems blank (depth + 1) items others) (delimited_renderItems _ _)
    have closing := (closes_blanks (blank.lineBreak depth)).append (closes_punctuation (c := ']') rfl)
    have all := opening.then_spells (contents.append closing.spells
      ((delimited_of_blank (blank.lineBreak depth)).append (.cons rfl)))
    simpa [render,tokens] using all
  | .object [] =>
    rw [render,tokens]
    exact ((closes_punctuation (c := '\x7b') rfl).append (closes_punctuation (c := '\x7d') rfl)).spells
  | .object ((key,value) :: members) =>
    simp only [IsWritable,MembersWritable] at writable
    obtain ⟨first,others⟩ := writable
    have opening := (closes_punctuation (c := '\x7b') rfl).append (closes_blanks (blank.lineBreak (depth + 1)))
    have contents := (spells_member blank (depth + 1) key value first).append
      (spells_renderMembers blank (depth + 1) members others) (delimited_renderMembers _ _)
    have closing := (closes_blanks (blank.lineBreak depth)).append (closes_punctuation (c := '\x7d') rfl)
    have all := opening.then_spells (contents.append closing.spells
      ((delimited_of_blank (blank.lineBreak depth)).append (.cons rfl)))
    simpa [render,tokens] using all

theorem spells_member (blank : layout.IsBlank) (depth : Nat) (key : Option String) (value : Json) (writable : value.IsWritable) :
    Spells (stringText key ++ ":" ++ layout.afterColon ++ render layout depth value).toList (.string key :: .colon :: value.tokens) := by
  have front := ((closes_stringText key).append (closes_punctuation (c := ':') rfl)).append (closes_blanks blank.afterColon)
  have all := front.then_spells (spells_render blank depth value writable)
  simpa using all

theorem spells_renderItems (blank : layout.IsBlank) (depth : Nat) (items : List Json) (writable : AllWritable items) :
    Spells (renderItems layout depth items).toList (itemTokens items) := by
  match items with
  | [] => exact closes_nil.spells
  | item :: items =>
    simp only [AllWritable] at writable
    obtain ⟨first,others⟩ := writable
    have comma := (closes_punctuation (c := ',') rfl).append (closes_blanks (blank.lineBreak depth))
    have contents := (spells_render blank depth item first).append
      (spells_renderItems blank depth items others) (delimited_renderItems _ _)
    have all := comma.then_spells contents
    simpa [renderItems,itemTokens] using all

theorem spells_renderMembers (blank : layout.IsBlank) (depth : Nat) (members : List (Option String × Json))
    (writable : MembersWritable members) : Spells (renderMembers layout depth members).toList (memberTokens members) := by
  match members with
  | [] => exact closes_nil.spells
  | (key,value) :: members =>
    simp only [MembersWritable] at writable
    obtain ⟨first,others⟩ := writable
    have comma := (closes_punctuation (c := ',') rfl).append (closes_blanks (blank.lineBreak depth))
    have contents := (spells_member blank depth key value first).append
      (spells_renderMembers blank depth members others) (delimited_renderMembers _ _)
    have all := comma.then_spells contents
    simpa [renderMembers,memberTokens] using all

end

theorem tokens?_render (blank : layout.IsBlank) {value : Json} (writable : value.IsWritable) :
    tokens? (render layout 0 value).toList = some value.tokens :=
  (spells_render blank 0 value writable).tokens?

end SparcBackend.Json
