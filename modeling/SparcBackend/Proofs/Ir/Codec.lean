import Mathlib.Order.MinMax
import SparcBackend.Ir.Codec
import SparcBackend.Proofs.Json.Parsing

/-!
Reading a program undoes writing it, as far as programs may nest: every value that is
written for a tree is read back as that tree with any budget that covers its depth, and is
refused with any smaller one.
-/
namespace SparcBackend

namespace Json
variable {α : Type} {members : List (String × Json)}

/-! ### Depth -/

mutual

/-- The number of containers that stand inside one another. -/
def depth : Json → Nat
  | .array items => itemsDepth items + 1
  | .object members => membersDepth members + 1
  | _ => 0

def itemsDepth : List Json → Nat
  | [] => 0
  | item :: items => max item.depth (itemsDepth items)

def membersDepth : List (Option String × Json) → Nat
  | [] => 0
  | (_,value) :: members => max value.depth (membersDepth members)

end

/-- A reader makes `a` of a value, if the budget covers the depth of the value. -/
def Reads (read : Nat → Json → Option α) (value : Json) (a : α) : Prop :=
  ∀ budget, read budget value = if value.depth ≤ budget then some a else none

/-! ### Records -/

theorem membersNamed_of_mem (distinct : (members.map Prod.fst).Nodup) {name : String} {value : Json}
    (mem : (name,value) ∈ members) : membersNamed name (members.map fun (key,value) => (some key,value)) = [value] := by
  induction members with
  | nil => cases mem
  | cons member members ih =>
    obtain ⟨key,first⟩ := member
    rw [List.map_cons,List.nodup_cons] at distinct
    obtain ⟨new,distinct⟩ := distinct
    rw [List.mem_cons] at mem
    obtain same | later := mem
    · obtain ⟨rfl,rfl⟩ := Prod.mk.inj same
      have none : membersNamed name (members.map fun (key,value) => (some key,value)) = [] := by
        unfold membersNamed
        rw [List.filterMap_map,List.filterMap_eq_nil_iff]
        intro other among
        have listed : other.1 ∈ members.map Prod.fst := List.mem_map_of_mem among
        have differs : other.1 ≠ name := fun same => new (same ▸ listed)
        simp [differs]
      simpa [membersNamed] using none
    · have listed : name ∈ members.map Prod.fst := List.mem_map_of_mem later
      have differs : key ≠ name := fun same => new (same ▸ listed)
      simpa [membersNamed,differs] using ih distinct later

/-- A record is read back from an object with one member for each of its fields. -/
theorem fields?_ofMembers {names : List String} (listed : members.map Prod.fst = names) (distinct : names.Nodup) :
    fields? names (.ofMembers members) = some (members.map fun member => some member.2) := by
  subst names
  have keyed : Json.ofMembers members = .object (members.map fun member => (some member.1,member.2)) := rfl
  have single : ∀ member ∈ members, membersNamed member.1 (members.map fun member => (some member.1,member.2)) = [member.2] :=
    fun member mem => membersNamed_of_mem distinct mem
  have once : (members.map Prod.fst).all (fun name =>
      (membersNamed name (members.map fun member => (some member.1,member.2))).length ≤ 1) = true := by
    rw [List.all_map,List.all_eq_true]
    intro member mem
    simp [single member mem]
  have text : (members.map fun member => (some member.1,member.2)).all (fun member => member.1.isSome) = true := by simp
  rw [keyed,fields?,text,once,Bool.and_self,if_pos rfl,List.map_map]
  congr 1
  refine List.map_congr_left fun member mem => ?_
  simp [single member mem]

/-! ### Lists -/

theorem mapM_reads {read : Nat → Json → Option α} {write : α → Json} {l : List α}
    (reads : ∀ a ∈ l, Reads read (write a) a) (budget : Nat) :
    (l.map write).mapM (read budget) = if itemsDepth (l.map write) ≤ budget then some l else none := by
  induction l with
  | nil => simp [itemsDepth]
  | cons a l ih =>
    have first := reads a (by simp) budget
    have others := ih fun a mem => reads a (List.mem_cons_of_mem _ mem)
    rw [List.map_cons,List.mapM_cons,first,others,itemsDepth]
    by_cases fits : (write a).depth ≤ budget <;> by_cases fit : itemsDepth (l.map write) ≤ budget <;> simp [fits,fit]

theorem reads_items {read : Nat → Json → Option α} {write : α → Json} {l : List α}
    (reads : ∀ a ∈ l, Reads read (write a) a) : Reads (items? read) (.array (l.map write)) l := by
  intro budget
  cases budget with
  | zero => simp [items?,depth]
  | succ budget => simp [items?,depth,mapM_reads reads]

/-! ### Numbers -/

theorem toIntBetween?_ofInt {least greatest i : Int} (above : least ≤ i) (below : i ≤ greatest) :
    (ofInt i).toIntBetween? least greatest = some i := by
  have value := toInt?_ofInt i
  unfold ofInt at value ⊢
  simp only [toIntBetween?,value]
  simp [above,below]

theorem toInt32?_ofInt (i : Int32) : (ofInt i.toInt).toInt32? = some i := by
  have above := i.le_toInt
  have below := i.toInt_lt
  unfold toInt32?
  rw [toIntBetween?_ofInt (by omega) (by omega),Option.map_some,Int32.ofInt_toInt]

theorem toUInt64?_ofNat (n : UInt64) : (ofNat n.toNat).toUInt64? = some n := by
  have below := n.toNat_lt
  have same : ofNat n.toNat = ofInt n.toNat := by simp [ofNat,ofInt]
  unfold toUInt64?
  rw [same,toIntBetween?_ofInt (by omega) (by omega)]
  simp

end Json

open Json

/-! ### Trees -/

theorem BinaryOp.ofJson?_tag (op : BinaryOp) (budget : Nat) : BinaryOp.ofJson? budget (.ofString op.tag) = some op := by
  cases op <;> rfl

theorem RelOp.ofJson?_tag (op : RelOp) (budget : Nat) : RelOp.ofJson? budget (.ofString op.tag) = some op := by
  cases op <;> rfl

theorem Json.tagged_eq (tag : String) (content : Json) : tagged tag content = .object [(some tag,content)] := rfl

@[simp] theorem Json.depth_tagged (tag : String) (content : Json) : (tagged tag content).depth = content.depth + 1 := by
  simp [tagged_eq,depth,membersDepth]

@[simp] theorem Json.depth_ofString (s : String) : (ofString s).depth = 0 := by simp [ofString,depth]

@[simp] theorem Json.depth_ofInt (i : Int) : (ofInt i).depth = 0 := by simp [ofInt,depth]

@[simp] theorem Json.depth_ofNat (n : Nat) : (ofNat n).depth = 0 := by simp [ofNat,depth]

@[simp] theorem Json.depth_bool (b : Bool) : (Json.bool b).depth = 0 := by simp [depth]

/-- The depth of the fields of a record. -/
def Json.fieldsDepth (members : List (String × Json)) : Nat := (members.map fun member => member.2.depth).foldr max 0

@[simp] theorem Json.depth_ofMembers (members : List (String × Json)) : (ofMembers members).depth = fieldsDepth members + 1 := by
  have fields : ∀ members : List (String × Json),
      membersDepth (members.map fun (key,value) => (some key,value)) = fieldsDepth members := by
    intro members
    induction members with
    | nil => rfl
    | cons member members ih =>
      rw [List.map_cons,membersDepth,ih]
      rfl
  rw [ofMembers,depth,fields]

theorem Json.toText?_ofString (s : String) : (ofString s).toText? = some s := rfl

theorem Label.ofJson?_name (l : Label) : Label.ofJson? (.ofString l.name) = some l := rfl

theorem Register.ofJson?_name (r : Register) : Register.ofJson? (.ofString r.name) = some r := rfl

theorem Expression.toJsons_eq (l : List Expression) : Expression.toJsons l = l.map Expression.toJson := by
  induction l with
  | nil => rfl
  | cons e l ih => rw [Expression.toJsons,ih,List.map_cons]

mutual

theorem Statement.reads (s : Statement) : Reads Statement.ofJson? s.toJson s := by
  intro budget
  match s with
  | .branch op left right ifTrue ifFalse =>
    rw [Statement.toJson,depth_tagged,depth_ofMembers]
    match budget with
    | 0 => simp [Statement.ofJson?]
    | 1 => simp [Statement.ofJson?,tagged_eq]
    | inner + 2 =>
      have l := Expression.reads left inner
      have r := Expression.reads right inner
      by_cases fits : left.toJson.depth ≤ inner <;> by_cases fit : right.toJson.depth ≤ inner <;>
        simp [Statement.ofJson?,tagged_eq,fields?_ofMembers,fieldsDepth,l,r,fits,fit,RelOp.ofJson?_tag,Label.ofJson?_name]
  | .discard value =>
    rw [Statement.toJson,depth_tagged]
    match budget with
    | 0 => simp [Statement.ofJson?]
    | inner + 1 =>
      have v := Expression.reads value inner
      by_cases fits : value.toJson.depth ≤ inner <;> simp [Statement.ofJson?,tagged_eq,v,fits]
  | .jump target =>
    rw [Statement.toJson,depth_tagged,depth_ofString]
    match budget with
    | 0 => simp [Statement.ofJson?]
    | inner + 1 => simp [Statement.ofJson?,tagged_eq,Label.ofJson?_name]
  | .label name =>
    rw [Statement.toJson,depth_tagged,depth_ofString]
    match budget with
    | 0 => simp [Statement.ofJson?]
    | inner + 1 => simp [Statement.ofJson?,tagged_eq,Label.ofJson?_name]
  | .move destination source =>
    rw [Statement.toJson,depth_tagged,depth_ofMembers]
    match budget with
    | 0 => simp [Statement.ofJson?]
    | 1 => simp [Statement.ofJson?,tagged_eq]
    | inner + 2 =>
      have d := Expression.reads destination inner
      have s := Expression.reads source inner
      by_cases fits : destination.toJson.depth ≤ inner <;> by_cases fit : source.toJson.depth ≤ inner <;>
        simp [Statement.ofJson?,tagged_eq,fields?_ofMembers,fieldsDepth,d,s,fits,fit]
  | .seq first second =>
    rw [Statement.toJson,depth_tagged]
    match budget with
    | 0 => simp [Statement.ofJson?]
    | 1 => simp [Statement.ofJson?,tagged_eq,depth]
    | inner + 2 =>
      have d := Statement.reads first inner
      have s := Statement.reads second inner
      by_cases fits : first.toJson.depth ≤ inner <;> by_cases fit : second.toJson.depth ≤ inner <;>
        simp [Statement.ofJson?,tagged_eq,depth,itemsDepth,d,s,fits,fit]

theorem Expression.reads (e : Expression) : Reads Expression.ofJson? e.toJson e := by
  intro budget
  match e with
  | .binary op left right =>
    rw [Expression.toJson,depth_tagged,depth_ofMembers]
    match budget with
    | 0 => simp [Expression.ofJson?]
    | 1 => simp [Expression.ofJson?,tagged_eq]
    | inner + 2 =>
      have l := Expression.reads left inner
      have r := Expression.reads right inner
      by_cases fits : left.toJson.depth ≤ inner <;> by_cases fit : right.toJson.depth ≤ inner <;>
        simp [Expression.ofJson?,tagged_eq,fields?_ofMembers,fieldsDepth,l,r,fits,fit,BinaryOp.ofJson?_tag]
  | .call function arguments =>
    rw [Expression.toJson,depth_tagged,depth_ofMembers]
    match budget with
    | 0 => simp [Expression.ofJson?]
    | 1 => simp [Expression.ofJson?,tagged_eq]
    | 2 => simp [Expression.ofJson?,tagged_eq,fieldsDepth,depth]
    | inner + 3 =>
      have f := Expression.reads function (inner + 1)
      have a := mapM_reads (Expression.reads_arguments arguments) inner
      rw [Expression.toJsons_eq]
      by_cases fits : function.toJson.depth ≤ inner + 1 <;> by_cases fit : itemsDepth (arguments.map Expression.toJson) ≤ inner <;>
        simp [Expression.ofJson?,tagged_eq,fields?_ofMembers,fieldsDepth,depth,f,a,fits,fit]
  | .constant value =>
    rw [Expression.toJson,depth_tagged,depth_ofInt]
    match budget with
    | 0 => simp [Expression.ofJson?]
    | inner + 1 => simp [Expression.ofJson?,tagged_eq,toInt32?_ofInt]
  | .memory address =>
    rw [Expression.toJson,depth_tagged]
    match budget with
    | 0 => simp [Expression.ofJson?]
    | inner + 1 =>
      have a := Expression.reads address inner
      by_cases fits : address.toJson.depth ≤ inner <;> simp [Expression.ofJson?,tagged_eq,a,fits]
  | .name label =>
    rw [Expression.toJson,depth_tagged,depth_ofString]
    match budget with
    | 0 => simp [Expression.ofJson?]
    | inner + 1 => simp [Expression.ofJson?,tagged_eq,Label.ofJson?_name]
  | .resultOf statement value =>
    rw [Expression.toJson,depth_tagged,depth_ofMembers]
    match budget with
    | 0 => simp [Expression.ofJson?]
    | 1 => simp [Expression.ofJson?,tagged_eq]
    | inner + 2 =>
      have s := Statement.reads statement inner
      have v := Expression.reads value inner
      by_cases fits : statement.toJson.depth ≤ inner <;> by_cases fit : value.toJson.depth ≤ inner <;>
        simp [Expression.ofJson?,tagged_eq,fields?_ofMembers,fieldsDepth,s,v,fits,fit]
  | .register register =>
    rw [Expression.toJson,depth_tagged,depth_ofString]
    match budget with
    | 0 => simp [Expression.ofJson?]
    | inner + 1 => simp [Expression.ofJson?,tagged_eq,Register.ofJson?_name]
  | .relation op left right =>
    rw [Expression.toJson,depth_tagged,depth_ofMembers]
    match budget with
    | 0 => simp [Expression.ofJson?]
    | 1 => simp [Expression.ofJson?,tagged_eq]
    | inner + 2 =>
      have l := Expression.reads left inner
      have r := Expression.reads right inner
      by_cases fits : left.toJson.depth ≤ inner <;> by_cases fit : right.toJson.depth ≤ inner <;>
        simp [Expression.ofJson?,tagged_eq,fields?_ofMembers,fieldsDepth,l,r,fits,fit,RelOp.ofJson?_tag]

theorem Expression.reads_arguments (l : List Expression) : ∀ e ∈ l, Reads Expression.ofJson? e.toJson e := by
  match l with
  | [] => exact fun _ none => absurd none List.not_mem_nil
  | e :: rest =>
    intro e' mem
    rw [List.mem_cons] at mem
    obtain rfl | later := mem
    · exact Expression.reads e'
    · exact Expression.reads_arguments rest e' later

end

/-! ### Programs -/

theorem Procedure.reads (p : Procedure) : Reads Procedure.ofJson? p.toJson p := by
  intro budget
  rw [Procedure.toJson,depth_ofMembers]
  match budget with
  | 0 => simp [Procedure.ofJson?]
  | inner + 1 =>
    have body := reads_items (l := p.body) (fun s _ => Statement.reads s) inner
    by_cases fits : (Json.array (p.body.map Statement.toJson)).depth ≤ inner <;>
      simp [Procedure.ofJson?,fields?_ofMembers,fieldsDepth,body,fits,toText?_ofString,toBool?,toUInt64?_ofNat]

/-- A program is read back from the value that is written for it, unless that value nests
    too deeply: then it is refused. -/
theorem Program.reads (program : Program) :
    Program.ofJson? program.toJson = if program.toJson.depth ≤ nestingLimit then some program else none := by
  have procedures := reads_items (l := program.procedures) (fun p _ => Procedure.reads p) (nestingLimit - 1)
  rw [Program.toJson,depth_ofMembers]
  by_cases fits : (Json.array (program.procedures.map Procedure.toJson)).depth ≤ nestingLimit - 1
  · have whole : (Json.array (program.procedures.map Procedure.toJson)).depth + 1 ≤ nestingLimit := Nat.le_sub_one_iff_lt (by decide) |>.mp fits
    simp [Program.ofJson?,fields?_ofMembers,fieldsDepth,procedures,fits,whole]
  · have whole : ¬ (Json.array (program.procedures.map Procedure.toJson)).depth + 1 ≤ nestingLimit :=
      fun whole => fits (Nat.le_sub_one_of_lt whole)
    simp [Program.ofJson?,fields?_ofMembers,fieldsDepth,procedures,fits,whole]

/-! ### Texts -/

@[simp] theorem Json.isWritable_tagged (tag : String) (content : Json) : (tagged tag content).IsWritable ↔ content.IsWritable := by
  simp [tagged_eq,IsWritable,MembersWritable]

@[simp] theorem Json.isWritable_ofString (s : String) : (ofString s).IsWritable := by simp [ofString,IsWritable]

@[simp] theorem Json.isWritable_bool (b : Bool) : (Json.bool b).IsWritable := by simp [IsWritable]

@[simp] theorem Json.isWritable_ofNat (n : Nat) : (ofNat n).IsWritable := by
  rw [ofNat,IsWritable]
  exact isNumeral_natural n

@[simp] theorem Json.isWritable_ofInt (i : Int) : (ofInt i).IsWritable := by
  rw [ofInt,IsWritable]
  split
  · exact isNumeral_negative _
  · exact isNumeral_natural _

@[simp] theorem Json.isWritable_ofMembers (members : List (String × Json)) :
    (ofMembers members).IsWritable ↔ ∀ member ∈ members, member.2.IsWritable := by
  rw [ofMembers,IsWritable]
  induction members with
  | nil => simp [MembersWritable]
  | cons member members ih => simp [MembersWritable,ih]

@[simp] theorem Json.isWritable_array (items : List Json) : (Json.array items).IsWritable ↔ ∀ item ∈ items, item.IsWritable := by
  rw [IsWritable]
  induction items with
  | nil => simp [AllWritable]
  | cons item items ih => simp [AllWritable,ih]

mutual

theorem Statement.isWritable_toJson (s : Statement) : s.toJson.IsWritable := by
  match s with
  | .branch _ left right _ _ => simp [Statement.toJson,Expression.isWritable_toJson left,Expression.isWritable_toJson right]
  | .discard value => simp [Statement.toJson,Expression.isWritable_toJson value]
  | .jump _ | .label _ => simp [Statement.toJson]
  | .move destination source =>
    simp [Statement.toJson,Expression.isWritable_toJson destination,Expression.isWritable_toJson source]
  | .seq first second => simp [Statement.toJson,Statement.isWritable_toJson first,Statement.isWritable_toJson second]

theorem Expression.isWritable_toJson (e : Expression) : e.toJson.IsWritable := by
  match e with
  | .binary _ left right | .relation _ left right =>
    simp [Expression.toJson,Expression.isWritable_toJson left,Expression.isWritable_toJson right]
  | .call function arguments =>
    simpa [Expression.toJson,Expression.isWritable_toJson function] using Expression.isWritable_toJsons arguments
  | .constant _ | .name _ | .register _ => simp [Expression.toJson]
  | .memory address => simp [Expression.toJson,Expression.isWritable_toJson address]
  | .resultOf statement value =>
    simp [Expression.toJson,Statement.isWritable_toJson statement,Expression.isWritable_toJson value]

theorem Expression.isWritable_toJsons (l : List Expression) : ∀ item ∈ Expression.toJsons l, item.IsWritable := by
  match l with
  | [] => simp [Expression.toJsons]
  | e :: rest => simpa [Expression.toJsons,Expression.isWritable_toJson e] using Expression.isWritable_toJsons rest

end

theorem Program.isWritable_toJson (program : Program) : program.toJson.IsWritable := by
  simp [Program.toJson,Procedure.toJson,Statement.isWritable_toJson]

theorem Program.parse?_of_print (program : Program) :
    Program.parse? program.print = if program.toJson.depth ≤ nestingLimit then some program else none := by
  unfold Program.parse? Program.print pretty
  rw [parse?_render isBlank_indented program.isWritable_toJson]
  exact program.reads

/-- What is written for a program is read back as that program, but for the registers that
    its procedures own: nobody owns any in a program that was read. This is so exactly if
    no more than 127 arrays and objects stand inside one another in what is written, and
    anything deeper is refused. -/
theorem OwningProgram.parse?_print (program : OwningProgram) : OwningProgram.parse? program.print =
    if program.program.toJson.depth ≤ nestingLimit then
      some { procedures := program.procedures.map fun p => { p with supply := {} } }
    else none := by
  unfold OwningProgram.parse? OwningProgram.print
  rw [Program.parse?_of_print]
  by_cases fits : program.program.toJson.depth ≤ nestingLimit
  · rw [if_pos fits,if_pos fits]
    simp [Program.owning,OwningProgram.program]
  · rw [if_neg fits,if_neg fits]
    rfl

end SparcBackend
