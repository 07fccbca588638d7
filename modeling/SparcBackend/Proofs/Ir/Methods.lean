import Mathlib.Data.List.Nodup
import Mathlib.Data.List.Pairwise
import Mathlib.Tactic.Common
import SparcBackend.Ir.Program

/-!
Names of methods. A dollar sign joins the parts of a name, and the parts may hold dollar
signs, too. So the names of two methods are the same exactly if the methods are, or if the
joint of the one stands inside a part of the other. The label of an epilogue has a second
joint, which the name of another method may meet with its only one.
-/
namespace SparcBackend

/-- A text with a mark in it, cut in two ways: in the same place, or one cut goes through
    what the other one leaves whole. -/
theorem append_mark_eq_iff {α : Type} {mark : α} {a b c d : List α} : a ++ mark :: b = c ++ mark :: d ↔
    (a = c ∧ b = d) ∨ (∃ x, a = c ++ mark :: x ∧ d = x ++ mark :: b) ∨ ∃ x, c = a ++ mark :: x ∧ b = x ++ mark :: d := by
  constructor
  · intro same
    rcases List.append_eq_append_iff.1 same with ⟨front,rfl,behind⟩ | ⟨front,rfl,behind⟩
    · cases front with
      | nil => exact .inl ⟨by simp,(List.cons.inj behind).2⟩
      | cons k x =>
        obtain ⟨rfl,rest⟩ := List.cons.inj behind
        exact .inr (.inr ⟨x,rfl,rest⟩)
    · cases front with
      | nil => exact .inl ⟨by simp,(List.cons.inj behind).2.symm⟩
      | cons k x =>
        obtain ⟨rfl,rest⟩ := List.cons.inj behind
        exact .inr (.inl ⟨x,rfl,rest⟩)
  · rintro (⟨rfl,rfl⟩ | ⟨x,rfl,rfl⟩ | ⟨x,rfl,rfl⟩) <;> simp

namespace Name

theorem toList_qualified_pair (a b : String) : (qualified [a,b]).toList = a.toList ++ '$' :: b.toList := by
  simp [qualified]

/-- A text without a dollar sign is the name of no pair. -/
theorem ne_qualified_pair {a : String} (plain : '$' ∉ a.toList) (b c : String) : a ≠ qualified [b,c] := by
  rintro rfl
  apply plain
  rw [toList_qualified_pair]
  simp

theorem qualified_pair_eq_iff {a b c d : String} : qualified [a,b] = qualified [c,d] ↔
    (a = c ∧ b = d) ∨ (∃ x, a = qualified [c,x] ∧ d = qualified [x,b]) ∨ ∃ x, c = qualified [a,x] ∧ b = qualified [x,d] := by
  have spelt {p : List Char → Prop} : (∃ x, p x) ↔ ∃ x : String, p x.toList :=
    ⟨fun ⟨x,holds⟩ => ⟨String.ofList x,by rwa [String.toList_ofList]⟩,fun ⟨x,holds⟩ => ⟨x.toList,holds⟩⟩
  simp only [← String.toList_inj,toList_qualified_pair]
  rw [append_mark_eq_iff,spelt,spelt]

end Name

namespace Method
variable {m n : Method}

/-- The joint of `m` stands inside the method name of `n`, and that of `n` inside the class name of `m`. -/
def Straddles (m n : Method) : Prop :=
  ∃ x, m.className = Name.qualified [n.className,x] ∧ n.methodName = Name.qualified [x,m.methodName]

/-- The joint of `m` stands at the end of the name of `n`, or inside that name. -/
def NamesEpilogue (m n : Method) : Prop :=
  (m.className = n.name ∧ m.methodName = "epilogueBegin") ∨
    ∃ x, n.name = Name.qualified [m.className,x] ∧ m.methodName = Name.qualified [x,"epilogueBegin"]

theorem name_eq_iff : m.name = n.name ↔
    (m.className = n.className ∧ m.methodName = n.methodName) ∨ m.Straddles n ∨ n.Straddles m :=
  Name.qualified_pair_eq_iff

theorem epilogueLabel_eq_iff : m.epilogueLabel = n.epilogueLabel ↔ m.name = n.name := by
  simp only [← String.toList_inj,epilogueLabel,Name.toList_qualified_pair,List.append_cancel_right_eq]

/-- The last part of an epilogue label has no joint in it. -/
theorem name_eq_epilogueLabel_iff : m.name = n.epilogueLabel ↔ m.NamesEpilogue n := by
  have inside : ¬ ∃ x, m.className = Name.qualified [n.name,x] ∧ "epilogueBegin" = Name.qualified [x,m.methodName] := by
    rintro ⟨x,-,last⟩
    exact Name.ne_qualified_pair (by decide) _ _ last
  rw [name,epilogueLabel,Name.qualified_pair_eq_iff]
  simp only [inside,false_or]
  rfl

theorem length_lt_of_qualified {a b x : String} (is : a = Name.qualified [b,x]) : b.toList.length < a.toList.length := by
  rw [is,Name.toList_qualified_pair]
  simp

theorem name_ne_epilogueLabel (m : Method) : m.name ≠ m.epilogueLabel := by
  intro same
  exact absurd (length_lt_of_qualified same) (Nat.lt_irrefl _)

/-- The labels that the frame of a method defines. -/
def frameLabels (m : Method) : List Label := [⟨m.name⟩,⟨m.epilogueLabel⟩]

/-- What tells methods apart. -/
def key (m : Method) : String × String := (m.className,m.methodName)

/-- Frames define different labels exactly if neither the names nor a name and an epilogue meet. -/
theorem disjoint_frameLabels_iff (differ : m.key ≠ n.key) : m.frameLabels.Disjoint n.frameLabels ↔
    (¬ m.Straddles n ∧ ¬ n.Straddles m) ∧ ¬ m.NamesEpilogue n ∧ ¬ n.NamesEpilogue m := by
  have keys : ¬ (m.className = n.className ∧ m.methodName = n.methodName) := by simpa [key] using differ
  have names : m.name = n.name ↔ m.Straddles n ∨ n.Straddles m := by simp [name_eq_iff,keys]
  simp only [frameLabels,List.disjoint_cons_left,List.mem_cons,List.not_mem_nil,or_false,Label.mk.injEq,epilogueLabel_eq_iff,
    eq_comm (a := m.epilogueLabel),name_eq_epilogueLabel_iff,names]
  simp only [List.disjoint_nil_left]
  tauto

/-- The frames of methods with different names or classes define different labels exactly if no two
    of them meet. -/
theorem nodup_frameLabels_iff {ms : List Method} (distinct : (ms.map key).Nodup) : (ms.flatMap frameLabels).Nodup ↔
    ∀ m ∈ ms, ∀ n ∈ ms, ¬ m.Straddles n ∧ ¬ m.NamesEpilogue n := by
  have own (m : Method) : ¬ m.Straddles m ∧ ¬ m.NamesEpilogue m := by
    constructor
    · rintro ⟨x,longer,-⟩
      exact absurd (length_lt_of_qualified longer) (Nat.lt_irrefl _)
    · intro same
      exact name_ne_epilogueLabel m (name_eq_epilogueLabel_iff.2 same)
  have pairs : ms.Pairwise (fun m n => m.key ≠ n.key) := List.pairwise_map.1 distinct
  have apart {m n : Method} (first : m ∈ ms) (second : n ∈ ms) (other : m ≠ n) : m.key ≠ n.key :=
    fun same => other (List.inj_on_of_nodup_map distinct first second same)
  have symmetric : Std.Symm (Function.onFun List.Disjoint frameLabels) := ⟨fun _ _ => List.disjoint_symm⟩
  have each (m : Method) : m.frameLabels.Nodup := by simp [frameLabels,name_ne_epilogueLabel]
  rw [List.nodup_flatMap]
  constructor
  · rintro ⟨-,disjoint⟩ m first n second
    by_cases same : m = n
    · exact same ▸ own m
    · have between := disjoint.forall first second same
      obtain ⟨⟨straddles,-⟩,names,-⟩ := (disjoint_frameLabels_iff (apart first second same)).1 between
      exact ⟨straddles,names⟩
  · intro free
    refine ⟨fun m _ => each m,pairs.imp_of_mem ?_⟩
    intro m n first second differ
    exact (disjoint_frameLabels_iff differ).2
      ⟨⟨(free m first n second).1,(free n second m first).1⟩,(free m first n second).2,(free n second m first).2⟩

/-- No two frames meet if there are no dollar signs in the names of classes, and no method is named
    like an epilogue. -/
theorem free_of_plain (ms : List Method) (classes : ∀ m ∈ ms, '$' ∉ m.className.toList)
    (methods : ∀ m ∈ ms, ∀ x, m.methodName ≠ Name.qualified [x,"epilogueBegin"]) :
    ∀ m ∈ ms, ∀ n ∈ ms, ¬ m.Straddles n ∧ ¬ m.NamesEpilogue n := by
  intro m first n _
  constructor
  · rintro ⟨x,is,-⟩
    exact Name.ne_qualified_pair (classes m first) _ _ is
  · rintro (⟨is,-⟩ | ⟨x,-,is⟩)
    · exact Name.ne_qualified_pair (classes m first) _ _ is
    · exact methods m first x is

end Method

end SparcBackend
