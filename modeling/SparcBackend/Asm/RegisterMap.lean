import SparcBackend.Ir.Name

/-!
Which machine register each virtual register is assigned to. Entries are kept in the order of the
virtual registers' names, so equal assignments are listed alike however they were made.
-/
namespace SparcBackend

/-- A finite map from virtual registers to machine registers. -/
structure RegisterMap where
  entries : List (Register × Register) := []
deriving DecidableEq, Repr

namespace RegisterMap

/-- The entries with one added in its place, or in place of the entry for the same register. -/
def insertEntry (r assigned : Register) : List (Register × Register) → List (Register × Register)
  | [] => [(r,assigned)]
  | (s,old) :: rest =>
    if r = s then (r,assigned) :: rest
    else if r.name < s.name then (r,assigned) :: (s,old) :: rest
    else (s,old) :: insertEntry r assigned rest

def insert (m : RegisterMap) (r assigned : Register) : RegisterMap :=
  { entries := insertEntry r assigned m.entries }

def get? (m : RegisterMap) (r : Register) : Option Register :=
  m.entries.lookup r

def contains (m : RegisterMap) (r : Register) : Bool :=
  (m.get? r).isSome

/-- The machine register assigned to `r`, or `r` itself. -/
def resolve (m : RegisterMap) (r : Register) : Register :=
  (m.get? r).getD r

def size (m : RegisterMap) : Nat :=
  m.entries.length

def ofList (assignments : List (Register × Register)) : RegisterMap :=
  assignments.foldl (fun m (r,assigned) => m.insert r assigned) {}

@[simp] theorem get?_insert_self (m : RegisterMap) (r assigned : Register) :
    (m.insert r assigned).get? r = some assigned := by
  obtain ⟨entries⟩ := m
  simp only [insert,get?]
  induction entries with
  | nil => simp [insertEntry]
  | cons entry rest ih =>
    obtain ⟨s,old⟩ := entry
    simp only [insertEntry]
    split
    · simp
    · split
      · simp
      · have : (r == s) = false := by simpa
        simpa [List.lookup_cons,this] using ih

theorem get?_insert_of_ne (m : RegisterMap) {r s : Register} (assigned : Register) (other : s ≠ r) :
    (m.insert r assigned).get? s = m.get? s := by
  obtain ⟨entries⟩ := m
  have differs : (s == r) = false := by simpa
  simp only [insert,get?]
  induction entries with
  | nil => simp [insertEntry,List.lookup_cons,differs]
  | cons entry rest ih =>
    obtain ⟨t,old⟩ := entry
    simp only [insertEntry]
    split
    · rename_i same
      subst same
      simp [List.lookup_cons,differs]
    · split
      · simp [List.lookup_cons,differs]
      · simp only [List.lookup_cons]
        split
        · rfl
        · exact ih

end RegisterMap

end SparcBackend
