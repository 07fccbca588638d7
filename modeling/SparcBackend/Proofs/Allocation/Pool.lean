import Mathlib.Data.List.Nodup
import SparcBackend.Allocation.Pool

/-!
A pool seen through the registers that are busy (`busy`), once for each entry. Handing one
out adds it to them, giving one back takes it away, and a pool has none left exactly when
as many are busy as it has. More free registers behind a pool are not touched as long as
it has some itself (`extend`).
-/
namespace SparcBackend.RegisterPool
variable {pool after : RegisterPool} {r x : Register} {p : PoolEntry → Bool} {f : PoolEntry → PoolEntry} {entries : List PoolEntry}

def registers (pool : RegisterPool) : List Register := pool.entries.map PoolEntry.register

/-- The registers that have been handed out, in the order of the pool. -/
def busy (pool : RegisterPool) : List Register := (pool.entries.filter fun entry => !entry.isFree).map PoolEntry.register

theorem registers_ofList (registers : List Register) : (ofList registers).registers = registers := by
  simp [ofList,RegisterPool.registers,Function.comp_def]

theorem busy_ofList (registers : List Register) : (ofList registers).busy = [] := by
  simp [ofList,busy]

theorem length_busy_le (pool : RegisterPool) : pool.busy.length ≤ pool.registers.length := by
  simpa [busy,registers] using List.length_filter_le _ pool.entries

/-! ### The first entry that fits -/

/-- What changes is one entry, the first that fits. -/
theorem changeFirst?_eq_some {changed : List PoolEntry} {found : PoolEntry} (is : changeFirst? p f entries = some (found,changed)) :
    ∃ front back, entries = front ++ found :: back ∧ changed = front ++ f found :: back ∧ p found = true ∧
      ∀ entry ∈ front, p entry = false := by
  induction entries generalizing changed with
  | nil => cases is
  | cons entry rest ih =>
    rw [changeFirst?] at is
    split at is
    · rename_i fits
      cases is
      exact ⟨[],rest,rfl,rfl,fits,by simp⟩
    · rename_i unfit
      obtain ⟨⟨found',changed'⟩,inner,same⟩ := Option.map_eq_some_iff.1 is
      cases same
      obtain ⟨front,back,rfl,rfl,fits,others⟩ := ih inner
      exact ⟨entry :: front,back,rfl,rfl,fits,List.forall_mem_cons.2 ⟨eq_false_of_ne_true unfit,others⟩⟩

theorem changeFirst?_eq_none : changeFirst? p f entries = none ↔ ∀ entry ∈ entries, p entry = false := by
  induction entries with
  | nil => simp [changeFirst?]
  | cons entry rest ih =>
    rw [changeFirst?]
    split
    · rename_i fits
      simp [fits]
    · rename_i unfit
      simp [ih,eq_false_of_ne_true unfit]

/-- Entries behind one that fits are not looked at. -/
theorem changeFirst?_append {changed : List PoolEntry} {found : PoolEntry} (is : changeFirst? p f entries = some (found,changed))
    (more : List PoolEntry) : changeFirst? p f (entries ++ more) = some (found,changed ++ more) := by
  induction entries generalizing changed with
  | nil => cases is
  | cons entry rest ih =>
    rw [changeFirst?] at is
    rw [List.cons_append,changeFirst?]
    split at is
    · rename_i fits
      cases is
      rw [if_pos fits]
      rfl
    · rename_i unfit
      obtain ⟨⟨found',changed'⟩,inner,same⟩ := Option.map_eq_some_iff.1 is
      cases same
      rw [if_neg unfit,ih inner]
      rfl

/-! ### Handing out -/

/-- One more is busy, and those in front of it were busy before. -/
theorem busy_acquire (is : pool.acquire? = some (r,after)) : after.registers = pool.registers ∧ after.busy.Perm (r :: pool.busy) ∧
    ∃ front back, pool.registers = front ++ r :: back ∧ ∀ x ∈ front, x ∈ pool.busy := by
  obtain ⟨⟨found,changed⟩,taken,same⟩ := Option.map_eq_some_iff.1 is
  cases same
  obtain ⟨front,back,entries,rfl,free,others⟩ := changeFirst?_eq_some taken
  simp only [registers,busy,entries,List.map_append,List.map_cons,List.filter_append,List.filter_cons,free,Bool.not_true,
    Bool.not_false,if_true]
  refine ⟨trivial,?_,front.map PoolEntry.register,back.map PoolEntry.register,rfl,?_⟩
  · simp
  · intro x member
    obtain ⟨entry,among,rfl⟩ := List.mem_map.1 member
    exact List.mem_append_left _ (List.mem_map_of_mem (List.mem_filter.2 ⟨among,by simp [others entry among]⟩))

/-- What is handed out has not been busy, unless the pool has it twice. -/
theorem not_mem_busy_of_acquire (is : pool.acquire? = some (r,after)) (distinct : pool.registers.Nodup) : r ∉ pool.busy := by
  obtain ⟨same,busy,-⟩ := busy_acquire is
  have once : after.busy.Nodup := (same ▸ distinct).sublist (List.filter_sublist.map _)
  exact (List.nodup_cons.1 (busy.nodup_iff.1 once)).1

/-- Nothing is left when as many are busy as there are. -/
theorem acquire?_eq_none : pool.acquire? = none ↔ pool.busy.length = pool.registers.length := by
  rw [acquire?,Option.map_eq_none_iff,changeFirst?_eq_none,busy,registers,List.length_map,List.length_map,
    List.length_filter_eq_length_iff]
  simp

/-! ### Giving back -/

/-- A busy register can be given back, and then one less is busy. -/
theorem busy_release (is : r ∈ pool.busy) :
    ∃ after, pool.release? r = some after ∧ after.registers = pool.registers ∧ pool.busy.Perm (r :: after.busy) := by
  cases given : changeFirst? (fun entry => entry.register = r && !entry.isFree) (fun entry => { entry with isFree := true })
      pool.entries with
  | none =>
    obtain ⟨entry,among,rfl⟩ := List.mem_map.1 is
    obtain ⟨member,taken⟩ := List.mem_filter.1 among
    have unfit := changeFirst?_eq_none.1 given entry member
    simp [taken] at unfit
  | some change =>
    obtain ⟨found,changed⟩ := change
    obtain ⟨front,back,entries,rfl,fits,-⟩ := changeFirst?_eq_some given
    simp only [Bool.and_eq_true,decide_eq_true_eq,Bool.not_eq_true'] at fits
    obtain ⟨rfl,taken⟩ := fits
    refine ⟨_,by rw [release?,given]; rfl,?_,?_⟩
    · simp [registers,entries]
    · simp [busy,entries,taken]

/-! ### More registers -/

/-- The pool with some more free registers behind its own. -/
def extend (pool : RegisterPool) (more : List Register) : RegisterPool := { entries := pool.entries ++ (ofList more).entries }

theorem ofList_append (registers more : List Register) : ofList (registers ++ more) = (ofList registers).extend more := by
  simp [ofList,extend]

theorem acquire?_extend (is : pool.acquire? = some (r,after)) (more : List Register) :
    (pool.extend more).acquire? = some (r,after.extend more) := by
  obtain ⟨⟨found,changed⟩,taken,same⟩ := Option.map_eq_some_iff.1 is
  cases same
  rw [acquire?,extend,changeFirst?_append taken]
  rfl

/-- With free registers behind it a pool has one left. -/
theorem acquire?_extend_ne_none {more : List Register} (some : more ≠ []) : (pool.extend more).acquire? ≠ none := by
  obtain ⟨first,others,rfl⟩ := List.exists_cons_of_ne_nil some
  rw [acquire?,ne_eq,Option.map_eq_none_iff,changeFirst?_eq_none]
  intro none
  have taken := none ⟨first,true⟩ (by simp [extend,ofList])
  cases taken

/-- What is given back to a pool is none of the free registers behind it. -/
theorem release?_extend (pool : RegisterPool) (r : Register) (more : List Register) :
    (pool.extend more).release? r = (pool.release? r).map fun after => after.extend more := by
  cases given : changeFirst? (fun entry => entry.register = r && !entry.isFree) (fun entry => { entry with isFree := true })
      pool.entries with
  | none =>
    have missing : changeFirst? (fun entry => entry.register = r && !entry.isFree) (fun entry => { entry with isFree := true })
        (pool.extend more).entries = none := by
      rw [changeFirst?_eq_none] at given ⊢
      simpa [extend,ofList,or_imp,forall_and] using given
    rw [release?,release?,given,missing]
    rfl
  | some change =>
    rw [release?,release?,extend,changeFirst?_append given,given]
    rfl

end SparcBackend.RegisterPool
