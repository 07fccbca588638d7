import SparcBackend.Proofs.Peephole.Rewording
import SparcBackend.Proofs.Peephole.Run
import SparcBackend.Proofs.Selection.Notes

/-!
Notes along a run of the optimizer. The name of a register that is dropped is replaced in
the note of the line that is kept. That is what the note should say exactly if the name
occurs nowhere else in it, which is so at every change if the registers of the method
stand out from all operands and from the words of notes (`optimize_rewords`).
-/
namespace SparcBackend.Peephole
open Machine (Target)

/-- The new note is the old one with the value in place of every mention of the register. -/
def Rewording.Follows (w : Rewording) (note : Note) : Prop := w.new.note? = some (note.replace w.register w.value).text

/-- The change of a site, by what it does from its line on. -/
def Site.Rewords (s : Site) (supply : RegisterSupply) (k : Option Rewording) : Prop :=
  Peephole.Rewords (fun lines r => endsOn supply s.code (s.line+lines) r) (s.code.drop s.line) s.change.code s.change.deleted k

theorem Site.IsMade.rewords {t : Target} {supply : RegisterSupply} {s : Site} (made : s.IsMade t supply) :
    ∃ k, s.Rewords supply k := by
  unfold Site.IsMade changeAt? at made
  split at made
  · cases made
  · rename_i head rest from'
    obtain ⟨k,rewords⟩ := rewords_of_change made
    refine ⟨k,?_⟩
    rw [Site.Rewords,from']
    exact rewords

/-! ### Notes all along -/

/-- The slots of the line hold known operands, and if it reads one, its note is made of the words and
    mentions known operands. -/
def IsWorded (known : List Operand) (i : Instruction) : Prop :=
  i.operands ⊆ known ∧ (i.uses ≠ [] → ∃ note : Note, note.IsSpelt known ∧ i.note? = some note.text)

section
variable {ends : EndsAfter} {known : List Operand} {before after : List Instruction} {deleted : Nat} {w : Rewording}
  {k : Option Rewording}

theorem isSpelt_worth {i : Instruction} {value : Note} (worth : worth? i = some value) (slots : i.operands ⊆ known) :
    value.IsSpelt known := by
  have uses : i.uses ⊆ known := fun operand member => slots (List.mem_append_right _ member)
  have plus : " + " ∈ Note.words := by decide
  have minus : " - " ∈ Note.words := by decide
  unfold worth? at worth
  split at worth
  · rename_i left right _ is
    rw [is] at uses
    cases worth
    exact ⟨uses (by simp),⟨' ',rfl,rfl⟩,plus,uses (by simp),trivial,trivial⟩
  · rename_i left right _ is
    rw [is] at uses
    cases worth
    exact ⟨uses (by simp),⟨' ',rfl,rfl⟩,minus,uses (by simp),trivial,trivial⟩
  · rename_i number _ is
    rw [is] at uses
    cases worth
    exact ⟨uses (by simp),trivial,trivial⟩
  · rename_i source _ is
    rw [is] at uses
    cases worth
    exact ⟨uses (by simp),trivial,trivial⟩
  · cases worth

/-- What stands for the register mentions known operands. -/
theorem Rewords.isSpelt_value (rewords : Rewords ends before after deleted (some w)) (worded : ∀ i ∈ before, IsWorded known i) :
    w.value.IsSpelt known := by
  cases rewords with
  | forward defs worth drops renames => exact isSpelt_worth worth (worded w.gone (by simp)).1
  | backward defs copies reads writes value drops renames =>
    have destination := (worded w.gone (by simp)).1 (List.mem_append_left _ (List.mem_of_mem_head? writes))
    rw [value]
    exact ⟨destination,trivial,trivial⟩

theorem Rewords.renames (rewords : Rewords ends before after deleted (some w)) : w.IsRenaming := by
  cases rewords with
  | forward defs worth drops renames | backward defs copies reads writes value drops renames => exact renames

theorem Rewords.drops (rewords : Rewords ends before after deleted (some w)) : ∃ lines, ends lines w.register = true := by
  cases rewords with
  | forward defs worth drops renames | backward defs copies reads writes value drops renames => exact ⟨_,drops⟩

/-- Renaming is replacing what is mentioned where the name occurs nowhere else, and as a rule only there. -/
theorem Rewording.IsRenaming.follows {note : Note} (renames : w.IsRenaming) (named : w.register.name ≠ "")
    (is : w.old.note? = some note.text) : (note.Spares w.register → w.Follows note) ∧
      ∀ c, w.value.chars.head? = some c → w.register.name.toList.head? ≠ some c → (w.Follows note ↔ note.Spares w.register) := by
  have new : w.new.note? = some (Text.replaceAll w.register.name w.value.text note.text) := by rw [renames.note,is]; rfl
  rw [Rewording.Follows,new,Option.some_inj]
  exact ⟨Note.replaceAll_text named,fun c begins other => Note.replaceAll_text_iff named begins other⟩

theorem Rewords.mem_old (rewords : Rewords ends before after deleted (some w)) : w.old ∈ before ∧ w.gone ∈ before := by
  cases rewords with
  | forward defs worth drops renames | backward defs copies reads writes value drops renames => simp

theorem isWorded_copy {source : Operand} {d : Register} (here : source ∈ known) (there : .register d ∈ known) :
    IsWorded known (copy source d) := by
  refine ⟨?_,fun _ => ⟨[.mention source,.word " -> ",.mention (.register d)],?_,?_⟩⟩
  · have slots : (copy source d).operands = [.register d,source] := rfl
    rw [slots]
    simp [here,there]
  · exact ⟨here,⟨' ',rfl,rfl⟩,by decide,there,trivial,trivial⟩
  · have text : s!"{source.text} -> {d.name}" = Note.text [.mention source,.word " -> ",.mention (.register d)] := by
      simp [Operand.text,toString,String.append_assoc]
    exact congrArg some text

/-- The line that is kept has a note as before if the register stands out. -/
theorem Rewords.isWorded_new (rewords : Rewords ends before after deleted (some w)) (stands : Note.StandsOut w.register known)
    (worded : ∀ i ∈ before, IsWorded known i) : IsWorded known w.new := by
  have renames := rewords.renames
  obtain ⟨old,gone⟩ := rewords.mem_old
  obtain ⟨slots,spelt⟩ := worded w.old old
  obtain ⟨note,made,is⟩ := spelt renames.reads
  refine ⟨List.Subset.trans renames.operands (List.append_subset.2 ⟨slots,(worded w.gone gone).1⟩),fun _ => ?_⟩
  exact ⟨_,made.replace w.register (rewords.isSpelt_value worded),
    (renames.follows stands.named is).1 (Note.spares_of_isSpelt stands made)⟩

/-- If the registers that are dropped stand out, a change keeps all notes in words and mentions. -/
theorem Rewords.isWorded (rewords : Rewords ends before after deleted k) (stands : ∀ w ∈ k, Note.StandsOut w.register known)
    (worded : ∀ i ∈ before, IsWorded known i) : ∀ i ∈ after, IsWorded known i := by
  intro i member
  rcases rewords.of_mem member with old | ⟨w,rfl,rfl⟩ | ⟨head,here,d,source,defs,uses,rfl⟩
  · exact worded i old
  · exact rewords.isWorded_new (stands w rfl) worded
  · have slots := (worded head here).1
    exact isWorded_copy (slots (List.mem_append_right _ uses)) (slots (by simp [Instruction.operands,defs]))

end

/-! ### Runs -/

/-- All slots of some code. -/
def slots (code : List Instruction) : List Operand := code.flatMap Instruction.operands

theorem isWorded_of_isAnnotated {code : List Instruction} (annotated : ∀ i ∈ code, i.IsAnnotated) :
    ∀ i ∈ code, IsWorded (slots code) i := by
  intro i member
  have known : i.operands ⊆ slots code := fun operand slot => List.mem_flatMap.2 ⟨i,member,slot⟩
  refine ⟨known,fun reads => ?_⟩
  obtain ⟨a,note,means,spells,is⟩ := annotated i member reads
  have spelt := spells.isSpelt
  rw [← Instruction.defs_eq means,← Instruction.uses_eq means] at spelt
  exact ⟨note,spelt.mono known,is⟩

section
variable {t : Target} {supply : RegisterSupply} {known : List Operand} (apart : ∀ r ∈ supply.children, Note.StandsOut r known)
include apart

theorem Site.Rewords.stands {s : Site} {w : Rewording} (rewords : s.Rewords supply (some w)) :
    Note.StandsOut w.register known := by
  obtain ⟨lines,drops⟩ := Peephole.Rewords.drops rewords
  exact apart w.register (List.contains_iff_mem.1 (Bool.and_eq_true _ _ ▸ drops).1)

theorem Site.IsMade.isWorded {s : Site} (made : s.IsMade t supply) (worded : ∀ i ∈ s.code, IsWorded known i) :
    ∀ i ∈ s.after, IsWorded known i := by
  obtain ⟨k,rewords⟩ := made.rewords
  intro i member
  rcases List.mem_append.1 member with front | new
  · exact worded i (List.mem_of_mem_take front)
  · refine Peephole.Rewords.isWorded rewords ?_ (fun i later => worded i (List.mem_of_mem_drop later)) i new
    rintro w rfl
    exact rewords.stands apart

end

/-- Selected lines spell out what they do. A change that keeps a note renames a register in it,
    which is to replace what mentions the register exactly if the name occurs nowhere else in
    the note, at least where the replacement begins with another character. If all registers
    of the method stand out, notes are words and mentions all along and each change replaces
    what mentions its register. -/
theorem optimize_rewords {supply : RegisterSupply} {p : Procedure} {frames : Bool} {f : CodeFragment}
    (accepted : (Selection.select .sparc supply p frames).outcome = .ok f) :
    (∀ i ∈ f.code, i.IsAnnotated) ∧
    (∀ s ∈ sites .sparc f.supply f.code, (∃ k, s.Rewords f.supply k) ∧
      ∀ w, s.Rewords f.supply (some w) → w.register.name ≠ "" → ∀ note : Note, w.old.note? = some note.text →
        (note.Spares w.register → w.Follows note) ∧
        ∀ c, w.value.chars.head? = some c → w.register.name.toList.head? ≠ some c →
          (w.Follows note ↔ note.Spares w.register)) ∧
    ((∀ r ∈ f.supply.children, Note.StandsOut r (slots f.code)) →
      (∀ s ∈ sites .sparc f.supply f.code, (∀ i ∈ s.code, IsWorded (slots f.code) i) ∧
        ∀ w, s.Rewords f.supply (some w) → ∀ note : Note, note.IsSpelt (slots f.code) → w.old.note? = some note.text →
          w.Follows note) ∧
      ∀ i ∈ (optimize .sparc f.supply f.code).code, IsWorded (slots f.code) i) := by
  have annotated := Selection.isAnnotated_of_select accepted
  have start := isWorded_of_isAnnotated annotated
  refine ⟨annotated,?_,?_⟩
  · intro s member
    have made := (sites_induction (P := fun _ => True) (fun _ _ _ => trivial) trivial s member).1
    exact ⟨made.rewords,fun w rewords named note is => (Peephole.Rewords.renames rewords).follows named is⟩
  · intro apart
    have step (s : Site) (made : s.IsMade .sparc f.supply) (worded : ∀ i ∈ s.code, IsWorded (slots f.code) i) :=
      made.isWorded apart worded
    constructor
    · intro s member
      refine ⟨(sites_induction (P := fun code => ∀ i ∈ code, IsWorded (slots f.code) i) step start s member).2,?_⟩
      intro w rewords note spelt is
      have out := rewords.stands apart
      exact ((Peephole.Rewords.renames rewords).follows out.named is).1 (Note.spares_of_isSpelt out spelt)
    · exact optimize_induction (P := fun code => ∀ i ∈ code, IsWorded (slots f.code) i) (fun _ => True)
        (fun s made _ => step s made) _ (fun _ _ => trivial) start

/-- Hands its second argument on by way of a register with a name. -/
def relay (name : String) : Procedure where
  className := "Test"
  methodName := "relay"
  body := [.move (.register ⟨name⟩) (.named "%i1"),.move (.named "%o0") (.register ⟨name⟩)]

/-- The two copies of `relay` made one, whose note is to say that the second argument is handed on. -/
def relayed (name text : String) : Rewording where
  gone := (Machine.move (.register ⟨name⟩) (.register ⟨"%o0"⟩)).withNote s!"{name} -> %o0"
  old := (Machine.move (.register ⟨"%i1"⟩) (.register ⟨name⟩)).withNote s!"%i1 -> {name}"
  new := (Machine.move (.register ⟨"%i1"⟩) (.register ⟨"%o0"⟩)).withNote text
  register := ⟨name⟩
  value := [.mention (.register ⟨"%o0"⟩)]

/-- The note of the first copy of `relay`. -/
def relayNote (name : String) : Note := [.mention (.register ⟨"%i1"⟩),.word " -> ",.mention (.register ⟨name⟩)]

theorem optimize_rewords_relay : ∃ f, (Selection.select .sparc {} (relay "x") false).outcome = .ok f ∧
    (∀ r ∈ f.supply.children, Note.StandsOut r (slots f.code)) ∧ ∃ s ∈ sites .sparc f.supply f.code, ∃ w,
      s.Rewords f.supply (some w) ∧ (relayNote "x").IsSpelt (slots f.code) ∧ w.old.note? = some (relayNote "x").text ∧
        w.Follows (relayNote "x") := by
  obtain ⟨f,accepted,code,supply⟩ : ∃ f, (Selection.select .sparc {} (relay "x") false).outcome = .ok f ∧
      f.code = [(relayed "x" "").old,(relayed "x" "").gone] ∧ f.supply = { children := [⟨"x"⟩] } := ⟨_,rfl,rfl,rfl⟩
  have apart : ∀ r ∈ f.supply.children, Note.StandsOut r (slots f.code) := by
    rw [code,supply]
    intro r member
    rw [List.mem_singleton.1 member]
    decide
  obtain ⟨c,made,becomes,deleted⟩ : ∃ c, changeAt? .sparc f.supply f.code 0 = some c ∧
      c.code = [(relayed "x" "%i1 -> %o0").new] ∧ c.deleted = 1 := by
    rw [code,supply]
    exact ⟨_,rfl,rfl,rfl⟩
  have site := mem_sites_of_first made
  have rewords : Site.Rewords ⟨f.code,0,c⟩ f.supply (some (relayed "x" "%i1 -> %o0")) := by
    rw [Site.Rewords,becomes,deleted,code,supply]
    exact @Rewords.backward _ _ (relayed "x" "%i1 -> %o0") (.register ⟨"%o0"⟩) rfl rfl (by decide) rfl rfl rfl
      ⟨replaces_of_template? rfl rfl rfl,by decide,by decide,rfl⟩
  have spelt : (relayNote "x").IsSpelt (slots f.code) := by
    rw [code]
    exact ⟨by decide,⟨' ',rfl,rfl⟩,by decide,by decide,trivial,trivial⟩
  have kept := ((optimize_rewords accepted).2.2 apart).1 _ site
  exact ⟨f,accepted,apart,_,site,_,rewords,spelt,rfl,kept.2 _ rewords _ spelt rfl⟩

/-- With a name that is part of the other one, a name of the machine is spoilt. -/
theorem not_optimize_rewords_relay : ∃ f, (Selection.select .sparc {} (relay "i") false).outcome = .ok f ∧
    ∃ s ∈ sites .sparc f.supply f.code, ∃ w, s.Rewords f.supply (some w) ∧ w.old ∈ f.code ∧
      (∃ a, w.old.action? = some a ∧ a.Spells (relayNote "i")) ∧ w.old.note? = some (relayNote "i").text ∧
        ((relayNote "i").replace w.register w.value).text = "%i1 -> %o0" ∧ w.new.note? = some "%%o01 -> %o0" ∧
          ¬ w.Follows (relayNote "i") := by
  obtain ⟨f,accepted,code,supply⟩ : ∃ f, (Selection.select .sparc {} (relay "i") false).outcome = .ok f ∧
      f.code = [(relayed "i" "").old,(relayed "i" "").gone] ∧ f.supply = { children := [⟨"i"⟩] } := ⟨_,rfl,rfl,rfl⟩
  obtain ⟨c,made,becomes,deleted⟩ : ∃ c, changeAt? .sparc f.supply f.code 0 = some c ∧
      c.code = [(relayed "i" "%%o01 -> %o0").new] ∧ c.deleted = 1 := by
    rw [code,supply]
    exact ⟨_,rfl,rfl,rfl⟩
  have rewords : Site.Rewords ⟨f.code,0,c⟩ f.supply (some (relayed "i" "%%o01 -> %o0")) := by
    rw [Site.Rewords,becomes,deleted,code,supply]
    exact @Rewords.backward _ _ (relayed "i" "%%o01 -> %o0") (.register ⟨"%o0"⟩) rfl rfl (by decide) rfl rfl rfl
      ⟨replaces_of_template? rfl rfl rfl,by decide,by decide,rfl⟩
  have meant : ((relayNote "i").replace ⟨"i"⟩ [.mention (.register ⟨"%o0"⟩)]).text = "%i1 -> %o0" := rfl
  refine ⟨f,accepted,_,mem_sites_of_first made,_,rewords,?_,⟨_,rfl,.operand⟩,rfl,meant,rfl,?_⟩
  · rw [code]
    exact List.mem_cons_self
  · intro follows
    have same := Option.some.inj (follows.trans (congrArg some meant))
    exact absurd same (by decide)

end SparcBackend.Peephole
