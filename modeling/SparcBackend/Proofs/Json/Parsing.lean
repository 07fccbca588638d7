import SparcBackend.Proofs.Json.Lexing

/-!
A value is rebuilt from its tokens in whatever containers it stands, and therefore read back from
any text that a printer with blanks alone between tokens writes of it.
-/
namespace SparcBackend.Json
variable {value : Json} {rest : List Token} {stack : List Frame} {layout : Layout}

/-- What comes next, once some tokens have been read. -/
def Expected.run (e : Expected) (tokens : List Token) : Option Expected := tokens.foldlM Expected.step e

theorem Expected.run_cons (e : Expected) (t : Token) : e.run (t :: rest) = (e.step t).bind fun e' => e'.run rest := by
  simp only [Expected.run,List.foldlM_cons,Option.bind_eq_bind]

/-- No value starts with the end of an array. -/
theorem tokens_front (value : Json) : ∃ t ts, value.tokens = t :: ts ∧ t ≠ .closeArray := by
  cases value with
  | array items => cases items <;> simp [tokens]
  | object members => cases members <;> simp [tokens]
  | _ => simp [tokens]

/-- The first item of an array is read as any value in an array is. -/
theorem run_firstItem (value : Json) :
    (Expected.firstItem stack).run (value.tokens ++ rest) = (Expected.value (.array [] :: stack)).run (value.tokens ++ rest) := by
  obtain ⟨t,ts,front,opens⟩ := tokens_front value
  rw [front,List.cons_append,Expected.run_cons,Expected.run_cons]
  cases t <;> first | rfl | exact absurd rfl opens

mutual

theorem run_tokens (value : Json) (stack : List Frame) (rest : List Token) :
    (Expected.value stack).run (value.tokens ++ rest) = (deliver value stack).run rest := by
  match value with
  | .null | .bool _ | .number _ | .string _ =>
    rw [tokens]
    rfl
  | .array [] =>
    rw [tokens]
    rfl
  | .array (item :: items) =>
    calc (Expected.value stack).run (tokens (.array (item :: items)) ++ rest)
        = (Expected.firstItem stack).run (item.tokens ++ (itemTokens items ++ .closeArray :: rest)) := by
          rw [tokens]
          simp [Expected.run_cons,Expected.step,beginValue]
      _ = (Expected.nextItem [item] stack).run (itemTokens items ++ .closeArray :: rest) := by
          rw [run_firstItem,run_tokens item]
          rfl
      _ = (deliver (.array (item :: items)) stack).run rest := by
          rw [run_itemTokens items,Expected.run_cons]
          simp [Expected.step]
  | .object [] =>
    rw [tokens]
    rfl
  | .object ((key,value) :: members) =>
    calc (Expected.value stack).run (tokens (.object ((key,value) :: members)) ++ rest)
        = (Expected.value (.object [] key :: stack)).run (value.tokens ++ (memberTokens members ++ .closeObject :: rest)) := by
          rw [tokens]
          simp [Expected.run_cons,Expected.step,beginValue]
      _ = (Expected.nextMember [(key,value)] stack).run (memberTokens members ++ .closeObject :: rest) := by
          rw [run_tokens value]
          rfl
      _ = (deliver (.object ((key,value) :: members)) stack).run rest := by
          rw [run_memberTokens members,Expected.run_cons]
          simp [Expected.step]

theorem run_itemTokens (items before : List Json) (stack : List Frame) (rest : List Token) :
    (Expected.nextItem before stack).run (itemTokens items ++ rest) = (Expected.nextItem (items.reverse ++ before) stack).run rest := by
  match items with
  | [] => rw [itemTokens]; rfl
  | item :: items =>
    rw [itemTokens]
    show (Expected.value (.array before :: stack)).run (item.tokens ++ itemTokens items ++ rest) = _
    rw [List.append_assoc,run_tokens item]
    show (Expected.nextItem (item :: before) stack).run (itemTokens items ++ rest) = _
    rw [run_itemTokens items]
    simp

theorem run_memberTokens (members before : List (Option String × Json)) (stack : List Frame) (rest : List Token) :
    (Expected.nextMember before stack).run (memberTokens members ++ rest) = (Expected.nextMember (members.reverse ++ before) stack).run rest := by
  match members with
  | [] => rw [memberTokens]; rfl
  | (key,value) :: members =>
    rw [memberTokens]
    show (Expected.value (.object before key :: stack)).run (value.tokens ++ memberTokens members ++ rest) = _
    rw [List.append_assoc,run_tokens value]
    show (Expected.nextMember ((key,value) :: before) stack).run (memberTokens members ++ rest) = _
    rw [run_memberTokens members]
    simp

end

theorem ofTokens?_tokens (value : Json) : ofTokens? value.tokens = some value := by
  have all := run_tokens value [] []
  rw [List.append_nil] at all
  unfold ofTokens?
  rw [show value.tokens.foldlM Expected.step (.value []) = some (.nothing value) from all]
  rfl

/-- Reading undoes writing, in every layout that keeps tokens apart with blanks alone. -/
theorem parse?_render (blank : layout.IsBlank) (writable : value.IsWritable) : parse? (render layout 0 value) = some value := by
  unfold parse?
  rw [tokens?_render blank writable]
  exact ofTokens?_tokens value

end SparcBackend.Json
