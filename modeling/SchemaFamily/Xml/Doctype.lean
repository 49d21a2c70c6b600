import SchemaFamily.Text.Blank
import SchemaFamily.Xml.Reference

/-
  Entities declared in a document type declaration. A declaration `<!ENTITY name "value">` gives
  a general entity a literal value; parameter entities (`%`) and entities kept elsewhere declare
  nothing here. The search for the next declaration goes on from where the last one was left.
-/

namespace SchemaFamily.Xml

/-- What follows the first occurrence of `pattern` in `cs`. -/
def after? (pattern cs : List Char) : Option (List Char) :=
  if pattern.isPrefixOf cs then some (cs.drop pattern.length)
  else match cs with
    | [] => none
    | _ :: cs => after? pattern cs

theorem after?_length {pattern cs later : List Char} (h : after? pattern cs = some later) :
    later.length + pattern.length ≤ cs.length := by
  induction cs with
  | nil =>
    unfold after? at h
    split at h
    · next hp =>
      cases h
      have := (List.isPrefixOf_iff_prefix.1 hp).length_le
      simp only [List.length_drop]
      omega
    · cases h
  | cons c cs ih =>
    unfold after? at h
    split at h
    · next hp =>
      cases h
      have := (List.isPrefixOf_iff_prefix.1 hp).length_le
      simp only [List.length_drop]
      omega
    · have := ih h
      simp only [List.length_cons]
      omega

/-- What starts the declaration of an entity. -/
def entityMarker : List Char := "<!ENTITY".toList

/-- Reads a declaration after its marker: the entity that it gives a literal value, if it does,
    and where the search goes on. There is nothing to go on with when a value is not closed. -/
def readEntity (cs : List Char) : Option (Option (String × String) × List Char) :=
  let named := cs.dropWhile isBlank
  let name := String.ofList (named.takeWhile (!isBlank ·))
  let valued := (named.dropWhile (!isBlank ·)).dropWhile isBlank
  if named.head? = some '%' then some (none, named)
  else match valued with
    | [] => some (none, [])
    | quote :: body =>
      if quote = '"' ∨ quote = '\'' then
        match body.dropWhile (· != quote) with
        | [] => none
        | _ :: later =>
          let value := String.ofList (body.takeWhile (· != quote))
          some (if name.isEmpty then none else some (name, value), later)
      else some (none, valued)

theorem readEntity_length {cs later : List Char} {entity : Option (String × String)}
    (h : readEntity cs = some (entity, later)) : later.length ≤ cs.length := by
  have h₁ := (List.dropWhile_sublist (p := isBlank) (l := cs)).length_le
  have h₂ := (List.dropWhile_sublist (p := (!isBlank ·)) (l := cs.dropWhile isBlank)).length_le
  have h₃ := (List.dropWhile_sublist (p := isBlank)
    (l := (cs.dropWhile isBlank).dropWhile (!isBlank ·))).length_le
  unfold readEntity at h
  simp only at h
  split at h
  · cases h; exact h₁
  · split at h
    · cases h; exact Nat.zero_le _
    · next quote body hv =>
      rw [hv, List.length_cons] at h₃
      split at h
      · have h₄ := (List.dropWhile_sublist (p := (· != quote)) (l := body)).length_le
        split at h
        · cases h
        · next hb =>
          rw [hb, List.length_cons] at h₄
          cases h
          omega
      · cases h
        rw [hv, List.length_cons]
        omega

/-- The general entities declared with a literal value, in order. -/
def declaredEntities (cs : List Char) : List (String × String) :=
  match _h : after? entityMarker cs with
  | none => []
  | some declaration =>
    match _hr : readEntity declaration with
    | none => []
    | some (entity, later) => entity.toList ++ declaredEntities later
termination_by cs.length
decreasing_by
  have h₁ := after?_length _h
  have h₂ := readEntity_length _hr
  have h₃ : entityMarker.length = 8 := rfl
  omega

end SchemaFamily.Xml
