import SchemaFamily.Proofs.Xml.Entities
import SchemaFamily.Proofs.Xml.Runs

/-
  Escaping. `escape` writes the four characters that markup gives a meaning as references to
  predefined entities, and everything else as it is. What is escaped holds no `<` and no quote, so
  it ends a run of text or a value where it should, and expanding it gives the text back
  (`expand_escape`), whatever entities there are, as long as the predefined ones keep their values.
-/

namespace SchemaFamily.Xml

/-- A character as it is written in text and in values. -/
def escapeChar : Char → List Char
  | '&' => "&amp;".toList
  | '<' => "&lt;".toList
  | '>' => "&gt;".toList
  | '"' => "&quot;".toList
  | c => [c]

/-- Characters as they are written in text and in values. -/
def escape (cs : List Char) : List Char := cs.flatMap escapeChar

/-- The entities that need no declaration. -/
def standardEntities : EntityMap :=
  [("lt", "<"), ("gt", ">"), ("amp", "&"), ("apos", "'"), ("quot", "\"")]

/-- The predefined entities are given no other values than they have without a declaration. -/
def EntityMap.KeepsPredefined (entities : EntityMap) : Prop :=
  ∀ entity ∈ standardEntities, (entities.lookup entity.1).getD entity.2 = entity.2

instance (entities : EntityMap) : Decidable entities.KeepsPredefined :=
  inferInstanceAs (Decidable (∀ entity ∈ standardEntities, _))

theorem EntityMap.KeepsPredefined.resolve?_eq {entities : EntityMap}
    (h : entities.KeepsPredefined) {entity : String × String} (he : entity ∈ standardEntities) :
    entities.resolve? entity.1 = some entity.2 := by
  have hvalue := h entity he
  rw [EntityMap.resolve?]
  cases hlookup : entities.lookup entity.1 with
  | some value =>
    rw [hlookup, Option.getD_some] at hvalue
    rw [Option.some_or, hvalue]
  | none =>
    have hstandard : ∀ entity ∈ standardEntities, predefined.lookup entity.1 = some entity.2 := by
      decide
    exact hstandard entity he

/-- A character is written as itself, or as a reference to the predefined entity of its value. -/
theorem escapeChar_cases (c : Char) :
    (escapeChar c = [c] ∧ c ≠ '&' ∧ c ≠ '<' ∧ c ≠ '>' ∧ c ≠ '"') ∨
      ∃ name, escapeChar c = '&' :: name ++ [';'] ∧ (∀ x ∈ name, x.isAlpha = true) ∧
        (String.ofList name, String.singleton c) ∈ standardEntities := by
  unfold escapeChar
  split
  · exact .inr ⟨"amp".toList, rfl, List.all_eq_true.mp (by decide), by decide⟩
  · exact .inr ⟨"lt".toList, rfl, List.all_eq_true.mp (by decide), by decide⟩
  · exact .inr ⟨"gt".toList, rfl, List.all_eq_true.mp (by decide), by decide⟩
  · exact .inr ⟨"quot".toList, rfl, List.all_eq_true.mp (by decide), by decide⟩
  · next hamp hlt hgt hquot => exact .inl ⟨rfl, hamp, hlt, hgt, hquot⟩

theorem escape_cons (c : Char) (cs : List Char) :
    escape (c :: cs) = escapeChar c ++ escape cs := rfl

theorem escape_ne_nil {cs : List Char} (h : cs ≠ []) : escape cs ≠ [] := by
  cases cs with
  | nil => exact absurd rfl h
  | cons c cs =>
    rw [escape_cons]
    rcases escapeChar_cases c with ⟨hc, _⟩ | ⟨name, hc, _⟩ <;> simp [hc]

/-- What is escaped opens no markup and closes no value. -/
theorem ne_of_mem_escape {cs : List Char} {x : Char} (h : x ∈ escape cs) : x ≠ '<' ∧ x ≠ '"' := by
  obtain ⟨c, _, hx⟩ := List.mem_flatMap.1 h
  rcases escapeChar_cases c with ⟨hc, _, hlt, _, hquot⟩ | ⟨name, hc, halpha, _⟩
  · rw [hc, List.mem_singleton] at hx
    exact hx ▸ ⟨hlt, hquot⟩
  · rw [hc, List.cons_append, List.mem_cons, List.mem_append, List.mem_singleton] at hx
    rcases hx with rfl | hx | rfl
    · decide
    · have := halpha x hx
      constructor
      · rintro rfl
        exact absurd this (by decide)
      · rintro rfl
        exact absurd this (by decide)
    · decide

/-! ## Expanding -/

variable {entities : EntityMap}

/-- A text without references is what it expands to. -/
theorem expandFrom_of_plain {total : Nat} {cs : List Char} (h : cs.dropWhile (· != '&') = []) :
    expandFrom entities total cs = .ok (String.ofList (cs.takeWhile (· != '&'))) := by
  rw [expandFrom]
  split
  · rfl
  · next hamp =>
    rw [h] at hamp
    cases hamp

/-- A character that starts no reference is kept. -/
theorem expandFrom_cons {c : Char} (h : c ≠ '&') (total : Nat) (cs : List Char) :
    expandFrom entities total (c :: cs) =
      (expandFrom entities total cs).map (String.ofList [c] ++ ·) := by
  have hne : (c != '&') = true := by simpa using h
  have htake : (c :: cs).takeWhile (· != '&') = [c] ++ cs.takeWhile (· != '&') :=
    List.takeWhile_cons_of_pos hne
  have hdrop : (c :: cs).dropWhile (· != '&') = cs.dropWhile (· != '&') :=
    List.dropWhile_cons_of_pos hne
  cases hcs : cs.dropWhile (· != '&') with
  | nil =>
    rw [expandFrom_of_plain hcs, expandFrom_of_plain (hdrop.trans hcs), htake, String.ofList_append]
    rfl
  | cons amp inner =>
    by_cases hends : ∃ later, inner.dropWhile (!endsReferenceName ·) = ';' :: later
    · obtain ⟨later, hlater⟩ := hends
      rw [expandFrom_of_reference hcs hlater, expandFrom_of_reference (hdrop.trans hcs) hlater,
        htake, String.ofList_append]
      cases replacement entities (total - byteLength (amp :: inner))
          (inner.takeWhile (!endsReferenceName ·)) with
      | error fault => rfl
      | ok value =>
        cases expandFrom entities total later with
        | error fault => rfl
        | ok more => simp only [Except.map, String.append_assoc]
    · have hnot := not_exists.1 hends
      rw [expandFrom_of_unterminated hcs hnot, expandFrom_of_unterminated (hdrop.trans hcs) hnot]
      rfl

/-- A reference that ends is replaced, or not expanded. -/
theorem expandFrom_reference {name : List Char}
    (hname : name.all (!endsReferenceName ·) = true) (total : Nat) (cs : List Char) :
    expandFrom entities total ('&' :: (name ++ ';' :: cs)) =
      match replacement entities (total - byteLength ('&' :: (name ++ ';' :: cs))) name with
      | .error fault => .error fault
      | .ok value => (expandFrom entities total cs).map (value ++ ·) := by
  have hamp : ('&' :: (name ++ ';' :: cs)).dropWhile (· != '&') = '&' :: (name ++ ';' :: cs) :=
    List.dropWhile_cons_of_neg (by decide)
  obtain ⟨htake, hdrop⟩ : (name ++ ';' :: cs).takeWhile (!endsReferenceName ·) = name ∧
      (name ++ ';' :: cs).dropWhile (!endsReferenceName ·) = ';' :: cs :=
    span_cons (List.all_eq_true.1 hname) (by decide)
  rw [expandFrom_of_reference hamp hdrop, htake]
  cases replacement entities (total - byteLength ('&' :: (name ++ ';' :: cs))) name with
  | error fault => rfl
  | ok value =>
    cases expandFrom entities total cs with
    | error fault => rfl
    | ok more =>
      show Except.ok ("" ++ value ++ more) = _
      rw [String.empty_append]
      rfl

/-- A reference to a predefined entity is replaced by its value. -/
theorem replacement_predefined (hkept : entities.KeepsPredefined) {name : List Char}
    {value : String} (hvalue : (String.ofList name, value) ∈ standardEntities)
    (halpha : ∀ x ∈ name, x.isAlpha = true) (start : Nat) :
    replacement entities start name = .ok value := by
  unfold replacement
  split
  · next digits => exact absurd (halpha '#' List.mem_cons_self) (by decide)
  · rw [hkept.resolve?_eq hvalue]

/-- Expanding undoes escaping. -/
theorem expand_escape (hkept : entities.KeepsPredefined) (cs : List Char) :
    expand entities (escape cs) = .ok (String.ofList cs) := by
  have hfrom : ∀ total, expandFrom entities total (escape cs) = .ok (String.ofList cs) := by
    intro total
    induction cs with
    | nil => exact expandFrom_of_plain rfl
    | cons c cs ih =>
      rw [escape_cons, ← List.singleton_append, String.ofList_append]
      rcases escapeChar_cases c with ⟨hc, hamp, _⟩ | ⟨name, hc, halpha, hvalue⟩
      · rw [hc, List.singleton_append, expandFrom_cons hamp, ih]
        rfl
      · have hname : name.all (!endsReferenceName ·) = true := List.all_eq_true.2 fun x hx => by
          have hx := halpha x hx
          rw [endsReferenceName, Bool.not_eq_true', Bool.or_eq_false_iff, beq_eq_false_iff_ne,
            beq_eq_false_iff_ne]
          exact ⟨by rintro rfl; exact absurd hx (by decide),
            by rintro rfl; exact absurd hx (by decide)⟩
        rw [hc, List.append_assoc, ← String.singleton_eq_ofList, List.singleton_append,
          List.cons_append, expandFrom_reference hname,
          replacement_predefined hkept hvalue halpha, ih]
        rfl
  exact hfrom _

end SchemaFamily.Xml
