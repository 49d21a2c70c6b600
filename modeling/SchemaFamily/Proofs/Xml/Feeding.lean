import SchemaFamily.Proofs.Xml.Runs
import SchemaFamily.Xml.Tree

/-
  Scanning and reading on. The first piece of a text is a run of text or markup, and the scan goes
  on behind it (`scanFrom_markup`, `scanFrom_text`). What a piece makes of what has been read before
  it is told case by case (`Nesting.stepped_of_step`). `Nesting.resume` is what the rest of a text
  makes of it: a piece in front of the rest is one step, and reading goes on behind it
  (`resume_markup`, `resume_text`). So what is said of the reading of a part of a text holds
  wherever the part stands.
-/

namespace SchemaFamily.Xml

/-- Nothing, or a text that starts with markup. -/
def StartsMarkup (cs : List Char) : Prop := ∀ c, cs.head? = some c → c = '<'

theorem startsMarkup_nil : StartsMarkup [] := fun _ h => by cases h

theorem startsMarkup_cons (cs : List Char) : StartsMarkup ('<' :: cs) := fun _ h => by
  cases h
  rfl

theorem dropByteOrderMark_of_ne {cs : List Char} (h : cs.head? ≠ some '\uFEFF') :
    dropByteOrderMark cs = cs := by
  unfold dropByteOrderMark
  split
  · exact absurd rfl h
  · rfl

theorem StartsMarkup.dropByteOrderMark_eq {cs : List Char} (h : StartsMarkup cs) :
    dropByteOrderMark cs = cs :=
  dropByteOrderMark_of_ne fun hhead => absurd (h '\uFEFF' hhead) (by decide)

/-- A text is a run of text, and starts with markup behind it. -/
theorem exists_run (cs : List Char) :
    ∃ raw later, cs = raw ++ later ∧ (∀ c ∈ raw, c ≠ '<') ∧ StartsMarkup later := by
  refine ⟨cs.takeWhile (· != '<'), cs.dropWhile (· != '<'),
    List.takeWhile_append_dropWhile.symm, fun c hc => ?_, fun c hc => ?_⟩
  · simpa using List.mem_takeWhile_imp hc
  · have := List.head?_dropWhile_not (· != '<') cs
    rw [hc] at this
    simpa using this

/-! ## Scanning on -/

theorem scanFrom_fault {offset : Nat} {cs : List Char} {fault : Located MarkupFault}
    (h : readMarkup offset cs = .error fault) :
    scanFrom offset ('<' :: cs) = ⟨[], some fault⟩ := by
  rw [scanFrom]
  split
  · next hfault =>
    cases h.symm.trans hfault
    rfl
  · next hpiece => cases h.symm.trans hpiece

/-- A text that starts with markup has that as its first piece. -/
theorem scanFrom_markup {offset : Nat} {cs : List Char} {piece : Piece}
    (h : readMarkup offset cs = .ok piece) :
    scanFrom offset ('<' :: cs) =
      .cons offset piece.markup (scanFrom (offset + 1 + piece.size) piece.later) := by
  rw [scanFrom]
  split
  · next hfault => cases h.symm.trans hfault
  · next hpiece =>
    cases h.symm.trans hpiece
    rfl

/-- A text that starts with a run of text up to markup has that as its first piece. -/
theorem scanFrom_text {offset : Nat} {raw later : List Char} (hne : raw ≠ [])
    (hraw : ∀ c ∈ raw, c ≠ '<') (hlater : StartsMarkup later) :
    scanFrom offset (raw ++ later) =
      .cons offset (.text raw) (scanFrom (offset + byteLength raw) later) := by
  obtain ⟨first, inner, rfl⟩ := List.exists_cons_of_ne_nil hne
  obtain ⟨hfirst, hinner⟩ := List.forall_mem_cons.1 hraw
  obtain ⟨htake, hdrop⟩ : (inner ++ later).takeWhile (· != '<') = inner ∧
      (inner ++ later).dropWhile (· != '<') = later :=
    span_append (fun c hc => bne_iff_ne.2 (hinner c hc)) fun c hc => by
      rw [hlater c hc]
      rfl
  rw [List.cons_append, scanFrom]
  · rw [htake, hdrop]
  · exact hfirst

/-! ## Reading on -/

/-- The entities that are known after a piece of markup. -/
def Markup.declares (known : EntityMap) : Markup → EntityMap
  | .doctype content => (declaredEntities content).foldl
      (fun known (name, value) => known.declare name value) known
  | _ => known

namespace Nesting

/-- What is read after a piece at `position`, when it can be read. -/
inductive Stepped (position : Position) (n : Nesting) : Markup → Nesting → Prop
  | opening {body : List Char} {tag : Tag} (read : tagOf n.entities position body = .ok tag) :
      Stepped position n (.opening body) { n with opened := ⟨tag, nameOf body, []⟩ :: n.opened }
  | empty {body : List Char} {tag : Tag} {m : Nesting}
      (read : tagOf n.entities position body = .ok tag) (added : n.addElement ⟨tag, []⟩ = .ok m) :
      Stepped position n (.empty body) m
  | closing {o : OpenElement} {outer : List OpenElement} {m : Nesting}
      (opened : n.opened = o :: outer)
      (added : addElement { n with opened := outer } o.close = .ok m) :
      Stepped position n (.closing o.fullName) m
  | outside {raw : List Char} (closed : n.opened = []) : Stepped position n (.text raw) n
  | text {raw : List Char} {content : String} (expanded : expand n.entities raw = .ok content) :
      Stepped position n (.text raw) (n.addText content)
  | verbatim (content : List Char) :
      Stepped position n (.verbatim content) (n.addText (String.ofList content))
  | doctype (content : List Char) :
      Stepped position n (.doctype content)
        { n with entities := Markup.declares n.entities (.doctype content) }
  | comment : Stepped position n .comment n
  | instruction : Stepped position n .instruction n

theorem stepped_of_step {n m : Nesting} {position : Position} {markup : Markup}
    (h : n.step position markup = .ok m) : n.Stepped position markup m := by
  unfold step at h
  split at h
  · split at h
    · cases h
    · next read =>
      cases h
      exact .opening read
  · split at h
    · cases h
    · next read => exact .empty read h
  · split at h
    · cases h
    · next opened =>
      split at h
      · next hname =>
        subst hname
        exact .closing opened h
      · cases h
  · split at h
    · next closed =>
      cases h
      exact .outside (List.isEmpty_iff.1 closed)
    · split at h
      · cases h
      · next expanded =>
        cases h
        exact .text expanded
  · cases h
    exact .verbatim _
  · cases h
    exact .doctype _
  · cases h
    exact .comment
  · cases h
    exact .instruction

variable {index : LineIndex}

/-- What a text is read to whose rest `cs`, from byte `offset` on, comes after what has been
    read. -/
def resume (index : LineIndex) (n : Nesting) (offset : Nat) (cs : List Char) :
    Except Malformed Element :=
  let found := scanFrom offset cs
  match n.run index found.pieces with
  | .error malformed => .error malformed
  | .ok n =>
    match found.fault with
    | some ⟨offset, fault⟩ => .error ⟨.markup fault, index.position offset, n.innermost?⟩
    | none => n.finish

theorem resume_nil (n : Nesting) (offset : Nat) : n.resume index offset [] = n.finish := by
  rw [resume, scanFrom]
  rfl

theorem resume_cons {n : Nesting} {offset : Nat} {cs : List Char} {markup : Markup}
    {offset' : Nat} {later : List Char}
    (h : scanFrom offset cs = .cons offset markup (scanFrom offset' later)) :
    n.resume index offset cs =
      (n.step (index.position offset) markup).bind (·.resume index offset' later) := by
  rw [resume, h]
  dsimp only [Scan.cons]
  rw [run]
  cases n.step (index.position offset) markup <;> rfl

theorem resume_markup {n : Nesting} {offset : Nat} {cs : List Char} {piece : Piece}
    (h : readMarkup offset cs = .ok piece) :
    n.resume index offset ('<' :: cs) =
      (n.step (index.position offset) piece.markup).bind
        (·.resume index (offset + 1 + piece.size) piece.later) :=
  resume_cons (scanFrom_markup h)

theorem resume_text {n : Nesting} {offset : Nat} {raw later : List Char} (hne : raw ≠ [])
    (hraw : ∀ c ∈ raw, c ≠ '<') (hlater : StartsMarkup later) :
    n.resume index offset (raw ++ later) =
      (n.step (index.position offset) (.text raw)).bind
        (·.resume index (offset + byteLength raw) later) :=
  resume_cons (scanFrom_text hne hraw hlater)

end Nesting

/-- A text is read from its start, a byte order mark apart. -/
theorem Element.parse_eq_resume (entities : EntityMap) (source : String) :
    Element.parse entities source =
      Nesting.resume (.of source.toList) ⟨entities, [], none⟩ 0
        (dropByteOrderMark source.toList) := rfl

end SchemaFamily.Xml
