import SchemaFamily.Proofs.Xml.Cuts
import SchemaFamily.Proofs.Xml.Runs

/-
  Tags as they may be written. `TagText` is a name and attributes with different keys, each with its
  value in quotes of either kind, and blanks wherever they may stand. Reading the markup gives the
  text of the tag back (`readMarkup_opening`, `readMarkup_empty`, `readMarkup_closing`), and reading
  the text of the tag gives its name and its attributes (`attributesOf_write`).
-/

namespace SchemaFamily.Xml

/-- No blank and no character that ends names or gives a tag another meaning. -/
def isMarkupNameChar (c : Char) : Bool := !isSpace c && !"<>=/\"'!?".toList.contains c

/-- A name in markup. -/
structure MarkupName where
  chars : List Char
  ne_nil : chars ≠ [] := by decide
  all_solid : chars.all isMarkupNameChar = true := by decide

theorem isSpace_space : isSpace ' ' = true := by decide

/-- An attribute as it may be written. -/
structure AttributeText where
  gap : Gap isSpace := .space isSpace_space
  key : MarkupName
  before : Blanks isSpace := .empty
  after : Blanks isSpace := .empty
  literal : Literal

/-- A tag as it may be written. -/
structure TagText where
  name : MarkupName
  attributes : List AttributeText := []
  tail : Blanks isSpace := .empty
  nodup : (attributes.map (·.key.chars)).Nodup := by decide

/-- The attribute as it is written. -/
def AttributeText.write (a : AttributeText) : List Char :=
  a.gap.chars ++ a.key.chars ++ a.before.chars ++ '=' :: a.after.chars ++ a.literal.write

/-- What the attribute is read as. -/
def AttributeText.raw (a : AttributeText) : RawAttribute := ⟨a.key.chars, a.literal.value⟩

/-- What is between the brackets of the tag. -/
def TagText.write (t : TagText) : List Char :=
  t.name.chars ++ (t.attributes.flatMap AttributeText.write ++ t.tail.chars)

theorem MarkupName.solid (name : MarkupName) :
    ∀ c ∈ name.chars, isSpace c = false ∧ c ∉ "<>=/\"'!?".toList := by
  intro c hc
  have hsolid := List.all_eq_true.1 name.all_solid c hc
  rwa [isMarkupNameChar, Bool.and_eq_true, Bool.not_eq_true', Bool.not_eq_true',
    List.contains_eq_mem, decide_eq_false_iff_not] at hsolid

theorem MarkupName.ne (name : MarkupName) {c : Char} (h : c ∈ name.chars) {d : Char}
    (hd : d ∈ "<>=/\"'!?".toList) : c ≠ d := by
  rintro rfl
  exact (name.solid c h).2 hd

theorem MarkupName.exists_cons (name : MarkupName) :
    ∃ c cs, name.chars = c :: cs ∧ c ∈ name.chars := by
  obtain ⟨c, cs, h⟩ := List.exists_cons_of_ne_nil name.ne_nil
  exact ⟨c, cs, h, h ▸ List.mem_cons_self⟩

/-- The name behind its first colon, or all of a name without one. -/
def MarkupName.unqualified (name : MarkupName) : String :=
  String.ofList (if ':' ∈ name.chars then (name.chars.dropWhile (· != ':')).tail else name.chars)

theorem MarkupName.ofList_localName (name : MarkupName) :
    String.ofList (localName name.chars) = name.unqualified := by
  have hnil : name.chars.dropWhile (· != ':') = [] ↔ ':' ∉ name.chars := by
    rw [List.dropWhile_eq_nil_iff]
    exact ⟨fun h hcolon => by simpa using h _ hcolon,
      fun h c hc => bne_iff_ne.2 (ne_of_mem_of_not_mem hc h)⟩
  rw [localName, MarkupName.unqualified]
  by_cases hcolon : ':' ∈ name.chars
  · obtain ⟨c, later, hcut⟩ := List.exists_cons_of_ne_nil fun h => hnil.1 h hcolon
    rw [hcut, if_pos hcolon, List.tail_cons]
  · rw [hnil.2 hcolon, if_neg hcolon]

/-! ## Reading attributes -/

/-- No `=` and no blank, as `attributesFrom` takes a key. -/
def isKeyChar (c : Char) : Bool := c != '=' && !isSpace c

theorem isKeyChar_of_isSpace {c : Char} (h : isSpace c = true) : isKeyChar c = false := by
  rw [isKeyChar, h]
  exact Bool.and_false _

theorem MarkupName.isKeyChar (name : MarkupName) {c : Char} (h : c ∈ name.chars) :
    isKeyChar c = true := by
  rw [SchemaFamily.Xml.isKeyChar, (name.solid c h).1]
  simpa using name.ne h (d := '=') (by decide)

theorem attributesFrom_blank (total : Nat) (earlier : List (List Char × Nat))
    (tail : Blanks isSpace) : attributesFrom total earlier tail.chars = ⟨[], none⟩ := by
  have hcut : (tail.chars ++ []).dropWhile isSpace = [] := tail.dropWhile fun _ h => by cases h
  rw [List.append_nil] at hcut
  rw [attributesFrom]
  split
  · rfl
  · next hcs =>
    rw [hcut] at hcs
    cases hcs

/-- A new key with its value is read and then what follows. -/
theorem attributesFrom_cons {total : Nat} {earlier : List (List Char × Nat)}
    {cs keyed valued value later : List Char} {first : Char}
    (hcs : cs.dropWhile isSpace = first :: keyed)
    (hvalued : afterEquals total (keyed.dropWhile isKeyChar) = .ok valued)
    (hnew : earlier.lookup (first :: keyed.takeWhile isKeyChar) = none)
    (hvalue : quotedValue total valued = .ok (value, later)) :
    ∃ start, attributesFrom total earlier cs =
      ⟨⟨first :: keyed.takeWhile isKeyChar, value⟩ ::
        (attributesFrom total ((first :: keyed.takeWhile isKeyChar, start) :: earlier) later).read,
        (attributesFrom total ((first :: keyed.takeWhile isKeyChar, start) :: earlier)
          later).fault⟩ := by
  refine ⟨total - byteLength (first :: keyed), ?_⟩
  rw [attributesFrom]
  split
  · next hnil =>
    rw [hcs] at hnil
    cases hnil
  · next first' keyed' hcs' =>
    rw [hcs] at hcs'
    cases hcs'
    dsimp only
    split
    · next fault hfault =>
      cases hvalued.symm.trans hfault
    · next valued' hvalued' =>
      cases hvalued.symm.trans hvalued'
      split
      · next previous hprevious => cases hnew.symm.trans hprevious
      · split
        · next fault hfault =>
          rw [hvalue] at hfault
          cases hfault
        · next value' later' hvalue' =>
          rw [hvalue] at hvalue'
          cases hvalue'
          rfl

theorem quotedValue_literal (total : Nat) (b : Blanks isSpace) (l : Literal) (later : List Char) :
    quotedValue total (b.chars ++ (l.write ++ later)) = .ok (l.value, later) := by
  have hquote : isSpace l.quote.char = false := by cases l.quote <;> decide
  have hcut : (b.chars ++ (l.quote.char :: (l.value ++ l.quote.char :: later))).dropWhile isSpace =
      l.quote.char :: (l.value ++ l.quote.char :: later) :=
    b.dropWhile fun c hc => by
      cases hc
      exact hquote
  obtain ⟨htake, hdrop⟩ := l.span later
  rw [l.write_append, quotedValue, hcut]
  dsimp only
  rw [if_pos l.quote.char_eq, hdrop, htake]

theorem afterEquals_write (total : Nat) (b : Blanks isSpace) (later : List Char) :
    afterEquals total (b.chars ++ '=' :: later) = .ok later := by
  have hcut : (b.chars ++ '=' :: later).dropWhile isSpace = '=' :: later :=
    b.dropWhile fun c hc => by
      cases hc
      decide
  rw [afterEquals, hcut]
  rfl

/-- An attribute as it is written is read back. -/
theorem attributesFrom_write (total : Nat) {earlier : List (List Char × Nat)} (a : AttributeText)
    (hnew : earlier.lookup a.key.chars = none) (cs : List Char) :
    ∃ start, attributesFrom total earlier (a.write ++ cs) =
      ⟨a.raw :: (attributesFrom total ((a.key.chars, start) :: earlier) cs).read,
        (attributesFrom total ((a.key.chars, start) :: earlier) cs).fault⟩ := by
  obtain ⟨first, keyed, hkey, hfirst⟩ := a.key.exists_cons
  obtain ⟨valued, hvalued⟩ : ∃ valued, valued = a.after.chars ++ (a.literal.write ++ cs) := ⟨_, rfl⟩
  have hwrite : a.write ++ cs =
      a.gap.chars ++ first :: (keyed ++ (a.before.chars ++ '=' :: valued)) := by
    rw [AttributeText.write, hkey, hvalued]
    simp only [List.append_assoc, List.cons_append]
  have hcs : (a.write ++ cs).dropWhile isSpace =
      first :: (keyed ++ (a.before.chars ++ '=' :: valued)) := by
    rw [hwrite]
    exact a.gap.dropWhile fun c hc => by
      cases hc
      exact (a.key.solid _ hfirst).1
  -- The key ends with the blanks behind it, or else with the `=`.
  obtain ⟨htake, hdrop⟩ : (keyed ++ (a.before.chars ++ '=' :: valued)).takeWhile isKeyChar = keyed ∧
      (keyed ++ (a.before.chars ++ '=' :: valued)).dropWhile isKeyChar =
        a.before.chars ++ '=' :: valued := by
    refine span_append (fun c hc => a.key.isKeyChar (hkey ▸ List.mem_cons_of_mem _ hc)) ?_
    intro c hc
    rcases hbefore : a.before.chars with _ | ⟨blank, more⟩ <;> rw [hbefore] at hc <;> cases hc
    · decide
    · exact isKeyChar_of_isSpace (a.before.blank_of_mem c (hbefore ▸ List.mem_cons_self))
  have hequals := afterEquals_write total a.before valued
  have hvalue := quotedValue_literal total a.after a.literal cs
  rw [← hvalued] at hvalue
  rw [← hdrop] at hequals
  rw [hkey, ← htake] at hnew
  obtain ⟨start, hread⟩ := attributesFrom_cons hcs hequals hnew hvalue
  rw [htake, ← hkey] at hread
  exact ⟨start, hread⟩

/-- Attributes as they are written are read back when their keys are new. -/
theorem attributesFrom_flatMap {total : Nat} {attributes : List AttributeText}
    (hnodup : (attributes.map (·.key.chars)).Nodup) (tail : Blanks isSpace)
    {earlier : List (List Char × Nat)}
    (hnew : ∀ a ∈ attributes, earlier.lookup a.key.chars = none) :
    attributesFrom total earlier (attributes.flatMap AttributeText.write ++ tail.chars) =
      ⟨attributes.map AttributeText.raw, none⟩ := by
  induction attributes generalizing earlier with
  | nil => exact attributesFrom_blank total earlier tail
  | cons a later ih =>
    obtain ⟨hfirst, hnew⟩ := List.forall_mem_cons.1 hnew
    rw [List.map_cons, List.nodup_cons] at hnodup
    obtain ⟨start, hread⟩ := attributesFrom_write total a hfirst
      (later.flatMap AttributeText.write ++ tail.chars)
    rw [List.flatMap_cons, List.append_assoc, hread, ih hnodup.2 fun other hother => ?_,
      List.map_cons]
    have hne : other.key.chars ≠ a.key.chars := fun heq =>
      hnodup.1 (heq ▸ List.mem_map_of_mem hother)
    rw [List.lookup_cons, beq_eq_false_iff_ne.2 hne]
    exact hnew other hother

/-! ## Reading the text of a tag -/

namespace TagText

variable (t : TagText)

/-- What is behind the name of a tag starts with a blank. -/
theorem isSpace_of_head {c : Char}
    (h : (t.attributes.flatMap AttributeText.write ++ t.tail.chars).head? = some c) :
    isSpace c = true := by
  rcases hattributes : t.attributes with _ | ⟨a, later⟩ <;> rw [hattributes] at h
  · exact t.tail.blank_of_mem c (List.mem_of_head? h)
  · rw [List.flatMap_cons, AttributeText.write] at h
    simp only [List.append_assoc] at h
    exact a.gap.blank_of_head h

theorem nameOf_write : nameOf t.write = t.name.chars ∧
    t.write.dropWhile (!isSpace ·) = t.attributes.flatMap AttributeText.write ++ t.tail.chars :=
  span_append (fun c hc => by rw [(t.name.solid c hc).1]; rfl)
    fun c hc => by rw [t.isSpace_of_head hc]; rfl

theorem attributesOf_write : attributesOf t.write = ⟨t.attributes.map AttributeText.raw, none⟩ := by
  rw [attributesOf, t.nameOf_write.2]
  exact attributesFrom_flatMap t.nodup t.tail fun _ _ => rfl

end TagText

/-! ## Reading the markup -/

theorem foldlM_tagStep_append {cs ds : List Char} (h : cs.foldlM tagStep none = some none)
    (h' : ds.foldlM tagStep none = some none) : (cs ++ ds).foldlM tagStep none = some none := by
  rw [List.foldlM_append, h]
  exact h'

theorem MarkupName.foldlM_tagStep (name : MarkupName) :
    name.chars.foldlM tagStep none = some none :=
  SchemaFamily.Xml.foldlM_tagStep fun _ hc =>
    ⟨name.ne hc (by decide), name.ne hc (by decide), name.ne hc (by decide)⟩

theorem Blanks.foldlM_tagStep (b : Blanks isSpace) : b.chars.foldlM tagStep none = some none := by
  refine SchemaFamily.Xml.foldlM_tagStep fun c hc => ?_
  have hblank := b.blank_of_mem c hc
  refine ⟨?_, ?_, ?_⟩ <;> rintro rfl <;> exact absurd hblank (by decide)

theorem AttributeText.foldlM_write (a : AttributeText) :
    a.write.foldlM tagStep none = some none := by
  have hliteral : a.literal.write.foldlM tagStep none = some none :=
    foldlM_tagStep_quoted a.literal.quote.char_eq fun c hc heq => a.literal.closed (heq ▸ hc)
  have hequals : ('=' :: a.after.chars).foldlM tagStep none = some none := a.after.foldlM_tagStep
  have hkey := foldlM_tagStep_append a.gap.foldlM_tagStep a.key.foldlM_tagStep
  have hbefore := foldlM_tagStep_append hkey a.before.foldlM_tagStep
  exact foldlM_tagStep_append (foldlM_tagStep_append hbefore hequals) hliteral

/-- What is last in two texts is last in one of them. -/
theorem getLast?_append_ne {cs ds : List Char} {c : Char} (h : cs.getLast? ≠ some c)
    (h' : ds.getLast? ≠ some c) : (cs ++ ds).getLast? ≠ some c := by
  rw [List.getLast?_append]
  cases hds : ds.getLast? with
  | none => exact h
  | some d =>
    rw [hds] at h'
    exact h'

theorem AttributeText.getLast?_write (a : AttributeText) : a.write.getLast? ≠ some '/' := by
  rw [AttributeText.write, Literal.write, ← List.append_assoc, List.getLast?_concat]
  cases a.literal.quote <;> decide

/-- What follows a `<` is read as a tag when no character in front of it says otherwise. -/
theorem readMarkup_of_cutAt {offset : Nat} {cs body later : List Char} {c : Char}
    (hhead : cs.head? = some c) (hbang : c ≠ '!') (hmark : c ≠ '?')
    (hcut : cutAt tagStep none cs = some (body, later)) :
    readMarkup offset cs = .ok ⟨tagOfBody body, byteLength body + 1, later⟩ := by
  unfold readMarkup
  split
  · cases hhead
    exact absurd rfl hbang
  · cases hhead
    exact absurd rfl hmark
  · rw [hcut]

/-- A body that starts with no slash is no end tag. -/
theorem tagOfBody_of_ne {body : List Char} {c : Char} (hhead : body.head? = some c)
    (hslash : c ≠ '/') :
    tagOfBody body = if body.getLast? = some '/' then .empty body.dropLast else .opening body := by
  unfold tagOfBody
  split
  · cases hhead
    exact absurd rfl hslash
  · rfl

namespace TagText

variable (t : TagText)

/-- What a tag is written with ends it nowhere. -/
theorem foldlM_write : t.write.foldlM tagStep none = some none := by
  have hattributes : ∀ attributes : List AttributeText,
      (attributes.flatMap AttributeText.write).foldlM tagStep none = some none := by
    intro attributes
    induction attributes with
    | nil => rfl
    | cons a later ih => exact foldlM_tagStep_append a.foldlM_write ih
  exact foldlM_tagStep_append t.name.foldlM_tagStep
    (foldlM_tagStep_append (hattributes t.attributes) t.tail.foldlM_tagStep)

/-- No slash ends what a tag is written with. -/
theorem getLast?_write : t.write.getLast? ≠ some '/' := by
  have hattributes : ∀ attributes : List AttributeText,
      (attributes.flatMap AttributeText.write).getLast? ≠ some '/' := by
    intro attributes
    induction attributes with
    | nil => decide
    | cons a later ih => exact getLast?_append_ne a.getLast?_write ih
  refine getLast?_append_ne (fun h => ?_) (getLast?_append_ne (hattributes _) fun h => ?_)
  · exact t.name.ne (List.mem_of_getLast? h) (by decide) rfl
  · exact absurd (t.tail.blank_of_mem _ (List.mem_of_getLast? h)) (by decide)

theorem exists_head :
    ∃ c, c ≠ '!' ∧ c ≠ '?' ∧ c ≠ '/' ∧ ∀ cs, (t.write ++ cs).head? = some c := by
  obtain ⟨c, cs, hname, hc⟩ := t.name.exists_cons
  exact ⟨c, t.name.ne hc (by decide), t.name.ne hc (by decide), t.name.ne hc (by decide),
    fun more => by rw [write, hname]; rfl⟩

theorem readMarkup_opening (offset : Nat) (later : List Char) :
    readMarkup offset (t.write ++ '>' :: later) =
      .ok ⟨.opening t.write, byteLength t.write + 1, later⟩ := by
  obtain ⟨c, hbang, hmark, hslash, hhead⟩ := t.exists_head
  rw [readMarkup_of_cutAt (hhead _) hbang hmark (cutAt_append t.foldlM_write rfl later),
    tagOfBody_of_ne (by simpa using hhead []) hslash, if_neg t.getLast?_write]

theorem readMarkup_empty (offset : Nat) (later : List Char) :
    readMarkup offset (t.write ++ '/' :: '>' :: later) =
      .ok ⟨.empty t.write, byteLength t.write + 2, later⟩ := by
  obtain ⟨c, hbang, hmark, hslash, hhead⟩ := t.exists_head
  have hsteps : (t.write ++ ['/']).foldlM tagStep none = some none :=
    foldlM_tagStep_append t.foldlM_write rfl
  have hcut : cutAt tagStep none (t.write ++ '/' :: '>' :: later) =
      some (t.write ++ ['/'], later) := by
    rw [List.append_cons]
    exact cutAt_append hsteps rfl later
  rw [readMarkup_of_cutAt (hhead _) hbang hmark hcut, tagOfBody_of_ne (hhead _) hslash,
    if_pos List.getLast?_concat, List.dropLast_concat, byteLength_append]
  rfl

end TagText

/-- The blanks behind the name in an end tag are not of the name. -/
theorem endName_write (name : MarkupName) (tail : Blanks isSpace) :
    endName (name.chars ++ tail.chars) = name.chars := by
  obtain ⟨first, _, hname, hfirst⟩ := name.exists_cons
  have hall : ¬ (name.chars ++ tail.chars).all isSpace = true := fun hall => by
    have hblank := List.all_eq_true.1 hall first (List.mem_append_left _ hfirst)
    rw [(name.solid first hfirst).1] at hblank
    cases hblank
  have hcut : (tail.chars.reverse ++ name.chars.reverse).dropWhile isSpace =
      name.chars.reverse := by
    refine (span_append (fun c hc => tail.blank_of_mem c (List.mem_reverse.1 hc)) ?_).2
    exact fun c hc => (name.solid c (List.mem_reverse.1 (List.mem_of_head? hc))).1
  rw [endName, if_neg hall, List.reverse_append, hcut, List.reverse_reverse]

theorem readMarkup_closing (name : MarkupName) (tail : Blanks isSpace) (offset : Nat)
    (later : List Char) :
    readMarkup offset ('/' :: (name.chars ++ tail.chars) ++ '>' :: later) =
      .ok ⟨.closing name.chars, byteLength (name.chars ++ tail.chars) + 2, later⟩ := by
  have hsteps : ('/' :: (name.chars ++ tail.chars)).foldlM tagStep none = some none :=
    foldlM_tagStep_append name.foldlM_tagStep tail.foldlM_tagStep
  have hsize : byteLength ('/' :: (name.chars ++ tail.chars)) + 1 =
      byteLength (name.chars ++ tail.chars) + 2 := by
    rw [byteLength_cons]
    show 1 + _ + 1 = _
    omega
  rw [readMarkup_of_cutAt rfl (by decide) (by decide) (cutAt_append hsteps rfl later), tagOfBody,
    endName_write, hsize]

end SchemaFamily.Xml
