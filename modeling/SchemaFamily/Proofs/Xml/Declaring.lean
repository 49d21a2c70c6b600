import Mathlib.Data.List.Infix
import SchemaFamily.Proofs.Xml.Runs
import SchemaFamily.Xml.Doctype

/-
  Written document types. `Doctype` is a document type declaration with its internal subset:
  declarations of general and of parameter entities, with a literal value or kept elsewhere,
  comments, and blanks. What the search for declarations passes over (`Skips`) is all text but that
  from the marker of a general entity with a literal value to the quote that closes the value;
  there the search goes on behind the value, whatever that holds. So exactly these entities are
  found, as long as no literal and no comment that is passed over holds the marker, and up to the
  first that does (`declared_of_doctype`). The search does look into those
  (`declared_in_parameter`).
-/

namespace SchemaFamily.Xml

/-! ## Parts of declarations -/

/-- No blank and no character that markup gives a meaning. -/
def isDeclaredNameChar (c : Char) : Bool := !isBlank c && !"<>&;%\"'".toList.contains c

/-- A name in a document type. -/
structure DeclaredName where
  chars : List Char
  ne_nil : chars ≠ [] := by decide
  all_solid : chars.all isDeclaredNameChar = true := by decide

theorem DeclaredName.solid (name : DeclaredName) :
    ∀ c ∈ name.chars, isBlank c = false ∧ c ∉ "<>&;%\"'".toList := by
  intro c hc
  have hsolid := List.all_eq_true.1 name.all_solid c hc
  rwa [isDeclaredNameChar, Bool.and_eq_true, Bool.not_eq_true', Bool.not_eq_true',
    List.contains_eq_mem, decide_eq_false_iff_not] at hsolid

theorem isBlank_space : isBlank ' ' = true := by decide

/-- Where the text of an entity is: in the declaration, or kept elsewhere. -/
inductive EntityText where
  | value (literal : Literal)
  | kept (gap : Gap isBlank) (address : Literal)
  | published (gap : Gap isBlank) (identifier : Literal) (gap' : Gap isBlank) (address : Literal)

/-- The text of an entity as it is written. -/
def EntityText.write : EntityText → List Char
  | .value literal => literal.write
  | .kept gap address => "SYSTEM".toList ++ gap.chars ++ address.write
  | .published gap identifier gap' address =>
    "PUBLIC".toList ++ gap.chars ++ identifier.write ++ gap'.chars ++ address.write

/-- The literals in the text of an entity. -/
def EntityText.literals : EntityText → List Literal
  | .value literal => [literal]
  | .kept _ address => [address]
  | .published _ identifier _ address => [identifier, address]

/-- The declaration of an entity, of a parameter entity if there is a gap behind its `%`. -/
structure EntityDeclaration where
  gap : Gap isBlank := .space isBlank_space
  parameter : Option (Gap isBlank) := none
  name : DeclaredName
  gap' : Gap isBlank := .space isBlank_space
  text : EntityText
  tail : Blanks isBlank := .empty

namespace EntityDeclaration

variable (d : EntityDeclaration)

/-- What tells parameter entities. -/
def percent : List Char :=
  match d.parameter with
  | none => []
  | some gap => '%' :: gap.chars

/-- The declaration as it is written. -/
def write : List Char :=
  "<!ENTITY".toList ++ d.gap.chars ++ d.percent ++ d.name.chars ++ d.gap'.chars ++ d.text.write ++
    d.tail.chars ++ ['>']

theorem write_eq : d.write = entityMarker ++ d.gap.chars ++ d.percent ++ d.name.chars ++
    d.gap'.chars ++ d.text.write ++ d.tail.chars ++ ['>'] := rfl

/-- The entity that is declared, if it is a general one with a literal value. -/
def entity? : Option (String × String) :=
  match d.parameter, d.text with
  | none, .value literal => some (String.ofList d.name.chars, String.ofList literal.value)
  | _, _ => none

end EntityDeclaration

/-- An item of an internal subset. -/
inductive SubsetItem where
  | entity (declaration : EntityDeclaration)
  | comment (content : List Char) (closed : ¬ "-->".toList <:+: content)
  | blanks (run : Blanks isBlank)

namespace SubsetItem

/-- An item as it is written. -/
def write : SubsetItem → List Char
  | .entity declaration => declaration.write
  | .comment content _ => "<!--".toList ++ content ++ "-->".toList
  | .blanks b => b.chars

/-- The entity that is declared, if it is a general one with a literal value. -/
def entity? : SubsetItem → Option (String × String)
  | .entity declaration => declaration.entity?
  | _ => none

/-- The texts in an item that say nothing about a general entity's value. -/
def passed : SubsetItem → List (List Char)
  | .entity declaration =>
    if declaration.entity?.isSome then [] else declaration.text.literals.map (·.value)
  | .comment content _ => [content]
  | .blanks _ => []

/-- No text in the item that says nothing about a general entity's value has the marker of a
    declaration. -/
def Quiet (item : SubsetItem) : Prop := ∀ text ∈ item.passed, ¬ "<!ENTITY".toList <:+: text

instance (item : SubsetItem) : Decidable item.Quiet :=
  inferInstanceAs (Decidable (∀ text ∈ item.passed, _))

end SubsetItem

/-- A text without brackets. -/
structure Unbracketed where
  chars : List Char
  opens : '<' ∉ chars := by decide
  closes : '>' ∉ chars := by decide

/-- One space. -/
def Unbracketed.space : Unbracketed where
  chars := [' ']

/-- A document type declaration from the name of the type on, with its internal subset; between the
    two it may say where the rest of the document type is kept. -/
structure Doctype where
  name : DeclaredName
  between : Unbracketed := .space
  items : List SubsetItem
  tail : Blanks isBlank := .empty

/-- The declaration from the name of the type on, as it is written. -/
def Doctype.write (d : Doctype) : List Char :=
  d.name.chars ++ d.between.chars ++ '[' :: d.items.flatMap SubsetItem.write ++ ']' :: d.tail.chars

/-- The general entities with a literal value, in order. -/
def Doctype.entities (d : Doctype) : List (String × String) :=
  d.items.filterMap SubsetItem.entity?

/-! ## What is passed over -/

/-- The search for a marker goes over the text, whatever follows. -/
def Skips (cs : List Char) : Prop :=
  ∀ later, after? entityMarker (cs ++ later) = after? entityMarker later

theorem after?_cons {c : Char} {cs : List Char} (h : ¬ entityMarker <+: c :: cs) :
    after? entityMarker (c :: cs) = after? entityMarker cs := by
  rw [after?, if_neg fun hp => h (List.isPrefixOf_iff_prefix.1 hp)]

theorem not_prefix_of_ne {c : Char} (h : c ≠ '<') (cs : List Char) :
    ¬ entityMarker <+: c :: cs := by
  rintro ⟨later, heq⟩
  exact h (List.cons.inj heq).1.symm

namespace Skips

variable {cs ds : List Char}

theorem append (h : Skips cs) (h' : Skips ds) : Skips (cs ++ ds) := fun later => by
  rw [List.append_assoc, h, h']

theorem of_not_mem (h : '<' ∉ cs) : Skips cs := by
  intro later
  induction cs with
  | nil => rfl
  | cons c cs ih =>
    rw [List.mem_cons, not_or] at h
    rw [List.cons_append, after?_cons (not_prefix_of_ne (Ne.symm h.1) _), ih h.2]

/-- A text without the marker is passed over, when a character that is not in the marker ends it. -/
theorem of_unmarked {c : Char} (h : ¬ entityMarker <:+: cs) (hc : c ∉ entityMarker) :
    Skips (cs ++ [c]) := by
  intro later
  induction cs with
  | nil => exact after?_cons (not_prefix_of_ne (fun heq => hc (by rw [heq]; decide)) _)
  | cons d cs ih =>
    have hmarker : ¬ entityMarker <+: d :: (cs ++ [c] ++ later) := by
      intro hp
      have hwhole : d :: cs ++ [c] <+: d :: (cs ++ [c] ++ later) := ⟨later, rfl⟩
      rcases List.prefix_or_prefix_of_prefix hp hwhole with hp | hp
      · rcases List.prefix_concat_iff.1 hp with heq | hp
        · exact hc (heq ▸ List.mem_append_right _ (List.mem_singleton_self c))
        · exact h hp.isInfix
      · exact hc (hp.subset (List.mem_append_right _ (List.mem_singleton_self c)))
    rw [List.cons_append, List.cons_append, after?_cons hmarker]
    exact ih fun hin => h (hin.trans (List.suffix_cons d cs).isInfix)

end Skips

theorem Blanks.skips (b : Blanks isBlank) : Skips b.chars :=
  .of_not_mem fun hmem => absurd (b.blank_of_mem _ hmem) (by decide)

theorem DeclaredName.not_mem (name : DeclaredName) {c : Char} (h : c ∈ "<>&;%\"'".toList) :
    c ∉ name.chars := fun hmem => (name.solid c hmem).2 h

theorem DeclaredName.skips (name : DeclaredName) : Skips name.chars :=
  .of_not_mem (name.not_mem (by decide))

/-- A literal without the marker is passed over. -/
theorem Literal.skips {l : Literal} (h : ¬ entityMarker <:+: l.value) : Skips l.write := by
  have hquote : l.quote.char ∉ entityMarker := by cases l.quote <;> decide
  have hne : l.quote.char ≠ '<' := fun heq => hquote (by rw [heq]; decide)
  exact (Skips.of_not_mem (by simpa using hne.symm) : Skips [l.quote.char]).append
    (.of_unmarked h hquote)

theorem EntityText.skips {text : EntityText}
    (h : ∀ l ∈ text.literals, ¬ entityMarker <:+: l.value) : Skips text.write := by
  cases text with
  | value literal => exact Literal.skips (h _ List.mem_cons_self)
  | kept gap address =>
    exact ((Skips.of_not_mem (by decide)).append gap.skips).append
      (Literal.skips (h _ List.mem_cons_self))
  | published gap identifier gap' address =>
    have hidentifier := Literal.skips (h identifier List.mem_cons_self)
    have haddress := Literal.skips (h address (List.mem_cons_of_mem _ List.mem_cons_self))
    exact ((((Skips.of_not_mem (by decide)).append gap.skips).append hidentifier).append
      gap'.skips).append haddress

/-! ## Reading declarations -/

theorem declaredEntities_eq (cs : List Char) :
    declaredEntities cs =
      match after? entityMarker cs with
      | none => []
      | some declaration =>
        match readEntity declaration with
        | none => []
        | some (entity, later) => entity.toList ++ declaredEntities later := by
  rw [declaredEntities]
  split
  · next h => rw [h]
  · next h =>
    rw [h]
    dsimp only
    split <;> next hread => rw [hread]

theorem declaredEntities_append {cs : List Char} (h : Skips cs) (later : List Char) :
    declaredEntities (cs ++ later) = declaredEntities later := by
  rw [declaredEntities_eq, h, ← declaredEntities_eq]

theorem after?_append (pattern cs : List Char) : after? pattern (pattern ++ cs) = some cs := by
  unfold after?
  rw [if_pos (List.isPrefixOf_iff_prefix.2 (List.prefix_append pattern cs)), List.drop_left]

/-- Where a declaration starts it is read, and the search goes on behind it. -/
theorem declaredEntities_marker {cs later : List Char} {entity : Option (String × String)}
    (h : readEntity cs = some (entity, later)) :
    declaredEntities (entityMarker ++ cs) = entity.toList ++ declaredEntities later := by
  rw [declaredEntities_eq, after?_append]
  dsimp only
  rw [h]

/-- What the declaration of an entity is read as, by what stands behind its name. -/
theorem readEntity_named (gap : Blanks isBlank) (name : DeclaredName) (gap' : Gap isBlank)
    {c : Char} (hc : isBlank c = false) (cs : List Char) :
    readEntity (gap.chars ++ (name.chars ++ (gap'.chars ++ c :: cs))) =
      if c = '"' ∨ c = '\'' then
        match cs.dropWhile (· != c) with
        | [] => none
        | _ :: later =>
          some (some (String.ofList name.chars, String.ofList (cs.takeWhile (· != c))), later)
      else some (none, c :: cs) := by
  obtain ⟨first, more, hname⟩ := List.exists_cons_of_ne_nil name.ne_nil
  have hfirst := name.solid first (hname ▸ List.mem_cons_self)
  have hhead : (name.chars ++ (gap'.chars ++ c :: cs)).head? = some first := by
    rw [hname]
    rfl
  have hnamed : (gap.chars ++ (name.chars ++ (gap'.chars ++ c :: cs))).dropWhile isBlank =
      name.chars ++ (gap'.chars ++ c :: cs) :=
    gap.dropWhile fun d hd => by
      rw [← Option.some.inj (hhead.symm.trans hd)]
      exact hfirst.1
  have hvalued : (gap'.chars ++ c :: cs).dropWhile isBlank = c :: cs :=
    gap'.dropWhile fun d hd => by
      rw [← Option.some.inj hd]
      exact hc
  obtain ⟨htake, hdrop⟩ := gap'.span (fun d hd => (name.solid d hd).1) (c :: cs)
  have hpercent : some first ≠ some '%' := by
    rintro ⟨⟩
    exact hfirst.2 (by decide)
  have hfilled : (String.ofList name.chars).isEmpty = false := by
    rw [hname]
    simp
  rw [readEntity, hnamed]
  dsimp only
  rw [hhead, if_neg hpercent, htake, hdrop, hvalued]
  dsimp only
  cases cs.dropWhile (· != c) with
  | nil => rfl
  | cons quote later =>
    rw [hfilled]
    rfl

/-- An entity with a literal value is read with it, up to the quote that closes it. -/
theorem readEntity_literal (gap : Blanks isBlank) (name : DeclaredName) (gap' : Gap isBlank)
    (l : Literal) (cs : List Char) :
    readEntity (gap.chars ++ (name.chars ++ (gap'.chars ++ (l.write ++ cs)))) =
      some (some (String.ofList name.chars, String.ofList l.value), cs) := by
  have hblank : isBlank l.quote.char = false := by cases l.quote <;> decide
  obtain ⟨htake, hdrop⟩ := l.span cs
  rw [l.write_append, readEntity_named gap name gap' hblank, if_pos l.quote.char_eq, hdrop, htake]

/-- Nothing is read of a parameter entity but its `%`. -/
theorem readEntity_parameter (gap : Blanks isBlank) (cs : List Char) :
    readEntity (gap.chars ++ '%' :: cs) = some (none, '%' :: cs) := by
  have hcut : (gap.chars ++ '%' :: cs).dropWhile isBlank = '%' :: cs :=
    gap.dropWhile fun c hc => by
      cases hc
      decide
  rw [readEntity, hcut]
  rfl

namespace EntityDeclaration

variable (d : EntityDeclaration)

/-- What is behind the part of a declaration that the search reads, when it tells of no value. -/
theorem skips_text (h : (SubsetItem.entity d).Quiet) (hd : d.entity? = none) :
    Skips d.text.write := by
  refine EntityText.skips fun l hl => h l.value ?_
  rw [SubsetItem.passed, hd]
  exact List.mem_map_of_mem hl

theorem skips_end : Skips (d.tail.chars ++ ['>']) :=
  d.tail.skips.append (.of_not_mem (by decide))

/-- The text of an entity that is kept elsewhere starts with a word. -/
theorem exists_write_cons {text : EntityText} (h : ∀ literal, text ≠ .value literal) :
    ∃ c cs, text.write = c :: cs ∧ isBlank c = false ∧ ¬ (c = '"' ∨ c = '\'') := by
  cases text with
  | value literal => exact absurd rfl (h literal)
  | kept => exact ⟨'S', _, rfl, by decide⟩
  | published => exact ⟨'P', _, rfl, by decide⟩

/-- A declaration gives the search the entity that it declares, if it is quiet. -/
theorem declaredEntities_write (h : (SubsetItem.entity d).Quiet) (later : List Char) :
    declaredEntities (d.write ++ later) = d.entity?.toList ++ declaredEntities later := by
  have hend := d.skips_end
  cases hparameter : d.parameter with
  | some percent =>
    have hd : d.entity? = none := by rw [entity?, hparameter]
    have hpercent : Skips ['%'] := .of_not_mem (by decide)
    have hbehind : Skips ('%' :: percent.chars ++ d.name.chars ++ d.gap'.chars ++ d.text.write ++
        (d.tail.chars ++ ['>'])) :=
      ((((hpercent.append percent.skips).append
        d.name.skips).append d.gap'.skips).append (d.skips_text h hd)).append hend
    have hwrite : d.write ++ later = entityMarker ++ (d.gap.chars ++ '%' :: (percent.chars ++
        d.name.chars ++ d.gap'.chars ++ d.text.write ++ (d.tail.chars ++ ['>']) ++ later)) := by
      simp only [write_eq, EntityDeclaration.percent, hparameter, List.append_assoc,
        List.cons_append]
    rw [hwrite, declaredEntities_marker (readEntity_parameter d.gap.toBlanks _), hd]
    exact declaredEntities_append hbehind later
  | none =>
    have hwrite : d.write ++ later = entityMarker ++ (d.gap.chars ++ (d.name.chars ++
        (d.gap'.chars ++ (d.text.write ++ (d.tail.chars ++ ['>'] ++ later))))) := by
      simp only [write_eq, EntityDeclaration.percent, hparameter, List.append_assoc,
        List.nil_append]
    rw [hwrite]
    by_cases hvalue : ∃ literal, d.text = .value literal
    · obtain ⟨literal, htext⟩ := hvalue
      have hd : d.entity? = some (String.ofList d.name.chars, String.ofList literal.value) := by
        rw [entity?, hparameter, htext]
      have hread := readEntity_literal d.gap.toBlanks d.name d.gap' literal
        (d.tail.chars ++ ['>'] ++ later)
      have hwritten : d.text.write = literal.write := congrArg EntityText.write htext
      rw [hwritten, declaredEntities_marker hread, declaredEntities_append hend, hd]
    · have hd : d.entity? = none := by
        rw [entity?, hparameter]
        cases htext : d.text with
        | value literal => exact absurd ⟨literal, htext⟩ hvalue
        | kept => rfl
        | published => rfl
      obtain ⟨c, cs, hcs, hblank, hquote⟩ :=
        exists_write_cons fun literal htext => hvalue ⟨literal, htext⟩
      have hread := readEntity_named d.gap.toBlanks d.name d.gap' hblank
        (cs ++ (d.tail.chars ++ ['>'] ++ later))
      rw [if_neg hquote] at hread
      rw [hcs, List.cons_append, declaredEntities_marker hread, hd, ← List.cons_append, ← hcs,
        declaredEntities_append (d.skips_text h hd), declaredEntities_append hend]

end EntityDeclaration

/-- An item gives the search the entity that it declares, if it is quiet. -/
theorem SubsetItem.declaredEntities_write (item : SubsetItem) (h : item.Quiet)
    (later : List Char) :
    declaredEntities (item.write ++ later) = item.entity?.toList ++ declaredEntities later := by
  cases item with
  | entity d => exact d.declaredEntities_write h later
  | blanks run => exact declaredEntities_append run.skips later
  | comment content closed =>
    have hopens : Skips ("<!-".toList ++ ['-']) := .of_unmarked (by decide) (by decide)
    have hcontent : Skips (content ++ ['-']) :=
      .of_unmarked (h content List.mem_cons_self) (by decide)
    have hcloses : Skips "->".toList := .of_not_mem (by decide)
    have hwrite : (comment content closed).write =
        "<!-".toList ++ ['-'] ++ (content ++ ['-']) ++ "->".toList := by
      simp [write]
    rw [hwrite]
    exact declaredEntities_append ((hopens.append hcontent).append hcloses) later

theorem declaredEntities_flatMap {items : List SubsetItem} (h : ∀ item ∈ items, item.Quiet)
    (later : List Char) :
    declaredEntities (items.flatMap SubsetItem.write ++ later) =
      items.filterMap SubsetItem.entity? ++ declaredEntities later := by
  induction items with
  | nil => rfl
  | cons item items ih =>
    obtain ⟨hitem, hitems⟩ := List.forall_mem_cons.1 h
    rw [List.flatMap_cons, List.append_assoc, item.declaredEntities_write hitem, ih hitems,
      ← List.append_assoc]
    cases hentity : item.entity? <;> simp [hentity]

theorem declaredEntities_of_skips {cs : List Char} (h : Skips cs) : declaredEntities cs = [] := by
  have hnil : declaredEntities [] = [] := by
    rw [declaredEntities_eq]
    rfl
  rw [← List.append_nil cs, declaredEntities_append h, hnil]

namespace Doctype

variable (d : Doctype)

theorem skips_front : Skips (d.name.chars ++ d.between.chars ++ ['[']) :=
  (d.name.skips.append (.of_not_mem d.between.opens)).append (.of_not_mem (by decide))

theorem skips_back : Skips (']' :: d.tail.chars) := by
  have hcloses : Skips [']'] := .of_not_mem (by decide)
  exact hcloses.append d.tail.skips

theorem write_eq : d.write = d.name.chars ++ d.between.chars ++ ['['] ++
    (d.items.flatMap SubsetItem.write ++ ']' :: d.tail.chars) := by
  simp [write]

/-- The items up to one that is not quiet give the search what they declare. -/
theorem declaredEntities_front {front back : List SubsetItem} (h : d.items = front ++ back)
    (hfront : ∀ item ∈ front, item.Quiet) :
    declaredEntities d.write = front.filterMap SubsetItem.entity? ++
      declaredEntities (back.flatMap SubsetItem.write ++ ']' :: d.tail.chars) := by
  rw [d.write_eq, declaredEntities_append d.skips_front, h, List.flatMap_append, List.append_assoc,
    declaredEntities_flatMap hfront]

theorem declaredEntities_quiet (h : ∀ item ∈ d.items, item.Quiet) :
    declaredEntities d.write = d.entities := by
  rw [d.declaredEntities_front (List.append_nil _).symm h]
  show _ ++ declaredEntities (']' :: d.tail.chars) = _
  rw [declaredEntities_of_skips d.skips_back, List.append_nil, entities]

end Doctype

/-- Of a document type the general entities with a literal value are found, with their values as
    they are written and in order, and nothing else, if no text that says nothing of such a value
    has the marker of a declaration: not the value of a parameter entity, not a literal of an entity
    that is kept elsewhere, and not a comment. What stands before the first such text is found in
    any case. -/
theorem declared_of_doctype (d : Doctype) :
    ((∀ item ∈ d.items, item.Quiet) → declaredEntities d.write = d.entities) ∧
    ∀ front back, d.items = front ++ back → (∀ item ∈ front, item.Quiet) →
      front.filterMap SubsetItem.entity? <+: declaredEntities d.write := by
  refine ⟨d.declaredEntities_quiet, fun front back hitems hfront => ?_⟩
  rw [d.declaredEntities_front hitems hfront]
  exact List.prefix_append _ _

/-- A document type with items of all kinds, one value with the marker in it. -/
def mixedDoctype : Doctype where
  name := ⟨"METASCHEMA".toList, by decide, by decide⟩
  items := [
    .blanks ⟨"\n".toList, by decide⟩,
    .entity {
      parameter := some (.space isBlank_space)
      name := ⟨"local".toList, by decide, by decide⟩
      text := .kept (.space isBlank_space) { value := "local.ent".toList } },
    .comment " both \"a\" and 'b' ".toList (by decide),
    .entity {
      name := ⟨"a".toList, by decide, by decide⟩
      text := .value { value := "<!ENTITY b 'no'>".toList } },
    .entity {
      name := ⟨"short".toList, by decide, by decide⟩
      text := .value { quote := .single, value := "EC".toList }
      tail := ⟨[' '], by decide⟩ }]

/-- A document type that declares an entity, and then a parameter entity with a declaration for
    its value. -/
def nestedDoctype : Doctype where
  name := ⟨['a'], by decide, by decide⟩
  items := [
    .entity { name := ⟨['e'], by decide, by decide⟩, text := .value { value := ['v'] } },
    .entity {
      parameter := some (.space isBlank_space)
      name := ⟨['p'], by decide, by decide⟩
      text := .value { quote := .single, value := "<!ENTITY x \"y\">".toList } }]

theorem declared_of_mixedDoctype :
    mixedDoctype.write = ("METASCHEMA [\n<!ENTITY % local SYSTEM \"local.ent\">" ++
      "<!-- both \"a\" and 'b' --><!ENTITY a \"<!ENTITY b 'no'>\"><!ENTITY short 'EC' >]").toList ∧
    declaredEntities mixedDoctype.write = [("a", "<!ENTITY b 'no'>"), ("short", "EC")] ∧
    [("e", "v")] <+: declaredEntities nestedDoctype.write :=
  ⟨by decide +kernel,
    ((declared_of_doctype mixedDoctype).1 (by decide +kernel)).trans (by decide +kernel),
    (declared_of_doctype nestedDoctype).2 (nestedDoctype.items.take 1) (nestedDoctype.items.drop 1)
      rfl (by decide)⟩

/-- The value of a parameter entity is searched for declarations. -/
theorem declared_in_parameter :
    nestedDoctype.write = "a [<!ENTITY e \"v\"><!ENTITY % p '<!ENTITY x \"y\">'>]".toList ∧
    nestedDoctype.entities = [("e", "v")] ∧
    declaredEntities nestedDoctype.write = [("e", "v"), ("x", "y")] :=
  ⟨by decide +kernel, by decide, by decide +kernel⟩

end SchemaFamily.Xml
