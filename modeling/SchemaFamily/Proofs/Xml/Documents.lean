import SchemaFamily.Proofs.Xml.Contents
import SchemaFamily.Proofs.Xml.Declaring

/-
  Documents with references. `DocumentText` is a document with a document type that declares
  entities, a root with references in text and in values at any depth, and text, comments and
  instructions around it. What stands for its root is told by what is known of entities: the value
  that is configured, else the first that is declared, else the predefined one (`known`). Reading
  the document gives that, but for places, or fails at the first reference to an entity without a
  value and names the element that it is in (`parse_of_document`). The values of attributes that
  bind a namespace are not read (`parse_of_unreadBinding`).
-/

namespace SchemaFamily.Xml

/-! ## Document types -/

/-- The texts that an item holds in quotes or as a comment. -/
def SubsetItem.texts : SubsetItem → List (List Char)
  | .entity declaration => declaration.text.literals.map (·.value)
  | .comment content _ => [content]
  | .blanks _ => []

/-- No text in the document type has a bracket. -/
def Doctype.Level (d : Doctype) : Prop :=
  ∀ item ∈ d.items, ∀ text ∈ item.texts, '<' ∉ text ∧ '>' ∉ text

instance (d : Doctype) : Decidable d.Level :=
  inferInstanceAs (Decidable (∀ item ∈ d.items, _))

namespace Doctype.Level

variable {d : Doctype}

/-- The marker of a declaration has a bracket. -/
theorem quiet (h : d.Level) : ∀ item ∈ d.items, item.Quiet := by
  intro item hitem text htext hmarker
  have hmem : text ∈ item.texts := by
    cases item with
    | entity declaration =>
      rw [SubsetItem.passed] at htext
      split at htext
      · cases htext
      · exact htext
    | comment => exact htext
    | blanks => exact htext
  exact (h item hitem text hmem).1 (hmarker.subset (by decide))

end Doctype.Level

theorem Blanks.balanced (b : Blanks isBlank) : Balanced b.chars :=
  .of_not_mem (fun h => absurd (b.blank_of_mem _ h) (by decide))
    fun h => absurd (b.blank_of_mem _ h) (by decide)

theorem DeclaredName.balanced (name : DeclaredName) : Balanced name.chars :=
  .of_not_mem (name.not_mem (by decide)) (name.not_mem (by decide))

theorem Literal.balanced {l : Literal} (h : '<' ∉ l.value ∧ '>' ∉ l.value) : Balanced l.write := by
  have hquote : Balanced [l.quote.char] := by
    cases l.quote <;> exact .of_not_mem (by decide) (by decide)
  exact (hquote.append (.of_not_mem h.1 h.2)).append hquote

theorem EntityText.balanced {text : EntityText}
    (h : ∀ l ∈ text.literals, '<' ∉ l.value ∧ '>' ∉ l.value) : Balanced text.write := by
  cases text with
  | value literal => exact Literal.balanced (h _ List.mem_cons_self)
  | kept gap address =>
    have hkeyword : Balanced "SYSTEM".toList := .of_not_mem (by decide) (by decide)
    exact (hkeyword.append gap.balanced).append (Literal.balanced (h _ List.mem_cons_self))
  | published gap identifier gap' address =>
    have hkeyword : Balanced "PUBLIC".toList := .of_not_mem (by decide) (by decide)
    have hidentifier := Literal.balanced (h identifier List.mem_cons_self)
    have haddress := Literal.balanced (h address (List.mem_cons_of_mem _ List.mem_cons_self))
    exact (((hkeyword.append gap.balanced).append hidentifier).append gap'.balanced).append haddress

theorem EntityDeclaration.balanced {d : EntityDeclaration}
    (h : ∀ l ∈ d.text.literals, '<' ∉ l.value ∧ '>' ∉ l.value) : Balanced d.write := by
  have hpercent : Balanced d.percent := by
    rw [EntityDeclaration.percent]
    cases d.parameter with
    | none => exact fun _ => rfl
    | some gap =>
      have hopens : Balanced ['%'] := .of_not_mem (by decide) (by decide)
      exact hopens.append gap.balanced
  have hkeyword : Balanced "!ENTITY".toList := .of_not_mem (by decide) (by decide)
  have hinner := (((((hkeyword.append d.gap.balanced).append hpercent).append
    d.name.balanced).append d.gap'.balanced).append (EntityText.balanced h)).append d.tail.balanced
  exact hinner.enclose

theorem SubsetItem.balanced {item : SubsetItem} (h : ∀ text ∈ item.texts, '<' ∉ text ∧ '>' ∉ text) :
    Balanced item.write := by
  cases item with
  | entity d => exact EntityDeclaration.balanced fun l hl => h _ (List.mem_map_of_mem hl)
  | blanks run => exact run.balanced
  | comment content closed =>
    obtain ⟨hopens, hcloses⟩ := h content List.mem_cons_self
    have hfront : Balanced "!--".toList := .of_not_mem (by decide) (by decide)
    have hback : Balanced "--".toList := .of_not_mem (by decide) (by decide)
    have hinner := (hfront.append (.of_not_mem hopens hcloses)).append hback
    have hwrite : (comment content closed).write =
        '<' :: ("!--".toList ++ content ++ "--".toList) ++ ['>'] := by
      simp [write]
    rw [hwrite]
    exact hinner.enclose

theorem Doctype.Level.balanced {d : Doctype} (h : d.Level) : Balanced d.write := by
  have hitems : Balanced (d.items.flatMap SubsetItem.write) :=
    Balanced.flatMap fun item hitem => SubsetItem.balanced (h item hitem)
  have hopens : Balanced ['['] := .of_not_mem (by decide) (by decide)
  have hcloses : Balanced [']'] := .of_not_mem (by decide) (by decide)
  rw [d.write_eq]
  have hbetween : Balanced d.between.chars := .of_not_mem d.between.opens d.between.closes
  exact ((d.name.balanced.append hbetween).append hopens).append
    (hitems.append (hcloses.append d.tail.balanced))

/-! ## What is known of entities -/

/-- A declaration counts if its name has no value yet. -/
theorem lookup_declare (entities : EntityMap) (name value other : String) :
    (entities.declare name value).lookup other =
      (entities.lookup other).or (List.lookup other [(name, value)]) := by
  rw [EntityMap.declare]
  split
  · next hsome =>
    by_cases heq : other = name
    · obtain ⟨known, hknown⟩ := Option.isSome_iff_exists.1 hsome
      rw [heq, hknown]
      rfl
    · rw [List.lookup_cons, beq_eq_false_iff_ne.2 heq]
      exact (Option.or_none).symm
  · rw [List.lookup_append]

/-- Of the values that are declared the first counts, if there is none before. -/
theorem lookup_declares (entities : EntityMap) (declared : List (String × String)) (name : String) :
    (declared.foldl (fun known (name, value) => known.declare name value) entities).lookup name =
      (entities.lookup name).or (declared.lookup name) := by
  induction declared generalizing entities with
  | nil => exact (Option.or_none).symm
  | cons entry later ih =>
    have hlater : List.lookup name ([entry] ++ later) =
        (List.lookup name [entry]).or (later.lookup name) := List.lookup_append
    rw [List.foldl_cons, ih, lookup_declare, Option.or_assoc, ← hlater]
    rfl

/-! ## Texts of documents -/

/-- What stands outside of the root: text, and then comments and instructions, each with text behind
    it. -/
inductive OutsideText where
  | done (text : List Char) (plain : '<' ∉ text)
  | next (text : List Char) (plain : '<' ∉ text) (aside : Aside) (whole : aside.Whole)
      (later : OutsideText)

/-- What stands outside of the root, as it is written. -/
def OutsideText.write : OutsideText → List Char
  | .done text _ => text
  | .next text _ aside _ later => text ++ (aside.write ++ later.write)

/-- A document as it may be written. -/
structure DocumentText where
  front : OutsideText := .done [] (by decide)
  gap : Gap isSpace := .space isSpace_space
  doctype : Doctype
  level : doctype.Level := by decide
  middle : OutsideText := .done [] (by decide)
  root : ElementText
  back : OutsideText := .done [] (by decide)

namespace DocumentText

variable (d : DocumentText)

/-- The document type declaration behind its opening bracket. -/
def declaration : List Char := "!DOCTYPE".toList ++ (d.gap.chars ++ d.doctype.write)

/-- The document as it is written. -/
def write : List Char :=
  d.front.write ++ '<' :: (d.declaration ++ '>' :: (d.middle.write ++ (d.root.write ++
    d.back.write)))

/-- The value of an entity in the document: the one that is configured, else the first that is
    declared, else the predefined one. -/
def known (configured : EntityMap) (name : String) : Option String :=
  (configured.lookup name).or ((d.doctype.entities.lookup name).or (standardEntities.lookup name))

end DocumentText

/-! ## Reading documents -/

section

variable {n : Nesting} {rest : List Char}

/-- Text outside of the root is not read, whatever it names. -/
theorem resume_unread (index : LineIndex) {text : List Char} (plain : '<' ∉ text)
    (hopened : n.opened = []) (hrest : StartsMarkup rest) (offset : Nat) :
    ∃ offset', n.resume index offset (text ++ rest) = n.resume index offset' rest := by
  by_cases hnil : text = []
  · exact ⟨offset, by rw [hnil, List.nil_append]⟩
  · refine ⟨offset + byteLength text, ?_⟩
    have hclosed : n.opened.isEmpty = true := by rw [hopened]; rfl
    rw [Nesting.resume_text hnil (fun c hc heq => plain (heq ▸ hc)) hrest, Nesting.step,
      if_pos hclosed]
    rfl

theorem OutsideText.resume (index : LineIndex) (outside : OutsideText) (hopened : n.opened = [])
    (hrest : StartsMarkup rest) (offset : Nat) :
    ∃ offset', n.resume index offset (outside.write ++ rest) = n.resume index offset' rest := by
  induction outside generalizing offset with
  | done text plain => exact resume_unread index plain hopened hrest offset
  | next text plain aside whole later ih =>
    obtain ⟨offset₁, htext⟩ := resume_unread index plain hopened
      (startsMarkup_cons (aside.body ++ ['>'] ++ (later.write ++ rest))) offset
    obtain ⟨offset₂, haside⟩ := resume_aside index whole n offset₁ (later.write ++ rest)
    obtain ⟨offset₃, hlater⟩ := ih offset₂
    refine ⟨offset₃, ?_⟩
    rw [OutsideText.write, List.append_assoc, List.append_assoc]
    exact htext.trans (haside.trans hlater)

theorem isBlank_of_isSpace {c : Char} (h : isSpace c = true) : isBlank c = true := by
  simp only [isSpace, Bool.or_eq_true, beq_iff_eq] at h
  rcases h with ((rfl | rfl) | rfl) | rfl <;> decide

/-- What a document type declares is known behind it. -/
theorem resume_doctype (index : LineIndex) {content : List Char} (balanced : Balanced content)
    (named : content.dropWhile isSpace ≠ []) (n : Nesting) (offset : Nat) (rest : List Char) :
    ∃ offset', n.resume index offset ('<' :: ("!DOCTYPE".toList ++ content ++ '>' :: rest)) =
      Nesting.resume index { n with
        entities := Markup.declares n.entities (.doctype (content.dropWhile isSpace)) } offset'
        rest :=
  ⟨_, Nesting.resume_markup (readMarkup_doctype balanced named offset rest)⟩

theorem resume_declaration (index : LineIndex) (d : DocumentText) (n : Nesting) (offset : Nat)
    (rest : List Char) :
    ∃ offset', n.resume index offset ('<' :: (d.declaration ++ '>' :: rest)) =
      Nesting.resume index
        { n with entities := Markup.declares n.entities (.doctype d.doctype.write) } offset'
        rest := by
  obtain ⟨first, _, hname⟩ := List.exists_cons_of_ne_nil d.doctype.name.ne_nil
  have hcut : (d.gap.chars ++ d.doctype.write).dropWhile isSpace = d.doctype.write :=
    d.gap.dropWhile fun c hc => by
      rw [Doctype.write, hname] at hc
      cases hc
      rw [Bool.eq_false_iff]
      intro hspace
      have hsolid := (d.doctype.name.solid first (hname ▸ List.mem_cons_self)).1
      rw [isBlank_of_isSpace hspace] at hsolid
      cases hsolid
  have hgap : Balanced d.gap.chars :=
    .of_not_mem (fun h => absurd (d.gap.blank_of_mem _ h) (by decide))
      fun h => absurd (d.gap.blank_of_mem _ h) (by decide)
  have hnamed : (d.gap.chars ++ d.doctype.write).dropWhile isSpace ≠ [] := by
    rw [hcut, Doctype.write, hname]
    exact List.cons_ne_nil _ _
  have hread := resume_doctype index (hgap.append d.level.balanced) hnamed n offset rest
  rwa [hcut] at hread

/-- A mark at the start of a text is no markup. -/
theorem dropByteOrderMark_append {text : List Char} (plain : '<' ∉ text)
    (hrest : StartsMarkup rest) :
    ∃ text', '<' ∉ text' ∧ dropByteOrderMark (text ++ rest) = text' ++ rest := by
  cases text with
  | nil => exact ⟨[], plain, hrest.dropByteOrderMark_eq⟩
  | cons c text =>
    by_cases hmark : c = '\uFEFF'
    · exact ⟨text, fun hmem => plain (List.mem_cons_of_mem c hmem), by rw [hmark]; rfl⟩
    · exact ⟨c :: text, plain, dropByteOrderMark_of_ne fun hhead => hmark (Option.some.inj hhead)⟩

theorem OutsideText.exists_dropByteOrderMark (outside : OutsideText) (hrest : StartsMarkup rest) :
    ∃ outside' : OutsideText,
      dropByteOrderMark (outside.write ++ rest) = outside'.write ++ rest := by
  cases outside with
  | done text plain =>
    obtain ⟨text', plain', hdrop⟩ := dropByteOrderMark_append plain hrest
    exact ⟨.done text' plain', hdrop⟩
  | next text plain aside whole later =>
    obtain ⟨text', plain', hdrop⟩ := dropByteOrderMark_append plain
      (startsMarkup_cons (aside.body ++ ['>'] ++ (later.write ++ rest)))
    refine ⟨.next text' plain' aside whole later, ?_⟩
    rw [write, write, List.append_assoc, List.append_assoc, List.append_assoc, List.append_assoc]
    exact hdrop

end

/-- The values in the document are those that are known behind its document type. -/
theorem DocumentText.known_eq (d : DocumentText) (configured : EntityMap) :
    EntityMap.resolve? (Markup.declares configured (.doctype d.doctype.write)) =
      d.known configured := by
  funext name
  rw [EntityMap.resolve?, Markup.declares, lookup_declares,
    d.doctype.declaredEntities_quiet d.level.quiet, Option.or_assoc]
  rfl

/-- Reading a document gives the element that its root stands for, but for places. Every reference
    to an entity in text or in a value, at any depth, is replaced by the value that is configured,
    else by the first that the document type declares, else by the predefined one, and what replaces
    it is not read again. If there is no value for the first such reference, reading fails, and the
    fault names the entity and the innermost element at that place. References outside of the root
    have no effect. -/
theorem parse_of_document (configured : EntityMap) (d : DocumentText) :
    match d.root.resolve (d.known configured) with
    | .ok root => ∃ e, Element.parse configured (String.ofList d.write) = .ok e ∧ e.unplaced = root
    | .error unknown => ∃ malformed,
        Element.parse configured (String.ofList d.write) = .error malformed ∧
          unknown.ToldBy malformed := by
  obtain ⟨index, hindex⟩ : ∃ index, index = LineIndex.of d.write := ⟨_, rfl⟩
  obtain ⟨front, hfront⟩ := d.front.exists_dropByteOrderMark (startsMarkup_cons (d.declaration ++
    '>' :: (d.middle.write ++ (d.root.write ++ d.back.write))))
  obtain ⟨offset₁, hread₁⟩ := front.resume index (n := ⟨configured, [], none⟩) rfl
    (startsMarkup_cons (d.declaration ++ '>' :: (d.middle.write ++ (d.root.write ++ d.back.write))))
    0
  obtain ⟨offset₂, hread₂⟩ := resume_declaration index d ⟨configured, [], none⟩ offset₁
    (d.middle.write ++ (d.root.write ++ d.back.write))
  obtain ⟨offset₃, hread₃⟩ := d.middle.resume index
    (n := ⟨Markup.declares configured (.doctype d.doctype.write), [], none⟩) rfl
    (d.root.startsMarkup d.back.write) offset₂
  have hparse : Element.parse configured (String.ofList d.write) =
      Nesting.resume index ⟨Markup.declares configured (.doctype d.doctype.write), [], none⟩ offset₃
        (d.root.write ++ d.back.write) := by
    rw [Element.parse_eq_resume, String.toList_ofList, ← hindex, DocumentText.write, hfront, hread₁,
      hread₂, hread₃]
  have hadds : AddsTold index (d.known configured) d.root.write _ := d.root.addsTold
  have hroot := hadds ⟨Markup.declares configured (.doctype d.doctype.write), [], none⟩ offset₃
    d.back.write (d.known_eq configured)
  rw [hparse]
  cases hresolve : d.root.resolve (d.known configured) with
  | error unknown =>
    rw [hresolve] at hroot
    exact hroot
  | ok root =>
    rw [hresolve] at hroot
    obtain ⟨e, offset₄, hunplaced, hread₄⟩ := hroot
    obtain ⟨offset₅, hread₅⟩ := d.back.resume index
      (n := ⟨Markup.declares configured (.doctype d.doctype.write), [], some e⟩) rfl
      startsMarkup_nil offset₄
    rw [List.append_nil] at hread₅
    refine ⟨e, hread₄.trans ?_, hunplaced⟩
    show Nesting.resume index ⟨_, [], some e⟩ offset₄ d.back.write = .ok e
    rw [hread₅, Nesting.resume_nil]
    rfl

/-- A document in which one entity is declared twice and a predefined one anew, with references in
    text, in a value, in the binding of a namespace and in front of the root. -/
def referringDocument : DocumentText where
  front := .done "&nope; ".toList (by decide)
  doctype := {
    name := ⟨['r'], by decide, by decide⟩
    items := [
      .entity {
        name := ⟨"org".toList, by decide, by decide⟩
        text := .value { quote := .single, value := "first".toList } },
      .entity {
        name := ⟨"org".toList, by decide, by decide⟩
        text := .value { value := "second".toList } },
      .entity { name := ⟨"gt".toList, by decide, by decide⟩, text := .value { value := ['!'] } }] }
  root := .around
    { name := ⟨"m:a".toList, by decide, by decide⟩
      attributes := [
        { key := ⟨"xmlns:m".toList, by decide, by decide⟩
          parts := [.entity "nope".toList (by decide) (by decide)] },
        { key := ⟨['t'], by decide, by decide⟩
          quote := .single
          parts := [.entity "org".toList (by decide) (by decide),
            .entity "gt".toList (by decide) (by decide)] }] }
    (.next ⟨[.entity "lt".toList (by decide) (by decide), .plain " or ".toList (by decide)],
        by decide⟩
      (.element (.around { name := ⟨['b'], by decide, by decide⟩ }
        (.done ⟨[.entity "product".toList (by decide) (by decide)], by decide⟩) .empty))
      (.done ⟨[], by decide⟩)) .empty

theorem parse_of_referringDocument :
    referringDocument.write =
      ("&nope; <!DOCTYPE r [<!ENTITY org 'first'><!ENTITY org \"second\"><!ENTITY gt \"!\">]>" ++
        "<m:a xmlns:m=\"&nope;\" t='&org;&gt;'>&lt; or <b>&product;</b></m:a>").toList ∧
    (∃ e, Element.parse [("product", "&amp;")] (String.ofList referringDocument.write) = .ok e ∧
      e.unplaced = ⟨⟨"a", [("t", "first!")], .unknown⟩,
        [.text "< or ", .element ⟨"b", [], .unknown⟩ [.text "&amp;"]]⟩) ∧
    ∃ malformed, Element.parse [] (String.ofList referringDocument.write) = .error malformed ∧
      UnknownEntity.ToldBy ⟨"b", "product"⟩ malformed :=
  ⟨by decide +kernel, parse_of_document [("product", "&amp;")] referringDocument,
    parse_of_document [] referringDocument⟩

/-- A document that names an entity without a value in the binding of a namespace. -/
def unreadBinding : DocumentText where
  doctype := {
    name := ⟨['r'], by decide, by decide⟩
    items := [
      .entity {
        name := ⟨"org".toList, by decide, by decide⟩
        text := .value { value := "second".toList } }] }
  root := .single
    { name := ⟨['r'], by decide, by decide⟩
      attributes := [
        { key := ⟨"xmlns".toList, by decide, by decide⟩
          parts := [.entity "nope".toList (by decide) (by decide)] }] }

/-- The value of an attribute that binds a namespace is not read, whatever it names. -/
theorem parse_of_unreadBinding :
    unreadBinding.write = "<!DOCTYPE r [<!ENTITY org \"second\">]><r xmlns=\"&nope;\"/>".toList ∧
    unreadBinding.known [] "nope" = none ∧
    (Element.parse [] (String.ofList unreadBinding.write)).isOk = true :=
  ⟨by decide +kernel, by decide +kernel, by decide +kernel⟩

end SchemaFamily.Xml
