import SchemaFamily.Proofs.Disk.Spelling
import SchemaFamily.Proofs.Draft.Origins

/-
  Names of a draft. What has to be named by an attribute that must not be blank is named by one:
  definitions, references, imports and groups have names with ink, except that the `ref` and the
  `name` of the usage of a flag are taken as they are, so a blank name is one that a flag was given
  there (`names_of_read`). A document has an empty name exactly when its root says so and its short
  name has no word (`name_eq_empty_iff`); a path always lends one that is not empty.
-/

namespace SchemaFamily

open Xml

/-! ## Names that paths lend -/

namespace Path

theorem ne_empty_of_fileName? {p : Path} {name : String} (h : p.fileName? = some name) :
    name ≠ "" := by
  unfold fileName? at h
  split at h
  · next text hlast =>
    cases h
    have hmem : Component.name name ∈ p.components := List.mem_of_getLast? hlast
    rcases List.mem_append.1 hmem with hstart | hsteps
    · rw [Option.mem_toList, start?] at hstart
      split at hstart <;> cases hstart
    · obtain ⟨segment, _, hsegment⟩ := List.mem_filterMap.1 hsteps
      unfold Component.ofSegment? at hsegment
      split at hsegment
      · cases hsegment
      · next hne =>
        split at hsegment
        · cases hsegment
        · cases hsegment
          exact fun hempty => hne (.inl hempty)
  · cases h

/-- What stands before the last dot of a name is not empty, as a dot in front cuts nothing off. -/
theorem splitName_fst_ne_empty {name : String} (h : name ≠ "") : (splitName name).1 ≠ "" := by
  unfold splitName
  split
  · exact h
  · exact h
  · exact h
  · next hnil hone hdot =>
    match hcut : cut '.' name with
    | [] => exact absurd hcut hnil
    | [x] => exact absurd hcut (hone x)
    | [x, y] =>
      rw [List.dropLast_cons_cons, List.dropLast_singleton, String.intercalate_singleton]
      rintro rfl
      exact hdot y hcut
    | x :: y :: z :: later =>
      -- the dot between the first two parts stays
      rw [List.dropLast_cons_cons, List.dropLast_cons_cons, String.intercalate_cons_cons]
      simp

theorem stem?_ne_empty {p : Path} {stem : String} (h : p.stem? = some stem) : stem ≠ "" := by
  obtain ⟨name, hname, rfl⟩ := Option.map_eq_some_iff.1 h
  exact splitName_fst_ne_empty (ne_empty_of_fileName? hname)

end Path

/-! ## Names that elements give -/

theorem Xml.Element.childText?_ne_empty {e : Element} {name text : String}
    (h : e.childText? name = some text) : text ≠ "" := by
  simpa using (Option.filter_eq_some_iff.1 h).2

/-- What must not be blank is not blank in a valid document. -/
theorem Xml.Element.Valid.inked {root e : Element} {key name : String} (h : root.Valid)
    (hasks : root.Asks (.inked key) e) (hname : e.attribute? key = some name) :
    hasInk name = true := by
  obtain ⟨value, hvalue, hink⟩ := h _ _ hasks
  rw [hname] at hvalue
  cases hvalue
  exact hink

namespace Draft

variable {entities : EntityMap} {path : Path} {source : String} {draft : Draft} {root : Element}

/-- A document has an empty name only when its root gives it one. -/
theorem name_eq_empty_iff {header : Header} (h : headerOf path root = .ok header) :
    header.name = "" ↔ root.childText? "short-name" = none ∧ root.attribute? "root" = some "" := by
  simp only [headerOf, bind, Except.bind] at h
  split at h
  · cases h
  · cases h
    dsimp only
    cases hshort : root.childText? "short-name" with
    | some text => simpa using Element.childText?_ne_empty hshort
    | none =>
      cases hroot : root.attribute? "root" with
      | some name => simp
      | none =>
        cases hstem : path.stem? with
        | some stem => simpa using Path.stem?_ne_empty hstem
        | none => simp

/-- Nothing that the draft names has a blank name, and the document itself has a name. -/
structure Named (draft : Draft) : Prop where
  header : draft.header.name ≠ ""
  imports : ∀ i ∈ draft.imports, hasInk i.href = true
  definitions : ∀ d ∈ draft.definitions, hasInk d.definition.name = true
  references : ∀ d ∈ draft.definitions, ∀ su ∈ d.definition.usages,
    ∀ name, su.2.referenceName? = some name → hasInk name = true
  groups : ∀ d ∈ draft.definitions, ∀ su ∈ d.definition.usages,
    ∀ g, su.2.groupAs = some g → hasInk g.name = true

/-- The usage of a flag refers to one, or names one, by a text that is blank. -/
def BlankFlag (root : Element) (name : String) : Prop :=
  hasInk name = false ∧ ∃ e, root.UsesFlag e ∧ e.name = "flag" ∧
    (e.attribute? "ref").or (e.attribute? "name") = some name

/-- A definition has the name that its element must not leave blank, or it is a flag that was named
    where it is used. -/
theorem name_of_origin {definitions : List Drafted} {d : Drafted} {e : Element}
    (hvalid : root.Valid) (h : d.Origin root definitions e) :
    hasInk d.definition.name = true ∨
      d.definition.kind = .flag ∧ BlankFlag root d.definition.name := by
  rcases h.stands with hdefines | ⟨huses, hname, href, hkind⟩
  · exact .inl (hvalid.inked (.definition hdefines) h.made.name)
  · cases hink : hasInk d.definition.name with
    | true => exact .inl rfl
    | false => exact .inr ⟨hkind, hink, e, huses, hname, by rw [href, h.made.name, Option.none_or]⟩

/-- A usage refers by a name that its element must not leave blank, or it is one of a flag. -/
theorem referenceName_of_saidBy {definitions : List Drafted} {u : Usage} {x : Element}
    {name : String} (hvalid : root.Valid)
    (huses : root.UsesFlag x ∧ u.IsFlag ∨ root.UsesInModel x ∧ u.IsModel)
    (hsaid : u.SaidBy definitions x) (href : u.referenceName? = some name) :
    hasInk name = true ∨ u.kind = .flag ∧ BlankFlag root name := by
  obtain ⟨resolved, htarget⟩ : ∃ resolved, u.target = .reference name resolved := by
    unfold Usage.referenceName? at href
    split at href
    · next resolved htarget =>
      cases href
      exact ⟨resolved, htarget⟩
    · cases href
  obtain ⟨hname, hattribute⟩ := hsaid.target.reference name resolved htarget
  rcases huses with ⟨huses, hflag⟩ | ⟨huses, hmodel⟩
  · cases hink : hasInk name with
    | true => exact .inl rfl
    | false =>
      rw [hflag.kind] at hname
      exact .inr ⟨hflag.kind, hink, x, huses, hname, by rw [hattribute, Option.some_or]⟩
  · refine .inl (hvalid.inked (.reference huses ?_) hattribute)
    exact hmodel.imp (fun hkind => by rw [hname, hkind]; rfl) fun hkind => by rw [hname, hkind]; rfl

/-- A group has the name that its element must not leave blank. -/
theorem groupName_of_saidBy {definitions : List Drafted} {u : Usage} {x : Element} {g : GroupAs}
    (hvalid : root.Valid) (huses : root.UsesFlag x ∧ u.IsFlag ∨ root.UsesInModel x ∧ u.IsModel)
    (hsaid : u.SaidBy definitions x) (hg : u.groupAs = some g) : hasInk g.name = true := by
  rcases huses with ⟨_, hflag⟩ | ⟨huses, _⟩
  · rw [hflag.groupAs] at hg
    cases hg
  · obtain ⟨group, hgroup, hsays⟩ := hsaid.group g hg
    exact hvalid.inked (.group huses hgroup List.mem_cons_self) hsays.name

/-- What a document that can be read gives names to. Every import, definition, reference and group
    has a name with ink in it, or it is the usage of a flag, by reference or in place, that the
    document gives a blank one; and the document has a name unless its root gives it the empty one
    and it has no short name. Without either, nothing has a blank name. -/
theorem names_of_read (h : Draft.read entities path source = .ok draft) :
    ∃ root, Element.parse entities source = .ok root ∧
      (draft.header.name = "" ↔
        root.childText? "short-name" = none ∧ root.attribute? "root" = some "") ∧
      (∀ i ∈ draft.imports, hasInk i.href = true) ∧
      (∀ d ∈ draft.definitions, hasInk d.definition.name = true ∨
        d.definition.kind = .flag ∧ BlankFlag root d.definition.name) ∧
      (∀ d ∈ draft.definitions, ∀ su ∈ d.definition.usages, ∀ name,
        su.2.referenceName? = some name →
          hasInk name = true ∨ su.2.kind = .flag ∧ BlankFlag root name) ∧
      (∀ d ∈ draft.definitions, ∀ su ∈ d.definition.usages, ∀ g,
        su.2.groupAs = some g → hasInk g.name = true) ∧
      ((∀ name, ¬ BlankFlag root name) → draft.header.name ≠ "" → draft.Named) := by
  obtain ⟨root, hroot, hvalid, hheader, hfrom, horigin⟩ := origins_of_read h
  have hsorted := (wellFormed_of_read h).sorted
  have himports : ∀ i ∈ draft.imports, hasInk i.href = true := by
    intro i hi
    obtain ⟨e, he, hname, hhref⟩ := hfrom i hi
    exact hvalid.inked (.href he hname) hhref
  have hdefinitions : ∀ d ∈ draft.definitions, hasInk d.definition.name = true ∨
      d.definition.kind = .flag ∧ BlankFlag root d.definition.name := by
    intro d hd
    obtain ⟨e, he⟩ := horigin d hd
    exact name_of_origin hvalid he
  have hreferences : ∀ d ∈ draft.definitions, ∀ su ∈ d.definition.usages, ∀ name,
      su.2.referenceName? = some name →
        hasInk name = true ∨ su.2.kind = .flag ∧ BlankFlag root name := by
    intro d hd su hsu name hname
    obtain ⟨e, he⟩ := horigin d hd
    obtain ⟨x, huses, hsaid⟩ := he.exists_saidBy (hsorted d hd) hsu
    exact referenceName_of_saidBy hvalid (huses.imp And.right And.right) hsaid hname
  have hgroups : ∀ d ∈ draft.definitions, ∀ su ∈ d.definition.usages, ∀ g,
      su.2.groupAs = some g → hasInk g.name = true := by
    intro d hd su hsu g hg
    obtain ⟨e, he⟩ := horigin d hd
    obtain ⟨x, huses, hsaid⟩ := he.exists_saidBy (hsorted d hd) hsu
    exact groupName_of_saidBy hvalid (huses.imp And.right And.right) hsaid hg
  refine ⟨root, hroot, name_eq_empty_iff hheader, himports, hdefinitions, hreferences, hgroups, ?_⟩
  intro hblank hname
  exact ⟨hname, himports,
    fun d hd => (hdefinitions d hd).resolve_right fun hflag => hblank _ hflag.2,
    fun d hd su hsu name hu =>
      (hreferences d hd su hsu name hu).resolve_right fun hflag => hblank name hflag.2, hgroups⟩

/-- An import, a grouped usage of an assembly and a flag that is named in place. -/
def namedText : String :=
  "<METASCHEMA root=\"catalog\"><import href=\"b\"/><define-assembly name=\"a\">" ++
    "<flag name=\"f\"/><model><assembly ref=\"c\"><group-as name=\"cs\"/></assembly></model>" ++
    "</define-assembly></METASCHEMA>"

theorem names_namedText :
    ∃ draft, Draft.read [] ⟨"a"⟩ namedText = .ok draft ∧ draft.header.name = "catalog" ∧
      draft.definitions.map (·.definition.name) = ["f", "a"] ∧
      ∀ d ∈ draft.definitions, ∀ su ∈ d.definition.usages, ∀ g,
        su.2.groupAs = some g → hasInk g.name = true := by
  have hnames : ((Draft.read [] ⟨"a"⟩ namedText).toOption.map fun draft =>
      (draft.header.name, draft.definitions.map (·.definition.name))) =
        some ("catalog", ["f", "a"]) := by
    decide +kernel
  cases hread : Draft.read [] ⟨"a"⟩ namedText with
  | error e =>
    rw [hread] at hnames
    cases hnames
  | ok draft =>
    rw [hread] at hnames
    obtain ⟨hheader, hdefinitions⟩ := Prod.ext_iff.1 (Option.some.inj hnames)
    obtain ⟨_, _, _, _, _, _, hgroups, _⟩ := names_of_read hread
    exact ⟨draft, rfl, hheader, hdefinitions, hgroups⟩

/-- A field with a flag that refers by an empty name and one that is named by a blank, in a document
    that is named by its empty root. -/
def blankText : String :=
  "<METASCHEMA root=\"\"><define-field name=\"a\"><flag ref=\"\"/><flag name=\" \"/>" ++
    "</define-field></METASCHEMA>"

theorem not_named_blankText :
    ∃ draft, Draft.read [] ⟨"a"⟩ blankText = .ok draft ∧ draft.header.name = "" ∧
      (∃ d ∈ draft.definitions, d.definition.name = " ") ∧
      (∃ d ∈ draft.definitions, ∃ su ∈ d.definition.usages, su.2.referenceName? = some "") ∧
      ¬ draft.Named := by
  have hread : ((Draft.read [] ⟨"a"⟩ blankText).toOption.map fun draft =>
      (draft.header.name, draft.definitions.any (·.definition.name == " "),
        draft.definitions.any fun d =>
          d.definition.usages.any fun su => su.2.referenceName? == some "")) =
        some ("", true, true) := by
    decide +kernel
  cases hdraft : Draft.read [] ⟨"a"⟩ blankText with
  | error e =>
    rw [hdraft] at hread
    cases hread
  | ok draft =>
    rw [hdraft] at hread
    obtain ⟨hheader, hothers⟩ := Prod.ext_iff.1 (Option.some.inj hread)
    obtain ⟨hdefinition, hreference⟩ := Prod.ext_iff.1 hothers
    refine ⟨draft, rfl, hheader, ?_, ?_, fun hnamed => hnamed.header hheader⟩
    · simpa using hdefinition
    · simpa using hreference

end Draft

end SchemaFamily
