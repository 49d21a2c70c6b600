import SchemaFamily.Proofs.Draft.Rules

/-
  What is asked of a document, listed in the order of reading. A definition is read before its
  usage, the flags of an assembly before its model, and the datatype of a field after its flags.
  `checks` lists for a document exactly what is asked of its elements (`mem_checks_iff`): the list
  is made top down, from the root to what is defined in it, as the definitions are found in
  `Defines`.
-/

namespace SchemaFamily

open Xml

/-! ## Usages in a model -/

namespace Xml.Element

/-- The usages among the children of a model, those in choices among them. -/
def entriesAmong (nodes : List Node) : List Element :=
  (nodes.filterMap Node.element?).flatMap fun e =>
    if e.name = "choice" then e.elements.filter isEntry else [e].filter isEntry

/-- The usages in the model of an assembly. -/
def entries (d : Element) : List Element :=
  match d.child? "model" with
  | some model => entriesAmong model.children
  | none => []

section

variable {tag tag' : Tag} {children later : List Node}

/-- The first model counts. -/
theorem entries_cons_model (h : tag'.name = "model") :
    entries ⟨tag, .element tag' children :: later⟩ = entriesAmong children := by
  have hmodel : child? ⟨tag, .element tag' children :: later⟩ "model" = some ⟨tag', children⟩ :=
    List.find?_cons_of_pos (by simpa [name] using h)
  rw [entries, hmodel]

theorem entries_cons_of_ne (h : tag'.name ≠ "model") :
    entries ⟨tag, .element tag' children :: later⟩ = entries ⟨tag, later⟩ := by
  have hmodel : child? ⟨tag, .element tag' children :: later⟩ "model" =
      child? ⟨tag, later⟩ "model" :=
    List.find?_cons_of_neg (by simpa [name] using h)
  rw [entries, hmodel, entries]

theorem entriesAmong_cons (node : Node) (later : List Node) :
    entriesAmong (node :: later) = entriesAmong [node] ++ entriesAmong later := by
  rw [entriesAmong, entriesAmong, entriesAmong, ← List.flatMap_append, ← List.filterMap_append]
  rfl

theorem entriesAmong_choice (h : tag.name = "choice") :
    entriesAmong [.element tag children] =
      (children.filterMap Node.element?).filter isEntry := by
  show (if _ then _ else _) ++ [] = _
  rw [if_pos (show name ⟨tag, children⟩ = "choice" from h), List.append_nil]
  rfl

theorem entriesAmong_of_ne (h : tag.name ≠ "choice") :
    entriesAmong [.element tag children] = [⟨tag, children⟩].filter isEntry := by
  show (if _ then _ else _) ++ [] = _
  rw [if_neg (show name ⟨tag, children⟩ ≠ "choice" from h), List.append_nil]

theorem entriesAmong_eq_nil (h : tag.name ≠ "choice") (hentry : isEntry ⟨tag, children⟩ = false) :
    entriesAmong [.element tag children] = [] := by
  rw [entriesAmong_of_ne h, List.filter_cons_of_neg (by simp [hentry]), List.filter_nil]

end

theorem mem_entriesAmong {nodes : List Node} {e : Element} :
    e ∈ entriesAmong nodes ↔ e.isEntry = true ∧
      (e ∈ nodes.filterMap Node.element? ∨
        ∃ choice ∈ nodes.filterMap Node.element?, choice.name = "choice" ∧
          e ∈ choice.elements) := by
  have hchoice : ∀ e : Element, e.name = "choice" → e.isEntry = false := by
    intro e he
    simp [isEntry, he]
  rw [entriesAmong, List.mem_flatMap]
  constructor
  · rintro ⟨x, hx, he⟩
    split at he
    · next hname =>
      obtain ⟨he, hentry⟩ := List.mem_filter.1 he
      exact ⟨hentry, .inr ⟨x, hx, hname, he⟩⟩
    · obtain ⟨he, hentry⟩ := List.mem_filter.1 he
      rw [List.mem_singleton.1 he] at hentry ⊢
      exact ⟨hentry, .inl hx⟩
  · rintro ⟨hentry, hx | ⟨x, hx, hname, he⟩⟩
    · refine ⟨e, hx, ?_⟩
      rw [if_neg fun hname => by rw [hchoice e hname] at hentry; cases hentry]
      simpa using hentry
    · refine ⟨x, hx, ?_⟩
      rw [if_pos hname]
      exact List.mem_filter.2 ⟨he, hentry⟩

theorem mem_entries {d e : Element} : e ∈ d.entries ↔ d.Entry e := by
  rw [entries, Entry]
  cases d.child? "model" with
  | none => simp
  | some model => simp [mem_entriesAmong, elements]

theorem sizeOf_lt_of_mem_elements {e d : Element} (h : e ∈ d.elements) : sizeOf e < sizeOf d := by
  obtain ⟨node, hnode, he⟩ := List.mem_filterMap.1 h
  have hlt := List.sizeOf_lt_of_mem hnode
  cases node with
  | text content => cases he
  | element tag children =>
    cases he
    cases d
    simp only [Node.element.sizeOf_spec, mk.sizeOf_spec] at *
    omega

theorem sizeOf_lt_of_mem_entries {e d : Element} (h : e ∈ d.entries) : sizeOf e < sizeOf d := by
  obtain ⟨model, hmodel, _, h⟩ := mem_entries.1 h
  have hd := sizeOf_lt_of_mem_elements (List.mem_of_find?_eq_some hmodel)
  rcases h with h | ⟨choice, hchoice, _, h⟩
  · exact Nat.lt_trans (sizeOf_lt_of_mem_elements h) hd
  · exact Nat.lt_trans (sizeOf_lt_of_mem_elements h)
      (Nat.lt_trans (sizeOf_lt_of_mem_elements hchoice) hd)

end Xml.Element

/-! ## What is asked, in the order of reading -/

/-- A rule and the element that it asks something of. -/
abbrev Check := Rule × Element

namespace Xml.Element

/-- What is asked of a usage. -/
def checksOfUsage (e : Element) : List Check := Rule.ofUsage.map (·, e)

/-- What is asked of the definition of a flag. -/
def checksOfFlagDefinition (e : Element) : List Check :=
  [(.inked "name", e), (.keyword .datatype, e)]

/-- What is asked of a child of an assembly or a field as the usage of a flag. The datatype of a
    flag that is defined in place is read before anything else about its usage. -/
def checksOfFlag (e : Element) : List Check :=
  match e.name with
  | "flag" =>
    (.named, e) ::
      if (e.attribute? "ref").isSome = true then e.checksOfUsage ++ [(.keyword .datatype, e)]
      else (.keyword .datatype, e) :: e.checksOfUsage
  | "define-flag" => e.checksOfFlagDefinition ++ e.checksOfUsage
  | _ => []

theorem checksOfFlag_flag {e : Element} (h : e.name = "flag") :
    e.checksOfFlag = (.named, e) ::
      if (e.attribute? "ref").isSome = true then e.checksOfUsage ++ [(.keyword .datatype, e)]
      else (.keyword .datatype, e) :: e.checksOfUsage := by
  rw [checksOfFlag, h]
  rfl

theorem checksOfFlag_define {e : Element} (h : e.name = "define-flag") :
    e.checksOfFlag = e.checksOfFlagDefinition ++ e.checksOfUsage := by
  rw [checksOfFlag, h]
  rfl

theorem checksOfFlag_of_ne {e : Element} (hflag : e.name ≠ "flag")
    (hdefine : e.name ≠ "define-flag") : e.checksOfFlag = [] := by
  unfold checksOfFlag
  split
  · next h => exact absurd h hflag
  · next h => exact absurd h hdefine
  · rfl

/-- What is asked of the flags of an assembly or a field. -/
def checksOfFlags (d : Element) : List Check := d.elements.flatMap checksOfFlag

/-- What is asked of the group that a usage in a model forms. -/
def checksOfGroup (e : Element) : List Check :=
  match e.child? "group-as" with
  | some group => Rule.ofGroup.map (·, group)
  | none => []

/-- What is asked of a usage in a model; `definition` is what is asked of it as a definition. -/
def checksOfEntry (e : Element) (definition : List Check) : List Check :=
  (if e.name = "assembly" ∨ e.name = "field" then [(.inked "ref", e)] else definition) ++
    e.checksOfUsage ++ e.checksOfGroup ++
    if e.name = "field" ∨ e.name = "define-field" then [(.keyword .fieldWrapping, e)] else []

/-- What is asked of a definition and of everything in it. -/
def checksOfDefinition (e : Element) : List Check :=
  match e.name with
  | "define-assembly" =>
    (.inked "name", e) :: (e.checksOfFlags ++
      e.entries.attach.flatMap fun ⟨x, _⟩ => x.checksOfEntry x.checksOfDefinition)
  | "define-field" => (.inked "name", e) :: (e.checksOfFlags ++ [(.keyword .datatype, e)])
  | "define-flag" => e.checksOfFlagDefinition
  | _ => []
termination_by sizeOf e
decreasing_by exact sizeOf_lt_of_mem_entries ‹_›

/-- What is asked of the elements of a document, in the order in which they are read. -/
def checks (root : Element) : List Check :=
  (.metaschema, root) :: (.yesOrNo "abstract", root) :: root.elements.flatMap fun e =>
    if e.name = "import" then [(.inked "href", e)] else e.checksOfDefinition

/-- What is asked of the usages in the model of an assembly. -/
def checksOfEntries (es : List Element) : List Check :=
  es.flatMap fun e => e.checksOfEntry e.checksOfDefinition

theorem checksOfEntries_cons (e : Element) (later : List Element) :
    checksOfEntries (e :: later) =
      e.checksOfEntry e.checksOfDefinition ++ checksOfEntries later := by
  rw [checksOfEntries, List.flatMap_cons, checksOfEntries]

theorem checksOfEntries_append (es later : List Element) :
    checksOfEntries (es ++ later) = checksOfEntries es ++ checksOfEntries later := by
  rw [checksOfEntries, List.flatMap_append, checksOfEntries, checksOfEntries]

section

variable {e : Element}

theorem checksOfDefinition_assembly (h : e.name = "define-assembly") :
    e.checksOfDefinition =
      (.inked "name", e) :: (e.checksOfFlags ++ checksOfEntries e.entries) := by
  rw [checksOfDefinition, h]
  show _ :: (_ ++ _) = _
  rw [List.flatMap_subtype (g := fun x => x.checksOfEntry x.checksOfDefinition) fun _ _ => rfl,
    List.unattach_attach]
  rfl

theorem checksOfDefinition_field (h : e.name = "define-field") :
    e.checksOfDefinition =
      (.inked "name", e) :: (e.checksOfFlags ++ [(.keyword .datatype, e)]) := by
  rw [checksOfDefinition, h]
  rfl

theorem checksOfDefinition_flag (h : e.name = "define-flag") :
    e.checksOfDefinition = e.checksOfFlagDefinition := by
  rw [checksOfDefinition, h]
  rfl

/-! ## Exactly what is asked is listed -/

variable {root d x : Element} {rule : Rule}

theorem mem_checksOfUsage : (rule, x) ∈ e.checksOfUsage ↔ rule ∈ Rule.ofUsage ∧ x = e := by
  rw [checksOfUsage, List.mem_map]
  simp only [Prod.mk.injEq]
  exact ⟨fun ⟨_, h, hrule, hx⟩ => ⟨hrule ▸ h, hx.symm⟩, fun ⟨h, hx⟩ => ⟨rule, h, rfl, hx.symm⟩⟩

theorem mem_checksOfFlag :
    (rule, x) ∈ e.checksOfFlag ↔ x = e ∧
      ((e.name = "flag" ∧
          (rule = .named ∨ rule = .keyword .datatype ∨ rule ∈ Rule.ofUsage)) ∨
        (e.name = "define-flag" ∧
          (rule = .inked "name" ∨ rule = .keyword .datatype ∨ rule ∈ Rule.ofUsage))) := by
  rw [checksOfFlag]
  split
  · next h =>
    simp only [h, String.reduceEq, true_and, false_and, or_false]
    split <;> simp [mem_checksOfUsage] <;> tauto
  · next h =>
    simp [h, mem_checksOfUsage, checksOfFlagDefinition]
    tauto
  · next hflag hdefine =>
    have hflag : e.name ≠ "flag" := hflag
    have hdefine : e.name ≠ "define-flag" := hdefine
    simp [hflag, hdefine]

theorem mem_checksOfGroup : (rule, x) ∈ e.checksOfGroup ↔
    e.child? "group-as" = some x ∧ rule ∈ Rule.ofGroup := by
  rw [checksOfGroup]
  cases e.child? "group-as" with
  | none => simp
  | some group =>
    simp only [List.mem_map, Prod.mk.injEq, Option.some.injEq]
    exact ⟨fun ⟨_, h, hrule, hx⟩ => ⟨hx, hrule ▸ h⟩, fun ⟨hx, h⟩ => ⟨rule, h, rfl, hx⟩⟩

theorem mem_checksOfEntry {definition : List Check} :
    (rule, x) ∈ e.checksOfEntry definition ↔
      ((e.name = "assembly" ∨ e.name = "field") ∧ rule = .inked "ref" ∧ x = e) ∨
      (¬ (e.name = "assembly" ∨ e.name = "field") ∧ (rule, x) ∈ definition) ∨
      (rule ∈ Rule.ofUsage ∧ x = e) ∨
      (e.child? "group-as" = some x ∧ rule ∈ Rule.ofGroup) ∨
      ((e.name = "field" ∨ e.name = "define-field") ∧ rule = .keyword .fieldWrapping ∧ x = e) := by
  rw [checksOfEntry, List.mem_append, List.mem_append, List.mem_append, mem_checksOfUsage,
    mem_checksOfGroup]
  by_cases href : e.name = "assembly" ∨ e.name = "field" <;>
    by_cases hfield : e.name = "field" ∨ e.name = "define-field" <;>
    simp [href, hfield, or_assoc]

theorem Defines.name (h : root.Defines e) :
    e.name = "define-assembly" ∨ e.name = "define-field" ∨ e.name = "define-flag" := by
  cases h with
  | child _ name => exact name
  | flag _ _ _ name => exact .inr (.inr name)
  | entry _ _ _ name => exact name.imp_right .inl

theorem Entry.name (h : d.Entry e) : (e.name = "assembly" ∨ e.name = "field") ∨
    e.name = "define-assembly" ∨ e.name = "define-field" := by
  obtain ⟨_, _, hentry, _⟩ := h
  simpa [isEntry, or_assoc] using hentry

theorem asks_of_mem_checksOfFlags (hd : root.Defines d)
    (holder : d.name = "define-assembly" ∨ d.name = "define-field")
    (h : (rule, x) ∈ d.checksOfFlags) : root.Asks rule x := by
  obtain ⟨e, he, hx⟩ := List.mem_flatMap.1 h
  obtain ⟨rfl, ⟨hname, hrule⟩ | ⟨hname, hrule⟩⟩ := mem_checksOfFlag.1 hx
  · have huses : root.UsesFlag x := ⟨d, hd, holder, he, .inl hname⟩
    rcases hrule with rfl | rfl | hrule
    · exact .flag huses hname
    · exact .flagDatatype huses hname
    · exact .usage (.inl huses) hrule
  · have hdefines : root.Defines x := .flag hd holder he hname
    rcases hrule with rfl | rfl | hrule
    · exact .definition hdefines
    · exact .datatype hdefines (.inr hname)
    · exact .usage (.inl ⟨d, hd, holder, he, .inr hname⟩) hrule

theorem asks_of_mem_checksOfDefinition {d : Element} (hd : root.Defines d)
    (h : (rule, x) ∈ d.checksOfDefinition) : root.Asks rule x := by
  rcases hd.name with hname | hname | hname
  · rw [checksOfDefinition_assembly hname, List.mem_cons, List.mem_append] at h
    rcases h with h | h | h
    · cases h
      exact .definition hd
    · exact asks_of_mem_checksOfFlags hd (.inl hname) h
    · obtain ⟨e, he, h⟩ := List.mem_flatMap.1 h
      have hentry := mem_entries.1 he
      have huses : root.UsesInModel e := ⟨d, hd, hname, hentry⟩
      have hlt := sizeOf_lt_of_mem_entries he
      rcases mem_checksOfEntry.1 h with ⟨href, rfl, rfl⟩ | ⟨href, h⟩ | ⟨hrule, rfl⟩ |
        ⟨hgroup, hrule⟩ | ⟨hfield, rfl, rfl⟩
      · exact .reference huses href
      · -- what is defined in the model is smaller than the assembly
        exact asks_of_mem_checksOfDefinition
          (.entry hd hname hentry (hentry.name.resolve_left href)) h
      · exact .usage (.inr huses) hrule
      · exact .group huses hgroup hrule
      · exact .wrapping huses hfield
  · rw [checksOfDefinition_field hname, List.mem_cons, List.mem_append, List.mem_singleton] at h
    rcases h with h | h | h
    · cases h
      exact .definition hd
    · exact asks_of_mem_checksOfFlags hd (.inr hname) h
    · cases h
      exact .datatype hd (.inl hname)
  · rw [checksOfDefinition_flag hname, checksOfFlagDefinition, List.mem_cons,
      List.mem_singleton] at h
    rcases h with h | h
    · cases h
      exact .definition hd
    · cases h
      exact .datatype hd (.inr hname)
termination_by sizeOf d

theorem checksOfFlags_subset (hname : d.name = "define-assembly" ∨ d.name = "define-field") :
    d.checksOfFlags ⊆ d.checksOfDefinition := by
  rcases hname with hname | hname
  · rw [checksOfDefinition_assembly hname]
    exact fun _ h => List.mem_cons_of_mem _ (List.mem_append_left _ h)
  · rw [checksOfDefinition_field hname]
    exact fun _ h => List.mem_cons_of_mem _ (List.mem_append_left _ h)

theorem checksOfEntry_subset (hname : d.name = "define-assembly") (he : d.Entry e) :
    e.checksOfEntry e.checksOfDefinition ⊆ d.checksOfDefinition := by
  rw [checksOfDefinition_assembly hname]
  exact fun _ h => List.mem_cons_of_mem _ (List.mem_append_right _
    (List.mem_flatMap.2 ⟨e, mem_entries.2 he, h⟩))

theorem name_of_mem_checksOfDefinition {check : Check} (h : check ∈ e.checksOfDefinition) :
    e.name = "define-assembly" ∨ e.name = "define-field" ∨ e.name = "define-flag" := by
  rw [checksOfDefinition] at h
  split at h
  · next hname => exact .inl hname
  · next hname => exact .inr (.inl hname)
  · next hname => exact .inr (.inr hname)
  · cases h

theorem mem_checks_of_mem_elements (he : e ∈ root.elements) {check : Check}
    (h : check ∈ if e.name = "import" then [(.inked "href", e)] else e.checksOfDefinition) :
    check ∈ root.checks :=
  List.mem_cons_of_mem _ (List.mem_cons_of_mem _ (List.mem_flatMap.2 ⟨e, he, h⟩))

/-- What is asked of a definition of the document is listed for the document. -/
theorem checksOfDefinition_subset (h : root.Defines e) : e.checksOfDefinition ⊆ root.checks := by
  induction h with
  | @child e child name =>
    intro check hcheck
    refine mem_checks_of_mem_elements child ?_
    rw [if_neg]
    · exact hcheck
    · intro himport
      simp [himport] at name
  | @flag d e _ holder child name ih =>
    rintro ⟨rule, x⟩ hx
    refine ih (checksOfFlags_subset holder (List.mem_flatMap.2 ⟨e, child, ?_⟩))
    rw [checksOfFlag_define name]
    rw [checksOfDefinition_flag name] at hx
    exact List.mem_append_left _ hx
  | @entry d e _ holder entry name ih =>
    rintro ⟨rule, x⟩ hx
    refine ih (checksOfEntry_subset holder entry (mem_checksOfEntry.2 (.inr (.inl ⟨?_, hx⟩))))
    rintro (h | h) <;> simp [h] at name

theorem mem_checks_of_usesFlag (h : root.UsesFlag e) {check : Check} (hx : check ∈ e.checksOfFlag) :
    check ∈ root.checks := by
  obtain ⟨d, hd, holder, he, _⟩ := h
  exact checksOfDefinition_subset hd
    (checksOfFlags_subset holder (List.mem_flatMap.2 ⟨e, he, hx⟩))

theorem mem_checks_of_usesInModel (h : root.UsesInModel e) {check : Check}
    (hx : check ∈ e.checksOfEntry e.checksOfDefinition) : check ∈ root.checks := by
  obtain ⟨d, hd, holder, he⟩ := h
  exact checksOfDefinition_subset hd (checksOfEntry_subset holder he hx)

/-- What is listed for a document is what is asked of its elements. -/
theorem mem_checks_iff : (rule, x) ∈ root.checks ↔ root.Asks rule x := by
  constructor
  · intro h
    rw [checks, List.mem_cons, List.mem_cons, List.mem_flatMap] at h
    rcases h with h | h | ⟨e, he, h⟩
    · cases h
      exact .root
    · cases h
      exact .abstract
    · split at h
      · next hname =>
        cases List.mem_singleton.1 h
        exact .href he hname
      · exact asks_of_mem_checksOfDefinition (.child he (name_of_mem_checksOfDefinition h)) h
  · intro h
    cases h with
    | root => exact List.mem_cons_self
    | abstract => exact List.mem_cons_of_mem _ List.mem_cons_self
    | href child name =>
      refine mem_checks_of_mem_elements child ?_
      rw [if_pos name]
      exact List.mem_cons_self
    | definition defines =>
      refine checksOfDefinition_subset defines ?_
      rcases defines.name with hname | hname | hname
      · rw [checksOfDefinition_assembly hname]
        exact List.mem_cons_self
      · rw [checksOfDefinition_field hname]
        exact List.mem_cons_self
      · rw [checksOfDefinition_flag hname]
        exact List.mem_cons_self
    | datatype defines name =>
      refine checksOfDefinition_subset defines ?_
      rcases name with hname | hname
      · rw [checksOfDefinition_field hname]
        simp
      · rw [checksOfDefinition_flag hname]
        simp [checksOfFlagDefinition]
    | flag uses name => exact mem_checks_of_usesFlag uses (by simp [mem_checksOfFlag, name])
    | flagDatatype uses name =>
      exact mem_checks_of_usesFlag uses (by simp [mem_checksOfFlag, name])
    | reference uses name =>
      exact mem_checks_of_usesInModel uses (mem_checksOfEntry.2 (.inl ⟨name, rfl, rfl⟩))
    | usage uses listed =>
      rcases uses with uses | uses
      · refine mem_checks_of_usesFlag uses (mem_checksOfFlag.2 ⟨rfl, ?_⟩)
        obtain ⟨_, _, _, _, hname⟩ := uses
        exact hname.imp (⟨·, .inr (.inr listed)⟩) (⟨·, .inr (.inr listed)⟩)
      · exact mem_checks_of_usesInModel uses
          (mem_checksOfEntry.2 (.inr (.inr (.inl ⟨listed, rfl⟩))))
    | group uses child listed =>
      exact mem_checks_of_usesInModel uses
        (mem_checksOfEntry.2 (.inr (.inr (.inr (.inl ⟨child, listed⟩)))))
    | wrapping uses name =>
      exact mem_checks_of_usesInModel uses
        (mem_checksOfEntry.2 (.inr (.inr (.inr (.inr ⟨name, rfl, rfl⟩)))))

/-- The document is valid when all that is listed for it holds. -/
theorem valid_iff : root.Valid ↔ ∀ check ∈ root.checks, check.1.Holds check.2 :=
  ⟨fun h _ hx => h _ _ (mem_checks_iff.1 hx), fun h rule e he => h (rule, e) (mem_checks_iff.2 he)⟩

end

end Xml.Element

end SchemaFamily
