import SchemaFamily.Proofs.Draft.Accepting
import SchemaFamily.Proofs.Draft.Extent
import SchemaFamily.Proofs.Draft.WellFormed

/-
  Where in a document the contents of a draft come from. A usage is `SaidBy` an element, a
  definition is `MadeBy` one, and `Origin` ties the two: the usages of a definition are said by
  elements that stand in the element that makes it. `Traces` states what a reading makes of
  definitions whose origins are known, along with a property of them that `Lasts` when more are
  added; a usage of a definition that was read just before needs this to be told from which element
  its target comes. Every definition of a draft that was read has an origin in a valid document
  (`Draft.origins_of_read`).
-/

namespace SchemaFamily

open Xml

/-! ## Elements that say something -/

/-- The definition is made by the element. -/
structure Drafted.MadeBy (d : Drafted) (e : Element) : Prop where
  name : e.attribute? "name" = some d.definition.name
  jsonKey : d.definition.kind ≠ .flag → d.definition.jsonKey = jsonKeyOf e

/-- The group is described by the element. -/
structure GroupAs.SaidBy (g : GroupAs) (e : Element) : Prop where
  name : e.attribute? "name" = some g.name
  byKey : g.inJson = .byKey →
    ∃ value, e.attribute? "in-json" = some value ∧ trimmed value = "BY_KEY"

/-- The handle is that of a definition made by the element. -/
def Handed (e : Element) (kind : Kind) (id : DeclarationId) (definitions : List Drafted) : Prop :=
  ∃ j d, id = .ofIndex j ∧ definitions[j]? = some d ∧ d.MadeBy e ∧ d.definition.kind = kind

/-- The element can define in place what a usage of the kind uses. -/
def Xml.Element.Inlines (e : Element) (kind : Kind) : Prop :=
  e.name = "define-" ++ kind.word ∨ kind = .flag ∧ e.name = "flag"

/-- What the usage uses is said by the element: a usage by name refers by it, and what is used in
    place is made by it and is one of the definitions so far. -/
structure Usage.TargetSaidBy (u : Usage) (definitions : List Drafted) (e : Element) : Prop where
  reference : ∀ name resolved, u.target = .reference name resolved →
    e.name = u.kind.word ∧ e.attribute? "ref" = some name
  inline : ∀ id, u.target = .inline id → e.Inlines u.kind ∧ Handed e u.kind id definitions

/-- The usage is said by the element; its group is described by the first child that can be one. -/
structure Usage.SaidBy (u : Usage) (definitions : List Drafted) (e : Element) : Prop where
  position : u.position = e.position
  target : u.TargetSaidBy definitions e
  group : ∀ g, u.groupAs = some g → ∃ group, e.child? "group-as" = some group ∧ g.SaidBy group

/-- The usage is said by one of the elements, which is one of those that say usages. -/
def Usage.SaidAmong (u : Usage) (uses : Element → Prop) (es : List Element)
    (definitions : List Drafted) : Prop :=
  ∃ x ∈ es, uses x ∧ u.SaidBy definitions x

/-- The element makes the definition in the document, and elements in it say what is used. -/
structure Drafted.Origin (d : Drafted) (root : Element) (definitions : List Drafted)
    (e : Element) : Prop where
  made : d.MadeBy e
  stands : root.Defines e ∨ root.UsesFlag e ∧ e.name = "flag" ∧ e.attribute? "ref" = none ∧
    d.definition.kind = .flag
  flags : ∀ u ∈ d.definition.flags, u.SaidAmong root.UsesFlag e.elements definitions
  model : ∀ item ∈ d.definition.model, ∀ u ∈ item.usages,
    u.SaidAmong root.UsesInModel e.entries definitions

/-- Every definition so far has its origin in the document. -/
def Traced (root : Element) (definitions : List Drafted) : Prop :=
  ∀ d ∈ definitions, ∃ e, d.Origin root definitions e

namespace Drafted.Origin

variable {d : Drafted} {root e : Element} {definitions : List Drafted} {su : Slot × Usage}

/-- Every usage of a definition is said by an element in the one that makes it: one of a flag by the
    usage of a flag, and one of an assembly or a field by an entry of the model. -/
theorem exists_saidBy (h : d.Origin root definitions e) (hsorted : d.definition.Sorted)
    (hsu : su ∈ d.definition.usages) :
    ∃ x, (x ∈ e.elements ∧ root.UsesFlag x ∧ su.2.IsFlag ∨
        x ∈ e.entries ∧ root.UsesInModel x ∧ su.2.IsModel) ∧ su.2.SaidBy definitions x := by
  have hmem : su.2 ∈ d.definition.usages.map (·.2) := List.mem_map_of_mem hsu
  rw [Definition.map_snd_usages, List.mem_append, List.mem_flatMap] at hmem
  rcases hmem with hflag | ⟨item, hitem, hu⟩
  · obtain ⟨x, hx, huses, hsaid⟩ := h.flags _ hflag
    exact ⟨x, .inl ⟨hx, huses, hsorted.flags _ hflag⟩, hsaid⟩
  · obtain ⟨x, hx, huses, hsaid⟩ := h.model item hitem _ hu
    exact ⟨x, .inr ⟨hx, huses, hsorted.model item hitem _ hu⟩, hsaid⟩

/-- What uses something is no flag, so its element is a definition of the document. -/
theorem defines (h : d.Origin root definitions e) (hsu : su ∈ d.definition.usages) :
    root.Defines e := by
  rcases h.stands with hdefines | ⟨_, _, _, hkind⟩
  · exact hdefines
  · rcases d with ⟨scope, name, metadata, body | body | body⟩
    · cases hkind
    · cases hkind
    · cases hsu

end Drafted.Origin

/-! ## What lasts -/

/-- The property is kept when definitions are added. -/
def Lasts (P : List Drafted → Prop) : Prop :=
  ∀ definitions d, P definitions → P (definitions ++ [d])

theorem Lasts.and {P Q : List Drafted → Prop} (hP : Lasts P) (hQ : Lasts Q) :
    Lasts fun definitions => P definitions ∧ Q definitions :=
  fun definitions d h => ⟨hP definitions d h.1, hQ definitions d h.2⟩

theorem lasts_true : Lasts fun _ => True := fun _ _ _ => trivial

section

variable {definitions : List Drafted} {u : Usage} {e root : Element} {d : Drafted}

theorem Handed.lasts (e : Element) (kind : Kind) (id : DeclarationId) :
    Lasts (Handed e kind id) := by
  rintro definitions d ⟨j, t, hj, ht, hmade⟩
  exact ⟨j, t, hj, List.getElem?_append_left (List.getElem?_eq_some_iff.1 ht).1 ▸ ht, hmade⟩

theorem Usage.TargetSaidBy.lasts (u : Usage) (e : Element) :
    Lasts fun ds => u.TargetSaidBy ds e := fun definitions d h =>
  ⟨h.reference, fun id hid =>
    ⟨(h.inline id hid).1, Handed.lasts e u.kind id definitions d (h.inline id hid).2⟩⟩

theorem Usage.SaidBy.lasts (u : Usage) (e : Element) : Lasts fun ds => u.SaidBy ds e :=
  fun definitions d h =>
    ⟨h.position, Usage.TargetSaidBy.lasts u e definitions d h.target, h.group⟩

theorem Usage.SaidAmong.lasts (u : Usage) (uses : Element → Prop) (es : List Element) :
    Lasts (u.SaidAmong uses es) := by
  rintro definitions d ⟨x, hx, huses, hsaid⟩
  exact ⟨x, hx, huses, Usage.SaidBy.lasts u x definitions d hsaid⟩

theorem Drafted.Origin.lasts (d : Drafted) (root e : Element) :
    Lasts fun ds => d.Origin root ds e := fun definitions t h =>
  ⟨h.made, h.stands, fun u hu => Usage.SaidAmong.lasts u _ _ definitions t (h.flags u hu),
    fun item hitem u hu => Usage.SaidAmong.lasts u _ _ definitions t (h.model item hitem u hu)⟩

theorem Traced.add (h : Traced root definitions) (hd : d.Origin root definitions e) :
    Traced root (definitions ++ [d]) := by
  intro t ht
  rcases List.mem_append.1 ht with ht | ht
  · obtain ⟨x, hx⟩ := h t ht
    exact ⟨x, Drafted.Origin.lasts t root x definitions d hx⟩
  · rw [List.mem_singleton.1 ht]
    exact ⟨e, Drafted.Origin.lasts d root e definitions d hd⟩

end

/-! ## Readings of traced definitions -/

/-- From definitions with origins in the document, of which `P` holds, `r` leads to such as well,
    and its result is as `good` says. -/
def Traces {α : Type} (root : Element) (P : List Drafted → Prop) (r : Reading α)
    (good : α → List Drafted → Prop) : Prop :=
  Yields (fun definitions => Traced root definitions ∧ P definitions) r
    fun a definitions => Traced root definitions ∧ P definitions ∧ good a definitions

namespace Traces

variable {α β : Type} {root : Element} {P : List Drafted → Prop} {r : Reading α}
  {good : α → List Drafted → Prop} {good' : β → List Drafted → Prop}

theorem pure {a : α} (h : ∀ definitions, P definitions → good a definitions) :
    Traces root P (Pure.pure a) good :=
  Yields.pure fun definitions hd => ⟨hd.1, hd.2, h definitions hd.2⟩

theorem bind {f : α → Reading β} (hr : Traces root P r good)
    (hf : ∀ a, Traces root (fun ds => P ds ∧ good a ds) (f a) good') :
    Traces root P (r >>= f) good' := by
  refine Yields.bind hr fun a definitions hd b later hb => ?_
  obtain ⟨htraced, hP, hgood⟩ := hf a definitions hd b later hb
  exact ⟨htraced, hP.1, hgood⟩

theorem after {x : Except DraftError β} {f : β → Reading α}
    (h : ∀ b, x = .ok b → Traces root P (f b) good) : Traces root P (liftM x >>= f) good :=
  Yields.after h

theorem lift {x : Except DraftError α}
    (h : ∀ a, x = .ok a → ∀ definitions, P definitions → good a definitions) :
    Traces root P (liftM x) good :=
  Yields.lift fun a ha definitions hd => ⟨hd.1, hd.2, h a ha definitions hd.2⟩

theorem weaken {good₁ : α → List Drafted → Prop} (hr : Traces root P r good)
    (h : ∀ a definitions, P definitions → good a definitions → good₁ a definitions) :
    Traces root P r good₁ := by
  intro definitions hd a later ha
  obtain ⟨htraced, hP, hgood⟩ := hr definitions hd a later ha
  exact ⟨htraced, hP, h a later hP hgood⟩

theorem addDefinition {scope : Scope} {definition : Definition} {e : Element} (hP : Lasts P)
    (h : ∀ definitions, P definitions →
      Drafted.Origin ⟨scope, definition⟩ root definitions e) :
    Traces root P (addDefinition scope definition) (Handed e definition.kind) := by
  refine Yields.addDefinition fun definitions hd => ?_
  have horigin := h definitions hd.2
  refine ⟨hd.1.add horigin, hP _ _ hd.2, definitions.length, _, rfl, ?_, horigin.made, rfl⟩
  rw [List.getElem?_concat_length]

end Traces

/-! ## Usages -/

section

variable {root d e : Element} {P : List Drafted → Prop}

/-- An occurrence is told with the place of its element. -/
theorem position_of_occurrence {u v : Usage} (h : occurrence u e = .ok v) :
    v.position = e.position := by
  unfold occurrence at h
  simp only [bind, Except.bind] at h
  repeat' split at h
  all_goals cases h
  rfl

/-- What is said of the target of a usage is said of it with its occurrence. -/
theorem saidBy_of_occurrence {u v : Usage} {definitions : List Drafted}
    (h : occurrence u e = .ok v) (hgroup : u.groupAs = none)
    (htarget : u.TargetSaidBy definitions e) : v.SaidBy definitions e := by
  obtain ⟨hkind, htargets, hgroups⟩ := occurrence_keeps h
  refine ⟨position_of_occurrence h, ⟨?_, ?_⟩, ?_⟩
  · rw [htargets, hkind]
    exact htarget.reference
  · rw [htargets, hkind]
    exact htarget.inline
  · intro g hg
    rw [hgroups, hgroup] at hg
    cases hg

theorem targetSaidBy_inline {kind : Kind} {id : DeclarationId} {definitions : List Drafted}
    (hinlines : e.Inlines kind) (h : Handed e kind id definitions) :
    (Usage.inline kind id).TargetSaidBy definitions e := by
  refine ⟨fun name resolved ht => ?_, fun id' ht => ?_⟩
  · cases ht
  · cases ht
    exact ⟨hinlines, h⟩

theorem targetSaidBy_reference {kind : Kind} {name : String} {definitions : List Drafted}
    (hname : e.name = kind.word) (href : e.attribute? "ref" = some name) :
    (Usage.reference kind name).TargetSaidBy definitions e := by
  refine ⟨fun name' resolved ht => ?_, fun _ ht => by cases ht⟩
  cases ht
  exact ⟨hname, href⟩

/-! ## Flags -/

theorem origin_flag {scope : Scope} {name : String} {body : FlagBody} {definitions : List Drafted}
    (hname : e.attribute? "name" = some name)
    (hstands : root.Defines e ∨ root.UsesFlag e ∧ e.name = "flag" ∧ e.attribute? "ref" = none) :
    Drafted.Origin ⟨scope, ⟨name, metadataOf e, .flag body⟩⟩ root definitions e := by
  have hmade : Drafted.MadeBy ⟨scope, ⟨name, metadataOf e, .flag body⟩⟩ e :=
    ⟨hname, fun h => absurd rfl h⟩
  refine ⟨hmade, ?_, fun u hu => ?_, fun item hitem => ?_⟩
  · exact hstands.imp_right fun h => ⟨h.1, h.2.1, h.2.2, rfl⟩
  · cases hu
  · cases hitem

theorem traces_defineFlag (scope : Scope) (hP : Lasts P) (he : root.Defines e) :
    Traces root P (defineFlag scope e) (Handed e .flag) := by
  unfold defineFlag
  refine .after fun name hname => .after fun datatype _ => ?_
  exact .addDefinition hP fun _ _ => origin_flag (attribute?_of_required hname) (.inl he)

theorem traces_flagUsage (hP : Lasts P) (he : root.UsesFlag e) (hname : e.name = "flag") :
    Traces root P (flagUsage e) fun u ds => u.SaidBy ds e := by
  unfold flagUsage
  split
  · next name href =>
    refine .after fun u hu => .after fun datatype _ => .pure fun definitions _ => ?_
    have hsaid : u.SaidBy definitions e :=
      saidBy_of_occurrence hu rfl (targetSaidBy_reference hname href)
    exact ⟨hsaid.position, ⟨hsaid.target.reference, hsaid.target.inline⟩, hsaid.group⟩
  · next href =>
    split
    · exact .lift fun _ h => by cases h
    · next name hattribute =>
      refine .after fun datatype _ => ?_
      refine .bind (.addDefinition hP fun _ _ => origin_flag hattribute
        (.inr ⟨he, hname, href⟩)) fun id => ?_
      exact .lift fun u hu definitions h => saidBy_of_occurrence hu rfl
        (targetSaidBy_inline (.inr ⟨rfl, hname⟩) h.2)

theorem traces_flagUsages (hP : Lasts P) (hd : root.Defines d)
    (holder : d.name = "define-assembly" ∨ d.name = "define-field") (es : List Element)
    (hes : es ⊆ d.elements) :
    Traces root P (flagUsages es) fun us ds => ∀ u ∈ us, u.SaidAmong root.UsesFlag es ds := by
  induction es generalizing P with
  | nil => exact .pure fun _ _ => by simp
  | cons e later ih =>
    obtain ⟨he, hlater⟩ := List.cons_subset.1 hes
    have hcons : ∀ {Q : List Drafted → Prop} (u : Usage), Lasts Q → root.UsesFlag e →
        Traces root (fun ds => Q ds ∧ u.SaidBy ds e) (do return u :: (← flagUsages later))
          fun us ds => ∀ u ∈ us, u.SaidAmong root.UsesFlag (e :: later) ds := by
      intro Q u hQ huses
      refine .bind (ih (hQ.and (Usage.SaidBy.lasts u e)) hlater) fun us => .pure ?_
      rintro definitions ⟨⟨_, hu⟩, hus⟩ v hv
      rcases List.mem_cons.1 hv with rfl | hv
      · exact ⟨e, List.mem_cons_self, huses, hu⟩
      · obtain ⟨x, hx, hsaid⟩ := hus v hv
        exact ⟨x, List.mem_cons_of_mem _ hx, hsaid⟩
    unfold flagUsages
    split
    · next hname =>
      have huses : root.UsesFlag e := ⟨d, hd, holder, he, .inl hname⟩
      exact .bind (traces_flagUsage hP huses hname) fun u => hcons u hP huses
    · next hname =>
      have huses : root.UsesFlag e := ⟨d, hd, holder, he, .inr hname⟩
      refine .bind (traces_defineFlag .inline hP (.flag hd holder he hname)) fun id => ?_
      refine .bind (.lift fun u hu definitions h => saidBy_of_occurrence hu rfl
        (targetSaidBy_inline (.inl hname) h.2)) fun u => ?_
      exact hcons u (hP.and (Handed.lasts e .flag id)) huses
    · refine (ih hP hlater).weaken fun us definitions _ h u hu => ?_
      obtain ⟨x, hx, hsaid⟩ := h u hu
      exact ⟨x, List.mem_cons_of_mem _ hx, hsaid⟩

/-! ## Definitions -/

/-- Every usage in the entries of a model is said by one of the elements. -/
def ModelSaidAmong (root : Element) (es : List Element) (items : List ModelItem)
    (definitions : List Drafted) : Prop :=
  ∀ item ∈ items, ∀ u ∈ item.usages, u.SaidAmong root.UsesInModel es definitions

theorem ModelSaidAmong.lasts (root : Element) (es : List Element) (items : List ModelItem) :
    Lasts (ModelSaidAmong root es items) := fun definitions d h item hitem u hu =>
  Usage.SaidAmong.lasts u _ es definitions d (h item hitem u hu)

theorem lasts_flags (root : Element) (es : List Element) (us : List Usage) :
    Lasts fun ds => ∀ u ∈ us, u.SaidAmong root.UsesFlag es ds := fun definitions d h u hu =>
  Usage.SaidAmong.lasts u _ es definitions d (h u hu)

theorem traces_defineField (scope : Scope) (hP : Lasts P) (he : root.Defines e)
    (hname : e.name = "define-field") : Traces root P (defineField scope e) (Handed e .field) := by
  unfold defineField
  refine .after fun name hattribute => ?_
  refine .bind (traces_flagUsages hP he (.inr hname) e.elements (List.Subset.refl _))
    fun flags => .after fun datatype _ => ?_
  refine .addDefinition (hP.and (lasts_flags root _ flags)) fun definitions h => ?_
  exact ⟨⟨attribute?_of_required hattribute, fun _ => rfl⟩, .inl he, h.2,
    by simp [Definition.model, Body.model]⟩

theorem traces_defineAssembly (scope : Scope) (hP : Lasts P) (he : root.Defines e)
    (hname : e.name = "define-assembly") {model : Reading (List ModelItem)}
    (hm : ∀ Q : List Drafted → Prop, Lasts Q →
      Traces root Q model (ModelSaidAmong root e.entries)) :
    Traces root P (defineAssembly scope e model) (Handed e .assembly) := by
  unfold defineAssembly
  refine .after fun name hattribute => ?_
  refine .bind (traces_flagUsages hP he (.inl hname) e.elements (List.Subset.refl _))
    fun flags => ?_
  have hflags := hP.and (lasts_flags root e.elements flags)
  refine .bind (hm _ hflags) fun items => ?_
  refine .addDefinition (hflags.and (ModelSaidAmong.lasts root _ items)) fun definitions h => ?_
  exact ⟨⟨attribute?_of_required hattribute, fun _ => rfl⟩, .inl he, h.1.2, h.2⟩

/-! ## Entries of a model -/

theorem Xml.Element.UsesInModel.defines (h : root.UsesInModel e)
    (hname : e.name = "define-assembly" ∨ e.name = "define-field") : root.Defines e := by
  obtain ⟨d, hd, holder, hentry⟩ := h
  exact .entry hd holder hentry hname

theorem traces_modelTarget (hP : Lasts P) (he : root.UsesInModel e)
    {model : Reading (List ModelItem)} (hm : root.Defines e → e.name = "define-assembly" →
      ∀ Q : List Drafted → Prop, Lasts Q → Traces root Q model (ModelSaidAmong root e.entries))
    {target : Reading Usage} (h : modelTarget? e model = some target) :
    Traces root P target fun u ds => u.groupAs = none ∧ u.TargetSaidBy ds e := by
  unfold modelTarget? at h
  split at h
  · next hname =>
    cases h
    refine .after fun name href => .pure fun _ _ => ⟨rfl, ?_⟩
    exact targetSaidBy_reference hname (attribute?_of_required href)
  · next hname =>
    cases h
    refine .after fun name href => .pure fun _ _ => ⟨rfl, ?_⟩
    exact targetSaidBy_reference hname (attribute?_of_required href)
  · next hname =>
    cases h
    have hdefines := he.defines (.inl hname)
    refine .bind (traces_defineAssembly .inline hP hdefines hname (hm hdefines hname))
      fun id => .pure fun _ hid => ⟨rfl, targetSaidBy_inline (.inl hname) hid.2⟩
  · next hname =>
    cases h
    refine .bind (traces_defineField .inline hP (he.defines (.inr hname)) hname)
      fun id => .pure fun _ hid => ⟨rfl, targetSaidBy_inline (.inl hname) hid.2⟩
  · cases h

/-- Only its own keyword asks for values that are keyed. -/
theorem keyword_of_byKey (h : keyword? e "in-json" JsonGrouping.ofKeyword = .ok (some .byKey)) :
    ∃ value, e.attribute? "in-json" = some value ∧ trimmed value = "BY_KEY" := by
  unfold keyword? at h
  split at h
  · cases h
  · next value hvalue =>
    split at h
    · next grouping hgrouping =>
      cases h
      refine ⟨value, hvalue, ?_⟩
      unfold JsonGrouping.ofKeyword at hgrouping
      split at hgrouping
      · cases hgrouping
      · cases hgrouping
      · cases hgrouping
      · next heq => exact heq
      · cases hgrouping
    · cases h

theorem saidBy_of_groupOf {g : GroupAs} (h : groupOf e = .ok g) : g.SaidBy e := by
  unfold groupOf at h
  simp only [bind, Except.bind] at h
  split at h
  · cases h
  · next name hname =>
    split at h
    · cases h
    · next inJson hjson =>
      split at h
      · cases h
      · cases h
        refine ⟨attribute?_of_required hname, fun hkey => keyword_of_byKey ?_⟩
        cases inJson with
        | none => cases hkey
        | some grouping =>
          cases hkey
          exact hjson

/-- How a field is wrapped says nothing about what is used. -/
theorem traces_wrapping {u : Usage} :
    Traces root (fun ds => P ds ∧ u.SaidBy ds e) (do
      if u.kind = .field then
        match ← keyword? e "in-xml" FieldWrapping.ofKeyword with
        | some inXml => return { u with inXml }
        | none => return u
      else return u : Reading Usage) fun v ds => v.SaidBy ds e := by
  split
  · refine .after fun wrapping _ => ?_
    split
    · refine .pure fun definitions h => ?_
      exact ⟨h.2.position, ⟨h.2.target.reference, h.2.target.inline⟩, h.2.group⟩
    · exact .pure fun _ h => h.2
  · exact .pure fun _ h => h.2

theorem traces_modelUsage {target : Reading Usage}
    (ht : Traces root P target fun u ds => u.groupAs = none ∧ u.TargetSaidBy ds e) :
    Traces root P (modelUsage e target) fun u ds => u.SaidBy ds e := by
  unfold modelUsage
  refine .bind ht fun u => ?_
  refine .bind (.lift fun v hv definitions h => saidBy_of_occurrence hv h.2.1 h.2.2) fun v => ?_
  split
  · next group hgroup =>
    refine .after fun g hg => ?_
    refine .bind (.pure fun definitions h => ?_) fun w => traces_wrapping
    refine ⟨h.2.position, ⟨h.2.target.reference, h.2.target.inline⟩, fun g' hg' => ?_⟩
    cases hg'
    exact ⟨group, hgroup, saidBy_of_groupOf hg⟩
  · exact .bind (.pure fun _ h => h.2) fun w => traces_wrapping

end

/-! ## Models -/

section

variable {root : Element} {es : List Element} {items later : List ModelItem}
  {definitions : List Drafted}

theorem ModelSaidAmong.subset {es' : List Element} (h : es ⊆ es')
    (hitems : ModelSaidAmong root es items definitions) :
    ModelSaidAmong root es' items definitions := by
  intro item hitem u hu
  obtain ⟨x, hx, hsaid⟩ := hitems item hitem u hu
  exact ⟨x, h hx, hsaid⟩

theorem ModelSaidAmong.append (h : ModelSaidAmong root es items definitions)
    (hlater : ModelSaidAmong root es later definitions) :
    ModelSaidAmong root es (items ++ later) definitions := by
  intro item hitem
  rcases List.mem_append.1 hitem with hitem | hitem
  · exact h item hitem
  · exact hlater item hitem

/-- What can be read as an entry of a model can stand in one. -/
theorem isEntry_of_modelTarget {e : Element} {model : Reading (List ModelItem)}
    {target : Reading Usage} (h : modelTarget? e model = some target) : e.isEntry = true := by
  unfold modelTarget? at h
  unfold Element.isEntry
  split at h
  · next hname => simp [hname]
  · next hname => simp [hname]
  · next hname => simp [hname]
  · next hname => simp [hname]
  · cases h

end

section

variable {root : Element} {P : List Drafted → Prop}

mutual

theorem traces_modelOf (tag : Tag) : ∀ (nodes : List Node) (P : List Drafted → Prop), Lasts P →
    (∀ x ∈ Element.entries ⟨tag, nodes⟩, root.UsesInModel x) →
    Traces root P (modelOf nodes) (ModelSaidAmong root (Element.entries ⟨tag, nodes⟩))
  | [], P, _, _ => .pure fun _ _ => by simp [ModelSaidAmong]
  | .text _ :: later, P, hP, hes => by
    unfold modelOf
    exact traces_modelOf tag later P hP hes
  | .element tag' children :: later, P, hP, hes => by
    unfold modelOf
    split
    · next hmodel =>
      rw [Element.entries_cons_model hmodel] at hes ⊢
      exact traces_modelItems children P hP hes
    · next hmodel =>
      rw [Element.entries_cons_of_ne hmodel] at hes ⊢
      exact traces_modelOf tag later P hP hes

theorem traces_modelItems : ∀ (nodes : List Node) (P : List Drafted → Prop), Lasts P →
    (∀ x ∈ Element.entriesAmong nodes, root.UsesInModel x) →
    Traces root P (modelItems nodes) (ModelSaidAmong root (Element.entriesAmong nodes))
  | [], P, _, _ => .pure fun _ _ => by simp [ModelSaidAmong]
  | node :: later, P, hP, hes => by
    rw [Element.entriesAmong_cons] at hes ⊢
    unfold modelItems
    refine .bind (traces_modelItem node P hP fun x hx => hes x (List.mem_append_left _ hx))
      fun item => ?_
    refine .bind (traces_modelItems later _ (hP.and (ModelSaidAmong.lasts root _ _))
      fun x hx => hes x (List.mem_append_right _ hx)) fun items => .pure fun definitions h => ?_
    exact .append (h.1.2.subset (List.subset_append_left _ _))
      (h.2.subset (List.subset_append_right _ _))

theorem traces_modelItem : ∀ (node : Node) (P : List Drafted → Prop), Lasts P →
    (∀ x ∈ Element.entriesAmong [node], root.UsesInModel x) →
    Traces root P (modelItem node)
      fun item => ModelSaidAmong root (Element.entriesAmong [node]) item.toList
  | .text _, P, _, _ => .pure fun _ _ => by simp [ModelSaidAmong]
  | .element tag children, P, hP, hes => by
    unfold modelItem
    split
    · next hchoice =>
      rw [Element.entriesAmong_choice hchoice] at hes ⊢
      refine .bind (traces_choiceMembers children P hP hes) fun members => .pure fun _ h => ?_
      intro item hitem
      rw [Option.toList_some, List.mem_singleton] at hitem
      rw [hitem]
      exact h.2
    · exact .pure fun _ _ => by simp [ModelSaidAmong, ModelItem.usages]
    · exact .pure fun _ _ => by simp [ModelSaidAmong, ModelItem.usages]
    · next hchoice _ _ =>
      split
      · next target ht =>
        have hself : Element.entriesAmong [.element tag children] = [⟨tag, children⟩] := by
          rw [Element.entriesAmong_of_ne hchoice, List.filter_cons_of_pos
            (isEntry_of_modelTarget ht), List.filter_nil]
        rw [hself] at hes ⊢
        have huses := hes _ List.mem_cons_self
        refine .bind (traces_modelUsage (traces_modelTarget hP huses (fun hd hname Q hQ =>
          traces_modelOf tag children Q hQ fun x hx =>
            ⟨_, hd, hname, Element.mem_entries.1 hx⟩) ht)) fun u => .pure fun _ h => ?_
        intro item hitem v hv
        rw [Option.toList_some, List.mem_singleton] at hitem
        rw [hitem, ModelItem.usages, List.mem_singleton] at hv
        rw [hv]
        exact ⟨_, List.mem_cons_self, huses, h.2⟩
      · exact .pure fun _ _ => by simp [ModelSaidAmong]

theorem traces_choiceMembers : ∀ (nodes : List Node) (P : List Drafted → Prop), Lasts P →
    (∀ x ∈ (nodes.filterMap Node.element?).filter Element.isEntry, root.UsesInModel x) →
    Traces root P (choiceMembers nodes) fun us ds => ∀ u ∈ us,
      u.SaidAmong root.UsesInModel ((nodes.filterMap Node.element?).filter Element.isEntry) ds
  | [], P, _, _ => .pure fun _ _ => by simp
  | .text _ :: later, P, hP, hes => by
    unfold choiceMembers
    exact traces_choiceMembers later P hP hes
  | .element tag children :: later, P, hP, hes => by
    have hcons : (Node.element tag children :: later).filterMap Node.element? =
        ⟨tag, children⟩ :: later.filterMap Node.element? := rfl
    rw [hcons] at hes ⊢
    unfold choiceMembers
    split
    · next target ht =>
      rw [List.filter_cons_of_pos (isEntry_of_modelTarget ht)] at hes ⊢
      have huses := hes _ List.mem_cons_self
      refine .bind (traces_modelUsage (traces_modelTarget hP huses (fun hd hname Q hQ =>
        traces_modelOf tag children Q hQ fun x hx =>
          ⟨_, hd, hname, Element.mem_entries.1 hx⟩) ht)) fun u => ?_
      refine .bind (traces_choiceMembers later _ (hP.and (Usage.SaidBy.lasts u _))
        fun x hx => hes x (List.mem_cons_of_mem _ hx)) fun us => .pure ?_
      rintro definitions ⟨⟨_, hu⟩, hus⟩ v hv
      rcases List.mem_cons.1 hv with rfl | hv
      · exact ⟨_, List.mem_cons_self, huses, hu⟩
      · obtain ⟨x, hx, hsaid⟩ := hus v hv
        exact ⟨x, List.mem_cons_of_mem _ hx, hsaid⟩
    · next ht =>
      rw [List.filter_cons_of_neg (by simp [isEntry_of_modelTarget_eq_none ht])] at hes ⊢
      exact traces_choiceMembers later P hP hes

end

/-! ## Documents -/

theorem traces_readBody (es : List Element) (hP : Lasts P) (hes : es ⊆ root.elements) :
    Traces root P (readBody es) fun imports _ => ∀ i ∈ imports,
      ∃ e ∈ es, e.name = "import" ∧ e.attribute? "href" = some i.href := by
  induction es generalizing P with
  | nil => exact .pure fun _ _ => by simp
  | cons e later ih =>
    obtain ⟨he, hlater⟩ := List.cons_subset.1 hes
    have hskip : ∀ {Q : List Drafted → Prop}, Lasts Q →
        Traces root Q (readBody later) fun imports _ => ∀ i ∈ imports,
          ∃ x ∈ e :: later, x.name = "import" ∧ x.attribute? "href" = some i.href :=
      fun hQ => (ih hQ hlater).weaken fun imports _ _ h i hi =>
        (h i hi).imp fun x hx => ⟨List.mem_cons_of_mem _ hx.1, hx.2⟩
    unfold readBody
    split
    · next hname =>
      refine .after fun href hhref => .bind (hskip hP) fun imports => .pure fun _ h i hi => ?_
      rcases List.mem_cons.1 hi with rfl | hi
      · exact ⟨e, List.mem_cons_self, hname, attribute?_of_required hhref⟩
      · exact h.2 i hi
    · next hname =>
      have hdefines : root.Defines e := .child he (.inl hname)
      refine .bind (traces_defineAssembly .everywhere hP hdefines hname fun Q hQ =>
        traces_modelOf e.tag e.children Q hQ fun x hx =>
          ⟨e, hdefines, hname, Element.mem_entries.1 hx⟩) fun id => ?_
      exact hskip (hP.and (Handed.lasts e .assembly id))
    · next hname =>
      have hdefines : root.Defines e := .child he (.inr (.inl hname))
      exact .bind (traces_defineField .everywhere hP hdefines hname) fun id =>
        hskip (hP.and (Handed.lasts e .field id))
    · next hname =>
      have hdefines : root.Defines e := .child he (.inr (.inr hname))
      exact .bind (traces_defineFlag .everywhere hP hdefines) fun id =>
        hskip (hP.and (Handed.lasts e .flag id))
    · exact hskip hP

end

namespace Draft

variable {entities : EntityMap} {path : Path} {source : String} {draft : Draft}

/-- A document that can be read is valid, and what its draft imports and defines comes from
    elements of it. -/
theorem origins_of_read (h : Draft.read entities path source = .ok draft) :
    ∃ root, Element.parse entities source = .ok root ∧ root.Valid ∧
      headerOf path root = .ok draft.header ∧
      (∀ i ∈ draft.imports, ∃ e ∈ root.elements,
        e.name = "import" ∧ e.attribute? "href" = some i.href) ∧
      ∀ d ∈ draft.definitions, ∃ e, d.Origin root draft.definitions e := by
  obtain ⟨root, header, definitions, hroot, hname, hheader, hbody, hdraft⟩ := exists_of_read h
  have hvalid : root.Valid := by
    have htold := told_ofElement path root
    rw [read, hroot] at h
    rw [show ofElement path root = .ok draft from h] at htold
    exact Element.valid_iff.2 htold.1
  obtain ⟨htraced, _, himports⟩ := traces_readBody root.elements lasts_true
    (List.Subset.refl _) [] ⟨by simp [Traced], trivial⟩ _ _ hbody
  rw [hdraft]
  exact ⟨root, hroot, hvalid, hheader, himports, htraced⟩

end Draft

end SchemaFamily
