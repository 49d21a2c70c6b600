import Mathlib.Data.List.Nodup
import SchemaFamily.Proofs.Family.Settled

/-
  Linking a family. When a family that was resolved is linked, every usage has a target
  (`targets_of_link`): a usage by name stands for what the name denotes in the document that owns
  the declaration, an inline usage for the inline definition that was read with it, and as many
  usages are resolved as there are usages by name.
-/

namespace SchemaFamily

theorem Usage.referenceName?_forget (u : Usage) : u.forget.referenceName? = u.referenceName? := by
  rcases u with ⟨kind, ⟨name, _ | _⟩ | declaration⟩ <;> rfl

theorem Usage.kind_forget (u : Usage) : u.forget.kind = u.kind := by
  rcases u with ⟨kind, ⟨name, _ | _⟩ | declaration⟩ <;> rfl

theorem Usage.Fresh.pendingName? {u : Usage} (h : u.Fresh) : u.pendingName? = u.referenceName? := by
  rcases u with ⟨kind, ⟨name, _ | declaration⟩ | declaration⟩
  · rfl
  · exact absurd rfl (h name declaration)
  · rfl

theorem Usage.referenceName?_of_pending {u : Usage} {name : String}
    (h : u.pendingName? = some name) : u.referenceName? = some name := by
  rcases u with ⟨kind, ⟨name', _ | declaration⟩ | declaration⟩
  · exact h
  · cases h
  · cases h

/-- Number of the usages of a graph that refer by name. -/
def Graph.referenceCount (g : Graph) : Nat :=
  (g.declarations.toList.flatMap (·.definition.usages)).countP (·.2.referenceName?.isSome)

namespace Graph

variable {g g' : Graph}

/-- Names are counted the same in graphs of the same outline. -/
theorem SameOutline.referenceCount (h : g.SameOutline g') :
    g.referenceCount = g'.referenceCount := by
  have houtline : ∀ d : Declaration, d.definition.usages.countP (·.2.referenceName?.isSome) =
      d.outline.definition.usages.countP (·.2.referenceName?.isSome) := by
    intro d
    rw [Declaration.outline, Definition.mapUsages_eq_mapSlots, Definition.usages_mapSlots,
      List.countP_map]
    exact List.countP_congr fun su _ => by simp [Usage.referenceName?_forget]
  have hmap : ∀ g : Graph, g.referenceCount =
      ((g.declarations.map Declaration.outline).toList.flatMap
        (·.definition.usages)).countP (·.2.referenceName?.isSome) := by
    intro g
    rw [Graph.referenceCount, List.countP_flatMap, List.countP_flatMap, Array.toList_map,
      List.map_map]
    exact congrArg List.sum (List.map_congr_left fun d _ => houtline d)
  rw [hmap g, hmap g', h.declarations]

theorem length_pending_of_fresh {d : Definition} (h : d.Fresh) :
    d.pending.length = d.usages.countP (·.2.referenceName?.isSome) := by
  rw [Definition.pending, List.length_filterMap_eq_countP]
  exact List.countP_congr fun su hsu => by rw [Option.isSome_map, (h su hsu).pendingName?]

theorem length_references (h : g.InOrder) (hfresh : ∀ d ∈ g.declarations, d.definition.Fresh) :
    g.references.length = g.referenceCount := by
  have hperm := h.arranged.flatMap_holdings_perm (.refl _)
  rw [references, List.length_flatMap, referenceCount, List.countP_flatMap]
  refine ((hperm.map _).sum_nat).trans (congrArg List.sum (List.map_congr_left fun d hd => ?_))
  rw [d.references_eq, List.length_map]
  exact length_pending_of_fresh (hfresh d (Array.mem_toList_iff.1 hd))

theorem mem_references_iff (h : g.InOrder) {r : Reference} :
    r ∈ g.references ↔ ∃ d ∈ g.declarations, r ∈ d.references := by
  have hperm := h.arranged.flatMap_holdings_perm (.refl _)
  simp only [references, List.mem_flatMap (f := Declaration.references), hperm.mem_iff,
    Array.mem_toList_iff]

/-- The usages of some documents that are to be resolved, in order. -/
def referencesOf (g : Graph) (documents : List DocumentId) : List Reference :=
  (documents.flatMap g.holdings).flatMap Declaration.references

theorem referencesOf_append (documents later : List DocumentId) :
    g.referencesOf (documents ++ later) = g.referencesOf documents ++ g.referencesOf later := by
  rw [referencesOf, List.flatMap_append, List.flatMap_append, referencesOf, referencesOf]

theorem referencesOf_singleton (document : DocumentId) :
    g.referencesOf [document] = (g.holdings document).flatMap Declaration.references := by
  rw [referencesOf, List.flatMap_singleton]

theorem mem_referencesOf (h : g.Arranged) {documents : List DocumentId}
    (hlt : ∀ document ∈ documents, document.index < g.documents.size) {r : Reference} :
    r ∈ g.referencesOf documents ↔
      ∃ d ∈ g.declarations, d.owner ∈ documents ∧ r ∈ d.references := by
  rw [referencesOf, List.mem_flatMap]
  constructor
  · rintro ⟨d, hd, hr⟩
    obtain ⟨document, hm, hd⟩ := List.mem_flatMap.1 hd
    obtain ⟨hmem, rfl⟩ := (h.mem_holdings (hlt document hm)).1 hd
    exact ⟨d, hmem, hm, hr⟩
  · rintro ⟨d, hd, howner, hr⟩
    refine ⟨d, List.mem_flatMap.2 ⟨d.owner, howner, ?_⟩, hr⟩
    exact (h.mem_holdings (hlt d.owner howner)).2 ⟨hd, rfl⟩

theorem document_of_mem_referencesOf (h : g.Arranged) {documents : List DocumentId}
    (hlt : ∀ document ∈ documents, document.index < g.documents.size) {r : Reference}
    (hr : r ∈ g.referencesOf documents) : r.document ∈ documents := by
  obtain ⟨d, _, howner, hr⟩ := (mem_referencesOf h hlt).1 hr
  rwa [(mem_references hr).2.1]

/-- Of the references of different documents those of one document are its own. -/
theorem filter_referencesOf (h : g.Arranged) {documents : List DocumentId}
    (hlt : ∀ document ∈ documents, document.index < g.documents.size) (hnodup : documents.Nodup)
    {document : DocumentId} (hd : document ∈ documents) :
    (g.referencesOf documents).filter (·.document == document) = g.referencesOf [document] := by
  have hnone : ∀ others : List DocumentId, (∀ other ∈ others, other.index < g.documents.size) →
      document ∉ others → (g.referencesOf others).filter (·.document == document) = [] := by
    intro others hothers hnot
    refine List.filter_eq_nil_iff.2 fun r hr he => hnot ?_
    rw [← beq_iff_eq.1 he]
    exact document_of_mem_referencesOf h hothers hr
  obtain ⟨before, after, rfl⟩ := List.append_of_mem hd
  have hsplit := List.nodup_middle.1 hnodup
  rw [List.nodup_cons, List.mem_append, not_or] at hsplit
  rw [List.forall_mem_append, List.forall_mem_cons] at hlt
  have hown : ∀ r ∈ g.referencesOf [document], r.document = document := fun r hr =>
    List.mem_singleton.1 (document_of_mem_referencesOf h (by simpa using hlt.2.1) hr)
  rw [referencesOf_append, ← List.singleton_append, referencesOf_append, List.filter_append,
    List.filter_append, hnone before hlt.1 hsplit.1.1, hnone after hlt.2.2 hsplit.1.2,
    List.nil_append, List.append_nil, List.filter_eq_self]
  exact fun r hr => beq_iff_eq.2 (hown r hr)

/-- A reference without a fault has something that its name denotes. -/
theorem exists_target (h : g.InOrder) {d : Declaration} (hd : d ∈ g.declarations) {r : Reference}
    (hr : r ∈ d.references) (hf : g.fault? r = none) :
    ∃ t, g.denotation? d.owner r.pending.kind r.pending.name = some t := by
  obtain ⟨hid, howner, _⟩ := mem_references hr
  obtain ⟨owner, hdoc⟩ := h.arranged.exists_owner hd
  rw [fault?, target?, hid, howner, hdoc, h.arranged.getElem?_id hd] at hf
  cases ht : g.denotation? d.owner r.pending.kind r.pending.name with
  | none =>
    rw [ht] at hf
    cases hf
  | some t => exact ⟨t, rfl⟩

/-- Where all references are settled, a usage by name was one of them and stands for its target. -/
theorem exists_reference (h : g.InOrder) (hfresh : ∀ d ∈ g.declarations, d.definition.Fresh)
    (hok : ∀ r ∈ g.references, g.fault? r = none) {d : Declaration} (hd : d ∈ g.declarations)
    {slot : Slot} {u : Usage} {name : String}
    (hu : (g.settleDeclaration g.references d).definition.usage? slot = some u)
    (hname : u.referenceName? = some name) :
    ∃ r ∈ g.references, r.document = d.owner ∧ r.pending.kind = u.kind ∧ r.pending.name = name ∧
      ∃ t, g.target? r = some t ∧ u.declaration? = some t.id := by
  rw [settleDeclaration, Definition.usage?_mapSlots, Option.map_eq_some_iff] at hu
  obtain ⟨v, hv, hu⟩ := hu
  have hforget : u.forget = v.forget := by
    rw [← hu]
    split
    · exact g.forget_settleUsage d.owner v
    · rfl
  have hkind : u.kind = v.kind := by rw [← Usage.kind_forget, hforget, Usage.kind_forget]
  rw [← Usage.referenceName?_forget, hforget, Usage.referenceName?_forget] at hname
  have hvfresh := hfresh d hd (slot, v) (Definition.mem_usages_iff.2 hv)
  have hpending : v.pendingName? = some name := by rw [hvfresh.pendingName?, hname]
  have hp : (⟨slot, v.kind, name, v.position⟩ : Pending) ∈ d.definition.pending :=
    mem_pending.2 ⟨v, Definition.mem_usages_iff.2 hv, rfl, hpending, rfl⟩
  have hr : (⟨d.owner, d.id, ⟨slot, v.kind, name, v.position⟩⟩ : Reference) ∈ d.references :=
    Declaration.mem_references_iff.2 ⟨_, hp, rfl⟩
  have hrg := (mem_references_iff h).2 ⟨d, hd, hr⟩
  obtain ⟨t, ht⟩ := exists_target h hd hr (hok _ hrg)
  have hmem : (⟨d.id, slot⟩ : UsageRef) ∈ g.references.map Reference.usage :=
    List.mem_map.2 ⟨_, hrg, rfl⟩
  rw [if_pos hmem, settleUsage_of_pending hpending ht] at hu
  refine ⟨_, hrg, rfl, hkind.symm, rfl, t, ht, ?_⟩
  rw [← hu, Usage.declaration?_resolve hpending]

/-- Where all references are settled, each of them is a usage by name. -/
theorem exists_settled (h : g.InOrder) {r : Reference} (hr : r ∈ g.references) :
    ∃ d ∈ g.declarations, d.owner = r.document ∧ ∃ u,
      (g.settleDeclaration g.references d).definition.usage? r.pending.slot = some u ∧
        u.kind = r.pending.kind ∧ u.referenceName? = some r.pending.name := by
  obtain ⟨d, hd, hrd⟩ := (mem_references_iff h).1 hr
  obtain ⟨p, hp, rfl⟩ := Declaration.mem_references_iff.1 hrd
  obtain ⟨v, hv, hkind, hname, _⟩ := mem_pending.1 hp
  have hmem : (⟨d.id, p.slot⟩ : UsageRef) ∈ g.references.map Reference.usage :=
    List.mem_map.2 ⟨_, hr, rfl⟩
  have hforget := g.forget_settleUsage d.owner v
  refine ⟨d, hd, rfl, g.settleUsage d.owner v, ?_, ?_, ?_⟩
  · rw [settleDeclaration, Definition.usage?_mapSlots, Definition.mem_usages_iff.1 hv,
      Option.map_some, if_pos hmem]
  · rw [← Usage.kind_forget, hforget, Usage.kind_forget, hkind]
  · rw [← Usage.referenceName?_forget, hforget, Usage.referenceName?_forget,
      Usage.referenceName?_of_pending hname]

/-- Where all references are settled, a usage by name stands for what its name denotes. -/
theorem target_of_settled (h : g.InOrder) (hfresh : ∀ d ∈ g.declarations, d.definition.Fresh)
    (hok : ∀ r ∈ g.references, g.fault? r = none) {d : Declaration} (hd : d ∈ g.declarations)
    {slot : Slot} {u : Usage}
    (hu : (g.settleDeclaration g.references d).definition.usage? slot = some u) :
    u.declaration?.isSome ∧ ∀ name, u.referenceName? = some name →
      ∃ t, u.declaration? = some t.id ∧ g.Denotes d.owner u.kind name t := by
  have htarget : ∀ name, u.referenceName? = some name →
      ∃ t, u.declaration? = some t.id ∧ g.Denotes d.owner u.kind name t := by
    intro name hname
    obtain ⟨r, _, hdocument, hkind, hrname, t, ht, hdeclaration⟩ :=
      exists_reference h hfresh hok hd hu hname
    refine ⟨t, hdeclaration, ?_⟩
    rw [target?, hdocument, hkind, hrname] at ht
    exact (h.denotation?_eq_some_iff (h.arranged.owner_lt hd)).1 ht
  refine ⟨?_, htarget⟩
  cases hname : u.referenceName? with
  | none =>
    unfold Usage.referenceName? at hname
    unfold Usage.declaration?
    split at hname
    · cases hname
    · simp
  | some name =>
    obtain ⟨t, hdeclaration, _⟩ := htarget name hname
    rw [hdeclaration]
    rfl

end Graph

/-! ## Inline usages -/

namespace Usage

/-- The declaration that stands inside the usage. -/
def inlineTarget? (u : Usage) : Option DeclarationId :=
  match u.target with
  | .inline declaration => some declaration
  | .reference _ _ => none

theorem inlineTarget?_forget (u : Usage) : u.forget.inlineTarget? = u.inlineTarget? := by
  rcases u with ⟨kind, target | target⟩ <;> rfl

theorem inlineTarget?_rebase (u : Usage) (count : Nat) :
    (u.rebase count).inlineTarget? = u.inlineTarget?.map (·.offset count) := by
  rcases u with ⟨kind, target | target⟩ <;> rfl

theorem Fresh.forget {u : Usage} (h : u.Fresh) : u.forget = u := by
  rcases u with ⟨kind, ⟨name, _ | declaration⟩ | declaration⟩
  · rfl
  · exact absurd rfl (h name declaration)
  · rfl

end Usage

theorem Definition.Fresh.mapUsages_forget {d : Definition} (h : d.Fresh) :
    d.mapUsages Usage.forget = d := by
  rw [mapUsages_eq_mapSlots, mapSlots_congr (g := fun _ u => u) fun su hsu => (h su hsu).forget,
    mapSlots_self]

/-- A declaration of a family is a definition of one of its drafts: apart from what names are
    resolved to, nothing but the handles of inline usages differs. -/
theorem exists_drafted {tree : ImportTree} (hf : ∀ draft ∈ tree.drafts, draft.Fresh) {g : Graph}
    (ho : (Graph.ofTree tree).SameOutline g) {d : Declaration} (hd : d ∈ g.declarations) :
    ∃ document first place drafted, DraftedAt tree.drafts document first place drafted ∧
      d.id = .ofIndex (first + place) ∧ d.owner = .ofIndex document ∧ d.scope = drafted.scope ∧
      d.definition.mapUsages Usage.forget = drafted.definition.shiftInline first := by
  obtain ⟨i, hi⟩ := Array.getElem?_of_mem hd
  obtain ⟨d', hd', he⟩ := ho.symm.exists_declaration hi
  obtain ⟨document, first, place, drafted, hat, _, hdeclaration⟩ :=
    (Graph.numbers_ofTree tree).origin hd'
  have hfresh := Graph.fresh_ofTree hf d' (Array.mem_of_getElem? hd')
  refine ⟨document, first, place, drafted, hat, ?_, ?_, ?_, ?_⟩
  · rw [← Declaration.id_of_outline he, hdeclaration]
    rfl
  · rw [← Declaration.owner_of_outline he, hdeclaration]
    rfl
  · rw [← Declaration.scope_of_outline he, hdeclaration]
    rfl
  · have hdef : d'.definition.mapUsages Usage.forget = d.definition.mapUsages Usage.forget :=
      congrArg Declaration.definition he
    rw [← hdef, hfresh.mapUsages_forget, hdeclaration]
    rfl

theorem inlineTargets_of_mapUsages_forget {d drafted : Definition} {count : Nat}
    (h : d.mapUsages Usage.forget = drafted.shiftInline count) (slot : Slot) :
    (d.usage? slot).bind Usage.inlineTarget? =
      ((drafted.usage? slot).bind Usage.inlineTarget?).map (·.offset count) := by
  rw [← Definition.rebase_eq_shiftInline] at h
  have hslot := congrArg (fun definition => (definition.usage? slot).bind Usage.inlineTarget?) h
  simp only [Definition.rebase, Definition.usage?_mapUsages] at hslot
  cases hd : d.usage? slot with
  | none =>
    rw [hd] at hslot
    cases hv : drafted.usage? slot with
    | none => rfl
    | some v =>
      rw [hv] at hslot
      exact hslot.trans (Usage.inlineTarget?_rebase v count)
  | some u =>
    rw [hd] at hslot
    refine (Usage.inlineTarget?_forget u).symm.trans (hslot.trans ?_)
    cases drafted.usage? slot with
    | none => rfl
    | some v => exact Usage.inlineTarget?_rebase v count

/-! ## Linking a family -/

section

variable {disk : Disk} {entities : Xml.EntityMap} {p base : Path} {c c' : Cache}
  {tree : ImportTree} {n : Nat} {g : Graph}

/-- What linking makes of a family that was resolved is the family with all references settled. -/
theorem settled_of_link (ha : (Graph.ofTree tree).Addressable)
    (hl : link.apply (Graph.ofTree tree) = (.ok n, g)) :
    (∀ r ∈ (Graph.ofTree tree).references, (Graph.ofTree tree).fault? r = none) ∧
      g = (Graph.ofTree tree).settled (Graph.ofTree tree).references ∧
      (Graph.ofTree tree).references.length = n := by
  have hruns := Graph.runs_link (Graph.inOrder_ofTree ha)
  rw [← Graph.settled_nil (Graph.ofTree tree)] at hl
  obtain ⟨hok, hg, hn⟩ := hruns.of_ok hl
  refine ⟨hok, hg, ?_⟩
  rw [List.nil_append, List.length_nil, Nat.zero_add] at hn
  exact hn

/-- A family that was linked is in order and has no multiplexers. -/
theorem reconcilable_of_link (ha : (Graph.ofTree tree).Addressable)
    (hl : link.apply (Graph.ofTree tree) = (.ok n, g)) :
    g.InOrder ∧ g.Addressable ∧ g.Unshared ∧ g.documents.size ≠ 0 := by
  obtain ⟨_, rfl, _⟩ := settled_of_link ha hl
  have ho := (Graph.ofTree tree).sameOutline_settled (Graph.ofTree tree).references
  refine ⟨(Graph.inOrder_ofTree ha).congr ho (Graph.sameImports_settled _ _), ho.addressable ha,
    ?_, ?_⟩
  · exact Graph.unshared_settled (Graph.bare_ofTree tree).toUnshared _
  · rw [← ho.size_documents]
    exact Graph.size_documents_ofTree_ne tree

/-- When a family is linked, every usage has a target. A usage by name stands for the first global
    declaration of its kind and name in the first document that has one, where documents are taken
    before their imports from the one that owns the using declaration; an inline usage stands for
    the declaration that the draft gave it; and the result is the number of usages by name. Handles
    are 32 bits wide, so a family is `Addressable` unless it has more documents or declarations
    than there are handles, and shares them. -/
theorem targets_of_link (hc : c.ReadFromTexts)
    (hr : (resolve disk entities p base).run.run c = (.ok tree, c'))
    (ha : (Graph.ofTree tree).Addressable)
    (hl : link.apply (Graph.ofTree tree) = (.ok n, g)) :
    (∀ d ∈ g.declarations, ∀ slot u, d.definition.usage? slot = some u →
      u.declaration?.isSome ∧ ∀ name, u.referenceName? = some name →
        ∃ t ∈ g.declarations, u.declaration? = some t.id ∧ t.scope = .everywhere ∧
          t.kind = u.kind ∧ t.name = name ∧ g.Denotes d.owner u.kind name t) ∧
    (∀ d ∈ g.declarations, ∃ document first place drafted,
      DraftedAt tree.drafts document first place drafted ∧ d.id = .ofIndex (first + place) ∧
        d.owner = .ofIndex document ∧ d.scope = drafted.scope ∧
        d.definition.mapUsages Usage.forget = drafted.definition.shiftInline first ∧
        ∀ slot, (d.definition.usage? slot).bind Usage.inlineTarget? =
          ((drafted.definition.usage? slot).bind Usage.inlineTarget?).map (·.offset first)) ∧
    n = g.referenceCount := by
  have hdrafts := fresh_of_resolve hc hr
  have hfresh := Graph.fresh_ofTree hdrafts
  have h := Graph.inOrder_ofTree ha
  obtain ⟨hok, rfl, hn⟩ := settled_of_link ha hl
  have ho := (Graph.ofTree tree).sameOutline_settled (Graph.ofTree tree).references
  have hi := (Graph.ofTree tree).sameImports_settled (Graph.ofTree tree).references
  refine ⟨?_, ?_, ?_⟩
  · intro d' hd' slot u hu
    obtain ⟨d, hd, rfl⟩ := Array.mem_map.1 hd'
    obtain ⟨hsome, htarget⟩ := Graph.target_of_settled h hfresh hok hd hu
    refine ⟨hsome, fun name hname => ?_⟩
    obtain ⟨t, ht, hdenotes⟩ := htarget name hname
    obtain ⟨t', hdenotes', he⟩ := hdenotes.congr ho hi
    obtain ⟨htm, hglobal⟩ := hdenotes'.mem
    obtain ⟨hscope, hkind, hname⟩ := Declaration.isGlobal_iff.1 hglobal
    refine ⟨t', htm, ?_, hscope, hkind, hname, hdenotes'⟩
    rw [ht, Declaration.id_of_outline he]
  · intro d hd
    obtain ⟨document, first, place, drafted, hat, hid, howner, hscope, hdef⟩ :=
      exists_drafted hdrafts ho hd
    exact ⟨document, first, place, drafted, hat, hid, howner, hscope, hdef,
      inlineTargets_of_mapUsages_forget hdef⟩
  · rw [← hn, Graph.length_references h hfresh, ho.referenceCount]

end

/-- A file whose field has a flag of the file that it imports. -/
def importedFlag : Disk := .ofSights
  [(⟨"a"⟩, .file (some ("<METASCHEMA><import href=\"b\"/>" ++
      "<define-field name=\"w\"><flag ref=\"f\"/></define-field></METASCHEMA>"))),
    (⟨"b"⟩, .file (some "<METASCHEMA><define-flag name=\"f\"/></METASCHEMA>"))]

theorem targets_importedFlag :
    ∃ tree c' n g, (resolve importedFlag [] ⟨"a"⟩ ⟨""⟩).run.run {} = (.ok tree, c') ∧
      link.apply (Graph.ofTree tree) = (.ok n, g) ∧ n = 1 ∧ n = g.referenceCount ∧
      ∀ d ∈ g.declarations, ∀ slot u, d.definition.usage? slot = some u →
        u.declaration?.isSome := by
  have hkey : succeeds (fun tree _ => decide (Graph.ofTree tree).Addressable &&
        succeeds (fun n _ => n == 1) (link.apply (Graph.ofTree tree)))
      ((resolve importedFlag [] ⟨"a"⟩ ⟨""⟩).run.run {}) = true := by
    decide +kernel
  obtain ⟨tree, c', hr, hcheck⟩ := exists_of_succeeds hkey
  obtain ⟨ha, hlink⟩ := Bool.and_eq_true_iff.1 hcheck
  obtain ⟨n, g, hl, hn⟩ := exists_of_succeeds hlink
  obtain ⟨htargets, _, hcount⟩ :=
    targets_of_link Cache.readFromTexts_empty hr (of_decide_eq_true ha) hl
  refine ⟨tree, c', n, g, hr, hl, by simpa using hn, hcount, fun d hd slot u hu => ?_⟩
  exact (htargets d hd slot u hu).1

end SchemaFamily
