import SchemaFamily.Family.Link
import SchemaFamily.Proofs.Family.Denotation
import SchemaFamily.Proofs.Family.Runs

/-
  What linking makes of a family. `references` lists the usages to be resolved in the order in
  which they are, and `settled` is the family when some of them are: their usages stand for what
  their names denote, and what another document owns is a dependency. Linking settles one
  reference after the other (`runs_linkUsage`) until all are settled or the name of one denotes
  nothing (`runs_link`).
-/

namespace SchemaFamily

/-- A usage that is to be resolved, in a declaration that a document owns. -/
structure Reference where
  document : DocumentId
  declaration : DeclarationId
  pending : Pending
deriving DecidableEq, Repr

/-- The place of the usage. -/
def Reference.usage (r : Reference) : UsageRef := ⟨r.declaration, r.pending.slot⟩

/-- The usages of a declaration that are to be resolved. -/
def Declaration.references (d : Declaration) : List Reference :=
  d.definition.usages.filterMap fun (slot, u) =>
    match u.target with
    | .reference name none => some ⟨d.owner, d.id, ⟨slot, u.kind, name, u.position⟩⟩
    | _ => none

theorem Declaration.references_eq (d : Declaration) :
    d.references = d.definition.pending.map (⟨d.owner, d.id, ·⟩) := by
  rw [references, Definition.pending, List.map_filterMap]
  refine congrArg (fun f => d.definition.usages.filterMap f) (funext fun su => ?_)
  rcases su with ⟨slot, kind, ⟨name, _ | target⟩ | id⟩ <;> rfl

theorem Declaration.mem_references_iff {d : Declaration} {r : Reference} :
    r ∈ d.references ↔ ∃ p ∈ d.definition.pending, ⟨d.owner, d.id, p⟩ = r := by
  rw [d.references_eq, List.mem_map]

/-- The dependencies with an entry registered. -/
def Dependencies.add (d : Dependencies) (entry : DependencyEntry) : Dependencies :=
  d.register entry.nameSpace entry.name entry.dependency

namespace Graph

/-- The usages of a family that are to be resolved, in order. -/
def references (g : Graph) : List Reference :=
  ((g.documents.toList.map (·.id)).flatMap g.holdings).flatMap Declaration.references

/-- What the name of a reference denotes. -/
def target? (g : Graph) (r : Reference) : Option Declaration :=
  g.denotation? r.document r.pending.kind r.pending.name

/-- The dependency that a reference is, if another document owns what its name denotes. -/
def dependency? (g : Graph) (r : Reference) : Option DependencyEntry :=
  (g.target? r).bind fun t =>
    if t.owner = r.document then none
    else some ⟨r.pending.name, .declaration t.kind, .declaration t.id⟩

/-- The usage, in a declaration that `document` owns, standing for what its name denotes. -/
def settleUsage (g : Graph) (document : DocumentId) (u : Usage) : Usage :=
  match u.pendingName?.bind (g.denotation? document u.kind) with
  | some t => u.resolve t.id
  | none => u

/-- The document when the references `done` are settled. -/
def settleDocument (g : Graph) (done : List Reference) (d : Document) : Document :=
  { d with dependencies :=
      ((done.filter (·.document == d.id)).filterMap g.dependency?).foldl .add d.dependencies }

/-- The declaration when the references `done` are settled. -/
def settleDeclaration (g : Graph) (done : List Reference) (d : Declaration) : Declaration :=
  { d with definition := d.definition.mapSlots fun slot u =>
      if ⟨d.id, slot⟩ ∈ done.map Reference.usage then g.settleUsage d.owner u else u }

/-- The family when the references `done` are settled. -/
def settled (g : Graph) (done : List Reference) : Graph :=
  { g with
    documents := g.documents.map (g.settleDocument done)
    declarations := g.declarations.map (g.settleDeclaration done) }

/-- Why a reference cannot be settled, if its name denotes nothing. -/
def fault? (g : Graph) (r : Reference) : Option Failure :=
  match g.target? r with
  | some _ => none
  | none => do
    let owner ← g.documents[r.document.index]?
    let holder ← g.declarations[r.declaration.index]?
    return .unresolved (owner.siteOf holder.name r.pending.position) r.pending.kind r.pending.name

/-! ## Settled usages -/

theorem forget_settleUsage (g : Graph) (document : DocumentId) (u : Usage) :
    (g.settleUsage document u).forget = u.forget := by
  unfold settleUsage
  split
  · exact Usage.forget_resolve u _
  · rfl

theorem settleUsage_of_pending {g : Graph} {document : DocumentId} {u : Usage} {name : String}
    {t : Declaration} (hu : u.pendingName? = some name)
    (ht : g.denotation? document u.kind name = some t) :
    g.settleUsage document u = u.resolve t.id := by
  rw [settleUsage, hu, Option.bind_some, ht]

theorem mem_pending {d : Definition} {p : Pending} :
    p ∈ d.pending ↔ ∃ u, (p.slot, u) ∈ d.usages ∧ u.kind = p.kind ∧
      u.pendingName? = some p.name ∧ u.position = p.position := by
  simp only [Definition.pending, List.mem_filterMap, Option.map_eq_some_iff]
  constructor
  · rintro ⟨⟨slot, u⟩, hu, name, hname, rfl⟩
    exact ⟨u, hu, rfl, hname, rfl⟩
  · rintro ⟨u, hu, hkind, hname, hposition⟩
    refine ⟨(p.slot, u), hu, p.name, hname, ?_⟩
    rw [hkind, hposition]

/-! ## Settled graphs -/

variable {g : Graph}

@[simp]
theorem settled_nil (g : Graph) : g.settled [] = g := by
  have hdoc : g.settleDocument [] = id := by
    funext d
    rfl
  have hdecl : g.settleDeclaration [] = id := by
    funext d
    simp [settleDeclaration, Definition.mapSlots_self]
  rw [settled, hdoc, hdecl, Array.map_id, Array.map_id]

theorem getElem?_settled_documents (g : Graph) (done : List Reference) (i : Nat) :
    (g.settled done).documents[i]? = g.documents[i]?.map (g.settleDocument done) :=
  Array.getElem?_map ..

theorem getElem?_settled_declarations (g : Graph) (done : List Reference) (i : Nat) :
    (g.settled done).declarations[i]? = g.declarations[i]?.map (g.settleDeclaration done) :=
  Array.getElem?_map ..

theorem outline_settleDeclaration (g : Graph) (done : List Reference) (d : Declaration) :
    (g.settleDeclaration done d).outline = d.outline := by
  simp only [Declaration.outline, settleDeclaration, Definition.mapUsages_eq_mapSlots,
    Definition.mapSlots_mapSlots]
  refine congrArg (fun definition => { d with definition }) ?_
  refine Definition.mapSlots_congr fun su _ => ?_
  split
  · exact g.forget_settleUsage _ _
  · rfl

theorem sameOutline_settled (g : Graph) (done : List Reference) :
    g.SameOutline (g.settled done) := by
  refine ⟨?_, ?_⟩
  · rw [settled, Array.map_map]
    rfl
  · rw [settled, Array.map_map]
    exact Array.map_congr_left fun d _ => (g.outline_settleDeclaration done d).symm

theorem sameImports_settled (g : Graph) (done : List Reference) :
    g.SameImports (g.settled done) := by
  rw [SameImports, settled, Array.map_map]
  rfl

theorem unshared_settled (h : g.Unshared) (done : List Reference) : (g.settled done).Unshared := by
  refine ⟨fun d' hd' => ?_, h.multiplexers, h.names, h.usages⟩
  obtain ⟨d, hd, rfl⟩ := Array.mem_map.1 hd'
  exact h.owned_multiplexers d hd

/-! ## One more reference -/

theorem modify_map_eq_map {α β : Type} {xs : Array α} {i : Nat} {f f' : α → β} {m : β → β}
    (hi : ∀ a, xs[i]? = some a → m (f a) = f' a)
    (hne : ∀ j a, xs[j]? = some a → j ≠ i → f a = f' a) :
    (xs.map f).modify i m = xs.map f' := by
  refine Array.ext_getElem? fun j => ?_
  rw [Array.getElem?_modify, Array.getElem?_map, Array.getElem?_map]
  cases ha : xs[j]? with
  | none => split <;> rfl
  | some a =>
    split
    · next hij =>
      rw [Option.map_some, Option.map_some, Option.map_some, hi a (hij ▸ ha)]
    · next hij => rw [Option.map_some, Option.map_some, hne j a ha fun e => hij e.symm]

/-- Registering a dependency on something that another document owns adds one entry. -/
theorem registerDependency_eq {document owner : DocumentId} {name : String}
    {dependency : Dependency} {nameSpace : Namespace} {d : Document}
    (hd : g.documents[document.index]? = some d)
    (hn : g.dependencyNamespace dependency = .ok nameSpace) :
    (g.registerDependency document owner name dependency).map (·.1) =
      .ok (if owner = document then g
        else { g with
          documents := g.documents.modify document.index fun d =>
            { d with dependencies := d.dependencies.add ⟨name, nameSpace, dependency⟩ } }) := by
  rw [registerDependency]
  split
  · rfl
  · simp only [hn, document_of_getElem? hd, modifyDocument, hd, bind, Except.bind]
    rfl

theorem settleDocument_append_of_ne {done : List Reference} {r : Reference} {d : Document}
    (h : r.document ≠ d.id) : g.settleDocument (done ++ [r]) d = g.settleDocument done d := by
  rw [settleDocument, settleDocument, List.filter_append,
    List.filter_cons_of_neg (by simpa using h), List.filter_nil, List.append_nil]

theorem settleDocument_append_of_eq {done : List Reference} {r : Reference} {d : Document}
    (h : r.document = d.id) :
    g.settleDocument (done ++ [r]) d =
      { g.settleDocument done d with
        dependencies := (g.dependency? r).toList.foldl Dependencies.add
          (g.settleDocument done d).dependencies } := by
  simp only [settleDocument]
  rw [List.filter_append, List.filter_cons_of_pos (by simpa using h), List.filter_nil,
    List.filterMap_append, List.foldl_append, List.filterMap_cons]
  cases g.dependency? r <;> rfl

/-- A reference that is no dependency changes no document. -/
theorem documents_settled_of_none {done : List Reference} {r : Reference}
    (hr : g.dependency? r = none) :
    (g.settled done).documents = g.documents.map (g.settleDocument (done ++ [r])) := by
  refine Array.map_congr_left fun d _ => ?_
  by_cases hd : r.document = d.id
  · rw [settleDocument_append_of_eq hd, hr]
    rfl
  · rw [settleDocument_append_of_ne hd]

/-- A reference that is a dependency changes the document that refers. -/
theorem modify_documents_settled (h : g.Arranged) {done : List Reference} {r : Reference}
    {entry : DependencyEntry} (hr : g.dependency? r = some entry) :
    (g.settled done).documents.modify r.document.index (fun d =>
        { d with dependencies := d.dependencies.add entry }) =
      g.documents.map (g.settleDocument (done ++ [r])) := by
  refine modify_map_eq_map (fun d hd => ?_) fun j d hd hj => ?_
  · have hid : r.document = d.id := (Handle.ext (h.document_index hd)).symm
    rw [settleDocument_append_of_eq hid, hr]
    rfl
  · refine (settleDocument_append_of_ne fun e => hj ?_).symm
    rw [← h.document_index hd, ← e]

theorem resolve_settleUsage {document : DocumentId} {u : Usage} {name : String} {t : Declaration}
    (hu : u.pendingName? = some name) (ht : g.denotation? document u.kind name = some t) :
    (g.settleUsage document u).resolve t.id = g.settleUsage document u := by
  rw [settleUsage_of_pending hu ht]
  exact Usage.resolve_of_not_pending (Usage.pendingName?_resolve u t.id) t.id

section

variable (h : g.InOrder) {holder : Declaration} (hholder : holder ∈ g.declarations) {p : Pending}
  (hp : p ∈ holder.definition.pending) {t : Declaration}
  (ht : g.denotation? holder.owner p.kind p.name = some t) (done : List Reference)

include h hholder hp ht

/-- Resolving a usage settles its reference, also when it was settled before. -/
theorem modifyUsage_settled :
    (g.settled done).declarations.modify holder.id.index (fun d =>
        { d with definition := d.definition.modifyUsage p.slot (·.resolve t.id) }) =
      g.declarations.map (g.settleDeclaration (done ++ [⟨holder.owner, holder.id, p⟩])) := by
  obtain ⟨u, hu, hkind, hname, _⟩ := mem_pending.1 hp
  refine modify_map_eq_map (fun d hd => ?_) fun j d hd hj => ?_
  · have hd' := h.arranged.getElem?_id hholder
    rw [hd] at hd'
    cases hd'
    simp only [settleDeclaration, Definition.modifyUsage_eq_mapSlots, Definition.mapSlots_mapSlots]
    refine congrArg (fun definition => { holder with definition }) ?_
    refine Definition.mapSlots_congr fun su hsu => ?_
    by_cases hslot : su.1 = p.slot
    · -- the slot holds the pending usage, and the name denotes `t`
      have hsu' : holder.definition.usage? su.1 = some su.2 := Definition.mem_usages_iff.1 hsu
      rw [hslot, Definition.mem_usages_iff.1 hu] at hsu'
      cases hsu'
      rw [← hkind] at ht
      rw [if_pos hslot, hslot, if_pos (c := _ ∈ (done ++ _).map _) (by simp [Reference.usage])]
      split
      · exact resolve_settleUsage hname ht
      · exact (settleUsage_of_pending hname ht).symm
    · have hne : (⟨holder.id, su.1⟩ : UsageRef) ≠ ⟨holder.id, p.slot⟩ :=
        fun e => hslot (UsageRef.mk.inj e).2
      simp only [List.map_append, List.map_cons, List.map_nil, List.mem_append, List.mem_singleton,
        Reference.usage, hslot, hne, if_false, or_false]
  · have hid : d.id ≠ holder.id := fun e => hj (by rw [← e, h.arranged.declaration_index hd])
    simp only [settleDeclaration, List.map_append, List.map_cons, List.map_nil, List.mem_append,
      List.mem_singleton, Reference.usage, UsageRef.mk.injEq, hid, false_and, or_false]

end

theorem document_settled {document : DocumentId} {d : Document}
    (hd : g.documents[document.index]? = some d) (done : List Reference) :
    (g.settled done).document document = .ok (g.settleDocument done d) := by
  rw [Graph.document, getElem?_settled_documents, hd]
  rfl

theorem declaration_settled (h : g.InOrder) {d : Declaration} (hd : d ∈ g.declarations)
    (done : List Reference) :
    (g.settled done).declaration d.id = .ok (g.settleDeclaration done d) := by
  rw [declaration, getElem?_settled_declarations, h.arranged.getElem?_id hd]
  rfl

section

variable (h : g.InOrder) {holder : Declaration} (hholder : holder ∈ g.declarations) {p : Pending}
  {t : Declaration} (ht : g.denotation? holder.owner p.kind p.name = some t)
  (done : List Reference)

include h hholder ht

theorem mem_of_denotation? : t ∈ g.declarations ∧ t.isGlobal p.kind p.name = true :=
  ((h.denotation?_eq_some_iff (h.arranged.owner_lt hholder)).1 ht).mem

/-- What is registered for a reference is the dependency that it is. -/
theorem registerDependency_settled :
    ((g.settled done).registerDependency holder.owner t.owner p.name (.declaration t.id)).map
        (·.1) =
      .ok { g.settled done with
        documents :=
          g.documents.map (g.settleDocument (done ++ [⟨holder.owner, holder.id, p⟩])) } := by
  have htm := (mem_of_denotation? h hholder ht).1
  obtain ⟨owner, howner⟩ := h.arranged.exists_owner hholder
  have hentry : g.dependency? ⟨holder.owner, holder.id, p⟩ =
      if t.owner = holder.owner then none
      else some ⟨p.name, .declaration t.kind, .declaration t.id⟩ := by
    rw [dependency?, target?, ht]
    rfl
  have hspace : (g.settled done).dependencyNamespace (.declaration t.id) =
      .ok (.declaration t.kind) := by
    rw [dependencyNamespace, declaration_settled h htm done, Except.map,
      Declaration.kind_of_outline (g.outline_settleDeclaration done t)]
  have howner' : (g.settled done).documents[holder.owner.index]? =
      some (g.settleDocument done owner) := by
    rw [getElem?_settled_documents, howner, Option.map_some]
  rw [registerDependency_eq howner' hspace]
  refine congrArg Except.ok ?_
  split
  · next ho =>
    rw [if_pos ho] at hentry
    rw [← documents_settled_of_none hentry]
  · next ho =>
    rw [if_neg ho] at hentry
    rw [← modify_documents_settled h.arranged hentry]

end

/-- Linking one usage settles its reference, or fails if the name denotes nothing. -/
theorem runs_linkUsage (h : g.InOrder) {holder : Declaration} (hholder : holder ∈ g.declarations)
    {p : Pending} (hp : p ∈ holder.definition.pending) (done : List Reference) :
    Pass.Runs g.settled List.length g.fault? (linkUsage holder.owner holder.id p) done
      [⟨holder.owner, holder.id, p⟩] := by
  obtain ⟨owner, howner⟩ := h.arranged.exists_owner hholder
  have hlookup := (h.lookup_congr (g.sameOutline_settled done) (g.sameImports_settled done)
    (h.arranged.owner_lt hholder) p.kind p.name).trans
      (h.lookup_eq (h.arranged.owner_lt hholder) p.kind p.name)
  unfold Pass.Runs
  rw [List.findSome?_singleton, fault?, target?]
  cases ht : g.denotation? holder.owner p.kind p.name with
  | none =>
    rw [ht] at hlookup
    simp only [howner, h.arranged.getElem?_id hholder, bind, Option.bind, pure]
    refine ⟨g.settled done, ?_⟩
    rw [linkUsage, Pass.apply_bind_ask hlookup, Option.map_none]
    dsimp only
    rw [Pass.apply_bind_ask (document_settled howner done),
      Pass.apply_bind_ask (declaration_settled h hholder done), Pass.apply_throw]
    rfl
  | some t =>
    rw [ht] at hlookup
    have htm := (mem_of_denotation? h hholder ht).1
    refine ⟨1, ?_, List.length_append⟩
    rw [linkUsage, Pass.apply_bind_ask hlookup, Option.map_some]
    dsimp only
    rw [Pass.apply_bind_ask (declaration_settled h htm done),
      Pass.apply_bind_change (registerDependency_settled h hholder ht done),
      Pass.apply_bind_of_ok (Pass.apply_modify _ _), Pass.apply_pure, modifyUsage]
    refine congrArg (Prod.mk _) ?_
    exact congrArg (fun declarations => { g.settled (done ++ [⟨holder.owner, holder.id, p⟩]) with
      declarations }) (modifyUsage_settled h hholder hp ht done)

/-! ## All references -/

/-- A declaration of which nothing is settled is as it was. -/
theorem settleDeclaration_of_not_mem {done : List Reference} {d : Declaration}
    (hd : ∀ r ∈ done, r.declaration ≠ d.id) : g.settleDeclaration done d = d := by
  have hnone : ∀ slot, (⟨d.id, slot⟩ : UsageRef) ∉ done.map Reference.usage := by
    intro slot hm
    obtain ⟨r, hr, he⟩ := List.mem_map.1 hm
    exact hd r hr (congrArg UsageRef.declaration he)
  simp only [settleDeclaration, hnone, if_false, Definition.mapSlots_self]

theorem runs_linkDeclaration (h : g.InOrder) {holder : Declaration}
    (hholder : holder ∈ g.declarations) {done : List Reference}
    (hd : ∀ r ∈ done, r.declaration ≠ holder.id) :
    Pass.Runs g.settled List.length g.fault? (linkDeclaration holder.owner holder.id) done
      holder.references := by
  have hask := declaration_settled h hholder done
  rw [settleDeclaration_of_not_mem hd] at hask
  have hflat : holder.references =
      holder.definition.pending.flatMap fun p => [⟨holder.owner, holder.id, p⟩] := by
    rw [holder.references_eq, List.map_eq_flatMap]
  rw [hflat]
  refine Pass.Runs.of_apply_eq (Pass.Runs.total holder.definition.pending ?_)
    (Pass.apply_bind_ask hask)
  intro before p after hp
  exact runs_linkUsage h hholder (by simp [hp]) _

theorem mem_references {r : Reference} {d : Declaration} (hr : r ∈ d.references) :
    r.declaration = d.id ∧ r.document = d.owner ∧ r.pending ∈ d.definition.pending := by
  obtain ⟨p, hp, rfl⟩ := Declaration.mem_references_iff.1 hr
  exact ⟨rfl, rfl, hp⟩

theorem runs_linkDocument (h : g.InOrder) {document : DocumentId}
    (hlt : document.index < g.documents.size) {done : List Reference}
    (hd : ∀ r ∈ done, r.document ≠ document ∧ ∃ d ∈ g.declarations, r ∈ d.references) :
    Pass.Runs g.settled List.length g.fault? (linkDocument document) done
      ((g.holdings document).flatMap Declaration.references) := by
  have hdoc := Array.getElem?_eq_getElem hlt
  have hid : g.documents[document.index].id = document :=
    Handle.ext (h.arranged.document_index hdoc)
  have howned := h.arranged.owned_eq (Array.getElem_mem hlt)
  rw [hid] at howned
  refine Pass.Runs.of_apply_eq (q := Pass.total (linkDeclaration document ∘ (·.id))
    (g.holdings document)) (Pass.Runs.total _ ?_) ?_
  · intro before holder after hb
    obtain ⟨hholder, rfl⟩ := (h.arranged.mem_holdings hlt (a := holder)).1 (by simp [hb])
    refine runs_linkDeclaration h hholder fun r hr he => ?_
    rcases List.mem_append.1 hr with hr | hr
    · obtain ⟨hne, d, hd, hr⟩ := hd r hr
      obtain ⟨hdeclaration, howner, _⟩ := mem_references hr
      rw [h.arranged.declaration_eq hd hholder (hdeclaration.symm.trans he)] at howner
      exact hne howner
    · -- a document lists a declaration once
      obtain ⟨d, hd, hr⟩ := List.mem_flatMap.1 hr
      have hmem : d ∈ g.holdings holder.owner := by
        rw [hb]
        exact List.mem_append_left _ hd
      have := h.arranged.declaration_eq ((h.arranged.mem_holdings hlt).1 hmem).1 hholder
        ((mem_references hr).1.symm.trans he)
      have hnodup := h.arranged.nodup_holdings hlt
      rw [hb] at hnodup
      exact (List.nodup_append.1 hnodup).2.2 d hd holder List.mem_cons_self this
  · rw [linkDocument, Pass.apply_bind_ask (document_settled hdoc done)]
    show (Pass.total (linkDeclaration document) g.documents[document.index].owned).apply _ = _
    rw [howned, Pass.total_map]

/-- Linking settles every reference of the family in order, up to the first whose name denotes
    nothing. -/
theorem runs_link (h : g.InOrder) :
    Pass.Runs g.settled List.length g.fault? link [] g.references := by
  refine Pass.Runs.of_apply_eq (q := Pass.total linkDocument (g.documents.toList.map (·.id))) ?_ ?_
  · rw [references, List.flatMap_assoc]
    refine Pass.Runs.total _ fun before document after hb => ?_
    have hlt : ∀ document' ∈ before ++ document :: after, document'.index < g.documents.size := by
      intro document' hm
      rw [← hb] at hm
      exact h.arranged.mem_ids_iff.1 hm
    refine runs_linkDocument h (hlt document (by simp)) fun r hr => ?_
    rw [List.nil_append] at hr
    obtain ⟨document', hm, hr⟩ := List.mem_flatMap.1 hr
    obtain ⟨d, hd, hrd⟩ := List.mem_flatMap.1 hr
    obtain ⟨hmem, rfl⟩ := (h.arranged.mem_holdings (hlt document' (by simp [hm]))).1 hd
    refine ⟨fun he => ?_, d, hmem, hrd⟩
    rw [(mem_references hrd).2.1] at he
    have hnodup := h.arranged.nodup_ids
    rw [hb] at hnodup
    exact (List.nodup_append.1 hnodup).2.2 d.owner hm document List.mem_cons_self he
  · rw [settled_nil, h.arranged.ids_eq]
    rfl

end Graph

end SchemaFamily
