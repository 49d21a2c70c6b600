import SchemaFamily.Family.Compile
import SchemaFamily.Proofs.Draft.WellFormed
import SchemaFamily.Proofs.Family.Eligible
import SchemaFamily.Proofs.Family.Kept
import SchemaFamily.Proofs.Family.Numbering
import SchemaFamily.Proofs.Family.Serving
import SchemaFamily.Proofs.Results

/-
  Sound graphs. A graph is `Sound` when every handle that it holds numbers something, and every
  multiplexer fits what it stands for. Adding a draft that was read keeps a graph sound, since its
  inline targets are definitions of its own (`sound_ofTree`), and so does every step of linking and
  of reconciling, since a handle is only ever recorded after it was looked up
  (`sound_finishFamily`). Nothing is asked about how many handles there are: those past the last
  share it, and it numbers something too.
-/

namespace SchemaFamily

/-! ## Handles within a graph -/

/-- The dependency numbers a declaration or a multiplexer of the graph. -/
def Graph.Holds (g : Graph) : Dependency → Prop
  | .declaration id => id.index < g.declarations.size
  | .multiplexer id => id.index < g.multiplexers.size

/-- The handles of the document number something in the graph. -/
structure Document.Within (g : Graph) (d : Document) : Prop where
  owned : ∀ id ∈ d.owned, id.index < g.declarations.size
  imported : ∀ id ∈ d.imported, id.index < g.documents.size
  dependencies : ∀ e ∈ d.dependencies.entries, g.Holds e.dependency
  multiplexers : ∀ id ∈ d.multiplexers, id.index < g.multiplexers.size

/-- The owner of the declaration and what its usages are known to stand for are in the graph. -/
structure Declaration.Within (g : Graph) (t : Declaration) : Prop where
  owner : t.owner.index < g.documents.size
  used : ∀ su ∈ t.definition.usages, ∀ id, su.2.declaration? = some id →
    id.index < g.declarations.size

/-- The owner of the multiplexer is in the graph, and so is what it stands for and fits. -/
structure Multiplexer.Within (g : Graph) (m : Multiplexer) : Prop where
  owner : m.owner.index < g.documents.size
  wrapped : ∃ t, g.declarations[m.wrapped.index]? = some t ∧ m.Fits m.group t

namespace Graph

/-- Every handle numbers something, and every multiplexer fits what it stands for. -/
structure Sound (g : Graph) : Prop where
  documents : ∀ d ∈ g.documents, d.Within g
  declarations : ∀ t ∈ g.declarations, t.Within g
  multiplexers : ∀ m ∈ g.multiplexers, m.Within g

/-- Nothing that a handle numbers is lost, and declarations keep their kind and their key. -/
structure Grows (g g' : Graph) : Prop where
  documents : g.documents.size ≤ g'.documents.size
  multiplexers : g.multiplexers.size ≤ g'.multiplexers.size
  declarations : ∀ {i : Nat} {t : Declaration}, g.declarations[i]? = some t →
    ∃ t', g'.declarations[i]? = some t' ∧ t'.kind = t.kind ∧
      t'.definition.jsonKey = t.definition.jsonKey

variable {g g' : Graph}

theorem Grows.index_lt (h : g.Grows g') {i : Nat} (hi : i < g.declarations.size) :
    i < g'.declarations.size := by
  obtain ⟨t', ht', _⟩ := h.declarations (Array.getElem?_eq_getElem hi)
  exact (Array.getElem?_eq_some_iff.1 ht').1

theorem Grows.of_declarations (hdocuments : g.documents.size ≤ g'.documents.size)
    (hmultiplexers : g.multiplexers.size ≤ g'.multiplexers.size)
    (hdeclarations : g'.declarations = g.declarations) : g.Grows g' :=
  ⟨hdocuments, hmultiplexers, fun {_ t} ht => ⟨t, hdeclarations ▸ ht, rfl, rfl⟩⟩

theorem Holds.mono {dependency : Dependency} (h : g.Holds dependency) (hg : g.Grows g') :
    g'.Holds dependency := by
  cases dependency with
  | declaration id => exact hg.index_lt h
  | multiplexer id => exact Nat.lt_of_lt_of_le h hg.multiplexers

end Graph

variable {g g' : Graph}

theorem Document.Within.mono {d : Document} (h : d.Within g) (hg : g.Grows g') : d.Within g' where
  owned id hid := hg.index_lt (h.owned id hid)
  imported id hid := Nat.lt_of_lt_of_le (h.imported id hid) hg.documents
  dependencies e he := (h.dependencies e he).mono hg
  multiplexers id hid := Nat.lt_of_lt_of_le (h.multiplexers id hid) hg.multiplexers

theorem Declaration.Within.mono {t : Declaration} (h : t.Within g) (hg : g.Grows g') :
    t.Within g' where
  owner := Nat.lt_of_lt_of_le h.owner hg.documents
  used su hsu id hid := hg.index_lt (h.used su hsu id hid)

theorem Multiplexer.Fits.congr {m : Multiplexer} {group : GroupAs} {t t' : Declaration}
    (h : m.Fits group t) (hkind : t'.kind = t.kind)
    (hkey : t'.definition.jsonKey = t.definition.jsonKey) : m.Fits group t' where
  kind := h.kind.trans hkind.symm
  byKey hj := by
    rw [hkey]
    exact h.byKey hj
  notByKey := h.notByKey

theorem Multiplexer.Within.mono {m : Multiplexer} (h : m.Within g) (hg : g.Grows g') :
    m.Within g' := by
  obtain ⟨t, ht, hfits⟩ := h.wrapped
  obtain ⟨t', ht', hkind, hkey⟩ := hg.declarations ht
  exact ⟨Nat.lt_of_lt_of_le h.owner hg.documents, t', ht', hfits.congr hkind hkey⟩

namespace Graph

/-- A graph that grows stays sound when what is new in it is within it. -/
theorem Sound.grow (h : g.Sound) (hg : g.Grows g')
    (hdocuments : ∀ d ∈ g'.documents, d ∈ g.documents ∨ d.Within g')
    (hdeclarations : ∀ t ∈ g'.declarations, t ∈ g.declarations ∨ t.Within g')
    (hmultiplexers : ∀ m ∈ g'.multiplexers, m ∈ g.multiplexers ∨ m.Within g') : g'.Sound where
  documents d hd := (hdocuments d hd).elim (fun hd => (h.documents d hd).mono hg) id
  declarations t ht := (hdeclarations t ht).elim (fun ht => (h.declarations t ht).mono hg) id
  multiplexers m hm := (hmultiplexers m hm).elim (fun hm => (h.multiplexers m hm).mono hg) id

theorem mem_modify {α : Type} {xs : Array α} {i : Nat} {f : α → α} {y : α}
    (h : y ∈ xs.modify i f) : y ∈ xs ∨ ∃ x ∈ xs, xs[i]? = some x ∧ y = f x := by
  obtain ⟨k, hk⟩ := Array.getElem?_of_mem h
  rw [Array.getElem?_modify] at hk
  split at hk
  · next hik =>
    obtain ⟨x, hx, rfl⟩ := Option.map_eq_some_iff.1 hk
    exact .inr ⟨x, Array.mem_of_getElem? hx, hik ▸ hx, rfl⟩
  · exact .inl (Array.mem_of_getElem? hk)

/-- Changing one document keeps a graph sound when its handles stay within the graph. -/
theorem Sound.modify (h : g.Sound) {i : Nat} {f : Document → Document}
    (hf : ∀ d, g.documents[i]? = some d → d.Within g → (f d).Within g) :
    Sound { g with documents := g.documents.modify i f } := by
  have hg : g.Grows { g with documents := g.documents.modify i f } :=
    .of_declarations (Nat.le_of_eq Array.size_modify.symm) (Nat.le_refl _) rfl
  refine h.grow hg (fun d hd => ?_) (fun _ => .inl) (fun _ => .inl)
  rcases mem_modify hd with hd | ⟨d', hd', hat, rfl⟩
  · exact .inl hd
  · exact .inr ((hf d' hat (h.documents d' hd')).mono hg)

/-! ## Families as they are read -/

theorem sound_empty : Sound {} := by
  refine ⟨?_, ?_, ?_⟩ <;> intro _ h <;> simp at h

theorem Sound.attach (h : g.Sound) (parent : DocumentId) {child : DocumentId}
    (hchild : child.index < g.documents.size) : (g.attach parent child).Sound := by
  refine h.modify fun d _ hd => { hd with imported := fun id hid => ?_ }
  rcases List.mem_append.1 hid with hid | hid
  · exact hd.imported id hid
  · rw [List.mem_singleton.1 hid]
    exact hchild

theorem getElem?_insert_of_some {draft : Draft} {i : Nat} {t : Declaration}
    (ht : g.declarations[i]? = some t) : (g.insert draft).1.declarations[i]? = some t := by
  rw [declarations_insert, Array.getElem?_append_left (Array.getElem?_eq_some_iff.1 ht).1, ht]

theorem within_documentOf (g : Graph) (draft : Draft) :
    (g.documentOf draft).Within (g.insert draft).1 := by
  obtain ⟨_, _, _, _, _, hnew⟩ := g.exists_documentOf draft
  refine ⟨fun id hid => ?_, ?_, ?_, ?_⟩
  · have howned : id ∈ [] ++ (placed (.ofIndex g.documents.size) g.declarations.size
        draft.definitions).map (·.id) := (Document.owned_foldl_adopt _ _).mem_iff.1 hid
    obtain ⟨t, ht, rfl⟩ := List.mem_map.1 howned
    obtain ⟨i, hi⟩ := List.getElem?_of_mem ht
    rw [getElem?_placed] at hi
    obtain ⟨drafted, hdrafted, rfl⟩ := Option.map_eq_some_iff.1 hi
    have hlt := (List.getElem?_eq_some_iff.1 hdrafted).1
    rw [size_declarations_insert]
    exact Nat.lt_of_le_of_lt (Nat.min_le_left _ _) (Nat.add_lt_add_left hlt _)
  · rw [hnew]
    intro id hid
    cases hid
  · rw [hnew]
    intro e he
    cases he
  · rw [hnew]
    intro id hid
    cases hid

theorem declaration?_rebase {u : Usage} (hu : u.Fresh) (count : Nat) :
    (u.rebase count).declaration? = u.inlined?.map fun x => x.2.offset count := by
  rcases u with ⟨kind, ⟨name, _ | declaration⟩ | declaration⟩
  · rfl
  · exact absurd rfl (hu name declaration)
  · rfl

theorem within_placed (g : Graph) {draft : Draft} (hdraft : draft.WellFormed) {t : Declaration}
    (ht : t ∈ placed (.ofIndex g.documents.size) g.declarations.size draft.definitions) :
    t.Within (g.insert draft).1 := by
  refine ⟨?_, fun su hsu id hid => ?_⟩
  · rw [owner_of_mem_placed ht, size_documents_insert]
    exact Nat.lt_succ_of_le (Nat.min_le_left _ _)
  · obtain ⟨i, hi⟩ := List.getElem?_of_mem ht
    rw [getElem?_placed] at hi
    obtain ⟨drafted, hdrafted, rfl⟩ := Option.map_eq_some_iff.1 hi
    rw [Definition.rebase, Definition.mapUsages_eq_mapSlots, Definition.usages_mapSlots] at hsu
    obtain ⟨⟨slot, u⟩, hu, rfl⟩ := List.mem_map.1 hsu
    have hfresh := hdraft.fresh drafted (List.mem_of_getElem? hdrafted) _ hu
    rw [declaration?_rebase hfresh] at hid
    obtain ⟨⟨kind, target⟩, hx, rfl⟩ := Option.map_eq_some_iff.1 hid
    obtain ⟨j, _, hj, rfl, _⟩ :=
      hdraft.target (Draft.inlineAt?_eq_some_iff.2 ⟨drafted, u, hdrafted, hu, hx⟩)
    have hlt := (List.getElem?_eq_some_iff.1 hdrafted).1
    have hle : (Handle.ofIndex j : DeclarationId).index ≤ j := Nat.min_le_left _ _
    rw [size_declarations_insert]
    refine Nat.lt_of_le_of_lt (Nat.min_le_left _ _) ?_
    show (Handle.ofIndex j : DeclarationId).index + g.declarations.size < _
    omega

/-- Adding a draft keeps a graph sound when its inline targets are definitions of its own and no
    name in it is resolved. -/
theorem Sound.insert (h : g.Sound) {draft : Draft} (hdraft : draft.WellFormed) :
    (g.insert draft).1.Sound := by
  have hg : g.Grows (g.insert draft).1 := by
    refine ⟨?_, Nat.le_refl _, fun ht => ⟨_, getElem?_insert_of_some ht, rfl, rfl⟩⟩
    rw [size_documents_insert]
    exact Nat.le_succ _
  refine h.grow hg (fun d hd => ?_) (fun t ht => ?_) (fun _ => .inl)
  · rw [documents_insert, Array.mem_push] at hd
    refine hd.imp id ?_
    rintro rfl
    exact within_documentOf g draft
  · rw [declarations_insert, Array.mem_append] at ht
    exact ht.imp id fun ht => within_placed g hdraft (List.mem_toArray.1 ht)

/-- A family of drafts that were read is sound. -/
theorem sound_ofTree {tree : ImportTree} (h : ∀ draft ∈ tree.drafts, draft.WellFormed) :
    (ofTree tree).Sound := by
  refine ofTree_induction (P := fun drafts g => (∀ draft ∈ drafts, draft.WellFormed) → g.Sound)
    ⟨fun _ => sound_empty, ?_, ?_⟩ tree h
  · intro drafts g draft ih hall
    rw [List.forall_mem_append] at hall
    exact (ih hall.1).insert (hall.2 draft List.mem_cons_self)
  · intro _ g parent child hchild ih hall
    exact (ih hall).attach parent hchild

/-! ## Looking up -/

theorem exists_document_of_lt {id : DocumentId} (h : id.index < g.documents.size) :
    ∃ d, g.document id = .ok d :=
  ⟨_, document_of_getElem? (Array.getElem?_eq_getElem h)⟩

theorem exists_declaration_of_lt {id : DeclarationId} (h : id.index < g.declarations.size) :
    ∃ t, g.declaration id = .ok t ∧ t ∈ g.declarations := by
  refine ⟨g.declarations[id.index], ?_, Array.getElem_mem h⟩
  rw [declaration, Array.getElem?_eq_getElem h]

theorem exists_multiplexer_of_lt {id : MultiplexerId} (h : id.index < g.multiplexers.size) :
    ∃ m, g.multiplexer id = .ok m ∧ m ∈ g.multiplexers := by
  refine ⟨g.multiplexers[id.index], ?_, Array.getElem_mem h⟩
  rw [multiplexer, Array.getElem?_eq_getElem h]

/-- What is demanded is within the graph. -/
theorem within_of_demanded {suffix : String} {e : Eligible} {m : Multiplexer}
    (h : g.demanded suffix e = .ok m) : m.Within g := by
  have hm := madeFor_of_demanded h
  obtain ⟨t, ht, _, _, hfits⟩ := hm.target
  refine ⟨?_, t, ht, hm.group ▸ hfits⟩
  rw [hm.owner]
  unfold demanded at h
  split at h
  · cases h
  · next owner howner => exact (Array.getElem?_eq_some_iff.1 (getElem?_of_document howner)).1

/-! ## What the steps keep -/

theorem index_lt_of_declaration {id : DeclarationId} {t : Declaration}
    (h : g.declaration id = .ok t) : id.index < g.declarations.size :=
  (Array.getElem?_eq_some_iff.1 (getElem?_of_declaration h)).1

theorem getElem?_of_multiplexer {id : MultiplexerId} {m : Multiplexer}
    (h : g.multiplexer id = .ok m) : g.multiplexers[id.index]? = some m := by
  unfold Graph.multiplexer at h
  split at h
  · next hm =>
    cases h
    exact hm
  · cases h

theorem index_lt_of_multiplexer {id : MultiplexerId} {m : Multiplexer}
    (h : g.multiplexer id = .ok m) : id.index < g.multiplexers.size :=
  (Array.getElem?_eq_some_iff.1 (getElem?_of_multiplexer h)).1

theorem Sound.registerDependency (h : g.Sound) {document owner : DocumentId} {name : String}
    {dependency : Dependency} (hdependency : g.Holds dependency)
    (hr : (g.registerDependency document owner name dependency).map (·.1) = .ok g') : g'.Sound := by
  rcases eq_of_registerDependency hr with rfl | ⟨nameSpace, _, rfl⟩
  · exact h
  · refine h.modify fun d _ hd => { hd with dependencies := fun e he => ?_ }
    unfold Dependencies.register at he
    split at he
    · exact hd.dependencies e he
    · rcases DependencyEntry.mem_insertInto.1 he with rfl | he
      · exact hdependency
      · exact hd.dependencies e he

theorem declaration?_resolve_cases {u : Usage} {target id : DeclarationId}
    (h : (u.resolve target).declaration? = some id) : id = target ∨ u.declaration? = some id := by
  cases hp : u.pendingName? with
  | none =>
    rw [Usage.resolve_of_not_pending hp] at h
    exact .inr h
  | some name =>
    rw [Usage.declaration?_resolve hp] at h
    exact .inl (Option.some.inj h).symm

theorem Sound.modifyUsage (h : g.Sound) (ref : UsageRef) {target : DeclarationId}
    (htarget : target.index < g.declarations.size) :
    (g.modifyUsage ref (·.resolve target)).Sound := by
  have hg : g.Grows (g.modifyUsage ref (·.resolve target)) := by
    refine ⟨Nat.le_refl _, Nat.le_refl _, fun {i t} ht => ?_⟩
    rw [Graph.modifyUsage, Array.getElem?_modify, ht]
    split
    · exact ⟨_, rfl, Definition.kind_modifyUsage _ _ _, Definition.jsonKey_modifyUsage _ _ _⟩
    · exact ⟨_, rfl, rfl, rfl⟩
  refine h.grow hg (fun _ => .inl) (fun t' ht' => ?_) (fun _ => .inl)
  dsimp only [Graph.modifyUsage] at ht'
  rcases mem_modify ht' with ht' | ⟨t, ht, _, rfl⟩
  · exact .inl ht'
  · refine .inr ⟨(h.declarations t ht).owner, fun su hsu id hid => hg.index_lt ?_⟩
    rw [Definition.modifyUsage_eq_mapSlots, Definition.usages_mapSlots] at hsu
    obtain ⟨⟨slot, u⟩, hu, rfl⟩ := List.mem_map.1 hsu
    dsimp only at hid
    split at hid
    · rcases declaration?_resolve_cases hid with rfl | hid
      · exact htarget
      · exact (h.declarations t ht).used _ hu id hid
    · exact (h.declarations t ht).used _ hu id hid

theorem Sound.bindUsage (h : g.Sound) (ref : UsageRef) (id : MultiplexerId) :
    (g.bindUsage ref id).Sound := by
  unfold Graph.bindUsage
  split
  · exact h
  · exact h.grow (.of_declarations (Nat.le_refl _) (Nat.le_refl _) rfl) (fun _ => .inl)
      (fun _ => .inl) (fun _ => .inl)

theorem Sound.addMultiplexer (h : g.Sound) {m : Multiplexer} (hm : m.Within g) :
    (g.addMultiplexer fun id => { m with id }).1.Sound := by
  rw [addMultiplexer_eq g m (Array.getElem?_eq_getElem hm.owner)]
  -- the multiplexer is in the arena before its owner lists it
  have hg : g.Grows { g with
      multiplexers := g.multiplexers.push { m with id := .ofIndex g.multiplexers.size }
      multiplexerNames := (m.name, .ofIndex g.multiplexers.size) :: g.multiplexerNames
      multiplexerUsages := (m.usage, .ofIndex g.multiplexers.size) :: g.multiplexerUsages } := by
    refine .of_declarations (Nat.le_refl _) ?_ rfl
    rw [Array.size_push]
    exact Nat.le_succ _
  refine (h.grow hg (fun _ => .inl) (fun _ => .inl) fun m' hm' => ?_).modify
    fun d _ hd => { hd with multiplexers := fun id hid => ?_ }
  · obtain ⟨t, ht, hfits⟩ := hm.wrapped
    rcases Array.mem_push.1 hm' with hm' | rfl
    · exact .inl hm'
    · exact .inr ⟨hm.owner, t, ht, hfits.kind, hfits.byKey, hfits.notByKey⟩
  · rcases List.mem_append.1 hid with hid | hid
    · exact hd.multiplexers id hid
    · rw [List.mem_singleton.1 hid, Array.size_push]
      exact Nat.lt_succ_of_le (Nat.min_le_left _ _)

/-- Sorting lists no multiplexer that was not listed. -/
theorem Sound.sortMultiplexers (h : g.Sound) {id : DocumentId}
    (hs : g.sortMultiplexers id = .ok g') : g'.Sound := by
  obtain ⟨d, sorted, hd, hperm, rfl⟩ := eq_of_sortMultiplexers hs
  refine h.modify fun d' hd' hwithin =>
    { hwithin with multiplexers := fun id' hid' => ?_ }
  obtain rfl : d = d' := Option.some.inj (hd.symm.trans hd')
  exact hwithin.multiplexers id' (hperm.mem_iff.1 hid')

end Graph

/-! ## Passes over sound graphs -/

open Pass

theorem sound_linkUsage (document : DocumentId) (declaration : DeclarationId) (p : Pending) :
    Brings Graph.Sound (linkUsage document declaration p) fun _ => Graph.Sound := by
  unfold linkUsage
  refine .bind (.ask _) fun found => ?_
  cases found with
  | none => exact .bind (.ask _) fun owner => .bind (.ask _) fun holder => .throw _
  | some target =>
    refine .bind (.ask _) fun found => ?_
    refine .bind (Q := fun _ g => g.Sound ∧ target.index < g.declarations.size)
      (.change fun g g' hg hchange => ?_) fun _ => ?_
    · obtain ⟨⟨hsound, _⟩, hfound⟩ := hg
      have hholds : g.Holds (.declaration target) := Graph.index_lt_of_declaration hfound
      refine ⟨hsound.registerDependency hholds hchange, ?_⟩
      rw [← (Graph.sameCore_registerDependency hchange).sameOutline.size_declarations]
      exact hholds
    · refine .bind (Q := fun _ => Graph.Sound) (.modify fun g hg => ?_) fun _ =>
        .pure fun _ hg => hg
      exact hg.1.modifyUsage _ hg.2

theorem sound_link : Brings Graph.Sound link fun _ => Graph.Sound := by
  refine .bind .get fun _ => .weaken (.total (fun document => ?_) _) fun _ => And.left
  refine .bind (.ask _) fun owner => .weaken (.total (fun declaration => ?_) _) fun _ => And.left
  refine .bind (.ask _) fun holder => .weaken (.total (fun p => ?_) _) fun _ => And.left
  exact sound_linkUsage document declaration p

theorem sound_meetDemand (m : Multiplexer) :
    Brings (fun g => g.Sound ∧ m.Within g) (meetDemand m) fun _ => Graph.Sound := by
  unfold meetDemand
  refine .bind .get fun g₀ => ?_
  split
  · next existing _ =>
    refine .bind (.ask _) fun s => ?_
    refine .bind (Q := fun _ => Graph.Sound) (.change fun g g' hg hchange => ?_) fun _ => ?_
    · obtain ⟨⟨⟨hsound, _⟩, _⟩, hexisting⟩ := hg
      have hholds : g.Holds (.multiplexer existing) := Graph.index_lt_of_multiplexer hexisting
      exact hsound.registerDependency hholds hchange
    · refine .bind (Q := fun _ => Graph.Sound) (.modify fun g hg => ?_) fun _ =>
        .pure fun _ hg => hg
      exact hg.bindUsage _ _
  · rintro g ⟨⟨hg, hwithin⟩, _⟩ a g' happly
    have hadded := hg.addMultiplexer hwithin
    rw [apply_bind_of_ok (apply_get g)] at happly
    rcases hadd : g.addMultiplexer fun id => { m with id } with ⟨g₁, handle | id⟩
    · rw [hadd] at happly
      cases happly
    · rw [hadd] at happly hadded
      cases happly
      exact hadded

theorem sound_reconcileUsage (suffix : String) (e : Eligible) :
    Brings Graph.Sound (reconcileUsage suffix e.document e.candidate) fun _ => Graph.Sound := by
  intro g hg a g' happly
  rw [Graph.apply_reconcileUsage] at happly
  cases hd : g.demanded suffix e with
  | error failure =>
    rw [hd] at happly
    cases happly
  | ok m =>
    rw [hd] at happly
    exact sound_meetDemand m g ⟨hg, Graph.within_of_demanded hd⟩ a g' happly

/-- Reconciling keeps a family sound. -/
theorem sound_reconcile (suffix : String) :
    Brings Graph.Sound (reconcile suffix) fun _ => Graph.Sound := by
  refine .bind .get fun g => ?_
  split
  · exact .pure fun _ hg => hg.1
  · refine .bind (.ask _) fun documents => .weaken (.total (fun document => ?_) _)
      fun _ hg => hg.1.1
    refine .bind (.ask _) fun candidates => ?_
    refine .bind (Q := fun _ => Graph.Sound) ?_ fun made => ?_
    · exact .weaken (.total (fun c => sound_reconcileUsage suffix ⟨document, c⟩) candidates)
        fun _ => And.left
    · refine .bind (Q := fun _ => Graph.Sound) (.change fun g g' hg hs => ?_) fun _ =>
        .pure fun _ hg => hg
      exact hg.sortMultiplexers hs

/-- Linking and reconciling keep a family sound. -/
theorem sound_finishFamily (suffix : String) :
    Brings Graph.Sound (finishFamily suffix) fun _ => Graph.Sound :=
  .bind sound_link fun _ => sound_reconcile suffix

end SchemaFamily
