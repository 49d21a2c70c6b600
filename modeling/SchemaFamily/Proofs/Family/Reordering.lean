import SchemaFamily.Proofs.Family.Linking
import SchemaFamily.Proofs.Family.Sharing

/-
  Linking documents in any order. What settled references make of a family does not depend on the
  order of the documents that they are in (`settled_referencesOf`), and of a document that is
  linked nothing is to be resolved (`pending_settleDeclaration`), so linking it once more does
  nothing (`idle_linkDocument`). So calls for single documents settle the references of each when
  it comes first (`runs_linkDocuments`), and once every document came they have made of the family
  what linking all in order makes of it (`calls_of_link`).
-/

namespace SchemaFamily

namespace Graph

variable {g : Graph} {document : DocumentId}

/-! ## The order of documents -/

theorem references_perm {documents : List DocumentId}
    (hperm : documents.Perm (g.documents.toList.map (·.id))) :
    (g.referencesOf documents).Perm g.references :=
  (hperm.flatMap_right g.holdings).flatMap_right Declaration.references

/-- All references settle alike, in whatever order the documents come. -/
theorem settled_referencesOf (h : g.Arranged) {documents : List DocumentId}
    (hperm : documents.Perm (g.documents.toList.map (·.id))) :
    g.settled (g.referencesOf documents) = g.settled g.references := by
  have hfilter : ∀ d ∈ g.documents, (g.referencesOf documents).filter (·.document == d.id) =
      g.references.filter (·.document == d.id) := by
    intro d hd
    have hlt := h.id_lt hd
    have hall : g.references = g.referencesOf (g.documents.toList.map (·.id)) := rfl
    rw [hall, filter_referencesOf h (fun _ => h.mem_ids_iff.1) h.nodup_ids (h.mem_ids_iff.2 hlt),
      filter_referencesOf h (fun _ hm => h.mem_ids_iff.1 (hperm.mem_iff.1 hm))
        (hperm.nodup_iff.2 h.nodup_ids) (hperm.mem_iff.2 (h.mem_ids_iff.2 hlt))]
  have hdocuments : g.documents.map (g.settleDocument (g.referencesOf documents)) =
      g.documents.map (g.settleDocument g.references) :=
    Array.map_congr_left fun d hd => by rw [settleDocument, settleDocument, hfilter d hd]
  have hdeclarations : g.settleDeclaration (g.referencesOf documents) =
      g.settleDeclaration g.references := by
    funext d
    simp only [settleDeclaration, List.mem_map, (references_perm hperm).mem_iff]
  rw [settled, settled, hdocuments, hdeclarations]

/-! ## Nothing to resolve -/

/-- Where no usage of a document is to be resolved, linking it does nothing. -/
theorem idle_linkDocument (h : g.Arranged) (hlt : document.index < g.documents.size)
    (hnone : ∀ d ∈ g.declarations, d.owner = document → d.definition.pending = []) :
    Pass.Idle g (linkDocument document) := by
  have hdoc := Array.getElem?_eq_getElem hlt
  have hid : g.documents[document.index].id = document := Handle.ext (h.document_index hdoc)
  have howned := h.owned_eq (Array.getElem_mem hlt)
  rw [hid] at howned
  rw [Pass.Idle, linkDocument, Pass.apply_bind_ask (document_of_getElem? hdoc), howned]
  refine Pass.Idle.total fun declaration hm => ?_
  obtain ⟨d, hd, rfl⟩ := List.mem_map.1 hm
  obtain ⟨hmem, howner⟩ := (h.mem_holdings hlt).1 hd
  have hask : g.declaration d.id = .ok d := by rw [Graph.declaration, h.getElem?_id hmem]
  rw [Pass.Idle, linkDeclaration, Pass.apply_bind_ask hask, hnone d hmem howner]
  rfl

/-- Where no usage is to be resolved, linking does nothing. -/
theorem idle_link (h : g.Arranged) (hnone : ∀ d ∈ g.declarations, d.definition.pending = []) :
    Pass.Idle g link := by
  rw [Pass.Idle, link, Pass.apply_bind_of_ok (Pass.apply_get g), ← h.ids_eq]
  refine Pass.Idle.total fun document hm => ?_
  exact idle_linkDocument h (h.mem_ids_iff.1 hm) fun d hd _ => hnone d hd

/-- Of a declaration whose references are settled nothing is to be resolved. -/
theorem pending_settleDeclaration {done : List Reference} {d : Declaration} (h : g.InOrder)
    (hd : d ∈ g.declarations) (hok : ∀ r ∈ d.references, g.fault? r = none)
    (hdone : ∀ r ∈ d.references, r ∈ done) :
    (g.settleDeclaration done d).definition.pending = [] := by
  rw [List.eq_nil_iff_forall_not_mem]
  intro p hp
  obtain ⟨u, hu, _, hname, _⟩ := mem_pending.1 hp
  rw [settleDeclaration, Definition.usages_mapSlots] at hu
  obtain ⟨⟨slot, v⟩, hv, hsame⟩ := List.mem_map.1 hu
  obtain ⟨rfl, rfl⟩ := Prod.mk.inj hsame
  cases hpending : v.pendingName? with
  | none =>
    -- what was not to be resolved stays as it is
    have hstays : g.settleUsage d.owner v = v := by
      rw [settleUsage, hpending]
      rfl
    rw [hstays, ite_self, hpending] at hname
    cases hname
  | some name =>
    have hold : (⟨p.slot, v.kind, name, v.position⟩ : Pending) ∈ d.definition.pending :=
      mem_pending.2 ⟨v, hv, rfl, hpending, rfl⟩
    have hr : (⟨d.owner, d.id, ⟨p.slot, v.kind, name, v.position⟩⟩ : Reference) ∈ d.references :=
      Declaration.mem_references_iff.2 ⟨_, hold, rfl⟩
    obtain ⟨t, ht⟩ := exists_target h hd hr (hok _ hr)
    have hmem : (⟨d.id, p.slot⟩ : UsageRef) ∈ done.map Reference.usage :=
      List.mem_map.2 ⟨_, hdone _ hr, rfl⟩
    rw [if_pos hmem, settleUsage_of_pending hpending ht, Usage.pendingName?_resolve] at hname
    cases hname

/-! ## Documents one by one -/

section

variable (h : g.InOrder) (hok : ∀ r ∈ g.references, g.fault? r = none)

include h hok

/-- Where references of a document are settled with all others of it, linking it does nothing. -/
theorem idle_linkDocument_settled {documents : List DocumentId}
    (hlt : ∀ document ∈ documents, document.index < g.documents.size)
    (hmem : document ∈ documents) :
    Pass.Idle (g.settled (g.referencesOf documents)) (linkDocument document) := by
  have ho := g.sameOutline_settled (g.referencesOf documents)
  refine idle_linkDocument (h.arranged.congr ho) (ho.size_documents ▸ hlt document hmem) ?_
  intro d' hd' howner
  obtain ⟨d, hd, rfl⟩ := Array.mem_map.1 hd'
  refine pending_settleDeclaration h hd (fun r hr => ?_) fun r hr => ?_
  · exact hok r ((mem_references_iff h).2 ⟨d, hd, hr⟩)
  · rw [← howner] at hmem
    exact (mem_referencesOf h.arranged hlt).2 ⟨d, hd, hmem, hr⟩

/-- Linking documents one by one settles the references of each when it comes first. -/
theorem runs_linkDocuments {documents : List DocumentId}
    (hlt : ∀ document ∈ documents, document.index < g.documents.size) :
    Pass.Runs (fun done => g.settled (g.referencesOf (firstBy id done)))
      (fun done => (g.referencesOf (firstBy id done)).length) (fun _ => none)
      (Pass.total linkDocument documents) [] documents := by
  refine Pass.Runs.total_items documents fun before document after hsplit => ?_
  rw [hsplit, List.forall_mem_append, List.forall_mem_cons] at hlt
  have hbefore : ∀ other ∈ firstBy id before, other.index < g.documents.size :=
    fun other hm => hlt.1 other (mem_of_mem_firstBy hm)
  have hmem : document ∈ firstBy id before ↔ document ∈ before := by
    rw [← List.map_id (firstBy id before), key_mem_firstBy, List.map_id]
  unfold Pass.Runs
  dsimp only
  rw [List.nil_append, List.findSome?_singleton, firstBy_append_singleton, List.map_id, id]
  dsimp only
  split
  · next hold =>
    exact ⟨0, idle_linkDocument_settled h hok hbefore (hmem.2 hold), Nat.add_zero _⟩
  · next hnew =>
    have hruns : Pass.Runs g.settled List.length g.fault? (linkDocument document)
        (g.referencesOf (firstBy id before)) (g.referencesOf [document]) := by
      rw [referencesOf_singleton]
      refine runs_linkDocument h hlt.2.1 fun r hr => ⟨fun he => hnew ?_, ?_⟩
      · exact hmem.1 (he ▸ document_of_mem_referencesOf h.arranged hbefore hr)
      · obtain ⟨d, hd, _, hrd⟩ := (mem_referencesOf h.arranged hbefore).1 hr
        exact ⟨d, hd, hrd⟩
    rw [referencesOf_append]
    refine hruns.exists_ok fun r hr => hok r ?_
    obtain ⟨d, hd, _, hrd⟩ := (mem_referencesOf h.arranged (by simpa using hlt.2.1)).1 hr
    exact (mem_references_iff h).2 ⟨d, hd, hrd⟩

end

end Graph

/-! ## A family -/

/-- When `link` succeeds on a family, its documents can as well be linked one by one, in any order
    and any of them again: every call ends with a result, the results add up to that of `link`, and
    the family is in the end the one that `link` makes of it. -/
theorem calls_of_link {tree : ImportTree} {n : Nat} {g : Graph}
    (ha : (Graph.ofTree tree).Addressable) (hl : link.apply (Graph.ofTree tree) = (.ok n, g))
    {documents : List DocumentId}
    (hall : ∀ document, document ∈ documents ↔
      ∃ d ∈ (Graph.ofTree tree).documents, d.id = document) :
    ∃ ns, Pass.Calls linkDocument (Graph.ofTree tree) documents ns g ∧ ns.sum = n := by
  have h := Graph.inOrder_ofTree ha
  obtain ⟨hok, rfl, hn⟩ := settled_of_link ha hl
  have hmem : ∀ document, document ∈ documents ↔
      document ∈ (Graph.ofTree tree).documents.toList.map (·.id) := by
    intro document
    rw [hall, List.mem_map]
    simp only [Array.mem_toList_iff]
  have hperm : (firstBy id documents).Perm ((Graph.ofTree tree).documents.toList.map (·.id)) := by
    refine (List.perm_ext_iff_of_nodup ?_ h.arranged.nodup_ids).2 fun document => ?_
    · exact List.nodup_iff_pairwise_ne.2 (pairwise_firstBy documents)
    · rw [← List.map_id (firstBy id documents), key_mem_firstBy, List.map_id, hmem]
  obtain ⟨m, happly, hcount⟩ := (Graph.runs_linkDocuments h hok fun document hm =>
    h.arranged.mem_ids_iff.1 ((hmem document).1 hm)).exists_ok fun _ _ => rfl
  have hstart : (Graph.ofTree tree).settled ((Graph.ofTree tree).referencesOf []) =
      Graph.ofTree tree := Graph.settled_nil _
  have hend := Graph.settled_referencesOf h.arranged hperm
  have hlength := (Graph.references_perm hperm).length_eq
  simp only [List.nil_append, firstBy, hstart, hend, hlength, hn] at happly hcount
  obtain ⟨ns, hcalls, hsum⟩ := Pass.calls_of_total happly
  refine ⟨ns, hcalls, ?_⟩
  rw [hsum, hcount]
  exact (Nat.zero_add m).symm

/-- The file that is imported may come first, and come again. -/
theorem calls_importedFlag :
    ∃ tree c' n g ns, (resolve importedFlag [] ⟨"a"⟩ ⟨""⟩).run.run {} = (.ok tree, c') ∧
      link.apply (Graph.ofTree tree) = (.ok n, g) ∧
      Pass.Calls linkDocument (Graph.ofTree tree) [.ofIndex 1, .ofIndex 0, .ofIndex 1] ns g ∧
      ns.sum = n ∧ n = 1 := by
  have hkey : succeeds (fun tree _ => decide (Graph.ofTree tree).Addressable &&
        (Graph.ofTree tree).documents.toList.map (·.id) == [.ofIndex 0, .ofIndex 1] &&
        succeeds (fun n _ => n == 1) (link.apply (Graph.ofTree tree)))
      ((resolve importedFlag [] ⟨"a"⟩ ⟨""⟩).run.run {}) = true := by
    decide +kernel
  obtain ⟨tree, c', hr, hcheck⟩ := exists_of_succeeds hkey
  rw [Bool.and_eq_true, Bool.and_eq_true, beq_iff_eq] at hcheck
  obtain ⟨⟨ha, hids⟩, hlink⟩ := hcheck
  obtain ⟨n, g, hl, hn⟩ := exists_of_succeeds hlink
  have hall : ∀ document : DocumentId,
      document ∈ ([.ofIndex 1, .ofIndex 0, .ofIndex 1] : List DocumentId) ↔
        ∃ d ∈ (Graph.ofTree tree).documents, d.id = document := by
    intro document
    have hmem := List.mem_map (f := Document.id) (b := document)
      (l := (Graph.ofTree tree).documents.toList)
    rw [hids] at hmem
    simp only [Array.mem_toList_iff] at hmem
    rw [← hmem]
    grind
  obtain ⟨ns, hcalls, hsum⟩ := calls_of_link (of_decide_eq_true ha) hl hall
  exact ⟨tree, c', n, g, ns, hr, hl, hcalls, hsum, by simpa using hn⟩

end SchemaFamily
