import SchemaFamily.Proofs.Family.Relinking
import SchemaFamily.Proofs.Family.Walks

/-
  Linking is modular. What a document of a linked family imports is linked as if the document had
  been resolved and linked on its own, up to a shift of all handles (`modular_of_link`): its file is
  resolved to the part of the tree that it is the root of, the family contains the family of this
  part, and settling all references keeps it so. So all copies of a file in a family are linked
  alike, whatever imports them.
-/

namespace SchemaFamily

open Relation

namespace Graph

/-- The documents that `document` reaches, with what they own, are the graph `h` with its handles
    shifted behind the documents and declarations that come before, and every usage by name in them
    stands for one of their declarations. -/
structure IsCopy (g h : Graph) (document : DocumentId) : Prop where
  contains : g.Contains h document.index (g.declarationsBefore document.index)
  reaches_iff : ∀ id, ReflTransGen g.ImportsDocument document id ↔
    document.index ≤ id.index ∧ id.index < document.index + h.documents.size
  owner_iff : ∀ t ∈ g.declarations, ReflTransGen g.ImportsDocument document t.owner ↔
    g.declarationsBefore document.index ≤ t.id.index ∧
      t.id.index < g.declarationsBefore document.index + h.declarations.size
  target_below : ∀ t ∈ g.declarations, ReflTransGen g.ImportsDocument document t.owner →
    ∀ slot u name, t.definition.usage? slot = some u → u.referenceName? = some name →
      ∃ t' ∈ g.declarations, u.declaration? = some t'.id ∧
        ReflTransGen g.ImportsDocument document t'.owner

theorem declarationsBefore_settled (g : Graph) (done : List Reference) (i : Nat) :
    (g.settled done).declarationsBefore i = g.declarationsBefore i := by
  rw [declarationsBefore, declarationsBefore, settled, Array.toList_map, List.countP_map]
  rfl

/-- What a name denotes is owned by a document that the using one reaches. -/
theorem Denotes.reaches_owner {g : Graph} {document : DocumentId} {kind : Kind} {name : String}
    {t : Declaration} (h : g.Denotes document kind name t) :
    ReflTransGen g.ImportsDocument document t.owner := by
  obtain ⟨reached, hp, hmem⟩ := h.exists_owner
  obtain ⟨a, ha, hreaches⟩ := hp.exists_reaches hmem
  rwa [List.mem_singleton.1 ha] at hreaches

section

variable {tree part : ImportTree} {walk : List Nat} {i first : Nat}

/-- The part of a family without faults is settled in it as it is settled alone. -/
theorem isCopy_of_stands (hf : ∀ draft ∈ tree.drafts, draft.Fresh)
    (hf' : ∀ draft ∈ part.drafts, draft.Fresh) (ha : (ofTree tree).Addressable)
    (hs : ImportTree.Stands tree walk i first part)
    (hok : ∀ r ∈ (ofTree tree).references, (ofTree tree).fault? r = none) :
    ((ofTree tree).settled (ofTree tree).references).IsCopy
      ((ofTree part).settled (ofTree part).references) (.ofIndex i) := by
  have ha' := addressable_of_stands ha hs
  have h := inOrder_ofTree ha
  have hp := inOrder_ofTree ha'
  have ho := (ofTree tree).sameOutline_settled (ofTree tree).references
  have hi := (ofTree tree).sameImports_settled (ofTree tree).references
  have hsize : ((ofTree part).settled (ofTree part).references).documents.size =
      part.drafts.length := by
    rw [settled, Array.size_map, size_documents_ofTree ha']
  have hcontains := contains_settled h hp (contains_of_stands hf' ha hs)
  have hlt : i < (ofTree tree).documents.size :=
    (Array.getElem?_eq_some_iff.1 (getElem?_document_of_stands ha hs)).1
  have hindex : (Handle.ofIndex i : DocumentId).index = i :=
    Handle.index_ofIndex_of_le (by have := ha.1; omega)
  have hfirst : ((ofTree tree).settled (ofTree tree).references).declarationsBefore i = first :=
    (declarationsBefore_settled _ _ i).trans (declarationsBefore_of_stands ha hs)
  have hreaches : ∀ id, ReflTransGen
      ((ofTree tree).settled (ofTree tree).references).ImportsDocument (.ofIndex i) id ↔
        i ≤ id.index ∧ id.index < i + part.drafts.length := by
    intro id
    have hspans := spans_shift hcontains (h.congr ho hi).arranged
      (hp.congr ((ofTree part).sameOutline_settled _) ((ofTree part).sameImports_settled _)).spans
    rw [List.map_singleton, Handle.offset_ofIndex, Nat.zero_add, hsize, Nat.add_comm] at hspans
    exact hspans.reaches_one_iff
  refine ⟨?_, fun id => ?_, fun t' ht' => ?_, fun t' ht' hreach slot u name hu hname => ?_⟩
  · rwa [hindex, hfirst]
  · rw [hindex, hsize]
    exact hreaches id
  · obtain ⟨t, ht, rfl⟩ := Array.mem_map.1 ht'
    rw [hreaches, hindex, hfirst, settled, Array.size_map, (numbers_ofTree part).size_declarations]
    have howner := owner_of_stands ha hs (h.arranged.getElem?_id ht)
    exact howner
  · obtain ⟨t, ht, rfl⟩ := Array.mem_map.1 ht'
    obtain ⟨_, htarget⟩ := target_of_settled h (fresh_ofTree hf) hok ht hu
    obtain ⟨found, hfound, hdenotes⟩ := htarget name hname
    obtain ⟨found', hdenotes', houtline⟩ := hdenotes.congr ho hi
    refine ⟨found', hdenotes'.mem.1, ?_, hreach.trans hdenotes'.reaches_owner⟩
    rw [hfound, Declaration.id_of_outline houtline]

end

end Graph

/-! ## Linking a family -/

section

variable {disk : Disk} {entities : Xml.EntityMap} {p base : Path} {c c' c₁ : Cache}
  {tree : ImportTree} {n : Nat} {g : Graph}

/-- A document of a linked family can be resolved and linked on its own, and its part of the family
    is a copy of the result. -/
theorem exists_copy_of_link (hc : c.Faithful disk entities) (hc₁ : c₁.Faithful disk entities)
    (hr : (resolve disk entities p base).run.run c = (.ok tree, c'))
    (ha : (Graph.ofTree tree).Addressable)
    (hl : link.apply (Graph.ofTree tree) = (.ok n, g)) {d : Document} (hd : d ∈ g.documents) :
    ∃ part c₂ m h, (resolve disk entities d.header.source base).run.run c₁ = (.ok part, c₂) ∧
      link.apply (Graph.ofTree part) = (.ok m, h) ∧ g.IsCopy h d.id := by
  obtain ⟨hok, rfl, _⟩ := settled_of_link ha hl
  obtain ⟨d, hdoc, rfl⟩ := Array.mem_map.1 hd
  have h := Graph.inOrder_ofTree ha
  have hdoc := h.arranged.document_getElem?_id hdoc
  have hlt := (Array.getElem?_eq_some_iff.1 hdoc).1
  rw [Graph.size_documents_ofTree ha] at hlt
  obtain ⟨walk, first, part, _, hs⟩ := ImportTree.exists_stands hlt
  obtain ⟨q, _, hpart⟩ := Unfolds.of_stands hs (unfolds_of_resolve hc hr).1
  obtain ⟨hread, himports⟩ := hpart.root
  have hsource : d.header.source = q.normalize := by
    have hroot := Graph.getElem?_document_of_stands ha hs
    obtain ⟨_, _, _, _, _, hdocument⟩ := part.draft.exists_document (.ofIndex d.id.index) first
    rw [hdocument, hdoc, Option.some.injEq] at hroot
    rw [hroot]
    exact source_of_readDraft hread
  have hpart' : Unfolds disk entities base [q.normalize] [part] := by
    cases part
    refine .cons ?_ himports .nil
    rwa [Path.normalize_normalize]
  obtain ⟨c₂, hr₁⟩ := resolve_of_unfolds hc₁ hpart'
  have hf := fresh_of_resolve hc.readFromTexts hr
  have hf' := fresh_of_resolve hc₁.readFromTexts hr₁
  have hp := Graph.inOrder_ofTree (Graph.addressable_of_stands ha hs)
  obtain ⟨m, hm⟩ := Graph.apply_link hp
    (Graph.fault?_of_contains h hp (Graph.contains_of_stands hf' ha hs) hok)
  refine ⟨part, c₂, m, _, ?_, hm, ?_⟩
  · show (resolve disk entities d.header.source base).run.run c₁ = _
    rw [hsource, hr₁]
  · have hcopy := Graph.isCopy_of_stands hf hf' ha hs hok
    rwa [Handle.ofIndex_index] at hcopy

/-- When a family is linked, each of its documents can be resolved and linked on its own, read from
    the same files with the same base directory, and wherever the file of this document stands in
    the family, the documents that it reaches there are a copy of the result: the handles of
    documents are shifted by the number of documents before it and those of declarations by the
    number of their declarations, and headers, declarations, targets, imports and dependencies are
    the same. So what imports a document has no influence on how it is linked. Handles are 32 bits
    wide, so a family is `Addressable` unless it has more documents or declarations than there are
    handles, and shares them. -/
theorem modular_of_link (hc : c.Faithful disk entities) (hc₁ : c₁.Faithful disk entities)
    (hr : (resolve disk entities p base).run.run c = (.ok tree, c'))
    (ha : (Graph.ofTree tree).Addressable)
    (hl : link.apply (Graph.ofTree tree) = (.ok n, g)) {d : Document} (hd : d ∈ g.documents) :
    ∃ part c₂ m h, (resolve disk entities d.header.source base).run.run c₁ = (.ok part, c₂) ∧
      link.apply (Graph.ofTree part) = (.ok m, h) ∧
      ∀ d' ∈ g.documents, d'.header.source = d.header.source → g.IsCopy h d'.id := by
  obtain ⟨part, c₂, m, h, hr₁, hm, _⟩ := exists_copy_of_link hc hc₁ hr ha hl hd
  refine ⟨part, c₂, m, h, hr₁, hm, fun d' hd' hsource => ?_⟩
  obtain ⟨part', c₂', m', h', hr₁', hm', hcopy⟩ := exists_copy_of_link hc hc₁ hr ha hl hd'
  rw [hsource, hr₁] at hr₁'
  cases hr₁'
  rw [hm] at hm'
  cases hm'
  exact hcopy

end

theorem modular_twiceImported :
    ∃ tree c' n g, (resolve twiceImported [] ⟨"a"⟩ ⟨""⟩).run.run {} = (.ok tree, c') ∧
      link.apply (Graph.ofTree tree) = (.ok n, g) ∧ n = 2 ∧
      ∃ part c₂ m h, (resolve twiceImported [] ⟨"b"⟩ ⟨""⟩).run.run {} = (.ok part, c₂) ∧
        link.apply (Graph.ofTree part) = (.ok m, h) ∧
        ∀ d ∈ g.documents, d.header.source = ⟨"b"⟩ → g.IsCopy h d.id := by
  have hkey : succeeds (fun tree _ => decide (Graph.ofTree tree).Addressable &&
        succeeds (fun n g => n == 2 && g.documents[1]?.any (·.header.source == ⟨"b"⟩))
          (link.apply (Graph.ofTree tree)))
      ((resolveFrom twiceImported [] ⟨""⟩ 2 [] ⟨"a"⟩).run.run {}) = true := by
    decide +kernel
  obtain ⟨tree, c', hr, hcheck⟩ := exists_of_succeeds hkey
  have hr := run_resolve_of_two_steps hr
  obtain ⟨ha, hlink⟩ := Bool.and_eq_true_iff.1 hcheck
  obtain ⟨n, g, hl, hcheck⟩ := exists_of_succeeds hlink
  obtain ⟨hn, hsource⟩ := Bool.and_eq_true_iff.1 hcheck
  obtain ⟨d, hd, hsource⟩ := Option.any_eq_true _ _ |>.1 hsource
  have hcopies := modular_of_link (Cache.faithful_empty _ _) (Cache.faithful_empty _ _) hr
    (of_decide_eq_true ha) hl (Array.mem_of_getElem? hd)
  rw [beq_iff_eq.1 hsource] at hcopies
  exact ⟨tree, c', n, g, hr, hl, beq_iff_eq.1 hn, hcopies⟩

end SchemaFamily
