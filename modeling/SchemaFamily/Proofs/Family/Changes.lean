import SchemaFamily.Proofs.Family.Subtree

/-
  What operations change. Each operation on a graph, when it has a result, changes one document, or
  adds one multiplexer with what leads to it, and nothing else. This is said once for each of them
  (`eq_of_registerDependency`, `addMultiplexer_cases`, `eq_of_sortMultiplexers`), and what they keep
  is told from it.
-/

namespace SchemaFamily

namespace Graph

variable {g g' : Graph}

theorem eq_of_modifyDocument {id : DocumentId} {f : Document → Document}
    (h : g.modifyDocument id f = .ok g') :
    g' = { g with documents := g.documents.modify id.index f } := by
  unfold modifyDocument at h
  split at h
  · exact (Except.ok.inj h).symm
  · cases h

/-- A graph with a dependency registered, or the same graph. -/
theorem eq_of_registerDependency {document owner : DocumentId} {name : String}
    {dependency : Dependency}
    (h : (g.registerDependency document owner name dependency).map (·.1) = .ok g') :
    g' = g ∨ ∃ nameSpace, g.dependencyNamespace dependency = .ok nameSpace ∧
      g' = { g with documents := g.documents.modify document.index fun d =>
        { d with dependencies := d.dependencies.register nameSpace name dependency } } := by
  obtain ⟨⟨changed, isNew⟩, hregister, rfl⟩ := exists_of_map_ok h
  unfold registerDependency at hregister
  split at hregister
  · cases hregister
    exact .inl rfl
  · obtain ⟨nameSpace, hnameSpace, hregister⟩ := exists_of_bind_ok hregister
    obtain ⟨_, _, hregister⟩ := exists_of_bind_ok hregister
    obtain ⟨_, hmodify, hregister⟩ := exists_of_bind_ok hregister
    cases hregister
    exact .inr ⟨nameSpace, hnameSpace, eq_of_modifyDocument hmodify⟩

/-- A multiplexer is added to the arena, to its owner, to the names and to the usages, or, where
    its owner is no document, only to the names and to the usages. -/
theorem addMultiplexer_cases (g : Graph) (build : MultiplexerId → Multiplexer) {m : Multiplexer}
    (hm : build (.ofIndex g.multiplexers.size) = m) :
    g.addMultiplexer build =
      ({ g with
        multiplexerNames := (m.name, .ofIndex g.multiplexers.size) :: g.multiplexerNames
        multiplexerUsages := (m.usage, .ofIndex g.multiplexers.size) :: g.multiplexerUsages },
        .error (.document m.owner)) ∨
    m.owner.index < g.documents.size ∧ g.addMultiplexer build =
      ({ g with
        documents := g.documents.modify m.owner.index fun d =>
          { d with multiplexers := d.multiplexers ++ [.ofIndex g.multiplexers.size] }
        multiplexers := g.multiplexers.push m
        multiplexerNames := (m.name, .ofIndex g.multiplexers.size) :: g.multiplexerNames
        multiplexerUsages := (m.usage, .ofIndex g.multiplexers.size) :: g.multiplexerUsages },
        .ok (.ofIndex g.multiplexers.size)) := by
  subst hm
  unfold addMultiplexer modifyDocument
  dsimp only
  cases hd : g.documents[(build (.ofIndex g.multiplexers.size)).owner.index]? with
  | none => exact .inl rfl
  | some d => exact .inr ⟨(Array.getElem?_eq_some_iff.1 hd).1, rfl⟩

theorem map_fst_of_mapM {ids : List MultiplexerId} {named : List (MultiplexerId × String)}
    (h : (ids.mapM fun id => (g.multiplexer id).map fun m => (id, m.name)) = .ok named) :
    named.map (·.1) = ids := by
  induction ids generalizing named with
  | nil =>
    cases h
    rfl
  | cons id later ih =>
    obtain ⟨x, more, hx, hmore, rfl⟩ := mapM_cons_eq_ok h
    obtain ⟨m, _, rfl⟩ := exists_of_map_ok hx
    rw [List.map_cons, ih hmore]

/-- The multiplexers of a document are put in another order. -/
theorem eq_of_sortMultiplexers {id : DocumentId} (h : g.sortMultiplexers id = .ok g') :
    ∃ (d : Document) (sorted : List MultiplexerId), g.documents[id.index]? = some d ∧
      sorted.Perm d.multiplexers ∧ g' = { g with
        documents := g.documents.modify id.index fun d => { d with multiplexers := sorted } } := by
  obtain ⟨d, hd, named, hnamed, hmodify⟩ : ∃ d, g.document id = .ok d ∧
      ∃ named : List (MultiplexerId × String), named.map (·.1) = d.multiplexers ∧
        g.modifyDocument id (fun d =>
          { d with multiplexers := (named.mergeSort fun a b => a.2 ≤ b.2).map (·.1) }) =
            .ok g' := by
    simp only [sortMultiplexers, bind, Except.bind] at h
    split at h
    · cases h
    · next d hd =>
      split at h
      · next hnone => exact ⟨d, hd, [], by rw [hnone]; rfl, h⟩
      · next single hsingle => exact ⟨d, hd, [(single, "")], by rw [hsingle]; rfl, h⟩
      · split at h
        · cases h
        · next named hnamed => exact ⟨d, hd, named, map_fst_of_mapM hnamed, h⟩
  refine ⟨d, _, getElem?_of_document hd, ?_, eq_of_modifyDocument hmodify⟩
  rw [← hnamed]
  exact (List.mergeSort_perm named _).map _

end Graph

end SchemaFamily
