import SchemaFamily.Family.Compile
import SchemaFamily.Proofs.Family.Kept
import SchemaFamily.Proofs.Family.Reconciling

/-
  Families that were compiled. A multiplexer is shared by name, so it is of the shape that the
  first eligible usage of the name asks for, and it fits another usage of that name exactly when
  that one asks for the same shape (`multiplexer_of_compile`). A family with a usage that its
  multiplexer does not fit is `mixedGroups`.
-/

namespace SchemaFamily

/-- Groups of two declarations ask for multiplexers of one shape: the declarations are of the same
    kind, and both groups are keyed by the same flag or neither is keyed. -/
structure SameShape (group : GroupAs) (t : Declaration) (group' : GroupAs) (t' : Declaration) :
    Prop where
  kind : t.kind = t'.kind
  byKey : group.inJson = .byKey ↔ group'.inJson = .byKey
  jsonKey : group.inJson = .byKey → t.definition.jsonKey = t'.definition.jsonKey

/-- What fits one group fits another exactly when that one asks for the same shape. -/
theorem Multiplexer.Fits.iff_sameShape {m : Multiplexer} {group group' : GroupAs}
    {t t' : Declaration} (h' : m.Fits group' t') :
    m.Fits group t ↔ SameShape group t group' t' := by
  constructor
  · intro h
    refine ⟨h.kind.symm.trans h'.kind, ⟨fun hj => ?_, fun hj => ?_⟩, fun hj => ?_⟩
    · by_contra hne
      obtain ⟨key, _, hmode⟩ := h.byKey hj
      rw [h'.notByKey hne] at hmode
      cases hmode
    · by_contra hne
      obtain ⟨key, _, hmode⟩ := h'.byKey hj
      rw [h.notByKey hne] at hmode
      cases hmode
    · obtain ⟨key, hkey, hmode⟩ := h.byKey hj
      by_cases hj' : group'.inJson = .byKey
      · obtain ⟨key', hkey', hmode'⟩ := h'.byKey hj'
        rw [hmode] at hmode'
        cases hmode'
        rw [hkey, hkey']
      · rw [h'.notByKey hj'] at hmode
        cases hmode
  · intro hs
    refine ⟨h'.kind.trans hs.kind.symm, fun hj => ?_, fun hj => ?_⟩
    · obtain ⟨key, hkey, hmode⟩ := h'.byKey (hs.byKey.1 hj)
      exact ⟨key, (hs.jsonKey hj).trans hkey, hmode⟩
    · exact h'.notByKey fun hj' => hj (hs.byKey.2 hj')

section

variable {disk : Disk} {settings : Settings} {p base : Path} {c c' : Cache} {g : Graph}

/-- A family that was compiled was resolved, linked and reconciled. -/
theorem passes_of_compile (hg : (compileIn disk settings p base).run.run c = (.ok g, c')) :
    ∃ tree k g₁ n, (resolve disk settings.entities p base).run.run c = (.ok tree, c') ∧
      link.apply (Graph.ofTree tree) = (.ok k, g₁) ∧
      (reconcile settings.multiplexerSuffix).apply g₁ = (.ok n, g) := by
  rw [compileIn, Loading.run_bind] at hg
  rcases hr : (resolve disk settings.entities p base).run.run c with ⟨failure | tree, c₁⟩
  · rw [hr] at hg
    cases hg
  rw [hr] at hg
  dsimp only at hg
  rw [finishFamily, Pass.apply_bind] at hg
  rcases hl : link.apply (Graph.ofTree tree) with ⟨failure | k, g₁⟩
  · rw [hl] at hg
    cases hg
  rw [hl] at hg
  dsimp only at hg
  rcases hs : (reconcile settings.multiplexerSuffix).apply g₁ with ⟨failure | n, g₂⟩
  · rw [hs] at hg
    cases hg
  rw [hs] at hg
  cases hg
  exact ⟨tree, k, g₁, n, rfl, hl, hs⟩

/-- A family that could not be compiled could not be resolved, or not be linked, or not be
    reconciled. -/
theorem passes_of_failure {failure : Failure}
    (hf : ((compileIn disk settings p base).run.run c).1 = .error failure) :
    ((resolve disk settings.entities p base).run.run c).1 = .error failure ∨
      ∃ tree c', (resolve disk settings.entities p base).run.run c = (.ok tree, c') ∧
        ((∃ g, link.apply (Graph.ofTree tree) = (.error failure, g)) ∨
          ∃ k g g', link.apply (Graph.ofTree tree) = (.ok k, g) ∧
            (reconcile settings.multiplexerSuffix).apply g = (.error failure, g')) := by
  rw [compileIn, Loading.run_bind] at hf
  rcases hr : (resolve disk settings.entities p base).run.run c with ⟨failure' | tree, c'⟩
  · rw [hr] at hf
    cases hf
    exact .inl rfl
  rw [hr] at hf
  dsimp only at hf
  refine .inr ⟨tree, c', rfl, ?_⟩
  rw [finishFamily, Pass.apply_bind] at hf
  rcases hl : link.apply (Graph.ofTree tree) with ⟨failure' | k, g⟩
  · rw [hl] at hf
    cases hf
    exact .inl ⟨g, rfl⟩
  rw [hl] at hf
  dsimp only at hf
  rcases hs : (reconcile settings.multiplexerSuffix).apply g with ⟨failure' | n, g'⟩
  · rw [hs] at hf
    cases hf
    exact .inr ⟨k, g, g', rfl, hs⟩
  · rw [hs] at hf
    cases hf

/-- Handles are enough for what was resolved if they are enough for what was compiled. -/
theorem addressable_of_passes {tree : ImportTree} {suffix : String} {k n : Nat} {g₁ : Graph}
    (hl : link.apply (Graph.ofTree tree) = (.ok k, g₁))
    (hs : (reconcile suffix).apply g₁ = (.ok n, g)) (ha : g.Addressable) :
    (Graph.ofTree tree).Addressable := by
  have hfinish : (finishFamily suffix).apply (Graph.ofTree tree) = (.ok n, g) := by
    rw [finishFamily, Pass.apply_bind_of_ok hl, hs]
  have ho := sameOutline_finishFamily suffix (Graph.ofTree tree)
  rw [hfinish] at ho
  exact ho.symm.addressable ha

/-- In a family that was compiled, every eligible usage is represented by a multiplexer that is
    named after what it uses. The multiplexer is of the shape that the first usage of that name asks
    for, documents after their imports, and fits another exactly when that asks for the same
    shape. -/
theorem multiplexer_of_compile
    (hg : (compileIn disk settings p base).run.run c = (.ok g, c')) (ha : g.Addressable) :
    ∃ documents, g.Postorder [.ofIndex 0] documents ∧
      documents.Perm (g.documents.toList.map (·.id)) ∧
      ∀ d ∈ g.declarations, ∀ e ∈ d.eligible, ∃ first m t t',
        (g.eligible documents).find? (fun e' => g.derivedName? settings.multiplexerSuffix e' ==
          g.derivedName? settings.multiplexerSuffix e) = some first ∧
        g.multiplexerFor? e.candidate.usage = some m.id ∧ g.multiplexer m.id = .ok m ∧
        t ∈ g.declarations ∧ e.candidate.value.declaration? = some t.id ∧
        m.name = t.name ++ settings.multiplexerSuffix ∧
        t' ∈ g.declarations ∧ first.candidate.value.declaration? = some t'.id ∧
        m.Fits first.candidate.group t' ∧
        (m.Fits e.candidate.group t ↔
          SameShape e.candidate.group t first.candidate.group t') := by
  obtain ⟨tree, k, g₁, n, _, hl, hs⟩ := passes_of_compile hg
  have haddressable := addressable_of_passes hl hs ha
  obtain ⟨h, ha₁, _⟩ := reconcilable_of_link haddressable hl
  obtain ⟨documents, hpost, hperm, hall, rfl, _⟩ := served_of_reconcile haddressable hl hs
  have hnodup := Graph.nodup_eligible h.arranged hperm
  have hcap : (arena (g₁.demands settings.multiplexerSuffix (g₁.eligible documents))).length ≤
      maxIndex + 1 := Nat.le_trans (Graph.length_arena_le g₁ _ _) ha₁.2
  refine ⟨documents, hpost.congr (g₁.sameImports_served _ _), by rwa [Graph.ids_served], ?_⟩
  intro d hd e hed
  have he := (Graph.mem_eligible_iff h.arranged hperm).2 ⟨d, hd, hed⟩
  obtain ⟨first, m, hfirst, hm, hmade, hname⟩ := Graph.exists_madeFor_first hall he
  have hfor := Graph.multiplexerFor?_served_of_name hall hnodup documents he hm hname
  obtain ⟨t', ht', hdeclaration', _, hfits⟩ := hmade.exists_target h.arranged
  obtain ⟨m', hm'⟩ := hall e he
  obtain ⟨t, ht, hdeclaration, hname', _⟩ :=
    (Graph.madeFor_of_demanded hm').exists_target h.arranged
  rw [Graph.derivedName?_of_demanded hm', Option.some.injEq] at hname
  refine ⟨first, m, t, t', ?_, hfor, Graph.multiplexer_served hcap hm, ht, hdeclaration,
    hname.symm.trans hname', ht', hdeclaration', hfits, hfits.iff_sameShape⟩
  rw [Graph.eligible_served]
  exact hfirst

end

/-- A file that groups the values of a field and of an assembly of one name, the latter by key. -/
def mixedGroups : Disk := .ofSights
  [(⟨"a"⟩, .file (some ("<METASCHEMA><define-assembly name=\"p\"><json-key flag-name=\"i\"/>" ++
      "</define-assembly><define-field name=\"p\"/><define-assembly name=\"q\"><model>" ++
      "<field ref=\"p\"><group-as name=\"g\"/></field>" ++
      "<assembly ref=\"p\"><group-as name=\"h\" in-json=\"BY_KEY\"/></assembly>" ++
      "</model></define-assembly></METASCHEMA>")))]

theorem succeeds_mixedGroups :
    succeeds (fun g _ => decide (g.Addressable ∧ g.multiplexers.size = 1 ∧
        ∃ d ∈ g.declarations.toList, ∃ e ∈ d.eligible,
        ∃ m ∈ g.multiplexers.toList, ∃ t ∈ g.declarations.toList,
        g.multiplexerFor? e.candidate.usage = some m.id ∧
        e.candidate.value.declaration? = some t.id ∧ e.candidate.group.inJson = .byKey ∧
        m.kind ≠ t.kind ∧ m.mode = .singletonOrArray))
      ((compileIn mixedGroups {} ⟨"a"⟩ ⟨""⟩).run.run {}) = true := by
  decide +kernel

/-- The usage by key is represented by a multiplexer of another kind that has no key. -/
theorem not_fits_mixedGroups :
    ∃ g c', (compileIn mixedGroups {} ⟨"a"⟩ ⟨""⟩).run.run {} = (.ok g, c') ∧
      ∃ d ∈ g.declarations, ∃ e ∈ d.eligible, ∃ m ∈ g.multiplexers, ∃ t ∈ g.declarations,
        g.multiplexerFor? e.candidate.usage = some m.id ∧
        e.candidate.value.declaration? = some t.id ∧ e.candidate.group.inJson = .byKey ∧
        m.kind ≠ t.kind ∧ m.mode = .singletonOrArray ∧ ¬ m.Fits e.candidate.group t := by
  obtain ⟨g, c', hg, hcheck⟩ := exists_of_succeeds succeeds_mixedGroups
  obtain ⟨_, _, d, hd, e, he, m, hm, t, ht, hfor, hdeclaration, hj, hkind, hmode⟩ :=
    of_decide_eq_true hcheck
  refine ⟨g, c', hg, d, Array.mem_toList_iff.1 hd, e, he, m, Array.mem_toList_iff.1 hm, t,
    Array.mem_toList_iff.1 ht, hfor, hdeclaration, hj, hkind, hmode, fun hfits => ?_⟩
  exact hkind hfits.kind

theorem multiplexer_mixedGroups :
    ∃ g c', (compileIn mixedGroups {} ⟨"a"⟩ ⟨""⟩).run.run {} = (.ok g, c') ∧ g.Addressable ∧
      g.multiplexers.size = 1 ∧ ∀ d ∈ g.declarations, ∀ e ∈ d.eligible,
        ∃ m, g.multiplexerFor? e.candidate.usage = some m.id ∧ g.multiplexer m.id = .ok m := by
  obtain ⟨g, c', hg, hcheck⟩ := exists_of_succeeds succeeds_mixedGroups
  obtain ⟨ha, hsize, _⟩ := of_decide_eq_true hcheck
  obtain ⟨documents, _, _, hall⟩ := multiplexer_of_compile hg ha
  refine ⟨g, c', hg, ha, hsize, fun d hd e he => ?_⟩
  obtain ⟨_, m, _, _, _, hfor, hm, _⟩ := hall d hd e he
  exact ⟨m, hfor, hm⟩

end SchemaFamily
