import SchemaFamily.Proofs.Family.Served

/-
  Reconciling serves one eligible usage after the other. A demand is met by the multiplexer of its
  name or by one made for it (`meetDemand_of_mem`, `meetDemand_of_not_mem`), so that the family goes
  from one served state to the next until all usages are served or one is refused
  (`runs_reconcile`).
-/

namespace SchemaFamily

namespace Graph

variable {g : Graph} {demands : List Multiplexer} {m s : Multiplexer} {ref : UsageRef}
  {finished : List DocumentId} {document : DocumentId}

/-! ## Meeting a demand -/

theorem bindUsage_of_eq_none (h : g.multiplexerFor? ref = none) (id : MultiplexerId) :
    g.bindUsage ref id = { g with multiplexerUsages := (ref, id) :: g.multiplexerUsages } := by
  rw [bindUsage, h]
  rfl

/-- A multiplexer is added to the arena, to its owner, to the names and to the usages. -/
theorem addMultiplexer_eq (g : Graph) (m : Multiplexer) {owner : Document}
    (howner : g.documents[m.owner.index]? = some owner) :
    (g.addMultiplexer fun id => { m with id }) =
      ({ g with
        documents := g.documents.modify m.owner.index fun d =>
          { d with multiplexers := d.multiplexers ++ [.ofIndex g.multiplexers.size] }
        multiplexers := g.multiplexers.push { m with id := .ofIndex g.multiplexers.size }
        multiplexerNames := (m.name, .ofIndex g.multiplexers.size) :: g.multiplexerNames
        multiplexerUsages := (m.usage, .ofIndex g.multiplexers.size) :: g.multiplexerUsages },
        .ok (.ofIndex g.multiplexers.size)) := by
  simp only [addMultiplexer, modifyDocument, howner]

/-- The documents when one more demand is met by a multiplexer that there is. -/
theorem modify_served_documents_of_mem (h : g.Arranged) (hm : m.name ∈ demands.map (·.name))
    (hs : sharedBy? demands m.name = some s) :
    (if s.owner = m.owner then (g.served finished demands).documents
      else (g.served finished demands).documents.modify m.owner.index fun d =>
        { d with dependencies := d.dependencies.add ⟨m.name, .multiplexer, .multiplexer s.id⟩ }) =
      g.documents.map (serveDocument finished (demands ++ [m])) := by
  have hdependency : sharedDependency? (demands ++ [m]) m =
      if s.owner = m.owner then none else some ⟨m.name, .multiplexer, .multiplexer s.id⟩ := by
    rw [sharedDependency?, sharedBy?_append hm, hs, Option.bind_some]
  have hserve : ∀ d : Document, serveDocument finished (demands ++ [m]) d =
      { serveDocument finished demands d with
        dependencies := (serveDocument finished (demands ++ [m]) d).dependencies } := by
    intro d
    rw [serveDocument, ownMultiplexers_append_of_mem hm, serveDocument]
  split
  · next ho =>
    rw [if_pos ho] at hdependency
    refine Array.map_congr_left fun d _ => ?_
    rw [hserve, dependencies_serveDocument_append, hdependency]
    split <;> rfl
  · next ho =>
    rw [if_neg ho] at hdependency
    refine modify_map_eq_map (fun d hd => ?_) fun j d hd hj => ?_
    · have hid : m.owner = d.id := (Handle.ext (h.document_index hd)).symm
      rw [hserve, dependencies_serveDocument_append, if_pos hid, hdependency]
      rfl
    · have hid : m.owner ≠ d.id := fun e => hj (by rw [← h.document_index hd, ← e])
      rw [hserve, dependencies_serveDocument_append, if_neg hid]

/-- The documents when one more demand is met by a multiplexer made for it. -/
theorem modify_served_documents_of_not_mem (h : g.Arranged) (hm : m.name ∉ demands.map (·.name))
    (hfin : m.owner ∉ finished) :
    (g.served finished demands).documents.modify m.owner.index (fun d =>
        { d with multiplexers := d.multiplexers ++ [.ofIndex (arena demands).length] }) =
      g.documents.map (serveDocument finished (demands ++ [m])) := by
  have hdependency : sharedDependency? (demands ++ [m]) m = none := by
    rw [sharedDependency?, sharedBy?_append_self hm, Option.bind_some, if_pos rfl]
  have hserve : ∀ d : Document, serveDocument finished (demands ++ [m]) d =
      { serveDocument finished demands d with
        multiplexers := (ownMultiplexers finished (demands ++ [m]) d.id).map (·.id) } := by
    intro d
    have hsame : (serveDocument finished (demands ++ [m]) d).dependencies =
        (serveDocument finished demands d).dependencies := by
      rw [dependencies_serveDocument_append, hdependency]
      split <;> rfl
    exact congrArg (fun dependencies => { d with
      dependencies
      multiplexers := (ownMultiplexers finished (demands ++ [m]) d.id).map Multiplexer.id }) hsame
  refine modify_map_eq_map (fun d hd => ?_) fun j d hd hj => ?_
  · have hid : m.owner = d.id := (Handle.ext (h.document_index hd)).symm
    rw [hserve, ownMultiplexers_append_of_not_mem hm hfin, if_pos hid, List.map_append]
    rfl
  · have hid : m.owner ≠ d.id := fun e => hj (by rw [← h.document_index hd, ← e])
    rw [hserve, ownMultiplexers_append_of_not_mem hm hfin, if_neg hid]
    rfl

section

variable (h : g.Arranged) {owner : Document} (howner : g.documents[m.owner.index]? = some owner)

include h howner

/-- A demand of a name that has a multiplexer is met by it. -/
theorem meetDemand_of_mem (hcap : (arena demands).length ≤ maxIndex + 1)
    (hnodup : (demands.map (·.usage)).Nodup) (hnew : m.usage ∉ demands.map (·.usage))
    (hm : m.name ∈ demands.map (·.name)) :
    (meetDemand m).apply (g.served finished demands) =
      (.ok 0, g.served finished (demands ++ [m])) := by
  obtain ⟨s, hs⟩ := exists_sharedBy? hm
  have hs' : sharedBy? (demands ++ [m]) m.name = some s := by rw [sharedBy?_append hm, hs]
  have hask : (g.served finished demands).multiplexer s.id = .ok s :=
    multiplexer_served hcap (mem_of_sharedBy? hs).1
  have hdoc : (g.served finished demands).documents[m.owner.index]? =
      some (serveDocument finished demands owner) := by
    rw [getElem?_served_documents, howner, Option.map_some]
  have hregister : ((g.served finished demands).registerDependency m.owner s.owner m.name
      (.multiplexer s.id)).map (·.1) = _ := registerDependency_eq hdoc rfl
  rw [meetDemand, Pass.apply_bind_of_ok (Pass.apply_get _), multiplexerNamed?_served, hs,
    Option.map_some]
  dsimp only
  rw [Pass.apply_bind_ask hask, Pass.apply_bind_change hregister,
    Pass.apply_bind_of_ok (Pass.apply_modify _ _), Pass.apply_pure]
  have hunbound : (g.served finished demands).multiplexerFor? m.usage = none := by
    rw [multiplexerFor?_served hnodup, lookup_bindings_of_not_mem hnew]
  have hserved : g.served finished (demands ++ [m]) =
      { g.served finished demands with
        documents := g.documents.map (serveDocument finished (demands ++ [m]))
        multiplexerUsages :=
          (m.usage, s.id) :: (g.served finished demands).multiplexerUsages } := by
    rw [served, arena_append_of_mem hm, bindings_append hs', List.reverse_append]
    rfl
  rw [hserved, ← modify_served_documents_of_mem h hm hs]
  refine congrArg (Prod.mk _) ?_
  split
  · exact bindUsage_of_eq_none hunbound s.id
  · exact bindUsage_of_eq_none (by exact hunbound) s.id

/-- A demand of a new name is met by a multiplexer made for it. -/
theorem meetDemand_of_not_mem (hfin : m.owner ∉ finished) (hm : m.name ∉ demands.map (·.name)) :
    (meetDemand m).apply (g.served finished demands) =
      (.ok 1, g.served finished (demands ++ [m])) := by
  have hdoc : (g.served finished demands).documents[m.owner.index]? =
      some (serveDocument finished demands owner) := by
    rw [getElem?_served_documents, howner, Option.map_some]
  rw [meetDemand, Pass.apply_bind_of_ok (Pass.apply_get _), multiplexerNamed?_served,
    sharedBy?_eq_none hm, Option.map_none]
  dsimp only
  have hsize : (g.served finished demands).multiplexers.size = (arena demands).length :=
    List.size_toArray
  have hadd := addMultiplexer_eq (g.served finished demands) m hdoc
  rw [hsize, modify_served_documents_of_not_mem h hm hfin] at hadd
  rw [Pass.apply_bind_of_ok (Pass.apply_get _), hadd]
  dsimp only
  rw [Pass.apply_bind_of_ok (Pass.apply_set _ _), Pass.apply_pure]
  refine congrArg (Prod.mk _) ?_
  rw [served, served, arena_append_of_not_mem hm, bindings_append (sharedBy?_append_self hm),
    List.map_append, List.reverse_append, List.reverse_append, List.push_toArray]
  rfl

end

/-! ## All eligible usages -/

variable {suffix : String}

/-- Serving one usage meets its demand, or fails if it is refused. -/
theorem runs_reconcileUsage (h : g.InOrder) (ha : g.Addressable) {e : Eligible}
    (hlt : e.document.index < g.documents.size) (hfin : e.document ∉ finished)
    {done : List Eligible} (hnodup : ((done ++ [e]).map (·.candidate.usage)).Nodup) :
    Pass.Runs (fun done => g.served finished (g.demands suffix done))
      (fun done => (arena (g.demands suffix done)).length) (g.refusal? suffix)
      (reconcileUsage suffix e.document e.candidate) done [e] := by
  obtain ⟨owner, howner⟩ : ∃ owner, g.documents[e.document.index]? = some owner :=
    ⟨_, Array.getElem?_eq_getElem hlt⟩
  have happly := apply_reconcileUsage suffix e (g.served finished (g.demands suffix done))
  rw [(g.sameCore_served finished _).demanded] at happly
  unfold Pass.Runs
  rw [List.findSome?_singleton, refusal?]
  cases hd : g.demanded suffix e with
  | error failure =>
    rw [hd] at happly
    exact ⟨_, happly⟩
  | ok m =>
    rw [hd] at happly
    dsimp only at happly ⊢
    have hdemands : g.demands suffix (done ++ [e]) = g.demands suffix done ++ [m] := by
      rw [Graph.demands, List.filterMap_append, List.filterMap_cons, hd]
      rfl
    rw [List.map_append, List.nodup_append] at hnodup
    obtain ⟨hdone, _, hdisjoint⟩ := hnodup
    obtain ⟨hm, husage, _⟩ := madeFor_of_demanded hd
    have hsub := usages_demands_sublist g suffix done
    rw [← hm] at howner hfin
    rw [hdemands, happly]
    by_cases hname : m.name ∈ (g.demands suffix done).map (·.name)
    · refine ⟨0, ?_, by rw [arena_append_of_mem hname, Nat.add_zero]⟩
      refine meetDemand_of_mem h.arranged howner ?_ (hdone.sublist hsub) (fun hmem => ?_) hname
      · exact Nat.le_trans (length_arena_le g suffix done) ha.2
      · exact hdisjoint _ (hsub.subset hmem) _ (List.mem_singleton.2 rfl) husage
    · refine ⟨1, meetDemand_of_not_mem h.arranged howner hfin hname, ?_⟩
      rw [arena_append_of_not_mem hname, List.length_append, List.length_singleton]

/-! ## Finishing a document -/

theorem mapM_multiplexer {own : List Multiplexer} (h : ∀ m ∈ own, g.multiplexer m.id = .ok m) :
    (own.map (·.id)).mapM (fun id => (g.multiplexer id).map fun m => (id, m.name)) =
      .ok (own.map fun m => (m.id, m.name)) := by
  induction own with
  | nil => rfl
  | cons m later ih =>
    rw [List.map_cons, List.mapM_cons, h m List.mem_cons_self,
      ih fun m' hm' => h m' (List.mem_cons_of_mem _ hm')]
    rfl

/-- Sorting puts the multiplexers that a document owns in order of their names. -/
theorem sortMultiplexers_eq {d : Document} {own : List Multiplexer}
    (hd : g.documents[document.index]? = some d) (hown : d.multiplexers = own.map (·.id))
    (hask : ∀ m ∈ own, g.multiplexer m.id = .ok m) :
    g.sortMultiplexers document =
      .ok { g with
        documents := g.documents.modify document.index fun d =>
          { d with
            multiplexers := (own.mergeSort fun a b => a.name ≤ b.name).map Multiplexer.id } } := by
  simp only [sortMultiplexers, document_of_getElem? hd, hown, bind, Except.bind]
  match own with
  | [] => simp [pure, Except.pure, modifyDocument, hd]
  | [m] => simp [pure, Except.pure, modifyDocument, hd]
  | m :: m' :: later =>
    have hmap : ((m :: m' :: later).mergeSort fun a b => a.name ≤ b.name).map
          (fun m => (m.id, m.name)) =
        ((m :: m' :: later).map fun m => (m.id, m.name)).mergeSort fun a b => a.2 ≤ b.2 :=
      List.map_mergeSort fun _ _ _ _ => rfl
    have hmapM := mapM_multiplexer hask
    rw [List.map_cons, List.map_cons] at hmapM ⊢
    dsimp only
    rw [hmapM]
    dsimp only
    rw [modifyDocument, hd]
    dsimp only
    rw [← hmap, List.map_map]
    rfl

theorem serveDocument_finished {d : Document} (hd : d.id ≠ document) :
    serveDocument (finished ++ [document]) demands d = serveDocument finished demands d := by
  simp only [serveDocument, ownMultiplexers, List.contains_iff_mem, List.mem_append,
    List.mem_singleton, hd, or_false]

theorem sortMultiplexers_served (h : g.Arranged) {d : Document}
    (hd : g.documents[document.index]? = some d) (hcap : (arena demands).length ≤ maxIndex + 1)
    (hfin : document ∉ finished) :
    (g.served finished demands).sortMultiplexers document =
      .ok (g.served (finished ++ [document]) demands) := by
  have hid : d.id = document := Handle.ext (h.document_index hd)
  have hserved : (g.served finished demands).documents[document.index]? =
      some (serveDocument finished demands d) := by
    rw [getElem?_served_documents, hd, Option.map_some]
  have hown : (serveDocument finished demands d).multiplexers =
      ((arena demands).filter (·.owner == document)).map (·.id) := by
    rw [serveDocument, hid, ownMultiplexers_of_not_mem demands hfin]
  rw [sortMultiplexers_eq hserved hown fun m hm =>
    multiplexer_served hcap (List.mem_filter.1 hm).1]
  refine congrArg (fun documents => Except.ok { g.served finished demands with documents }) ?_
  refine modify_map_eq_map (fun d' hd' => ?_) fun j d' hd' hj => ?_
  · rw [hd] at hd'
    cases hd'
    have hsorted : ownMultiplexers (finished ++ [document]) demands d.id =
        ((arena demands).filter (·.owner == document)).mergeSort fun a b => a.name ≤ b.name := by
      rw [hid, ownMultiplexers_of_mem demands (by simp)]
    simp only [serveDocument, hsorted]
  · refine (serveDocument_finished fun e => hj ?_).symm
    rw [← h.document_index hd', e]

/-! ## All documents -/

/-- Reconciling a document serves its eligible usages and finishes it. -/
theorem runs_reconcileDocument (h : g.InOrder) (ha : g.Addressable)
    (hlt : document.index < g.documents.size) {done : List DocumentId} (hdone : document ∉ done)
    (hnodup : ((g.eligible (done ++ [document])).map (·.candidate.usage)).Nodup) :
    Pass.Runs (fun done => g.served done (g.demands suffix (g.eligible done)))
      (fun done => (arena (g.demands suffix (g.eligible done))).length)
      (fun document => (g.eligible [document]).findSome? (g.refusal? suffix))
      (reconcileDocument suffix document) done [document] := by
  obtain ⟨d, hd⟩ : ∃ d, g.documents[document.index]? = some d := ⟨_, Array.getElem?_eq_getElem hlt⟩
  have hcore := g.sameCore_served done (g.demands suffix (g.eligible done))
  rw [eligible_append, eligible_singleton h.arranged hlt] at hnodup
  have htotal : Pass.Runs (fun es => g.served done (g.demands suffix es))
      (fun es => (arena (g.demands suffix es)).length) (g.refusal? suffix)
      (Pass.total (reconcileUsage suffix document)
        ((g.holdings document).flatMap Declaration.candidates)) (g.eligible done)
      (g.eligible [document]) := by
    rw [eligible_singleton h.arranged hlt]
    refine Pass.Runs.total _ fun before c after hb => ?_
    refine runs_reconcileUsage h ha (e := ⟨document, c⟩) hlt hdone (hnodup.sublist ?_)
    refine List.Sublist.map _ ?_
    rw [hb, List.flatMap_append, List.flatMap_cons, List.append_assoc]
    refine List.Sublist.append_left (List.Sublist.append_left ?_ _) _
    exact List.sublist_append_left _ _
  unfold Pass.Runs at htotal ⊢
  rw [List.findSome?_singleton, reconcileDocument,
    Pass.apply_bind_ask (hcore.candidates_eq h.arranged hlt)]
  dsimp only at htotal ⊢
  cases hf : (g.eligible [document]).findSome? (g.refusal? suffix) with
  | some failure =>
    rw [hf] at htotal
    obtain ⟨g', hg'⟩ := htotal
    exact ⟨g', by rw [Pass.apply_bind, hg']⟩
  | none =>
    rw [hf, ← eligible_append] at htotal
    obtain ⟨n, hn, hcount⟩ := htotal
    have hcap := Nat.le_trans (length_arena_le g suffix
      (g.eligible (done ++ [document]))) ha.2
    have hsort := sortMultiplexers_served h.arranged hd hcap hdone
    refine ⟨n, ?_, hcount⟩
    rw [Pass.apply_bind_of_ok hn, Pass.apply_bind_change hsort, Pass.apply_pure]

/-- Reconciling serves every eligible usage of the family, documents after their imports, up to the
    first usage that is refused. -/
theorem runs_reconcile (h : g.InOrder) (ha : g.Addressable) (hu : g.Unshared)
    (hne : g.documents.size ≠ 0) :
    ∃ documents, g.Postorder [.ofIndex 0] documents ∧
      documents.Perm (g.documents.toList.map (·.id)) ∧
      Pass.Runs (fun done => g.served done (g.demands suffix (g.eligible done)))
        (fun done => (arena (g.demands suffix (g.eligible done))).length)
        (fun document => (g.eligible [document]).findSome? (g.refusal? suffix))
        (reconcile suffix) [] documents := by
  obtain ⟨documents, hpost, hpostorder, hperm⟩ := postorder_of_spans h.spans
  have hids : documents.Perm (g.documents.toList.map (·.id)) := by
    rw [h.arranged.ids_eq, List.range_eq_range']
    exact hperm
  have hnodup := hids.nodup_iff.2 h.arranged.nodup_ids
  refine ⟨documents, hpostorder, hids, ?_⟩
  have hroot : g.root? = some (.ofIndex 0) := by
    rw [root?, if_neg]
    simpa [Array.isEmpty] using hne
  refine Pass.Runs.of_apply_eq (q := Pass.total (reconcileDocument suffix) documents) ?_ ?_
  · refine Pass.Runs.total_items documents fun before document after hb => ?_
    have hmem : document ∈ g.documents.toList.map (·.id) := hids.mem_iff.1 (by simp [hb])
    obtain ⟨d, hd, rfl⟩ := List.mem_map.1 hmem
    have hlt := h.arranged.id_lt (Array.mem_toList_iff.1 hd)
    have hnot : d.id ∉ before := by
      rw [hb] at hnodup
      intro hm
      exact (List.nodup_append.1 hnodup).2.2 _ hm _ List.mem_cons_self rfl
    rw [List.nil_append]
    refine runs_reconcileDocument h ha hlt hnot ((nodup_eligible h.arranged hids).sublist ?_)
    rw [hb, List.append_cons before d.id after, eligible_append (before ++ [d.id])]
    exact (List.sublist_append_left _ _).map _
  · rw [show g.served [] (g.demands suffix (g.eligible [])) = g from served_nil hu, reconcile,
      Pass.apply_bind_of_ok (Pass.apply_get g), hroot]
    dsimp only
    rw [Pass.apply_bind_ask hpost]

end Graph

end SchemaFamily
