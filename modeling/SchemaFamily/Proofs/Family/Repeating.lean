import SchemaFamily.Proofs.Family.Depending
import SchemaFamily.Proofs.Family.Reordering

/-
  Finishing a family again. In a family whose demands are all met, a demand finds the multiplexer of
  its name, its dependency is registered and its usage is represented (`idle_meetDemand`), and the
  multiplexers of a finished document are in order (`sortMultiplexers_finished`). So reconciling
  does nothing to it, nor does linking, since no name in it is to be resolved (`idle_of_compile`).
-/

namespace SchemaFamily

theorem modify_eq_self {α : Type} {xs : Array α} {i : Nat} {f : α → α}
    (h : ∀ a, xs[i]? = some a → f a = a) : xs.modify i f = xs := by
  refine Array.ext_getElem? fun j => ?_
  rw [Array.getElem?_modify]
  split
  · next hij =>
    rw [← hij]
    cases ha : xs[i]? with
    | none => rfl
    | some a => rw [Option.map_some, h a ha]
  · rfl

namespace Graph

variable {g : Graph} {finished : List DocumentId} {demands : List Multiplexer} {m s : Multiplexer}
  {document : DocumentId}

/-! ## Demands that are met -/

/-- The dependency that a demand is was registered when it was met. -/
theorem add_serveDocument (hm : m ∈ demands) (hs : sharedBy? demands m.name = some s)
    (hne : s.owner ≠ m.owner) {d : Document} (hd : d.id = m.owner) :
    (serveDocument finished demands d).dependencies.add ⟨m.name, .multiplexer, .multiplexer s.id⟩ =
      (serveDocument finished demands d).dependencies := by
  have hentry : sharedDependency? demands m =
      some ⟨m.name, .multiplexer, .multiplexer s.id⟩ := by
    rw [sharedDependency?, hs, Option.bind_some, if_neg hne]
  refine Dependencies.add_of_mem ((Dependencies.key_mem_foldl_add _).2 (.inr ?_))
  refine List.mem_map.2 ⟨_, List.mem_filterMap.2 ⟨m, List.mem_filter.2 ⟨hm, ?_⟩, hentry⟩, rfl⟩
  rw [hd, beq_self_eq_true]

section

variable (h : g.Arranged) (hcap : (arena demands).length ≤ maxIndex + 1)

include h hcap

/-- A demand that is met is met by the multiplexer that there is, which changes nothing. -/
theorem idle_meetDemand (hnodup : (demands.map (·.usage)).Nodup)
    (hlt : m.owner.index < g.documents.size) (hm : m ∈ demands) :
    Pass.Idle (g.served finished demands) (meetDemand m) := by
  obtain ⟨s, hs⟩ := exists_sharedBy? (List.mem_map.2 ⟨m, hm, rfl⟩)
  have hask : (g.served finished demands).multiplexer s.id = .ok s :=
    multiplexer_served hcap (mem_of_sharedBy? hs).1
  have hdoc := Array.getElem?_eq_getElem hlt
  have hserved : (g.served finished demands).documents[m.owner.index]? =
      some (serveDocument finished demands g.documents[m.owner.index]) := by
    rw [getElem?_served_documents, hdoc, Option.map_some]
  have hregister : ((g.served finished demands).registerDependency m.owner s.owner m.name
      (.multiplexer s.id)).map (·.1) = .ok (g.served finished demands) := by
    rw [registerDependency_eq hserved rfl]
    split
    · rfl
    · next hne =>
      refine congrArg (fun documents => Except.ok { g.served finished demands with documents }) ?_
      refine modify_eq_self fun d hd => ?_
      rw [hserved] at hd
      cases hd
      rw [add_serveDocument hm hs hne (Handle.ext (h.document_index hdoc))]
  rw [Pass.Idle, meetDemand, Pass.apply_bind_of_ok (Pass.apply_get _), multiplexerNamed?_served, hs,
    Option.map_some]
  dsimp only
  rw [Pass.apply_bind_ask hask, Pass.apply_bind_change hregister,
    Pass.apply_bind_of_ok (Pass.apply_modify _ _), Pass.apply_pure, bindUsage, if_pos]
  rw [multiplexerFor?_served hnodup, lookup_bindings_of_mem hnodup hm hs]
  rfl

/-- Sorting what a finished document owns changes nothing. -/
theorem sortMultiplexers_finished (hlt : document.index < g.documents.size)
    (hfin : document ∈ finished) :
    (g.served finished demands).sortMultiplexers document = .ok (g.served finished demands) := by
  have hdoc := Array.getElem?_eq_getElem hlt
  have hserved : (g.served finished demands).documents[document.index]? =
      some (serveDocument finished demands g.documents[document.index]) := by
    rw [getElem?_served_documents, hdoc, Option.map_some]
  have hid : g.documents[document.index].id = document := Handle.ext (h.document_index hdoc)
  have hsorted : (ownMultiplexers finished demands document).mergeSort
      (fun a b => a.name ≤ b.name) = ownMultiplexers finished demands document := by
    refine List.mergeSort_of_pairwise ((pairwise_ownMultiplexers demands hfin).imp fun hab => ?_)
    exact decide_eq_true (le_of_lt hab)
  rw [sortMultiplexers_eq hserved rfl fun m hm =>
    multiplexer_served hcap (mem_ownMultiplexers.1 hm).1, hid, hsorted]
  refine congrArg (fun documents => Except.ok { g.served finished demands with documents }) ?_
  refine modify_eq_self fun d hd => ?_
  rw [hserved] at hd
  cases hd
  rw [serveDocument, hid]

end

/-! ## Families that are finished -/

section

variable {suffix : String} {documents : List DocumentId} (h : g.InOrder) (ha : g.Addressable)
  (hperm : documents.Perm (g.documents.toList.map (·.id)))
  (hall : ∀ e ∈ g.eligible documents, ∃ m, g.demanded suffix e = .ok m)

include h ha hperm hall

/-- Where all demands of a family are met, reconciling a document does nothing. -/
theorem idle_reconcileDocument (hlt : document.index < g.documents.size) :
    Pass.Idle (g.served documents (g.demands suffix (g.eligible documents)))
      (reconcileDocument suffix document) := by
  have hcore := g.sameCore_served documents (g.demands suffix (g.eligible documents))
  have hcap := Nat.le_trans (length_arena_le g suffix (g.eligible documents)) ha.2
  have hnodup := (nodup_eligible h.arranged hperm).sublist
    (usages_demands_sublist g suffix (g.eligible documents))
  have hcandidates : Pass.Idle (g.served documents (g.demands suffix (g.eligible documents)))
      (Pass.total (reconcileUsage suffix document)
        ((g.holdings document).flatMap Declaration.candidates)) := by
    refine Pass.Idle.total fun c hc => ?_
    obtain ⟨d, hd, hdc⟩ := List.mem_flatMap.1 hc
    obtain ⟨hmem, rfl⟩ := (h.arranged.mem_holdings hlt).1 hd
    have he : (⟨d.owner, c⟩ : Eligible) ∈ g.eligible documents := by
      refine (mem_eligible_iff h.arranged hperm).2 ⟨d, hmem, ?_⟩
      rw [d.eligible_eq]
      exact List.mem_map.2 ⟨c, hdc, rfl⟩
    obtain ⟨m, hm⟩ := hall _ he
    have happly := apply_reconcileUsage suffix ⟨d.owner, c⟩
      (g.served documents (g.demands suffix (g.eligible documents)))
    rw [hcore.demanded, hm] at happly
    have howner := (madeFor_of_demanded hm).owner
    exact happly.trans (idle_meetDemand h.arranged hcap hnodup (by rwa [howner])
      (mem_demands.2 ⟨_, he, hm⟩))
  have hsort := sortMultiplexers_finished h.arranged hcap hlt
    (hperm.mem_iff.2 (h.arranged.mem_ids_iff.2 hlt))
  rw [Pass.Idle, reconcileDocument, Pass.apply_bind_ask (hcore.candidates_eq h.arranged hlt),
    Pass.apply_bind_of_ok hcandidates, Pass.apply_bind_change hsort, Pass.apply_pure]

/-- Where all demands of a family are met, reconciling it does nothing. -/
theorem idle_reconcile (hne : g.documents.size ≠ 0) :
    Pass.Idle (g.served documents (g.demands suffix (g.eligible documents)))
      (reconcile suffix) := by
  have hcore := g.sameCore_served documents (g.demands suffix (g.eligible documents))
  have hsize := hcore.sameOutline.size_documents
  obtain ⟨taken, hpost, _, htaken⟩ :=
    postorder_of_spans (h.congr hcore.sameOutline hcore.sameImports).spans
  have hroot : (g.served documents (g.demands suffix (g.eligible documents))).root? =
      some (.ofIndex 0) := by
    rw [root?, if_neg]
    simpa [Array.isEmpty, ← hsize] using hne
  rw [Pass.Idle, reconcile, Pass.apply_bind_of_ok (Pass.apply_get _), hroot]
  dsimp only
  rw [Pass.apply_bind_ask hpost]
  refine Pass.Idle.total fun document hd => idle_reconcileDocument h ha hperm hall ?_
  rw [← h.arranged.mem_ids_iff, h.arranged.ids_eq, List.range_eq_range']
  rw [← hsize] at htaken
  exact htaken.mem_iff.1 hd

end

end Graph

/-- A family that was compiled can be linked again and reconciled again with the same suffix: both
    succeed and count nothing, and nothing of the family changes. Handles are 32 bits wide, so a
    family is `Addressable` unless it has more documents or declarations than there are handles, and
    shares them. -/
theorem idle_of_compile {disk : Disk} {settings : Settings} {p base : Path} {c c' : Cache}
    {g : Graph} (hg : (compileIn disk settings p base).run.run c = (.ok g, c'))
    (ha : g.Addressable) :
    link.apply g = (.ok 0, g) ∧ (reconcile settings.multiplexerSuffix).apply g = (.ok 0, g) := by
  obtain ⟨tree, k, g₁, n, _, hl, hs⟩ := passes_of_compile hg
  have ha' := addressable_of_passes hl hs ha
  obtain ⟨h, haddressable, _, hne⟩ := reconcilable_of_link ha' hl
  obtain ⟨documents, _, hperm, hall, rfl, _⟩ := served_of_reconcile ha' hl hs
  refine ⟨?_, Graph.idle_reconcile h haddressable hperm hall hne⟩
  have ho := (g₁.sameCore_served documents
    (g₁.demands settings.multiplexerSuffix (g₁.eligible documents))).sameOutline
  refine Graph.idle_link (h.arranged.congr ho) fun d' hd' => ?_
  have hstart := Graph.inOrder_ofTree ha'
  obtain ⟨hok, rfl, _⟩ := settled_of_link ha' hl
  obtain ⟨d, hd, rfl⟩ := Array.mem_map.1 hd'
  have hlisted : ∀ r ∈ d.references, r ∈ (Graph.ofTree tree).references :=
    fun r hr => (Graph.mem_references_iff hstart).2 ⟨d, hd, hr⟩
  exact Graph.pending_settleDeclaration hstart hd (fun r hr => hok r (hlisted r hr)) hlisted

/-- Two documents share a multiplexer, and both usages find it again. -/
theorem idle_sharedGroup :
    ∃ g c', (compileIn sharedGroup {} ⟨"a"⟩ ⟨""⟩).run.run {} = (.ok g, c') ∧
      g.multiplexers.size = 1 ∧ g.multiplexerUsages.length = 2 ∧ link.apply g = (.ok 0, g) ∧
      (reconcile ({} : Settings).multiplexerSuffix).apply g = (.ok 0, g) := by
  have hkey : succeeds (fun g _ => decide g.Addressable && g.multiplexers.size == 1 &&
        g.multiplexerUsages.length == 2)
      ((compileIn sharedGroup {} ⟨"a"⟩ ⟨""⟩).run.run {}) = true := by
    decide +kernel
  obtain ⟨g, c', hg, hcheck⟩ := exists_of_succeeds hkey
  rw [Bool.and_eq_true, Bool.and_eq_true, beq_iff_eq, beq_iff_eq] at hcheck
  obtain ⟨⟨ha, hsize⟩, husages⟩ := hcheck
  obtain ⟨hlinked, hreconciled⟩ := idle_of_compile hg (of_decide_eq_true ha)
  exact ⟨g, c', hg, hsize, husages, hlinked, hreconciled⟩

end SchemaFamily
