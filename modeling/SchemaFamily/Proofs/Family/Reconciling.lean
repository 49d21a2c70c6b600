import SchemaFamily.Proofs.Family.Linking
import SchemaFamily.Proofs.Family.Serving

/-
  Reconciling a family. When a family that was linked is reconciled, its multiplexers are those
  made for the first eligible usage of each derived name, documents after their imports
  (`multiplexers_of_reconcile`). Every eligible usage is represented by the multiplexer of its
  derived name, no other usage is represented, and every document lists the multiplexers that it
  owns in order of their names.
-/

namespace SchemaFamily

namespace Graph

variable {g : Graph} {suffix : String} {es : List Eligible}

/-! ## Demands that are all met -/

theorem MadeFor.renumber {e : Eligible} {m : Multiplexer} (h : g.MadeFor suffix e m)
    (id : MultiplexerId) : g.MadeFor suffix e { m with id } := by
  obtain ⟨t, ht, hwrapped, hname, hfits⟩ := h.target
  exact ⟨h.owner, h.usage, h.group, h.wrapped, t, ht, hwrapped, hname,
    hfits.kind, hfits.byKey, hfits.notByKey⟩

section

variable (hall : ∀ e ∈ es, ∃ m, g.demanded suffix e = .ok m)

include hall

theorem map_some_demands :
    (g.demands suffix es).map some = es.map fun e => (g.demanded suffix e).toOption := by
  induction es with
  | nil => rfl
  | cons e later ih =>
    obtain ⟨m, hm⟩ := hall e List.mem_cons_self
    have hlater := ih fun e' he' => hall e' (List.mem_cons_of_mem e he')
    have htoOption : (g.demanded suffix e).toOption = some m := by rw [hm]; rfl
    rw [demands, List.filterMap_cons, htoOption]
    dsimp only
    rw [List.map_cons, List.map_cons, htoOption, ← hlater, demands]

/-- The demands that are the first of their names are those of the usages that are the first of
    their derived names. -/
theorem map_some_firstBy_demands :
    (firstBy Multiplexer.name (g.demands suffix es)).map some =
      (firstBy (g.derivedName? suffix) es).map fun e => (g.demanded suffix e).toOption := by
  have hkey : ∀ e ∈ es, g.derivedName? suffix e =
      (Option.map Multiplexer.name ∘ fun e => (g.demanded suffix e).toOption) e := by
    intro e he
    obtain ⟨m, hm⟩ := hall e he
    rw [derivedName?_of_demanded hm, Function.comp_apply, hm]
    rfl
  calc (firstBy Multiplexer.name (g.demands suffix es)).map some
      = (firstBy (some ∘ Multiplexer.name) (g.demands suffix es)).map some := by
        rw [firstBy_comp fun _ _ => Option.some.inj]
    _ = firstBy (Option.map Multiplexer.name) ((g.demands suffix es).map some) := by
        rw [firstBy_map]
        rfl
    _ = firstBy (Option.map Multiplexer.name) (es.map fun e => (g.demanded suffix e).toOption) := by
        rw [map_some_demands hall]
    _ = (firstBy (g.derivedName? suffix) es).map fun e => (g.demanded suffix e).toOption := by
        rw [firstBy_map, firstBy_congr hkey]

theorem length_arena_demands :
    (arena (g.demands suffix es)).length = (firstBy (g.derivedName? suffix) es).length := by
  have hlength := congrArg List.length (map_some_firstBy_demands hall)
  rw [List.length_map, List.length_map] at hlength
  rw [length_arena, hlength]

/-- The multiplexer number `i` is made for the usage number `i` of those that are the first of
    their derived names. -/
theorem getElem?_arena_demands {i : Nat} {e : Eligible}
    (he : (firstBy (g.derivedName? suffix) es)[i]? = some e) :
    ∃ m, (arena (g.demands suffix es))[i]? = some m ∧ m.id = .ofIndex i ∧
      g.MadeFor suffix e m := by
  obtain ⟨m, hm⟩ := hall e (mem_of_mem_firstBy (List.mem_of_getElem? he))
  have hat := congrArg (fun ms => ms[i]?) (map_some_firstBy_demands hall)
  rw [List.getElem?_map, List.getElem?_map, he, Option.map_some, hm, Option.map_eq_some_iff] at hat
  obtain ⟨m', hm', heq⟩ := hat
  cases heq
  refine ⟨{ m with id := .ofIndex i }, ?_, rfl, (madeFor_of_demanded hm).renumber _⟩
  rw [arena, getElem?_numbered, hm', Option.map_some]

/-- The multiplexer of a derived name is made for the first usage of that name. -/
theorem exists_madeFor_first {e : Eligible} (he : e ∈ es) :
    ∃ first m, es.find? (g.derivedName? suffix · == g.derivedName? suffix e) = some first ∧
      m ∈ arena (g.demands suffix es) ∧ g.MadeFor suffix first m ∧
      g.derivedName? suffix e = some m.name := by
  obtain ⟨first, hfirst⟩ : ∃ first,
      es.find? (g.derivedName? suffix · == g.derivedName? suffix e) = some first := by
    rw [← Option.isSome_iff_exists, List.find?_isSome]
    exact ⟨e, he, by rw [beq_self_eq_true]⟩
  have hkey : g.derivedName? suffix first = g.derivedName? suffix e := by
    have hfound := List.find?_some hfirst
    exact beq_iff_eq.1 hfound
  have hmem : first ∈ firstBy (g.derivedName? suffix) es := by
    rw [← find?_firstBy] at hfirst
    exact List.mem_of_find?_eq_some hfirst
  obtain ⟨i, hi⟩ := List.getElem?_of_mem hmem
  obtain ⟨m, hm, _, hmade⟩ := getElem?_arena_demands hall hi
  refine ⟨first, m, hfirst, List.mem_of_getElem? hm, hmade, ?_⟩
  obtain ⟨t, ht, _, hname, _⟩ := hmade.target
  rw [← hkey, derivedName?, hmade.wrapped, Option.bind_some, ht, Option.map_some, hname]

/-- An eligible usage is represented by the multiplexer of its derived name. -/
theorem multiplexerFor?_served_of_name (hnodup : (es.map (·.candidate.usage)).Nodup)
    (finished : List DocumentId) {e : Eligible} (he : e ∈ es) {m : Multiplexer}
    (hm : m ∈ arena (g.demands suffix es)) (hname : g.derivedName? suffix e = some m.name) :
    (g.served finished (g.demands suffix es)).multiplexerFor? e.candidate.usage = some m.id := by
  obtain ⟨m', hm'⟩ := hall e he
  have hmem : m' ∈ g.demands suffix es := mem_demands.2 ⟨e, he, hm'⟩
  have husages := hnodup.sublist (usages_demands_sublist g suffix es)
  have hshared : sharedBy? (g.demands suffix es) m'.name = some m := by
    rw [derivedName?_of_demanded hm', Option.some.injEq] at hname
    rw [hname, sharedBy?_of_mem hm]
  rw [multiplexerFor?_served husages, ← (madeFor_of_demanded hm').usage]
  exact lookup_bindings_of_mem husages hmem hshared

end

/-- A usage that is not eligible is not represented. -/
theorem multiplexerFor?_served_eq_none (hnodup : (es.map (·.candidate.usage)).Nodup)
    (finished : List DocumentId) {ref : UsageRef} (href : ref ∉ es.map (·.candidate.usage)) :
    (g.served finished (g.demands suffix es)).multiplexerFor? ref = none := by
  have hsub := usages_demands_sublist g suffix es
  rw [multiplexerFor?_served (hnodup.sublist hsub)]
  exact lookup_bindings_of_not_mem fun hmem => href (hsub.subset hmem)

end Graph

/-! ## Reconciling a family -/

section

variable {tree : ImportTree} {suffix : String} {k n : Nat} {g g' : Graph}

/-- What reconciling makes of a family that was linked is the family with the demands of all its
    eligible usages met. -/
theorem served_of_reconcile (ha : (Graph.ofTree tree).Addressable)
    (hl : link.apply (Graph.ofTree tree) = (.ok k, g))
    (hs : (reconcile suffix).apply g = (.ok n, g')) :
    ∃ documents, g.Postorder [.ofIndex 0] documents ∧
      documents.Perm (g.documents.toList.map (·.id)) ∧
      (∀ e ∈ g.eligible documents, ∃ m, g.demanded suffix e = .ok m) ∧
      g' = g.served documents (g.demands suffix (g.eligible documents)) ∧
      (arena (g.demands suffix (g.eligible documents))).length = n := by
  obtain ⟨h, haddressable, hunshared, hne⟩ := reconcilable_of_link ha hl
  obtain ⟨documents, hpost, hperm, hruns⟩ :=
    Graph.runs_reconcile h haddressable hunshared hne
  have hstart : g.served [] (g.demands suffix (g.eligible [])) = g := Graph.served_nil hunshared
  rw [← hstart] at hs
  obtain ⟨hok, hg', hcount⟩ := hruns.of_ok hs
  rw [List.nil_append] at hg' hcount
  refine ⟨documents, hpost, hperm, fun e he => ?_, hg', ?_⟩
  · obtain ⟨d, hd, hed⟩ := List.mem_flatMap.1 he
    obtain ⟨document, hdocument, hdh⟩ := List.mem_flatMap.1 hd
    have hnone := List.findSome?_eq_none_iff.1 (hok document hdocument) e
      (List.mem_flatMap.2 ⟨d, by rwa [List.flatMap_singleton], hed⟩)
    rw [Graph.refusal?] at hnone
    cases hm : g.demanded suffix e with
    | error failure =>
      rw [hm] at hnone
      cases hnone
    | ok m => exact ⟨m, rfl⟩
  · rw [hcount]
    exact Nat.zero_add n

/-- When a family that was linked is reconciled, its eligible usages are taken document by document,
    each document once and after its imports. The multiplexers are those made for the usages that
    are the first of their derived names, in that order, and the result is their number. An eligible
    usage is represented by the multiplexer of its derived name, and no other usage is represented.
    Every document lists the multiplexers that it owns, in strict order of names. -/
theorem multiplexers_of_reconcile (ha : (Graph.ofTree tree).Addressable)
    (hl : link.apply (Graph.ofTree tree) = (.ok k, g))
    (hs : (reconcile suffix).apply g = (.ok n, g')) :
    ∃ documents, g.Postorder [.ofIndex 0] documents ∧
      documents.Perm (g.documents.toList.map (·.id)) ∧
      (∀ e, e ∈ g.eligible documents ↔ ∃ d ∈ g.declarations, ∃ slot u,
        d.definition.usage? slot = some u ∧ d.eligibleAt slot u = some e) ∧
      n = (firstBy (g.derivedName? suffix) (g.eligible documents)).length ∧
      g'.multiplexers.size = n ∧
      (∀ i e, (firstBy (g.derivedName? suffix) (g.eligible documents))[i]? = some e →
        ∃ m, g'.multiplexers[i]? = some m ∧ m.id = .ofIndex i ∧ g.MadeFor suffix e m) ∧
      (∀ e ∈ g.eligible documents, ∃ m, g'.multiplexerFor? e.candidate.usage = some m.id ∧
        g'.multiplexer m.id = .ok m ∧ g.derivedName? suffix e = some m.name) ∧
      (∀ ref, ref ∉ (g.eligible documents).map (·.candidate.usage) →
        g'.multiplexerFor? ref = none) ∧
      ∀ d ∈ g'.documents, ∃ own : List Multiplexer, d.multiplexers = own.map (·.id) ∧
        (∀ m, m ∈ own ↔ m ∈ g'.multiplexers ∧ m.owner = d.id) ∧
        own.Pairwise fun a b => a.name < b.name := by
  obtain ⟨h, haddressable, _⟩ := reconcilable_of_link ha hl
  obtain ⟨documents, hpost, hperm, hall, rfl, hn⟩ := served_of_reconcile ha hl hs
  have hnodup := Graph.nodup_eligible h.arranged hperm
  have hcap : (arena (g.demands suffix (g.eligible documents))).length ≤ maxIndex + 1 :=
    Nat.le_trans (Graph.length_arena_le g suffix _) haddressable.2
  refine ⟨documents, hpost, hperm, fun e => ?_, ?_, ?_, fun i e he => ?_, fun e he => ?_,
    fun ref href => ?_, fun d hd => ?_⟩
  · rw [Graph.mem_eligible_iff h.arranged hperm]
    refine exists_congr fun d => and_congr_right fun _ => ?_
    rw [Declaration.eligible, List.mem_filterMap, Prod.exists]
    simp only [Definition.mem_usages_iff]
  · rw [← hn, Graph.length_arena_demands hall]
  · rw [← hn]
    exact List.size_toArray
  · obtain ⟨m, hm, hid, hmade⟩ := Graph.getElem?_arena_demands hall he
    refine ⟨m, ?_, hid, hmade⟩
    rw [Graph.served, List.getElem?_toArray, hm]
  · obtain ⟨_, m, _, hm, _, hname⟩ := Graph.exists_madeFor_first hall he
    have hfor := Graph.multiplexerFor?_served_of_name hall hnodup documents he hm hname
    exact ⟨m, hfor, Graph.multiplexer_served hcap hm, hname⟩
  · exact Graph.multiplexerFor?_served_eq_none hnodup documents href
  · obtain ⟨d, hdoc, rfl⟩ := Array.mem_map.1 hd
    have hfinished : d.id ∈ documents :=
      hperm.mem_iff.2 (List.mem_map.2 ⟨d, Array.mem_toList_iff.2 hdoc, rfl⟩)
    refine ⟨_, rfl, fun m => ?_, pairwise_ownMultiplexers _ hfinished⟩
    rw [mem_ownMultiplexers, Graph.served, List.mem_toArray]
    rfl

end

/-- Two files that group the same field, one of which imports the other. -/
def sharedGroup : Disk := .ofSights
  [(⟨"a"⟩, .file (some ("<METASCHEMA><import href=\"b\"/><define-assembly name=\"q\"><model>" ++
      "<field ref=\"p\"><group-as name=\"g\"/></field></model></define-assembly></METASCHEMA>"))),
    (⟨"b"⟩, .file (some ("<METASCHEMA><define-field name=\"p\"/>" ++
      "<define-assembly name=\"r\"><model>" ++
      "<field ref=\"p\"><group-as name=\"h\"/></field></model></define-assembly></METASCHEMA>")))]

/-- The family has one multiplexer, made for the first of the two usages and named after the field
    that both use. -/
theorem multiplexers_sharedGroup :
    ∃ tree c' k g n g', (resolve sharedGroup [] ⟨"a"⟩ ⟨""⟩).run.run {} = (.ok tree, c') ∧
      link.apply (Graph.ofTree tree) = (.ok k, g) ∧ (reconcile "s").apply g = (.ok n, g') ∧
      n = 1 ∧ g'.multiplexers.size = n ∧
      ∃ documents, g.Postorder [.ofIndex 0] documents ∧
        n = (firstBy (g.derivedName? "s") (g.eligible documents)).length ∧
        ∃ e m, (firstBy (g.derivedName? "s") (g.eligible documents))[0]? = some e ∧
          g'.multiplexers[0]? = some m ∧ g.MadeFor "s" e m ∧ m.name = "ps" := by
  have hkey : succeeds (fun tree _ => decide (Graph.ofTree tree).Addressable &&
        succeeds (fun _ g => succeeds (fun n g' => decide (n = 1 ∧
            g'.multiplexers.toList.map (·.name) = ["ps"])) ((reconcile "s").apply g))
          (link.apply (Graph.ofTree tree)))
      ((resolve sharedGroup [] ⟨"a"⟩ ⟨""⟩).run.run {}) = true := by
    decide +kernel
  obtain ⟨tree, c', hr, hcheck⟩ := exists_of_succeeds hkey
  obtain ⟨ha, hlink⟩ := Bool.and_eq_true_iff.1 hcheck
  obtain ⟨k, g, hl, hreconcile⟩ := exists_of_succeeds hlink
  obtain ⟨n, g', hs, hfacts⟩ := exists_of_succeeds hreconcile
  obtain ⟨hn, hnames⟩ := of_decide_eq_true hfacts
  obtain ⟨documents, hpost, _, _, hcount, hsize, hmade, _⟩ :=
    multiplexers_of_reconcile (of_decide_eq_true ha) hl hs
  obtain ⟨e, he⟩ : ∃ e, (firstBy (g.derivedName? "s") (g.eligible documents))[0]? = some e :=
    ⟨_, List.getElem?_eq_getElem (by omega)⟩
  obtain ⟨m, hm, _, hmadeFor⟩ := hmade 0 e he
  refine ⟨tree, c', k, g, n, g', hr, hl, hs, hn, hsize, documents, hpost, hcount, e, m, he, hm,
    hmadeFor, ?_⟩
  have hname := congrArg (·[0]?) hnames
  simpa [hm] using hname

end SchemaFamily
