import SchemaFamily.Proofs.Family.InRange

/-
  Why reconciling fails. A pass `Ends` as told when it fails for the fault that it is told to have,
  or for none, and keeps what is asked of the graph either way. On a graph that differs from a
  linked one in dependencies and multiplexers alone every demand is met (`ends_meetDemand`), whether
  its name has a multiplexer yet or not, so a usage is refused for what it demands of the linked one
  (`ends_reconcileUsage`). Hence reconciling fails for the first usage by key, documents after their
  imports, of what names no key, however often the family was reconciled before
  (`missingIndexKey_iff_of_reconcile`).
-/

namespace SchemaFamily

/-! ## Passes that fail as told -/

namespace Pass

variable {α β : Type}

/-- Why the pass fails on a graph, if it does. -/
def failure? (p : Pass α) (g : Graph) : Option Failure :=
  match p.apply g with
  | (.error failure, _) => some failure
  | (.ok _, _) => none

theorem failure?_eq_some_iff {p : Pass α} {g : Graph} {failure : Failure} :
    p.failure? g = some failure ↔ ∃ g', p.apply g = (.error failure, g') := by
  rw [failure?]
  rcases p.apply g with ⟨failure' | a, g'⟩ <;> simp

/-- On a graph as `P` says the pass fails for the fault, if there is one, and else not at all; the
    graph after it is as `P` says either way. -/
def Ends (P : Graph → Prop) (fault? : Option Failure) (p : Pass α) : Prop :=
  ∀ g, P g → p.failure? g = fault? ∧ P (p.apply g).2

namespace Ends

variable {P : Graph → Prop} {fault? later? : Option Failure}

theorem pure (a : α) : Ends P none (Pure.pure a : Pass α) := fun _ hg => ⟨rfl, hg⟩

theorem of_ok {p : Pass α} (h : ∀ g, P g → ∃ a g', p.apply g = (.ok a, g') ∧ P g') :
    Ends P none p := by
  intro g hg
  obtain ⟨a, g', happly, hg'⟩ := h g hg
  rw [failure?, happly]
  exact ⟨rfl, hg'⟩

theorem ask {f : Graph → Except Dangling α} {q : α → Pass β} {a : α}
    (hf : ∀ g, P g → f g = .ok a) (hq : Ends P fault? (q a)) :
    Ends P fault? (Pass.ask f >>= q) := by
  intro g hg
  rw [failure?, apply_bind_ask (hf g hg)]
  exact hq g hg

theorem bind {p : Pass α} {q : α → Pass β} (hp : Ends P fault? p) (hq : ∀ a, Ends P later? (q a)) :
    Ends P (fault?.or later?) (p >>= q) := by
  intro g hg
  obtain ⟨rfl, hafter⟩ := hp g hg
  rw [failure?, failure?, apply_bind]
  rcases h : p.apply g with ⟨failure | a, g'⟩
  · rw [h] at hafter
    exact ⟨rfl, hafter⟩
  · rw [h] at hafter
    exact hq a g' hafter

/-- A pass on each of several things fails for the first fault that one of them has. -/
theorem total {p : α → Pass Nat} {fault? : α → Option Failure} {as : List α}
    (hp : ∀ a ∈ as, Ends P (fault? a) (p a)) : Ends P (as.findSome? fault?) (Pass.total p as) := by
  induction as with
  | nil => exact pure 0
  | cons a later ih =>
    rw [List.forall_mem_cons] at hp
    have hsum := bind hp.1 fun n => bind (ih hp.2) fun m => pure (n + m)
    rw [Option.or_none] at hsum
    rw [List.findSome?_cons]
    cases hf : fault? a with
    | none => rwa [hf, Option.none_or] at hsum
    | some failure => rwa [hf, Option.some_or] at hsum

end Ends

end Pass

/-! ## Graphs that are being reconciled -/

namespace Graph

/-- Everything that the graph holds numbers something, and but for dependencies and multiplexers it
    is `g₀`. -/
structure Underway (g₀ g : Graph) : Prop where
  steady : g₀.Steady g
  core : g₀.SameCore g

variable {g₀ : Graph}

theorem within_congr {g : Graph} (h : g₀.SameCore g) {m : Multiplexer} (hm : m.Within g₀) :
    m.Within g := by
  refine ⟨?_, ?_⟩
  · rw [← h.sameOutline.size_documents]
    exact hm.owner
  · rw [h.declarations]
    exact hm.wrapped

theorem ends_meetDemand {m : Multiplexer} (hm : m.Within g₀) (husage : g₀.HasUsage m.usage) :
    Pass.Ends g₀.Underway none (meetDemand m) := by
  refine .of_ok fun g hg => ?_
  obtain ⟨n, g', hmeet, hsteady⟩ :=
    hg.steady.meetDemand (within_congr hg.core hm) (husage.congr hg.core.sameOutline)
  have hcore := keepsCore_meetDemand m g
  rw [hmeet] at hcore
  exact ⟨n, g', hmeet, hsteady, hg.core.trans hcore⟩

theorem ends_reconcileUsage (suffix : String) {e : Eligible} (he : e.candidate.Within g₀) :
    Pass.Ends g₀.Underway (g₀.refusal? suffix e)
      (reconcileUsage suffix e.document e.candidate) := by
  intro g hg
  rw [Pass.failure?, apply_reconcileUsage, hg.core.demanded, refusal?]
  cases hd : g₀.demanded suffix e with
  | error failure => exact ⟨rfl, hg⟩
  | ok m =>
    have husage := he.usage
    rw [← (madeFor_of_demanded hd).usage] at husage
    exact ends_meetDemand (within_of_demanded hd) husage g hg

theorem ends_reconcileDocument (suffix : String) (h : g₀.Arranged) (hs : g₀.Steady g₀)
    {document : DocumentId} (hlt : document.index < g₀.documents.size) :
    Pass.Ends g₀.Underway ((g₀.eligible [document]).findSome? (g₀.refusal? suffix))
      (reconcileDocument suffix document) := by
  have hlisted : g₀.eligible [document] =
      ((g₀.holdings document).flatMap Declaration.candidates).map (⟨document, ·⟩) := by
    rw [eligible_singleton h hlt, List.map_eq_flatMap]
  refine .ask (fun g hg => hg.core.candidates_eq h hlt) ?_
  rw [hlisted, List.findSome?_map, ← Option.or_none (o := List.findSome? _ _)]
  refine .bind (.total fun c hc => ?_) fun made => ?_
  · obtain ⟨t, ht, hct⟩ := List.mem_flatMap.1 hc
    have hmem := ((h.mem_holdings hlt).1 ht).1
    exact ends_reconcileUsage suffix (e := ⟨document, c⟩) (hs.of_mem_candidates hmem hct)
  · have hsorted : Pass.Ends g₀.Underway none (Pass.change (·.sortMultiplexers document)) := by
      refine .of_ok fun g hg => ?_
      obtain ⟨g', hsort, hsteady⟩ := hg.steady.sortMultiplexers hlt
      refine ⟨(), g', ?_, hsteady, hg.core.trans (sameCore_sortMultiplexers hsort)⟩
      rw [Pass.apply_change, hsort]
    exact hsorted.bind fun _ => .pure made

/-- Reconciling fails for the first usage that is refused, documents after their imports. -/
theorem exists_ends_reconcile (h : g₀.InOrder) (hs : g₀.Steady g₀) (hne : g₀.documents.size ≠ 0) :
    ∃ documents, g₀.Postorder [.ofIndex 0] documents ∧
      documents.Perm (g₀.documents.toList.map (·.id)) ∧ ∀ suffix, Pass.Ends g₀.Underway
        ((g₀.eligible documents).findSome? (g₀.refusal? suffix)) (reconcile suffix) := by
  obtain ⟨documents, _, hpostorder, hperm⟩ := postorder_of_spans h.spans
  have hids : documents.Perm (g₀.documents.toList.map (·.id)) := by
    rw [h.arranged.ids_eq, List.range_eq_range']
    exact hperm
  refine ⟨documents, hpostorder, hids, fun suffix g hg => ?_⟩
  have hroot : g.root? = some (.ofIndex 0) := by
    rw [root?, if_neg]
    simpa [Array.isEmpty, ← hg.core.sameOutline.size_documents] using hne
  have hpost : ∀ g, g₀.Underway g → g.postorder (.ofIndex 0) = .ok documents := by
    intro g hg
    obtain ⟨out, hpost, hout, _⟩ :=
      postorder_of_spans (h.congr hg.core.sameOutline hg.core.sameImports).spans
    rwa [← hout.unique (hpostorder.congr hg.core.sameImports)]
  have htotal : Pass.Ends g₀.Underway ((g₀.eligible documents).findSome? (g₀.refusal? suffix))
      (Pass.ask (·.postorder (.ofIndex 0)) >>= Pass.total (reconcileDocument suffix)) := by
    rw [← findSome?_eligible]
    refine .ask hpost (.total fun document hm => ?_)
    exact ends_reconcileDocument suffix h.arranged hs
      (h.arranged.mem_ids_iff.1 (hids.mem_iff.1 hm))
  rw [Pass.failure?, reconcile, Pass.apply_bind_of_ok (Pass.apply_get g), hroot]
  exact htotal g hg

/-- The graph is what reconciling another makes of it, any number of times and with any suffixes,
    whether it succeeds or fails. -/
inductive Reconciles (g : Graph) : Graph → Prop where
  | refl : g.Reconciles g
  | again {g' : Graph} (before : g.Reconciles g') (suffix : String) :
      g.Reconciles ((reconcile suffix).apply g').2

theorem Reconciles.underway {documents : List DocumentId}
    (hends : ∀ suffix, Pass.Ends g₀.Underway
      ((g₀.eligible documents).findSome? (g₀.refusal? suffix)) (reconcile suffix))
    (hs : g₀.Steady g₀) {g : Graph} (h : g₀.Reconciles g) : g₀.Underway g := by
  induction h with
  | refl => exact ⟨hs, .refl g₀⟩
  | again _ suffix ih => exact (hends suffix _ ih).2

end Graph

/-! ## A family that was linked -/

section

variable {disk : Disk} {entities : Xml.EntityMap} {p base : Path} {c c' : Cache}
  {tree : ImportTree} {k : Nat} {g : Graph}

/-- A usage of a linked family needs a multiplexer and is unkeyed just when it stands in a model,
    is grouped by key, and uses what names no key. -/
theorem exists_unkeyed_iff {g : Graph} (h : g.Arranged) {documents : List DocumentId}
    (hperm : documents.Perm (g.documents.toList.map (·.id))) :
    (∃ e ∈ g.eligible documents, ∃ t, g.Unkeyed e t) ↔
      ∃ d ∈ g.declarations, ∃ slot u group, d.definition.usage? slot = some u ∧
        slot.isModel = true ∧ u.groupAs = some group ∧ group.inJson = .byKey ∧
        ∃ t ∈ g.declarations, u.declaration? = some t.id ∧ t.definition.jsonKey = none := by
  constructor
  · rintro ⟨e, he, t, hu⟩
    obtain ⟨d, hd, hed⟩ := (Graph.mem_eligible_iff h hperm).1 he
    obtain ⟨⟨slot, u⟩, hmem, hat⟩ := List.mem_filterMap.1 hed
    obtain ⟨hmodel, group, hgroup, _, rfl⟩ := Declaration.eligibleAt_eq_some_iff.1 hat
    exact ⟨d, hd, slot, u, group, Definition.mem_usages_iff.1 hmem, hmodel, hgroup, hu.byKey, t,
      hu.mem, hu.target, hu.jsonKey⟩
  · rintro ⟨d, hd, slot, u, group, husage, hmodel, hgroup, hkeyed, t, ht, htarget, hkeyless⟩
    have hat : d.eligibleAt slot u = some ⟨d.owner, ⟨⟨d.id, slot⟩, d.name, u, group⟩⟩ := by
      refine Declaration.eligibleAt_eq_some_iff.2 ⟨hmodel, group, hgroup, ?_, rfl⟩
      rw [hkeyed]
      decide
    have hed : _ ∈ d.eligible :=
      List.mem_filterMap.2 ⟨(slot, u), Definition.mem_usages_iff.2 husage, hat⟩
    exact ⟨_, (Graph.mem_eligible_iff h hperm).2 ⟨d, hd, hed⟩, t, hkeyed, htarget, ht, hkeyless⟩

/-- Reconciling a family that was linked fails if and only if a usage in a model is grouped by key
    and uses a declaration that names no key, and then it tells of the first such usage: documents
    after their imports, in each its declarations as it owns them, in each its usages. That holds
    whether or not there is a multiplexer of the name that is needed: the family may have been
    reconciled before, with any suffixes. Handles are 32 bits wide, so a family is `Addressable`
    unless it has more documents or declarations than there are handles, and shares them. -/
theorem missingIndexKey_iff_of_reconcile (hc : c.ReadFromTexts)
    (hr : (resolve disk entities p base).run.run c = (.ok tree, c'))
    (ha : (Graph.ofTree tree).Addressable) (hl : link.apply (Graph.ofTree tree) = (.ok k, g)) :
    ∃ documents, g.Postorder [.ofIndex 0] documents ∧
      documents.Perm (g.documents.toList.map (·.id)) ∧
      ∀ g', g.Reconciles g' → ∀ suffix,
        ((∃ failure g'', (reconcile suffix).apply g' = (.error failure, g'')) ↔
          ∃ d ∈ g.declarations, ∃ slot u group, d.definition.usage? slot = some u ∧
            slot.isModel = true ∧ u.groupAs = some group ∧ group.inJson = .byKey ∧
            ∃ t ∈ g.declarations, u.declaration? = some t.id ∧ t.definition.jsonKey = none) ∧
        ∀ failure, (∃ g'', (reconcile suffix).apply g' = (.error failure, g'')) ↔
          ∃ before e after, g.eligible documents = before ++ e :: after ∧
            (∀ earlier ∈ before, ∀ t, ¬ g.Unkeyed earlier t) ∧
            ∃ t, g.Unkeyed e t ∧ ∃ owner ∈ g.documents, owner.id = e.document ∧
              failure = .missingIndexKey
                (owner.siteOf e.candidate.holder e.candidate.value.position) t.name
                e.candidate.group.name := by
  obtain ⟨h, _, _, hne⟩ := reconcilable_of_link ha hl
  have hsteady : g.Steady g := by
    have hlinked := (safe_link (Graph.ofTree tree) _ (steady_of_resolve hc hr)).2 _ _ hl
    exact ⟨hlinked.sound, hlinked.indexed, .refl g⟩
  obtain ⟨documents, hpost, hperm, hends⟩ := Graph.exists_ends_reconcile h hsteady hne
  refine ⟨documents, hpost, hperm, fun g' hg' suffix => ?_⟩
  have hfails := (hends suffix g' (hg'.underway hends hsteady)).1
  have haccepted := fun e (he : e ∈ g.eligible documents) =>
    refusal?_eq_none_iff suffix hc hr ha hl hperm he
  refine ⟨?_, fun failure => ?_⟩
  · have hnone : (g.eligible documents).findSome? (g.refusal? suffix) = none ↔
        ∀ e ∈ g.eligible documents, ∀ t, ¬ g.Unkeyed e t :=
      List.findSome?_eq_none_iff.trans (forall₂_congr haccepted)
    simp only [← exists_unkeyed_iff h.arranged hperm, ← Pass.failure?_eq_some_iff, hfails]
    rw [← Option.ne_none_iff_exists', Ne, hnone]
    simp only [not_forall, not_not, exists_prop]
  · rw [← Pass.failure?_eq_some_iff, hfails, List.findSome?_eq_some_iff]
    refine exists_congr fun before => exists_congr fun e => exists_congr fun after =>
      and_congr_right fun hsplit => ?_
    have hmem : ∀ {e'}, e' ∈ before ++ e :: after → e' ∈ g.eligible documents :=
      fun he' => hsplit ▸ he'
    rw [and_comm, refusal?_eq_some_iff suffix hc hr ha hl hperm (hmem (by simp))]
    refine and_congr_left fun _ => forall₂_congr fun e' he' => ?_
    exact haccepted e' (hmem (List.mem_append_left _ he'))

end

/-- A file in which a field without a key is used twice, and grouped by key the second time. -/
def keyedLater : Disk := .ofSights
  [(⟨"a"⟩, .file (some ("<METASCHEMA><define-field name=\"p\"/><define-assembly name=\"q\">" ++
      "<model><field ref=\"p\"><group-as name=\"g\" in-json=\"SINGLETON_OR_ARRAY\"/></field>\n" ++
      "<field ref=\"p\"><group-as name=\"h\" in-json=\"BY_KEY\"/></field></model>" ++
      "</define-assembly></METASCHEMA>")))]

/-- The second usage is refused although the first has given its name to a multiplexer, and is so
    again when the multiplexer is there from the start. -/
theorem missingIndexKey_keyedLater :
    ∃ tree c' k g, (resolve keyedLater [] ⟨"a"⟩ ⟨""⟩).run.run {} = (.ok tree, c') ∧
      link.apply (Graph.ofTree tree) = (.ok k, g) ∧
      (((reconcile "s").apply g).2.multiplexerNamed? "ps").isSome = true ∧
      (∃ g', (reconcile "s").apply ((reconcile "s").apply g).2 =
        (.error (.missingIndexKey ⟨⟨"a"⟩, some 2, "a", "q"⟩ "p" "h"), g')) ∧
      ∃ e t, g.Unkeyed e t ∧ e.candidate.group.name = "h" ∧ t.name = "p" := by
  have hkey : succeeds (fun tree _ => decide (Graph.ofTree tree).Addressable &&
        succeeds (fun _ g => (((reconcile "s").apply g).2.multiplexerNamed? "ps").isSome &&
          ((reconcile "s").apply ((reconcile "s").apply g).2).1 ==
            .error (.missingIndexKey ⟨⟨"a"⟩, some 2, "a", "q"⟩ "p" "h"))
          (link.apply (Graph.ofTree tree)))
      ((resolve keyedLater [] ⟨"a"⟩ ⟨""⟩).run.run {}) = true := by
    decide +kernel
  obtain ⟨tree, c', hr, hcheck⟩ := exists_of_succeeds hkey
  obtain ⟨ha, hlink⟩ := Bool.and_eq_true_iff.1 hcheck
  obtain ⟨k, g, hl, hchecked⟩ := exists_of_succeeds hlink
  rw [Bool.and_eq_true, beq_iff_eq] at hchecked
  obtain ⟨hnamed, hfailure⟩ := hchecked
  obtain ⟨documents, _, _, hfails⟩ :=
    missingIndexKey_iff_of_reconcile Cache.readFromTexts_empty hr (of_decide_eq_true ha) hl
  have hagain : g.Reconciles ((reconcile "s").apply g).2 := .again .refl "s"
  have happly : (reconcile "s").apply ((reconcile "s").apply g).2 = (_, _) :=
    Prod.ext hfailure rfl
  obtain ⟨_, e, _, _, _, t, hu, _, _, _, heq⟩ := ((hfails _ hagain "s").2 _).1 ⟨_, happly⟩
  obtain ⟨_, hname, hgroup⟩ := Failure.missingIndexKey.inj heq
  exact ⟨tree, c', k, g, hr, hl, hnamed, ⟨_, happly⟩, e, t, hu, hgroup.symm, hname.symm⟩

end SchemaFamily
