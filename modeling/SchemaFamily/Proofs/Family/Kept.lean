import SchemaFamily.Family.Compile
import SchemaFamily.Proofs.Family.Changes
import SchemaFamily.Proofs.Family.Eligible

/-
  What is kept. Whatever becomes of a pass, the graph before and the graph after it are related as
  all of its steps relate graphs (`Keeps.link`, `Keeps.reconcile`). So reconciling never changes the
  core of a graph (`keepsCore_reconcile`), and neither linking nor reconciling ever changes its
  outline (`sameOutline_finishFamily`): what a compiled family tells about its handles holds of the
  family as it was read.
-/

namespace SchemaFamily

namespace Graph

theorem sameCore_modify (g : Graph) (i : Nat) {f : Document → Document}
    (hf : ∀ d, (f d).core = d.core) : g.SameCore { g with documents := g.documents.modify i f } :=
  ⟨(map_modify_of_same hf _ _).symm, rfl⟩

theorem sameCore_registerDependency {g g' : Graph} {document owner : DocumentId} {name : String}
    {dependency : Dependency}
    (h : (g.registerDependency document owner name dependency).map (·.1) = .ok g') :
    g.SameCore g' := by
  rcases eq_of_registerDependency h with rfl | ⟨_, _, rfl⟩
  · exact .refl _
  · exact g.sameCore_modify _ fun _ => rfl

theorem outline_resolve (d : Declaration) (slot : Slot) (t : DeclarationId) :
    ({ d with definition := d.definition.modifyUsage slot (·.resolve t) } : Declaration).outline =
      d.outline := by
  simp only [Declaration.outline, Definition.modifyUsage_eq_mapSlots,
    Definition.mapUsages_eq_mapSlots, Definition.mapSlots_mapSlots]
  refine congrArg (fun definition => { d with definition }) ?_
  refine Definition.mapSlots_congr fun su _ => ?_
  split
  · exact Usage.forget_resolve _ _
  · rfl

theorem sameOutline_modifyUsage (g : Graph) (ref : UsageRef) (t : DeclarationId) :
    g.SameOutline (g.modifyUsage ref (·.resolve t)) := by
  have hdeclarations := map_modify_of_same (fun d => outline_resolve d ref.slot t) g.declarations
    ref.declaration.index
  exact ⟨rfl, hdeclarations.symm⟩

theorem sameCore_bindUsage (g : Graph) (ref : UsageRef) (id : MultiplexerId) :
    g.SameCore (g.bindUsage ref id) := by
  unfold bindUsage
  split
  · exact .refl g
  · exact ⟨rfl, rfl⟩

theorem sameCore_addMultiplexer (g : Graph) (build : MultiplexerId → Multiplexer) :
    g.SameCore (g.addMultiplexer build).1 := by
  rcases g.addMultiplexer_cases build rfl with hadd | ⟨_, hadd⟩
  · rw [hadd]
    exact ⟨rfl, rfl⟩
  · rw [hadd]
    have hcore := g.sameCore_modify (build (.ofIndex g.multiplexers.size)).owner.index
      (f := fun d => { d with multiplexers := d.multiplexers ++ [.ofIndex g.multiplexers.size] })
      fun _ => rfl
    exact ⟨hcore.documents, hcore.declarations⟩

theorem sameCore_sortMultiplexers {g g' : Graph} {id : DocumentId}
    (h : g.sortMultiplexers id = .ok g') : g.SameCore g' := by
  obtain ⟨_, _, _, _, rfl⟩ := eq_of_sortMultiplexers h
  exact g.sameCore_modify _ fun _ => rfl

end Graph

open Pass

/-! ## What a pass keeps because its steps do -/

namespace Pass.Keeps

variable {R : Graph → Graph → Prop} (refl : ∀ g, R g g)
  (trans : ∀ g g' g'', R g g' → R g' g'' → R g g'')

include refl trans

section

variable (register : ∀ {g g' : Graph} {document owner : DocumentId} {name : String}
    {target : DeclarationId},
    (g.registerDependency document owner name (.declaration target)).map (·.1) = .ok g' → R g g')
  (resolve : ∀ (g : Graph) (ref : UsageRef) (target : DeclarationId),
    R g (g.modifyUsage ref (·.resolve target)))

include register resolve

/-- Linking a document registers declarations as dependencies and resolves names. -/
theorem linkDocument (document : DocumentId) : Keeps R (SchemaFamily.linkDocument document) := by
  refine .bind trans (.ask refl _) fun owner => .total refl trans (fun declaration => ?_) _
  refine .bind trans (.ask refl _) fun holder => .total refl trans (fun p => ?_) _
  refine .bind trans (.ask refl _) fun found => ?_
  cases found with
  | none =>
    exact .bind trans (.ask refl _) fun owner => .bind trans (.ask refl _) fun holder =>
      .throw refl _
  | some target =>
    refine .bind trans (.ask refl _) fun found => ?_
    refine .bind trans (.change refl fun g g' h => register h) fun _ => ?_
    exact .bind trans (fun g => resolve g _ target) fun _ => .pure refl 1

theorem link : Keeps R SchemaFamily.link :=
  .bind trans (.get refl) fun _ => .total refl trans (linkDocument refl trans register resolve) _

end

variable (register : ∀ {g g' : Graph} {document owner : DocumentId} {name : String}
    {id : MultiplexerId},
    (g.registerDependency document owner name (.multiplexer id)).map (·.1) = .ok g' → R g g')
  (bindUsage : ∀ (g : Graph) (ref : UsageRef) (id : MultiplexerId), R g (g.bindUsage ref id))
  (addMultiplexer : ∀ (g : Graph) (build : MultiplexerId → Multiplexer),
    g.multiplexerNamed? (build (.ofIndex g.multiplexers.size)).name = none →
      R g (g.addMultiplexer build).1)

include register bindUsage addMultiplexer

/-- A demand is met by a multiplexer that there is, or by one that is added under a new name. -/
theorem meetDemand (m : Multiplexer) : Keeps R (SchemaFamily.meetDemand m) := by
  -- what is made depends on the graph it is added to
  intro g
  rw [SchemaFamily.meetDemand, apply_bind_of_ok (apply_get g)]
  split
  · refine Keeps.bind trans (.ask refl _) (fun s => ?_) g
    refine .bind trans (.change refl fun g g' h => register h) fun _ => ?_
    exact .bind trans (fun g => bindUsage g _ _) fun _ => .pure refl 0
  · next hnone =>
    have hadd := addMultiplexer g (fun id => { m with id }) hnone
    rw [apply_bind_of_ok (apply_get g)]
    rcases hrun : g.addMultiplexer fun id => { m with id } with ⟨g', handle | id⟩
    · rw [hrun] at hadd
      exact hadd
    · rw [hrun] at hadd
      exact hadd

theorem reconcileUsage (suffix : String) (e : Eligible) :
    Keeps R (SchemaFamily.reconcileUsage suffix e.document e.candidate) := by
  intro g
  rw [Graph.apply_reconcileUsage]
  cases g.demanded suffix e with
  | error failure => exact refl g
  | ok m => exact meetDemand refl trans register bindUsage addMultiplexer m g

/-- Reconciling meets demands and puts the multiplexers of documents in order. -/
theorem reconcile (sortMultiplexers : ∀ {g g' : Graph} {id : DocumentId},
    g.sortMultiplexers id = .ok g' → R g g') (suffix : String) :
    Keeps R (SchemaFamily.reconcile suffix) := by
  refine .bind trans (.get refl) fun g => ?_
  split
  · exact .pure refl 0
  · refine .bind trans (.ask refl _) fun documents => .total refl trans (fun document => ?_) _
    refine .bind trans (.ask refl _) fun candidates => ?_
    refine .bind trans (.total refl trans (fun c => ?_) candidates) fun made => ?_
    · exact reconcileUsage refl trans register bindUsage addMultiplexer suffix ⟨document, c⟩
    · exact .bind trans (.change refl fun g g' h => sortMultiplexers h) fun _ => .pure refl made

end Pass.Keeps

/-! ## Outlines and cores -/

theorem keeps_linkDocument (document : DocumentId) :
    Keeps Graph.SameOutline (linkDocument document) :=
  .linkDocument .refl (fun _ _ _ => .trans)
    (fun h => (Graph.sameCore_registerDependency h).sameOutline) Graph.sameOutline_modifyUsage
    document

theorem keeps_link : Keeps Graph.SameOutline link :=
  .link .refl (fun _ _ _ => .trans) (fun h => (Graph.sameCore_registerDependency h).sameOutline)
    Graph.sameOutline_modifyUsage

theorem keepsCore_meetDemand (m : Multiplexer) : Keeps Graph.SameCore (meetDemand m) :=
  .meetDemand .refl (fun _ _ _ => .trans) Graph.sameCore_registerDependency
    Graph.sameCore_bindUsage (fun g build _ => g.sameCore_addMultiplexer build) m

theorem keepsCore_reconcileUsage (suffix : String) (e : Eligible) :
    Keeps Graph.SameCore (reconcileUsage suffix e.document e.candidate) :=
  .reconcileUsage .refl (fun _ _ _ => .trans) Graph.sameCore_registerDependency
    Graph.sameCore_bindUsage (fun g build _ => g.sameCore_addMultiplexer build) suffix e

/-- Reconciling keeps the core of a graph. -/
theorem keepsCore_reconcile (suffix : String) : Keeps Graph.SameCore (reconcile suffix) :=
  .reconcile .refl (fun _ _ _ => .trans) Graph.sameCore_registerDependency
    Graph.sameCore_bindUsage (fun g build _ => g.sameCore_addMultiplexer build)
    Graph.sameCore_sortMultiplexers suffix

theorem keeps_reconcile (suffix : String) : Keeps Graph.SameOutline (reconcile suffix) :=
  (keepsCore_reconcile suffix).mono fun _ _ h => h.sameOutline

/-- A family as it was read tells the outline of what it is compiled to. -/
theorem sameOutline_finishFamily (suffix : String) (g : Graph) :
    g.SameOutline ((finishFamily suffix).apply g).2 :=
  Keeps.bind (fun _ _ _ => .trans) keeps_link (fun _ => keeps_reconcile suffix) g

end SchemaFamily
