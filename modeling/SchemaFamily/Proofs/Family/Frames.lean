import Mathlib.Data.List.Perm.Subperm
import SchemaFamily.Proofs.Family.Kept
import SchemaFamily.Proofs.Results

/-
  What passes leave alone. Linking only resolves names that were not resolved and registers
  declarations as dependencies (`Graph.LinksTo`); reconciling only adds multiplexers, with what
  leads to them, and registers them as dependencies (`Graph.ReconcilesTo`). So it is of any graph
  and however a pass ends, because every step of a pass is so (`keepsFrame_link`,
  `keepsFrame_reconcile`), and from call to call nothing that was settled is settled anew
  (`Graph.Settles`).
-/

namespace SchemaFamily

/-! ## Array by array -/

/-- The arrays are of one length, and what stands at one place in both is as `R` says. -/
def Placewise {α : Type} (R : α → α → Prop) (xs ys : Array α) : Prop :=
  ∀ i : Nat, Option.Rel R xs[i]? ys[i]?

namespace Placewise

variable {α : Type} {R : α → α → Prop} {xs ys zs : Array α}

theorem refl (hrefl : ∀ x, R x x) (xs : Array α) : Placewise R xs xs := by
  intro i
  cases xs[i]? with
  | none => exact .none
  | some x => exact .some (hrefl x)

theorem trans (htrans : ∀ x y z, R x y → R y z → R x z) (h : Placewise R xs ys)
    (h' : Placewise R ys zs) : Placewise R xs zs := by
  intro i
  have hi := h i
  have hi' := h' i
  revert hi hi'
  generalize xs[i]? = x, ys[i]? = y, zs[i]? = z
  rintro (hxy | _) (hyz | _)
  · exact .some (htrans _ _ _ hxy hyz)
  · exact .none

theorem modify (hrefl : ∀ x, R x x) {i : Nat} {f : α → α} (hf : ∀ x, xs[i]? = some x → R x (f x)) :
    Placewise R xs (xs.modify i f) := by
  intro j
  rw [Array.getElem?_modify]
  split
  · next hij =>
    subst hij
    cases hx : xs[i]? with
    | none => exact .none
    | some x => exact .some (hf x hx)
  · exact refl hrefl xs j

theorem exists_of_getElem? (h : Placewise R xs ys) {i : Nat} {x : α} (hx : xs[i]? = some x) :
    ∃ y, ys[i]? = some y ∧ R x y := by
  have hi := h i
  rw [hx] at hi
  generalize hy : ys[i]? = y at hi
  cases hi with
  | some hxy => exact ⟨_, rfl, hxy⟩

end Placewise

/-! ## What is gained -/

/-- Every dependency stays under its name, and what is new is in a namespace as `P` says. -/
structure Dependencies.Gains (P : Namespace → Prop) (d d' : Dependencies) : Prop where
  kept : d.entries.Sublist d'.entries
  found : ∀ {nameSpace : Namespace} {name : String} {dependency : Dependency},
    d.get? nameSpace name = some dependency → d'.get? nameSpace name = some dependency
  new : ∀ e ∈ d'.entries, e ∈ d.entries ∨ P e.nameSpace

theorem DependencyEntry.sublist_insertInto (entry : DependencyEntry) (es : List DependencyEntry) :
    es.Sublist (entry.insertInto es) := by
  induction es with
  | nil => exact List.nil_sublist _
  | cons e later ih =>
    rw [insertInto]
    split
    · exact List.sublist_cons_self _ _
    · exact ih.cons_cons e

namespace Dependencies.Gains

variable {P : Namespace → Prop} {d d' d'' : Dependencies}

theorem refl (d : Dependencies) : d.Gains P d := ⟨List.Sublist.refl _, id, fun _ => .inl⟩

theorem trans (h : d.Gains P d') (h' : d'.Gains P d'') : d.Gains P d'' :=
  ⟨h.kept.trans h'.kept, fun hd => h'.found (h.found hd),
    fun e he => (h'.new e he).elim (h.new e) .inr⟩

theorem register (d : Dependencies) {nameSpace : Namespace} (hP : P nameSpace) (name : String)
    (dependency : Dependency) : d.Gains P (d.register nameSpace name dependency) := by
  cases hc : d.contains nameSpace name with
  | true =>
    rw [register_of_contains hc]
    exact refl d
  | false =>
    have hentries : (d.register nameSpace name dependency).entries =
        (⟨name, nameSpace, dependency⟩ : DependencyEntry).insertInto d.entries := by
      rw [Dependencies.register, hc]
      rfl
    refine ⟨?_, fun {nameSpace' name' dependency'} hd => ?_, fun e he => ?_⟩
    · rw [hentries]
      exact DependencyEntry.sublist_insertInto _ _
    · rw [get?_register_of_ne _ dependency, hd]
      intro heq
      cases heq
      rw [contains, hd] at hc
      cases hc
    · rw [hentries, DependencyEntry.mem_insertInto] at he
      rcases he with rfl | he
      · exact .inr hP
      · exact .inl he

end Dependencies.Gains

/-! ## Linking -/

/-- The namespace is one of declarations. -/
def Namespace.IsDeclaration (nameSpace : Namespace) : Prop := nameSpace ≠ .multiplexer

/-- Nothing is changed but that dependencies on declarations are added. -/
structure Document.LinksTo (d d' : Document) : Prop where
  frame : d' = { d with dependencies := d'.dependencies }
  dependencies : d.dependencies.Gains Namespace.IsDeclaration d'.dependencies

/-- Nothing is changed but that usages whose names were not resolved may be. -/
def Declaration.LinksTo (d d' : Declaration) : Prop :=
  ∃ target? : Slot → Option DeclarationId, d' = { d with
    definition := d.definition.mapSlots fun slot u => (target? slot).elim u u.resolve }

/-- Nothing is changed but that names are resolved which were not and dependencies on declarations
    are added. -/
structure Graph.LinksTo (g g' : Graph) : Prop where
  documents : Placewise Document.LinksTo g.documents g'.documents
  declarations : Placewise Declaration.LinksTo g.declarations g'.declarations
  multiplexers : g'.multiplexers = g.multiplexers
  names : g'.multiplexerNames = g.multiplexerNames
  usages : g'.multiplexerUsages = g.multiplexerUsages

theorem Document.LinksTo.refl (d : Document) : d.LinksTo d := ⟨rfl, .refl _⟩

theorem Document.LinksTo.trans (d d' d'' : Document) (h : d.LinksTo d') (h' : d'.LinksTo d'') :
    d.LinksTo d'' := by
  refine ⟨?_, h.dependencies.trans h'.dependencies⟩
  rw [h'.frame, h.frame]

theorem Declaration.LinksTo.refl (d : Declaration) : d.LinksTo d :=
  ⟨fun _ => none,
    congrArg (fun definition => { d with definition }) d.definition.mapSlots_self.symm⟩

/-- What is resolved is not resolved again. -/
theorem Usage.resolve_resolve (u : Usage) (t t' : DeclarationId) :
    (u.resolve t).resolve t' = u.resolve t :=
  resolve_of_not_pending (pendingName?_resolve u t) t'

theorem Declaration.LinksTo.trans (d d' d'' : Declaration) (h : d.LinksTo d')
    (h' : d'.LinksTo d'') : d.LinksTo d'' := by
  obtain ⟨first?, rfl⟩ := h
  obtain ⟨later?, rfl⟩ := h'
  refine ⟨fun slot => (first? slot).or (later? slot), ?_⟩
  dsimp only
  rw [Definition.mapSlots_mapSlots]
  congr 1
  refine Definition.mapSlots_congr fun su _ => ?_
  cases first? su.1 with
  | none => rfl
  | some t =>
    cases later? su.1 with
    | none => rfl
    | some t' => exact Usage.resolve_resolve su.2 t t'

namespace Graph

variable {g g' g'' : Graph}

theorem LinksTo.refl (g : Graph) : g.LinksTo g :=
  ⟨.refl Document.LinksTo.refl _, .refl Declaration.LinksTo.refl _, rfl, rfl, rfl⟩

theorem LinksTo.trans (g g' g'' : Graph) (h : g.LinksTo g') (h' : g'.LinksTo g'') :
    g.LinksTo g'' :=
  ⟨h.documents.trans Document.LinksTo.trans h'.documents,
    h.declarations.trans Declaration.LinksTo.trans h'.declarations,
    h'.multiplexers.trans h.multiplexers, h'.names.trans h.names, h'.usages.trans h.usages⟩

theorem LinksTo.modifyUsage (g : Graph) (ref : UsageRef) (t : DeclarationId) :
    g.LinksTo (g.modifyUsage ref (·.resolve t)) := by
  refine ⟨.refl Document.LinksTo.refl _, .modify Declaration.LinksTo.refl fun d _ => ?_, rfl, rfl,
    rfl⟩
  refine ⟨fun slot => if slot = ref.slot then some t else none, ?_⟩
  rw [Definition.modifyUsage_eq_mapSlots]
  congr 1
  refine Definition.mapSlots_congr fun su _ => ?_
  dsimp only
  split <;> rfl

theorem LinksTo.registerDependency {document owner : DocumentId} {name : String}
    {target : DeclarationId}
    (h : (g.registerDependency document owner name (.declaration target)).map (·.1) = .ok g') :
    g.LinksTo g' := by
  rcases eq_of_registerDependency h with rfl | ⟨nameSpace, hnameSpace, rfl⟩
  · exact .refl _
  · have hdeclaration : nameSpace.IsDeclaration := by
      obtain ⟨t, _, rfl⟩ := exists_of_map_ok hnameSpace
      exact Namespace.noConfusion
    refine ⟨.modify Document.LinksTo.refl fun d _ => ⟨rfl, ?_⟩, .refl Declaration.LinksTo.refl _,
      rfl, rfl, rfl⟩
    exact .register _ hdeclaration _ _

end Graph

open Pass

theorem keepsFrame_linkDocument (document : DocumentId) :
    Keeps Graph.LinksTo (linkDocument document) :=
  .linkDocument .refl .trans .registerDependency .modifyUsage document

theorem keepsFrame_link : Keeps Graph.LinksTo link :=
  .link .refl .trans .registerDependency .modifyUsage

/-! ## Reconciling -/

/-- Nothing is changed but that the document lists more multiplexers, all of them perhaps in another
    order, and that dependencies on multiplexers are added. -/
structure Document.ReconcilesTo (d d' : Document) : Prop where
  frame : d' = { d with dependencies := d'.dependencies, multiplexers := d'.multiplexers }
  dependencies : d.dependencies.Gains (· = .multiplexer) d'.dependencies
  multiplexers : d.multiplexers.Subperm d'.multiplexers

/-- Nothing is changed but that multiplexers are added behind those there were, that documents list
    them and depend on them, and that names and usages may stand for them; a name that stood for a
    multiplexer stands for the same one. -/
structure Graph.ReconcilesTo (g g' : Graph) : Prop where
  documents : Placewise Document.ReconcilesTo g.documents g'.documents
  declarations : g'.declarations = g.declarations
  multiplexers : g.multiplexers.toList <+: g'.multiplexers.toList
  names : ∀ {name : String} {id : MultiplexerId},
    g.multiplexerNamed? name = some id → g'.multiplexerNamed? name = some id

theorem Document.ReconcilesTo.refl (d : Document) : d.ReconcilesTo d :=
  ⟨rfl, .refl _, List.Subperm.refl _⟩

theorem Document.ReconcilesTo.trans (d d' d'' : Document) (h : d.ReconcilesTo d')
    (h' : d'.ReconcilesTo d'') : d.ReconcilesTo d'' := by
  refine ⟨?_, h.dependencies.trans h'.dependencies, h.multiplexers.trans h'.multiplexers⟩
  rw [h'.frame, h.frame]

namespace Graph

variable {g g' g'' : Graph}

theorem ReconcilesTo.refl (g : Graph) : g.ReconcilesTo g :=
  ⟨.refl Document.ReconcilesTo.refl _, rfl, List.prefix_refl _, id⟩

theorem ReconcilesTo.trans (g g' g'' : Graph) (h : g.ReconcilesTo g') (h' : g'.ReconcilesTo g'') :
    g.ReconcilesTo g'' :=
  ⟨h.documents.trans Document.ReconcilesTo.trans h'.documents,
    h'.declarations.trans h.declarations, h.multiplexers.trans h'.multiplexers,
    fun hid => h'.names (h.names hid)⟩

theorem ReconcilesTo.registerDependency {document owner : DocumentId} {name : String}
    {id : MultiplexerId}
    (h : (g.registerDependency document owner name (.multiplexer id)).map (·.1) = .ok g') :
    g.ReconcilesTo g' := by
  rcases eq_of_registerDependency h with rfl | ⟨nameSpace, hnameSpace, rfl⟩
  · exact .refl _
  · cases hnameSpace
    refine ⟨.modify Document.ReconcilesTo.refl fun d _ => ⟨rfl, ?_, List.Subperm.refl _⟩, rfl,
      List.prefix_refl _, fun h => h⟩
    exact .register _ (P := (· = .multiplexer)) rfl _ _

theorem ReconcilesTo.bindUsage (g : Graph) (ref : UsageRef) (id : MultiplexerId) :
    g.ReconcilesTo (g.bindUsage ref id) := by
  unfold Graph.bindUsage
  split
  · exact .refl g
  · exact ⟨.refl Document.ReconcilesTo.refl _, rfl, List.prefix_refl _, fun h => h⟩

/-- A name that stands for nothing yet is given to a multiplexer that is added last. -/
theorem ReconcilesTo.addMultiplexer (build : MultiplexerId → Multiplexer)
    (h : g.multiplexerNamed? (build (.ofIndex g.multiplexers.size)).name = none) :
    g.ReconcilesTo (g.addMultiplexer build).1 := by
  have hnames : ∀ {name : String} {id : MultiplexerId}, g.multiplexerNamed? name = some id →
      List.lookup name (((build (.ofIndex g.multiplexers.size)).name, .ofIndex g.multiplexers.size)
        :: g.multiplexerNames) = some id := by
    intro name id hid
    rw [List.lookup_cons, beq_false_of_ne]
    · exact hid
    · rintro rfl
      rw [h] at hid
      cases hid
  rcases g.addMultiplexer_cases build rfl with hadd | ⟨_, hadd⟩
  · rw [hadd]
    exact ⟨.refl Document.ReconcilesTo.refl _, rfl, List.prefix_refl _, hnames⟩
  · rw [hadd]
    refine ⟨.modify Document.ReconcilesTo.refl fun d _ => ⟨rfl, .refl _, ?_⟩, rfl, ?_, hnames⟩
    · exact (List.sublist_append_left _ _).subperm
    · rw [Array.toList_push]
      exact List.prefix_append _ _

/-- What is put in order is as it was but for the order. -/
theorem ReconcilesTo.sortMultiplexers {id : DocumentId} (h : g.sortMultiplexers id = .ok g') :
    g.ReconcilesTo g' := by
  obtain ⟨d, sorted, hd, hperm, rfl⟩ := eq_of_sortMultiplexers h
  refine ⟨.modify Document.ReconcilesTo.refl fun d' hd' => ⟨rfl, .refl _, ?_⟩, rfl,
    List.prefix_refl _, fun h => h⟩
  obtain rfl : d = d' := Option.some.inj (hd.symm.trans hd')
  exact hperm.symm.subperm

end Graph

theorem keepsFrame_reconcile (suffix : String) : Keeps Graph.ReconcilesTo (reconcile suffix) :=
  .reconcile .refl .trans .registerDependency .bindUsage (fun _ => .addMultiplexer)
    .sortMultiplexers suffix

/-! ## Calls one after the other -/

/-- A call of a pass over a family. -/
inductive FamilyCall where
  | link
  | linkDocument (document : DocumentId)
  | reconcile (suffix : String)

/-- The pass that is called. -/
def FamilyCall.pass : FamilyCall → Pass Nat
  | .link => SchemaFamily.link
  | .linkDocument document => SchemaFamily.linkDocument document
  | .reconcile suffix => SchemaFamily.reconcile suffix

/-- The graph after calls one after the other, whatever becomes of them. -/
def Graph.afterCalls (g : Graph) (calls : List FamilyCall) : Graph :=
  calls.foldl (fun g call => (call.pass.apply g).2) g

/-- What is settled in a graph is so in another: targets of usages, dependencies, multiplexers. -/
structure Graph.Settles (g g' : Graph) : Prop where
  usages : ∀ {ref : UsageRef} {u : Usage}, g.usage? ref = some u → u.pendingName? = none →
    g'.usage? ref = some u
  dependencies : ∀ {i : Nat} {d : Document}, g.documents[i]? = some d →
    ∃ d', g'.documents[i]? = some d' ∧ ∀ nameSpace name dependency,
      d.dependencies.get? nameSpace name = some dependency →
        d'.dependencies.get? nameSpace name = some dependency
  multiplexers : ∀ {i : Nat} {m : Multiplexer}, g.multiplexers[i]? = some m →
    g'.multiplexers[i]? = some m

namespace Graph

variable {g g' g'' : Graph}

theorem Settles.refl (g : Graph) : g.Settles g :=
  ⟨fun hu _ => hu, fun hd => ⟨_, hd, fun _ _ _ h => h⟩, fun hm => hm⟩

theorem Settles.trans (h : g.Settles g') (h' : g'.Settles g'') : g.Settles g'' := by
  refine ⟨fun hu hp => h'.usages (h.usages hu hp) hp, fun hd => ?_,
    fun hm => h'.multiplexers (h.multiplexers hm)⟩
  obtain ⟨d', hd', hkept⟩ := h.dependencies hd
  obtain ⟨d'', hd'', hkept'⟩ := h'.dependencies hd'
  exact ⟨d'', hd'', fun nameSpace name dependency hget =>
    hkept' nameSpace name dependency (hkept nameSpace name dependency hget)⟩

theorem LinksTo.settles (h : g.LinksTo g') : g.Settles g' := by
  refine ⟨fun {ref u} hu hp => ?_, fun hd => ?_, fun hm => h.multiplexers ▸ hm⟩
  · obtain ⟨t, ht, hslot⟩ := Option.bind_eq_some_iff.1 hu
    obtain ⟨t', ht', target?, rfl⟩ := h.declarations.exists_of_getElem? ht
    rw [Graph.usage?, ht', Option.bind_some, Definition.usage?_mapSlots, hslot, Option.map_some]
    cases target? ref.slot with
    | none => rfl
    | some target => exact congrArg some (Usage.resolve_of_not_pending hp target)
  · obtain ⟨d', hd', hlinks⟩ := h.documents.exists_of_getElem? hd
    exact ⟨d', hd', fun _ _ _ hget => hlinks.dependencies.found hget⟩

theorem ReconcilesTo.settles (h : g.ReconcilesTo g') : g.Settles g' := by
  refine ⟨fun hu _ => ?_, fun hd => ?_, fun {i m} hm => ?_⟩
  · rw [Graph.usage?, h.declarations]
    exact hu
  · obtain ⟨d', hd', hreconciles⟩ := h.documents.exists_of_getElem? hd
    exact ⟨d', hd', fun _ _ _ hget => hreconciles.dependencies.found hget⟩
  · obtain ⟨more, hmore⟩ := h.multiplexers
    rw [← Array.getElem?_toList] at hm ⊢
    rw [← hmore]
    exact (List.getElem?_append_left (List.getElem?_eq_some_iff.1 hm).1).trans hm

end Graph

theorem settles_pass (call : FamilyCall) : Keeps Graph.Settles call.pass := by
  intro g
  cases call with
  | link => exact (keepsFrame_link g).settles
  | linkDocument document => exact (keepsFrame_linkDocument document g).settles
  | reconcile suffix => exact (keepsFrame_reconcile suffix g).settles

theorem settles_afterCalls (g : Graph) (calls : List FamilyCall) :
    g.Settles (g.afterCalls calls) := by
  induction calls generalizing g with
  | nil => exact .refl g
  | cons call later ih => exact (settles_pass call g).trans (ih (call.pass.apply g).2)

/-- Whatever the graph is and however a pass ends on it, linking a family or one document changes
    nothing but names that were not resolved and dependencies on declarations that it adds, and
    reconciling nothing but what it adds: multiplexers, what names and usages stand for, what
    documents list, and dependencies on multiplexers. Calls one after the other never change the
    target of a usage that has one, a dependency, or a multiplexer. -/
theorem frames_of_calls (g : Graph) :
    g.LinksTo (link.apply g).2 ∧
      (∀ document, g.LinksTo ((linkDocument document).apply g).2) ∧
      (∀ suffix, g.ReconcilesTo ((reconcile suffix).apply g).2) ∧
      ∀ before later : List FamilyCall,
        (g.afterCalls before).Settles (g.afterCalls (before ++ later)) := by
  refine ⟨keepsFrame_link g, fun document => keepsFrame_linkDocument document g,
    fun suffix => keepsFrame_reconcile suffix g, fun before later => ?_⟩
  rw [Graph.afterCalls, Graph.afterCalls, List.foldl_append]
  exact settles_afterCalls _ later

end SchemaFamily
