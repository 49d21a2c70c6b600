import SchemaFamily.Family.Compile
import SchemaFamily.Proofs.Draft.Blurring
import SchemaFamily.Proofs.Family.Kept
import SchemaFamily.Proofs.Family.Shifting

/-
  Families of respelled texts. Linking and reconciling never look at the path of an import and at no
  more of a place than its line. So what they make of a blurred graph is what they make of the
  graph, then blurred, and they fail with the same failure (`apply_finishFamily_blur`).
-/

namespace SchemaFamily

section

variable (kept : DocumentId → Position → Bool)

/-! ## Blurred graphs -/

/-- The declaration at places blurred as those of its document are. -/
def Declaration.blur (d : Declaration) : Declaration :=
  { d with definition := d.definition.blur (kept d.owner) }

/-- The document with its imports blurred. -/
def Document.blur (d : Document) : Document :=
  { d with imports := d.imports.map (Import.blur (kept d.id)) }

/-- The graph with its documents and its declarations blurred. -/
def Graph.blur (g : Graph) : Graph :=
  { g with
    documents := g.documents.map (Document.blur kept)
    declarations := g.declarations.map (Declaration.blur kept) }

/-! ## Definitions -/

namespace Usage

variable (place : Position → Bool) (u : Usage)

@[simp] theorem kind_blur : (u.blur place).kind = u.kind := rfl

@[simp] theorem groupAs_blur : (u.blur place).groupAs = u.groupAs := rfl

theorem blur_resolve (target : DeclarationId) :
    (u.resolve target).blur place = (u.blur place).resolve target := by
  rcases u with ⟨kind, ⟨name, _ | _⟩ | declaration⟩ <;> rfl

theorem blur_rebase (count : Nat) : (u.rebase count).blur place = (u.blur place).rebase count := by
  rcases u with ⟨kind, target | target⟩ <;> rfl

end Usage

namespace Definition

variable (place : Position → Bool) (d : Definition)

@[simp] theorem name_blur : (d.blur place).name = d.name := rfl

@[simp]
theorem kind_blur : (d.blur place).kind = d.kind := kind_mapUsages _ d

@[simp]
theorem jsonKey_blur : (d.blur place).jsonKey = d.jsonKey := by
  rcases d with ⟨name, metadata, body⟩
  cases body <;> rfl

@[simp]
theorem usages_blur : (d.blur place).usages = d.usages.map fun su => (su.1, su.2.blur place) := by
  show (d.mapUsages (Usage.blur place)).usages = _
  rw [mapUsages_eq_mapSlots, usages_mapSlots]

/-- Changing usages commutes with blurring if changing one does. -/
theorem blur_mapSlots {f : Slot → Usage → Usage}
    (hf : ∀ slot u, (f slot u).blur place = f slot (u.blur place)) :
    (d.mapSlots f).blur place = (d.blur place).mapSlots f := by
  have hbody : ((d.mapSlots f).mapUsages (Usage.blur place)).body =
      ((d.mapUsages (Usage.blur place)).mapSlots f).body := by
    rw [mapUsages_eq_mapSlots, mapUsages_eq_mapSlots, mapSlots_mapSlots, mapSlots_mapSlots]
    simp only [hf]
  exact congrArg (Definition.mk d.name _) hbody

theorem blur_modifyUsage (slot : Slot) (target : DeclarationId) :
    (d.modifyUsage slot (·.resolve target)).blur place =
      (d.blur place).modifyUsage slot (·.resolve target) := by
  rw [modifyUsage_eq_mapSlots, modifyUsage_eq_mapSlots]
  refine d.blur_mapSlots place fun s u => ?_
  split
  · exact u.blur_resolve place target
  · rfl

theorem blur_rebase (count : Nat) : (d.rebase count).blur place = (d.blur place).rebase count := by
  rw [rebase, rebase, mapUsages_eq_mapSlots, mapUsages_eq_mapSlots]
  exact d.blur_mapSlots place fun s u => u.blur_rebase place count

end Definition

@[simp]
theorem Declaration.name_blur (d : Declaration) : (d.blur kept).name = d.name := rfl

@[simp]
theorem Declaration.kind_blur (d : Declaration) : (d.blur kept).kind = d.kind :=
  d.definition.kind_blur _

/-- The pending usage at a blurred place. -/
def Pending.blur (place : Position → Bool) (p : Pending) : Pending :=
  { p with position := p.position.blur place }

theorem Definition.pending_blur (place : Position → Bool) (d : Definition) :
    (d.blur place).pending = d.pending.map (Pending.blur place) := by
  rw [pending, pending, usages_blur, List.filterMap_map, List.map_filterMap]
  refine List.filterMap_congr fun su _ => ?_
  show (su.2.pendingName?.map _) = (su.2.pendingName?.map _).map _
  rw [Option.map_map]
  rfl

/-- The usage that needs a multiplexer at a blurred place. -/
def Candidate.blur (place : Position → Bool) (c : Candidate) : Candidate :=
  { c with value := c.value.blur place }

theorem Declaration.candidates_blur (d : Declaration) :
    (d.blur kept).candidates = d.candidates.map (Candidate.blur (kept d.owner)) := by
  rw [candidates, candidates]
  show ((d.definition.blur (kept d.owner)).usages).filterMap _ = _
  rw [Definition.usages_blur, List.filterMap_map, List.map_filterMap]
  refine List.filterMap_congr fun su _ => ?_
  obtain ⟨slot, u⟩ := su
  simp only [Function.comp_apply, Usage.groupAs_blur]
  cases u.groupAs with
  | none => rfl
  | some group =>
    dsimp only
    split <;> rfl

theorem Document.siteOf_blur (d : Document) (holder : String) {p p' : Position}
    (h : p'.line = p.line) : (d.blur kept).siteOf holder p' = d.siteOf holder p := by
  rw [siteOf, siteOf, h]
  rfl

/-! ## Looking up -/

namespace Graph

variable (g : Graph)

@[simp]
theorem size_documents_blur : (g.blur kept).documents.size = g.documents.size := Array.size_map

theorem getElem?_documents_blur (i : Nat) :
    (g.blur kept).documents[i]? = g.documents[i]?.map (Document.blur kept) := Array.getElem?_map

theorem getElem?_documents_blur_of {i : Nat} {o : Option Document} (h : g.documents[i]? = o) :
    (g.blur kept).documents[i]? = o.map (Document.blur kept) := by
  rw [getElem?_documents_blur, h]

theorem document_blur (id : DocumentId) :
    (g.blur kept).document id = (g.document id).map (Document.blur kept) := by
  rw [document, document, getElem?_documents_blur]
  cases g.documents[id.index]? <;> rfl

theorem declaration_blur (id : DeclarationId) :
    (g.blur kept).declaration id = (g.declaration id).map (Declaration.blur kept) := by
  have hget : (g.blur kept).declarations[id.index]? =
      g.declarations[id.index]?.map (Declaration.blur kept) := Array.getElem?_map
  rw [declaration, declaration, hget]
  cases g.declarations[id.index]? <;> rfl

theorem multiplexer_blur (id : MultiplexerId) :
    (g.blur kept).multiplexer id = g.multiplexer id := rfl

theorem root?_blur : (g.blur kept).root? = g.root? := by
  rw [root?, root?, Array.isEmpty, Array.isEmpty, size_documents_blur]

theorem preorderFrom_blur (way : List DocumentId) (id : DocumentId) :
    (g.blur kept).preorderFrom way id =
      (g.preorderFrom way id).map (Except.map (Document.blur kept)) := by
  fun_induction preorderFrom g way id with
  | case1 way id hnone =>
    rw [preorderFrom_of_none (g.getElem?_documents_blur_of kept hnone)]
    rfl
  | case2 way id d hsome hway =>
    rw [preorderFrom_of_mem (g.getElem?_documents_blur_of kept hsome) hway]
    rfl
  | case3 way id d hsome hway ih =>
    rw [preorderFrom_of_getElem? (g.getElem?_documents_blur_of kept hsome) hway, List.map_cons,
      List.map_flatMap]
    exact congrArg (_ :: ·) (List.flatMap_congr fun child _ => ih child)

theorem postorderFrom_blur (way : List DocumentId) (id : DocumentId) :
    (g.blur kept).postorderFrom way id = g.postorderFrom way id := by
  fun_induction postorderFrom g way id with
  | case1 way id hnone => rw [postorderFrom_of_none (g.getElem?_documents_blur_of kept hnone)]
  | case2 way id d hsome hway =>
    rw [postorderFrom_of_mem (g.getElem?_documents_blur_of kept hsome) hway]
  | case3 way id d hsome hway ih =>
    rw [postorderFrom_of_getElem? (g.getElem?_documents_blur_of kept hsome) hway]
    exact congrArg (· ++ _) (List.flatMap_congr fun child _ => ih child)

theorem firstKnown_blur (kind : Kind) (name : String) (walk : List (Except Dangling Document)) :
    firstKnown kind name (walk.map (Except.map (Document.blur kept))) =
      firstKnown kind name walk := by
  induction walk with
  | nil => rfl
  | cons taken later ih =>
    cases taken with
    | error dangling => rfl
    | ok d =>
      have hglobals : (d.blur kept).globals = d.globals := rfl
      rw [List.map_cons, Except.map, firstKnown, firstKnown, hglobals, ih]

theorem lookup_blur (id : DocumentId) (kind : Kind) (name : String) :
    (g.blur kept).lookup id kind name = g.lookup id kind name := by
  rw [lookup, preorder, preorderFrom_blur, firstKnown_blur]
  rfl

theorem postorder_blur (id : DocumentId) : (g.blur kept).postorder id = g.postorder id := by
  rw [postorder, postorder, postorderFrom_blur]

theorem collect_map {α : Type} (f : α → α) (steps : List (Except Dangling α)) :
    collect (steps.map (Except.map f)) = (collect steps).map (List.map f) := by
  induction steps with
  | nil => rfl
  | cons taken later ih =>
    cases taken with
    | error dangling => rfl
    | ok a =>
      show (collect (later.map _)).map _ = ((collect later).map _).map _
      rw [ih]
      cases collect later <;> rfl

/-! ## Changing -/

/-- What changes one entry can change it before all are changed alike, if the changes commute. -/
theorem map_modify {α : Type} {f m : α → α} (h : ∀ a, m (f a) = f (m a)) (xs : Array α) (i : Nat) :
    (xs.modify i f).map m = (xs.map m).modify i f := by
  refine Array.ext_getElem? fun j => ?_
  rw [Array.getElem?_map, Array.getElem?_modify, Array.getElem?_modify, Array.getElem?_map]
  split
  · cases xs[j]? with
    | none => rfl
    | some a => exact congrArg some (h a)
  · rfl

theorem modifyDocument_blur (id : DocumentId) (f : Document → Document)
    (hf : ∀ d, (f d).blur kept = f (d.blur kept)) :
    (g.blur kept).modifyDocument id f = (g.modifyDocument id f).map (Graph.blur kept) := by
  rw [modifyDocument, modifyDocument, getElem?_documents_blur]
  cases g.documents[id.index]? with
  | none => rfl
  | some d =>
    have hmap := map_modify hf g.documents id.index
    show Except.ok _ = Except.ok _
    rw [Graph.blur, Graph.blur, ← hmap]

theorem modifyUsage_blur (ref : UsageRef) (target : DeclarationId) :
    (g.blur kept).modifyUsage ref (·.resolve target) =
      (g.modifyUsage ref (·.resolve target)).blur kept := by
  have hmap := map_modify (m := Declaration.blur kept)
    (f := fun d => { d with definition := d.definition.modifyUsage ref.slot (·.resolve target) })
    (fun d => by
      have := d.definition.blur_modifyUsage (kept d.owner) ref.slot target
      simp only [Declaration.blur, this]) g.declarations ref.declaration.index
  rw [modifyUsage, modifyUsage, Graph.blur, Graph.blur, ← hmap]

theorem bindUsage_blur (ref : UsageRef) (id : MultiplexerId) :
    (g.blur kept).bindUsage ref id = (g.bindUsage ref id).blur kept := by
  rw [bindUsage, bindUsage]
  show (if (g.multiplexerFor? ref).isSome then _ else _) = _
  split <;> rfl

theorem registerDependency_blur (document owner : DocumentId) (name : String)
    (dependency : Dependency) :
    ((g.blur kept).registerDependency document owner name dependency).map (·.1) =
      ((g.registerDependency document owner name dependency).map (·.1)).map (Graph.blur kept) := by
  have hnameSpace : (g.blur kept).dependencyNamespace dependency =
      g.dependencyNamespace dependency := by
    cases dependency with
    | multiplexer id => rfl
    | declaration id =>
      rw [dependencyNamespace, dependencyNamespace, declaration_blur]
      cases g.declaration id with
      | error dangling => rfl
      | ok d => exact congrArg (Except.ok ∘ Namespace.declaration) (d.definition.kind_blur _)
  rw [registerDependency, registerDependency]
  split
  · rfl
  · rw [hnameSpace, document_blur]
    cases g.dependencyNamespace dependency with
    | error dangling => rfl
    | ok nameSpace =>
      cases g.document document with
      | error dangling => rfl
      | ok d =>
        have hmodify := modifyDocument_blur kept g document (fun d =>
          { d with dependencies := d.dependencies.register nameSpace name dependency })
          fun _ => rfl
        simp only [Except.map, bind, Except.bind, hmodify]
        cases g.modifyDocument document _ <;> rfl

theorem addMultiplexer_blur (build : MultiplexerId → Multiplexer) :
    (g.blur kept).addMultiplexer build =
      ((g.addMultiplexer build).1.blur kept, (g.addMultiplexer build).2) := by
  have hmodify := modifyDocument_blur kept
    { g with
      multiplexerNames := ((build (.ofIndex g.multiplexers.size)).name,
        .ofIndex g.multiplexers.size) :: g.multiplexerNames
      multiplexerUsages := ((build (.ofIndex g.multiplexers.size)).usage,
        .ofIndex g.multiplexers.size) :: g.multiplexerUsages }
    (build (.ofIndex g.multiplexers.size)).owner
    (fun d => { d with multiplexers := d.multiplexers ++ [.ofIndex g.multiplexers.size] })
    fun _ => rfl
  simp only [addMultiplexer]
  rw [show (g.blur kept).multiplexers = g.multiplexers from rfl]
  simp only [Graph.blur] at hmodify ⊢
  rw [hmodify]
  cases modifyDocument _ _ _ <;> rfl

theorem sortMultiplexers_blur (id : DocumentId) :
    (g.blur kept).sortMultiplexers id = (g.sortMultiplexers id).map (Graph.blur kept) := by
  rw [sortMultiplexers, sortMultiplexers, document_blur]
  cases g.document id with
  | error dangling => rfl
  | ok d =>
    have hmodify (named : List (MultiplexerId × String)) := modifyDocument_blur kept g id
      (fun d => { d with
        multiplexers := (named.mergeSort fun a b => a.2 ≤ b.2).map (·.1) }) fun _ => rfl
    have hids : (d.blur kept).multiplexers = d.multiplexers := rfl
    simp only [bind, Except.bind, Except.map, hmodify, multiplexer_blur, hids]
    rcases d.multiplexers with _ | ⟨first, _ | ⟨second, later⟩⟩
    · rfl
    · rfl
    · dsimp only
      generalize List.mapM (m := Except Dangling) _ _ = named
      cases named <;> rfl

end Graph

/-- The usage that needs a multiplexer with the line of its place alone. -/
def Candidate.coarse (c : Candidate) : Candidate := c.blur fun _ => false

theorem Candidate.coarse_blur (place : Position → Bool) (c : Candidate) :
    (c.blur place).coarse = c.coarse := by
  simp only [coarse, blur, Usage.blur, Position.blur, Bool.false_eq_true, if_false]
  rw [← Position.blur, Position.line_blur]

theorem Graph.candidates_blur (g : Graph) (document : DocumentId) :
    ((g.blur kept).candidates document).map (List.map Candidate.coarse) =
      (g.candidates document).map (List.map Candidate.coarse) := by
  rw [candidates, candidates, document_blur]
  cases g.document document with
  | error dangling => rfl
  | ok d =>
    have hholders : (d.blur kept).owned.map (g.blur kept).declaration =
        (d.owned.map g.declaration).map (Except.map (Declaration.blur kept)) := by
      rw [List.map_map]
      exact List.map_congr_left fun id _ => g.declaration_blur kept id
    show ((Graph.collect ((d.blur kept).owned.map (g.blur kept).declaration)).bind _).map _ =
      ((Graph.collect (d.owned.map g.declaration)).bind _).map _
    rw [hholders, collect_map]
    cases Graph.collect (d.owned.map g.declaration) with
    | error dangling => rfl
    | ok holders =>
      refine congrArg Except.ok ?_
      rw [List.flatMap_map, List.map_flatMap, List.map_flatMap]
      refine List.flatMap_congr fun holder _ => ?_
      rw [Declaration.candidates_blur, List.map_map]
      exact List.map_congr_left fun c _ => c.coarse_blur _

/-! ## Passes -/

namespace Pass

/-- On a blurred graph the second gives what the first does, seen through `φ`, or the same failure,
    and leaves the graph that the first leaves, blurred. -/
def Reflects {α : Type} (φ : α → α) (p p' : Pass α) : Prop :=
  ∀ g, p'.apply (g.blur kept) = ((p.apply g).1.map φ, (p.apply g).2.blur kept)

namespace Reflects

variable {kept} {α β : Type} {φ : α → α} {ψ : β → β}

theorem pure {a a' : α} (h : a' = φ a) : Reflects kept φ (Pure.pure a) (Pure.pure a') := by
  intro g
  rw [h]
  rfl

theorem throw {failure failure' : Failure} (h : failure' = failure) :
    Reflects kept φ (MonadExcept.throw failure) (MonadExcept.throw failure') := by
  intro g
  rw [h]
  rfl

theorem bind {p p' : Pass α} {q q' : α → Pass β} (hp : Reflects kept φ p p')
    (hq : ∀ a, Reflects kept ψ (q a) (q' (φ a))) : Reflects kept ψ (p >>= q) (p' >>= q') := by
  intro g
  rw [apply_bind, apply_bind, hp g]
  rcases hrun : p.apply g with ⟨failure | a, g'⟩
  · rfl
  · exact hq a g'

theorem get : Reflects kept (Graph.blur kept) (MonadState.get : Pass Graph) MonadState.get :=
  fun _ => rfl

theorem set (g : Graph) :
    Reflects kept id (MonadStateOf.set g : Pass Unit) (MonadStateOf.set (g.blur kept)) :=
  fun _ => rfl

theorem modified {f f' : Graph → Graph} (h : ∀ g, f' (g.blur kept) = (f g).blur kept) :
    Reflects kept id (modify f : Pass Unit) (modify f') := by
  intro g
  rw [apply_modify, apply_modify, h]
  rfl

theorem ask {f f' : Graph → Except Dangling α} (h : ∀ g, f' (g.blur kept) = (f g).map φ) :
    Reflects kept φ (Pass.ask f) (Pass.ask f') := by
  intro g
  rw [apply_ask, apply_ask, h]
  cases f g <;> rfl

/-- What goes on with answers that `canonical` makes equal. -/
theorem bind_ask {γ : Type} {canonical : α → γ} {f f' : Graph → Except Dangling α}
    {q q' : α → Pass β}
    (h : ∀ g, (f' (g.blur kept)).map canonical = (f g).map canonical)
    (hq : ∀ a a', canonical a' = canonical a → Reflects kept ψ (q a) (q' a')) :
    Reflects kept ψ (Pass.ask f >>= q) (Pass.ask f' >>= q') := by
  intro g
  have hg := h g
  rw [apply_bind, apply_bind, apply_ask, apply_ask]
  rcases hf : f g with handle | a <;> rcases hf' : f' (g.blur kept) with handle' | a' <;>
    rw [hf, hf'] at hg
  · cases hg
    rfl
  · cases hg
  · cases hg
  · exact hq a a' (Except.ok.inj hg) g

theorem change {f f' : Graph → Except Dangling Graph}
    (h : ∀ g, f' (g.blur kept) = (f g).map (Graph.blur kept)) :
    Reflects kept id (Pass.change f) (Pass.change f') := by
  intro g
  rw [apply_change, apply_change, h]
  cases f g <;> rfl

theorem total {p p' : α → Pass Nat} (h : ∀ a, Reflects kept id (p a) (p' a)) (as : List α) :
    Reflects kept id (Pass.total p as) (Pass.total p' as) := by
  induction as with
  | nil => exact .pure rfl
  | cons a later ih => exact .bind (h a) fun n => .bind ih fun m => .pure rfl

end Reflects

end Pass

open Pass

theorem reflects_linkUsage (document : DocumentId) (declaration : DeclarationId)
    (place : Position → Bool) (p : Pending) :
    Reflects kept id (linkUsage document declaration p)
      (linkUsage document declaration (p.blur place)) := by
  unfold linkUsage
  refine .bind (φ := id) (.ask fun g => ?_) fun target => ?_
  · rw [Graph.lookup_blur, Except.map_id]
    rfl
  · cases target with
    | none =>
      refine .bind (.ask fun g => g.document_blur kept document) fun owner => ?_
      refine .bind (.ask fun g => g.declaration_blur kept declaration) fun holder => .throw ?_
      have hsite := owner.siteOf_blur kept holder.name (p.position.line_blur place)
      rw [← Document.site_eq, ← Document.site_eq] at hsite
      exact congrArg (Failure.unresolved · p.kind p.name) hsite
    | some target =>
      refine .bind (.ask fun g => g.declaration_blur kept target) fun found => ?_
      refine .bind (.change fun g => ?_) fun _ => ?_
      · exact g.registerDependency_blur kept document found.owner p.name (.declaration target)
      · refine .bind (.modified fun g => ?_) fun _ => .pure rfl
        exact g.modifyUsage_blur kept ⟨declaration, p.slot⟩ target

theorem reflects_link : Reflects kept id link link := by
  refine .bind .get fun g => ?_
  rw [Graph.size_documents_blur]
  refine .total (fun document => ?_) _
  refine .bind (.ask fun g => g.document_blur kept document) fun owner => ?_
  refine .total (fun declaration => ?_) owner.owned
  refine .bind (.ask fun g => g.declaration_blur kept declaration) fun holder => ?_
  rw [show (holder.blur kept).definition = holder.definition.blur (kept holder.owner) from rfl,
    Definition.pending_blur, total_map]
  exact .total (fun p => reflects_linkUsage kept document declaration _ p) _

theorem reflects_meetDemand (m : Multiplexer) :
    Reflects kept id (meetDemand m) (meetDemand m) := by
  unfold meetDemand
  refine .bind .get fun g => ?_
  rw [show (g.blur kept).multiplexerNamed? m.name = g.multiplexerNamed? m.name from rfl]
  cases g.multiplexerNamed? m.name with
  | some existing =>
    refine .bind (φ := id) (.ask fun g => (congrFun Except.map_id _).symm) fun s => ?_
    refine .bind (.change fun g => ?_) fun _ => ?_
    · exact g.registerDependency_blur kept m.owner s.owner m.name (.multiplexer existing)
    · refine .bind (.modified fun g => ?_) fun _ => .pure rfl
      exact g.bindUsage_blur kept m.usage existing
  | none =>
    refine .bind .get fun g => ?_
    rw [Graph.addMultiplexer_blur]
    generalize g.addMultiplexer (fun id => { m with id }) = made
    rcases made with ⟨g', added⟩
    refine .bind (.set g') fun _ => ?_
    cases added with
    | ok _ => exact .pure rfl
    | error handle => exact .throw rfl

theorem multiplexMode_blur (group : GroupAs) (t : Declaration) :
    MultiplexMode.of? group (t.blur kept) = MultiplexMode.of? group t := by
  rw [MultiplexMode.of?.eq_def, MultiplexMode.of?.eq_def,
    show (t.blur kept).definition = t.definition.blur (kept t.owner) from rfl,
    Definition.jsonKey_blur]

theorem Graph.demanded_blur (g : Graph) (suffix : String) (e : Eligible) :
    (g.blur kept).demanded suffix e = g.demanded suffix e := by
  rw [demanded, demanded, document_blur]
  cases g.document e.document with
  | error handle => rfl
  | ok owner =>
    simp only [Except.map, owner.siteOf_blur kept e.candidate.holder rfl]
    cases e.candidate.value.declaration? with
    | none => rfl
    | some wrapped =>
      dsimp only
      rw [declaration_blur]
      cases g.declaration wrapped with
      | error handle => rfl
      | ok t =>
        simp only [Except.map, multiplexMode_blur, Declaration.name_blur, Declaration.kind_blur]

/-- Of the place of a usage only the line counts. -/
theorem Graph.demanded_coarse (g : Graph) (suffix : String) (document : DocumentId)
    (c : Candidate) :
    g.demanded suffix ⟨document, c.coarse⟩ = g.demanded suffix ⟨document, c⟩ := by
  have hsite (owner : Document) :
      owner.siteOf c.coarse.holder c.coarse.value.position =
        owner.siteOf c.holder c.value.position := by
    have hline : c.coarse.value.position.line = c.value.position.line :=
      c.value.position.line_blur fun _ => false
    rw [Document.siteOf, Document.siteOf, hline]
    rfl
  simp only [demanded, hsite]
  rfl

theorem reconcileUsage_coarse (suffix : String) (document : DocumentId) (c : Candidate) :
    reconcileUsage suffix document c.coarse = reconcileUsage suffix document c := by
  funext g
  have hcoarse := g.apply_reconcileUsage suffix ⟨document, c.coarse⟩
  rw [g.demanded_coarse, ← g.apply_reconcileUsage suffix ⟨document, c⟩] at hcoarse
  exact hcoarse

theorem reflects_reconcileUsage (suffix : String) (document : DocumentId) (c : Candidate) :
    Reflects kept id (reconcileUsage suffix document c) (reconcileUsage suffix document c) := by
  intro g
  rw [(g.blur kept).apply_reconcileUsage suffix ⟨document, c⟩,
    g.apply_reconcileUsage suffix ⟨document, c⟩, g.demanded_blur]
  cases g.demanded suffix ⟨document, c⟩ with
  | error failure => rfl
  | ok m => exact reflects_meetDemand kept m g

theorem reflects_reconcileDocument (suffix : String) (document : DocumentId) :
    Reflects kept id (reconcileDocument suffix document) (reconcileDocument suffix document) := by
  unfold reconcileDocument
  refine .bind_ask (fun g => g.candidates_blur kept document) fun candidates candidates' h => ?_
  refine .bind (φ := id) ?_ fun made => ?_
  · have hcoarse : ∀ cs, total (reconcileUsage suffix document) cs =
        total (reconcileUsage suffix document) (cs.map Candidate.coarse) := fun cs => by
      rw [total_map]
      exact congrArg (total · cs) (funext fun c => (reconcileUsage_coarse suffix document c).symm)
    rw [hcoarse candidates, hcoarse candidates', h]
    exact .total (fun c => reflects_reconcileUsage kept suffix document c) _
  · refine .bind (.change fun g => g.sortMultiplexers_blur kept document) fun _ => .pure rfl

theorem reflects_reconcile (suffix : String) :
    Reflects kept id (reconcile suffix) (reconcile suffix) := by
  unfold reconcile
  refine .bind .get fun g => ?_
  rw [Graph.root?_blur]
  cases g.root? with
  | none => exact .pure rfl
  | some root =>
    refine .bind (φ := id) (.ask fun g => ?_) fun documents => ?_
    · rw [Graph.postorder_blur, Except.map_id]
      rfl
    · exact .total (fun document => reflects_reconcileDocument kept suffix document) documents

/-- What a blurred family is finished to is the family that it is finished to, blurred. -/
theorem apply_finishFamily_blur (suffix : String) (g : Graph) :
    (finishFamily suffix).apply (g.blur kept) =
      (((finishFamily suffix).apply g).1, ((finishFamily suffix).apply g).2.blur kept) := by
  have hreflects : Reflects kept id (finishFamily suffix) (finishFamily suffix) :=
    .bind (reflects_link kept) fun _ => reflects_reconcile kept suffix
  rw [hreflects g, Except.map_id]
  rfl

/-! ## Trees -/

theorem Document.blur_adopt (d : Document) (declaration : Declaration) :
    (d.adopt declaration).blur kept = (d.blur kept).adopt (declaration.blur kept) := by
  have hscope : (declaration.blur kept).scope = declaration.scope := rfl
  unfold adopt
  rw [hscope, Declaration.kind_blur, Declaration.name_blur]
  cases declaration.scope with
  | inline => rfl
  | everywhere => cases declaration.kind <;> rfl

theorem Document.blur_foldl_adopt (d : Document) (declarations : List Declaration) :
    (declarations.foldl adopt d).blur kept =
      (declarations.map (Declaration.blur kept)).foldl adopt (d.blur kept) := by
  induction declarations generalizing d with
  | nil => rfl
  | cons declaration later ih =>
    rw [List.foldl_cons, ih, blur_adopt, List.map_cons, List.foldl_cons]

namespace Graph

theorem placed_blur (owner : DocumentId) (first : Nat) (definitions : List Drafted) :
    (placed owner first definitions).map (Declaration.blur kept) =
      placed owner first (definitions.map (Drafted.blur (kept owner))) := by
  rw [placed, placed, List.zipIdx_map, List.map_map, List.map_map]
  refine List.map_congr_left fun drafted _ => ?_
  simp only [Function.comp_apply, Declaration.blur, Definition.blur_rebase]
  rfl

/-- A blurred draft is added to a blurred graph as the draft is to the graph. -/
theorem insert_blur (g : Graph) (draft : Draft) :
    ((g.insert draft).1.blur kept, (g.insert draft).2) =
      (g.blur kept).insert (draft.blur (kept (.ofIndex g.documents.size))) := by
  simp only [insert, size_documents_blur]
  rw [show (g.blur kept).declarations.size = g.declarations.size from Array.size_map]
  simp only [Draft.blur, ← placed_blur]
  rw [Graph.blur]
  simp only [Array.map_push, Document.blur_foldl_adopt, Array.map_append, List.map_toArray]
  rfl

theorem attach_blur (g : Graph) (parent child : DocumentId) :
    (g.attach parent child).blur kept = (g.blur kept).attach parent child := by
  have hmap := map_modify (m := Document.blur kept)
    (f := fun d => { d with imported := d.imported ++ [child] }) (fun _ => rfl) g.documents
    parent.index
  rw [attach, attach, Graph.blur, Graph.blur, hmap]

end Graph

end

end SchemaFamily
