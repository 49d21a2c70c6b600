import Mathlib.Data.List.Basic
import SchemaFamily.Family.Reconcile
import SchemaFamily.Proofs.Definition.Slots
import SchemaFamily.Proofs.Family.Arranged
import SchemaFamily.Proofs.Family.Runs
import SchemaFamily.Proofs.Family.Subtree

/-
  Eligible usages. A usage in a model is `Eligible` when it forms a group that is not always an
  array, and it demands a multiplexer of what it uses: one that is `MadeFor` it, owned by the
  document that holds it and named after what it uses (`madeFor_of_demanded`). Reconciling a usage
  is meeting its demand (`apply_reconcileUsage`), and what is demanded can be told from the core of
  the graph (`SameCore.demanded`).
-/

namespace SchemaFamily

/-- A usage that needs a multiplexer, in a declaration that a document owns. -/
structure Eligible where
  document : DocumentId
  candidate : Candidate
deriving DecidableEq, Repr

/-- The usage at a slot of a declaration, if it stands in the model and forms a group that is not
    always an array. -/
def Declaration.eligibleAt (d : Declaration) (slot : Slot) (u : Usage) : Option Eligible :=
  match slot, u.groupAs with
  | .flag _, _ | _, none => none
  | slot, some group =>
    if group.inJson = .array then none else some ⟨d.owner, ⟨⟨d.id, slot⟩, d.name, u, group⟩⟩

/-- The usages of a declaration that need a multiplexer, in order. -/
def Declaration.eligible (d : Declaration) : List Eligible :=
  d.definition.usages.filterMap fun (slot, u) => d.eligibleAt slot u

theorem Declaration.eligibleAt_eq_some_iff {d : Declaration} {slot : Slot} {u : Usage}
    {e : Eligible} :
    d.eligibleAt slot u = some e ↔ slot.isModel = true ∧ ∃ group, u.groupAs = some group ∧
      group.inJson ≠ .array ∧ e = ⟨d.owner, ⟨⟨d.id, slot⟩, d.name, u, group⟩⟩ := by
  rw [eligibleAt.eq_def]
  cases hg : u.groupAs with
  | none => cases slot <;> simp
  | some group =>
    by_cases ha : group.inJson = .array
    · cases slot <;> simp [ha]
    · cases slot <;> simp [ha, Slot.isModel, @eq_comm _ e]

theorem Declaration.eligible_eq (d : Declaration) :
    d.eligible = d.candidates.map (⟨d.owner, ·⟩) := by
  rw [eligible, candidates, List.map_filterMap]
  refine congrArg (fun f => d.definition.usages.filterMap f) (funext fun su => ?_)
  rcases su with ⟨slot, u⟩
  dsimp only
  rw [eligibleAt.eq_def]
  cases hg : u.groupAs with
  | none => cases slot <;> rfl
  | some group =>
    rcases group with ⟨name, inJson, inXml⟩
    cases slot <;> cases inJson <;> rfl

/-- An eligible usage of a declaration stands in it, and its owner demands. -/
theorem Declaration.usage_of_mem_eligible {d : Declaration} {e : Eligible} (h : e ∈ d.eligible) :
    e.document = d.owner ∧ ∃ slot, e.candidate.usage = ⟨d.id, slot⟩ := by
  obtain ⟨su, _, he⟩ := List.mem_filterMap.1 h
  obtain ⟨_, _, _, _, rfl⟩ := eligibleAt_eq_some_iff.1 he
  exact ⟨rfl, su.1, rfl⟩

/-- No slot of a declaration holds two usages that need a multiplexer. -/
theorem Declaration.pairwise_eligible (d : Declaration) :
    d.eligible.Pairwise fun e e' => e.candidate.usage ≠ e'.candidate.usage := by
  refine List.Pairwise.filterMap _ ?_ (List.pairwise_map.1 (List.nodup_iff_pairwise_ne.1
    d.definition.nodup_slots))
  intro su su' hne e he e' he' husage
  obtain ⟨_, _, _, _, rfl⟩ := eligibleAt_eq_some_iff.1 he
  obtain ⟨_, _, _, _, rfl⟩ := eligibleAt_eq_some_iff.1 he'
  exact hne (UsageRef.mk.inj husage).2

/-- The multiplexer is of the kind of what a group is made of, and holds its values as the group
    says: keyed by the key flag, or one value or an array. -/
structure Multiplexer.Fits (m : Multiplexer) (group : GroupAs) (t : Declaration) : Prop where
  kind : m.kind = t.kind
  byKey : group.inJson = .byKey → ∃ key, t.definition.jsonKey = some key ∧ m.mode = .byKey key
  notByKey : group.inJson ≠ .byKey → m.mode = .singletonOrArray

theorem Multiplexer.fits_of_mode {m : Multiplexer} {group : GroupAs} {t : Declaration}
    (hkind : m.kind = t.kind) (hmode : MultiplexMode.of? group t = some m.mode) :
    m.Fits group t := by
  rw [MultiplexMode.of?.eq_def] at hmode
  refine ⟨hkind, fun hj => ?_, fun hj => ?_⟩
  · rw [hj] at hmode
    cases hk : t.definition.jsonKey with
    | none =>
      rw [hk] at hmode
      cases hmode
    | some key =>
      rw [hk] at hmode
      exact ⟨key, rfl, (Option.some.inj hmode).symm⟩
  · split at hmode
    · next hbyKey _ => exact absurd hbyKey hj
    · next hbyKey _ => exact absurd hbyKey hj
    · exact (Option.some.inj hmode).symm

/-- Lets the usage of a demand be represented by the multiplexer of its name, which is made when
    there is none; the number made. -/
def meetDemand (m : Multiplexer) : Pass Nat := do
  match (← get).multiplexerNamed? m.name with
  | some existing =>
    let s ← Pass.ask (·.multiplexer existing)
    Pass.change fun g =>
      (g.registerDependency m.owner s.owner m.name (.multiplexer existing)).map (·.1)
    modify (·.bindUsage m.usage existing)
    return 0
  | none =>
    let (g, added) := (← get).addMultiplexer fun id => { m with id }
    set g
    match added with
    | .ok _ => return 1
    | .error handle => throw (.dangling handle)

namespace Graph

/-- The usages of some documents that need a multiplexer, in order. -/
def eligible (g : Graph) (documents : List DocumentId) : List Eligible :=
  (documents.flatMap g.holdings).flatMap Declaration.eligible

/-- What an eligible usage demands, numbered first, or why there can be no such multiplexer. -/
def demanded (g : Graph) (suffix : String) (e : Eligible) : Except Failure Multiplexer :=
  match g.document e.document with
  | .error handle => .error (.dangling handle)
  | .ok owner =>
    let site := owner.siteOf e.candidate.holder e.candidate.value.position
    match e.candidate.value.declaration? with
    | none =>
      .error (.unresolved site e.candidate.value.kind (e.candidate.value.referenceName?.getD ""))
    | some wrapped =>
      match g.declaration wrapped with
      | .error handle => .error (.dangling handle)
      | .ok target =>
        match MultiplexMode.of? e.candidate.group target with
        | none => .error (.missingIndexKey site target.name e.candidate.group.name)
        | some mode =>
          .ok { id := .ofIndex 0, name := target.name ++ suffix, owner := e.document,
                usage := e.candidate.usage, wrapped, wrappedName := target.name,
                kind := target.kind, group := e.candidate.group, mode }

/-- Why the demand of a usage cannot be met, if it cannot. -/
def refusal? (g : Graph) (suffix : String) (e : Eligible) : Option Failure :=
  match g.demanded suffix e with
  | .error failure => some failure
  | .ok _ => none

/-- The demands of some usages. -/
def demands (g : Graph) (suffix : String) (es : List Eligible) : List Multiplexer :=
  es.filterMap fun e => (g.demanded suffix e).toOption

/-- The name of the multiplexer that a usage needs: that of its target, followed by the suffix. -/
def derivedName? (g : Graph) (suffix : String) (e : Eligible) : Option String :=
  (e.candidate.value.declaration?.bind fun wrapped => g.declarations[wrapped.index]?).map fun t =>
    t.name ++ suffix

/-- The multiplexer is made for a usage: the document that holds the usage owns it, and it stands
    for what the usage uses, has the name of that followed by the suffix, and fits it. -/
structure MadeFor (g : Graph) (suffix : String) (e : Eligible) (m : Multiplexer) : Prop where
  owner : m.owner = e.document
  usage : m.usage = e.candidate.usage
  group : m.group = e.candidate.group
  wrapped : e.candidate.value.declaration? = some m.wrapped
  target : ∃ t, g.declarations[m.wrapped.index]? = some t ∧ m.wrappedName = t.name ∧
    m.name = t.name ++ suffix ∧ m.Fits e.candidate.group t

variable {g : Graph} {suffix : String}

/-! ## Demands -/

theorem madeFor_of_demanded {e : Eligible} {m : Multiplexer} (h : g.demanded suffix e = .ok m) :
    g.MadeFor suffix e m := by
  unfold demanded at h
  split at h
  · cases h
  · dsimp only at h
    split at h
    · cases h
    · next wrapped hwrapped =>
      split at h
      · cases h
      · next t ht =>
        split at h
        · cases h
        · next mode hmode =>
          cases h
          refine ⟨rfl, rfl, rfl, hwrapped, t, getElem?_of_declaration ht, rfl, rfl, ?_⟩
          exact Multiplexer.fits_of_mode rfl hmode

theorem derivedName?_of_demanded {e : Eligible} {m : Multiplexer}
    (h : g.demanded suffix e = .ok m) : g.derivedName? suffix e = some m.name := by
  have hm := madeFor_of_demanded h
  obtain ⟨t, ht, _, hname, _⟩ := hm.target
  rw [derivedName?, hm.wrapped, Option.bind_some, ht, Option.map_some, hname]

theorem mem_demands {es : List Eligible} {m : Multiplexer} :
    m ∈ g.demands suffix es ↔ ∃ e ∈ es, g.demanded suffix e = .ok m := by
  rw [demands, List.mem_filterMap]
  refine exists_congr fun e => and_congr_right fun _ => ?_
  cases g.demanded suffix e <;> simp [Except.toOption]

theorem usages_demands_sublist (g : Graph) (suffix : String) (es : List Eligible) :
    ((g.demands suffix es).map (·.usage)).Sublist (es.map (·.candidate.usage)) := by
  induction es with
  | nil => exact .slnil
  | cons e later ih =>
    rw [demands, List.filterMap_cons, List.map_cons]
    cases hd : g.demanded suffix e with
    | error failure => exact ih.cons _
    | ok m =>
      rw [← (madeFor_of_demanded hd).usage]
      exact ih.cons_cons _

theorem MadeFor.exists_target (h : g.Arranged) {e : Eligible} {m : Multiplexer}
    (hm : g.MadeFor suffix e m) :
    ∃ t ∈ g.declarations, e.candidate.value.declaration? = some t.id ∧
      m.name = t.name ++ suffix ∧ m.Fits e.candidate.group t := by
  obtain ⟨t, ht, _, hname, hfits⟩ := hm.target
  have hid : t.id = m.wrapped := Handle.ext (h.declaration_index ht)
  exact ⟨t, Array.mem_of_getElem? ht, by rw [hid, hm.wrapped], hname, hfits⟩

/-! ## Eligible usages of documents -/

theorem eligible_append (documents later : List DocumentId) :
    g.eligible (documents ++ later) = g.eligible documents ++ g.eligible later := by
  rw [eligible, List.flatMap_append, List.flatMap_append, eligible, eligible]

theorem eligible_singleton (h : g.Arranged) {document : DocumentId}
    (hlt : document.index < g.documents.size) :
    g.eligible [document] = ((g.holdings document).flatMap Declaration.candidates).flatMap
      fun c => [⟨document, c⟩] := by
  rw [eligible, List.flatMap_singleton, List.flatMap_assoc]
  refine List.flatMap_congr fun d hd => ?_
  rw [d.eligible_eq, ((h.mem_holdings hlt).1 hd).2, List.map_eq_flatMap]

/-- In whatever order the documents are taken, the eligible usages are those of the declarations. -/
theorem mem_eligible_iff (h : g.Arranged) {documents : List DocumentId}
    (hd : documents.Perm (g.documents.toList.map (·.id))) {e : Eligible} :
    e ∈ g.eligible documents ↔ ∃ d ∈ g.declarations, e ∈ d.eligible := by
  have hperm := h.flatMap_holdings_perm hd
  simp only [eligible, List.mem_flatMap (f := Declaration.eligible), hperm.mem_iff,
    Array.mem_toList_iff]

/-- No usage is listed twice. -/
theorem nodup_eligible (h : g.Arranged) {documents : List DocumentId}
    (hd : documents.Perm (g.documents.toList.map (·.id))) :
    ((g.eligible documents).map (·.candidate.usage)).Nodup := by
  have hperm := h.flatMap_holdings_perm hd
  rw [eligible, List.nodup_iff_pairwise_ne, List.pairwise_map, List.pairwise_flatMap]
  refine ⟨fun d _ => d.pairwise_eligible, ?_⟩
  refine List.Pairwise.imp_of_mem ?_ (hperm.nodup_iff.2 h.nodup_declarations)
  intro d d' hd hd' hne e he e' he' husage
  obtain ⟨_, slot, hslot⟩ := d.usage_of_mem_eligible he
  obtain ⟨_, slot', hslot'⟩ := d'.usage_of_mem_eligible he'
  rw [hslot, hslot'] at husage
  refine hne (h.declaration_eq ?_ ?_ (UsageRef.mk.inj husage).1)
  · exact Array.mem_toList_iff.1 (hperm.mem_iff.1 hd)
  · exact Array.mem_toList_iff.1 (hperm.mem_iff.1 hd')

/-! ## Candidates -/

theorem collect_declarations (h : g.Arranged) {ds : List Declaration}
    (hds : ∀ d ∈ ds, d ∈ g.declarations) :
    collect ((ds.map (·.id)).map g.declaration) = .ok ds := by
  rw [List.map_map, ← collect_map_ok ds]
  refine congrArg collect (List.map_congr_left fun d hd => ?_)
  rw [Function.comp_apply, declaration, h.getElem?_id (hds d hd)]

theorem Arranged.candidates_eq (h : g.Arranged) {document : DocumentId}
    (hlt : document.index < g.documents.size) :
    g.candidates document = .ok ((g.holdings document).flatMap Declaration.candidates) := by
  have hd := Array.getElem?_eq_getElem hlt
  have howned := h.owned_eq (Array.getElem_mem hlt)
  rw [Handle.ext (h.document_index hd)] at howned
  rw [Graph.candidates, document_of_getElem? hd]
  simp only [bind, Except.bind]
  rw [howned, collect_declarations h fun a ha => ((h.mem_holdings hlt).1 ha).1]
  rfl

/-! ## Meeting a demand -/

/-- A usage is refused, or its demand is met. -/
theorem apply_reconcileUsage (suffix : String) (e : Eligible) (g : Graph) :
    (reconcileUsage suffix e.document e.candidate).apply g =
      match g.demanded suffix e with
      | .error failure => (.error failure, g)
      | .ok m => (meetDemand m).apply g := by
  rw [demanded, reconcileUsage]
  cases hd : g.document e.document with
  | error handle => rw [Pass.apply_bind, Pass.apply_ask, hd]
  | ok owner =>
    rw [Pass.apply_bind_ask hd]
    dsimp only
    cases e.candidate.value.declaration? with
    | none => rfl
    | some wrapped =>
      dsimp only
      cases ht : g.declaration wrapped with
      | error handle => rw [Pass.apply_bind, Pass.apply_ask, ht]
      | ok t =>
        rw [Pass.apply_bind_ask ht]
        dsimp only
        cases MultiplexMode.of? e.candidate.group t <;> rfl

/-! ## Cores -/

namespace SameCore

variable {g' : Graph}

theorem eligible_eq (h : g.SameCore g') (documents : List DocumentId) :
    g'.eligible documents = g.eligible documents := by
  rw [eligible, eligible, h.holdings_eq]

/-- What is demanded can be told from the core. -/
theorem demanded (h : g.SameCore g') (suffix : String) (e : Eligible) :
    g'.demanded suffix e = g.demanded suffix e := by
  rw [Graph.demanded, Graph.demanded, h.declaration_eq, Graph.document, Graph.document]
  rcases h.document_cases e.document.index with ⟨hd, hd'⟩ | ⟨d, d', hd, hd', hcore⟩
  · rw [hd, hd']
  · have hheader : d'.header = d.header := congrArg (·.header) hcore
    have hsite : d'.siteOf = d.siteOf := by
      funext holder position
      rw [Document.siteOf, Document.siteOf, hheader]
    rw [hd, hd']
    dsimp only
    rw [hsite]

theorem candidates_eq (h : g.SameCore g') (ha : g.Arranged) {document : DocumentId}
    (hlt : document.index < g.documents.size) :
    g'.candidates document = .ok ((g.holdings document).flatMap Declaration.candidates) := by
  rw [h.sameOutline.size_documents] at hlt
  rw [(ha.congr h.sameOutline).candidates_eq hlt, h.holdings_eq]

end SameCore

end Graph

end SchemaFamily
