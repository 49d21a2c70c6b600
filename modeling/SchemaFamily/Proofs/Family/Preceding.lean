import SchemaFamily.Proofs.Family.Depending
import SchemaFamily.Proofs.Family.Owners
import SchemaFamily.Proofs.Family.Steps

/-
  Which documents precede which. Documents taken after their imports stand in a row in which the
  owner of what a document depends on stands before the document: a name denotes something in what
  the document imports, which was taken already (`idxOf_owner_lt_of_needsDeclaration`), and a
  multiplexer is made for the first usage of its name, so by a document that was taken already,
  imported or not (`idxOf_owner_lt_of_needsMultiplexer`). Hence no document depends on itself,
  however many documents lie between (`owners_precede_of_compile`).
-/

namespace SchemaFamily

namespace Graph

variable {g : Graph}

/-! ## Documents after their imports -/

/-- Before or after their imports, the same documents are taken. -/
theorem Preorder.perm_postorder {ids out out' : List DocumentId} (h : g.Preorder ids out)
    (h' : g.Postorder ids out') : out.Perm out' := by
  induction h generalizing out' with
  | nil =>
    cases h'
    exact .refl _
  | @cons id d ids below later found _ _ ihbelow ihlater =>
    cases h' with
    | cons found' imports' others' =>
      rw [found] at found'
      cases found'
      exact (((ihbelow imports').append (ihlater others')).cons id).trans List.perm_middle.symm

/-- A document that is taken stands right after what it imports. -/
theorem Postorder.exists_imports {ids out : List DocumentId} (h : g.Postorder ids out)
    {id : DocumentId} (hid : id ∈ out) :
    ∃ d before below after, g.document id = .ok d ∧ g.Postorder d.imported below ∧
      out = (before ++ below) ++ id :: after := by
  induction h with
  | nil => cases hid
  | @cons id' d ids below later found imports _ ihbelow ihlater =>
    rcases List.mem_append.1 hid with hbelow | hid
    · obtain ⟨d', before, below', after, hd', himports, rfl⟩ := ihbelow hbelow
      exact ⟨d', before, below', after ++ id' :: later, hd', himports, by simp⟩
    · rcases List.mem_cons.1 hid with rfl | hlater
      · exact ⟨d, [], below, later, found, imports, by simp⟩
      · obtain ⟨d', before, below', after, hd', himports, rfl⟩ := ihlater hlater
        exact ⟨d', below ++ id' :: before, below', after, hd', himports, by simp⟩

/-- What a document reaches stands before it. -/
theorem Postorder.idxOf_lt {ids out reached : List DocumentId} (h : g.Postorder ids out)
    (hnodup : out.Nodup) {id other : DocumentId} (hid : id ∈ out) (hr : g.Preorder [id] reached)
    (hother : other ∈ reached) (hne : other ≠ id) : out.idxOf other < out.idxOf id := by
  obtain ⟨d, before, below, after, hd, himports, rfl⟩ := h.exists_imports hid
  cases hr with
  | cons found imports others =>
    rw [hd] at found
    cases found
    cases others
    rw [List.append_nil, List.mem_cons] at hother
    have hbelow : other ∈ below :=
      (imports.perm_postorder himports).mem_iff.1 (hother.resolve_left hne)
    have hnot : id ∉ before ++ below := fun hm =>
      (List.nodup_append.1 hnodup).2.2 id hm id List.mem_cons_self rfl
    have hmem : other ∈ before ++ below := List.mem_append_right before hbelow
    rw [List.idxOf_append_of_mem hmem, List.idxOf_append_of_notMem hnot]
    exact Nat.lt_add_right _ (List.idxOf_lt_length_iff.2 hmem)

/-- The documents of a family in order, each once and after its imports. -/
theorem InOrder.exists_postorder (h : g.InOrder) (hne : g.documents.size ≠ 0) :
    ∃ documents, g.root? = some (.ofIndex 0) ∧ g.postorder (.ofIndex 0) = .ok documents ∧
      g.Postorder [.ofIndex 0] documents := by
  obtain ⟨documents, hpost, horder, _⟩ := postorder_of_spans h.spans
  refine ⟨documents, ?_, hpost, horder⟩
  rw [root?, if_neg]
  simpa using hne

/-! ## Owners of what names denote -/

theorem idxOf_owner_lt_of_needsDeclaration (h : g.InOrder)
    (hfresh : ∀ d ∈ g.declarations, d.definition.Fresh)
    (hok : ∀ r ∈ g.references, g.fault? r = none) {documents : List DocumentId}
    (hpost : g.Postorder [.ofIndex 0] documents) (hnodup : documents.Nodup) {g' : Graph}
    (hg' : g'.declarations = (g.settled g.references).declarations) {document : DocumentId}
    (hd : document ∈ documents) {entry : DependencyEntry}
    (hn : g'.NeedsDeclaration document entry) :
    ∃ owner, g'.dependencyOwner entry.dependency = .ok owner ∧
      owner.index < g.documents.size ∧ documents.idxOf owner < documents.idxOf document := by
  obtain ⟨a', ha', howner, slot, u, name, hu, hname, t', ht', hdeclaration, hne, rfl⟩ := hn
  rw [hg'] at ha' ht'
  obtain ⟨a, ha, rfl⟩ := Array.mem_map.1 ha'
  obtain ⟨t, ht, rfl⟩ := Array.mem_map.1 ht'
  obtain ⟨_, htarget⟩ := target_of_settled h hfresh hok ha hu
  obtain ⟨t₁, ht₁, hdenotes⟩ := htarget name hname
  have hsame : t₁ = t := by
    rw [hdeclaration, Option.some.injEq] at ht₁
    exact h.arranged.declaration_eq hdenotes.mem.1 ht ht₁.symm
  subst hsame
  obtain ⟨reached, hreached, hmem⟩ := hdenotes.exists_owner
  rw [show a.owner = document from howner] at hreached
  refine ⟨t₁.owner, ?_, h.arranged.owner_lt ht, hpost.idxOf_lt hnodup hd hreached hmem hne⟩
  have hdeclared : g'.declaration t₁.id = .ok (g.settleDeclaration g.references t₁) := by
    rw [← declaration_settled h ht, declaration, hg', declaration]
  show (g'.declaration t₁.id).map (·.owner) = _
  rw [hdeclared]
  rfl

/-! ## Owners of multiplexers -/

theorem idxOf_pairwise {documents : List DocumentId} (hnodup : documents.Nodup) :
    documents.Pairwise fun a b => documents.idxOf a < documents.idxOf b := by
  rw [List.pairwise_iff_getElem]
  intro i j hi hj hij
  rwa [hnodup.idxOf_getElem i hi, hnodup.idxOf_getElem j hj]

/-- Eligible usages are taken in the order of the documents. -/
theorem pairwise_eligible_document (h : g.Arranged) {documents : List DocumentId}
    (hperm : documents.Perm (g.documents.toList.map (·.id))) :
    (g.eligible documents).Pairwise fun e e' =>
      documents.idxOf e.document ≤ documents.idxOf e'.document := by
  have hdocument : ∀ document ∈ documents, ∀ d ∈ g.holdings document, ∀ e ∈ d.eligible,
      e.document = document := by
    intro document hm d hd e he
    have hlt := h.mem_ids_iff.1 (hperm.mem_iff.1 hm)
    exact (d.usage_of_mem_eligible he).1.trans ((h.mem_holdings hlt).1 hd).2
  rw [eligible, List.flatMap_assoc, List.pairwise_flatMap]
  refine ⟨fun document hm => ?_, ?_⟩
  · refine List.pairwise_of_forall_mem_list fun e he e' he' => ?_
    obtain ⟨d, hd, he⟩ := List.mem_flatMap.1 he
    obtain ⟨d', hd', he'⟩ := List.mem_flatMap.1 he'
    rw [hdocument document hm d hd e he, hdocument document hm d' hd' e' he']
  · refine (idxOf_pairwise (hperm.nodup_iff.2 h.nodup_ids)).imp_of_mem ?_
    intro document document' hm hm' hlt e he e' he'
    obtain ⟨d, hd, he⟩ := List.mem_flatMap.1 he
    obtain ⟨d', hd', he'⟩ := List.mem_flatMap.1 he'
    rw [hdocument document hm d hd e he, hdocument document' hm' d' hd' e' he']
    exact Nat.le_of_lt hlt

/-- What is found first comes before all else that is like it. -/
theorem pairwise_find? {α : Type} {R : α → α → Prop} (refl : ∀ a, R a a) {p : α → Bool}
    {as : List α} (h : as.Pairwise R) {first a : α} (hf : as.find? p = some first) (ha : a ∈ as)
    (hp : p a = true) : R first a := by
  obtain ⟨_, before, after, rfl, hbefore⟩ := List.find?_eq_some_iff_append.1 hf
  rcases List.mem_append.1 ha with ha | ha
  · have := hbefore a ha
    rw [hp] at this
    cases this
  · rcases List.mem_cons.1 ha with rfl | ha
    · exact refl a
    · exact (List.pairwise_cons.1 (List.pairwise_append.1 h).2.1).1 a ha

/-- A multiplexer is owned by the document that holds the first usage of its derived name. -/
theorem exists_first_of_needsMultiplexer (h : g.Arranged) {suffix : String}
    {documents finished : List DocumentId}
    (hperm : documents.Perm (g.documents.toList.map (·.id))) {demands : List Multiplexer}
    (hdemands : demands = g.demands suffix (g.eligible documents))
    (hall : ∀ e ∈ g.eligible documents, ∃ m, g.demanded suffix e = .ok m)
    (hcap : (arena demands).length ≤ maxIndex + 1) {document : DocumentId}
    {entry : DependencyEntry} (hn : (g.served finished demands).NeedsMultiplexer document entry) :
    ∃ owner, (g.served finished demands).dependencyOwner entry.dependency = .ok owner ∧
      owner ≠ document ∧ owner.index < g.documents.size ∧
      ∃ e ∈ g.eligible documents, e.document = document ∧ ∀ e' ∈ g.eligible documents,
        g.derivedName? suffix e' = g.derivedName? suffix e →
          documents.idxOf owner ≤ documents.idxOf e'.document := by
  obtain ⟨m, hm, hne, ⟨a, ha, howner, slot, hfor⟩, rfl⟩ := hn
  have hm : m ∈ arena demands := List.mem_toArray.1 hm
  have hnodup := nodup_eligible h hperm
  have hask : (g.served finished demands).multiplexer m.id = .ok m := multiplexer_served hcap hm
  -- the usage that the multiplexer represents is eligible, and the document holds it
  have hmem : (⟨a.id, slot⟩ : UsageRef) ∈ (g.eligible documents).map (·.candidate.usage) := by
    by_contra hnot
    rw [hdemands, multiplexerFor?_served_eq_none hnodup finished hnot] at hfor
    cases hfor
  obtain ⟨e, he, husage⟩ := List.mem_map.1 hmem
  obtain ⟨d, hd, hed⟩ := (mem_eligible_iff h hperm).1 he
  obtain ⟨hdemands', slot', hslot⟩ := d.usage_of_mem_eligible hed
  rw [hslot] at husage
  have hdocument : e.document = document := by
    rw [hdemands', ← howner, h.declaration_eq hd ha (UsageRef.mk.inj husage).1]
  -- it is represented by the multiplexer made for the first usage of its derived name
  obtain ⟨first, s, hfirst, hs, hmade, hname⟩ := exists_madeFor_first hall he
  rw [← hdemands] at hs
  have hsame : s = m := by
    have hfor' := multiplexerFor?_served_of_name hall hnodup finished he (hdemands ▸ hs) hname
    rw [← hdemands, hslot, husage, hfor, Option.some.injEq] at hfor'
    rw [hfor', multiplexer_served hcap hs] at hask
    exact Except.ok.inj hask
  subst hsame
  obtain ⟨d', hd', hed'⟩ := (mem_eligible_iff h hperm).1 (List.mem_of_find?_eq_some hfirst)
  refine ⟨s.owner, ?_, hne, ?_, e, he, hdocument, fun e' he' hsame => ?_⟩
  · rw [dependencyOwner, hask]
    rfl
  · rw [hmade.owner, (d'.usage_of_mem_eligible hed').1]
    exact h.owner_lt hd'
  · rw [hmade.owner]
    exact pairwise_find? (R := fun e e' => documents.idxOf e.document ≤
      documents.idxOf e'.document) (fun _ => Nat.le_refl _) (pairwise_eligible_document h hperm)
      hfirst he' (beq_iff_eq.2 hsame)

theorem idxOf_owner_lt_of_needsMultiplexer (h : g.Arranged) {suffix : String}
    {documents finished : List DocumentId}
    (hperm : documents.Perm (g.documents.toList.map (·.id))) {demands : List Multiplexer}
    (hdemands : demands = g.demands suffix (g.eligible documents))
    (hall : ∀ e ∈ g.eligible documents, ∃ m, g.demanded suffix e = .ok m)
    (hcap : (arena demands).length ≤ maxIndex + 1) {document : DocumentId}
    {entry : DependencyEntry} (hn : (g.served finished demands).NeedsMultiplexer document entry) :
    ∃ owner, (g.served finished demands).dependencyOwner entry.dependency = .ok owner ∧
      owner.index < g.documents.size ∧ documents.idxOf owner < documents.idxOf document := by
  obtain ⟨owner, hok, hne, hlt, e, he, hdocument, hle⟩ :=
    exists_first_of_needsMultiplexer h hperm hdemands hall hcap hn
  have hlisted : owner ∈ documents := hperm.mem_iff.2 (h.mem_ids_iff.2 hlt)
  refine ⟨owner, hok, hlt, Nat.lt_of_le_of_ne ?_ fun heq => hne ?_⟩
  · rw [← hdocument]
    exact hle e he rfl
  · exact (List.idxOf_inj hlisted).1 heq

/-! ## Documents depended on -/

/-- A document depends on something that another owns. -/
def DependsOn (g : Graph) (document owner : DocumentId) : Prop :=
  ∃ owners, g.importedDependencies document = .ok owners ∧ owner ∈ owners

/-- The documents that a document depends on are the owners of its dependencies. -/
theorem Arranged.exists_importedDependencies (h : g.Arranged) {d : Document} (hd : d ∈ g.documents)
    (howner : ∀ entry ∈ d.dependencies.entries, ∃ owner,
      g.dependencyOwner entry.dependency = .ok owner ∧ owner.index < g.documents.size) :
    ∃ owners, g.importedDependencies d.id = .ok owners ∧ ∀ owner, owner ∈ owners ↔
      ∃ entry ∈ d.dependencies.entries, g.dependencyOwner entry.dependency = .ok owner := by
  obtain ⟨owners, howners, hmem, _⟩ := Graph.exists_importedDependencies
    (document_of_getElem? (h.document_getElem?_id hd)) fun entry he => by
      obtain ⟨owner, hok, hlt⟩ := howner entry he
      exact ⟨owner, _, hok, document_of_getElem? (Array.getElem?_eq_getElem hlt)⟩
  exact ⟨owners, howners, hmem⟩

theorem DependsOn.mem {document owner : DocumentId} (h : g.DependsOn document owner) :
    ∃ d, g.documents[document.index]? = some d := by
  obtain ⟨owners, howners, _⟩ := h
  cases hd : g.documents[document.index]? with
  | some d => exact ⟨d, rfl⟩
  | none =>
    simp only [importedDependencies, Graph.document, hd, bind, Except.bind] at howners
    cases howners

/-- What leads from each document to one of smaller rank leads nowhere back. -/
theorem not_transGen_self {α : Type} {r : α → α → Prop} (rank : α → Nat)
    (h : ∀ a b, r a b → rank b < rank a) (a : α) : ¬ Relation.TransGen r a a := by
  have hlt : ∀ b, Relation.TransGen r a b → rank b < rank a := by
    intro b hb
    induction hb with
    | single hab => exact h _ _ hab
    | tail _ hbc ih => exact Nat.lt_trans (h _ _ hbc) ih
  exact fun ha => Nat.lt_irrefl _ (hlt a ha)

/-- Where the owner of whatever a document depends on has a smaller rank, no document depends on
    itself. -/
theorem Arranged.not_transGen_dependsOn (h : g.Arranged) (rank : DocumentId → Nat)
    (howner : ∀ d ∈ g.documents, ∀ entry ∈ d.dependencies.entries, ∃ owner,
      g.dependencyOwner entry.dependency = .ok owner ∧ owner.index < g.documents.size ∧
        rank owner < rank d.id) (document : DocumentId) :
    ¬ Relation.TransGen g.DependsOn document document := by
  refine not_transGen_self rank (fun document owner hdepends => ?_) document
  obtain ⟨d, hd⟩ := hdepends.mem
  have hid : d.id = document := Handle.ext (h.document_index hd)
  have hd : d ∈ g.documents := Array.mem_of_getElem? hd
  obtain ⟨owners, howners, hmem⟩ := h.exists_importedDependencies hd fun entry he => by
    obtain ⟨owner, hok, hlt, _⟩ := howner d hd entry he
    exact ⟨owner, hok, hlt⟩
  obtain ⟨owners', howners', howner'⟩ := hdepends
  rw [← hid, howners] at howners'
  cases howners'
  obtain ⟨entry, he, hok⟩ := (hmem owner).1 howner'
  obtain ⟨owner', hok', _, hlt⟩ := howner d hd entry he
  rw [hok] at hok'
  cases hok'
  rwa [← hid]

end Graph

/-! ## Documents of a family -/

section

variable {disk : Disk} {settings : Settings} {p base : Path} {c c' : Cache} {g : Graph}

/-- In a family that was compiled, take the documents after their imports: each is taken once, and
    the owner of whatever a document depends on, a declaration or a multiplexer, is taken before
    the document. The documents that one depends on are these owners, and no document depends on
    itself, be it through others. -/
theorem owners_precede_of_compile (hc : c.ReadFromTexts)
    (hg : (compileIn disk settings p base).run.run c = (.ok g, c')) (ha : g.Addressable) :
    ∃ root documents, g.root? = some root ∧ g.postorder root = .ok documents ∧
      documents.Perm (g.documents.toList.map (·.id)) ∧ documents.Nodup ∧
      (∀ d ∈ g.documents, ∀ entry ∈ d.dependencies.entries, ∃ owner,
        g.dependencyOwner entry.dependency = .ok owner ∧
          documents.idxOf owner < documents.idxOf d.id) ∧
      (∀ d ∈ g.documents, ∃ owners, g.importedDependencies d.id = .ok owners ∧
        ∀ owner, owner ∈ owners ↔
          ∃ entry ∈ d.dependencies.entries, g.dependencyOwner entry.dependency = .ok owner) ∧
      ∀ document, ¬ Relation.TransGen g.DependsOn document document := by
  obtain ⟨tree, k, g₁, n, hr, hl, hs⟩ := passes_of_compile hg
  have haddressable := addressable_of_passes hl hs ha
  have hfresh := Graph.fresh_ofTree (fresh_of_resolve hc hr)
  obtain ⟨h₁, ha₁, _, hne⟩ := reconcilable_of_link haddressable hl
  obtain ⟨hok, hsettled, _⟩ := settled_of_link haddressable hl
  obtain ⟨documents, hpost, hperm, hall, hg', _⟩ := served_of_reconcile haddressable hl hs
  have hkept := keeps_reconcile settings.multiplexerSuffix g₁
  rw [hs] at hkept
  have himports : g₁.SameImports g := hg' ▸ g₁.sameImports_served _ _
  have h : g.InOrder := h₁.congr hkept himports
  obtain ⟨documents', hroot, hpostorder, horder⟩ :=
    h.exists_postorder (hkept.size_documents ▸ hne)
  obtain rfl : documents = documents' := (hpost.congr himports).unique horder
  have hnodup := hperm.nodup_iff.2 h₁.arranged.nodup_ids
  have hids : documents.Perm (g.documents.toList.map (·.id)) := by
    rw [hg', Graph.ids_served]
    exact hperm
  have howner : ∀ d ∈ g.documents, ∀ entry ∈ d.dependencies.entries, ∃ owner,
      g.dependencyOwner entry.dependency = .ok owner ∧ owner.index < g.documents.size ∧
        documents.idxOf owner < documents.idxOf d.id := by
    intro d hd entry he
    have hlisted : d.id ∈ documents :=
      hids.mem_iff.2 (List.mem_map.2 ⟨d, Array.mem_toList_iff.2 hd, rfl⟩)
    have hcap := Nat.le_trans
      (Graph.length_arena_le g₁ settings.multiplexerSuffix (g₁.eligible documents)) ha₁.2
    obtain ⟨hexact, _⟩ := Graph.dependencies_served_settled (Graph.inOrder_ofTree haddressable)
      (Graph.bare_ofTree tree) hfresh hok hsettled h₁.arranged hperm rfl hcap (hg' ▸ hd)
    rw [← hg'] at hexact
    rw [← hkept.size_documents]
    rcases (hexact entry).1 he with hn | hn
    · -- reconciling changes no declaration
      have hdeclarations : g.declarations = g₁.declarations := by
        rw [hg', Graph.served]
      rw [hsettled] at hpost hdeclarations ⊢
      rw [← (Graph.sameOutline_settled _ _).size_documents]
      exact Graph.idxOf_owner_lt_of_needsDeclaration (Graph.inOrder_ofTree haddressable) hfresh hok
        (hpost.congr (Graph.sameImports_settled _ _).symm) hnodup hdeclarations hlisted hn
    · rw [hg'] at hn ⊢
      exact Graph.idxOf_owner_lt_of_needsMultiplexer h₁.arranged hperm rfl hall hcap hn
  refine ⟨_, documents, hroot, hpostorder, hids, hnodup, fun d hd entry he => ?_,
    fun d hd => ?_, h.arranged.not_transGen_dependsOn documents.idxOf howner⟩
  · obtain ⟨owner, hok, _, hlt⟩ := howner d hd entry he
    exact ⟨owner, hok, hlt⟩
  · refine h.arranged.exists_importedDependencies hd fun entry he => ?_
    obtain ⟨owner, hok, hlt, _⟩ := howner d hd entry he
    exact ⟨owner, hok, hlt⟩

end

/-- A file that imports two others, each of which groups a field of its own of the same name. -/
def siblingGroups : Disk := .ofSights
  [(⟨"a"⟩, .file (some "<METASCHEMA><import href=\"b\"/><import href=\"c\"/></METASCHEMA>")),
    (⟨"b"⟩, .file (some siblingText)), (⟨"c"⟩, .file (some siblingText))]
where
  siblingText := "<METASCHEMA><define-field name=\"p\"/><define-assembly name=\"q\"><model>" ++
    "<field ref=\"p\"><group-as name=\"g\"/></field></model></define-assembly></METASCHEMA>"

/-- The second imported file depends on the first, which it does not import. -/
theorem owners_precede_siblingGroups :
    ∃ g c' documents, (compileIn siblingGroups {} ⟨"a"⟩ ⟨""⟩).run.run {} = (.ok g, c') ∧
      g.Addressable ∧ g.postorder (.ofIndex 0) = .ok documents ∧
      (∃ d ∈ g.documents, d.imported = [] ∧ d.dependencies.size = 1 ∧
        ∀ entry ∈ d.dependencies.entries, ∃ owner,
          g.dependencyOwner entry.dependency = .ok owner ∧
            documents.idxOf owner < documents.idxOf d.id) ∧
      ∀ document, ¬ Relation.TransGen g.DependsOn document document := by
  have hkey : succeeds (fun tree _ => succeeds (fun _ g => decide (g.Addressable ∧
        g.root? = some (.ofIndex 0) ∧
        ∃ d ∈ g.documents.toList, d.imported = [] ∧ d.dependencies.size = 1))
          ((finishFamily ({} : Settings).multiplexerSuffix).apply (Graph.ofTree tree)))
      ((resolveFrom siblingGroups [] ⟨""⟩ 2 [] ⟨"a"⟩).run.run {}) = true := by
    decide +kernel
  obtain ⟨tree, c', hr, hfinish⟩ := exists_of_succeeds hkey
  obtain ⟨_, g, hf, hcheck⟩ := exists_of_succeeds hfinish
  have hg : (compileIn siblingGroups {} ⟨"a"⟩ ⟨""⟩).run.run {} = (.ok g, c') :=
    run_compileIn_of_two_steps hr hf
  obtain ⟨ha, hroot, d, hd, himported, hsize⟩ := of_decide_eq_true hcheck
  rw [Array.mem_toList_iff] at hd
  obtain ⟨root, documents, hroot', hpost, _, _, howner, _, hacyclic⟩ :=
    owners_precede_of_compile Cache.readFromTexts_empty hg ha
  rw [hroot, Option.some.injEq] at hroot'
  subst hroot'
  exact ⟨g, c', documents, hg, ha, hpost, ⟨d, hd, himported, hsize, howner d hd⟩, hacyclic⟩

end SchemaFamily
