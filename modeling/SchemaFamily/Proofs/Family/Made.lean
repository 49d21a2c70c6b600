import SchemaFamily.Proofs.Family.Compiling
import SchemaFamily.Proofs.Family.Filing
import SchemaFamily.Proofs.Family.Frames
import SchemaFamily.Proofs.Family.Owners
import SchemaFamily.Proofs.Family.Sound

/-
  Graphs as they are made. Whoever holds a graph may add drafts and multiplexers to it, in any
  order, and may change its documents and declarations, but for the handles and the owners that
  they were given (`Made`). What such changes keep is that documents are numbered by their places
  and that owners are documents (`Homed`): each change keeps it, so every graph that is made has it
  (`Made.homed`), one that a pass left half way included (`made_build`). Hence what a document
  depends on says, however it came to be registered, which documents own it, and the list of these
  tells nothing else (`importedDependencies_of_made`).
-/

namespace SchemaFamily

namespace Graph

/-- The graph is made of the empty one by changes. A document that is changed keeps its handle, and
    a declaration its owner. -/
inductive Made : Graph → Prop where
  | empty : Made {}
  | insert {g : Graph} (before : Made g) (draft : Draft) : Made (g.insert draft).1
  | addMultiplexer {g : Graph} (before : Made g) (build : MultiplexerId → Multiplexer) :
      Made (g.addMultiplexer build).1
  | bindUsage {g : Graph} (before : Made g) (ref : UsageRef) (id : MultiplexerId) :
      Made (g.bindUsage ref id)
  | changeDocument {g : Graph} (before : Made g) (id : DocumentId) (f : Document → Document)
      (same : ∀ d, (f d).id = d.id) : Made { g with documents := g.documents.modify id.index f }
  | changeDeclaration {g : Graph} (before : Made g) (id : DeclarationId)
      (f : Declaration → Declaration) (same : ∀ t, (f t).owner = t.owner) :
      Made { g with declarations := g.declarations.modify id.index f }

/-- Documents are numbered by their places, and what is owned is owned by documents. -/
structure Homed (g : Graph) : Prop where
  numbered : ∀ {i : Nat} {d : Document}, g.documents[i]? = some d → d.id = .ofIndex i
  declarations : ∀ t ∈ g.declarations, t.owner.index < g.documents.size
  multiplexers : ∀ m ∈ g.multiplexers, m.owner.index < g.documents.size

variable {g g' : Graph}

/-! ## What a change keeps -/

namespace Homed

theorem empty : Homed {} := by
  refine ⟨fun h => ?_, fun t ht => ?_, fun m hm => ?_⟩ <;> simp at *

/-- Only the handles and the number of documents and the owners count. -/
theorem congr (h : g.Homed) (hdocuments : g'.documents.map (·.id) = g.documents.map (·.id))
    (hdeclarations : g'.declarations.map (·.owner) = g.declarations.map (·.owner))
    (hmultiplexers : g'.multiplexers = g.multiplexers) : g'.Homed := by
  have hsize : g'.documents.size = g.documents.size := by
    simpa using congrArg Array.size hdocuments
  refine ⟨fun {i d} hd => ?_, fun t ht => ?_, fun m hm => ?_⟩
  · have hi := congrArg (·[i]?) hdocuments
    simp only [Array.getElem?_map, hd, Option.map_some] at hi
    obtain ⟨d', hd', hid⟩ := Option.map_eq_some_iff.1 hi.symm
    rw [← hid, h.numbered hd']
  · have howner : t.owner ∈ g.declarations.map (·.owner) :=
      hdeclarations ▸ Array.mem_map_of_mem ht
    obtain ⟨t', ht', howner⟩ := Array.mem_map.1 howner
    rw [hsize, ← howner]
    exact h.declarations t' ht'
  · rw [hsize]
    exact h.multiplexers m (hmultiplexers ▸ hm)

theorem insert (h : g.Homed) (draft : Draft) : (g.insert draft).1.Homed := by
  have hlt : ∀ {owner : DocumentId}, owner.index < g.documents.size →
      owner.index < (g.insert draft).1.documents.size := by
    intro owner howner
    rw [size_documents_insert]
    omega
  refine ⟨fun {i d} hd => ?_, fun t ht => ?_, fun m hm => hlt (h.multiplexers m hm)⟩
  · rw [documents_insert, Array.getElem?_push] at hd
    split at hd
    · next hi =>
      cases hd
      rw [hi]
      exact Document.id_foldl_adopt _ _
    · exact h.numbered hd
  · rw [declarations_insert, Array.mem_append] at ht
    rcases ht with ht | ht
    · exact hlt (h.declarations t ht)
    · rw [owner_of_mem_placed (List.mem_toArray.1 ht), size_documents_insert]
      exact Nat.lt_succ_of_le (Nat.min_le_left _ _)

theorem changeDocument (h : g.Homed) {f : Document → Document} (same : ∀ d, (f d).id = d.id)
    (i : Nat) : Homed { g with documents := g.documents.modify i f } :=
  h.congr (map_modify_of_same (p := Document.id) same _ _) rfl rfl

theorem changeDeclaration (h : g.Homed) {f : Declaration → Declaration}
    (same : ∀ t, (f t).owner = t.owner) (i : Nat) :
    Homed { g with declarations := g.declarations.modify i f } :=
  h.congr rfl (map_modify_of_same (p := Declaration.owner) same _ _) rfl

theorem addMultiplexer (h : g.Homed) (build : MultiplexerId → Multiplexer) :
    (g.addMultiplexer build).1.Homed := by
  rcases g.addMultiplexer_cases build rfl with hadd | ⟨howner, hadd⟩
  · rw [hadd]
    exact h.congr rfl rfl rfl
  · rw [hadd]
    have hchanged := h.changeDocument (f := fun d : Document =>
      { d with multiplexers := d.multiplexers ++ [.ofIndex g.multiplexers.size] })
      (fun _ => rfl) (build (.ofIndex g.multiplexers.size)).owner.index
    refine ⟨hchanged.numbered, hchanged.declarations, fun m hm => ?_⟩
    rcases Array.mem_push.1 hm with hm | rfl
    · exact hchanged.multiplexers m hm
    · rw [Array.size_modify]
      exact howner

theorem bindUsage (h : g.Homed) (ref : UsageRef) (id : MultiplexerId) :
    (g.bindUsage ref id).Homed := by
  unfold Graph.bindUsage
  split
  · exact h
  · exact h.congr rfl rfl rfl

/-! ## What is owned by documents -/

/-- Whatever is owned is owned by a document. -/
theorem exists_of_dependencyOwner (h : g.Homed) {dependency : Dependency} {owner : DocumentId}
    (ho : g.dependencyOwner dependency = .ok owner) : ∃ d, g.document owner = .ok d := by
  refine exists_document_of_lt ?_
  cases dependency with
  | declaration id =>
    obtain ⟨t, ht, rfl⟩ := exists_of_map_ok ho
    exact h.declarations t (Array.mem_of_getElem? (getElem?_of_declaration ht))
  | multiplexer id =>
    obtain ⟨m, hm, rfl⟩ := exists_of_map_ok ho
    exact h.multiplexers m (Array.mem_of_getElem? (getElem?_of_multiplexer hm))

end Homed

/-- Every graph that is made is as it should be, change by change. -/
theorem Made.homed (h : g.Made) : g.Homed := by
  induction h with
  | empty => exact .empty
  | insert _ draft ih => exact ih.insert draft
  | addMultiplexer _ build ih => exact ih.addMultiplexer build
  | bindUsage _ ref id ih => exact ih.bindUsage ref id
  | changeDocument _ id f same ih => exact ih.changeDocument same id.index
  | changeDeclaration _ id f same ih => exact ih.changeDeclaration same id.index

/-! ## What is done to a graph -/

namespace Made

theorem addImport (h : g.Made) {parent child : DocumentId}
    (ha : g.addImport parent child = .ok g') : g'.Made := by
  obtain ⟨_, _, rfl⟩ := exists_of_map_ok ha
  exact h.changeDocument parent _ fun _ => rfl

theorem registerDependency (h : g.Made) {document owner : DocumentId} {name : String}
    {dependency : Dependency}
    (hr : (g.registerDependency document owner name dependency).map (·.1) = .ok g') : g'.Made := by
  rcases eq_of_registerDependency hr with rfl | ⟨nameSpace, _, rfl⟩
  · exact h
  · exact h.changeDocument document _ fun _ => rfl

theorem sortMultiplexers (h : g.Made) {id : DocumentId} (hs : g.sortMultiplexers id = .ok g') :
    g'.Made := by
  obtain ⟨_, _, _, _, rfl⟩ := eq_of_sortMultiplexers hs
  exact h.changeDocument id _ fun _ => rfl

theorem modifyUsage (h : g.Made) (ref : UsageRef) (f : Usage → Usage) :
    (g.modifyUsage ref f).Made :=
  h.changeDeclaration ref.declaration _ fun _ => rfl

end Made

end Graph

/-! ## Passes and operations -/

open Pass

/-- Where the first graph is made, the second one is. -/
def Graph.KeepsMade (g g' : Graph) : Prop := g.Made → g'.Made

theorem Graph.KeepsMade.refl (g : Graph) : g.KeepsMade g := id

theorem Graph.KeepsMade.trans (g g' g'' : Graph) (h : g.KeepsMade g') (h' : g'.KeepsMade g'') :
    g.KeepsMade g'' := h' ∘ h

theorem made_linkDocument (document : DocumentId) :
    Keeps Graph.KeepsMade (linkDocument document) :=
  .linkDocument .refl .trans (fun h hg => hg.registerDependency h)
    (fun _ ref target hg => hg.modifyUsage ref (·.resolve target)) document

theorem made_link : Keeps Graph.KeepsMade link :=
  .link .refl .trans (fun h hg => hg.registerDependency h)
    fun _ ref target hg => hg.modifyUsage ref (·.resolve target)

theorem made_reconcile (suffix : String) : Keeps Graph.KeepsMade (reconcile suffix) :=
  .reconcile .refl .trans (fun h hg => hg.registerDependency h)
    (fun _ ref id hg => hg.bindUsage ref id) (fun _ build _ hg => hg.addMultiplexer build)
    (fun h hg => hg.sortMultiplexers h) suffix

namespace Graph

variable {g g' : Graph}

theorem Made.run (h : g.Made) (operation : Operation) : (operation.run g).Made := by
  cases operation with
  | insert draft => exact h.insert draft
  | addImport parent child =>
    show ((g.addImport parent child).toOption.getD g).Made
    cases ha : g.addImport parent child with
    | error handle => exact h
    | ok g' => exact h.addImport ha
  | link => exact made_link g h
  | linkDocument document => exact made_linkDocument document g h
  | reconcile suffix => exact made_reconcile suffix g h

/-- What operations leave is made of the empty graph, whether they succeed or fail half way. -/
theorem made_build (operations : List Operation) : (build operations).Made := by
  have hrun : ∀ g : Graph, g.Made → (operations.foldl Operation.run g).Made := by
    induction operations with
    | nil => exact fun _ h => h
    | cons operation later ih => exact fun _ h => ih _ (h.run operation)
  exact hrun {} .empty

theorem made_ofTree (tree : ImportTree) : (ofTree tree).Made :=
  ofTree_induction (P := fun _ g => g.Made)
    ⟨.empty, fun _ _ draft h => h.insert draft,
      fun _ _ parent _ _ h => h.changeDocument parent _ fun _ => rfl⟩ tree

/-- A family that was compiled is made. -/
theorem made_of_compile {disk : Disk} {settings : Settings} {p base : Path} {c c' : Cache}
    (hg : (compileIn disk settings p base).run.run c = (.ok g, c')) : g.Made := by
  obtain ⟨tree, _, g₁, _, _, hl, hs⟩ := passes_of_compile hg
  have hlinked := made_link _ (made_ofTree tree)
  rw [hl] at hlinked
  have hreconciled := made_reconcile settings.multiplexerSuffix _ hlinked
  rwa [hs] at hreconciled

/-! ## The documents that a document depends on -/

/-- The list of owners can be told as long as everything that the document depends on is there. -/
theorem Made.exists_importedDependencies_iff (h : g.Made) {id : DocumentId} {d : Document}
    (hd : g.document id = .ok d) : (∃ owners, g.importedDependencies id = .ok owners) ↔
      ∀ e ∈ d.dependencies.entries, ∃ owner, g.dependencyOwner e.dependency = .ok owner := by
  constructor
  · rintro ⟨owners, howners⟩ e he
    rw [importedDependencies_eq hd] at howners
    obtain ⟨_, hlisted, _⟩ := exists_of_bind_ok howners
    exact exists_of_mapM_ok hlisted he
  · intro howned
    obtain ⟨owners, howners, _⟩ := exists_importedDependencies hd fun e he => by
      obtain ⟨owner, howner⟩ := howned e he
      obtain ⟨o, ho⟩ := h.homed.exists_of_dependencyOwner howner
      exact ⟨owner, o, howner, ho⟩
    exact ⟨owners, howners⟩

theorem Made.importedDependencies_eq_ok (h : g.Made) {id : DocumentId} {d : Document}
    (hd : g.document id = .ok d) {owners : List DocumentId}
    (howners : g.importedDependencies id = .ok owners) :
    (∀ owner, owner ∈ owners ↔ g.OwnsFor d owner) ∧ owners.Pairwise g.NamedBefore := by
  obtain ⟨owners', howners', hmem⟩ := exists_importedDependencies hd fun e he => by
    obtain ⟨owner, howner⟩ := (h.exists_importedDependencies_iff hd).1 ⟨owners, howners⟩ e he
    obtain ⟨o, ho⟩ := h.homed.exists_of_dependencyOwner howner
    exact ⟨owner, o, howner, ho⟩
  rw [howners] at howners'
  cases howners'
  exact hmem

/-- The handle is that of documents with one name in both graphs, or of none in either. -/
def NamesAlike (g g' : Graph) (id : DocumentId) : Prop :=
  (g'.document id).map (·.name) = (g.document id).map (·.name)

theorem NamesAlike.exists_document {id : DocumentId} (h : g.NamesAlike g' id) {d : Document}
    (hd : g.document id = .ok d) : ∃ d', g'.document id = .ok d' ∧ d'.name = d.name := by
  rw [NamesAlike, hd] at h
  exact exists_of_map_ok h

theorem NamesAlike.namedBefore {a b : DocumentId} (ha : g.NamesAlike g' a)
    (hb : g.NamesAlike g' b) (h : g.NamedBefore a b) : g'.NamedBefore a b := by
  obtain ⟨d, e, hd, he, hlt⟩ := h
  obtain ⟨d', hd', hdname⟩ := ha.exists_document hd
  obtain ⟨e', he', hename⟩ := hb.exists_document he
  exact ⟨d', e', hd', he', by rwa [hdname, hename]⟩

/-- In every graph that is made, the documents that a document depends on can be listed exactly if
    what it depends on is there. The list has the owners of these dependencies and no others, each
    once, in the order of the bytes of their names and, where names are equal, of their handles. No
    other document with the same owners, in this graph or in another one in which these have the
    same names, has another list, whatever it depends on and however that was registered. -/
theorem importedDependencies_of_made (hg : g.Made) {id : DocumentId} {d : Document}
    (hd : g.document id = .ok d) :
    ((∃ owners, g.importedDependencies id = .ok owners) ↔
      ∀ e ∈ d.dependencies.entries, ∃ owner, g.dependencyOwner e.dependency = .ok owner) ∧
    ∀ owners, g.importedDependencies id = .ok owners →
      (∀ owner, owner ∈ owners ↔ g.OwnsFor d owner) ∧ owners.Nodup ∧
      owners.Pairwise g.NamedBefore ∧
      ∀ (g' : Graph) (id' : DocumentId) (d' : Document), g'.Made → g'.document id' = .ok d' →
        (∀ e ∈ d'.dependencies.entries, ∃ owner, g'.dependencyOwner e.dependency = .ok owner) →
        (∀ owner, g'.OwnsFor d' owner ↔ g.OwnsFor d owner) →
        (∀ owner, g.OwnsFor d owner → g.NamesAlike g' owner) →
        g'.importedDependencies id' = .ok owners := by
  refine ⟨hg.exists_importedDependencies_iff hd, fun owners howners => ?_⟩
  obtain ⟨hmem, horder⟩ := hg.importedDependencies_eq_ok hd howners
  refine ⟨hmem, horder.imp fun h he => ?_, horder, ?_⟩
  · subst he
    exact h.asymm h
  · intro g' id' d' hg' hd' howned hsame hnames
    obtain ⟨owners', howners'⟩ := (hg'.exists_importedDependencies_iff hd').2 howned
    obtain ⟨hmem', horder'⟩ := hg'.importedDependencies_eq_ok hd' howners'
    have horder : owners.Pairwise g'.NamedBefore := horder.imp_of_mem fun {a b} ha hb h =>
      (hnames a ((hmem a).1 ha)).namedBefore (hnames b ((hmem b).1 hb)) h
    rw [howners', eq_of_pairwise_namedBefore horder' horder fun owner => by
      rw [hmem', hmem, hsame]]

/-- A field with three flags, two of which are defined in one document and one in another that has
    the same name. -/
def sameNames : List Operation :=
  [.insert { header := { name := "a" }, definitions := [⟨.everywhere, field⟩] },
    .insert { header := { name := "b" }, definitions := [flag "x", flag "y"] },
    .insert { header := { name := "b" }, definitions := [flag "c"] },
    .addImport (.ofIndex 0) (.ofIndex 1), .addImport (.ofIndex 0) (.ofIndex 2), .link]
where
  flag (name : String) : Drafted := ⟨.everywhere, { name, body := .flag {} }⟩
  use (name : String) : Usage := { kind := .flag, target := .reference name none }
  field : Definition := { name := "f", body := .field { flags := ["x", "y", "c"].map use } }

theorem importedDependencies_sameNames :
    ∃ d, (build sameNames).document (.ofIndex 0) = .ok d ∧
      d.dependencies.entries.map (·.name) = ["c", "x", "y"] ∧
      (build sameNames).importedDependencies (.ofIndex 0) = .ok [.ofIndex 1, .ofIndex 2] ∧
      (∀ owner, owner ∈ [.ofIndex 1, .ofIndex 2] ↔ (build sameNames).OwnsFor d owner) ∧
      [.ofIndex 1, .ofIndex 2].Pairwise (build sameNames).NamedBefore := by
  have hkey : ((build sameNames).document (.ofIndex 0)).toOption.map (fun d =>
        (d.dependencies.entries.map (·.name),
          d.dependencies.entries.map fun e => (build sameNames).dependencyOwner e.dependency)) =
      some (["c", "x", "y"], [.ok (.ofIndex 2), .ok (.ofIndex 1), .ok (.ofIndex 1)]) := by
    decide +kernel
  have hname : ∀ i : Fin 2, ∃ d, (build sameNames).document (.ofIndex (i + 1)) = .ok d ∧
      d.name = "b" := by
    have hnames : ∀ i : Fin 2, ((build sameNames).document (.ofIndex (i + 1))).map (·.name) =
        .ok "b" := by
      decide +kernel
    exact fun i => exists_of_map_ok (hnames i)
  obtain ⟨d, hd, hread⟩ : ∃ d, (build sameNames).document (.ofIndex 0) = .ok d ∧
      (d.dependencies.entries.map (·.name),
          d.dependencies.entries.map fun e => (build sameNames).dependencyOwner e.dependency) =
        (["c", "x", "y"], [.ok (.ofIndex 2), .ok (.ofIndex 1), .ok (.ofIndex 1)]) := by
    cases hd : (build sameNames).document (.ofIndex 0) with
    | error handle =>
      rw [hd] at hkey
      cases hkey
    | ok d =>
      rw [hd] at hkey
      exact ⟨d, rfl, Option.some.inj hkey⟩
  obtain ⟨hnames, hlisted⟩ := Prod.mk.inj hread
  have howns : ∀ owner, (build sameNames).OwnsFor d owner ↔
      owner ∈ [.ofIndex 1, .ofIndex 2] := by
    intro owner
    have hmem : (build sameNames).OwnsFor d owner ↔ .ok owner ∈ d.dependencies.entries.map
        fun e => (build sameNames).dependencyOwner e.dependency := List.mem_map.symm
    rw [hmem, hlisted]
    simp [or_comm]
  have hbefore : [.ofIndex 1, .ofIndex 2].Pairwise (build sameNames).NamedBefore := by
    obtain ⟨d₁, hd₁, hname₁⟩ := hname 0
    obtain ⟨d₂, hd₂, hname₂⟩ := hname 1
    refine List.pairwise_pair.2 ⟨d₁, d₂, hd₁, hd₂, .inr ⟨hname₁.trans hname₂.symm, ?_⟩⟩
    decide
  obtain ⟨hlist, htold⟩ := importedDependencies_of_made (made_build sameNames) hd
  obtain ⟨owners, howners⟩ := hlist.2 fun e he => by
    have hlisted := hlisted ▸ List.mem_map_of_mem he
    simp only [List.mem_cons, List.not_mem_nil, or_false] at hlisted
    rcases hlisted with h | h | h <;> exact ⟨_, h⟩
  obtain ⟨hmem, _, horder, _⟩ := htold owners howners
  obtain rfl : owners = [.ofIndex 1, .ofIndex 2] :=
    eq_of_pairwise_namedBefore horder hbefore fun owner => (hmem owner).trans (howns owner)
  exact ⟨d, hd, hnames, howners, hmem, horder⟩

end Graph

end SchemaFamily
