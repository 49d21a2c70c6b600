import SchemaFamily.Proofs.Family.Sound
import SchemaFamily.Proofs.Results
import SchemaFamily.Report.Rendering

/-
  Summaries of sound graphs. A summary looks up every handle that the documents of a graph hold, so
  a sound graph always has one (`Sound.exists_summary`), and several sound graphs can be written
  together in every form (`exists_renderAll`).
-/

namespace SchemaFamily

namespace Graph

variable {g : Graph}

/-- Where every handle of a list can be looked up, something is told of each. -/
theorem exists_mapM_map {α β γ : Type} {f : α → Except Dangling β} {told : α → β → γ} {as : List α}
    (h : ∀ a ∈ as, ∃ b, f a = .ok b) : ∃ cs, (as.mapM fun a => (f a).map (told a)) = .ok cs := by
  obtain ⟨cs, hcs, _⟩ := exists_mapM_ok (f := fun a => (f a).map (told a)) fun a ha => by
    obtain ⟨b, hb⟩ := h a ha
    exact ⟨told a b, by rw [hb]; rfl⟩
  exact ⟨cs, hcs⟩

/-- What a document depends on has an owner. -/
theorem Sound.exists_owner (h : g.Sound) {dependency : Dependency} (hd : g.Holds dependency) :
    ∃ owner d, g.dependencyOwner dependency = .ok owner ∧ g.document owner = .ok d := by
  cases dependency with
  | declaration id =>
    obtain ⟨t, ht, hmem⟩ := exists_declaration_of_lt hd
    obtain ⟨d, hdocument⟩ := exists_document_of_lt (h.declarations t hmem).owner
    exact ⟨t.owner, d, by rw [dependencyOwner, ht]; rfl, hdocument⟩
  | multiplexer id =>
    obtain ⟨m, hm, hmem⟩ := exists_multiplexer_of_lt hd
    obtain ⟨d, hdocument⟩ := exists_document_of_lt (h.multiplexers m hmem).owner
    exact ⟨m.owner, d, by rw [dependencyOwner, hm]; rfl, hdocument⟩

theorem exists_declarationNames {ids : List DeclarationId}
    (h : ∀ id ∈ ids, id.index < g.declarations.size) :
    ∃ names, g.declarationNames ids = .ok names :=
  exists_mapM_map fun id hid => (exists_declaration_of_lt (h id hid)).imp fun _ => And.left

/-- A document of a sound graph has a summary. -/
theorem Sound.exists_documentSummary (h : g.Sound) {d : Document} (hd : d ∈ g.documents) :
    ∃ text, g.documentSummary d = .ok text := by
  have hwithin := h.documents d hd
  have howned : ∀ ids, (∀ id ∈ ids, id ∈ d.owned) → ∃ names, g.declarationNames ids = .ok names :=
    fun ids hids => exists_declarationNames fun id hid => hwithin.owned id (hids id hid)
  obtain ⟨assemblies, hassemblies⟩ := howned d.assemblies (by simp +contextual [Document.owned])
  obtain ⟨fields, hfields⟩ := howned d.fields (by simp +contextual [Document.owned])
  obtain ⟨flags, hflags⟩ := howned d.flags (by simp +contextual [Document.owned])
  obtain ⟨imports, himports⟩ : ∃ names, g.documentNames d.imported = .ok names :=
    exists_mapM_map fun id hid => exists_document_of_lt (hwithin.imported id hid)
  obtain ⟨dependencies, hdependencies⟩ :
      ∃ told, d.dependencies.entries.mapM g.dependencySummary = .ok told :=
    (exists_mapM_ok fun e he => by
      obtain ⟨id, owner, hid, howner⟩ := h.exists_owner (hwithin.dependencies e he)
      refine ⟨s!"{e.name} -> {owner.name}", ?_⟩
      rw [dependencySummary, hid]
      show (g.document id >>= fun owner => _) = _
      rw [howner]
      rfl).imp fun _ => And.left
  obtain ⟨multiplexers, hmultiplexers⟩ :
      ∃ told, (d.multiplexers.mapM fun id => (g.multiplexer id).map (·.summary)) = .ok told :=
    exists_mapM_map fun id hid =>
      (exists_multiplexer_of_lt (hwithin.multiplexers id hid)).imp fun _ => And.left
  rw [documentSummary, hassemblies, hfields, hflags, himports, hdependencies, hmultiplexers]
  exact ⟨_, rfl⟩

/-- A sound graph has a summary. -/
theorem Sound.exists_summary (h : g.Sound) : ∃ text, g.summary = .ok text := by
  rw [summary]
  split
  · exact ⟨_, rfl⟩
  · obtain ⟨documents, hdocuments, _⟩ :=
      exists_mapM_ok fun d hd => h.exists_documentSummary (Array.mem_toList_iff.1 hd)
    rw [hdocuments]
    exact ⟨_, rfl⟩

end Graph

/-- Sound graphs can be written together in every form. -/
theorem exists_renderAll {families : List (Path × Graph)} (h : ∀ x ∈ families, x.2.Sound)
    (format : Format) : ∃ text, renderAll families format = .ok text := by
  cases format with
  | summary =>
    obtain ⟨summaries, hsummaries, _⟩ := exists_mapM_ok fun x hx => (h x hx).exists_summary
    refine ⟨"\n".intercalate summaries, ?_⟩
    show (families.mapM fun x => x.2.summary) >>= _ = _
    rw [hsummaries]
    rfl
  | json => exact ⟨_, rfl⟩
  | yaml => exact ⟨_, rfl⟩

end SchemaFamily
