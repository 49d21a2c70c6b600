import SchemaFamily.Proofs.Family.InRange
import SchemaFamily.Proofs.Family.Owners
import SchemaFamily.Proofs.Report.Summary

/-
  Compiled families can be asked anything. Compiling a family never looks up a handle that numbers
  nothing, and every handle that the result holds numbers something, so the result can be written
  in every form and answers every question about its documents and usages (`access_of_compile`).
-/

namespace SchemaFamily

namespace Graph

variable {g : Graph}

/-- The owners of what a document depends on can be listed. -/
theorem Sound.exists_importedDependencies (h : g.Sound) {id : DocumentId}
    (hid : id.index < g.documents.size) : ∃ owners, g.importedDependencies id = .ok owners := by
  obtain ⟨d, hd⟩ := exists_document_of_lt hid
  have hwithin := h.documents d (Array.mem_of_getElem? (getElem?_of_document hd))
  obtain ⟨owners, howners, _⟩ := Graph.exists_importedDependencies hd fun e he =>
    h.exists_owner (hwithin.dependencies e he)
  exact ⟨owners, howners⟩

theorem exists_anyM_ok {ε α : Type} {p : α → Except ε Bool} {as : List α}
    (h : ∀ a ∈ as, ∃ b, p a = .ok b) : ∃ b, as.anyM p = .ok b := by
  induction as with
  | nil => exact ⟨false, rfl⟩
  | cons a later ih =>
    rw [List.forall_mem_cons] at h
    obtain ⟨b, hb⟩ := h.1
    rw [List.anyM, hb]
    cases b with
    | true => exact ⟨true, rfl⟩
    | false => exact ih h.2

/-- Whether a document may be the root of a text can be told. -/
theorem Sound.exists_containsRootElement (h : g.Sound) {id : DocumentId}
    (hid : id.index < g.documents.size) : ∃ answer, g.containsRootElement id = .ok answer := by
  obtain ⟨d, hd⟩ := exists_document_of_lt hid
  have hwithin := h.documents d (Array.mem_of_getElem? (getElem?_of_document hd))
  rw [containsRootElement, hd]
  refine exists_anyM_ok fun assembly hassembly => ?_
  obtain ⟨t, ht, _⟩ := exists_declaration_of_lt
    (hwithin.owned assembly (by simp [Document.owned, hassembly]))
  rw [ht]
  exact ⟨_, rfl⟩

theorem Sound.exists_render (h : g.Sound) (format : Format) :
    ∃ text, g.render format = .ok text := by
  cases format with
  | summary => exact h.exists_summary
  | json => exact ⟨_, rfl⟩
  | yaml => exact ⟨_, rfl⟩

/-- The multiplexer of a usage can be looked up. -/
theorem Indexed.exists_multiplexer (h : g.Indexed) {ref : UsageRef} {id : MultiplexerId}
    (href : g.multiplexerFor? ref = some id) : ∃ m, g.multiplexer id = .ok m := by
  obtain ⟨before, after, husages, _⟩ := List.lookup_eq_some_iff.1 href
  have hlt := h.usages (ref, id) (by rw [husages]; simp)
  exact (exists_multiplexer_of_lt hlt).imp fun _ => And.left

/-- Where declarations have handles of their own, the usage of a multiplexer is found under its
    handle. -/
theorem Indexed.exists_usage (h : g.Indexed) (hmax : g.declarations.size ≤ maxIndex + 1)
    {m : Multiplexer} (hm : m ∈ g.multiplexers) : ∃ u, g.usage? m.usage = some u := by
  obtain ⟨t, ht, hid, hslot⟩ := h.represented m hm
  obtain ⟨i, hi⟩ := Array.getElem?_of_mem ht
  have hlt := (Array.getElem?_eq_some_iff.1 hi).1
  have hindex : m.usage.declaration.index = i := by
    rw [← hid, h.numbered hi, Handle.index_ofIndex_of_le (by omega)]
  rw [usage?, hindex, hi]
  exact Option.isSome_iff_exists.1 hslot

end Graph

section

variable {disk : Disk} {settings : Settings} {p base : Path} {c c' : Cache}

theorem not_outOfRange_of_compile (hc : c.ReadFromTexts) {failure : Failure}
    (hf : (compileIn disk settings p base).run.run c = (.error failure, c')) :
    ¬ failure.OutOfRange := by
  rw [compileIn, Loading.run_bind] at hf
  rcases hr : (resolve disk settings.entities p base).run.run c with ⟨failure' | tree, c₁⟩
  · rw [hr] at hf
    cases hf
    exact loadsInRange_resolve p base c _ _ hr
  · rw [hr] at hf
    dsimp only at hf
    have hsafe := (safe_finishFamily (Graph.ofTree tree) settings.multiplexerSuffix
      (Graph.ofTree tree) (steady_of_resolve hc hr)).1
    rcases hp : (finishFamily settings.multiplexerSuffix).apply (Graph.ofTree tree) with
      ⟨failure' | n, g⟩
    · rw [hp] at hf
      cases hf
      exact hsafe _ _ hp
    · rw [hp] at hf
      cases hf

theorem indexed_of_compile (hc : c.ReadFromTexts) {g : Graph}
    (hg : (compileIn disk settings p base).run.run c = (.ok g, c')) : g.Indexed := by
  obtain ⟨tree, k, g₁, n, hr, hl, hs⟩ := passes_of_compile hg
  have hfinish : (finishFamily settings.multiplexerSuffix).apply (Graph.ofTree tree) =
      (.ok n, g) := by
    rw [finishFamily, Pass.apply_bind_of_ok hl, hs]
  exact ((safe_finishFamily _ _ _ (steady_of_resolve hc hr)).2 _ _ hfinish).indexed

/-- No handle is out of range. A family that cannot be compiled does not fail for a handle that
    numbers nothing. In one that is compiled, every handle that is held numbers something, the
    usage of every multiplexer is there as long as declarations have handles of their own, and so
    the family can be written in every form, alone or with others; the owners of what a document
    depends on, whether it may be a root, and the multiplexer of a usage can be told. -/
theorem access_of_compile (hc : c.ReadFromTexts) :
    (∀ failure c', (compileIn disk settings p base).run.run c = (.error failure, c') →
      ¬ failure.OutOfRange) ∧
    ∀ g c', (compileIn disk settings p base).run.run c = (.ok g, c') →
      g.Sound ∧ g.Indexed ∧
      (g.declarations.size ≤ maxIndex + 1 →
        ∀ m ∈ g.multiplexers, ∃ u, g.usage? m.usage = some u) ∧
      (∃ text, g.summary = .ok text) ∧
      (∀ format, (∃ text, g.render format = .ok text) ∧
        ∃ text, renderAll [(p, g)] format = .ok text) ∧
      (∀ id : DocumentId, id.index < g.documents.size →
        (∃ owners, g.importedDependencies id = .ok owners) ∧
          ∃ answer, g.containsRootElement id = .ok answer) ∧
      ∀ ref id, g.multiplexerFor? ref = some id → ∃ m, g.multiplexer id = .ok m := by
  refine ⟨fun failure c' hf => not_outOfRange_of_compile hc hf, fun g c' hg => ?_⟩
  have hsound := sound_of_compile hc hg
  have hindexed := indexed_of_compile hc hg
  refine ⟨hsound, hindexed, fun hmax m hm => hindexed.exists_usage hmax hm, hsound.exists_summary,
    fun format => ⟨hsound.exists_render format, ?_⟩, fun id hid => ?_,
    fun ref id href => hindexed.exists_multiplexer href⟩
  · refine exists_renderAll (fun x hx => ?_) format
    rw [List.mem_singleton.1 hx]
    exact hsound
  · exact ⟨hsound.exists_importedDependencies hid, hsound.exists_containsRootElement hid⟩

end

/-- A file that keys the values of a field of the file that it imports. -/
def keyedImport : Disk := .ofSights
  [(⟨"a"⟩, .file (some ("<METASCHEMA><import href=\"b\"/><define-assembly name=\"q\">" ++
      "<model><choice><field ref=\"p\"><group-as name=\"g\" in-json=\"BY_KEY\"/></field>" ++
      "</choice></model></define-assembly></METASCHEMA>"))),
    (⟨"b"⟩, .file (some ("<METASCHEMA><define-field name=\"p\"><json-key flag-name=\"i\"/>" ++
      "<define-flag name=\"i\"/></define-field></METASCHEMA>")))]

theorem access_keyedImport :
    ∃ g c', (compileIn keyedImport {} ⟨"a"⟩ ⟨""⟩).run.run {} = (.ok g, c') ∧
      g.documents.size = 2 ∧ g.multiplexers.size = 1 ∧ g.Sound ∧ g.Indexed ∧
      (∀ m ∈ g.multiplexers, ∃ u, g.usage? m.usage = some u) ∧
      (∀ format, ∃ text, g.render format = .ok text) ∧
      ∃ owners, g.importedDependencies (.ofIndex 0) = .ok owners := by
  have hkey : succeeds (fun g _ => decide (g.documents.size = 2 ∧ g.multiplexers.size = 1 ∧
        g.declarations.size ≤ maxIndex + 1))
      ((compileIn keyedImport {} ⟨"a"⟩ ⟨""⟩).run.run {}) = true := by
    decide +kernel
  obtain ⟨g, c', hg, hcheck⟩ := exists_of_succeeds hkey
  obtain ⟨hdocuments, hmultiplexers, hmax⟩ := of_decide_eq_true hcheck
  obtain ⟨hsound, hindexed, husages, _, hrender, hdocument, _⟩ :=
    (access_of_compile Cache.readFromTexts_empty).2 g c' hg
  have hroot : (Handle.ofIndex 0 : DocumentId).index < g.documents.size := by
    rw [hdocuments]
    decide
  exact ⟨g, c', hg, hdocuments, hmultiplexers, hsound, hindexed, husages hmax,
    fun format => (hrender format).1, (hdocument _ hroot).1⟩

end SchemaFamily
