import Mathlib.Data.List.Dedup
import SchemaFamily.Proofs.Family.Keyed
import SchemaFamily.Proofs.Family.Modular
import SchemaFamily.Proofs.Family.Preceding

/-
  Files that depend on files. A file may stand in a family several times, and each of its documents
  has dependencies of its own. Take for each file the first of its documents, documents after their
  imports. What a document of the file depends on is owned by a document of the file itself or of
  one whose first document comes earlier (`place_lt_of_needsDeclaration`,
  `place_lt_of_needsMultiplexer`): all documents of a file are copies of the same family
  (`twins_of_link`), so the first one reaches a document of the same file, and it holds a usage of
  the same derived name. Hence the files can be put in a row (`files_acyclic_of_compile`).
-/

namespace SchemaFamily

open Relation

/-! ## Shifted usages -/

/-- The candidate after as many declarations more. -/
def Candidate.shift (c : Candidate) (count : Nat) : Candidate :=
  { c with usage := ⟨c.usage.declaration.offset count, c.usage.slot⟩, value := c.value.shift count }

/-- The eligible usage after as many documents and declarations more. -/
def Eligible.shift (e : Eligible) (documents declarations : Nat) : Eligible :=
  ⟨e.document.offset documents, e.candidate.shift declarations⟩

@[simp]
theorem Usage.groupAs_shift (u : Usage) (count : Nat) : (u.shift count).groupAs = u.groupAs := by
  rcases u with ⟨kind, target | target⟩ <;> rfl

theorem Usage.declaration?_shift (u : Usage) (count : Nat) :
    (u.shift count).declaration? = u.declaration?.map (·.offset count) := by
  rcases u with ⟨kind, ⟨name, _ | declaration⟩ | declaration⟩ <;> rfl

theorem Declaration.eligibleAt_shift (d : Declaration) (n m : Nat) (slot : Slot) (u : Usage) :
    (d.shift n m).eligibleAt slot (u.shift m) = (d.eligibleAt slot u).map (·.shift n m) := by
  rw [eligibleAt.eq_def, eligibleAt.eq_def, Usage.groupAs_shift]
  cases u.groupAs with
  | none => cases slot <;> rfl
  | some group =>
    by_cases ha : group.inJson = .array
    · cases slot <;> simp [ha]
    · cases slot <;> simp [ha] <;> rfl

theorem Declaration.eligible_shift (d : Declaration) (n m : Nat) :
    (d.shift n m).eligible = d.eligible.map (·.shift n m) := by
  have husages : (d.shift n m).definition.usages =
      d.definition.usages.map fun su => (su.1, su.2.shift m) :=
    d.definition.usages_shift m
  rw [eligible, eligible, husages, List.filterMap_map, List.map_filterMap]
  exact List.filterMap_congr fun su _ => d.eligibleAt_shift n m su.1 su.2

namespace Graph

variable {g h : Graph} {n m : Nat}

namespace Contains

/-- What stands in an addressable graph is addressable. -/
theorem addressable (hc : g.Contains h n m) (ha : g.Addressable) : h.Addressable := by
  refine ⟨?_, ?_⟩
  · by_contra hlt
    have hd := hc.document (Array.getElem?_eq_getElem (Nat.lt_of_not_le hlt))
    have := (Array.getElem?_eq_some_iff.1 hd).1
    have := ha.1
    omega
  · by_contra hlt
    have hd := hc.declaration (Array.getElem?_eq_getElem (Nat.lt_of_not_le hlt))
    have := (Array.getElem?_eq_some_iff.1 hd).1
    have := ha.2
    omega

/-- The document in the graph of a document that stands in it. -/
theorem index_document (hc : g.Contains h n m) (hg : g.Arranged) {id : DocumentId}
    (hid : id.index < h.documents.size) : (id.offset n).index = id.index + n := by
  have hd := hc.document (Array.getElem?_eq_getElem hid)
  exact Handle.index_offset_of_le (hg.document_index hd ▸ Handle.index_le _)

theorem index_declaration (hc : g.Contains h n m) (hg : g.Arranged) {id : DeclarationId}
    (hid : id.index < h.declarations.size) : (id.offset m).index = id.index + m := by
  have hd := hc.declaration (Array.getElem?_eq_getElem hid)
  exact Handle.index_offset_of_le (hg.declaration_index hd ▸ Handle.index_le _)

/-- A usage needs a multiplexer of the same name wherever it stands. -/
theorem derivedName?_shift (hc : g.Contains h n m) (hg : g.Arranged) (suffix : String)
    {e : Eligible} (htarget : ∀ id, e.candidate.value.declaration? = some id →
      id.index < h.declarations.size) :
    g.derivedName? suffix (e.shift n m) = h.derivedName? suffix e := by
  have hvalue : (e.shift n m).candidate.value.declaration? =
      e.candidate.value.declaration?.map (·.offset m) :=
    e.candidate.value.declaration?_shift m
  rw [derivedName?, derivedName?, hvalue]
  cases hid : e.candidate.value.declaration? with
  | none => rfl
  | some id =>
    have hlt := htarget id hid
    have ht := Array.getElem?_eq_getElem hlt
    rw [Option.map_some, Option.bind_some, Option.bind_some, hc.index_declaration hg hlt,
      hc.declaration ht, ht]
    rfl

end Contains

/-! ## Documents of one file -/

/-- The file that a document was read from. -/
def sourceOf? (g : Graph) (document : DocumentId) : Option Path :=
  g.documents[document.index]?.map (·.header.source)

theorem SameOutline.sourceOf? {g' : Graph} (ho : g.SameOutline g') (id : DocumentId) :
    g.sourceOf? id = g'.sourceOf? id := by
  have hmap : ∀ g : Graph, g.sourceOf? id =
      (g.documents.map Document.outline)[id.index]?.map (·.header.source) := by
    intro g
    rw [Graph.sourceOf?, Array.getElem?_map, Option.map_map]
    rfl
  rw [hmap, hmap, ho.documents]

namespace IsCopy

variable {document : DocumentId}

/-- The declarations of the document are those of the first document of the family it is a copy
    of. -/
theorem exists_declaration (hcopy : g.IsCopy h document) (hg : g.Arranged) (hh : h.Arranged)
    {a : Declaration} (ha : a ∈ g.declarations) (howner : a.owner = document) :
    ∃ b ∈ h.declarations, b.owner.index = 0 ∧
      a = b.shift document.index (g.declarationsBefore document.index) := by
  obtain ⟨hle, hlt⟩ := (hcopy.owner_iff a ha).1 (howner ▸ .refl)
  obtain ⟨i, hi⟩ := Nat.exists_eq_add_of_le' hle
  have hb := Array.getElem?_eq_getElem (show i < h.declarations.size by omega)
  have hmem := Array.mem_of_getElem? hb
  have hshift := hg.getElem?_id ha
  rw [hi, hcopy.contains.declaration hb, Option.some.injEq] at hshift
  refine ⟨_, hmem, ?_, hshift.symm⟩
  have hindex := hcopy.contains.index_document hg (hh.owner_lt hmem)
  have hzero := congrArg Handle.index ((congrArg Declaration.owner hshift).trans howner)
  exact Nat.add_eq_right.1 (hindex.symm.trans hzero)

theorem mem_shift (hcopy : g.IsCopy h document) (hg : g.Arranged) (hh : h.Arranged)
    {b : Declaration} (hb : b ∈ h.declarations) (hfirst : b.owner.index = 0) :
    b.shift document.index (g.declarationsBefore document.index) ∈ g.declarations ∧
      b.owner.offset document.index = document := by
  refine ⟨Array.mem_of_getElem? (hcopy.contains.declaration (hh.getElem?_id hb)), Handle.ext ?_⟩
  rw [hcopy.contains.index_document hg (hh.owner_lt hb), hfirst, Nat.zero_add]

end IsCopy

/-- What two documents reach, each with itself, are copies of the same family. -/
def Twins (g : Graph) (document document' : DocumentId) : Prop :=
  ∃ h : Graph, h.Arranged ∧ h.Sound ∧ g.IsCopy h document ∧ g.IsCopy h document'

namespace Twins

variable {document document' : DocumentId}

/-- If a document reaches others than itself, then its twin reaches others of the same files. -/
theorem exists_reached (ht : g.Twins document document') (hg : g.Arranged) {other : DocumentId}
    (hr : ReflTransGen g.ImportsDocument document other) (hne : other ≠ document) :
    ∃ other', ReflTransGen g.ImportsDocument document' other' ∧ other' ≠ document' ∧
      g.sourceOf? other' = g.sourceOf? other := by
  obtain ⟨h, _, _, hcopy, hcopy'⟩ := ht
  obtain ⟨hle, hlt⟩ := (hcopy.reaches_iff other).1 hr
  obtain ⟨i, hi⟩ := Nat.exists_eq_add_of_le' hle
  have hd := Array.getElem?_eq_getElem (show i < h.documents.size by omega)
  have hother := hcopy.contains.document hd
  have hother' := hcopy'.contains.document hd
  have hindex : (Handle.ofIndex (i + document'.index) : DocumentId).index = i + document'.index :=
    Handle.index_ofIndex_of_le (hg.document_index hother' ▸ Handle.index_le _)
  have hpos : 0 < i := by
    refine Nat.pos_of_ne_zero fun hzero => hne (Handle.ext ?_)
    rw [hi, hzero, Nat.zero_add]
  refine ⟨.ofIndex (i + document'.index), ?_, fun he => ?_, ?_⟩
  · rw [hcopy'.reaches_iff, hindex]
    omega
  · have := congrArg Handle.index he
    omega
  · rw [sourceOf?, sourceOf?, hindex, hi, hother, hother']
    rfl

/-- If a document holds a usage that needs a multiplexer, then its twin holds one that needs a
    multiplexer of the same name. -/
theorem exists_eligible (ht : g.Twins document document') (hg : g.Arranged) (suffix : String)
    {a : Declaration} (ha : a ∈ g.declarations) (howner : a.owner = document) {e : Eligible}
    (he : e ∈ a.eligible) :
    ∃ a' ∈ g.declarations, ∃ e' ∈ a'.eligible, e'.document = document' ∧
      g.derivedName? suffix e' = g.derivedName? suffix e := by
  obtain ⟨h, hh, hsound, hcopy, hcopy'⟩ := ht
  obtain ⟨b, hb, hfirst, rfl⟩ := hcopy.exists_declaration hg hh ha howner
  obtain ⟨ha', howner'⟩ := hcopy'.mem_shift hg hh hb hfirst
  rw [Declaration.eligible_shift] at he
  obtain ⟨e, hmem, rfl⟩ := List.mem_map.1 he
  have htarget : ∀ id, e.candidate.value.declaration? = some id →
      id.index < h.declarations.size := by
    obtain ⟨su, hsu, hat⟩ := List.mem_filterMap.1 hmem
    obtain ⟨_, _, _, _, rfl⟩ := Declaration.eligibleAt_eq_some_iff.1 hat
    exact (hsound.declarations b hb).used su hsu
  refine ⟨_, ha', e.shift document'.index (g.declarationsBefore document'.index), ?_, ?_, ?_⟩
  · rw [Declaration.eligible_shift]
    exact List.mem_map_of_mem hmem
  · show e.document.offset document'.index = document'
    rw [(b.usage_of_mem_eligible hmem).1, howner']
  · rw [hcopy.contains.derivedName?_shift hg suffix htarget,
      hcopy'.contains.derivedName?_shift hg suffix htarget]

end Twins

/-! ## The places of files -/

/-- The place of the first document of a file in a row of documents. -/
def placeOf (g : Graph) (documents : List DocumentId) (file : Path) : Nat :=
  documents.findIdx fun document => g.sourceOf? document == some file

variable {documents : List DocumentId} {document : DocumentId} {file : Path}

theorem placeOf_le (documents : List DocumentId) (hs : g.sourceOf? document = some file) :
    g.placeOf documents file ≤ documents.idxOf document := by
  refine Nat.le_of_not_lt fun hlt => ?_
  have hfalse := List.not_of_lt_findIdx hlt
  rw [List.getElem_idxOf, hs, beq_self_eq_true] at hfalse
  cases hfalse

/-- A file has a first document if it has one. -/
theorem exists_document_at_placeOf (hnodup : documents.Nodup) (hd : document ∈ documents)
    (hs : g.sourceOf? document = some file) :
    ∃ first ∈ documents, g.sourceOf? first = some file ∧
      documents.idxOf first = g.placeOf documents file := by
  have hlt : g.placeOf documents file < documents.length :=
    List.findIdx_lt_length_of_exists ⟨document, hd, beq_iff_eq.2 hs⟩
  refine ⟨documents[g.placeOf documents file], List.getElem_mem _, ?_, hnodup.idxOf_getElem _ hlt⟩
  exact beq_iff_eq.1 (List.findIdx_getElem (w := hlt))

/-- What a document reaches stands before it. -/
theorem InOrder.idxOf_lt_of_reaches (hg : g.InOrder) (horder : g.Postorder [.ofIndex 0] documents)
    (hnodup : documents.Nodup) (hd : document ∈ documents)
    (hlt : document.index < g.documents.size) {other : DocumentId}
    (hr : ReflTransGen g.ImportsDocument document other) (hne : other ≠ document) :
    documents.idxOf other < documents.idxOf document := by
  obtain ⟨k, _, hs⟩ := hg.spans.of_mem (Nat.zero_le _) hlt
  rw [Handle.ofIndex_index] at hs
  refine horder.idxOf_lt hnodup hd hs.preorder (List.mem_map.2 ⟨other.index, ?_, ?_⟩) hne
  · obtain ⟨hle, hk⟩ := hs.reaches_one_iff.1 hr
    rw [List.mem_range'_1]
    omega
  · exact Handle.ofIndex_index other

/-- A file depends on another when a document of the one depends on something that a document of
    the other owns. -/
def FileDependsOn (g : Graph) (file file' : Path) : Prop :=
  ∃ d ∈ g.documents, d.header.source = file ∧ ∃ entry ∈ d.dependencies.entries, ∃ owner,
    g.dependencyOwner entry.dependency = .ok owner ∧ g.sourceOf? owner = some file'

/-! ## What the documents of a file depend on -/

section

variable (hg : g.InOrder) {first : DocumentId}

include hg

/-- What a name stands for comes from a file that comes earlier than the twin. -/
theorem placeOf_lt_of_needsDeclaration (horder : g.Postorder [.ofIndex 0] documents)
    (hnodup : documents.Nodup) (hfirst : first ∈ documents)
    (hlt : first.index < g.documents.size) (htwins : g.Twins document first) {g' : Graph}
    (hg' : g'.declarations = g.declarations) {entry : DependencyEntry}
    (hn : g'.NeedsDeclaration document entry) :
    ∃ owner, g'.dependencyOwner entry.dependency = .ok owner ∧ owner.index < g.documents.size ∧
      ∀ file', g.sourceOf? owner = some file' →
        g.placeOf documents file' < documents.idxOf first := by
  obtain ⟨a, ha, howner, slot, u, name, hu, hname, t, ht, hdeclaration, hne, rfl⟩ := hn
  rw [hg'] at ha ht
  obtain ⟨_, _, _, hcopy, _⟩ := id htwins
  obtain ⟨t', ht', hdeclaration', hreaches⟩ :=
    hcopy.target_below a ha (howner ▸ .refl) slot u name hu hname
  rw [hdeclaration, Option.some.injEq] at hdeclaration'
  obtain rfl := hg.arranged.declaration_eq ht ht' hdeclaration'
  obtain ⟨other, hother, hother_ne, hsource⟩ := htwins.exists_reached hg.arranged hreaches hne
  have hother_lt := hg.idxOf_lt_of_reaches horder hnodup hfirst hlt hother hother_ne
  refine ⟨t.owner, ?_, hg.arranged.owner_lt ht, fun file' hfile => ?_⟩
  · rw [dependencyOwner, declaration, hg', hg.arranged.getElem?_id ht]
    rfl
  · exact Nat.lt_of_le_of_lt (placeOf_le documents (hsource.trans hfile)) hother_lt

variable {suffix : String} {finished : List DocumentId} {demands : List Multiplexer}
  (hperm : documents.Perm (g.documents.toList.map (·.id)))
  (hdemands : demands = g.demands suffix (g.eligible documents))
  (hall : ∀ e ∈ g.eligible documents, ∃ m, g.demanded suffix e = .ok m)
  (hcap : (arena demands).length ≤ maxIndex + 1)

include hperm hdemands hall hcap

/-- A multiplexer is owned by the twin or by a document before it. -/
theorem idxOf_owner_le_of_needsMultiplexer (htwins : g.Twins document first)
    {entry : DependencyEntry} (hn : (g.served finished demands).NeedsMultiplexer document entry) :
    ∃ owner, (g.served finished demands).dependencyOwner entry.dependency = .ok owner ∧
      owner.index < g.documents.size ∧ documents.idxOf owner ≤ documents.idxOf first := by
  obtain ⟨owner, hok, _, hlt, e, he, hdocument, hle⟩ :=
    exists_first_of_needsMultiplexer hg.arranged hperm hdemands hall hcap hn
  obtain ⟨a, ha, hea⟩ := (mem_eligible_iff hg.arranged hperm).1 he
  have howner := (a.usage_of_mem_eligible hea).1.symm.trans hdocument
  obtain ⟨a', ha', e', he', hdocument', hname⟩ :=
    htwins.exists_eligible hg.arranged suffix ha howner hea
  refine ⟨owner, hok, hlt, ?_⟩
  rw [← hdocument']
  exact hle e' ((mem_eligible_iff hg.arranged hperm).2 ⟨a', ha', he'⟩) hname

/-- Where documents of one file are twins, what a document needs comes from its own file or from
    one that comes earlier. -/
theorem placeOf_lt_of_needs (horder : g.Postorder [.ofIndex 0] documents)
    (htwins : ∀ d ∈ g.documents, ∀ d' ∈ g.documents, d'.header.source = d.header.source →
      g.Twins d.id d'.id)
    {d : Document} (hd : d ∈ g.documents) {entry : DependencyEntry}
    (hn : (g.served finished demands).Needs d.id entry) :
    ∃ owner, (g.served finished demands).dependencyOwner entry.dependency = .ok owner ∧
      owner.index < g.documents.size ∧ ∀ file', g.sourceOf? owner = some file' →
        file' = d.header.source ∨
          g.placeOf documents file' < g.placeOf documents d.header.source := by
  have hnodup := hperm.nodup_iff.2 hg.arranged.nodup_ids
  have hlisted : ∀ {id : DocumentId}, id ∈ documents ↔ id.index < g.documents.size :=
    hperm.mem_iff.trans hg.arranged.mem_ids_iff
  have hsource : g.sourceOf? d.id = some d.header.source := by
    rw [sourceOf?, hg.arranged.document_getElem?_id hd]
    rfl
  obtain ⟨first, hfirst, hfile, hplace⟩ :=
    exists_document_at_placeOf hnodup (hlisted.2 (hg.arranged.id_lt hd)) hsource
  obtain ⟨d', hd', hsame⟩ := Option.map_eq_some_iff.1 hfile
  have htwin : g.Twins d.id first := by
    have hid : d'.id = first := Handle.ext (hg.arranged.document_index hd')
    rw [← hid]
    exact htwins d hd d' (Array.mem_of_getElem? hd') hsame
  rw [← hplace]
  rcases hn with hn | hn
  · have hkept : (g.served finished demands).declarations = g.declarations := rfl
    obtain ⟨owner, hok, hlt, hearlier⟩ := placeOf_lt_of_needsDeclaration hg horder hnodup hfirst
      (hlisted.1 hfirst) htwin hkept hn
    exact ⟨owner, hok, hlt, fun file' hfile' => .inr (hearlier file' hfile')⟩
  · obtain ⟨owner, hok, hlt, hle⟩ :=
      idxOf_owner_le_of_needsMultiplexer hg hperm hdemands hall hcap htwin hn
    refine ⟨owner, hok, hlt, fun file' hfile' => ?_⟩
    rcases Nat.lt_or_eq_of_le hle with hlt' | heq
    · exact .inr (Nat.lt_of_le_of_lt (placeOf_le documents hfile') hlt')
    · -- the multiplexer is owned by a document of the same file
      rw [(List.idxOf_inj (hlisted.2 hlt)).1 heq, hfile] at hfile'
      exact .inl (Option.some.inj hfile').symm

end

/-! ## Files in a row -/

section

variable {α : Type} {r : α → α → Prop} (rank : α → Nat)
  (hrank : ∀ a b, r a b → b = a ∨ rank b < rank a)

include hrank

/-- What leads from each thing to itself or to one of smaller rank leads back to itself only. -/
theorem eq_of_transGen {a b : α} (hab : TransGen r a b) (hba : TransGen r b a) : a = b := by
  have hle : ∀ {a b}, TransGen r a b → b = a ∨ rank b < rank a := by
    intro a b hab
    induction hab with
    | single hab => exact hrank _ _ hab
    | tail _ hbc ih =>
      rcases hrank _ _ hbc with rfl | hlt
      · exact ih
      · rcases ih with rfl | hlt'
        · exact .inr hlt
        · exact .inr (Nat.lt_trans hlt hlt')
  rcases hle hab with he | hlt
  · exact he.symm
  · rcases hle hba with he | hlt'
    · exact he
    · exact absurd hlt' (Nat.lt_asymm hlt)

/-- Things can be put in a row so that none leads to one that stands after it. -/
theorem exists_row [DecidableEq α] (as : List α) :
    ∃ row : List α, row.Nodup ∧ (∀ a, a ∈ row ↔ a ∈ as) ∧
      row.Pairwise fun a later => ¬ r a later := by
  have hperm := List.mergeSort_perm as.dedup fun a b => decide (rank a ≤ rank b)
  have hnodup := hperm.nodup_iff.2 as.nodup_dedup
  refine ⟨_, hnodup, fun a => hperm.mem_iff.trans List.mem_dedup, ?_⟩
  have hsorted := pairwise_mergeSort_of rank as.dedup
  refine (hsorted.and hnodup).imp fun {a b} hab hr => ?_
  rcases hrank a b hr with he | hlt
  · exact hab.2 he.symm
  · exact Nat.not_le_of_lt hlt hab.1

end

end Graph

/-! ## Files of a family -/

section

variable {disk : Disk} {settings : Settings} {entities : Xml.EntityMap} {p base : Path}
  {c c' : Cache} {tree : ImportTree} {n : Nat} {g : Graph}

/-- Documents of one file are twins in a family that was linked. -/
theorem twins_of_link (hc : c.Faithful disk entities)
    (hr : (resolve disk entities p base).run.run c = (.ok tree, c'))
    (ha : (Graph.ofTree tree).Addressable)
    (hl : link.apply (Graph.ofTree tree) = (.ok n, g)) {d d' : Document} (hd : d ∈ g.documents)
    (hd' : d' ∈ g.documents) (hsource : d'.header.source = d.header.source) :
    g.Twins d.id d'.id := by
  have hempty : ({} : Cache).Faithful disk entities := Cache.faithful_empty _ _
  obtain ⟨part, c₂, m, h, hr₁, hm, hcopy⟩ := exists_copy_of_link hc hempty hr ha hl hd
  obtain ⟨part', c₂', m', h', hr₁', hm', hcopy'⟩ := exists_copy_of_link hc hempty hr ha hl hd'
  rw [hsource, hr₁] at hr₁'
  cases hr₁'
  rw [hm] at hm'
  cases hm'
  have houtline : (Graph.ofTree part).SameOutline h := by
    have hkeeps := keeps_link (Graph.ofTree part)
    rwa [hm] at hkeeps
  obtain ⟨_, hg, _⟩ := reconcilable_of_link ha hl
  have hpart := houtline.symm.addressable (hcopy.contains.addressable hg)
  exact ⟨h, (reconcilable_of_link hpart hm).1.arranged,
    sound_link _ (sound_of_resolve hempty.readFromTexts hr₁) _ _ hm, hcopy, hcopy'⟩

/-- In a family that was compiled, a file depends on another when a document of the one depends on
    a declaration or a multiplexer that a document of the other owns; each dependency has an owner.
    The files can be put in a row, each once, so that none depends on one that stands after it, and
    files that depend on each other, be it through others, are the same. A file that is imported on
    several ways has several documents, and each may have other dependencies than the next. Handles
    are 32 bits wide, so a family is `Addressable` unless it has more documents or declarations than
    there are handles, and shares them. -/
theorem files_acyclic_of_compile (hc : c.Faithful disk settings.entities)
    (hg : (compileIn disk settings p base).run.run c = (.ok g, c')) (ha : g.Addressable) :
    (∀ d ∈ g.documents, ∀ entry ∈ d.dependencies.entries, ∃ owner file,
      g.dependencyOwner entry.dependency = .ok owner ∧ g.sourceOf? owner = some file) ∧
    (∃ files : List Path, files.Nodup ∧
      (∀ file, file ∈ files ↔ ∃ d ∈ g.documents, d.header.source = file) ∧
      files.Pairwise fun file later => ¬ g.FileDependsOn file later) ∧
    ∀ file file', TransGen g.FileDependsOn file file' → TransGen g.FileDependsOn file' file →
      file = file' := by
  obtain ⟨tree, k, g₁, n, hr, hl, hs⟩ := passes_of_compile hg
  have haddressable := addressable_of_passes hl hs ha
  have hfresh := Graph.fresh_ofTree (fresh_of_resolve hc.readFromTexts hr)
  obtain ⟨h₁, ha₁, _⟩ := reconcilable_of_link haddressable hl
  obtain ⟨hok, hsettled, _⟩ := settled_of_link haddressable hl
  obtain ⟨documents, hpost, hperm, hall, hg', _⟩ := served_of_reconcile haddressable hl hs
  have hcap := Nat.le_trans
    (Graph.length_arena_le g₁ settings.multiplexerSuffix (g₁.eligible documents)) ha₁.2
  have hkept := keeps_reconcile settings.multiplexerSuffix g₁
  rw [hs] at hkept
  have hsources : ∀ id, g.sourceOf? id = g₁.sourceOf? id := hkept.symm.sourceOf?
  have hneeds : ∀ d ∈ g.documents, ∀ entry ∈ d.dependencies.entries, ∃ owner,
      g.dependencyOwner entry.dependency = .ok owner ∧ owner.index < g₁.documents.size ∧
        ∀ file', g₁.sourceOf? owner = some file' → file' = d.header.source ∨
          g₁.placeOf documents file' < g₁.placeOf documents d.header.source := by
    intro d hd entry he
    rw [hg'] at hd ⊢
    obtain ⟨hexact, _⟩ := Graph.dependencies_served_settled (Graph.inOrder_ofTree haddressable)
      (Graph.bare_ofTree tree) hfresh hok hsettled h₁.arranged hperm rfl hcap hd
    obtain ⟨d₁, hd₁, rfl⟩ := Array.mem_map.1 hd
    exact Graph.placeOf_lt_of_needs h₁ hperm rfl hall hcap hpost
      (fun d hd d' hd' => twins_of_link hc hr haddressable hl hd hd') hd₁ ((hexact entry).1 he)
  have hfiles : ∀ file file', g.FileDependsOn file file' → file' = file ∨
      g₁.placeOf documents file' < g₁.placeOf documents file := by
    rintro _ file' ⟨d, hd, rfl, entry, he, owner, hok, hsource⟩
    obtain ⟨owner', hok', _, hplace⟩ := hneeds d hd entry he
    rw [hok] at hok'
    cases hok'
    exact hplace file' (hsources owner ▸ hsource)
  obtain ⟨files, hnodup, hmem, hrow⟩ :=
    Graph.exists_row _ hfiles (g.documents.toList.map (·.header.source))
  refine ⟨fun d hd entry he => ?_, ⟨files, hnodup, fun file => ?_, hrow⟩,
    fun _ _ => Graph.eq_of_transGen _ hfiles⟩
  · obtain ⟨owner, hok, hlt, _⟩ := hneeds d hd entry he
    refine ⟨owner, g₁.documents[owner.index].header.source, hok, (hsources owner).trans ?_⟩
    rw [Graph.sourceOf?, Array.getElem?_eq_getElem hlt, Option.map_some]
  · rw [hmem, List.mem_map]
    simp only [Array.mem_toList_iff]

end

/-- A file that imports two others, the first of them twice, each of which groups a field of its
    own of the same name. -/
def twiceGrouped : Disk := .ofSights
  [(⟨"a"⟩, .file (some ("<METASCHEMA><import href=\"b\"/><import href=\"c\"/>" ++
      "<import href=\"b\"/></METASCHEMA>"))),
    (⟨"b"⟩, .file (some siblingGroups.siblingText)),
    (⟨"c"⟩, .file (some siblingGroups.siblingText))]

/-- The second file depends on the first, of which one document stands before it and one after it,
    and the first does not depend on the second. -/
theorem files_acyclic_twiceGrouped :
    ∃ g c', (compileIn twiceGrouped {} ⟨"a"⟩ ⟨""⟩).run.run {} = (.ok g, c') ∧ g.Addressable ∧
      (g.documents.map (·.header.source)).toList = [⟨"a"⟩, ⟨"b"⟩, ⟨"c"⟩, ⟨"b"⟩] ∧
      g.FileDependsOn ⟨"c"⟩ ⟨"b"⟩ ∧ ¬ TransGen g.FileDependsOn ⟨"b"⟩ ⟨"c"⟩ := by
  have hkey : succeeds (fun tree _ => succeeds (fun _ g => decide (g.Addressable ∧
        (g.documents.map (·.header.source)).toList = [⟨"a"⟩, ⟨"b"⟩, ⟨"c"⟩, ⟨"b"⟩] ∧
        ∃ d ∈ g.documents.toList, d.header.source = ⟨"c"⟩ ∧ ∃ entry ∈ d.dependencies.entries,
          (g.dependencyOwner entry.dependency).toOption.bind g.sourceOf? = some ⟨"b"⟩))
          ((finishFamily ({} : Settings).multiplexerSuffix).apply (Graph.ofTree tree)))
      ((resolveFrom twiceGrouped [] ⟨""⟩ 2 [] ⟨"a"⟩).run.run {}) = true := by
    decide +kernel
  obtain ⟨tree, c', hr, hfinish⟩ := exists_of_succeeds hkey
  obtain ⟨_, g, hf, hcheck⟩ := exists_of_succeeds hfinish
  have hg : (compileIn twiceGrouped {} ⟨"a"⟩ ⟨""⟩).run.run {} = (.ok g, c') :=
    run_compileIn_of_two_steps hr hf
  obtain ⟨ha, hfiles, d, hd, hsource, entry, he, howner⟩ := of_decide_eq_true hcheck
  obtain ⟨howned, _, hacyclic⟩ :=
    files_acyclic_of_compile (Cache.faithful_empty _ _) hg ha
  rw [Array.mem_toList_iff] at hd
  have hdepends : g.FileDependsOn ⟨"c"⟩ ⟨"b"⟩ := by
    obtain ⟨owner, file, hok, hfile⟩ := howned d hd entry he
    rw [hok] at howner
    exact ⟨d, hd, hsource, entry, he, owner, hok, howner⟩
  refine ⟨g, c', hg, ha, hfiles, hdepends, fun hback => ?_⟩
  have hsame := hacyclic _ _ (.single hdepends) hback
  exact absurd (congrArg Path.text hsame) (by decide)

end SchemaFamily
