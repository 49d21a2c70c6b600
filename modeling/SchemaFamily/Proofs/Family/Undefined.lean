import SchemaFamily.Proofs.Family.Linking
import SchemaFamily.Proofs.Family.Walks

/-
  Names that nothing has. A name denotes nothing in a document when no document that it reaches over
  imports defines it (`InOrder.denotation?_eq_none_iff`), and then a usage by that name has a fault
  (`InOrder.fault_of_undefinedIn`). So linking a family fails just when a usage has such a name, and
  tells of the first that has (`unresolved_iff_of_link`).
-/

namespace SchemaFamily

open Relation

namespace Graph

/-- Nothing in the documents that the document reaches has the kind and the name. -/
def Undefined (g : Graph) (document : DocumentId) (kind : Kind) (name : String) : Prop :=
  ∀ t ∈ g.declarations, ReflTransGen g.ImportsDocument document t.owner →
    t.isGlobal kind name = false

variable {g : Graph}

/-- A name denotes nothing if it is the name of nothing that is reached. -/
theorem InOrder.denotation?_eq_none_iff (h : g.InOrder) {document : DocumentId}
    (hd : document.index < g.documents.size) {kind : Kind} {name : String} :
    g.denotation? document kind name = none ↔ g.Undefined document kind name := by
  constructor
  · intro hnone t ht hreach
    by_contra hglobal
    rw [Bool.not_eq_false] at hglobal
    obtain ⟨ids, hp, _⟩ := h.exists_preorder hd kind name
    have hfirst : (g.firstGlobal? kind name t.owner).isSome := by
      rw [firstGlobal?, List.find?_isSome]
      exact ⟨t, List.mem_filter.2 ⟨Array.mem_toList_iff.2 ht, beq_self_eq_true _⟩, hglobal⟩
    have hfound : (ids.findSome? (g.firstGlobal? kind name)).isSome := by
      rw [List.findSome?_isSome_iff]
      exact ⟨t.owner, hp.mem_of_reaches List.mem_cons_self hreach, hfirst⟩
    obtain ⟨t', ht'⟩ := Option.isSome_iff_exists.1 hfound
    have hsome := (h.denotation?_eq_some_iff hd).2 ⟨ids, hp, ht'⟩
    rw [hnone] at hsome
    cases hsome
  · intro hundefined
    rw [Option.eq_none_iff_forall_ne_some]
    intro t ht
    have hdenotes := (h.denotation?_eq_some_iff hd).1 ht
    obtain ⟨reached, hp, howner⟩ := hdenotes.exists_owner
    obtain ⟨start, hstart, hreach⟩ := hp.exists_reaches howner
    rw [List.mem_singleton.1 hstart] at hreach
    have hglobal := hundefined t hdenotes.mem.1 hreach
    rw [hdenotes.mem.2] at hglobal
    cases hglobal

end Graph

/-! ## References to nothing -/

namespace Reference

/-- The name of the reference is that of nothing that its document reaches. -/
def UndefinedIn (r : Reference) (g : Graph) : Prop :=
  g.Undefined r.document r.pending.kind r.pending.name

/-- The reference is that of a usage by name in a declaration. -/
structure Of (r : Reference) (d : Declaration) (u : Usage) : Prop where
  document : r.document = d.owner
  declaration : r.declaration = d.id
  usage : d.definition.usage? r.pending.slot = some u
  kind : r.pending.kind = u.kind
  name : u.referenceName? = some r.pending.name
  position : r.pending.position = u.position

end Reference

namespace Graph

variable {g : Graph} {r : Reference}

/-- Where nothing is resolved yet, every usage by name is a reference. -/
theorem InOrder.mem_references_iff_of (h : g.InOrder)
    (hfresh : ∀ d ∈ g.declarations, d.definition.Fresh) :
    r ∈ g.references ↔ ∃ d ∈ g.declarations, ∃ u, r.Of d u := by
  rw [mem_references_iff h]
  refine exists_congr fun d => and_congr_right fun hd => ?_
  constructor
  · intro hr
    obtain ⟨hid, howner, hpending⟩ := mem_references hr
    obtain ⟨u, hu, hkind, hname, hposition⟩ := mem_pending.1 hpending
    exact ⟨u, howner, hid, Definition.mem_usages_iff.1 hu, hkind.symm,
      Usage.referenceName?_of_pending hname, hposition.symm⟩
  · rintro ⟨u, howner, hid, husage, hkind, hname, hposition⟩
    have hu := Definition.mem_usages_iff.2 husage
    have hpending : u.pendingName? = some r.pending.name := by
      rw [(hfresh d hd _ hu).pendingName?, hname]
    have hlisted := mem_pending.2 ⟨u, hu, hkind.symm, hpending, hposition.symm⟩
    refine Declaration.mem_references_iff.2 ⟨r.pending, hlisted, ?_⟩
    rw [← howner, ← hid]

theorem InOrder.undefinedIn_iff (h : g.InOrder) (hr : r ∈ g.references) :
    r.UndefinedIn g ↔ g.target? r = none := by
  obtain ⟨d, hd, hrd⟩ := (mem_references_iff h).1 hr
  have hlt := h.arranged.owner_lt hd
  rw [← (mem_references hrd).2.1] at hlt
  exact (h.denotation?_eq_none_iff hlt).symm

/-- A reference to nothing has a fault, which tells where the reference stands. -/
theorem InOrder.fault_of_undefinedIn (h : g.InOrder) (hr : r ∈ g.references)
    (hundefined : r.UndefinedIn g) :
    ∃ owner ∈ g.documents, ∃ holder ∈ g.declarations, owner.id = r.document ∧
      holder.id = r.declaration ∧ holder.owner = r.document ∧
      g.fault? r = some (.unresolved (owner.siteOf holder.name r.pending.position) r.pending.kind
        r.pending.name) := by
  obtain ⟨d, hd, hrd⟩ := (mem_references_iff h).1 hr
  obtain ⟨hid, howner, _⟩ := mem_references hrd
  obtain ⟨owner, hdoc⟩ := h.arranged.exists_owner hd
  rw [← howner] at hdoc
  refine ⟨owner, Array.mem_of_getElem? hdoc, d, hd, Handle.ext (h.arranged.document_index hdoc),
    hid.symm, howner.symm, ?_⟩
  rw [fault?, (h.undefinedIn_iff hr).1 hundefined, hdoc, hid, h.arranged.getElem?_id hd]
  rfl

theorem InOrder.fault?_eq_none (h : g.InOrder) (hr : r ∈ g.references)
    (hdefined : ¬ r.UndefinedIn g) : g.fault? r = none := by
  rw [h.undefinedIn_iff hr] at hdefined
  obtain ⟨t, ht⟩ := Option.ne_none_iff_exists'.1 hdefined
  rw [fault?, ht]

end Graph

/-! ## A family -/

section

variable {disk : Disk} {entities : Xml.EntityMap} {p base : Path} {c c' : Cache}
  {tree : ImportTree}

/-- Linking a family that was resolved fails if and only if a usage by name refers to what nothing
    is that its document reaches, and the failure tells of the first such usage: documents in the
    order of their handles, in each its declarations as it owns them, in each its usages. It has the
    site of the usage, which is that of the document and of the declaration, and the kind and the
    name that are undefined. Handles are 32 bits wide, so a family is `Addressable` unless it has
    more documents or declarations than there are handles, and shares them. -/
theorem unresolved_iff_of_link (hc : c.ReadFromTexts)
    (hr : (resolve disk entities p base).run.run c = (.ok tree, c'))
    (ha : (Graph.ofTree tree).Addressable) :
    (∀ r, r ∈ (Graph.ofTree tree).references ↔
      ∃ d ∈ (Graph.ofTree tree).declarations, ∃ u, r.Of d u) ∧
    ((∃ failure g, link.apply (Graph.ofTree tree) = (.error failure, g)) ↔
      ∃ r ∈ (Graph.ofTree tree).references, r.UndefinedIn (Graph.ofTree tree)) ∧
    ∀ before r after, (Graph.ofTree tree).references = before ++ r :: after →
      (∀ earlier ∈ before, ¬ earlier.UndefinedIn (Graph.ofTree tree)) →
      r.UndefinedIn (Graph.ofTree tree) →
      ∃ owner ∈ (Graph.ofTree tree).documents, ∃ holder ∈ (Graph.ofTree tree).declarations,
        owner.id = r.document ∧ holder.id = r.declaration ∧ holder.owner = r.document ∧
          ∃ g, link.apply (Graph.ofTree tree) =
            (.error (.unresolved (owner.siteOf holder.name r.pending.position) r.pending.kind
              r.pending.name), g) := by
  have h := Graph.inOrder_ofTree ha
  have hruns := Graph.runs_link h
  have hstart := Graph.settled_nil (Graph.ofTree tree)
  refine ⟨fun r => h.mem_references_iff_of (Graph.fresh_ofTree (fresh_of_resolve hc hr)), ?_, ?_⟩
  · constructor
    · rintro ⟨failure, g, hl⟩
      rw [← hstart] at hl
      obtain ⟨r, hmem, hfault⟩ := hruns.of_error hl
      refine ⟨r, hmem, by_contra fun hdefined => ?_⟩
      rw [h.fault?_eq_none hmem hdefined] at hfault
      cases hfault
    · rintro ⟨r, hmem, hundefined⟩
      obtain ⟨_, _, _, _, _, _, _, hfault⟩ := h.fault_of_undefinedIn hmem hundefined
      rcases hl : link.apply (Graph.ofTree tree) with ⟨failure | n, g⟩
      · exact ⟨failure, g, rfl⟩
      · rw [(settled_of_link ha hl).1 r hmem] at hfault
        cases hfault
  · intro before r after hsplit hdefined hundefined
    have hmem : ∀ {s}, s ∈ before ++ r :: after → s ∈ (Graph.ofTree tree).references :=
      fun hs => hsplit ▸ hs
    obtain ⟨owner, howner, holder, hholder, hdocument, hdeclaration, hheld, hfault⟩ :=
      h.fault_of_undefinedIn (hmem (by simp)) hundefined
    have hnone : before.findSome? (Graph.ofTree tree).fault? = none :=
      List.findSome?_eq_none_iff.2 fun s hs =>
        h.fault?_eq_none (hmem (List.mem_append_left _ hs)) (hdefined s hs)
    unfold Pass.Runs at hruns
    rw [hsplit, List.findSome?_append, hnone, Option.none_or, List.findSome?_cons, hfault] at hruns
    obtain ⟨g, hg⟩ := hruns
    rw [hstart] at hg
    exact ⟨owner, howner, holder, hholder, hdocument, hdeclaration, hheld, g, hg⟩

end

/-- Files with usages of three flags: one that is imported, one of which the name is only that of a
    field, and, in the file that is imported, one that there is not. -/
def undefinedFlags : Disk := .ofSights
  [(⟨"a"⟩, .file (some ("<METASCHEMA><import href=\"b\"/>" ++
      "<define-field name=\"w\"><flag ref=\"f\"/>\n<flag ref=\"w\"/></define-field>" ++
      "</METASCHEMA>"))),
    (⟨"b"⟩, .file (some ("<METASCHEMA><define-field name=\"v\"><flag ref=\"u\"/></define-field>" ++
      "<define-flag name=\"f\"/></METASCHEMA>")))]

theorem unresolved_undefinedFlags :
    ∃ tree c' found missing later g,
      (resolve undefinedFlags [] ⟨"a"⟩ ⟨""⟩).run.run {} = (.ok tree, c') ∧
      (Graph.ofTree tree).references = [found, missing, later] ∧
      missing.UndefinedIn (Graph.ofTree tree) ∧ later.UndefinedIn (Graph.ofTree tree) ∧
      link.apply (Graph.ofTree tree) =
        (.error (.unresolved ⟨⟨"a"⟩, some 2, "a", "w"⟩ .flag "w"), g) := by
  have hkey : succeeds (fun tree _ => decide (Graph.ofTree tree).Addressable &&
        (Graph.ofTree tree).references.map (fun r => ((Graph.ofTree tree).target? r).isNone) ==
          [false, true, true] &&
        (link.apply (Graph.ofTree tree)).1 ==
          .error (.unresolved ⟨⟨"a"⟩, some 2, "a", "w"⟩ .flag "w"))
      ((resolve undefinedFlags [] ⟨"a"⟩ ⟨""⟩).run.run {}) = true := by
    decide +kernel
  obtain ⟨tree, c', hr, hcheck⟩ := exists_of_succeeds hkey
  rw [Bool.and_eq_true, Bool.and_eq_true, beq_iff_eq, beq_iff_eq] at hcheck
  obtain ⟨⟨ha, htargets⟩, hfailure⟩ := hcheck
  have ha := of_decide_eq_true ha
  have hundefined := fun r hm => (Graph.inOrder_ofTree ha).undefinedIn_iff (r := r) hm
  simp only [List.map_eq_cons_iff, List.map_eq_nil_iff, Option.isNone_iff_eq_none,
    Option.isNone_eq_false_iff] at htargets
  obtain ⟨found, _, hrefs, hfound, missing, _, rfl, hmissing, later, _, rfl, hlater, rfl⟩ :=
    htargets
  rw [← hundefined _ (by simp [hrefs])] at hmissing hlater
  have hdefined : ¬ found.UndefinedIn (Graph.ofTree tree) := by
    rw [hundefined _ (by simp [hrefs])]
    exact Option.ne_none_iff_isSome.2 hfound
  obtain ⟨_, _, hfirst⟩ := unresolved_iff_of_link Cache.readFromTexts_empty hr ha
  obtain ⟨owner, _, holder, _, _, _, _, g, hl⟩ :=
    hfirst [found] missing [later] hrefs (by simpa using hdefined) hmissing
  rw [hl] at hfailure
  exact ⟨tree, c', found, missing, later, g, hr, hrefs, hmissing, hlater,
    hl.trans (Prod.ext hfailure rfl)⟩

end SchemaFamily
