import SchemaFamily.Proofs.Family.Keyed
import SchemaFamily.Proofs.Family.Sources
import SchemaFamily.Proofs.Family.Undefined

/-
  Where failures point. A failure that is told with a site is one of linking or of reconciling, as
  reading files fails without one. Its site is that of an element, a usage in the file of a document
  of the family (`Site.PointsAt`), and the element is what the failure says: it refers by a name
  that nothing has that its document reaches (`unresolved_of_link`), or groups by key the values of
  what has no key (`missingIndexKey_of_reconcile`). The line is that of the element but for what
  `Tag.PlacedBehind` says of texts with a byte order mark (`sites_of_compile`).
-/

namespace SchemaFamily

open Xml

/-- The site that a failure is told with, if it is one of a usage. -/
def Failure.site? : Failure → Option Site
  | .unresolved site _ _ => some site
  | .missingIndexKey site _ _ => some site
  | _ => none

section

variable {disk : Disk} {entities : EntityMap} {base p : Path} {failure : Failure}

/-! ## Failures without a site -/

theorem site?_of_readDraft (h : readDraft disk entities p = .error failure) :
    failure.site? = none := by
  unfold readDraft at h
  split at h
  · cases h
    rfl
  · split at h
    · cases h
      rfl
    · cases h

theorem site?_of_unfoldFrom {n : Nat} {way : List Path}
    (h : unfoldFrom disk entities base n way p = .error failure) : failure.site? = none := by
  induction n generalizing way p with
  | zero =>
    cases h
    rfl
  | succ n ih =>
    rw [unfoldFrom] at h
    split at h
    · cases h
      rfl
    · cases hread : readDraft disk entities p.normalize with
      | error failure' =>
        rw [hread] at h
        cases h
        exact site?_of_readDraft hread
      | ok draft =>
        rw [hread] at h
        simp only [bind, Except.bind] at h
        split at h
        · next himports =>
          cases h
          obtain ⟨i, _, hi⟩ := exists_of_mapM_error himports
          exact ih hi
        · cases h

end

/-! ## Sites of usages -/

/-- The site is that of the usage `x` in the definition `e`, in the text of the document. -/
structure Site.PointsAt (site : Site) (d : Document) (text : String) (root e x : Element) :
    Prop where
  path : site.path = d.header.source
  document : site.document = d.name
  defines : root.Defines e
  declaration : e.attribute? "name" = some site.declaration
  usage : x ∈ e.elements ∧ (x.name = "flag" ∨ x.name = "define-flag") ∨ e.Entry x
  line : site.line = some x.position.line
  placed : ∃ front, x.tag.PlacedBehind text front

/-- The site of a usage points at the element that says it. -/
theorem Graph.Drafts.exists_pointsAt {g : Graph} {d owner : Document} {root : Element}
    {draft : Draft} {first : Nat} (h : g.Drafts d root draft first) {disk : Disk}
    {entities : EntityMap} {text : String} (htext : d.HasText disk entities text root)
    (hheader : owner.header = d.header) {a a' : Declaration} (ha : a ∈ g.declarations)
    (howner : a.owner = d.id) (ho : a'.outline = a.outline) {slot : Slot} {u : Usage}
    (hu : a'.definition.usage? slot = some u) :
    ∃ (e x : Element) (v : Usage), (owner.siteOf a'.name u.position).PointsAt d text root e x ∧
      (u.IsFlag ∨ x ∈ e.entries ∧ root.UsesInModel x ∧ u.IsModel) ∧
      u.forget = v.rebase first ∧ v.SaidBy draft.definitions x := by
  obtain ⟨e, x, v, hdefines, hname, huses, hforget, hsaid⟩ := h.exists_saidBy ha howner ho hu
  have hposition : u.position = x.position :=
    (Usage.eq_of_forget hforget).2.1.trans hsaid.position
  have hinside : x.tags ⊆ e.tags := by
    rcases huses with ⟨hx, _⟩ | ⟨hx, _⟩
    · exact Element.tags_subset hx
    · exact (Element.mem_entries.1 hx).tags_subset
  obtain ⟨front, hplaced⟩ :=
    exists_place htext.parsed x.tag (hdefines.tags_subset (hinside x.tag_mem_tags))
  refine ⟨e, x, v, ⟨?_, ?_, hdefines, hname, ?_, ?_, front, hplaced⟩, ?_, hforget, hsaid⟩
  · rw [← hheader]
    rfl
  · rw [Document.name, ← hheader]
    rfl
  · rcases huses with ⟨hx, ⟨_, _, _, _, hword⟩, _⟩ | ⟨hx, _⟩
    · exact .inl ⟨hx, hword⟩
    · exact .inr (Element.mem_entries.1 hx)
  · rw [Document.siteOf, hposition]
    exact if_pos hplaced.known
  · exact huses.imp_left fun hflag => hflag.2.2

/-! ## Names that nothing has -/

section

variable {disk : Disk} {settings : Settings} {entities : EntityMap} {p base : Path} {c c' : Cache}
  {tree : ImportTree} {k : Nat} {g g' : Graph} {failure : Failure}

/-- Linking a family fails at an element that refers by a name that nothing has that its document
    reaches. -/
theorem unresolved_of_link (hc : c.Faithful disk entities)
    (hr : (resolve disk entities p base).run.run c = (.ok tree, c'))
    (ha : (Graph.ofTree tree).Addressable)
    (hl : link.apply (Graph.ofTree tree) = (.error failure, g)) :
    ∃ site kind name, failure = .unresolved site kind name ∧
      ∃ d ∈ (Graph.ofTree tree).documents, ∃ text root e x, d.HasText disk entities text root ∧
        site.PointsAt d text root e x ∧ x.name = kind.word ∧ x.attribute? "ref" = some name ∧
        (Graph.ofTree tree).Undefined d.id kind name := by
  have h := Graph.inOrder_ofTree ha
  rw [← Graph.settled_nil (Graph.ofTree tree)] at hl
  obtain ⟨r, hmem, hfault⟩ := (Graph.runs_link h).of_error hl
  obtain ⟨a, hdeclared, hra⟩ := (Graph.mem_references_iff h).1 hmem
  obtain ⟨hid, hrowner, hpending⟩ := Graph.mem_references hra
  obtain ⟨d, text, root, draft, first, hd, howner, htext, hdrafts⟩ :=
    exists_drafts hc hr ha hdeclared
  rw [Graph.fault?, Graph.target?, hid, hrowner, hd, h.arranged.getElem?_id hdeclared] at hfault
  cases hnone : (Graph.ofTree tree).denotation? a.owner r.pending.kind r.pending.name with
  | some t =>
    rw [hnone] at hfault
    cases hfault
  | none =>
    rw [hnone] at hfault
    cases hfault
    obtain ⟨u, hu, hkind, hname, hposition⟩ := Graph.mem_pending.1 hpending
    obtain ⟨e, x, v, hpoints, _, hforget, hsaid⟩ := hdrafts.exists_pointsAt htext rfl hdeclared
      howner rfl (Definition.mem_usages_iff.1 hu)
    obtain ⟨hvkind, _, _, hvname, _⟩ := Usage.eq_of_forget hforget
    rw [Usage.referenceName?_of_pending hname] at hvname
    obtain ⟨resolved, htarget⟩ := Usage.target_of_referenceName? hvname.symm
    obtain ⟨hword, href⟩ := hsaid.target.reference _ _ htarget
    refine ⟨_, _, _, rfl, d, hdrafts.mem, text, root, e, x, htext, hposition ▸ hpoints, ?_, href,
      ?_⟩
    · rw [hword, ← hvkind, hkind]
    · rw [← howner]
      exact (h.denotation?_eq_none_iff (h.arranged.owner_lt hdeclared)).1 hnone

end

/-! ## Groups of what has no key -/

namespace Graph

/-- The element uses the declaration that `y` defines: it refers to what a name denotes in the
    document, or it is `y` itself. -/
inductive UsedBy (g : Graph) (d : Document) (x : Element) (t : Declaration) (y : Element) : Prop
  | reference (name : x.name = t.kind.word) (ref : x.attribute? "ref" = some t.name)
      (denotes : g.Denotes d.id t.kind t.name t)
  | inline (name : x.name = "define-" ++ t.kind.word) (owner : t.owner = d.id) (self : y = x)

/-- The usage `x` groups its values by key, and what it uses is defined without one. -/
structure Keyless (g : Graph) (disk : Disk) (entities : EntityMap) (d : Document) (x : Element)
    (target group : String) : Prop where
  group : ∃ described value, x.child? "group-as" = some described ∧
    described.attribute? "name" = some group ∧ described.attribute? "in-json" = some value ∧
    trimmed value = "BY_KEY"
  target : ∃ t ∈ g.declarations, t.name = target ∧ ∃ d' ∈ g.documents, t.owner = d'.id ∧
    ∃ text root y, d'.HasText disk entities text root ∧ t.DefinedBy root y ∧
      (∀ key, y.child? "json-key" = some key → key.attribute? "flag-name" = none) ∧
      g.UsedBy d x t y

end Graph

section

variable {g : Graph} {d : Document} {root x : Element} {draft : Draft} {first : Nat} {u v : Usage}
  {t : Declaration}

theorem Usage.IsModel.kind_ne_flag (h : u.IsModel) : u.kind ≠ .flag := by
  rcases h with h | h <;> rw [h] <;> decide

/-- The element that says a usage by name uses what the name denotes. -/
theorem Graph.usedBy_of_denotes {name : String} (hforget : u.forget = v.rebase first)
    (hsaid : v.SaidBy draft.definitions x) (hname : u.referenceName? = some name)
    (hdenotes : g.Denotes d.id u.kind name t) (y : Element) :
    t.kind = u.kind ∧ g.UsedBy d x t y := by
  obtain ⟨hkind, _, _, hvname, _⟩ := Usage.eq_of_forget hforget
  obtain ⟨_, htkind, htname⟩ := Declaration.isGlobal_iff.1 hdenotes.mem.2
  obtain ⟨resolved, htarget⟩ := Usage.target_of_referenceName? (hvname ▸ hname)
  obtain ⟨hword, href⟩ := hsaid.target.reference _ _ htarget
  refine ⟨htkind, .reference ?_ ?_ ?_⟩
  · rw [hword, htkind, hkind]
  · rw [href, htname]
  · rw [htkind, htname]
    exact hdenotes

/-- The element that says a usage in the model of what is defined in place defines it. -/
theorem Graph.Drafts.usedBy_of_inlineTarget? (h : g.Drafts d root draft first) (ha : g.Arranged)
    (huses : root.UsesInModel x) (hmodel : u.IsModel) (hforget : u.forget = v.rebase first)
    (hsaid : v.SaidBy draft.definitions x) (ht : t ∈ g.declarations)
    (hself : u.inlineTarget? = some t.id) :
    t.owner = d.id ∧ t.DefinedBy root x ∧ g.UsedBy d x t x := by
  obtain ⟨hkind, _, _, _, hinline⟩ := Usage.eq_of_forget hforget
  rw [hself] at hinline
  obtain ⟨id, hid, hoffset⟩ := Option.map_eq_some_iff.1 hinline.symm
  obtain ⟨hinlines, j, t', rfl, ht', hmade, hmadeKind⟩ :=
    hsaid.target.inline id (Usage.target_of_inlineTarget? hid)
  rw [Handle.offset_ofIndex, Nat.add_comm] at hoffset
  obtain rfl := ha.declaration_eq (h.mem_of_getElem? ht') ht hoffset
  have hdefinition : (t'.declaration d.id first j).definition = t'.definition.rebase first :=
    (t'.definition.rebase_eq_shiftInline first).symm
  have htkind : (t'.declaration d.id first j).kind = u.kind := by
    rw [Declaration.kind, hdefinition, Definition.rebase, Definition.kind_mapUsages]
    exact hmadeKind.trans hkind.symm
  rcases hinlines with hword | ⟨hflag, _⟩
  · have hdefines : root.Defines x := huses.defines <| by
      rcases hmodel with hmodel | hmodel <;> rw [hword, ← hkind, hmodel]
      · exact .inl rfl
      · exact .inr rfl
    refine ⟨rfl, ?_, .inline ?_ rfl rfl⟩
    · exact definedBy_of_madeBy hdefinition hmade hdefines (htkind ▸ hmodel.kind_ne_flag)
    · rw [hword, htkind, hkind]
  · exact absurd (hkind.trans hflag) hmodel.kind_ne_flag

end

section

variable {disk : Disk} {entities : EntityMap} {p base : Path} {c c' : Cache} {tree : ImportTree}

/-- What a usage in the model of a linked family uses is defined by an element. -/
theorem exists_usedBy (hc : c.Faithful disk entities)
    (hr : (resolve disk entities p base).run.run c = (.ok tree, c'))
    (ha : (Graph.ofTree tree).Addressable)
    (hok : ∀ r ∈ (Graph.ofTree tree).references, (Graph.ofTree tree).fault? r = none)
    {d : Document} {text : String} {root x : Element} {draft : Draft} {first : Nat}
    (hdrafts : (Graph.ofTree tree).Drafts d root draft first)
    (htext : d.HasText disk entities text root) {a : Declaration}
    (hdeclared : a ∈ (Graph.ofTree tree).declarations) (howner : a.owner = d.id) {slot : Slot}
    {u v : Usage} (hu : ((Graph.ofTree tree).settleDeclaration (Graph.ofTree tree).references
      a).definition.usage? slot = some u) (huses : root.UsesInModel x) (hmodel : u.IsModel)
    (hforget : u.forget = v.rebase first) (hsaid : v.SaidBy draft.definitions x) {t : Declaration}
    (ht : t ∈ (Graph.ofTree tree).declarations) (htarget : u.declaration? = some t.id) :
    ∃ d' ∈ (Graph.ofTree tree).documents, t.owner = d'.id ∧ ∃ text' root' y,
      d'.HasText disk entities text' root' ∧ t.DefinedBy root' y ∧
        (Graph.ofTree tree).UsedBy d x t y := by
  have h := Graph.inOrder_ofTree ha
  cases hrefers : u.referenceName? with
  | some name =>
    have hfresh := Graph.fresh_ofTree (fresh_of_resolve hc.readFromTexts hr)
    obtain ⟨t', hid, hdenotes⟩ :=
      (Graph.target_of_settled h hfresh hok hdeclared hu).2 name hrefers
    rw [htarget, Option.some.injEq] at hid
    obtain rfl := h.arranged.declaration_eq ht hdenotes.mem.1 hid
    rw [howner] at hdenotes
    have hused := Graph.usedBy_of_denotes hforget hsaid hrefers hdenotes
    obtain ⟨d', text', root', draft', first', _, howner', htext', hdrafts'⟩ :=
      exists_drafts hc hr ha ht
    obtain ⟨y, hy⟩ := hdrafts'.exists_definedBy ht howner' ((hused x).1 ▸ hmodel.kind_ne_flag)
    exact ⟨d', hdrafts'.mem, howner', text', root', y, htext', hy, (hused y).2⟩
  | none =>
    have hself : u.inlineTarget? = some t.id := by
      rcases u with ⟨kind, ⟨name, resolved⟩ | id⟩
      · cases hrefers
      · exact htarget
    obtain ⟨howner', hdefined, hused⟩ :=
      hdrafts.usedBy_of_inlineTarget? h.arranged huses hmodel hforget hsaid ht hself
    exact ⟨d, hdrafts.mem, howner', text, root, x, htext, hdefined, hused⟩

/-- In a linked family, a usage that groups by key the values of what has no key is an entry that
    does. -/
theorem exists_keyless (hc : c.Faithful disk entities)
    (hr : (resolve disk entities p base).run.run c = (.ok tree, c'))
    (ha : (Graph.ofTree tree).Addressable)
    (hok : ∀ r ∈ (Graph.ofTree tree).references, (Graph.ofTree tree).fault? r = none)
    {a t : Declaration} (hdeclared : a ∈ (Graph.ofTree tree).declarations) {slot : Slot} {u : Usage}
    (hu : ((Graph.ofTree tree).settleDeclaration (Graph.ofTree tree).references
      a).definition.usage? slot = some u)
    {group : GroupAs} (hgroup : u.groupAs = some group) (hkeyed : group.inJson = .byKey)
    (ht : t ∈ (Graph.ofTree tree).declarations) (htarget : u.declaration? = some t.id)
    (hkeyless : t.definition.jsonKey = none) {owner : Document}
    (howner : owner ∈ (Graph.ofTree tree).documents) (hid : owner.id = a.owner) :
    ∃ d ∈ (Graph.ofTree tree).documents, ∃ text root e x, d.HasText disk entities text root ∧
      (owner.siteOf a.name u.position).PointsAt d text root e x ∧ e.Entry x ∧
      (Graph.ofTree tree).Keyless disk entities d x t.name group.name := by
  have harranged := (Graph.inOrder_ofTree ha).arranged
  obtain ⟨d, text, root, draft, first, hd, hdocument, htext, hdrafts⟩ :=
    exists_drafts hc hr ha hdeclared
  have hsame := harranged.document_getElem?_id howner
  rw [hid, hd] at hsame
  obtain rfl := Option.some.inj hsame
  obtain ⟨e, x, v, hpoints, huses, hforget, hsaid⟩ := hdrafts.exists_pointsAt htext rfl hdeclared
    hdocument (Graph.outline_settleDeclaration _ _ a) hu
  obtain ⟨_, _, hvgroup, _⟩ := Usage.eq_of_forget hforget
  obtain ⟨described, hdescribed, hsays⟩ := hsaid.group group (hvgroup ▸ hgroup)
  obtain ⟨value, hvalue, hword⟩ := hsays.byKey hkeyed
  rcases huses with hflag | ⟨hx, huses, hmodel⟩
  · -- a group is never that of a flag
    rw [hflag.groupAs] at hgroup
    cases hgroup
  · obtain ⟨d', hd', howner', text', root', y, htext', hy, hused⟩ := exists_usedBy hc hr ha hok
      hdrafts htext hdeclared hdocument hu huses hmodel hforget hsaid ht htarget
    have hunnamed : ∀ key, y.child? "json-key" = some key → key.attribute? "flag-name" = none := by
      intro key hkey
      have hnone := hy.jsonKey.symm.trans hkeyless
      rwa [hkey] at hnone
    exact ⟨d, hdrafts.mem, text, root, e, x, htext, hpoints, Element.mem_entries.1 hx,
      ⟨described, value, hdescribed, hsays.name, hvalue, hword⟩,
      ⟨t, ht, rfl, d', hd', howner', text', root', y, htext', hy, hunnamed, hused⟩⟩

/-- Reconciling a family that was linked fails at an element that groups by key the values of what
    has no key. -/
theorem missingIndexKey_of_reconcile {settings : Settings} {k : Nat} {g g' : Graph}
    {failure : Failure} (hc : c.Faithful disk settings.entities)
    (hr : (resolve disk settings.entities p base).run.run c = (.ok tree, c'))
    (ha : (Graph.ofTree tree).Addressable) (hl : link.apply (Graph.ofTree tree) = (.ok k, g))
    (hs : (reconcile settings.multiplexerSuffix).apply g = (.error failure, g')) :
    ∃ site target group, failure = .missingIndexKey site target group ∧
      ∃ d ∈ (Graph.ofTree tree).documents, ∃ text root e x,
        d.HasText disk settings.entities text root ∧ site.PointsAt d text root e x ∧ e.Entry x ∧
        (Graph.ofTree tree).Keyless disk settings.entities d x target group := by
  have h := Graph.inOrder_ofTree ha
  obtain ⟨hlinked, haddressable, hunshared, hne⟩ := reconcilable_of_link ha hl
  obtain ⟨documents, _, hperm, hcases⟩ :=
    Graph.reconcile_cases settings.multiplexerSuffix hlinked haddressable hunshared hne
  rw [hs] at hcases
  split at hcases
  · obtain ⟨_, _, heq⟩ := hcases
    cases heq
  · next failure' hfound =>
    obtain ⟨_, heq⟩ := hcases
    cases heq
    obtain ⟨e, he, hrefused⟩ := List.exists_of_findSome?_eq_some hfound
    rw [refusal?_eq_some_iff settings.multiplexerSuffix hc.readFromTexts hr ha hl hperm he]
      at hrefused
    obtain ⟨t, ht, owner, howner, hid, rfl⟩ := hrefused
    obtain ⟨a', ha', hea⟩ := (Graph.mem_eligible_iff hlinked.arranged hperm).1 he
    obtain ⟨⟨slot, u⟩, hmem, hat⟩ := List.mem_filterMap.1 hea
    obtain ⟨_, group, hgroup, _, rfl⟩ := Declaration.eligibleAt_eq_some_iff.1 hat
    obtain ⟨hok, rfl, _⟩ := settled_of_link ha hl
    obtain ⟨a, hdeclared, rfl⟩ := Array.mem_map.1 ha'
    obtain ⟨t₀, ht₀, rfl⟩ := Array.mem_map.1 ht.mem
    obtain ⟨owner, hmem', rfl⟩ := Array.mem_map.1 howner
    have hkey := Declaration.jsonKey_of_outline
      (Graph.outline_settleDeclaration (Graph.ofTree tree) (Graph.ofTree tree).references t₀)
    have hkeyless := exists_keyless hc hr ha hok hdeclared (Definition.mem_usages_iff.1 hmem)
      hgroup ht.byKey ht₀ ht.target (hkey.symm.trans ht.jsonKey) hmem' hid
    exact ⟨_, _, _, rfl, hkeyless⟩

/-! ## Compiling a family -/

/-- When a family cannot be compiled and the failure is told with a site, the site is that of a
    usage in the file of a document of the family: in the definition of the name that is told, and
    on the line that is told, unless the text has a byte order mark and fewer than three bytes of
    the line are in front of the usage, when an earlier line may be told. What is not resolved is
    what the usage refers to, and nothing that its document reaches has that kind and name; what
    misses a key is what the usage uses, whose values it groups by key under the name that is told.
    Handles are 32 bits wide, so a family is `Addressable` unless it has more documents or
    declarations than there are handles, and shares them. -/
theorem sites_of_compile {settings : Settings} {failure : Failure} {site : Site}
    (hf : ((compileIn disk settings p base).run.run {}).1 = .error failure)
    (hs : failure.site? = some site) :
    ∃ tree c', (resolve disk settings.entities p base).run.run {} = (.ok tree, c') ∧
      ((Graph.ofTree tree).Addressable →
        ∃ d ∈ (Graph.ofTree tree).documents, ∃ text root e x,
          d.HasText disk settings.entities text root ∧ site.PointsAt d text root e x ∧
          (∀ kind name, failure = .unresolved site kind name →
            x.name = kind.word ∧ x.attribute? "ref" = some name ∧
              (Graph.ofTree tree).Undefined d.id kind name) ∧
          ∀ target group, failure = .missingIndexKey site target group →
            e.Entry x ∧
              (Graph.ofTree tree).Keyless disk settings.entities d x target group) := by
  have hc := Cache.faithful_empty disk settings.entities
  rcases passes_of_failure hf with hr | ⟨tree, c', hr, ⟨g, hl⟩ | ⟨k, g, g', hl, hreconcile⟩⟩
  · rw [(run_resolve hc p base).1] at hr
    rw [site?_of_unfoldFrom hr] at hs
    cases hs
  · refine ⟨tree, c', hr, fun ha => ?_⟩
    obtain ⟨_, kind, name, rfl, d, hd, text, root, e, x, htext, hpoints, hrefers⟩ :=
      unresolved_of_link hc hr ha hl
    cases hs
    refine ⟨d, hd, text, root, e, x, htext, hpoints, fun kind name heq => ?_, fun _ _ heq => ?_⟩
    · cases heq
      exact hrefers
    · cases heq
  · refine ⟨tree, c', hr, fun ha => ?_⟩
    obtain ⟨_, target, group, rfl, d, hd, text, root, e, x, htext, hpoints, hkeyless⟩ :=
      missingIndexKey_of_reconcile hc hr ha hl hreconcile
    cases hs
    refine ⟨d, hd, text, root, e, x, htext, hpoints, fun _ _ heq => ?_, fun target group heq => ?_⟩
    · cases heq
    · cases heq
      exact hkeyless

end

/-- A file with the usage of a flag that there is not, on the third line. -/
def undefinedFlagText : String :=
  "<METASCHEMA>\n<define-assembly name=\"a\">\n<flag ref=\"f\"/></define-assembly></METASCHEMA>"

theorem sites_undefinedFlag :
    let disk := Disk.ofSights [(⟨"a"⟩, .file (some undefinedFlagText))]
    let site : Site := ⟨⟨"a"⟩, some 3, "a", "a"⟩
    ((compileIn disk {} ⟨"a"⟩ ⟨""⟩).run.run {}).1 = .error (.unresolved site .flag "f") ∧
      ∃ tree c', (resolve disk [] ⟨"a"⟩ ⟨""⟩).run.run {} = (.ok tree, c') ∧
        ∃ d ∈ (Graph.ofTree tree).documents, ∃ text root e x, site.PointsAt d text root e x ∧
          x.name = "flag" ∧ x.attribute? "ref" = some "f" ∧
          (Graph.ofTree tree).Undefined d.id .flag "f" := by
  intro disk site
  have hfailure : ((compileIn disk {} ⟨"a"⟩ ⟨""⟩).run.run {}).1 =
      .error (.unresolved site .flag "f") := by
    decide +kernel
  have haddressable : succeeds (fun tree _ => decide (Graph.ofTree tree).Addressable)
      ((resolve disk [] ⟨"a"⟩ ⟨""⟩).run.run {}) = true := by
    decide +kernel
  obtain ⟨tree, c', hr, ha⟩ := exists_of_succeeds haddressable
  obtain ⟨tree', c'', hr', hsite⟩ := sites_of_compile hfailure rfl
  rw [hr] at hr'
  cases hr'
  obtain ⟨d, hd, text, root, e, x, _, hpoints, hrefers, _⟩ := hsite (of_decide_eq_true ha)
  obtain ⟨hname, href, hundefined⟩ := hrefers .flag "f" rfl
  exact ⟨hfailure, tree, c', hr, d, hd, text, root, e, x, hpoints, hname, href, hundefined⟩

/-- With a byte order mark in front the line before is told, where no usage of a flag stands. -/
theorem line_markedFlag :
    let text := "\uFEFF" ++ undefinedFlagText
    ((compileIn (.ofSights [(⟨"a"⟩, .file (some text))]) {} ⟨"a"⟩ ⟨""⟩).run.run {}).1 =
        .error (.unresolved ⟨⟨"a"⟩, some 2, "a", "a"⟩ .flag "f") ∧
      ∀ front inner, text.toList = front ++ "<flag".toList ++ inner → lineAfter front = 3 := by
  intro text
  refine ⟨by decide +kernel, fun front inner htext => ?_⟩
  have hline : ∀ n ∈ List.range (text.toList.length + 1),
      "<flag".toList <+: text.toList.drop n → lineAfter (text.toList.take n) = 3 := by
    decide +kernel
  have hlength : front.length < text.toList.length + 1 := by
    rw [htext, List.append_assoc, List.length_append]
    omega
  have hfound := hline front.length (List.mem_range.2 hlength) (by simp [htext])
  rwa [htext, List.append_assoc, List.take_left] at hfound

end SchemaFamily
