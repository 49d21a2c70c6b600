import SchemaFamily.Proofs.Family.Compiling
import SchemaFamily.Proofs.Family.Sound

/-
  Keys of groups. The flag by which a multiplexer keys its values is the one that the declaration it
  stands for names as its key, whether or not the declaration has a flag of that name; a family in
  which it has none is `unflaggedKey`. A usage whose values are keyed is `Unkeyed` when what it uses
  names no key, and the first such usage of a linked family, documents after their imports, decides
  why the family cannot be compiled (`indexFlags_of_compile`).
-/

namespace SchemaFamily

/-- A draft that was read is well formed. -/
theorem Draft.ReadFromText.wellFormed {draft : Draft} (h : draft.ReadFromText) :
    draft.WellFormed := by
  obtain ⟨_, _, _, h⟩ := h
  exact Draft.wellFormed_of_read h

/-- The values of the usage are keyed, and what it uses names no key. -/
structure Graph.Unkeyed (g : Graph) (e : Eligible) (t : Declaration) : Prop where
  byKey : e.candidate.group.inJson = .byKey
  target : e.candidate.value.declaration? = some t.id
  mem : t ∈ g.declarations
  jsonKey : t.definition.jsonKey = none

theorem MultiplexMode.of?_eq_none_iff {group : GroupAs} {t : Declaration} :
    MultiplexMode.of? group t = none ↔ group.inJson = .byKey ∧ t.definition.jsonKey = none := by
  rw [MultiplexMode.of?.eq_def]
  split
  · next hj hk => simp [hj, hk]
  · next hj hk => simp [hk]
  · next hnone hsome =>
    cases hk : t.definition.jsonKey with
    | none => simpa using fun hj => hnone hj hk
    | some key => simp

namespace Graph

variable {g : Graph}

/-- In a sound graph the flag by which values are keyed is the key of what they are made of. -/
theorem Sound.jsonKey_of_mode (h : g.Sound) {m : Multiplexer} (hm : m ∈ g.multiplexers)
    {key : String} (hmode : m.mode = .byKey key) :
    ∃ t, g.declarations[m.wrapped.index]? = some t ∧ t.definition.jsonKey = some key := by
  obtain ⟨t, ht, hfits⟩ := (h.multiplexers m hm).wrapped
  refine ⟨t, ht, ?_⟩
  by_cases hj : m.group.inJson = .byKey
  · obtain ⟨key', hkey, hmode'⟩ := hfits.byKey hj
    rw [hmode, MultiplexMode.byKey.injEq] at hmode'
    rw [hkey, hmode']
  · rw [hfits.notByKey hj] at hmode
    cases hmode

/-! ## Demands of linked families -/

section

variable {e : Eligible} {owner : Document} {t : Declaration}

/-- What a usage demands whose target is known depends on the key of the target alone. -/
theorem demanded_eq (suffix : String) (h : g.Arranged) (howner : g.document e.document = .ok owner)
    (ht : t ∈ g.declarations) (htarget : e.candidate.value.declaration? = some t.id) :
    (g.Unkeyed e t → g.demanded suffix e = .error (.missingIndexKey
      (owner.siteOf e.candidate.holder e.candidate.value.position) t.name e.candidate.group.name)) ∧
    (¬ g.Unkeyed e t → ∃ m, g.demanded suffix e = .ok m) := by
  have hdeclaration : g.declaration t.id = .ok t := by
    rw [declaration, h.getElem?_id ht]
  rw [demanded, howner]
  dsimp only
  rw [htarget]
  dsimp only
  rw [hdeclaration]
  dsimp only
  cases hmode : MultiplexMode.of? e.candidate.group t with
  | none =>
    obtain ⟨hj, hk⟩ := MultiplexMode.of?_eq_none_iff.1 hmode
    exact ⟨fun _ => rfl, fun hnot => absurd ⟨hj, htarget, ht, hk⟩ hnot⟩
  | some mode =>
    refine ⟨fun hu => ?_, fun _ => ⟨_, rfl⟩⟩
    rw [MultiplexMode.of?_eq_none_iff.2 ⟨hu.byKey, hu.jsonKey⟩] at hmode
    cases hmode

end

theorem findSome?_eligible (suffix : String) (documents : List DocumentId) :
    (documents.findSome? fun document => (g.eligible [document]).findSome? (g.refusal? suffix)) =
      (g.eligible documents).findSome? (g.refusal? suffix) := by
  induction documents with
  | nil => rfl
  | cons document later ih =>
    rw [← List.singleton_append, eligible_append, List.findSome?_append, List.findSome?_append, ih,
      List.findSome?_singleton]

/-- Reconciling a family that was linked ends with a result unless a usage is refused; the first
    refusal, documents after their imports, is the failure then. -/
theorem reconcile_cases (suffix : String) (h : g.InOrder) (ha : g.Addressable) (hu : g.Unshared)
    (hne : g.documents.size ≠ 0) :
    ∃ documents, g.Postorder [.ofIndex 0] documents ∧
      documents.Perm (g.documents.toList.map (·.id)) ∧
      match (g.eligible documents).findSome? (g.refusal? suffix) with
      | none => ∃ n g', (reconcile suffix).apply g = (.ok n, g')
      | some failure => ∃ g', (reconcile suffix).apply g = (.error failure, g') := by
  obtain ⟨documents, hpost, hperm, hruns⟩ := @runs_reconcile g suffix h ha hu hne
  refine ⟨documents, hpost, hperm, ?_⟩
  have hstart : g.served [] (g.demands suffix (g.eligible [])) = g := served_nil hu
  unfold Pass.Runs at hruns
  rw [findSome?_eligible] at hruns
  dsimp only at hruns
  rw [hstart] at hruns
  cases hf : (g.eligible documents).findSome? (g.refusal? suffix) with
  | none =>
    rw [hf] at hruns
    obtain ⟨n, hn, _⟩ := hruns
    exact ⟨n, _, hn⟩
  | some failure =>
    rw [hf] at hruns
    exact hruns

end Graph

section

variable {disk : Disk} {settings : Settings} {p base : Path} {c c' : Cache} {tree : ImportTree}
  {k : Nat} {g : Graph}

/-- A family that was resolved is sound. -/
theorem sound_of_resolve {entities : Xml.EntityMap} (hc : c.ReadFromTexts)
    (hr : (resolve disk entities p base).run.run c = (.ok tree, c')) :
    (Graph.ofTree tree).Sound :=
  Graph.sound_ofTree fun draft hd => ((readFromText_of_resolve hc hr).1 draft hd).wellFormed

/-- A family that was compiled is sound. -/
theorem sound_of_compile (hc : c.ReadFromTexts)
    (hg : (compileIn disk settings p base).run.run c = (.ok g, c')) : g.Sound := by
  obtain ⟨tree, k, g₁, n, hr, hl, hs⟩ := passes_of_compile hg
  have hfinish : (finishFamily settings.multiplexerSuffix).apply (Graph.ofTree tree) =
      (.ok n, g) := by
    rw [finishFamily, Pass.apply_bind_of_ok hl, hs]
  exact sound_finishFamily _ _ (sound_of_resolve hc hr) _ _ hfinish

/-- In a family that was linked, every usage that needs a multiplexer has its owner and its
    target. -/
theorem exists_target_of_eligible {entities : Xml.EntityMap} (hc : c.ReadFromTexts)
    (hr : (resolve disk entities p base).run.run c = (.ok tree, c'))
    (ha : (Graph.ofTree tree).Addressable) (hl : link.apply (Graph.ofTree tree) = (.ok k, g))
    {d : Declaration} (hd : d ∈ g.declarations) {e : Eligible} (he : e ∈ d.eligible) :
    ∃ owner ∈ g.documents, owner.id = e.document ∧ ∃ t ∈ g.declarations,
      e.candidate.value.declaration? = some t.id := by
  have hsound := sound_link _ (sound_of_resolve hc hr) _ _ hl
  have hfresh := Graph.fresh_ofTree (fresh_of_resolve hc hr)
  have harranged := (reconcilable_of_link ha hl).1.arranged
  obtain ⟨hok, rfl, _⟩ := settled_of_link ha hl
  obtain ⟨⟨slot, u⟩, hu, hat⟩ := List.mem_filterMap.1 he
  obtain ⟨_, group, _, _, rfl⟩ := Declaration.eligibleAt_eq_some_iff.1 hat
  obtain ⟨owner, howner⟩ := harranged.exists_owner hd
  obtain ⟨d', hd', rfl⟩ := Array.mem_map.1 hd
  obtain ⟨hsome, _⟩ := Graph.target_of_settled (Graph.inOrder_ofTree ha) hfresh hok hd'
    (Definition.mem_usages_iff.1 hu)
  obtain ⟨id, htarget⟩ := Option.isSome_iff_exists.1 hsome
  have hlt := (hsound.declarations _ hd).used _ hu id htarget
  refine ⟨owner, Array.mem_of_getElem? howner, Handle.ext (harranged.document_index howner), _,
    Array.getElem_mem hlt, ?_⟩
  have hindex := harranged.declaration_index (Array.getElem?_eq_getElem hlt)
  rw [show (Graph.settled _ _).declarations[id.index].id = id from Handle.ext hindex]
  exact htarget

/-- In a family that was linked, a usage is refused exactly when it is unkeyed. -/
theorem refusal?_of_link {entities : Xml.EntityMap} (suffix : String) (hc : c.ReadFromTexts)
    (hr : (resolve disk entities p base).run.run c = (.ok tree, c'))
    (ha : (Graph.ofTree tree).Addressable) (hl : link.apply (Graph.ofTree tree) = (.ok k, g))
    {documents : List DocumentId} (hperm : documents.Perm (g.documents.toList.map (·.id)))
    {e : Eligible} (he : e ∈ g.eligible documents) :
    ∃ owner ∈ g.documents, owner.id = e.document ∧
      ((∀ t, ¬ g.Unkeyed e t) → g.refusal? suffix e = none) ∧
      ∀ t, g.Unkeyed e t → g.refusal? suffix e = some (.missingIndexKey
        (owner.siteOf e.candidate.holder e.candidate.value.position) t.name
        e.candidate.group.name) := by
  have harranged := (reconcilable_of_link ha hl).1.arranged
  obtain ⟨d, hd, hed⟩ := (Graph.mem_eligible_iff harranged hperm).1 he
  obtain ⟨owner, howner, hid, target, htarget, hvalue⟩ :=
    exists_target_of_eligible hc hr ha hl hd hed
  have hdocument : g.document e.document = .ok owner := by
    rw [← hid]
    exact Graph.document_of_getElem? (harranged.document_getElem?_id howner)
  refine ⟨owner, howner, hid, fun hnot => ?_, fun t hu => ?_⟩
  · obtain ⟨m, hm⟩ :=
      (Graph.demanded_eq suffix harranged hdocument htarget hvalue).2 (hnot target)
    rw [Graph.refusal?, hm]
  · rw [Graph.refusal?,
      (Graph.demanded_eq suffix harranged hdocument hu.mem hu.target).1 hu]

section

variable {entities : Xml.EntityMap} (suffix : String) (hc : c.ReadFromTexts)
  (hr : (resolve disk entities p base).run.run c = (.ok tree, c'))
  (ha : (Graph.ofTree tree).Addressable) (hl : link.apply (Graph.ofTree tree) = (.ok k, g))
  {documents : List DocumentId} (hperm : documents.Perm (g.documents.toList.map (·.id)))
  {e : Eligible} (he : e ∈ g.eligible documents)

include hc hr ha hl hperm he

theorem refusal?_eq_none_iff : g.refusal? suffix e = none ↔ ∀ t, ¬ g.Unkeyed e t := by
  obtain ⟨_, _, _, haccepted, hunkeyed⟩ := refusal?_of_link suffix hc hr ha hl hperm he
  refine ⟨fun hnone t ht => ?_, haccepted⟩
  rw [hunkeyed t ht] at hnone
  cases hnone

theorem refusal?_eq_some_iff {failure : Failure} :
    g.refusal? suffix e = some failure ↔ ∃ t, g.Unkeyed e t ∧ ∃ owner ∈ g.documents,
      owner.id = e.document ∧ failure = .missingIndexKey
        (owner.siteOf e.candidate.holder e.candidate.value.position) t.name
        e.candidate.group.name := by
  obtain ⟨owner, howner, hid, haccepted, hunkeyed⟩ := refusal?_of_link suffix hc hr ha hl hperm he
  constructor
  · intro hrefused
    by_cases hkeyless : ∃ t, g.Unkeyed e t
    · obtain ⟨t, ht⟩ := hkeyless
      rw [hunkeyed t ht] at hrefused
      exact ⟨t, ht, owner, howner, hid, (Option.some.inj hrefused).symm⟩
    · rw [haccepted (not_exists.1 hkeyless)] at hrefused
      cases hrefused
  · rintro ⟨t, ht, owner', howner', hid', rfl⟩
    have harranged := (reconcilable_of_link ha hl).1.arranged
    have hsame := harranged.document_getElem?_id howner'
    rw [hid', ← hid, harranged.document_getElem?_id howner] at hsame
    rw [hunkeyed t ht, Option.some.inj hsame]

end

/-- What a family that was linked is compiled to is what reconciling makes of it. -/
theorem run_compileIn_of_link
    (hr : (resolve disk settings.entities p base).run.run c = (.ok tree, c'))
    (hl : link.apply (Graph.ofTree tree) = (.ok k, g)) :
    (compileIn disk settings p base).run.run c =
      match (reconcile settings.multiplexerSuffix).apply g with
      | (.ok _, g') => (.ok g', c')
      | (.error failure, _) => (.error failure, c') := by
  rw [compileIn, Loading.run_bind, hr]
  dsimp only
  rw [finishFamily, Pass.apply_bind_of_ok hl]
  rcases (reconcile settings.multiplexerSuffix).apply g with ⟨_ | n, g'⟩ <;> rfl

/-- In a family that was compiled, the flag by which a multiplexer keys its values is the key of
    the declaration that it stands for. A family that was linked is compiled unless a usage is
    unkeyed; then the failure tells of the first such usage, documents after their imports. -/
theorem indexFlags_of_compile (hc : c.ReadFromTexts) :
    (∀ g c', (compileIn disk settings p base).run.run c = (.ok g, c') →
      ∀ m ∈ g.multiplexers, ∀ key, m.mode = .byKey key →
        ∃ t, g.declarations[m.wrapped.index]? = some t ∧ t.definition.jsonKey = some key) ∧
    ∀ tree c' k g, (resolve disk settings.entities p base).run.run c = (.ok tree, c') →
      (Graph.ofTree tree).Addressable → link.apply (Graph.ofTree tree) = (.ok k, g) →
      ∃ documents, g.Postorder [.ofIndex 0] documents ∧
        documents.Perm (g.documents.toList.map (·.id)) ∧
        ((∀ e ∈ g.eligible documents, ∀ t, ¬ g.Unkeyed e t) →
          ∃ g', (compileIn disk settings p base).run.run c = (.ok g', c')) ∧
        ∀ before e after t, g.eligible documents = before ++ e :: after →
          (∀ e' ∈ before, ∀ t', ¬ g.Unkeyed e' t') → g.Unkeyed e t →
            ∃ owner ∈ g.documents, owner.id = e.document ∧
              (compileIn disk settings p base).run.run c = (.error (.missingIndexKey
                (owner.siteOf e.candidate.holder e.candidate.value.position) t.name
                e.candidate.group.name), c') := by
  refine ⟨fun g c' hg m hm key hmode => (sound_of_compile hc hg).jsonKey_of_mode hm hmode, ?_⟩
  intro tree c' k g hr ha hl
  obtain ⟨h, haddressable, hunshared, hne⟩ := reconcilable_of_link ha hl
  obtain ⟨documents, hpost, hperm, hcases⟩ :=
    Graph.reconcile_cases settings.multiplexerSuffix h haddressable hunshared hne
  have haccepted : ∀ e ∈ g.eligible documents, (∀ t, ¬ g.Unkeyed e t) →
      g.refusal? settings.multiplexerSuffix e = none := by
    intro e he hnot
    obtain ⟨_, _, _, hnone, _⟩ := refusal?_of_link settings.multiplexerSuffix hc hr ha hl hperm he
    exact hnone hnot
  refine ⟨documents, hpost, hperm, fun hnone => ?_, fun before e after t heq hbefore hu => ?_⟩
  · have hall : (g.eligible documents).findSome? (g.refusal? settings.multiplexerSuffix) = none :=
      List.findSome?_eq_none_iff.2 fun e he => haccepted e he (hnone e he)
    rw [hall] at hcases
    obtain ⟨n, g', hn⟩ := hcases
    exact ⟨g', by rw [run_compileIn_of_link hr hl, hn]⟩
  · obtain ⟨owner, howner, hid, _, hrefused⟩ :=
      refusal?_of_link settings.multiplexerSuffix hc hr ha hl hperm
        (show e ∈ g.eligible documents by simp [heq])
    have hnone : before.findSome? (g.refusal? settings.multiplexerSuffix) = none := by
      refine List.findSome?_eq_none_iff.2 fun e' he' => haccepted e' ?_ (hbefore e' he')
      rw [heq]
      exact List.mem_append_left _ he'
    rw [heq, List.findSome?_append, hnone, Option.none_or, List.findSome?_cons,
      hrefused t hu] at hcases
    obtain ⟨g', hg'⟩ := hcases
    exact ⟨owner, howner, hid, by rw [run_compileIn_of_link hr hl, hg']⟩

end

/-- A file that keys the values of a field by a flag that the field names but does not have. -/
def unflaggedKey : Disk := .ofSights
  [(⟨"a"⟩, .file (some ("<METASCHEMA><define-field name=\"p\"><json-key flag-name=\"i\"/>" ++
      "</define-field><define-assembly name=\"q\"><model><field ref=\"p\">" ++
      "<group-as name=\"g\" in-json=\"BY_KEY\"/></field></model></define-assembly>" ++
      "</METASCHEMA>")))]

/-- What keys the values is no flag of what they are made of, which has no flags at all. -/
theorem no_flags_unflaggedKey :
    ∃ g c', (compileIn unflaggedKey {} ⟨"a"⟩ ⟨""⟩).run.run {} = (.ok g, c') ∧
      ∃ m ∈ g.multiplexers, m.mode = .byKey "i" ∧
        ∃ t, g.declarations[m.wrapped.index]? = some t ∧ t.definition.flags = [] := by
  have hkey : succeeds (fun g _ => decide (∃ m ∈ g.multiplexers.toList, m.mode = .byKey "i" ∧
        (g.declarations[m.wrapped.index]?.map (·.definition.flags)) = some []))
      ((compileIn unflaggedKey {} ⟨"a"⟩ ⟨""⟩).run.run {}) = true := by
    decide +kernel
  obtain ⟨g, c', hg, hcheck⟩ := exists_of_succeeds hkey
  obtain ⟨m, hm, hmode, hflags⟩ := of_decide_eq_true hcheck
  obtain ⟨t, ht, hnone⟩ := Option.map_eq_some_iff.1 hflags
  exact ⟨g, c', hg, m, Array.mem_toList_iff.1 hm, hmode, t, ht, hnone⟩

/-- A file that keys the values of a field that names no flag. -/
def unkeyedGroup : Disk := .ofSights
  [(⟨"a"⟩, .file (some ("<METASCHEMA><define-field name=\"p\"/><define-assembly name=\"q\">" ++
      "<model><field ref=\"p\"><group-as name=\"g\" in-json=\"BY_KEY\"/></field></model>" ++
      "</define-assembly></METASCHEMA>")))]

theorem indexFlags_unkeyedGroup :
    ∃ site c', (compileIn unkeyedGroup {} ⟨"a"⟩ ⟨""⟩).run.run {} =
      (.error (.missingIndexKey site "p" "g"), c') := by
  have hkey : succeeds (fun tree _ => decide (Graph.ofTree tree).Addressable &&
        succeeds (fun _ g => decide (∃ d ∈ g.declarations.toList, ∃ e ∈ d.eligible,
          ∃ t ∈ g.declarations.toList, (∀ d' ∈ g.declarations.toList, ∀ e' ∈ d'.eligible, e' = e) ∧
          e.candidate.group.inJson = .byKey ∧ e.candidate.group.name = "g" ∧
          e.candidate.value.declaration? = some t.id ∧ t.definition.jsonKey = none ∧
          t.name = "p")) (link.apply (Graph.ofTree tree)))
      ((resolve unkeyedGroup [] ⟨"a"⟩ ⟨""⟩).run.run {}) = true := by
    decide +kernel
  obtain ⟨tree, c', hr, hcheck⟩ := exists_of_succeeds hkey
  obtain ⟨haddressable, hlink⟩ := Bool.and_eq_true_iff.1 hcheck
  obtain ⟨k, g, hl, hchecked⟩ := exists_of_succeeds hlink
  obtain ⟨d, hd, e, he, t, ht, honly, hj, hgroup, htarget, hnone, hname⟩ :=
    of_decide_eq_true hchecked
  have ha := of_decide_eq_true haddressable
  obtain ⟨_, hfails⟩ :=
    @indexFlags_of_compile unkeyedGroup {} ⟨"a"⟩ ⟨""⟩ {} Cache.readFromTexts_empty
  obtain ⟨documents, _, hperm, _, hfirst⟩ := hfails tree c' k g hr ha hl
  have harranged := (reconcilable_of_link ha hl).1.arranged
  have hmem := (Graph.mem_eligible_iff harranged hperm).2 ⟨d, Array.mem_toList_iff.1 hd, he⟩
  cases hes : g.eligible documents with
  | nil =>
    rw [hes] at hmem
    cases hmem
  | cons e' later =>
    obtain ⟨d', hd', he'⟩ := (Graph.mem_eligible_iff harranged hperm).1
      (hes ▸ List.mem_cons_self : e' ∈ g.eligible documents)
    obtain rfl : e' = e := honly d' (Array.mem_toList_iff.2 hd') e' he'
    obtain ⟨owner, _, _, hresult⟩ := hfirst [] e' later t hes (by simp)
      ⟨hj, htarget, Array.mem_toList_iff.1 ht, hnone⟩
    rw [hname, hgroup] at hresult
    exact ⟨_, c', hresult⟩

end SchemaFamily
