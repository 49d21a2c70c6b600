import SchemaFamily.Proofs.Family.Compiling

/-
  Dependencies of a family that was compiled. A document depends on what the names in its
  declarations denote in other documents, and on the multiplexers of other documents that represent
  its usages, and on nothing else (`dependencies_of_compile`). Linking and reconciling register
  these one by one and the first of a name counts; a name always stands for the same thing in a
  document, so none is lost (`Dependencies.mem_foldl_add`).
-/

namespace SchemaFamily

/-! ## Registering many entries -/

/-- The name of an entry in its namespace. -/
def DependencyEntry.key (entry : DependencyEntry) : Namespace × String :=
  (entry.nameSpace, entry.name)

theorem DependencyEntry.insertInto_perm (entry : DependencyEntry) (es : List DependencyEntry) :
    (entry.insertInto es).Perm (entry :: es) := by
  induction es with
  | nil => exact .refl _
  | cons e later ih =>
    rw [insertInto]
    split
    · exact .refl _
    · exact (ih.cons e).trans (.swap entry e later)

namespace Dependencies

variable {d : Dependencies} {entry : DependencyEntry} {es : List DependencyEntry}

theorem contains_iff {nameSpace : Namespace} {name : String} :
    d.contains nameSpace name = true ↔ ∃ e ∈ d.entries, e.key = (nameSpace, name) := by
  rw [contains, get?, Option.isSome_map, List.find?_isSome]
  simp only [DependencyEntry.key, Bool.and_eq_true, beq_iff_eq, Prod.mk.injEq]

/-- An entry is added unless its name is taken. -/
theorem entries_add (d : Dependencies) (entry : DependencyEntry) :
    (entry.key ∈ d.entries.map DependencyEntry.key ∧ d.add entry = d) ∨
      (entry.key ∉ d.entries.map DependencyEntry.key ∧
        (d.add entry).entries.Perm (entry :: d.entries)) := by
  have hcontains : d.contains entry.nameSpace entry.name = true ↔
      entry.key ∈ d.entries.map DependencyEntry.key := by
    rw [contains_iff, List.mem_map]
    rfl
  rw [← hcontains]
  by_cases hc : d.contains entry.nameSpace entry.name = true
  · exact .inl ⟨hc, register_of_contains hc entry.dependency⟩
  · refine .inr ⟨hc, ?_⟩
    rw [add, register, if_neg hc]
    exact entry.insertInto_perm d.entries

theorem add_of_mem (h : entry.key ∈ d.entries.map DependencyEntry.key) : d.add entry = d := by
  rcases d.entries_add entry with ⟨_, hsame⟩ | ⟨hnew, _⟩
  · exact hsame
  · exact absurd h hnew

/-- Every name that is registered is taken. -/
theorem key_mem_foldl_add (es : List DependencyEntry) {key : Namespace × String} :
    key ∈ (es.foldl add d).entries.map DependencyEntry.key ↔
      key ∈ d.entries.map DependencyEntry.key ∨ key ∈ es.map DependencyEntry.key := by
  induction es generalizing d with
  | nil => simp
  | cons e later ih =>
    rw [List.foldl_cons, ih, List.map_cons, List.mem_cons, ← or_assoc]
    refine or_congr_left ?_
    rcases d.entries_add e with ⟨hold, hsame⟩ | ⟨_, hperm⟩
    · rw [hsame]
      exact ⟨.inl, fun hkey => hkey.elim id fun he => he ▸ hold⟩
    · rw [(hperm.map DependencyEntry.key).mem_iff, List.map_cons, List.mem_cons, or_comm]

theorem nodup_keys_add (h : (d.entries.map DependencyEntry.key).Nodup) (entry : DependencyEntry) :
    ((d.add entry).entries.map DependencyEntry.key).Nodup := by
  rcases d.entries_add entry with ⟨_, hsame⟩ | ⟨hnew, hperm⟩
  · rwa [hsame]
  · rw [(hperm.map DependencyEntry.key).nodup_iff, List.map_cons, List.nodup_cons]
    exact ⟨hnew, h⟩

/-- Whatever is registered, no two entries are of one name in one namespace. -/
theorem nodup_keys_foldl_add (es : List DependencyEntry)
    (h : (d.entries.map DependencyEntry.key).Nodup) :
    ((es.foldl add d).entries.map DependencyEntry.key).Nodup := by
  induction es generalizing d with
  | nil => exact h
  | cons e later ih =>
    rw [List.foldl_cons]
    exact ih (nodup_keys_add h e)

/-- If a name always stands for the same thing, then all that is registered is kept. -/
theorem mem_foldl_add
    (h : ∀ a ∈ d.entries ++ es, ∀ b ∈ d.entries ++ es, a.key = b.key → a = b) :
    entry ∈ (es.foldl add d).entries ↔ entry ∈ d.entries ++ es := by
  induction es generalizing d with
  | nil => rw [List.foldl_nil, List.append_nil]
  | cons e later ih =>
    have hadd : ∀ e', e' ∈ (d.add e).entries ↔ e' ∈ d.entries ∨ e' = e := by
      intro e'
      rcases d.entries_add e with ⟨hold, hsame⟩ | ⟨_, hperm⟩
      · obtain ⟨e₁, he₁, hkey⟩ := List.mem_map.1 hold
        have heq : e₁ = e := h e₁ (by simp [he₁]) e (by simp) hkey
        subst heq
        rw [hsame]
        exact ⟨.inl, fun he' => he'.elim id fun heq => heq ▸ he₁⟩
      · rw [hperm.mem_iff, List.mem_cons, or_comm]
    have hmem : ∀ e', e' ∈ (d.add e).entries ++ later ↔ e' ∈ d.entries ++ e :: later := by
      intro e'
      rw [List.mem_append, List.mem_append, List.mem_cons, hadd, or_assoc]
    rw [List.foldl_cons, ih fun a ha b hb => h a ((hmem a).1 ha) b ((hmem b).1 hb), hmem]

end Dependencies

namespace Graph

/-- The entry is for what a usage by name in a declaration of the document stands for, which
    another document owns. -/
def NeedsDeclaration (g : Graph) (document : DocumentId) (entry : DependencyEntry) : Prop :=
  ∃ a ∈ g.declarations, a.owner = document ∧ ∃ slot u name, a.definition.usage? slot = some u ∧
    u.referenceName? = some name ∧ ∃ t ∈ g.declarations, u.declaration? = some t.id ∧
      t.owner ≠ document ∧ entry = ⟨name, .declaration u.kind, .declaration t.id⟩

/-- The entry is for a multiplexer that represents a usage in a declaration of the document and
    that another document owns. -/
def NeedsMultiplexer (g : Graph) (document : DocumentId) (entry : DependencyEntry) : Prop :=
  ∃ m ∈ g.multiplexers, m.owner ≠ document ∧
    (∃ a ∈ g.declarations, a.owner = document ∧
      ∃ slot, g.multiplexerFor? ⟨a.id, slot⟩ = some m.id) ∧
    entry = ⟨m.name, .multiplexer, .multiplexer m.id⟩

/-- The document needs what the entry is for. -/
def Needs (g : Graph) (document : DocumentId) (entry : DependencyEntry) : Prop :=
  g.NeedsDeclaration document entry ∨ g.NeedsMultiplexer document entry

variable {g : Graph} {document : DocumentId} {entry : DependencyEntry}

/-! ## What linking registers -/

theorem mem_of_target? (h : g.InOrder) {r : Reference} {t : Declaration}
    (hr : r.document.index < g.documents.size) (ht : g.target? r = some t) :
    t ∈ g.declarations ∧ t.isGlobal r.pending.kind r.pending.name = true :=
  ((h.denotation?_eq_some_iff hr).1 ht).mem

theorem dependency?_eq_some_iff (h : g.InOrder) {r : Reference}
    (hr : r.document.index < g.documents.size) :
    g.dependency? r = some entry ↔ ∃ t, g.target? r = some t ∧ t.owner ≠ r.document ∧
      entry = ⟨r.pending.name, .declaration r.pending.kind, .declaration t.id⟩ := by
  rw [dependency?, Option.bind_eq_some_iff]
  refine exists_congr fun t => and_congr_right fun ht => ?_
  have hkind : t.kind = r.pending.kind :=
    (Declaration.isGlobal_iff.1 (mem_of_target? h hr ht).2).2.1
  split
  · next howner => simp [howner]
  · next howner => simp [howner, hkind, eq_comm]

/-- What linking registers for a document is what its usages by name need. -/
theorem mem_dependencies_iff (h : g.InOrder)
    (hfresh : ∀ d ∈ g.declarations, d.definition.Fresh)
    (hok : ∀ r ∈ g.references, g.fault? r = none) :
    entry ∈ (g.references.filter (·.document == document)).filterMap g.dependency? ↔
      (g.settled g.references).NeedsDeclaration document entry := by
  rw [List.mem_filterMap]
  constructor
  · rintro ⟨r, hr, hentry⟩
    obtain ⟨hr, hdocument⟩ := List.mem_filter.1 hr
    obtain ⟨a, ha, howner, u, hu, hkind, hname⟩ := exists_settled h hr
    have hlt : r.document.index < g.documents.size := howner ▸ h.arranged.owner_lt ha
    obtain ⟨t, ht, hne, rfl⟩ := (dependency?_eq_some_iff h hlt).1 hentry
    rw [beq_iff_eq] at hdocument
    obtain ⟨r', _, hdocument', hkind', hname', t', ht', hdeclaration⟩ :=
      exists_reference h hfresh hok ha hu hname
    -- both references name the same thing in the same document
    have hsame : t' = t := by
      rw [target?, hdocument', howner, hkind', hkind, hname'] at ht'
      rw [target?, ht'] at ht
      exact Option.some.inj ht
    subst hsame
    have htm := (mem_of_target? h hlt ht).1
    refine ⟨g.settleDeclaration g.references a, Array.mem_map_of_mem ha, howner.trans hdocument,
      r.pending.slot, u, r.pending.name, hu, hname, g.settleDeclaration g.references t',
      Array.mem_map_of_mem htm, hdeclaration, hdocument ▸ hne, ?_⟩
    rw [hkind]
    rfl
  · rintro ⟨a', ha', howner, slot, u, name, hu, hname, t', ht', hdeclaration, hne, rfl⟩
    obtain ⟨a, ha, rfl⟩ := Array.mem_map.1 ha'
    obtain ⟨t, ht, rfl⟩ := Array.mem_map.1 ht'
    obtain ⟨r, hr, hdocument, hkind, hrname, t₁, ht₁, hdeclaration₁⟩ :=
      exists_reference h hfresh hok ha hu hname
    have hrdocument : r.document = document := hdocument.trans howner
    have hlt : r.document.index < g.documents.size := hdocument ▸ h.arranged.owner_lt ha
    have hsame : t₁ = t := by
      rw [hdeclaration, Option.some.injEq] at hdeclaration₁
      exact h.arranged.declaration_eq (mem_of_target? h hlt ht₁).1 ht hdeclaration₁.symm
    subst hsame
    refine ⟨r, List.mem_filter.2 ⟨hr, beq_iff_eq.2 hrdocument⟩, ?_⟩
    refine (dependency?_eq_some_iff h hlt).2 ⟨t₁, ht₁, hrdocument ▸ hne, ?_⟩
    rw [hkind, hrname]
    rfl

/-! ## What reconciling registers -/

theorem sharedDependency?_eq_some_iff {demands : List Multiplexer} {m : Multiplexer} :
    sharedDependency? demands m = some entry ↔ ∃ s, sharedBy? demands m.name = some s ∧
      s.owner ≠ m.owner ∧ entry = ⟨s.name, .multiplexer, .multiplexer s.id⟩ := by
  rw [sharedDependency?, Option.bind_eq_some_iff]
  refine exists_congr fun s => and_congr_right fun hs => ?_
  rw [(mem_of_sharedBy? hs).2]
  split
  · next howner => simp [howner]
  · next howner => simp [howner, eq_comm]

/-- What is bound to a usage is the multiplexer of the name that the usage demands. -/
theorem exists_demand_of_lookup {demands : List Multiplexer} {ref : UsageRef} {id : MultiplexerId}
    (h : (bindings demands).lookup ref = some id) :
    ∃ m ∈ demands, m.usage = ref ∧ ∃ s, sharedBy? demands m.name = some s ∧ s.id = id := by
  obtain ⟨before, after, happend, _⟩ := List.lookup_eq_some_iff.1 h
  have hmem : (ref, id) ∈ bindings demands := by
    rw [happend]
    exact List.mem_append_right before List.mem_cons_self
  obtain ⟨m, hm, hbinding⟩ := List.mem_filterMap.1 hmem
  obtain ⟨s, hs, heq⟩ := Option.map_eq_some_iff.1 hbinding
  cases heq
  exact ⟨m, hm, rfl, s, hs, rfl⟩

/-- A demand is that of a usage in a declaration of the document that demands. -/
theorem exists_holder (h : g.Arranged) {suffix : String} {documents : List DocumentId}
    (hperm : documents.Perm (g.documents.toList.map (·.id))) {m : Multiplexer}
    (hm : m ∈ g.demands suffix (g.eligible documents)) :
    ∃ a ∈ g.declarations, a.owner = m.owner ∧ ∃ slot, m.usage = ⟨a.id, slot⟩ := by
  obtain ⟨e, he, hdemanded⟩ := mem_demands.1 hm
  obtain ⟨a, ha, hae⟩ := (mem_eligible_iff h hperm).1 he
  obtain ⟨howner, slot, hslot⟩ := a.usage_of_mem_eligible hae
  have hmade := madeFor_of_demanded hdemanded
  exact ⟨a, ha, (hmade.owner.trans howner).symm, slot, hmade.usage.trans hslot⟩

/-- What reconciling registers for a document is what its usages need that are represented. -/
theorem mem_sharedDependencies_iff (h : g.Arranged) (suffix : String)
    {documents : List DocumentId} (hperm : documents.Perm (g.documents.toList.map (·.id)))
    {demands : List Multiplexer} (hdemands : demands = g.demands suffix (g.eligible documents))
    (hcap : (arena demands).length ≤ maxIndex + 1) :
    entry ∈ (demands.filter (·.owner == document)).filterMap (sharedDependency? demands) ↔
      (g.served documents demands).NeedsMultiplexer document entry := by
  have hnodup : (demands.map (·.usage)).Nodup := by
    rw [hdemands]
    exact (nodup_eligible h hperm).sublist (usages_demands_sublist g suffix _)
  rw [List.mem_filterMap]
  constructor
  · rintro ⟨m, hm, hentry⟩
    obtain ⟨hm, howner⟩ := List.mem_filter.1 hm
    rw [beq_iff_eq] at howner
    obtain ⟨s, hs, hne, rfl⟩ := sharedDependency?_eq_some_iff.1 hentry
    obtain ⟨a, ha, howner', slot, hslot⟩ := exists_holder h hperm (hdemands ▸ hm)
    refine ⟨s, List.mem_toArray.2 (mem_of_sharedBy? hs).1, howner ▸ hne,
      ⟨a, ha, howner'.trans howner, slot, ?_⟩, rfl⟩
    rw [multiplexerFor?_served hnodup, ← hslot]
    exact lookup_bindings_of_mem hnodup hm hs
  · rintro ⟨s, hs, hne, ⟨a, ha, howner, slot, hfor⟩, rfl⟩
    rw [multiplexerFor?_served hnodup] at hfor
    obtain ⟨m, hm, hslot, s', hs', hid⟩ := exists_demand_of_lookup hfor
    have hsame : s' = s := by
      have hask : (g.served documents demands).multiplexer s'.id = .ok s' :=
        multiplexer_served hcap (mem_of_sharedBy? hs').1
      rw [hid, multiplexer_served hcap (List.mem_toArray.1 hs)] at hask
      exact (Except.ok.inj hask).symm
    subst hsame
    obtain ⟨a', ha', howner', slot', hslot'⟩ := exists_holder h hperm (hdemands ▸ hm)
    have hdeclaration : a' = a := by
      rw [hslot] at hslot'
      exact h.declaration_eq ha' ha (UsageRef.mk.inj hslot').1.symm
    subst hdeclaration
    have hdemands : m.owner = document := howner'.symm.trans howner
    refine ⟨m, List.mem_filter.2 ⟨hm, beq_iff_eq.2 hdemands⟩, ?_⟩
    exact sharedDependency?_eq_some_iff.2 ⟨s', hs', hdemands ▸ hne, rfl⟩

/-! ## Names that stand for one thing -/

/-- Usages of one kind and name in declarations of the document stand for the same declaration. -/
def Consistent (g : Graph) (document : DocumentId) : Prop :=
  ∀ a ∈ g.declarations, ∀ b ∈ g.declarations, a.owner = document → b.owner = document →
    ∀ slot slot' u v name, a.definition.usage? slot = some u → b.definition.usage? slot' = some v →
      u.kind = v.kind → u.referenceName? = some name → v.referenceName? = some name →
      u.declaration? = v.declaration?

theorem consistent_settled (h : g.InOrder) (hfresh : ∀ d ∈ g.declarations, d.definition.Fresh)
    (hok : ∀ r ∈ g.references, g.fault? r = none) (document : DocumentId) :
    (g.settled g.references).Consistent document := by
  intro a' ha' b' hb' howner howner' slot slot' u v name hu hv hkind hname hname'
  obtain ⟨a, ha, rfl⟩ := Array.mem_map.1 ha'
  obtain ⟨b, hb, rfl⟩ := Array.mem_map.1 hb'
  obtain ⟨r, _, hd, hk, hn, t, ht, hdeclaration⟩ := exists_reference h hfresh hok ha hu hname
  obtain ⟨r', _, hd', hk', hn', t', ht', hdeclaration'⟩ :=
    exists_reference h hfresh hok hb hv hname'
  have hsame : g.target? r = g.target? r' := by
    have hdocument : r.document = r'.document := (hd.trans howner).trans (hd'.trans howner').symm
    rw [target?, target?, hdocument, hk, hkind, ← hk', hn, ← hn']
  rw [ht, ht', Option.some.injEq] at hsame
  rw [hdeclaration, hdeclaration', hsame]

theorem NeedsDeclaration.eq_of_key {entry' : DependencyEntry} (hc : g.Consistent document)
    (h : g.NeedsDeclaration document entry) (h' : g.NeedsDeclaration document entry')
    (hkey : entry.key = entry'.key) : entry = entry' := by
  obtain ⟨a, ha, howner, slot, u, name, hu, hname, t, _, ht, _, rfl⟩ := h
  obtain ⟨b, hb, howner', slot', v, name', hv, hname', t', _, ht', _, rfl⟩ := h'
  rw [DependencyEntry.key, DependencyEntry.key, Prod.mk.injEq, Namespace.declaration.injEq] at hkey
  obtain ⟨hkind, rfl⟩ := hkey
  have hsame := hc a ha b hb howner howner' slot slot' u v name hu hv hkind hname hname'
  rw [ht, ht', Option.some.injEq] at hsame
  rw [hkind, hsame]

/-- The namespaces of declarations are not that of multiplexers. -/
theorem NeedsDeclaration.key_ne {entry' : DependencyEntry} (h : g.NeedsDeclaration document entry)
    (h' : g.NeedsMultiplexer document entry') : entry.key ≠ entry'.key := by
  obtain ⟨_, _, _, _, _, _, _, _, _, _, _, _, rfl⟩ := h
  obtain ⟨_, _, _, _, rfl⟩ := h'
  intro hkey
  cases (Prod.mk.inj hkey).1

section

variable {finished : List DocumentId} {demands : List Multiplexer} {entry' : DependencyEntry}

theorem NeedsMultiplexer.eq_of_key (h : (g.served finished demands).NeedsMultiplexer document entry)
    (h' : (g.served finished demands).NeedsMultiplexer document entry')
    (hkey : entry.key = entry'.key) : entry = entry' := by
  obtain ⟨m, hm, _, _, rfl⟩ := h
  obtain ⟨m', hm', _, _, rfl⟩ := h'
  have hname : m.name = m'.name := (Prod.mk.inj hkey).2
  have hsame := sharedBy?_of_mem (List.mem_toArray.1 hm)
  rw [hname, sharedBy?_of_mem (List.mem_toArray.1 hm'), Option.some.injEq] at hsame
  rw [hsame]

/-- A document needs one thing under a name in a namespace. -/
theorem Needs.eq_of_key (hc : (g.served finished demands).Consistent document)
    (h : (g.served finished demands).Needs document entry)
    (h' : (g.served finished demands).Needs document entry') (hkey : entry.key = entry'.key) :
    entry = entry' := by
  rcases h with h | h
  · rcases h' with h' | h'
    · exact h.eq_of_key hc h' hkey
    · exact absurd hkey (h.key_ne h')
  · rcases h' with h' | h'
    · exact absurd hkey.symm (h'.key_ne h)
    · exact h.eq_of_key h' hkey

end

/-! ## What both passes register -/

/-- The entries that linking and then reconciling register for a document. -/
def registered (g : Graph) (demands : List Multiplexer) (document : DocumentId) :
    List DependencyEntry :=
  (g.references.filter (·.document == document)).filterMap g.dependency? ++
    (demands.filter (·.owner == document)).filterMap (sharedDependency? demands)

theorem dependencies_serveDocument_settleDocument (finished : List DocumentId)
    (demands : List Multiplexer) {d : Document} (hd : d.dependencies = {}) :
    (serveDocument finished demands (g.settleDocument g.references d)).dependencies =
      (g.registered demands d.id).foldl .add {} := by
  rw [registered, List.foldl_append, ← hd]
  rfl

/-- When all references are settled and all demands met, the dependencies of a document are what it
    needs. -/
theorem dependencies_served_settled (h : g.InOrder) (hbare : g.Bare)
    (hfresh : ∀ d ∈ g.declarations, d.definition.Fresh)
    (hok : ∀ r ∈ g.references, g.fault? r = none) {g₁ : Graph}
    (hg₁ : g₁ = g.settled g.references) (h₁ : g₁.Arranged) {suffix : String}
    {documents : List DocumentId} (hperm : documents.Perm (g₁.documents.toList.map (·.id)))
    {demands : List Multiplexer} (hdemands : demands = g₁.demands suffix (g₁.eligible documents))
    (hcap : (arena demands).length ≤ maxIndex + 1) {d : Document}
    (hd : d ∈ (g₁.served documents demands).documents) :
    (∀ entry, entry ∈ d.dependencies.entries ↔ (g₁.served documents demands).Needs d.id entry) ∧
      (d.dependencies.entries.map DependencyEntry.key).Nodup ∧
      (g₁.served documents demands).Consistent d.id := by
  obtain ⟨d₁, hd₁, rfl⟩ := Array.mem_map.1 hd
  rw [hg₁] at hd₁
  obtain ⟨d, hdoc, rfl⟩ := Array.mem_map.1 hd₁
  have hconsistent : (g₁.served documents demands).Consistent d.id := by
    rw [hg₁]
    exact consistent_settled h hfresh hok d.id
  have hneeds : ∀ entry, entry ∈ g.registered demands d.id ↔
      (g₁.served documents demands).Needs d.id entry := by
    intro entry
    rw [registered, List.mem_append, mem_sharedDependencies_iff h₁ suffix hperm hdemands hcap,
      mem_dependencies_iff h hfresh hok, ← hg₁]
    rfl
  -- what is registered under one name is one entry
  have hone : ∀ a ∈ g.registered demands d.id, ∀ b ∈ g.registered demands d.id,
      a.key = b.key → a = b :=
    fun a ha b hb => ((hneeds a).1 ha).eq_of_key hconsistent ((hneeds b).1 hb)
  rw [dependencies_serveDocument_settleDocument documents demands (hbare.dependencies d hdoc)]
  refine ⟨fun entry => ?_, Dependencies.nodup_keys_foldl_add _ List.nodup_nil, hconsistent⟩
  have hkept := @Dependencies.mem_foldl_add {} entry (g.registered demands d.id) hone
  exact hkept.trans (hneeds entry)

end Graph

/-! ## Dependencies of a family -/

section

variable {disk : Disk} {settings : Settings} {p base : Path} {c c' : Cache} {g : Graph}

/-- In a family that was compiled, a document depends on what other documents own of what its
    usages by name stand for and of the multiplexers that represent its usages, each under its name
    in its namespace, and on nothing else. No name has two entries, and usages of one kind and name
    in the document's declarations stand for the same declaration. -/
theorem dependencies_of_compile (hc : c.ReadFromTexts)
    (hg : (compileIn disk settings p base).run.run c = (.ok g, c')) (ha : g.Addressable) :
    ∀ d ∈ g.documents,
      (∀ entry, entry ∈ d.dependencies.entries ↔
        g.NeedsDeclaration d.id entry ∨ g.NeedsMultiplexer d.id entry) ∧
      (d.dependencies.entries.map DependencyEntry.key).Nodup ∧ g.Consistent d.id := by
  obtain ⟨tree, k, g₁, n, hr, hl, hs⟩ := passes_of_compile hg
  have haddressable := addressable_of_passes hl hs ha
  have hfresh := Graph.fresh_ofTree (fresh_of_resolve hc hr)
  obtain ⟨h₁, ha₁, _⟩ := reconcilable_of_link haddressable hl
  obtain ⟨hok, hsettled, _⟩ := settled_of_link haddressable hl
  obtain ⟨documents, _, hperm, _, rfl, _⟩ := served_of_reconcile haddressable hl hs
  intro d hd
  exact Graph.dependencies_served_settled (Graph.inOrder_ofTree haddressable)
    (Graph.bare_ofTree tree) hfresh hok hsettled h₁.arranged hperm rfl
    (Nat.le_trans (Graph.length_arena_le g₁ _ _) ha₁.2) hd

end

/-- The importing file depends on the field and on the multiplexer of the imported one. -/
theorem dependencies_sharedGroup :
    ∃ g c', (compileIn sharedGroup {} ⟨"a"⟩ ⟨""⟩).run.run {} = (.ok g, c') ∧ g.Addressable ∧
      ∃ d ∈ g.documents, d.dependencies.size = 2 ∧ ∀ entry, entry ∈ d.dependencies.entries ↔
        g.NeedsDeclaration d.id entry ∨ g.NeedsMultiplexer d.id entry := by
  have hkey : succeeds (fun g _ => decide (g.Addressable ∧
        ∃ d ∈ g.documents.toList, d.dependencies.size = 2))
      ((compileIn sharedGroup {} ⟨"a"⟩ ⟨""⟩).run.run {}) = true := by
    decide +kernel
  obtain ⟨g, c', hg, hcheck⟩ := exists_of_succeeds hkey
  obtain ⟨ha, d, hd, hsize⟩ := of_decide_eq_true hcheck
  rw [Array.mem_toList_iff] at hd
  obtain ⟨hexact, _⟩ := dependencies_of_compile Cache.readFromTexts_empty hg ha d hd
  exact ⟨g, c', hg, ha, d, hd, hsize, hexact⟩

end SchemaFamily
