import Mathlib.Data.String.Basic
import SchemaFamily.Proofs.Family.Eligible
import SchemaFamily.Proofs.Family.Settled
import SchemaFamily.Proofs.Family.Sharing

/-
  The family when some demands for multiplexers are met (`served`). They share multiplexers by
  name; a document owns those that it demanded first, in order of names once it is finished, and
  depends on the others that it demanded. One more demand changes only the document that demands
  (`dependencies_serveDocument_append`, `ownMultiplexers_append_of_not_mem`).
-/

namespace SchemaFamily

/-- The dependency that a demand is, if another document owns the multiplexer of its name. -/
def sharedDependency? (demands : List Multiplexer) (m : Multiplexer) : Option DependencyEntry :=
  (sharedBy? demands m.name).bind fun s =>
    if s.owner = m.owner then none else some ⟨m.name, .multiplexer, .multiplexer s.id⟩

/-- The multiplexers that a document owns, in order of names once it is finished. -/
def ownMultiplexers (finished : List DocumentId) (demands : List Multiplexer)
    (document : DocumentId) : List Multiplexer :=
  if finished.contains document then
    ((arena demands).filter (·.owner == document)).mergeSort fun a b => a.name ≤ b.name
  else (arena demands).filter (·.owner == document)

/-- Which usage is represented by which multiplexer. -/
def bindings (demands : List Multiplexer) : List (UsageRef × MultiplexerId) :=
  demands.filterMap fun m => (sharedBy? demands m.name).map fun s => (m.usage, s.id)

namespace Graph

/-- The document when the demands are met and some documents are finished. -/
def serveDocument (finished : List DocumentId) (demands : List Multiplexer) (d : Document) :
    Document :=
  { d with
    dependencies := ((demands.filter (·.owner == d.id)).filterMap
      (sharedDependency? demands)).foldl .add d.dependencies
    multiplexers := (ownMultiplexers finished demands d.id).map (·.id) }

/-- The family when the demands are met and some documents are finished. -/
def served (g : Graph) (finished : List DocumentId) (demands : List Multiplexer) : Graph :=
  { g with
    documents := g.documents.map (serveDocument finished demands)
    multiplexers := (arena demands).toArray
    multiplexerNames := ((arena demands).map fun m => (m.name, m.id)).reverse
    multiplexerUsages := (bindings demands).reverse }

/-- Different names are names of different declarations, so there are no more multiplexers than
    declarations. -/
theorem length_arena_le (g : Graph) (suffix : String) (es : List Eligible) :
    (arena (g.demands suffix es)).length ≤ g.declarations.size := by
  have hwrapped : ∀ m ∈ firstBy (·.name) (g.demands suffix es),
      ∃ t, g.declarations[m.wrapped.index]? = some t ∧ m.name = t.name ++ suffix := by
    intro m hm
    obtain ⟨e, _, he⟩ := mem_demands.1 (mem_of_mem_firstBy hm)
    obtain ⟨t, ht, _, hname, _⟩ := (madeFor_of_demanded he).target
    exact ⟨t, ht, hname⟩
  have hnodup : ((firstBy (·.name) (g.demands suffix es)).map (·.wrapped.index)).Nodup := by
    rw [List.nodup_iff_pairwise_ne, List.pairwise_map]
    refine (pairwise_firstBy _).imp_of_mem fun {a b} ha hb hne he => hne ?_
    obtain ⟨t, ht, hname⟩ := hwrapped a ha
    obtain ⟨t', ht', hname'⟩ := hwrapped b hb
    rw [he, ht'] at ht
    rw [hname, hname', Option.some.inj ht]
  have hsub : (firstBy (·.name) (g.demands suffix es)).map (·.wrapped.index) ⊆
      List.range g.declarations.size := by
    intro i hi
    obtain ⟨m, hm, rfl⟩ := List.mem_map.1 hi
    obtain ⟨t, ht, _⟩ := hwrapped m hm
    exact List.mem_range.2 (Array.getElem?_eq_some_iff.1 ht).1
  have hle := hnodup.length_le_of_subset hsub
  rwa [List.length_map, List.length_range, ← length_arena] at hle

end Graph

/-! ## Bindings -/

theorem lookup_map {α β : Type} [BEq β] [LawfulBEq β] {γ : Type} (key : α → β) (value : α → γ)
    (as : List α) (k : β) :
    (as.map fun a => (key a, value a)).lookup k = (as.find? (key · == k)).map value := by
  induction as with
  | nil => rfl
  | cons a later ih =>
    rw [List.map_cons, List.lookup_cons, List.find?_cons, ih, BEq.comm]
    cases key a == k <;> rfl

theorem lookup_reverse {α β : Type} [BEq α] [LawfulBEq α] {entries : List (α × β)}
    (h : (entries.map (·.1)).Nodup) (k : α) : entries.reverse.lookup k = entries.lookup k := by
  induction entries with
  | nil => rfl
  | cons entry later ih =>
    rcases entry with ⟨key, value⟩
    obtain ⟨hnot, hlater⟩ := List.nodup_cons.1 h
    rw [List.reverse_cons, List.lookup_append, ih hlater, List.lookup_cons, List.lookup_cons]
    by_cases hk : k = key
    · subst hk
      have hnone : later.lookup k = none := by
        rw [List.lookup_eq_none_iff]
        intro p hp
        rw [bne_iff_ne]
        exact fun e => hnot (List.mem_map.2 ⟨p, hp, e.symm⟩)
      simp [hnone]
    · have hb : (k == key) = false := by simpa using hk
      simp [hb]

theorem lookup_of_mem {α β : Type} [BEq α] [LawfulBEq α] {entries : List (α × β)} {k : α} {v : β}
    (h : (entries.map (·.1)).Nodup) (hm : (k, v) ∈ entries) : entries.lookup k = some v := by
  induction entries with
  | nil => cases hm
  | cons entry later ih =>
    rcases entry with ⟨key, value⟩
    obtain ⟨hnot, hlater⟩ := List.nodup_cons.1 h
    rw [List.lookup_cons]
    rcases List.mem_cons.1 hm with he | hm
    · cases he
      rw [beq_self_eq_true]
    · have hne : (k == key) = false := by
        rw [beq_eq_false_iff_ne]
        exact fun e => hnot (List.mem_map.2 ⟨(k, v), hm, e⟩)
      rw [hne]
      exact ih hlater hm

variable {demands : List Multiplexer} {m s : Multiplexer} {ref : UsageRef}

/-- Every demand is bound. -/
theorem map_usage_bindings (demands : List Multiplexer) :
    (bindings demands).map (·.1) = demands.map (·.usage) := by
  rw [bindings, List.map_filterMap, ← List.filterMap_eq_map]
  refine List.filterMap_congr fun m hm => ?_
  obtain ⟨s, hs⟩ := exists_sharedBy? (List.mem_map.2 ⟨m, hm, rfl⟩)
  rw [hs]
  rfl

theorem lookup_bindings_of_not_mem (h : ref ∉ demands.map (·.usage)) :
    (bindings demands).lookup ref = none := by
  rw [List.lookup_eq_none_iff]
  intro p hp
  rw [bne_iff_ne]
  rw [← map_usage_bindings] at h
  exact fun e => h (List.mem_map.2 ⟨p, hp, e.symm⟩)

theorem bindings_append (h : sharedBy? (demands ++ [m]) m.name = some s) :
    bindings (demands ++ [m]) = bindings demands ++ [(m.usage, s.id)] := by
  have hold : demands.filterMap (fun m' => (sharedBy? (demands ++ [m]) m'.name).map
      fun s => (m'.usage, s.id)) = bindings demands := by
    refine List.filterMap_congr fun m' hm' => ?_
    rw [sharedBy?_append (List.mem_map.2 ⟨m', hm', rfl⟩)]
  rw [bindings, List.filterMap_append, hold, List.filterMap_cons, h]
  rfl

/-- A demand is bound to the multiplexer of its name. -/
theorem lookup_bindings_of_mem (h : (demands.map (·.usage)).Nodup) (hm : m ∈ demands)
    (hs : sharedBy? demands m.name = some s) : (bindings demands).lookup m.usage = some s.id := by
  refine lookup_of_mem (by rwa [map_usage_bindings]) ?_
  exact List.mem_filterMap.2 ⟨m, hm, by rw [hs]; rfl⟩

/-! ## What documents own -/

theorem ownMultiplexers_of_mem {finished : List DocumentId} {document : DocumentId}
    (demands : List Multiplexer) (h : document ∈ finished) :
    ownMultiplexers finished demands document =
      ((arena demands).filter (·.owner == document)).mergeSort fun a b => a.name ≤ b.name :=
  if_pos (List.contains_iff_mem.2 h)

theorem ownMultiplexers_of_not_mem {finished : List DocumentId} {document : DocumentId}
    (demands : List Multiplexer) (h : document ∉ finished) :
    ownMultiplexers finished demands document = (arena demands).filter (·.owner == document) :=
  if_neg fun hc => h (List.contains_iff_mem.1 hc)

theorem mem_ownMultiplexers {finished : List DocumentId} {document : DocumentId} :
    m ∈ ownMultiplexers finished demands document ↔ m ∈ arena demands ∧ m.owner = document := by
  rw [ownMultiplexers]
  split
  · rw [List.mem_mergeSort, List.mem_filter, beq_iff_eq]
  · rw [List.mem_filter, beq_iff_eq]

/-- A list sorted by a key is in order of that key. -/
theorem pairwise_mergeSort_of {α β : Type} [LinearOrder β] [DecidableLE β] (key : α → β)
    (as : List α) :
    (as.mergeSort fun a b => key a ≤ key b).Pairwise fun a b => key a ≤ key b := by
  have hsorted : (as.mergeSort fun a b => key a ≤ key b).Pairwise
      fun a b => decide (key a ≤ key b) = true := by
    refine List.pairwise_mergeSort (fun a b c hab hbc => ?_) (fun a b => ?_) _
    · rw [decide_eq_true_eq] at hab hbc ⊢
      exact le_trans hab hbc
    · rw [Bool.or_eq_true, decide_eq_true_eq, decide_eq_true_eq]
      exact le_total (key a) (key b)
  exact hsorted.imp of_decide_eq_true

/-- What a finished document owns is in strict order of names. -/
theorem pairwise_ownMultiplexers {finished : List DocumentId} {document : DocumentId}
    (demands : List Multiplexer) (h : document ∈ finished) :
    (ownMultiplexers finished demands document).Pairwise fun a b => a.name < b.name := by
  rw [ownMultiplexers_of_mem demands h]
  have hperm := List.mergeSort_perm ((arena demands).filter (·.owner == document))
    fun a b => a.name ≤ b.name
  have hsorted := pairwise_mergeSort_of Multiplexer.name
    ((arena demands).filter (·.owner == document))
  have hdistinct := ((pairwise_arena demands).filter (·.owner == document)).perm hperm.symm
    fun hne he => hne he.symm
  refine (hsorted.and hdistinct).imp fun {a b} hab => ?_
  exact lt_of_le_of_ne hab.1 hab.2

/-! ## Served graphs -/

namespace Graph

variable {g : Graph} {finished : List DocumentId} {document : DocumentId}

theorem served_nil (h : g.Unshared) : g.served [] [] = g := by
  have hdoc : ∀ d ∈ g.documents, serveDocument [] [] d = d := by
    intro d hd
    rcases hm : d with ⟨⟩
    have := h.owned_multiplexers d hd
    rw [hm] at this
    simp only at this
    rw [this]
    rfl
  rw [served]
  rcases g with ⟨documents, declarations, multiplexers, names, usages⟩
  rw [Graph.mk.injEq]
  refine ⟨?_, rfl, h.multiplexers.symm, h.names.symm, h.usages.symm⟩
  rw [Array.map_congr_left hdoc, Array.map_id']

theorem getElem?_served_documents (i : Nat) :
    (g.served finished demands).documents[i]? =
      g.documents[i]?.map (serveDocument finished demands) :=
  Array.getElem?_map ..

theorem sameCore_served (g : Graph) (finished : List DocumentId) (demands : List Multiplexer) :
    g.SameCore (g.served finished demands) := by
  refine ⟨?_, rfl⟩
  rw [served, Array.map_map]
  rfl

theorem sameImports_served (g : Graph) (finished : List DocumentId) (demands : List Multiplexer) :
    g.SameImports (g.served finished demands) := (g.sameCore_served finished demands).sameImports

theorem ids_served (g : Graph) (finished : List DocumentId) (demands : List Multiplexer) :
    (g.served finished demands).documents.toList.map (·.id) = g.documents.toList.map (·.id) := by
  rw [served, Array.toList_map, List.map_map]
  rfl

theorem eligible_served (documents : List DocumentId) :
    (g.served finished demands).eligible documents = g.eligible documents :=
  (g.sameCore_served finished demands).eligible_eq documents

theorem multiplexerNamed?_served (name : String) :
    (g.served finished demands).multiplexerNamed? name = (sharedBy? demands name).map (·.id) := by
  rw [multiplexerNamed?, served, lookup_reverse, lookup_map, sharedBy?]
  rw [List.map_map, List.nodup_iff_pairwise_ne, List.pairwise_map]
  exact pairwise_arena demands

theorem multiplexerFor?_served (h : (demands.map (·.usage)).Nodup) (ref : UsageRef) :
    (g.served finished demands).multiplexerFor? ref = (bindings demands).lookup ref := by
  rw [multiplexerFor?, served, lookup_reverse]
  rwa [map_usage_bindings]

theorem multiplexer_served (hcap : (arena demands).length ≤ maxIndex + 1) (hs : s ∈ arena demands) :
    (g.served finished demands).multiplexer s.id = .ok s := by
  obtain ⟨i, hi⟩ := List.getElem?_of_mem hs
  have hlt := (List.getElem?_eq_some_iff.1 hi).1
  have hid : s.id = .ofIndex i := by
    rw [arena, getElem?_numbered, Option.map_eq_some_iff] at hi
    obtain ⟨m, _, rfl⟩ := hi
    rfl
  rw [multiplexer, served, List.getElem?_toArray, hid, Handle.index_ofIndex_of_le (by omega), hi]

/-! ## One more demand -/

theorem sharedDependency?_append {m' : Multiplexer} (h : m' ∈ demands) :
    sharedDependency? (demands ++ [m]) m' = sharedDependency? demands m' := by
  rw [sharedDependency?, sharedBy?_append (List.mem_map.2 ⟨m', h, rfl⟩), sharedDependency?]

/-- A further demand adds at most its own dependency, to the document that demands. -/
theorem dependencies_serveDocument_append (d : Document) :
    (serveDocument finished (demands ++ [m]) d).dependencies =
      if m.owner = d.id then
        (sharedDependency? (demands ++ [m]) m).toList.foldl .add
          (serveDocument finished demands d).dependencies
      else (serveDocument finished demands d).dependencies := by
  have hold : (demands.filter (·.owner == d.id)).filterMap (sharedDependency? (demands ++ [m])) =
      (demands.filter (·.owner == d.id)).filterMap (sharedDependency? demands) :=
    List.filterMap_congr fun m' hm' => sharedDependency?_append (List.mem_filter.1 hm').1
  simp only [serveDocument]
  rw [List.filter_append, List.filterMap_append, List.foldl_append, hold]
  split
  · next h =>
    rw [List.filter_cons_of_pos (by simpa using h), List.filter_nil, List.filterMap_cons]
    cases sharedDependency? (demands ++ [m]) m <;> rfl
  · next h =>
    rw [List.filter_cons_of_neg (by simpa using h), List.filter_nil]
    rfl

theorem ownMultiplexers_append_of_mem (h : m.name ∈ demands.map (·.name)) :
    ownMultiplexers finished (demands ++ [m]) document =
      ownMultiplexers finished demands document := by
  rw [ownMultiplexers, arena_append_of_mem h, ownMultiplexers]

theorem ownMultiplexers_append_of_not_mem (h : m.name ∉ demands.map (·.name))
    (hfin : m.owner ∉ finished) :
    ownMultiplexers finished (demands ++ [m]) document =
      if m.owner = document then
        ownMultiplexers finished demands document ++
          [{ m with id := .ofIndex (arena demands).length }]
      else ownMultiplexers finished demands document := by
  by_cases hd : m.owner = document
  · subst hd
    rw [if_pos rfl, ownMultiplexers_of_not_mem _ hfin, ownMultiplexers_of_not_mem _ hfin,
      arena_append_of_not_mem h, List.filter_append, List.filter_cons_of_pos (by simp),
      List.filter_nil]
  · rw [if_neg hd, ownMultiplexers, arena_append_of_not_mem h, List.filter_append,
      List.filter_cons_of_neg (by simpa using hd), List.filter_nil, List.append_nil,
      ownMultiplexers]

end Graph

end SchemaFamily
