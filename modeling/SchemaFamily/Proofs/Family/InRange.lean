import SchemaFamily.Proofs.Family.Keyed
import SchemaFamily.Proofs.Family.Lookups

/-
  Nothing is looked up out of range. Besides the handles that a sound graph holds, the globals of
  its documents and the names and usages of its multiplexers number something, and so do the usages
  that these were made for (`Indexed`). A graph that is sound, indexed and has the outline of the
  one it was made from is `Steady`; every step succeeds on such a graph and keeps it so, hence
  linking and reconciling are safe (`safe_finishFamily`). Handles past the last share it, which
  numbers something, so nothing is asked about how many there are.
-/

namespace SchemaFamily

/-! ## Handles outside the records -/

namespace Graph

/-- There is a usage at the slot of the declaration with the handle. -/
def HasUsage (g : Graph) (ref : UsageRef) : Prop :=
  ∃ t ∈ g.declarations, t.id = ref.declaration ∧ (t.definition.usage? ref.slot).isSome

/-- Declarations have the handles of their places, globals and the names and usages of multiplexers
    number something, and every multiplexer was made for a usage of a declaration. -/
structure Indexed (g : Graph) : Prop where
  numbered : ∀ {i : Nat} {t : Declaration}, g.declarations[i]? = some t → t.id = .ofIndex i
  globals : ∀ d ∈ g.documents, ∀ kind name id, d.globals.get? kind name = some id →
    id.index < g.declarations.size
  names : ∀ e ∈ g.multiplexerNames, e.2.index < g.multiplexers.size
  usages : ∀ e ∈ g.multiplexerUsages, e.2.index < g.multiplexers.size
  represented : ∀ m ∈ g.multiplexers, g.HasUsage m.usage

variable {g g' : Graph}

/-- Where usages stand can be told from the outline. -/
theorem HasUsage.congr {ref : UsageRef} (h : g.HasUsage ref) (ho : g.SameOutline g') :
    g'.HasUsage ref := by
  obtain ⟨t, ht, hid, hslot⟩ := h
  obtain ⟨i, hi⟩ := Array.getElem?_of_mem ht
  obtain ⟨t', ht', he⟩ := ho.exists_declaration hi
  refine ⟨t', Array.mem_of_getElem? ht', (Declaration.id_of_outline he).trans hid, ?_⟩
  have hmap := congrArg (fun t => (t.definition.usage? ref.slot).isSome) he
  simp only [Declaration.outline, Definition.usage?_mapUsages, Option.isSome_map] at hmap
  rw [hmap]
  exact hslot

/-- A graph with the same outline is indexed when what is new about its multiplexers is. -/
theorem Indexed.grow (h : g.Indexed) (ho : g.SameOutline g')
    (hsize : g.multiplexers.size ≤ g'.multiplexers.size)
    (hnames : ∀ e ∈ g'.multiplexerNames, e ∈ g.multiplexerNames ∨
      e.2.index < g'.multiplexers.size)
    (husages : ∀ e ∈ g'.multiplexerUsages, e ∈ g.multiplexerUsages ∨
      e.2.index < g'.multiplexers.size)
    (hmultiplexers : ∀ m ∈ g'.multiplexers, m ∈ g.multiplexers ∨ g.HasUsage m.usage) :
    g'.Indexed := by
  refine ⟨?_, ?_, ?_, ?_, ?_⟩
  · intro i t ht
    obtain ⟨t', ht', he⟩ := ho.symm.exists_declaration ht
    rw [← Declaration.id_of_outline he, h.numbered ht']
  · intro d hd kind name id hid
    obtain ⟨i, hi⟩ := Array.getElem?_of_mem hd
    obtain ⟨d', hd', he⟩ := ho.symm.exists_document hi
    rw [← Document.globals_of_outline he] at hid
    rw [← ho.size_declarations]
    exact h.globals d' (Array.mem_of_getElem? hd') kind name id hid
  · intro e he
    rcases hnames e he with he | he
    · exact Nat.lt_of_lt_of_le (h.names e he) hsize
    · exact he
  · intro e he
    rcases husages e he with he | he
    · exact Nat.lt_of_lt_of_le (h.usages e he) hsize
    · exact he
  · intro m hm
    rcases hmultiplexers m hm with hm | husage
    · exact (h.represented m hm).congr ho
    · exact husage.congr ho

/-- A change of documents alone keeps a graph indexed when it keeps the outline. -/
theorem Indexed.setDocuments (h : g.Indexed) {documents : Array Document}
    (ho : g.SameOutline { g with documents }) : Indexed { g with documents } :=
  h.grow ho (Nat.le_refl _) (fun _ => .inl) (fun _ => .inl) fun _ => .inl

theorem indexed_empty : Indexed {} := by
  refine ⟨?_, ?_, ?_, ?_, ?_⟩ <;> intros <;> simp_all

theorem Indexed.insert (h : g.Indexed) (hm : g.multiplexers = #[]) (draft : Draft) :
    (g.insert draft).1.Indexed := by
  refine ⟨?_, ?_, h.names, h.usages, ?_⟩
  · intro i t ht
    rw [declarations_insert, Array.getElem?_append] at ht
    split at ht
    · exact h.numbered ht
    · next hi =>
      rw [List.getElem?_toArray, getElem?_placed, Option.map_eq_some_iff] at ht
      obtain ⟨drafted, _, rfl⟩ := ht
      show Handle.ofIndex _ = _
      congr 1
      omega
  · intro d hd kind name id hid
    rw [size_declarations_insert]
    rw [documents_insert, Array.mem_push] at hd
    rcases hd with hd | rfl
    · exact Nat.lt_of_lt_of_le (h.globals d hd kind name id hid) (Nat.le_add_right _ _)
    · rw [documentOf, Document.get?_foldl_adopt] at hid
      obtain ⟨t, ht, rfl⟩ := Option.map_eq_some_iff.1 hid
      obtain ⟨i, hi⟩ := List.getElem?_of_mem (List.mem_of_find?_eq_some ht)
      rw [getElem?_placed] at hi
      obtain ⟨drafted, hdrafted, rfl⟩ := Option.map_eq_some_iff.1 hi
      have hlt := (List.getElem?_eq_some_iff.1 hdrafted).1
      exact Nat.lt_of_le_of_lt (Nat.min_le_left _ _) (Nat.add_lt_add_left hlt _)
  · intro m hmem
    rw [show (g.insert draft).1.multiplexers = g.multiplexers from rfl, hm] at hmem
    simp at hmem

theorem indexed_ofTree (tree : ImportTree) : (ofTree tree).Indexed := by
  refine (ofTree_induction (P := fun _ g => g.Indexed ∧ g.multiplexers = #[])
    ⟨⟨indexed_empty, rfl⟩, ?_, ?_⟩ tree).1
  · intro _ g draft ⟨h, hm⟩
    exact ⟨h.insert hm draft, hm⟩
  · intro _ g parent child _ ⟨h, hm⟩
    exact ⟨h.setDocuments (sameOutline_attach g parent child), hm⟩

/-! ## Walks -/

theorem Sound.preorderFrom_mem (h : g.Sound) {way : List DocumentId} {id : DocumentId}
    (hid : id.index < g.documents.size) {x : Except Dangling Document}
    (hx : x ∈ g.preorderFrom way id) : InRange x ∧ ∀ d, x = .ok d → d ∈ g.documents := by
  fun_induction preorderFrom g way id with
  | case1 way id hnone =>
    rw [Array.getElem?_eq_getElem hid] at hnone
    cases hnone
  | case2 way id d hd hw =>
    rw [List.mem_singleton.1 hx]
    exact ⟨.error_iff.2 fun hout => hout, fun d hok => by cases hok⟩
  | case3 way id d hd hw ih =>
    have hmem := Array.mem_of_getElem? hd
    rcases List.mem_cons.1 hx with rfl | hx
    · refine ⟨.ok d, fun d' hok => ?_⟩
      cases hok
      exact hmem
    · obtain ⟨child, hchild, hx⟩ := List.mem_flatMap.1 hx
      exact ih child ((h.documents d hmem).imported child hchild) hx

theorem Sound.postorderFrom_mem (h : g.Sound) {way : List DocumentId} {id : DocumentId}
    (hid : id.index < g.documents.size) {x : Except Dangling DocumentId}
    (hx : x ∈ g.postorderFrom way id) :
    InRange x ∧ ∀ id', x = .ok id' → id'.index < g.documents.size := by
  fun_induction postorderFrom g way id with
  | case1 way id hnone =>
    rw [Array.getElem?_eq_getElem hid] at hnone
    cases hnone
  | case2 way id d hd hw =>
    rw [List.mem_singleton.1 hx]
    exact ⟨.error_iff.2 fun hout => hout, fun id' hok => by cases hok⟩
  | case3 way id d hd hw ih =>
    rcases List.mem_append.1 hx with hx | hx
    · obtain ⟨child, hchild, hx⟩ := List.mem_flatMap.1 hx
      exact ih child ((h.documents d (Array.mem_of_getElem? hd)).imported child hchild) hx
    · rw [List.mem_singleton.1 hx]
      refine ⟨.ok id, fun id' hok => ?_⟩
      cases hok
      exact hid

theorem inRange_collect {α : Type} {xs : List (Except Dangling α)} (h : ∀ x ∈ xs, InRange x) :
    InRange (collect xs) := by
  induction xs with
  | nil => exact .ok []
  | cons x later ih =>
    rw [List.forall_mem_cons] at h
    cases x with
    | error handle => exact .error_iff.2 (InRange.error_iff.1 h.1)
    | ok a =>
      have hlater := ih h.2
      rw [collect]
      cases hc : collect later with
      | error handle =>
        rw [hc] at hlater
        exact .error_iff.2 (InRange.error_iff.1 hlater)
      | ok more => exact .ok _

theorem mem_of_collect {α : Type} {xs : List (Except Dangling α)} {as : List α}
    (h : collect xs = .ok as) {a : α} (ha : a ∈ as) : .ok a ∈ xs := by
  rw [collect_eq_ok_iff.1 h]
  exact List.mem_map_of_mem ha

theorem firstKnown_cases (kind : Kind) (name : String) {xs : List (Except Dangling Document)}
    (h : ∀ x ∈ xs, InRange x) : InRange (firstKnown kind name xs) ∧
      ∀ id, firstKnown kind name xs = .ok (some id) →
        ∃ d, .ok d ∈ xs ∧ d.globals.get? kind name = some id := by
  induction xs with
  | nil => exact ⟨.ok none, fun id hid => by cases hid⟩
  | cons x later ih =>
    rw [List.forall_mem_cons] at h
    cases x with
    | error handle => exact ⟨.error_iff.2 (InRange.error_iff.1 h.1), fun id hid => by cases hid⟩
    | ok d =>
      rw [firstKnown]
      cases hget : d.globals.get? kind name with
      | some id =>
        refine ⟨.ok _, fun id' hid => ?_⟩
        cases hid
        exact ⟨d, List.mem_cons_self, hget⟩
      | none =>
        obtain ⟨hrange, hfound⟩ := ih h.2
        refine ⟨hrange, fun id hid => ?_⟩
        obtain ⟨d', hd', hget'⟩ := hfound id hid
        exact ⟨d', List.mem_cons_of_mem _ hd', hget'⟩

end Graph

/-! ## Steps -/

/-- The candidate is a usage of a declaration of the graph, and what it is known to use is one. -/
structure Candidate.Within (g : Graph) (c : Candidate) : Prop where
  usage : g.HasUsage c.usage
  used : ∀ id, c.value.declaration? = some id → id.index < g.declarations.size

namespace Graph

variable {g g' : Graph}

/-- Everything that a graph with that outline holds numbers something. -/
structure Steady (g₀ g : Graph) : Prop where
  sound : g.Sound
  indexed : g.Indexed
  outline : g₀.SameOutline g

namespace Steady

variable {g₀ : Graph}

theorem document_lt (h : g₀.Steady g) {id : DocumentId} (hid : id.index < g₀.documents.size) :
    id.index < g.documents.size := by
  rwa [← h.outline.size_documents]

theorem declaration_lt (h : g₀.Steady g) {id : DeclarationId}
    (hid : id.index < g₀.declarations.size) : id.index < g.declarations.size := by
  rwa [← h.outline.size_declarations]

theorem inRange_document (h : g₀.Steady g) {id : DocumentId}
    (hid : id.index < g₀.documents.size) : InRange (g.document id) := by
  obtain ⟨d, hd⟩ := exists_document_of_lt (h.document_lt hid)
  exact .of_eq_ok hd

theorem inRange_declaration (h : g₀.Steady g) {id : DeclarationId}
    (hid : id.index < g₀.declarations.size) : InRange (g.declaration id) := by
  obtain ⟨t, ht, _⟩ := exists_declaration_of_lt (h.declaration_lt hid)
  exact .of_eq_ok ht

theorem lookup_cases (h : g₀.Steady g) {document : DocumentId}
    (hdocument : document.index < g₀.documents.size) (kind : Kind) (name : String) :
    InRange (g.lookup document kind name) ∧ ∀ id, g.lookup document kind name = .ok (some id) →
      id.index < g₀.declarations.size := by
  have hmem := fun x (hx : x ∈ g.preorder document) =>
    h.sound.preorderFrom_mem (h.document_lt hdocument) hx
  obtain ⟨hrange, hfound⟩ := firstKnown_cases kind name fun x hx => (hmem x hx).1
  refine ⟨hrange, fun id hid => ?_⟩
  obtain ⟨d, hd, hget⟩ := hfound id hid
  rw [h.outline.size_declarations]
  exact h.indexed.globals d ((hmem _ hd).2 d rfl) kind name id hget

theorem postorder_cases (h : g₀.Steady g) {root : DocumentId}
    (hroot : root.index < g₀.documents.size) : InRange (g.postorder root) ∧
      ∀ documents, g.postorder root = .ok documents →
        ∀ document ∈ documents, document.index < g₀.documents.size := by
  have hmem := fun x (hx : x ∈ g.postorderFrom [] root) =>
    h.sound.postorderFrom_mem (h.document_lt hroot) hx
  refine ⟨inRange_collect fun x hx => (hmem x hx).1, fun documents hd document hin => ?_⟩
  rw [h.outline.size_documents]
  exact (hmem _ (mem_of_collect hd hin)).2 document rfl

/-- A change of documents alone. -/
theorem setDocuments (h : g₀.Steady g) {documents : Array Document}
    (hs : Sound { g with documents }) (ho : g.SameOutline { g with documents }) :
    g₀.Steady { g with documents } :=
  ⟨hs, h.indexed.setDocuments ho, h.outline.trans ho⟩

theorem registerDependency (h : g₀.Steady g) {document owner : DocumentId}
    (hdocument : document.index < g₀.documents.size) {dependency : Dependency}
    (hd : g.Holds dependency) (name : String) :
    ∃ g', (g.registerDependency document owner name dependency).map (·.1) = .ok g' ∧
      g₀.Steady g' ∧ g'.multiplexers = g.multiplexers := by
  obtain ⟨d, hdoc⟩ := exists_document_of_lt (h.document_lt hdocument)
  obtain ⟨nameSpace, hspace⟩ : ∃ nameSpace, g.dependencyNamespace dependency = .ok nameSpace := by
    cases dependency with
    | declaration id =>
      obtain ⟨t, ht, _⟩ := exists_declaration_of_lt hd
      exact ⟨.declaration t.kind, by rw [dependencyNamespace, ht]; rfl⟩
    | multiplexer id => exact ⟨.multiplexer, rfl⟩
  by_cases howner : owner = document
  · exact ⟨g, by rw [Graph.registerDependency, if_pos howner]; rfl, h, rfl⟩
  · have hr : (g.registerDependency document owner name dependency).map (·.1) =
        .ok { g with documents := g.documents.modify document.index fun d =>
          { d with dependencies := d.dependencies.register nameSpace name dependency } } := by
      rw [Graph.registerDependency, if_neg howner, hspace, hdoc]
      simp only [bind, Except.bind, modifyDocument, getElem?_of_document hdoc]
      rfl
    have hs := h.sound.registerDependency hd hr
    exact ⟨_, hr, h.setDocuments hs (sameCore_registerDependency hr).sameOutline, rfl⟩

theorem modifyUsage (h : g₀.Steady g) (ref : UsageRef) {target : DeclarationId}
    (htarget : target.index < g₀.declarations.size) :
    g₀.Steady (g.modifyUsage ref (·.resolve target)) := by
  have ho := sameOutline_modifyUsage g ref target
  refine ⟨h.sound.modifyUsage ref (h.declaration_lt htarget), ?_, h.outline.trans ho⟩
  exact h.indexed.grow ho (Nat.le_refl _) (fun _ => .inl) (fun _ => .inl)
    fun _ => .inl

theorem bindUsage (h : g₀.Steady g) (ref : UsageRef) {id : MultiplexerId}
    (hid : id.index < g.multiplexers.size) : g₀.Steady (g.bindUsage ref id) := by
  have ho := (sameCore_bindUsage g ref id).sameOutline
  refine ⟨h.sound.bindUsage ref id, ?_, h.outline.trans ho⟩
  unfold Graph.bindUsage at ho ⊢
  split
  · exact h.indexed
  · next hnone =>
    rw [if_neg hnone] at ho
    refine h.indexed.grow ho (Nat.le_refl _) (fun _ => .inl) (fun e he => ?_)
      fun _ => .inl
    rcases List.mem_cons.1 he with rfl | he
    · exact .inr hid
    · exact .inl he

/-- A multiplexer within the graph that is made for a usage of a declaration can be added. -/
theorem addMultiplexer (h : g₀.Steady g) {m : Multiplexer} (hm : m.Within g)
    (husage : g.HasUsage m.usage) :
    ∃ g' id, (g.addMultiplexer fun id => { m with id }) = (g', .ok id) ∧ g₀.Steady g' := by
  have hs := h.sound.addMultiplexer hm
  have ho := (g.sameCore_addMultiplexer fun id => { m with id }).sameOutline
  have hadd := addMultiplexer_eq g m (Array.getElem?_eq_getElem hm.owner)
  rw [hadd] at hs ho
  refine ⟨_, _, hadd, hs, ?_, h.outline.trans ho⟩
  have hnew : (Handle.ofIndex g.multiplexers.size : MultiplexerId).index <
      (g.multiplexers.push { m with id := .ofIndex g.multiplexers.size }).size := by
    rw [Array.size_push]
    exact Nat.lt_succ_of_le (Nat.min_le_left _ _)
  refine h.indexed.grow ho ?_ (fun e he => ?_) (fun e he => ?_) fun m' hm' => ?_
  · rw [Array.size_push]
    exact Nat.le_succ _
  · rcases List.mem_cons.1 he with rfl | he
    · exact .inr hnew
    · exact .inl he
  · rcases List.mem_cons.1 he with rfl | he
    · exact .inr hnew
    · exact .inl he
  · rcases Array.mem_push.1 hm' with hm' | rfl
    · exact .inl hm'
    · exact .inr husage

theorem sortMultiplexers (h : g₀.Steady g) {document : DocumentId}
    (hdocument : document.index < g₀.documents.size) :
    ∃ g', g.sortMultiplexers document = .ok g' ∧ g₀.Steady g' := by
  obtain ⟨d, hd⟩ := exists_document_of_lt (h.document_lt hdocument)
  have hwithin := h.sound.documents d (Array.mem_of_getElem? (getElem?_of_document hd))
  have hmodify : ∀ f, g.modifyDocument document f =
      .ok { g with documents := g.documents.modify document.index f } := fun f => by
    rw [modifyDocument, getElem?_of_document hd]
  obtain ⟨named, hsort⟩ : ∃ named : List (MultiplexerId × String), g.sortMultiplexers document =
      .ok { g with documents := g.documents.modify document.index fun d =>
        { d with multiplexers := (named.mergeSort fun a b => a.2 ≤ b.2).map (·.1) } } := by
    simp only [Graph.sortMultiplexers, hd, bind, Except.bind]
    split
    · exact ⟨[], hmodify _⟩
    · next single _ => exact ⟨[(single, "")], hmodify _⟩
    · obtain ⟨named, hnamed, _⟩ := exists_mapM_ok
        (f := fun id => (g.multiplexer id).map fun m => (id, m.name)) fun id hid => by
          obtain ⟨m, hm, _⟩ := exists_multiplexer_of_lt (hwithin.multiplexers id hid)
          exact ⟨(id, m.name), by rw [hm]; rfl⟩
      rw [hnamed]
      exact ⟨named, hmodify _⟩
  refine ⟨_, hsort, h.setDocuments (h.sound.sortMultiplexers hsort) ?_⟩
  exact (sameCore_sortMultiplexers hsort).sameOutline

/-- What is demanded for a usage of a declaration is met. -/
theorem meetDemand (h : g₀.Steady g) {m : Multiplexer} (hm : m.Within g)
    (husage : g.HasUsage m.usage) :
    ∃ n g', (SchemaFamily.meetDemand m).apply g = (.ok n, g') ∧ g₀.Steady g' := by
  rw [SchemaFamily.meetDemand, Pass.apply_bind_of_ok (Pass.apply_get g)]
  cases hnamed : g.multiplexerNamed? m.name with
  | some existing =>
    -- the name was given to a multiplexer before, which is in the arena since
    have hholds : g.Holds (.multiplexer existing) := by
      obtain ⟨before, after, hnames, _⟩ := List.lookup_eq_some_iff.1 hnamed
      refine h.indexed.names (m.name, existing) ?_
      rw [hnames]
      simp
    obtain ⟨s, hs, _⟩ := exists_multiplexer_of_lt hholds
    have howner := hm.owner
    rw [← h.outline.size_documents] at howner
    obtain ⟨g₁, hr, hsteady, hsame⟩ := h.registerDependency howner hholds m.name
    dsimp only
    rw [Pass.apply_bind_ask hs, Pass.apply_bind_change hr,
      Pass.apply_bind_of_ok (Pass.apply_modify _ _), Pass.apply_pure]
    refine ⟨0, _, rfl, hsteady.bindUsage m.usage ?_⟩
    rw [hsame]
    exact hholds
  | none =>
    obtain ⟨g', id, hadd, hsteady⟩ := h.addMultiplexer hm husage
    dsimp only
    rw [Pass.apply_bind_of_ok (Pass.apply_get g), hadd]
    dsimp only
    rw [Pass.apply_bind_of_ok (Pass.apply_set _ _), Pass.apply_pure]
    exact ⟨1, g', rfl, hsteady⟩

/-- A candidate is a usage of a declaration, and what it uses, once known, is a declaration. -/
theorem of_mem_candidates (h : g₀.Steady g) {t : Declaration} (ht : t ∈ g.declarations)
    {c : Candidate} (hc : c ∈ t.candidates) : c.Within g₀ := by
  obtain ⟨⟨slot, u⟩, hu, hcase⟩ := List.mem_filterMap.1 hc
  dsimp only at hcase
  split at hcase
  · rw [Option.ite_none_right_eq_some] at hcase
    obtain ⟨_, hcase⟩ := hcase
    cases hcase
    refine ⟨HasUsage.congr ⟨t, ht, rfl, ?_⟩ h.outline.symm, fun id hid => ?_⟩
    · rw [Definition.mem_usages_iff.1 hu]
      rfl
    · rw [h.outline.size_declarations]
      exact (h.sound.declarations t ht).used _ hu id hid
  · cases hcase

theorem candidates_cases (h : g₀.Steady g) {document : DocumentId}
    (hdocument : document.index < g₀.documents.size) :
    InRange (g.candidates document) ∧ ∀ candidates, g.candidates document = .ok candidates →
      ∀ c ∈ candidates, c.Within g₀ := by
  obtain ⟨d, hd⟩ := exists_document_of_lt (h.document_lt hdocument)
  have hwithin := h.sound.documents d (Array.mem_of_getElem? (getElem?_of_document hd))
  have hrange : InRange (collect (d.owned.map g.declaration)) := by
    refine inRange_collect fun x hx => ?_
    obtain ⟨id, hid, rfl⟩ := List.mem_map.1 hx
    obtain ⟨t, ht, _⟩ := exists_declaration_of_lt (hwithin.owned id hid)
    exact .of_eq_ok ht
  rw [Graph.candidates, hd]
  show InRange (collect (d.owned.map g.declaration) >>= fun holders => _) ∧
    ∀ candidates, (collect (d.owned.map g.declaration) >>= fun holders => _) = .ok candidates → _
  cases hc : collect (d.owned.map g.declaration) with
  | error handle =>
    rw [hc] at hrange
    refine ⟨.error_iff.2 (InRange.error_iff.1 hrange), fun candidates hok => ?_⟩
    cases hok
  | ok holders =>
    refine ⟨.ok _, fun candidates hok c hc' => ?_⟩
    cases hok
    obtain ⟨t, ht, hct⟩ := List.mem_flatMap.1 hc'
    obtain ⟨id, _, hid⟩ := List.mem_map.1 (mem_of_collect hc ht)
    exact h.of_mem_candidates (Array.mem_of_getElem? (getElem?_of_declaration hid)) hct

end Steady

end Graph

/-! ## Passes -/

open Pass

section

variable {g₀ : Graph} {document : DocumentId} (hdocument : document.index < g₀.documents.size)

include hdocument

theorem safe_linkUsage {declaration : DeclarationId}
    (hdeclaration : declaration.index < g₀.declarations.size) (p : Pending) :
    Safe g₀.Steady (linkUsage document declaration p) fun _ => g₀.Steady := by
  unfold linkUsage
  refine .bind (.ask fun g hg => (hg.lookup_cases hdocument p.kind p.name).1) fun found => ?_
  cases found with
  | none =>
    refine .bind (.ask fun g hg => hg.1.inRange_document hdocument) fun owner => ?_
    refine .bind (.ask fun g hg => hg.1.1.inRange_declaration hdeclaration) fun holder => ?_
    exact .throw fun hout => hout
  | some target =>
    have htarget : ∀ g, (g₀.Steady g ∧ g.lookup document p.kind p.name = .ok (some target)) →
        target.index < g₀.declarations.size := fun g hg =>
      (hg.1.lookup_cases hdocument p.kind p.name).2 target hg.2
    refine .bind (.ask fun g hg => hg.1.inRange_declaration (htarget g hg)) fun found => ?_
    refine .bind (Q := fun _ g => g₀.Steady g ∧ target.index < g₀.declarations.size)
      (.change fun g hg => ?_) fun _ => ?_
    · have hholds : g.Holds (.declaration target) := hg.1.1.declaration_lt (htarget g hg.1)
      obtain ⟨g', hr, hsteady, _⟩ := hg.1.1.registerDependency hdocument hholds p.name
      exact ⟨g', hr, hsteady, htarget g hg.1⟩
    · refine .bind (Q := fun _ => g₀.Steady) (.modify fun g hg => ?_) fun _ => .pure fun _ hg => hg
      exact hg.1.modifyUsage _ hg.2

theorem safe_linkDocument : Safe g₀.Steady (linkDocument document) fun _ => g₀.Steady := by
  refine .bind (.ask fun g hg => hg.inRange_document hdocument) fun owner => ?_
  rintro g ⟨hg, howner⟩
  have hwithin :=
    hg.sound.documents owner (Array.mem_of_getElem? (Graph.getElem?_of_document howner))
  refine Safe.total (fun declaration hd => ?_) g hg
  have hdeclaration : declaration.index < g₀.declarations.size := by
    rw [hg.outline.size_declarations]
    exact hwithin.owned declaration hd
  refine .bind (.ask fun g hg => hg.inRange_declaration hdeclaration) fun holder => ?_
  exact .weaken (.total fun p _ => safe_linkUsage hdocument hdeclaration p) fun _ => And.left

theorem safe_reconcileUsage (suffix : String) {c : Candidate} (hc : c.Within g₀) :
    Safe g₀.Steady (reconcileUsage suffix document c) fun _ => g₀.Steady := by
  intro g hg
  rw [show (reconcileUsage suffix document c).apply g = _ from
    Graph.apply_reconcileUsage suffix ⟨document, c⟩ g]
  cases hd : g.demanded suffix ⟨document, c⟩ with
  | error failure =>
    refine ⟨fun failure' g' happly => ?_, fun a g' happly => ?_⟩
    · cases happly
      obtain ⟨owner, howner⟩ := Graph.exists_document_of_lt (hg.document_lt hdocument)
      unfold Graph.demanded at hd
      rw [howner] at hd
      dsimp only at hd
      split at hd
      · cases hd
        exact fun hout => hout
      · next wrapped hwrapped =>
        obtain ⟨t, ht, _⟩ :=
          Graph.exists_declaration_of_lt (hg.declaration_lt (hc.used wrapped hwrapped))
        rw [ht] at hd
        dsimp only at hd
        split at hd
        · cases hd
          exact fun hout => hout
        · cases hd
    · cases happly
  | ok m =>
    have husage : g.HasUsage m.usage := by
      rw [(Graph.madeFor_of_demanded hd).usage]
      exact hc.usage.congr hg.outline
    obtain ⟨n, g', hmeet, hsteady⟩ := hg.meetDemand (Graph.within_of_demanded hd) husage
    dsimp only
    rw [hmeet]
    refine ⟨fun failure g'' happly => ?_, fun a g'' happly => ?_⟩
    · cases happly
    · cases happly
      exact hsteady

theorem safe_reconcileDocument (suffix : String) :
    Safe g₀.Steady (reconcileDocument suffix document) fun _ => g₀.Steady := by
  refine .bind (.ask fun g hg => (hg.candidates_cases hdocument).1) fun candidates => ?_
  refine .bind (Q := fun _ => g₀.Steady) ?_ fun made => ?_
  · rintro g ⟨hg, hcandidates⟩
    refine Safe.total (fun c hc => ?_) g hg
    exact safe_reconcileUsage hdocument suffix
      ((hg.candidates_cases hdocument).2 _ hcandidates c hc)
  · refine .bind (Q := fun _ => g₀.Steady) (.change fun g hg => ?_) fun _ => .pure fun _ hg => hg
    exact hg.sortMultiplexers hdocument

end

variable (g₀ : Graph)

theorem safe_link : Safe g₀.Steady link fun _ => g₀.Steady := by
  refine .bind .get fun g₁ => ?_
  rintro g ⟨hg, rfl⟩
  refine Safe.total (fun document hd => safe_linkDocument ?_) g₁ hg
  obtain ⟨i, hi, rfl⟩ := List.mem_map.1 hd
  rw [hg.outline.size_documents]
  exact Nat.lt_of_le_of_lt (Nat.min_le_left _ _) (List.mem_range.1 hi)

theorem safe_reconcile (suffix : String) :
    Safe g₀.Steady (reconcile suffix) fun _ => g₀.Steady := by
  refine .bind .get fun g₁ => ?_
  split
  · exact .pure fun _ hg => hg.1
  · next root hroot =>
    have hroot : ∀ g, g₀.Steady g → g₁ = g → root.index < g₀.documents.size := by
      rintro g hg rfl
      rw [hg.outline.size_documents]
      unfold Graph.root? at hroot
      split at hroot
      · cases hroot
      · next hne =>
        cases hroot
        refine Nat.lt_of_le_of_lt (Nat.min_le_left _ _) (Nat.pos_of_ne_zero fun hzero => hne ?_)
        simpa [Array.isEmpty] using hzero
    refine .bind (.ask fun g hg => (hg.1.postorder_cases (hroot g hg.1 hg.2)).1) fun documents => ?_
    rintro g ⟨⟨hg, heq⟩, hdocuments⟩
    refine Safe.total (fun document hd => safe_reconcileDocument ?_ suffix) g hg
    exact (hg.postorder_cases (hroot g hg heq)).2 documents hdocuments document hd

/-- Linking and reconciling look up nothing out of range. -/
theorem safe_finishFamily (suffix : String) :
    Safe g₀.Steady (finishFamily suffix) fun _ => g₀.Steady :=
  .bind (safe_link g₀) fun _ => safe_reconcile g₀ suffix

/-- A family that is resolved is steady. -/
theorem steady_of_resolve {disk : Disk} {entities : Xml.EntityMap} {p base : Path} {c c' : Cache}
    {tree : ImportTree} (hc : c.ReadFromTexts)
    (hr : (resolve disk entities p base).run.run c = (.ok tree, c')) :
    (Graph.ofTree tree).Steady (Graph.ofTree tree) :=
  ⟨sound_of_resolve hc hr, Graph.indexed_ofTree tree, .refl _⟩

end SchemaFamily
