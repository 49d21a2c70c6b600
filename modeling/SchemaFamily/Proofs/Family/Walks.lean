import SchemaFamily.Proofs.Family.Cycles
import SchemaFamily.Proofs.Family.Standing
import SchemaFamily.Proofs.Family.Steps

/-
  The documents of a family as walks over imports. From the root a walk takes one import of a file
  after the other, and `walkEnd?` says where it leads, by what is in the files alone. A family that
  was resolved has one document for each walk, depth first (`unfolding_of_resolve`): the tree of the
  family stands for the files (`Unfolds.mem_walks`, `Unfolds.of_stands`), and its parts say what
  each document is. The documents below one stand in a row (`Spans.reaches_iff`).
-/

namespace SchemaFamily

open Relation

section

variable (disk : Disk) (entities : Xml.EntityMap) (base : Path)

/-- The path, normalised, of import number `k` of the file at a path. -/
def importAt? (a : Path) (k : Nat) : Option Path :=
  match readDraft disk entities a with
  | .ok draft => draft.imports[k]?.map fun i => (i.path base).normalize
  | .error _ => none

/-- Where a walk over import positions leads from a path. -/
def walkEnd? : Path → List Nat → Option Path
  | a, [] => some a
  | a, k :: walk => (importAt? disk entities base a k).bind (walkEnd? · walk)

end

variable {disk : Disk} {entities : Xml.EntityMap} {base : Path}

theorem walkEnd?_append (a : Path) (walk walk' : List Nat) :
    walkEnd? disk entities base a (walk ++ walk') =
      (walkEnd? disk entities base a walk).bind (walkEnd? disk entities base · walk') := by
  induction walk generalizing a with
  | nil => rfl
  | cons k rest ih =>
    rw [List.cons_append, walkEnd?, walkEnd?, Option.bind_assoc]
    exact congrArg _ (funext ih)

/-! ## Walks into a tree -/

namespace Unfolds

open ImportTree

variable {p : Path} {tree part : ImportTree} {walk : List Nat}

/-- The trees stand for the paths one by one. -/
theorem getElem? {paths : List Path} {trees : List ImportTree}
    (h : Unfolds disk entities base paths trees) (k : Nat) :
    (paths[k]? = none ∧ trees[k]? = none) ∨
      ∃ p tree, paths[k]? = some p ∧ trees[k]? = some tree ∧
        Unfolds disk entities base [p] [tree] := by
  induction h generalizing k with
  | nil => exact .inl ⟨rfl, rfl⟩
  | @cons p paths draft imports trees found below others _ ih =>
    cases k with
    | zero => exact .inr ⟨p, _, rfl, rfl, .cons found below .nil⟩
    | succ k => exact ih k

theorem length_eq {paths : List Path} {trees : List ImportTree}
    (h : Unfolds disk entities base paths trees) : paths.length = trees.length := by
  induction h with
  | nil => rfl
  | cons _ _ _ _ ih => rw [List.length_cons, List.length_cons, ih]

/-- The root of a tree is the draft of its file. -/
theorem root (h : Unfolds disk entities base [p] [tree]) :
    readDraft disk entities p.normalize = .ok tree.draft ∧
      Unfolds disk entities base (tree.draft.imports.map (Import.path base)) tree.imports := by
  cases h with
  | cons found below _ => exact ⟨found, below⟩

theorem importAt?_eq (h : Unfolds disk entities base [p] [tree]) (k : Nat) :
    (importAt? disk entities base p.normalize k = none ∧ tree.imports[k]? = none) ∨
      ∃ q below, importAt? disk entities base p.normalize k = some q.normalize ∧
        tree.imports[k]? = some below ∧ Unfolds disk entities base [q] [below] := by
  obtain ⟨hread, himports⟩ := h.root
  rw [importAt?, hread]
  rcases himports.getElem? k with ⟨hpath, htree⟩ | ⟨q, below, hpath, htree, hbelow⟩
  · rw [List.getElem?_map, Option.map_eq_none_iff] at hpath
    exact .inl ⟨by simp [hpath], htree⟩
  · rw [List.getElem?_map, Option.map_eq_some_iff] at hpath
    obtain ⟨i, hi, rfl⟩ := hpath
    exact .inr ⟨_, below, by simp [hi], htree, hbelow⟩

/-- The walks into a tree are those that lead somewhere. -/
theorem mem_walks (h : Unfolds disk entities base [p] [tree]) :
    walk ∈ tree.walks ↔ (walkEnd? disk entities base p.normalize walk).isSome := by
  induction walk generalizing p tree with
  | nil => simp [walkEnd?, nil_mem_walks]
  | cons k rest ih =>
    rw [cons_mem_walks, walkEnd?]
    rcases h.importAt?_eq k with ⟨hpath, htree⟩ | ⟨q, below, hpath, htree, hbelow⟩
    · simp [hpath, htree]
    · simp [hpath, htree, ih hbelow]

/-- At the end of a walk stands what following all imports from there leads to. -/
theorem of_stands {i first : Nat} (hs : Stands tree walk i first part)
    (h : Unfolds disk entities base [p] [tree]) :
    ∃ q, walkEnd? disk entities base p.normalize walk = some q.normalize ∧
      Unfolds disk entities base [q] [part] := by
  induction hs generalizing p with
  | here tree => exact ⟨p, rfl, h⟩
  | @inside draft before after tree part walk i first _ ih =>
    rcases h.importAt?_eq before.length with ⟨_, htree⟩ | ⟨q, below, hpath, htree, hbelow⟩
    · simp [imports] at htree
    · have htree : (before ++ tree :: after)[before.length]? = some below := htree
      rw [List.getElem?_append_right (Nat.le_refl _), Nat.sub_self] at htree
      cases htree
      obtain ⟨q', hq', h'⟩ := ih hbelow
      exact ⟨q', by rw [walkEnd?, hpath, Option.bind_some, hq'], h'⟩

end Unfolds

theorem source_of_readDraft {a : Path} {draft : Draft}
    (h : readDraft disk entities a = .ok draft) : draft.header.source = a := by
  unfold readDraft at h
  split at h
  · cases h
  · split at h
    · cases h
    · next hread =>
      cases h
      exact Draft.source_of_read hread

/-! ## Rows below a document -/

namespace Graph

/-- The document imports another. -/
def ImportsDocument (g : Graph) (document child : DocumentId) : Prop :=
  ∃ d, g.documents[document.index]? = some d ∧ child ∈ d.imported

/-- The documents that a row of imports reaches are those of the row. -/
theorem Spans.reaches_iff {g : Graph} {ids : List DocumentId} {i k : Nat} (h : g.Spans ids i k)
    {b : DocumentId} :
    (∃ a ∈ ids, ReflTransGen g.ImportsDocument a b) ↔ i ≤ b.index ∧ b.index < k := by
  induction h with
  | nil i =>
    simp only [List.not_mem_nil, false_and, exists_false, false_iff]
    omega
  | @cons id d ids i j k hid hd hbelow hlater ih₁ ih₂ =>
    have hij := hbelow.le
    have hjk := hlater.le
    constructor
    · rintro ⟨a, ha, hb⟩
      rcases List.mem_cons.1 ha with rfl | ha
      · rcases hb.cases_head with rfl | ⟨c, ⟨d', hd', hc⟩, hb⟩
        · omega
        · rw [hid, hd] at hd'
          cases hd'
          have := ih₁.1 ⟨c, hc, hb⟩
          omega
      · have := ih₂.1 ⟨a, ha, hb⟩
        omega
    · rintro ⟨hi, hk⟩
      by_cases hb : b.index < j
      · refine ⟨id, List.mem_cons_self, ?_⟩
        by_cases he : b.index = i
        · rw [Handle.ext (he.trans hid.symm)]
        · obtain ⟨a, ha, hab⟩ := ih₁.2 ⟨by omega, hb⟩
          exact .head ⟨d, by rwa [hid], ha⟩ hab
      · obtain ⟨a, ha, hab⟩ := ih₂.2 ⟨by omega, hk⟩
        exact ⟨a, List.mem_cons_of_mem _ ha, hab⟩

theorem Spans.reaches_one_iff {g : Graph} {a : DocumentId} {i k : Nat} (h : g.Spans [a] i k)
    {b : DocumentId} :
    ReflTransGen g.ImportsDocument a b ↔ i ≤ b.index ∧ b.index < k := by
  rw [← h.reaches_iff]
  simp

/-- Documents taken before their imports are reached by imports. -/
theorem Preorder.exists_reaches {g : Graph} {ids out : List DocumentId} (h : g.Preorder ids out)
    {b : DocumentId} (hb : b ∈ out) : ∃ a ∈ ids, ReflTransGen g.ImportsDocument a b := by
  induction h with
  | nil => cases hb
  | @cons id d ids below later found _ _ ihbelow ihlater =>
    rcases List.mem_cons.1 hb with rfl | hb
    · exact ⟨b, List.mem_cons_self, .refl⟩
    · rcases List.mem_append.1 hb with hb | hb
      · obtain ⟨a, ha, hab⟩ := ihbelow hb
        exact ⟨id, List.mem_cons_self, .head ⟨d, getElem?_of_document found, ha⟩ hab⟩
      · obtain ⟨a, ha, hab⟩ := ihlater hb
        exact ⟨a, List.mem_cons_of_mem id ha, hab⟩

/-- Documents that are reached by imports are taken. -/
theorem Preorder.mem_of_reaches {g : Graph} {ids out : List DocumentId} (h : g.Preorder ids out)
    {a b : DocumentId} (ha : a ∈ ids) (hab : ReflTransGen g.ImportsDocument a b) : b ∈ out := by
  induction h generalizing a b with
  | nil => cases ha
  | @cons id d ids below later found _ _ ihbelow ihlater =>
    rcases List.mem_cons.1 ha with rfl | ha
    · rcases hab.cases_head with rfl | ⟨c, ⟨d', hd', hc⟩, hcb⟩
      · exact List.mem_cons_self
      · rw [getElem?_of_document found] at hd'
        cases hd'
        exact List.mem_cons_of_mem _ (List.mem_append_left _ (ihbelow hc hcb))
    · exact List.mem_cons_of_mem _ (List.mem_append_right _ (ihlater ha hab))

/-! ## Documents as walks -/

/-- The documents of the graph stand for the walks over imports from `root` one by one, the walks
    in lexicographic order: each document is what the file at the end of its walk makes it, and it
    imports the documents of the walks that go on by one step. -/
structure IsUnfolding (g : Graph) (disk : Disk) (entities : Xml.EntityMap) (base root : Path)
    (walks : List (List Nat)) : Prop where
  length_walks : walks.length = g.documents.size
  mem_walks : ∀ walk, walk ∈ walks ↔ (walkEnd? disk entities base root walk).isSome
  pairwise_walks : walks.Pairwise (· < ·)
  document : ∀ {i : Nat} {walk : List Nat}, walks[i]? = some walk →
    ∃ d draft source, g.documents[i]? = some d ∧ d.id.raw = i + 1 ∧
      walkEnd? disk entities base root walk = some source ∧
      readDraft disk entities source = .ok draft ∧ d.header = draft.header ∧
      d.header.source = source ∧ d.imports = draft.imports ∧
      (∀ place, (g.declarationsOf d.id)[place]? = draft.definitions[place]?.map
        fun drafted : Drafted => drafted.declaration d.id (g.declarationsBefore i) place) ∧
      d.imported.length = d.imports.length ∧
      ∀ k child, d.imported[k]? = some child → walks[child.index]? = some (walk ++ [k])

section

variable {p : Path} {tree : ImportTree}

open ImportTree

theorem isUnfolding_ofTree (h : Unfolds disk entities base [p] [tree])
    (ha : (ofTree tree).Addressable) :
    (ofTree tree).IsUnfolding disk entities base p.normalize tree.walks := by
  have hsize := size_documents_ofTree ha
  have hmax : tree.drafts.length ≤ maxIndex + 1 := hsize ▸ ha.1
  refine ⟨by rw [length_walks, hsize], fun walk => h.mem_walks, tree.pairwise_walks, ?_⟩
  intro i walk hi
  have hlt : i < tree.drafts.length :=
    length_walks tree ▸ (List.getElem?_eq_some_iff.1 hi).1
  obtain ⟨walk', first, part, hi', hs⟩ := exists_stands hlt
  rw [hi] at hi'
  cases hi'
  obtain ⟨q, hend, hpart⟩ := Unfolds.of_stands hs h
  obtain ⟨hread, himports⟩ := hpart.root
  obtain ⟨_, _, _, _, _, hdocument⟩ := part.draft.exists_document (.ofIndex i) first
  have hd := getElem?_document_of_stands ha hs
  rw [hdocument] at hd
  refine ⟨_, part.draft, q.normalize, hd, ?_, hend, hread, rfl, source_of_readDraft hread, rfl, ?_,
    ?_, fun k child hchild => ?_⟩
  · rw [Handle.raw, Handle.index_ofIndex_of_le (by omega)]
  · intro place
    rw [declarationsBefore_of_stands ha hs, declarationsOf_of_stands ha hs]
    exact getElem?_placed_eq _ _ _ place
  · rw [length_roots, ← himports.length_eq, List.length_map]
  · rw [getElem?_roots, Option.map_eq_some_iff] at hchild
    obtain ⟨below, hbelow, rfl⟩ := hchild
    obtain ⟨first', hinside⟩ := exists_stands_of_import hbelow
    have hwalk := (hs.trans hinside).getElem?_walks
    have hle := (hs.trans hinside).length_le
    have hpos : 0 < below.drafts.length := by
      cases below
      exact Nat.succ_pos _
    rw [Handle.index_ofIndex_of_le (by omega), Nat.add_assoc]
    exact hwalk

end

namespace IsUnfolding

variable {g : Graph} {root : Path} {walks : List (List Nat)}

theorem nodup (h : g.IsUnfolding disk entities base root walks) : walks.Nodup :=
  h.pairwise_walks.nodup

/-- A walk comes before its continuations. -/
theorem lt_of_append (h : g.IsUnfolding disk entities base root walks) {i j k : Nat}
    {walk : List Nat} (hi : walks[i]? = some walk) (hj : walks[j]? = some (walk ++ [k])) :
    i < j := by
  have hlt : walk < walk ++ [k] := by
    clear hi hj
    induction walk with
    | nil => exact List.nil_lt_cons _ _
    | cons a rest ih => exact List.cons_lt_cons_iff.2 (.inr ⟨rfl, ih⟩)
  obtain ⟨hi', hi⟩ := List.getElem?_eq_some_iff.1 hi
  obtain ⟨hj', hj⟩ := List.getElem?_eq_some_iff.1 hj
  rcases Nat.lt_trichotomy i j with hij | rfl | hij
  · exact hij
  · rw [hi] at hj
    rw [← hj] at hlt
    exact absurd hlt (List.lt_irrefl walk)
  · have := List.pairwise_iff_getElem.1 h.pairwise_walks j i hj' hi' hij
    rw [hi, hj] at this
    exact absurd (List.lt_trans this hlt) (List.lt_irrefl _)

/-- The document of a walk imports those of the walks that go on by one step. -/
theorem exists_parent (h : g.IsUnfolding disk entities base root walks) {j k : Nat}
    {walk : List Nat} (hj : walks[j]? = some (walk ++ [k])) :
    ∃ (i : Nat) (d : Document), walks[i]? = some walk ∧ i < j ∧ g.documents[i]? = some d ∧
      d.imported[k]? = some (.ofIndex j) := by
  have hend := (h.mem_walks _).1 (List.mem_of_getElem? hj)
  rw [walkEnd?_append] at hend
  have hwalk : walk ∈ walks := by
    rw [h.mem_walks]
    cases hw : walkEnd? disk entities base root walk with
    | none =>
      rw [hw] at hend
      cases hend
    | some source => rfl
  obtain ⟨i, hi⟩ := List.mem_iff_getElem?.1 hwalk
  obtain ⟨d, draft, source, hd, _, hsource, hread, _, _, himports, _, hlength, hchild⟩ :=
    h.document hi
  have hk : k < d.imported.length := by
    rw [hlength, himports]
    rw [hsource, Option.bind_some, walkEnd?, importAt?, hread] at hend
    dsimp only at hend
    cases hk : draft.imports[k]? with
    | none =>
      rw [hk] at hend
      cases hend
    | some i => exact (List.getElem?_eq_some_iff.1 hk).1
  refine ⟨i, d, hi, h.lt_of_append hi hj, hd, ?_⟩
  rw [List.getElem?_eq_getElem hk, Option.some.injEq]
  have hindex := hchild k _ (List.getElem?_eq_getElem hk)
  rw [← (List.getElem?_inj (List.getElem?_eq_some_iff.1 hindex).1 h.nodup).1
    (hindex.trans hj.symm), Handle.ofIndex_index]

/-- Every document but the first is imported once, by a document before it. -/
theorem exists_unique_parent (h : g.IsUnfolding disk entities base root walks) {j : Nat}
    (hj : 0 < j) (hlt : j < g.documents.size) (hmax : j ≤ maxIndex) :
    ∃ (i k : Nat) (d : Document), i < j ∧ g.documents[i]? = some d ∧
      d.imported[k]? = some (.ofIndex j) ∧
      ∀ (i' k' : Nat) (d' : Document), g.documents[i']? = some d' →
        d'.imported[k']? = some (.ofIndex j) → i' = i ∧ k' = k := by
  rw [← h.length_walks] at hlt
  have hwalk := List.getElem?_eq_getElem hlt
  have hne : walks[j] ≠ [] := by
    intro he
    have hroot := List.pairwise_iff_getElem.1 h.pairwise_walks 0 j (by omega) hlt hj
    rw [he] at hroot
    exact List.not_lt_nil _ hroot
  obtain ⟨walk, k, hsplit⟩ : ∃ walk k, walks[j] = walk ++ [k] :=
    ⟨_, _, (List.dropLast_append_getLast hne).symm⟩
  rw [hsplit] at hwalk
  obtain ⟨i, d, hi, hij, hd, hk⟩ := h.exists_parent hwalk
  refine ⟨i, k, d, hij, hd, hk, fun i' k' d' hd' hk' => ?_⟩
  have hlt' : i' < walks.length := h.length_walks ▸ (Array.getElem?_eq_some_iff.1 hd').1
  obtain ⟨d'', _, _, hd'', _, _, _, _, _, _, _, _, hchild⟩ :=
    h.document (List.getElem?_eq_getElem hlt')
  rw [hd'] at hd''
  cases hd''
  have hwalk' := hchild k' _ hk'
  rw [Handle.index_ofIndex_of_le hmax, hwalk, Option.some.injEq] at hwalk'
  obtain ⟨hwalk', hk''⟩ := List.append_inj' hwalk' rfl
  refine ⟨?_, (List.cons.inj hk'').1.symm⟩
  exact (List.getElem?_inj hlt' h.nodup).1
    ((List.getElem?_eq_getElem hlt').trans (hwalk' ▸ hi.symm))

end IsUnfolding

end Graph

/-! ## Resolving a family -/

/-- A family that was resolved has one document for each walk over imports from its root, depth
    first: so a file that several ways lead to stands in it once for each of them. The documents
    are numbered from 1; each has the header, the imports and the definitions of its file, whose
    path is normalised, and imports one document for each of its imports, in order. Every document
    but the first is imported once, by a document before it, and the documents that one reaches
    stand in a row. Handles are 32 bits wide, so a family is `Addressable` unless it has more
    documents or declarations than there are handles, and shares them. -/
theorem unfolding_of_resolve {p : Path} {c c' : Cache} {tree : ImportTree}
    (hc : c.Faithful disk entities)
    (hr : (resolve disk entities p base).run.run c = (.ok tree, c'))
    (ha : (Graph.ofTree tree).Addressable) :
    (∃ walks, (Graph.ofTree tree).IsUnfolding disk entities base p.normalize walks) ∧
    (∀ j, 0 < j → j < (Graph.ofTree tree).documents.size →
      ∃ (i k : Nat) (d : Document), i < j ∧ (Graph.ofTree tree).documents[i]? = some d ∧
        d.imported[k]? = some (.ofIndex j) ∧
        ∀ (i' k' : Nat) (d' : Document), (Graph.ofTree tree).documents[i']? = some d' →
          d'.imported[k']? = some (.ofIndex j) → i' = i ∧ k' = k) ∧
    ∀ i < (Graph.ofTree tree).documents.size, ∃ k, ∀ id,
      ReflTransGen (Graph.ofTree tree).ImportsDocument (.ofIndex i) id ↔
        i ≤ id.index ∧ id.index < k := by
  have hu := Graph.isUnfolding_ofTree (unfolds_of_resolve hc hr).1 ha
  refine ⟨⟨_, hu⟩, fun j hj hlt => ?_, fun i hi => ?_⟩
  · exact hu.exists_unique_parent hj hlt (by have := ha.1; omega)
  · obtain ⟨k, _, hs⟩ := (Graph.spans_ofTree ha).of_mem (Nat.zero_le i) hi
    exact ⟨k, fun id => hs.reaches_one_iff⟩

/-- A file that imports another one twice, whose field has one of its own flags. -/
def twiceImported : Disk := .ofSights
  [(⟨"a"⟩, .file (some "<METASCHEMA><import href=\"b\"/><import href=\"./b\"/></METASCHEMA>")),
    (⟨"b"⟩, .file (some ("<METASCHEMA><define-flag name=\"f\"/>" ++
      "<define-field name=\"w\"><flag ref=\"f\"/></define-field></METASCHEMA>")))]

theorem unfolding_twiceImported :
    ∃ tree c', (resolve twiceImported [] ⟨"a"⟩ ⟨""⟩).run.run {} = (.ok tree, c') ∧
      (Graph.ofTree tree).documents.size = 3 ∧
      ∃ walks, (Graph.ofTree tree).IsUnfolding twiceImported [] ⟨""⟩ ⟨"a"⟩ walks := by
  have hkey : succeeds (fun tree _ => decide (Graph.ofTree tree).Addressable &&
        (Graph.ofTree tree).documents.size == 3)
      ((resolveFrom twiceImported [] ⟨""⟩ 2 [] ⟨"a"⟩).run.run {}) = true := by
    decide +kernel
  obtain ⟨tree, c', hr, hcheck⟩ := exists_of_succeeds hkey
  have hr := run_resolve_of_two_steps hr
  obtain ⟨ha, hsize⟩ := Bool.and_eq_true_iff.1 hcheck
  obtain ⟨hwalks, _⟩ :=
    unfolding_of_resolve (Cache.faithful_empty _ _) hr (of_decide_eq_true ha)
  rw [show (Path.mk "a").normalize = ⟨"a"⟩ by decide +kernel] at hwalks
  exact ⟨tree, c', hr, beq_iff_eq.1 hsize, hwalks⟩

end SchemaFamily
