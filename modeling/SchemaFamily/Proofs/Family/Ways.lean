import SchemaFamily.Proofs.Family.Acyclic
import SchemaFamily.Proofs.Family.Filing
import SchemaFamily.Proofs.Family.Preceding

/-
  Ways over imports. A way from a document takes one of its imports, by position, then one of the
  imports of that, and so on (`wayEnd?`); a document that several others import, or one imports
  several times, lies at the end of several ways. Where imports are acyclic there are finitely many
  ways, and a walk that takes each document before its imports goes along all of them in
  lexicographic order, while one that takes it after them takes the same documents in another order,
  what a document imports always before it (`Acyclic.exists_ways`, `Acyclic.importsFirst`). So a
  name is looked up along the ways, and documents are taken once for each way to them
  (`walks_of_acyclic`).
-/

namespace SchemaFamily.Graph

open Relation

variable {g : Graph}

/-! ## Ways -/

/-- Where a way over import positions leads from a document. -/
def wayEnd? (g : Graph) : DocumentId → List Nat → Option DocumentId
  | id, [] => some id
  | id, k :: way => (g.importsOf id)[k]?.bind (g.wayEnd? · way)

/-- The documents that a document reaches are those to which there are ways. -/
theorem reaches_iff_exists_way {a b : DocumentId} :
    ReflTransGen g.ImportsDocument a b ↔ ∃ way, g.wayEnd? a way = some b := by
  constructor
  · intro h
    induction h using ReflTransGen.head_induction_on with
    | refl => exact ⟨[], rfl⟩
    | head himport _ ih =>
      obtain ⟨way, hway⟩ := ih
      obtain ⟨k, hk⟩ := List.getElem?_of_mem (importsDocument_iff.1 himport)
      exact ⟨k :: way, by rw [wayEnd?, hk, Option.bind_some, hway]⟩
  · rintro ⟨way, hway⟩
    induction way generalizing a with
    | nil =>
      cases hway
      exact .refl
    | cons k way ih =>
      obtain ⟨child, hchild, hway⟩ := Option.bind_eq_some_iff.1 hway
      exact .head (importsDocument_iff.2 (List.mem_of_getElem? hchild)) (ih hway)

/-- The ways are those from the document that lead somewhere, in lexicographic order. -/
structure WaysFrom (g : Graph) (id : DocumentId) (ways : List (List Nat)) : Prop where
  pairwise : ways.Pairwise (· < ·)
  mem_iff : ∀ way, way ∈ ways ↔ (g.wayEnd? id way).isSome

/-- The documents at the ends of ways. -/
def ends (g : Graph) (id : DocumentId) (ways : List (List Nat)) : List DocumentId :=
  ways.filterMap (g.wayEnd? id)

/-- The ways from a document, one import after the other, where those from its imports are known. -/
def waysOver (g : Graph) (waysOf : DocumentId → List (List Nat)) (id : DocumentId) :
    List (List Nat) :=
  [] :: (g.importsOf id).zipIdx.flatMap fun (child, k) => (waysOf child).map (k :: ·)

theorem pairwise_zipIdx {α : Type} (as : List α) :
    as.zipIdx.Pairwise fun x y => x.2 < y.2 := by
  rw [List.pairwise_iff_getElem]
  intro i j _ _ hij
  rw [List.getElem_zipIdx, List.getElem_zipIdx]
  omega

section

variable {waysOf : DocumentId → List (List Nat)} {id : DocumentId}

theorem waysFrom_waysOver (h : ∀ child ∈ g.importsOf id, g.WaysFrom child (waysOf child)) :
    g.WaysFrom id (g.waysOver waysOf id) := by
  have hchild : ∀ x ∈ (g.importsOf id).zipIdx, g.WaysFrom x.1 (waysOf x.1) := fun x hx =>
    h x.1 (List.mem_of_getElem? (List.mem_zipIdx_iff_getElem?.1 hx))
  refine ⟨List.pairwise_cons.2 ⟨?_, List.pairwise_flatMap.2 ⟨fun x hx => ?_, ?_⟩⟩, ?_⟩
  · intro way hway
    obtain ⟨x, _, hway⟩ := List.mem_flatMap.1 hway
    obtain ⟨way, _, rfl⟩ := List.mem_map.1 hway
    exact List.nil_lt_cons _ _
  · refine List.pairwise_map.2 ((hchild x hx).pairwise.imp fun hlt => ?_)
    exact List.cons_lt_cons_iff.2 (.inr ⟨rfl, hlt⟩)
  · -- a way over an earlier import comes before all over a later one
    refine (pairwise_zipIdx _).imp fun hlt way hway way' hway' => ?_
    obtain ⟨way, _, rfl⟩ := List.mem_map.1 hway
    obtain ⟨way', _, rfl⟩ := List.mem_map.1 hway'
    exact List.cons_lt_cons_iff.2 (.inl hlt)
  · intro way
    rw [waysOver, List.mem_cons, List.mem_flatMap]
    cases way with
    | nil => simp [wayEnd?]
    | cons k way =>
      rw [wayEnd?]
      constructor
      · rintro (hnil | ⟨x, hx, hway⟩)
        · cases hnil
        · obtain ⟨way', hway', he⟩ := List.mem_map.1 hway
          cases he
          rw [List.mem_zipIdx_iff_getElem?.1 hx, Option.bind_some]
          exact ((hchild x hx).mem_iff way).1 hway'
      · intro hsome
        cases hk : (g.importsOf id)[k]? with
        | none =>
          rw [hk] at hsome
          cases hsome
        | some child =>
          rw [hk, Option.bind_some] at hsome
          refine .inr ⟨(child, k), List.mem_zipIdx_iff_getElem?.2 hk, List.mem_map_of_mem ?_⟩
          exact ((h child (List.mem_of_getElem? hk)).mem_iff way).2 hsome

/-- At the ends of the ways lie the document and what lies at the ends of ways from its imports. -/
theorem ends_waysOver : g.ends id (g.waysOver waysOf id) =
    id :: (g.importsOf id).flatMap fun child => g.ends child (waysOf child) := by
  have hover : ∀ x ∈ (g.importsOf id).zipIdx,
      ((waysOf x.1).map (x.2 :: ·)).filterMap (g.wayEnd? id) = g.ends x.1 (waysOf x.1) := by
    intro x hx
    have hx : (g.importsOf id)[x.2]? = some x.1 := List.mem_zipIdx_iff_getElem?.1 hx
    rw [List.filterMap_map, ends]
    refine List.filterMap_congr fun way _ => ?_
    rw [Function.comp_apply, wayEnd?, hx, Option.bind_some]
  rw [ends, waysOver, List.filterMap_cons, wayEnd?, List.filterMap_flatMap,
    List.flatMap_congr hover, ← List.flatMap_map Prod.fst fun child => g.ends child (waysOf child),
    List.zipIdx_map_fst]

end

/-! ## Walks along ways -/

namespace Acyclic

/-- The walk that takes documents before their imports goes along the ways in their order. The one
    that takes them after their imports takes the same documents. -/
theorem exists_ways (h : g.Acyclic) (id : DocumentId) : ∃ ways, g.WaysFrom id ways ∧
    g.preorder id = (g.ends id ways).map g.document ∧
    (g.postorderFrom [] id).Perm ((g.ends id ways).map g.taken) := by
  induction id using h.wellFounded.induction with
  | _ id ih =>
    have hchild : ∀ child, ∃ ways, child ∈ g.importsOf id → g.WaysFrom child ways ∧
        g.preorder child = (g.ends child ways).map g.document ∧
        (g.postorderFrom [] child).Perm ((g.ends child ways).map g.taken) := by
      intro child
      by_cases hmem : child ∈ g.importsOf id
      · exact (ih child (importsDocument_iff.2 hmem)).imp fun _ hways _ => hways
      · exact ⟨[], fun h => absurd h hmem⟩
    choose waysOf hwaysOf using hchild
    refine ⟨g.waysOver waysOf id, waysFrom_waysOver fun child hmem => (hwaysOf child hmem).1, ?_,
      ?_⟩
    · rw [h.preorder_eq, ends_waysOver, List.map_cons, List.map_flatMap]
      exact congrArg _ (List.flatMap_congr fun child hmem => (hwaysOf child hmem).2.1)
    · rw [h.postorderFrom_eq, ends_waysOver, List.map_cons, List.map_flatMap]
      refine List.perm_append_comm.trans (List.Perm.cons _ ?_)
      exact List.Perm.flatMap_left _ fun child hmem => (hwaysOf child hmem).2.2

end Acyclic

/-- Whatever is taken, what it imports is taken before it. -/
def ImportsFirst (g : Graph) (steps : List (Except Dangling DocumentId)) : Prop :=
  ∀ before id after, steps = before ++ .ok id :: after →
    ∀ child ∈ g.importsOf id, g.taken child ∈ before

theorem ImportsFirst.append {steps later : List (Except Dangling DocumentId)}
    (h : g.ImportsFirst steps) (h' : g.ImportsFirst later) : g.ImportsFirst (steps ++ later) := by
  intro before id after hsplit child hchild
  rcases List.append_eq_append_iff.1 hsplit with ⟨more, rfl, hlater⟩ | ⟨more, hsteps, hafter⟩
  · exact List.mem_append_right _ (h' more id after hlater child hchild)
  · cases more with
    | nil =>
      rw [List.append_nil] at hsteps
      have := h' [] id after (by simpa using hafter.symm) child hchild
      cases this
    | cons step more =>
      cases hafter
      exact h before id more hsteps child hchild

theorem ImportsFirst.flatMap {f : DocumentId → List (Except Dangling DocumentId)}
    {ids : List DocumentId} (h : ∀ id ∈ ids, g.ImportsFirst (f id)) :
    g.ImportsFirst (ids.flatMap f) := by
  induction ids with
  | nil =>
    intro before id after hsplit
    simp at hsplit
  | cons id later ih =>
    rw [List.forall_mem_cons] at h
    exact h.1.append (ih h.2)

/-- A document may be taken last when what it imports was taken. -/
theorem ImportsFirst.concat {steps : List (Except Dangling DocumentId)} (h : g.ImportsFirst steps)
    {id : DocumentId} (hid : ∀ child ∈ g.importsOf id, g.taken child ∈ steps) :
    g.ImportsFirst (steps ++ [g.taken id]) := by
  intro before id' after hsplit child hchild
  rcases List.eq_nil_or_concat after with rfl | ⟨more, last, rfl⟩
  · obtain ⟨rfl, htaken⟩ := List.append_inj' hsplit rfl
    obtain ⟨_, _, rfl⟩ := exists_of_map_ok (List.singleton_inj.1 htaken)
    exact hid child hchild
  · rw [List.concat_eq_append, ← List.cons_append, ← List.append_assoc] at hsplit
    obtain ⟨hsteps, _⟩ := List.append_inj' hsplit rfl
    exact h before id' more hsteps child hchild

theorem Acyclic.importsFirst (h : g.Acyclic) (id : DocumentId) :
    g.ImportsFirst (g.postorderFrom [] id) := by
  induction id using h.wellFounded.induction with
  | _ id ih =>
    rw [h.postorderFrom_eq]
    refine (ImportsFirst.flatMap fun child hmem => ih child (importsDocument_iff.2 hmem)).concat ?_
    intro child hmem
    refine List.mem_flatMap.2 ⟨child, hmem, ?_⟩
    rw [h.postorderFrom_eq child]
    exact List.mem_append_right _ List.mem_cons_self

/-! ## Results of walks -/

/-- What a document answers when it is asked for a name, if anything: what its globals have under
    it, or, where there is no document, that there is none. -/
def answer? (g : Graph) (kind : Kind) (name : String) (id : DocumentId) :
    Option (Except Dangling DeclarationId) :=
  match g.document id with
  | .ok d => (d.globals.get? kind name).map .ok
  | .error dangling => some (.error dangling)

/-- The first document with an answer decides. -/
theorem firstKnown_eq_findSome? (kind : Kind) (name : String) (ids : List DocumentId) :
    firstKnown kind name (ids.map g.document) =
      match ids.findSome? (g.answer? kind name) with
      | some answer => answer.map some
      | none => .ok none := by
  induction ids with
  | nil => rfl
  | cons id later ih =>
    rw [List.map_cons, List.findSome?_cons, answer?]
    cases g.document id with
    | error dangling => rfl
    | ok d =>
      rw [firstKnown]
      dsimp only
      cases d.globals.get? kind name with
      | some known => rfl
      | none => exact ih

theorem exists_collect_eq_ok_iff {α : Type} {steps : List (Except Dangling α)} :
    (∃ as, collect steps = .ok as) ↔ ∀ step ∈ steps, ∃ a, step = .ok a := by
  constructor
  · rintro ⟨as, has⟩ step hstep
    rw [collect_eq_ok_iff.1 has] at hstep
    obtain ⟨a, _, rfl⟩ := List.mem_map.1 hstep
    exact ⟨a, rfl⟩
  · intro h
    induction steps with
    | nil => exact ⟨[], rfl⟩
    | cons step later ih =>
      rw [List.forall_mem_cons] at h
      obtain ⟨⟨a, rfl⟩, hlater⟩ := h
      obtain ⟨as, has⟩ := ih hlater
      exact ⟨a :: as, by rw [collect, has]; rfl⟩

theorem taken_eq_ok_iff {a b : DocumentId} :
    g.taken a = .ok b ↔ a = b ∧ ∃ d, g.document a = .ok d := by
  rw [taken]
  cases g.document a with
  | error dangling => simp [Except.map]
  | ok d => simp [Except.map]

section

variable {id : DocumentId} {ways : List (List Nat)}

theorem WaysFrom.mem_ends_iff (hways : g.WaysFrom id ways) {b : DocumentId} :
    b ∈ g.ends id ways ↔ ReflTransGen g.ImportsDocument id b := by
  rw [ends, List.mem_filterMap, reaches_iff_exists_way]
  constructor
  · rintro ⟨way, _, hway⟩
    exact ⟨way, hway⟩
  · rintro ⟨way, hway⟩
    exact ⟨way, (hways.mem_iff way).2 (by rw [hway]; rfl), hway⟩

/-- Documents can be taken after their imports exactly if all that are reached are there. -/
theorem WaysFrom.exists_postorder_iff (hways : g.WaysFrom id ways)
    (hperm : (g.postorderFrom [] id).Perm ((g.ends id ways).map g.taken)) :
    (∃ out, g.postorder id = .ok out) ↔
      ∀ b, ReflTransGen g.ImportsDocument id b → ∃ d, g.document b = .ok d := by
  rw [postorder, exists_collect_eq_ok_iff]
  constructor
  · intro h b hb
    obtain ⟨c, hc⟩ := h _ (hperm.mem_iff.2 (List.mem_map_of_mem (hways.mem_ends_iff.2 hb)))
    exact (taken_eq_ok_iff.1 hc).2
  · intro h step hstep
    obtain ⟨b, hb, rfl⟩ := List.mem_map.1 (hperm.mem_iff.1 hstep)
    exact ⟨b, taken_eq_ok_iff.2 ⟨rfl, h b (hways.mem_ends_iff.1 hb)⟩⟩

/-- What is taken lies at the ends of the ways. -/
theorem perm_ends_of_postorder (hperm : (g.postorderFrom [] id).Perm ((g.ends id ways).map g.taken))
    {out : List DocumentId} (hout : g.postorder id = .ok out) : out.Perm (g.ends id ways) := by
  rw [collect_eq_ok_iff.1 hout] at hperm
  have htaken : (g.ends id ways).map g.taken = (g.ends id ways).map .ok := by
    refine List.map_congr_left fun b hb => ?_
    obtain ⟨c, _, hc⟩ := List.mem_map.1 (hperm.mem_iff.2 (List.mem_map_of_mem hb))
    obtain ⟨rfl, _⟩ := taken_eq_ok_iff.1 hc.symm
    exact hc.symm
  rw [htaken] at hperm
  exact (List.map_perm_map_iff fun _ _ => Except.ok.inj).1 hperm

end

/-- Where imports are acyclic, in whatever order the documents were added and however often they
    are imported, walks over imports are what they are meant to be. Following imports ends: looking
    up a name and taking documents after their imports are the plain recursions, with no regard to
    what is on the way. There are finitely many ways from a document. A name is looked up at their
    ends in lexicographic order, depth first and each document before its imports, and the first
    answer decides. Documents can be taken after their imports exactly if every handle that is
    reached numbers one; then those that are reached are taken and no others, the first document
    last, what a document imports before every place at which it is taken, and each document as
    often as there are ways to it. -/
theorem walks_of_acyclic (h : g.Acyclic) (id : DocumentId) :
    WellFounded (Function.swap g.ImportsDocument) ∧
    (∀ kind name, g.lookup id kind name = (do
      let d ← g.document id
      match d.globals.get? kind name with
      | some known => return some known
      | none => d.imported.findSomeM? fun child => g.lookup child kind name)) ∧
    (g.postorder id = (do
      let d ← g.document id
      let below ← d.imported.mapM g.postorder
      return below.flatten ++ [id])) ∧
    ∃ ways, g.WaysFrom id ways ∧ g.preorder id = (g.ends id ways).map g.document ∧
      (∀ kind name, g.lookup id kind name =
        match (g.ends id ways).findSome? (g.answer? kind name) with
        | some answer => answer.map some
        | none => .ok none) ∧
      ((∃ out, g.postorder id = .ok out) ↔
        ∀ b, ReflTransGen g.ImportsDocument id b → ∃ d, g.document b = .ok d) ∧
      ∀ out, g.postorder id = .ok out →
        (∀ b, b ∈ out ↔ ReflTransGen g.ImportsDocument id b) ∧ out.getLast? = some id ∧
        (∀ before b after, out = before ++ b :: after → ∀ child ∈ g.importsOf b, child ∈ before) ∧
        ∀ b, out.count b = ways.countP fun way => g.wayEnd? id way == some b := by
  obtain ⟨ways, hways, hpreorder, hperm⟩ := h.exists_ways id
  refine ⟨h.wellFounded, h.lookup_eq id, h.postorder_eq id, ways, hways, hpreorder,
    fun kind name => ?_, hways.exists_postorder_iff hperm, fun out hout => ?_⟩
  · rw [lookup, hpreorder, firstKnown_eq_findSome?]
  have hends := perm_ends_of_postorder hperm hout
  have hsteps := collect_eq_ok_iff.1 hout
  refine ⟨fun b => hends.mem_iff.trans hways.mem_ends_iff, ?_, ?_, fun b => ?_⟩
  · rw [h.postorderFrom_eq] at hsteps
    have hlast := congrArg List.getLast? hsteps
    rw [List.getLast?_concat, List.getLast?_map] at hlast
    obtain ⟨b, hb, htaken⟩ := Option.map_eq_some_iff.1 hlast.symm
    rw [hb, (taken_eq_ok_iff.1 htaken.symm).1]
  · rintro before b after rfl child hchild
    rw [List.map_append, List.map_cons] at hsteps
    obtain ⟨c, hc, htaken⟩ := List.mem_map.1 (h.importsFirst id _ b _ hsteps child hchild)
    rwa [(taken_eq_ok_iff.1 htaken.symm).1]
  · rw [hends.count_eq, ends, List.count_eq_countP, List.countP_filterMap]
    refine List.countP_congr fun way _ => ?_
    cases g.wayEnd? id way <;> simp

/-- A document that imports another one twice and what that imports as well, added after both. -/
def sharedImports : List Operation :=
  [.insert { header := { name := "a" }, definitions := [flag] },
    .insert { header := { name := "b" }, definitions := [flag] },
    .insert { header := { name := "c" } },
    .addImport (.ofIndex 2) (.ofIndex 1), .addImport (.ofIndex 2) (.ofIndex 0),
    .addImport (.ofIndex 2) (.ofIndex 1), .addImport (.ofIndex 1) (.ofIndex 0)]
where
  flag : Drafted := ⟨.everywhere, { name := "x", body := .flag {} }⟩

theorem acyclic_sharedImports : (build sharedImports).Acyclic := by
  have hsize : (build sharedImports).documents.size = 3 := by decide +kernel
  have hkey : ∀ i < 3, ∀ child ∈ (build sharedImports).importsOf (.ofIndex i), child.index < i := by
    decide +kernel
  refine not_transGen_self Handle.index fun a b hab => ?_
  have hlt : a.index < 3 := by
    obtain ⟨d, hd, _⟩ := hab
    exact hsize ▸ (Array.getElem?_eq_some_iff.1 hd).1
  have hb := importsDocument_iff.1 hab
  rw [← Handle.ofIndex_index a] at hb
  exact hkey a.index hlt b hb

theorem walks_sharedImports :
    (build sharedImports).lookup (.ofIndex 2) .flag "x" = .ok (some (.ofIndex 1)) ∧
      (build sharedImports).postorder (.ofIndex 2) =
        .ok ([0, 1, 0, 0, 1, 2].map .ofIndex) ∧
      ∃ ways, (build sharedImports).WaysFrom (.ofIndex 2) ways ∧
        (ways.countP fun way =>
          (build sharedImports).wayEnd? (.ofIndex 2) way == some (.ofIndex 0)) = 3 := by
  have hkey : (build sharedImports).lookup (.ofIndex 2) .flag "x" = .ok (some (.ofIndex 1)) ∧
      (build sharedImports).postorder (.ofIndex 2) =
        .ok ([0, 1, 0, 0, 1, 2].map .ofIndex) := by
    decide +kernel
  obtain ⟨_, _, _, ways, hways, _, _, _, hout⟩ :=
    walks_of_acyclic acyclic_sharedImports (.ofIndex 2)
  refine ⟨hkey.1, hkey.2, ways, hways, ?_⟩
  rw [← (hout _ hkey.2).2.2.2 (.ofIndex 0)]
  decide +kernel

end SchemaFamily.Graph
