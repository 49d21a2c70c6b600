import SchemaFamily.Family.Link
import SchemaFamily.Proofs.Family.Standing
import SchemaFamily.Proofs.Offsets

/-
  Shifted handles. A document or a declaration is shifted when every handle in it is that of a
  thing some places later (`Document.shift`, `Declaration.shift`). What a tree adds to a graph is
  the same up to such a shift wherever it is added (`documents_shift`, `declarations_shift`), so a
  family contains the families of its parts (`contains_of_stands`). This needs names that are not
  resolved yet, since adding a draft shifts the handles of inline usages only.
-/

namespace SchemaFamily

/-! ## Shifting what holds handles -/

namespace Handle

variable {arena : Arena}

/-- Shared last handles are shared after a shift as well. -/
@[simp]
theorem offset_ofIndex (i n : Nat) : (ofIndex i : Handle arena).offset n = ofIndex (i + n) := by
  refine ext ?_
  rw [offset, index_ofIndex, index_ofIndex, index_ofIndex]
  omega

theorem index_offset_of_le {h : Handle arena} {n : Nat} (hn : h.index + n ≤ maxIndex) :
    (h.offset n).index = h.index + n := index_ofIndex_of_le hn

theorem offset_inj {a b : Handle arena} {n : Nat} (ha : a.index + n ≤ maxIndex)
    (hb : b.index + n ≤ maxIndex) (h : a.offset n = b.offset n) : a = b := by
  have := congrArg Handle.index h
  rw [index_offset_of_le ha, index_offset_of_le hb] at this
  exact ext (by omega)

end Handle

/-- The usage of the declaration `count` places later, if it is known what is used. -/
def Usage.shift (u : Usage) (count : Nat) : Usage :=
  match u.target with
  | .inline declaration => { u with target := .inline (declaration.offset count) }
  | .reference name resolved =>
    { u with target := .reference name (resolved.map (·.offset count)) }

/-- The definition with its usages shifted. -/
def Definition.shift (d : Definition) (count : Nat) : Definition := d.mapUsages (·.shift count)

/-- The declaration after as many documents and declarations more. -/
def Declaration.shift (d : Declaration) (documents declarations : Nat) : Declaration :=
  { d with
    id := d.id.offset declarations
    owner := d.owner.offset documents
    definition := d.definition.shift declarations }

/-- What names stand for after as many declarations more. -/
def Globals.shift (g : Globals) (count : Nat) : Globals :=
  ⟨g.entries.map fun (key, id) => (key, id.offset count)⟩

/-- The dependency after as many declarations more; multiplexers keep their handles. -/
def Dependency.shift (count : Nat) : Dependency → Dependency
  | .declaration id => .declaration (id.offset count)
  | .multiplexer id => .multiplexer id

/-- The entry with its dependency shifted. -/
def DependencyEntry.shift (entry : DependencyEntry) (count : Nat) : DependencyEntry :=
  { entry with dependency := entry.dependency.shift count }

/-- The dependencies after as many declarations more. -/
def Dependencies.shift (d : Dependencies) (count : Nat) : Dependencies :=
  ⟨d.entries.map (·.shift count)⟩

/-- The document after as many documents and declarations more. -/
def Document.shift (d : Document) (documents declarations : Nat) : Document :=
  { d with
    id := d.id.offset documents
    assemblies := d.assemblies.map (·.offset declarations)
    fields := d.fields.map (·.offset declarations)
    flags := d.flags.map (·.offset declarations)
    inline := d.inline.map (·.offset declarations)
    imported := d.imported.map (·.offset documents)
    dependencies := d.dependencies.shift declarations
    globals := d.globals.shift declarations }

namespace Usage

@[simp]
theorem kind_shift (u : Usage) (count : Nat) : (u.shift count).kind = u.kind := by
  rcases u with ⟨kind, target | target⟩ <;> rfl

@[simp]
theorem pendingName?_shift (u : Usage) (count : Nat) :
    (u.shift count).pendingName? = u.pendingName? := by
  rcases u with ⟨kind, ⟨name, _ | _⟩ | declaration⟩ <;> rfl

@[simp]
theorem position_shift (u : Usage) (count : Nat) : (u.shift count).position = u.position := by
  rcases u with ⟨kind, target | target⟩ <;> rfl

theorem shift_resolve (u : Usage) (t : DeclarationId) (count : Nat) :
    (u.resolve t).shift count = (u.shift count).resolve (t.offset count) := by
  rcases u with ⟨kind, ⟨name, _ | _⟩ | declaration⟩ <;> rfl

theorem shift_rebase {u : Usage} (h : u.Fresh) (first count : Nat) :
    (u.rebase first).shift count = u.rebase (first + count) := by
  rcases u with ⟨kind, ⟨name, _ | declaration⟩ | declaration⟩
  · rfl
  · exact absurd rfl (h name declaration)
  · simp [rebase, shift, Handle.offset_offset]

end Usage

namespace Definition

@[simp]
theorem name_shift (d : Definition) (count : Nat) : (d.shift count).name = d.name := rfl

theorem kind_mapUsages (f : Usage → Usage) (d : Definition) : (d.mapUsages f).kind = d.kind := by
  rw [mapUsages_eq_mapSlots, kind_mapSlots]

@[simp]
theorem kind_shift (d : Definition) (count : Nat) : (d.shift count).kind = d.kind :=
  kind_mapUsages _ d

theorem usages_shift (d : Definition) (count : Nat) :
    (d.shift count).usages = d.usages.map fun su => (su.1, su.2.shift count) := by
  rw [shift, mapUsages_eq_mapSlots, usages_mapSlots]

theorem shift_rebase {d : Definition} (h : d.Fresh) (first count : Nat) :
    (d.rebase first).shift count = d.rebase (first + count) := by
  simp only [shift, rebase, mapUsages_eq_mapSlots, mapSlots_mapSlots]
  exact mapSlots_congr fun su hsu => Usage.shift_rebase (h su hsu) first count

/-- The same names are to be resolved at the same slots. -/
@[simp]
theorem pending_shift (d : Definition) (count : Nat) : (d.shift count).pending = d.pending := by
  rw [pending, usages_shift, List.filterMap_map, pending]
  refine congrArg (fun f => d.usages.filterMap f) (funext fun su => ?_)
  simp

end Definition

namespace Declaration

variable (d : Declaration) (n m : Nat)

@[simp]
theorem name_shift : (d.shift n m).name = d.name := rfl

@[simp]
theorem kind_shift : (d.shift n m).kind = d.kind := Definition.kind_shift d.definition m

end Declaration

namespace Globals

theorem get?_shift (g : Globals) (count : Nat) (kind : Kind) (name : String) :
    (g.shift count).get? kind name = (g.get? kind name).map (·.offset count) := by
  rw [get?, get?, shift]
  induction g.entries with
  | nil => rfl
  | cons entry later ih =>
    rw [List.map_cons, List.lookup_cons, List.lookup_cons]
    dsimp only
    split
    · rfl
    · exact ih

theorem shift_register (g : Globals) (count : Nat) (kind : Kind) (name : String)
    (id : DeclarationId) :
    (g.register kind name id).shift count =
      (g.shift count).register kind name (id.offset count) := by
  have hcontains : (g.shift count).contains kind name = g.contains kind name := by
    rw [contains, contains, get?_shift, Option.isSome_map]
  rw [register, register, hcontains]
  split
  · rfl
  · simp [shift]

end Globals

namespace Document

variable (d : Document) (n m : Nat)

theorem owned_shift : (d.shift n m).owned = d.owned.map (·.offset m) := by
  simp [owned, shift]

theorem shift_adopt (declaration : Declaration) :
    (d.adopt declaration).shift n m = (d.shift n m).adopt (declaration.shift n m) := by
  have hscope : (declaration.shift n m).scope = declaration.scope := rfl
  unfold adopt
  rw [hscope, Declaration.kind_shift]
  cases declaration.scope with
  | inline => simp [shift, Declaration.shift]
  | everywhere =>
    cases declaration.kind <;>
      simp [shift, Globals.shift_register, Declaration.shift, Declaration.name]

theorem shift_foldl_adopt (declarations : List Declaration) :
    (declarations.foldl adopt d).shift n m =
      (declarations.map (·.shift n m)).foldl adopt (d.shift n m) := by
  induction declarations generalizing d with
  | nil => rfl
  | cons declaration later ih =>
    rw [List.foldl_cons, ih, shift_adopt, List.map_cons, List.foldl_cons]

end Document

/-! ## Shifting what a tree adds -/

theorem Graph.placed_shift {definitions : List Drafted}
    (h : ∀ drafted ∈ definitions, drafted.definition.Fresh) (i first n m : Nat) :
    placed (.ofIndex (i + n)) (first + m) definitions =
      (placed (.ofIndex i) first definitions).map (·.shift n m) := by
  rw [placed, placed, List.map_map]
  refine List.map_congr_left fun drafted hd => ?_
  have hfresh := h drafted.1 (List.fst_mem_of_mem_zipIdx hd)
  simp only [Function.comp_apply, Declaration.shift, Handle.offset_ofIndex,
    Definition.shift_rebase hfresh, Nat.add_right_comm]

theorem Draft.document_shift {draft : Draft} (h : draft.Fresh) (i first n m : Nat) :
    draft.document (.ofIndex (i + n)) (first + m) =
      (draft.document (.ofIndex i) first).shift n m := by
  rw [document, document, Document.shift_foldl_adopt, Graph.placed_shift h]
  simp [Document.shift, Globals.shift, Dependencies.shift]

namespace ImportTree

theorem roots_shift (i n : Nat) (trees : List ImportTree) :
    roots (i + n) trees = (roots i trees).map (·.offset n) := by
  induction trees generalizing i with
  | nil => rfl
  | cons tree later ih =>
    rw [roots, roots, List.map_cons, Handle.offset_ofIndex, Nat.add_right_comm, ih]

mutual

/-- A tree adds the same documents wherever it is added, up to a shift. -/
theorem documents_shift : ∀ (tree : ImportTree), (∀ draft ∈ tree.drafts, draft.Fresh) →
    ∀ i first n m, tree.documents (i + n) (first + m) =
      (tree.documents i first).map (·.shift n m)
  | .node draft imports, h, i, first, n, m => by
    have hdraft := Draft.document_shift (h draft List.mem_cons_self) i first n m
    rw [documents, documents, List.map_cons, Nat.add_right_comm i, Nat.add_right_comm first,
      documentsOf_shift imports (fun d hd => h d (List.mem_cons_of_mem _ hd)), roots_shift, hdraft]
    rfl

theorem documentsOf_shift : ∀ (trees : List ImportTree),
    (∀ draft ∈ draftsOf trees, draft.Fresh) →
      ∀ i first n m, documentsOf (i + n) (first + m) trees =
        (documentsOf i first trees).map (·.shift n m)
  | [], _, _, _, _, _ => rfl
  | tree :: later, h, i, first, n, m => by
    rw [documentsOf, documentsOf, List.map_append, Nat.add_right_comm i, Nat.add_right_comm first,
      documents_shift tree (fun d hd => h d (List.mem_append_left _ hd)),
      documentsOf_shift later fun d hd => h d (List.mem_append_right _ hd)]

end

mutual

/-- A tree adds the same declarations wherever it is added, up to a shift. -/
theorem declarations_shift : ∀ (tree : ImportTree), (∀ draft ∈ tree.drafts, draft.Fresh) →
    ∀ i first n m, tree.declarations (i + n) (first + m) =
      (tree.declarations i first).map (·.shift n m)
  | .node draft imports, h, i, first, n, m => by
    rw [declarations, declarations, List.map_append, Nat.add_right_comm i,
      Nat.add_right_comm first, Graph.placed_shift (h draft List.mem_cons_self),
      declarationsOf_shift imports fun d hd => h d (List.mem_cons_of_mem _ hd)]

theorem declarationsOf_shift : ∀ (trees : List ImportTree),
    (∀ draft ∈ draftsOf trees, draft.Fresh) →
      ∀ i first n m, declarationsOf (i + n) (first + m) trees =
        (declarationsOf i first trees).map (·.shift n m)
  | [], _, _, _, _, _ => rfl
  | tree :: later, h, i, first, n, m => by
    rw [declarationsOf, declarationsOf, List.map_append, Nat.add_right_comm i,
      Nat.add_right_comm first,
      declarations_shift tree (fun d hd => h d (List.mem_append_left _ hd)),
      declarationsOf_shift later fun d hd => h d (List.mem_append_right _ hd)]

end

end ImportTree

/-! ## Families in a family -/

namespace Graph

/-- The documents and declarations of `part` stand in `g` after `n` documents and `m` declarations,
    with their handles shifted. -/
structure Contains (g part : Graph) (n m : Nat) : Prop where
  document : ∀ {i : Nat} {d : Document}, part.documents[i]? = some d →
    g.documents[i + n]? = some (d.shift n m)
  declaration : ∀ {i : Nat} {d : Declaration}, part.declarations[i]? = some d →
    g.declarations[i + m]? = some (d.shift n m)

section

variable {tree part : ImportTree} {walk : List Nat} {i first : Nat}

theorem addressable_of_stands (ha : (ofTree tree).Addressable)
    (h : ImportTree.Stands tree walk i first part) : (ofTree part).Addressable := by
  obtain ⟨before, after, hdeclarations, _⟩ := h.declarations_eq 0 0
  have hcount := congrArg List.length hdeclarations
  have hle := h.length_le
  have htree := numbers_ofTree tree
  have hpart := numbers_ofTree part
  rw [List.length_append, List.length_append, ImportTree.length_declarations,
    ImportTree.length_declarations] at hcount
  refine ⟨?_, ?_⟩
  · have := ha.1
    rw [htree.size_documents] at this
    rw [hpart.size_documents]
    omega
  · have := ha.2
    rw [htree.size_declarations] at this
    rw [hpart.size_declarations]
    omega

/-- A family contains the family of each of its parts. -/
theorem contains_of_stands (hf : ∀ draft ∈ part.drafts, draft.Fresh)
    (ha : (ofTree tree).Addressable) (h : ImportTree.Stands tree walk i first part) :
    (ofTree tree).Contains (ofTree part) i first := by
  have ha' := addressable_of_stands ha h
  have hdocuments := ImportTree.documents_shift part hf 0 0 i first
  have hdeclarations := ImportTree.declarations_shift part hf 0 0 i first
  rw [Nat.zero_add, Nat.zero_add] at hdocuments hdeclarations
  refine ⟨fun {j d} hd => ?_, fun {j d} hd => ?_⟩
  · have hlt := (Array.getElem?_eq_some_iff.1 hd).1
    rw [size_documents_ofTree ha'] at hlt
    rw [Nat.add_comm, getElem?_documents_of_stands ha h hlt, hdocuments, List.getElem?_map,
      ← documents_ofTree ha', Array.getElem?_toList, hd]
    rfl
  · have hlt := (Array.getElem?_eq_some_iff.1 hd).1
    rw [(numbers_ofTree part).size_declarations] at hlt
    rw [Nat.add_comm, getElem?_declarations_of_stands ha h hlt, hdeclarations, List.getElem?_map,
      ← declarations_ofTree ha', Array.getElem?_toList, hd]
    rfl

end

end Graph

end SchemaFamily
