import Mathlib.Data.List.Nodup
import SchemaFamily.Proofs.Family.Linking
import SchemaFamily.Proofs.Family.Shifting

/-
  Settling a family inside another. Where one family in order contains another, a name denotes in
  a contained document what it denotes there, shifted (`denotation?_shift`), because the row of
  documents below it is contained as well (`spans_shift`). So settling all references of both
  keeps the one in the other (`contains_settled`), and no reference of the contained family has a
  fault if none of the other has (`fault?_of_contains`).
-/

namespace SchemaFamily

/-- The reference after as many documents and declarations more. -/
def Reference.shift (r : Reference) (documents declarations : Nat) : Reference :=
  { r with
    document := r.document.offset documents
    declaration := r.declaration.offset declarations }

theorem Declaration.references_shift (d : Declaration) (n m : Nat) :
    (d.shift n m).references = d.references.map (·.shift n m) := by
  have hpending : (d.shift n m).definition.pending = d.definition.pending :=
    Definition.pending_shift d.definition m
  rw [references_eq, references_eq, List.map_map, hpending]
  rfl

namespace Dependencies

theorem contains_shift (d : Dependencies) (count : Nat) (nameSpace : Namespace) (name : String) :
    (d.shift count).contains nameSpace name = d.contains nameSpace name := by
  rw [contains, contains, get?, get?, shift, List.find?_map, Option.map_map, Option.isSome_map,
    Option.isSome_map]
  rfl

theorem insertInto_shift (entry : DependencyEntry) (count : Nat) (es : List DependencyEntry) :
    (entry.shift count).insertInto (es.map (·.shift count)) =
      (entry.insertInto es).map (·.shift count) := by
  induction es with
  | nil => rfl
  | cons e later ih =>
    have hbefore : (entry.shift count).before (e.shift count) = entry.before e := rfl
    rw [List.map_cons, DependencyEntry.insertInto, DependencyEntry.insertInto, hbefore]
    split
    · rfl
    · rw [ih, List.map_cons]

theorem add_shift (d : Dependencies) (entry : DependencyEntry) (count : Nat) :
    (d.shift count).add (entry.shift count) = (d.add entry).shift count := by
  rw [add, add, register, register]
  have hcontains := d.contains_shift count entry.nameSpace entry.name
  have hkey : (entry.shift count).nameSpace = entry.nameSpace ∧
      (entry.shift count).name = entry.name := ⟨rfl, rfl⟩
  rw [hkey.1, hkey.2, hcontains]
  split
  · rfl
  · exact congrArg Dependencies.mk (insertInto_shift entry count d.entries)

theorem foldl_add_shift (d : Dependencies) (entries : List DependencyEntry) (count : Nat) :
    (entries.map (·.shift count)).foldl add (d.shift count) =
      (entries.foldl add d).shift count := by
  induction entries generalizing d with
  | nil => rfl
  | cons entry later ih => rw [List.map_cons, List.foldl_cons, add_shift, ih, List.foldl_cons]

end Dependencies

namespace Graph

/-! ## All references of a family -/

section

variable {g : Graph} (h : g.InOrder)

include h

/-- Settling all references settles every usage. -/
theorem settleDeclaration_references {d : Declaration} (hd : d ∈ g.declarations) :
    g.settleDeclaration g.references d =
      { d with definition := d.definition.mapUsages (g.settleUsage d.owner) } := by
  rw [settleDeclaration, Definition.mapUsages_eq_mapSlots]
  refine congrArg (fun definition => { d with definition }) ?_
  refine Definition.mapSlots_congr fun su hsu => ?_
  split
  · rfl
  · next hnot =>
    -- a usage that is no reference has no name to resolve
    cases hname : su.2.pendingName? with
    | none => rw [settleUsage, hname, Option.bind_none]
    | some name =>
      refine absurd ?_ hnot
      have hp : (⟨su.1, su.2.kind, name, su.2.position⟩ : Pending) ∈ d.definition.pending :=
        mem_pending.2 ⟨su.2, hsu, rfl, hname, rfl⟩
      have hr : (⟨d.owner, d.id, ⟨su.1, su.2.kind, name, su.2.position⟩⟩ : Reference) ∈
          g.references :=
        (mem_references_iff h).2 ⟨d, hd, Declaration.mem_references_iff.2 ⟨_, hp, rfl⟩⟩
      exact List.mem_map.2 ⟨_, hr, rfl⟩

/-- The references of one document are those of its declarations. -/
theorem filter_references {document : DocumentId} (hlt : document.index < g.documents.size) :
    g.references.filter (·.document == document) =
      (g.holdings document).flatMap Declaration.references := by
  rw [← referencesOf_singleton]
  exact filter_referencesOf h.arranged (fun _ => h.arranged.mem_ids_iff.1) h.arranged.nodup_ids
    (h.arranged.mem_ids_iff.2 hlt)

end

/-! ## What names denote -/

theorem handles_shift (i k n : Nat) :
    handles (i + n) (k + n) = (handles i k).map (·.offset n) := by
  rw [handles, handles, List.map_map, Nat.add_sub_add_right, Nat.add_comm i n,
    ← List.map_add_range', List.map_map]
  refine List.map_congr_left fun j _ => ?_
  simp [Nat.add_comm]

section

variable {g part : Graph} {n m : Nat}

theorem spans_shift (hc : g.Contains part n m) (h : g.Arranged) {ids : List DocumentId} {i k : Nat}
    (hs : part.Spans ids i k) : g.Spans (ids.map (·.offset n)) (i + n) (k + n) := by
  induction hs with
  | nil i => exact .nil _
  | @cons id d ids i j k hid hd _ _ ihbelow ihlater =>
    have hd' := hc.document hd
    have hmax := h.document_index hd' ▸ (d.shift n m).id.index_le
    refine .cons ?_ hd' ?_ ihlater
    · rw [Handle.index_offset_of_le (by omega), hid]
    · rw [Nat.add_right_comm]
      exact ihbelow

variable (h : g.InOrder) (hp : part.InOrder) (hc : g.Contains part n m)

include h hp hc

/-- What a name denotes in a contained document is contained. -/
theorem denotation?_shift {document : DocumentId} (hlt : document.index < part.documents.size)
    (kind : Kind) (name : String) :
    g.denotation? (document.offset n) kind name =
      (part.denotation? document kind name).map (·.shift n m) := by
  obtain ⟨l, hl, hs⟩ := hp.spans.of_mem (Nat.zero_le _) hlt
  rw [Handle.ofIndex_index] at hs
  have hs' := spans_shift hc h.arranged hs
  rw [List.map_singleton] at hs'
  have hown : ∀ id ∈ handles document.index l,
      g.ownGlobal? kind name (id.offset n) = (part.ownGlobal? kind name id).map (·.offset m) := by
    intro id hid
    obtain ⟨j, hj, rfl⟩ := List.mem_map.1 hid
    obtain ⟨h₁, h₂⟩ := List.mem_range'_1.1 hj
    obtain ⟨d, hd⟩ := hs.exists_document h₁ (by omega)
    have hd' := hc.document hd
    have hmax := h.arranged.document_index hd' ▸ (d.shift n m).id.index_le
    rw [ownGlobal?, ownGlobal?, Handle.offset_ofIndex, Handle.index_ofIndex_of_le hmax,
      hs.index_ofIndex h₁ (by omega), hd, hd', Option.bind_some, Option.bind_some]
    exact d.globals.get?_shift m kind name
  have hlookup : g.lookup (document.offset n) kind name =
      .ok ((part.denotation? document kind name).map fun t => t.id.offset m) := by
    have hpart := hp.lookup_eq hlt kind name
    rw [lookup_of_spans hs] at hpart
    rw [lookup_of_spans hs', handles_shift, List.findSome?_map]
    refine congrArg Except.ok ?_
    have hids := congrArg (Option.map fun id => Handle.offset id m) (Except.ok.inj hpart)
    rw [List.map_findSome?, Option.map_map] at hids
    exact (findSome?_congr hown).trans hids
  rw [denotation?, hlookup]
  cases ht : part.denotation? document kind name with
  | none => rfl
  | some t =>
    have htm := ((hp.denotation?_eq_some_iff hlt).1 ht).mem.1
    have ht' := hc.declaration (hp.arranged.getElem?_id htm)
    have hmax := h.arranged.declaration_index ht' ▸ (t.shift n m).id.index_le
    dsimp only [Option.map_some]
    rw [Handle.index_offset_of_le hmax, ht']

/-! ## Settled references -/

theorem settleUsage_shift {document : DocumentId} (hlt : document.index < part.documents.size)
    (u : Usage) :
    g.settleUsage (document.offset n) (u.shift m) = (part.settleUsage document u).shift m := by
  rw [settleUsage, settleUsage, Usage.pendingName?_shift, Usage.kind_shift]
  cases u.pendingName? with
  | none => rfl
  | some name =>
    rw [Option.bind_some, Option.bind_some, denotation?_shift h hp hc hlt]
    cases part.denotation? document u.kind name with
    | none => rfl
    | some t => exact (u.shift_resolve t.id m).symm

theorem settleDeclaration_shift {d : Declaration} (hd : d ∈ part.declarations) :
    g.settleDeclaration g.references (d.shift n m) =
      (part.settleDeclaration part.references d).shift n m := by
  have hd' := hc.declaration (hp.arranged.getElem?_id hd)
  rw [settleDeclaration_references h (Array.mem_of_getElem? hd'),
    settleDeclaration_references hp hd]
  simp only [Declaration.shift, Definition.shift, Definition.mapUsages_eq_mapSlots,
    Definition.mapSlots_mapSlots, settleUsage_shift h hp hc (hp.arranged.owner_lt hd)]

theorem holdings_shift {document : DocumentId} (hlt : document.index < part.documents.size) :
    g.holdings (document.offset n) = (part.holdings document).map (·.shift n m) := by
  have hd := Array.getElem?_eq_getElem hlt
  have hd' := hc.document hd
  have hmax := h.arranged.document_index hd' ▸
    (part.documents[document.index].shift n m).id.index_le
  have hfound : ∀ id ∈ part.documents[document.index].owned,
      g.declarations[(id.offset m).index]? =
        part.declarations[id.index]?.map (·.shift n m) := by
    intro id hid
    obtain ⟨a, ha, rfl⟩ := List.mem_map.1 ((hp.arranged.owned_perm hd).mem_iff.1 hid)
    have ha' := hp.arranged.getElem?_id (Array.mem_toList_iff.1 (List.mem_filter.1 ha).1)
    have hshift := hc.declaration ha'
    have hamax := h.arranged.declaration_index hshift ▸ (a.shift n m).id.index_le
    rw [Handle.index_offset_of_le hamax, hshift, ha', Option.map_some]
  have hmoved : g.documents[(document.offset n).index]? = _ :=
    (congrArg (g.documents[·]?) (Handle.index_offset_of_le hmax)).trans hd'
  rw [holdings_of_getElem? hmoved, holdings_of_getElem? hd]
  rw [Document.owned_shift, List.filterMap_map, List.map_filterMap]
  exact List.filterMap_congr hfound

theorem dependency?_shift {r : Reference} (hlt : r.document.index < part.documents.size) :
    g.dependency? (r.shift n m) = (part.dependency? r).map (·.shift m) := by
  have htarget : g.target? (r.shift n m) = (part.target? r).map (·.shift n m) :=
    denotation?_shift h hp hc hlt _ _
  rw [dependency?, dependency?, htarget]
  cases ht : part.target? r with
  | none => rfl
  | some t =>
    have htm := ((hp.denotation?_eq_some_iff hlt).1 ht).mem.1
    have hindex : ∀ id : DocumentId, id.index < part.documents.size →
        id.index + n ≤ maxIndex := by
      intro id hid
      have hd' := hc.document (Array.getElem?_eq_getElem hid)
      exact h.arranged.document_index hd' ▸ Handle.index_le _
    have howner : (t.shift n m).owner = (r.shift n m).document ↔ t.owner = r.document :=
      ⟨Handle.offset_inj (hindex _ (hp.arranged.owner_lt htm)) (hindex _ hlt),
        congrArg (Handle.offset · n)⟩
    rw [Option.map_some, Option.bind_some, Option.bind_some]
    by_cases ho : t.owner = r.document
    · rw [if_pos ho, if_pos (howner.2 ho)]
      rfl
    · rw [if_neg ho, if_neg fun e => ho (howner.1 e), Declaration.kind_shift]
      rfl

theorem settleDocument_shift {d : Document} (hd : d ∈ part.documents) :
    g.settleDocument g.references (d.shift n m) =
      (part.settleDocument part.references d).shift n m := by
  have hdoc := hp.arranged.document_getElem?_id hd
  have hlt := (Array.getElem?_eq_some_iff.1 hdoc).1
  have hdoc' := hc.document hdoc
  have hlt' : (d.shift n m).id.index < g.documents.size :=
    h.arranged.document_index hdoc' ▸ (Array.getElem?_eq_some_iff.1 hdoc').1
  have hreferences : g.references.filter (·.document == (d.shift n m).id) =
      (part.references.filter (·.document == d.id)).map (·.shift n m) := by
    rw [filter_references h hlt', filter_references hp hlt]
    show (g.holdings (d.id.offset n)).flatMap Declaration.references = _
    rw [holdings_shift h hp hc hlt, List.flatMap_map, List.map_flatMap]
    exact congrArg (fun f => (part.holdings d.id).flatMap f)
      (funext fun a => a.references_shift n m)
  have hentries : (g.references.filter (·.document == (d.shift n m).id)).filterMap g.dependency? =
      ((part.references.filter (·.document == d.id)).filterMap part.dependency?).map
        (·.shift m) := by
    rw [hreferences, List.filterMap_map, List.map_filterMap]
    refine List.filterMap_congr fun r hr => ?_
    have hdocument : r.document = d.id := beq_iff_eq.1 (List.mem_filter.1 hr).2
    exact dependency?_shift h hp hc (hdocument ▸ hlt)
  have hdependencies : (((part.references.filter (·.document == d.id)).filterMap
      part.dependency?).map (·.shift m)).foldl .add (d.shift n m).dependencies =
        (part.settleDocument part.references d).dependencies.shift m :=
    d.dependencies.foldl_add_shift _ m
  rw [settleDocument, hentries, hdependencies]
  rfl

/-- A family in which all references are settled contains what it contained, settled. -/
theorem contains_settled :
    (g.settled g.references).Contains (part.settled part.references) n m := by
  refine ⟨fun {i d} hd => ?_, fun {i d} hd => ?_⟩
  · rw [getElem?_settled_documents, Option.map_eq_some_iff] at hd
    obtain ⟨d, hd, rfl⟩ := hd
    rw [getElem?_settled_documents, hc.document hd, Option.map_some,
      settleDocument_shift h hp hc (Array.mem_of_getElem? hd)]
  · rw [getElem?_settled_declarations, Option.map_eq_some_iff] at hd
    obtain ⟨d, hd, rfl⟩ := hd
    rw [getElem?_settled_declarations, hc.declaration hd, Option.map_some,
      settleDeclaration_shift h hp hc (Array.mem_of_getElem? hd)]

/-- No reference of a contained family has a fault if none of the whole has. -/
theorem fault?_of_contains (hok : ∀ r ∈ g.references, g.fault? r = none) :
    ∀ r ∈ part.references, part.fault? r = none := by
  intro r hr
  obtain ⟨d, hd, hrd⟩ := (mem_references_iff hp).1 hr
  have hd' := Array.mem_of_getElem? (hc.declaration (hp.arranged.getElem?_id hd))
  have hrd' : r.shift n m ∈ (d.shift n m).references := by
    rw [Declaration.references_shift]
    exact List.mem_map_of_mem hrd
  have hnone := hok _ ((mem_references_iff h).2 ⟨_, hd', hrd'⟩)
  obtain ⟨t, ht⟩ := exists_target h hd' hrd' hnone
  have hlt := hp.arranged.owner_lt hd
  have hshift := (denotation?_shift h hp hc hlt r.pending.kind r.pending.name).symm.trans ht
  obtain ⟨t', ht', _⟩ := Option.map_eq_some_iff.1 hshift
  rw [fault?, target?, (mem_references hrd).2.1, ht']

end

/-- A family without faults is linked. -/
theorem apply_link (h : g.InOrder) (hok : ∀ r ∈ g.references, g.fault? r = none) :
    ∃ n, link.apply g = (.ok n, g.settled g.references) := by
  have hruns := runs_link h
  unfold Pass.Runs at hruns
  rw [List.findSome?_eq_none_iff.2 hok, settled_nil] at hruns
  obtain ⟨n, hn, _⟩ := hruns
  exact ⟨n, hn⟩

end Graph

end SchemaFamily
