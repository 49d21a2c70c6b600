import Mathlib.Data.List.Induction
import Mathlib.Data.List.Nodup
import SchemaFamily.Proofs.Draft.Defined
import SchemaFamily.Proofs.Draft.Extent

/-
  Drafts that were read are well formed, and their definitions are known from the text
  (`Draft.definitions_of_read`). Every reader adds the definitions of the elements it reads, and
  what it returns are usages in hand of the inline ones among them (`Draws`). The rules go step by
  step, with what was in hand before kept aside (`Draws.frame`), so each reader needs one lemma and
  the document is read from nothing in hand to nothing in hand.
-/

namespace SchemaFamily

open Xml

/-! ## What a reading adds -/

/-- Reading with `held` in hand adds what the elements `made` define, and the inline targets in hand
    are then those that `uses` tells of the result, which is as `good` says. -/
def Draws {α : Type} (held : List (Kind × DeclarationId)) (r : Reading α) (made : List Defining)
    (uses : α → List (Kind × DeclarationId)) (good : α → Prop) : Prop :=
  ∀ before aside, Yields (Drawn before (aside ++ held)) r fun a definitions =>
    Drawn (before ++ made) (aside ++ uses a) definitions ∧ good a

namespace Draws

variable {α β : Type} {held : List (Kind × DeclarationId)} {r : Reading α}
  {made later : List Defining} {uses : α → List (Kind × DeclarationId)}
  {uses' : β → List (Kind × DeclarationId)} {good : α → Prop} {good' : β → Prop}

theorem pure {a : α} (huses : uses a = held) (hgood : good a) :
    Draws held (Pure.pure a) [] uses good := by
  intro before aside
  refine Yields.pure fun definitions h => ⟨?_, hgood⟩
  rwa [huses, List.append_nil]

theorem lift {x : Except DraftError α} (h : ∀ a, x = .ok a → uses a = held ∧ good a) :
    Draws held (liftM x) [] uses good := by
  intro before aside
  refine Yields.lift fun a ha definitions hd => ?_
  obtain ⟨huses, hgood⟩ := h a ha
  rw [huses, List.append_nil]
  exact ⟨hd, hgood⟩

theorem error (failure : DraftError) :
    Draws held (liftM (Except.error failure : Except DraftError α)) made uses good := by
  intro before aside definitions _ a later hr
  cases hr

theorem after {x : Except DraftError β} {f : β → Reading α}
    (h : ∀ b, x = .ok b → Draws held (f b) made uses good) :
    Draws held (liftM x >>= f) made uses good :=
  fun before aside => Yields.after fun b hb => h b hb before aside

theorem bind {f : α → Reading β} (hr : Draws held r made uses good)
    (hf : ∀ a, good a → Draws (uses a) (f a) later uses' good') :
    Draws held (r >>= f) (made ++ later) uses' good' := by
  intro before aside
  refine Yields.bind (hr before aside) fun a definitions h => ?_
  rw [← List.append_assoc]
  exact hf a h.2 (before ++ made) aside definitions h.1

/-- Reading something that defines nothing first. -/
theorem first {f : α → Reading β} (hr : Draws held r [] uses good)
    (hf : ∀ a, good a → Draws (uses a) (f a) later uses' good') :
    Draws held (r >>= f) later uses' good' :=
  hr.bind hf

theorem map {f : α → β} (hr : Draws held r made uses good)
    (hf : ∀ a, good a → uses' (f a) = uses a ∧ good' (f a)) :
    Draws held (r >>= fun a => Pure.pure (f a)) made uses' good' := by
  have h := hr.bind fun a ha => Draws.pure (hf a ha).1 (hf a ha).2
  rwa [List.append_nil] at h

/-- What is in hand already stays there. -/
theorem frame (hr : Draws [] r made uses good) (held : List (Kind × DeclarationId)) :
    Draws held r made (fun a => held ++ uses a) good := by
  intro before aside
  have h := hr before (aside ++ held)
  simpa only [List.append_assoc, List.append_nil] using h

/-- A definition takes what is in hand. -/
theorem addDefinition {scope : Scope} {definition : Definition} {x : Defining}
    (hheld : definition.inlined = held) (hx : x.Makes ⟨scope, definition⟩)
    (hd : definition.Sorted) :
    Draws held (addDefinition scope definition) [x] (scope.handed definition.kind)
      fun _ => True := by
  intro before aside
  refine Yields.addDefinition fun definitions h => ⟨?_, trivial⟩
  rw [← hheld] at h
  exact h.add hx hd

end Draws

/-! ## Flags -/

theorem inlinedAmong_cons (u : Usage) (us : List Usage) :
    inlinedAmong (u :: us) = inlinedAmong [u] ++ inlinedAmong us := by
  rw [inlinedAmong, inlinedAmong, inlinedAmong, ← List.filterMap_append, List.singleton_append]

theorem inlinedAmong_congr {u v : Usage} (hkind : v.kind = u.kind) (htarget : v.target = u.target) :
    inlinedAmong [v] = inlinedAmong [u] := by
  rw [inlinedAmong, inlinedAmong, List.filterMap_cons, List.filterMap_cons,
    Usage.inlined?_congr hkind htarget]

theorem attribute?_of_required {e : Element} {key value : String}
    (h : required e key = .ok value) : e.attribute? key = some value := by
  unfold required at h
  split at h
  · split at h
    · cases h
      assumption
    · cases h
  · cases h

/-- A usage stays in hand when its element says how it occurs. -/
theorem draws_occurrence {u : Usage} {e : Element} {good : Usage → Prop}
    (hgood : ∀ v : Usage, v.kind = u.kind → v.groupAs = u.groupAs → good v) :
    Draws (inlinedAmong [u]) (liftM (occurrence u e)) [] (fun v => inlinedAmong [v]) good := by
  refine .lift fun v h => ?_
  obtain ⟨hkind, htarget, hgroup⟩ := occurrence_keeps h
  exact ⟨inlinedAmong_congr hkind htarget, hgood v hkind hgroup⟩

theorem draws_flagOccurrence {u : Usage} {e : Element} (hu : u.IsFlag) :
    Draws (inlinedAmong [u]) (liftM (occurrence u e)) [] (fun v => inlinedAmong [v])
      Usage.IsFlag :=
  draws_occurrence fun _ hkind hgroup => ⟨hkind.trans hu.kind, hgroup.trans hu.groupAs⟩

theorem sorted_flag (name : String) (metadata : Metadata) (body : FlagBody) :
    (Definition.mk name metadata (.flag body)).Sorted :=
  ⟨by simp [Definition.flags, Body.flags], by simp [IsModel, Definition.model, Body.model]⟩

theorem draws_defineFlag (scope : Scope) (e : Element) :
    Draws [] (defineFlag scope e) [⟨scope, .flag, e⟩] (scope.handed .flag) fun _ => True := by
  unfold defineFlag
  refine .after fun name hname => .after fun datatype _ => ?_
  exact .addDefinition rfl ⟨rfl, rfl, attribute?_of_required hname, rfl⟩ (sorted_flag _ _ _)

theorem draws_flagUsage {e : Element} (hname : e.name = "flag") :
    Draws [] (flagUsage e) (definedFlags [e]) (fun u => inlinedAmong [u]) Usage.IsFlag := by
  unfold flagUsage
  split
  · next name href =>
    have hmade : definedFlags [e] = [] := by
      simp [definedFlags, Element.definesFlag, hname, href]
    rw [hmade]
    refine .bind (draws_flagOccurrence (u := .reference .flag name) ⟨rfl, rfl⟩) fun u hu => ?_
    exact .after fun _ _ => .pure (inlinedAmong_congr rfl rfl) ⟨hu.kind, hu.groupAs⟩
  · next href =>
    have hmade : definedFlags [e] = [⟨.inline, .flag, e⟩] := by
      simp [definedFlags, Element.definesFlag, hname, href]
    rw [hmade]
    split
    · exact .error _
    · next name hattribute =>
      refine .after fun datatype _ => ?_
      refine .bind (.addDefinition rfl ?_ (sorted_flag _ _ _)) fun id _ => ?_
      · exact ⟨rfl, rfl, hattribute, rfl⟩
      · exact draws_flagOccurrence (u := .inline .flag id) ⟨rfl, rfl⟩

theorem definedFlags_cons (e : Element) (es : List Element) :
    definedFlags (e :: es) = definedFlags [e] ++ definedFlags es := by
  rw [definedFlags, definedFlags, definedFlags, ← List.map_append, ← List.filter_append,
    List.singleton_append]

theorem draws_flagUsages (es : List Element) :
    Draws [] (flagUsages es) (definedFlags es) inlinedAmong fun us => ∀ u ∈ us, u.IsFlag := by
  induction es with
  | nil => exact .pure rfl (by simp)
  | cons e later ih =>
    have hcons : ∀ u : Usage, u.IsFlag →
        Draws (inlinedAmong [u]) (do return u :: (← flagUsages later)) (definedFlags later)
          inlinedAmong fun us => ∀ u ∈ us, u.IsFlag := by
      refine fun u hu => (ih.frame _).map fun us hus => ⟨inlinedAmong_cons u us, ?_⟩
      exact List.forall_mem_cons.2 ⟨hu, hus⟩
    rw [definedFlags_cons]
    unfold flagUsages
    split
    · next hname => exact (draws_flagUsage hname).bind hcons
    · next hname =>
      have hmade : definedFlags [e] = [⟨.inline, .flag, e⟩] := by
        simp [definedFlags, Element.definesFlag, hname]
      rw [hmade]
      refine (draws_defineFlag .inline e).bind fun id _ => ?_
      exact (draws_flagOccurrence (u := .inline .flag id) ⟨rfl, rfl⟩).bind hcons
    · next hflag hdefine =>
      have hmade : definedFlags [e] = [] := by
        have hnot : ¬ e.name = "flag" ∧ ¬ e.name = "define-flag" := ⟨hflag, hdefine⟩
        simp [definedFlags, Element.definesFlag, hnot]
      rw [hmade]
      exact ih

/-! ## Fields and assemblies -/

theorem draws_defineField (scope : Scope) (e : Element) :
    Draws [] (defineField scope e) (definedFlags e.elements ++ [⟨scope, .field, e⟩])
      (scope.handed .field) fun _ => True := by
  unfold defineField
  refine .after fun name hname => (draws_flagUsages e.elements).bind fun flags hflags => ?_
  refine .after fun datatype _ => ?_
  refine .addDefinition ?_ ⟨rfl, rfl, attribute?_of_required hname, rfl⟩
    ⟨hflags, by simp [IsModel, Definition.model, Body.model]⟩
  rw [Definition.inlined_eq]
  exact List.append_nil _

theorem draws_defineAssembly (scope : Scope) (e : Element) {model : Reading (List ModelItem)}
    {made : List Defining} (hm : Draws [] model made inlinedInModel IsModel) :
    Draws [] (defineAssembly scope e model)
      (definedFlags e.elements ++ made ++ [⟨scope, .assembly, e⟩]) (scope.handed .assembly)
      fun _ => True := by
  rw [List.append_assoc]
  unfold defineAssembly
  refine .after fun name hname => (draws_flagUsages e.elements).bind fun flags hflags => ?_
  refine (hm.frame _).bind fun items hitems => ?_
  exact .addDefinition (Definition.inlined_eq _) ⟨rfl, rfl, attribute?_of_required hname, rfl⟩
    ⟨hflags, hitems⟩

section

variable {e : Element} {model : Reading (List ModelItem)} {made : List Defining}

theorem draws_modelTarget (hm : Draws [] model made inlinedInModel IsModel)
    {target : Reading Usage} (h : modelTarget? e model = some target) :
    Draws [] target (definedBy .inline e made) (fun u => inlinedAmong [u]) Usage.IsModel := by
  unfold modelTarget? at h
  unfold definedBy
  split at h
  · next hname =>
    cases h
    simp only [hname]
    exact .after fun name _ => .pure rfl (.inl rfl)
  · next hname =>
    cases h
    simp only [hname]
    exact .after fun name _ => .pure rfl (.inr rfl)
  · next hname =>
    cases h
    simp only [hname]
    exact (draws_defineAssembly .inline e hm).map fun id _ => ⟨rfl, .inl rfl⟩
  · next hname =>
    cases h
    simp only [hname]
    exact (draws_defineField .inline e).map fun id _ => ⟨rfl, .inr rfl⟩
  · cases h

theorem definedBy_of_ne {scope : Scope} (hassembly : e.name ≠ "define-assembly")
    (hfield : e.name ≠ "define-field") : definedBy scope e made = [] := by
  unfold definedBy
  split
  · next hname => exact absurd hname hassembly
  · next hname => exact absurd hname hfield
  · rfl

/-- What is no entry of a model defines nothing. -/
theorem definedBy_of_modelTarget (h : modelTarget? e model = none) :
    definedBy .inline e made = [] := by
  unfold modelTarget? at h
  split at h
  · cases h
  · cases h
  · cases h
  · cases h
  · next hassembly hfield => exact definedBy_of_ne hassembly hfield

/-- How a field is wrapped says nothing about what is used. -/
theorem draws_wrapping {u : Usage} (hu : u.IsModel) :
    Draws (inlinedAmong [u]) (do
      if u.kind = .field then
        match ← keyword? e "in-xml" FieldWrapping.ofKeyword with
        | some inXml => return { u with inXml }
        | none => return u
      else return u : Reading Usage) [] (fun v => inlinedAmong [v]) Usage.IsModel := by
  split
  · refine .after fun wrapping _ => ?_
    split
    · exact .pure (inlinedAmong_congr rfl rfl) hu
    · exact .pure rfl hu
  · exact .pure rfl hu

theorem draws_modelUsage {target : Reading Usage}
    (ht : Draws [] target made (fun u => inlinedAmong [u]) Usage.IsModel) :
    Draws [] (modelUsage e target) made (fun u => inlinedAmong [u]) Usage.IsModel := by
  rw [← List.append_nil made]
  unfold modelUsage
  refine ht.bind fun u hu => ?_
  have hoccurrence : Draws (inlinedAmong [u]) (liftM (occurrence u e)) []
      (fun v => inlinedAmong [v]) Usage.IsModel :=
    draws_occurrence fun v hkind _ => by rwa [Usage.IsModel, hkind]
  refine .first hoccurrence fun u hu => ?_
  split
  · refine .after fun g _ => .first (.pure ?_ ?_) fun u hu => draws_wrapping hu
    · exact inlinedAmong_congr rfl rfl
    · exact hu
  · exact .first (.pure rfl hu) fun u hu => draws_wrapping hu

end

/-! ## Models -/

theorem inlinedInModel_append (items later : List ModelItem) :
    inlinedInModel (items ++ later) = inlinedInModel items ++ inlinedInModel later :=
  List.flatMap_append

mutual

theorem draws_modelOf : ∀ nodes : List Node,
    Draws [] (modelOf nodes) (definedInModel nodes) inlinedInModel IsModel
  | [] => .pure rfl (by simp [IsModel])
  | .text _ :: later => by
    unfold modelOf definedInModel
    exact draws_modelOf later
  | .element tag children :: later => by
    unfold modelOf definedInModel
    split
    · exact draws_modelItems children
    · exact draws_modelOf later

theorem draws_modelItems : ∀ nodes : List Node,
    Draws [] (modelItems nodes) (definedInEntries nodes) inlinedInModel IsModel
  | [] => .pure rfl (by simp [IsModel])
  | node :: later => by
    unfold modelItems definedInEntries
    refine (draws_modelItem node).bind fun item hitem => ?_
    refine ((draws_modelItems later).frame _).map fun items hitems => ?_
    refine ⟨inlinedInModel_append _ _, fun entry he => ?_⟩
    rcases List.mem_append.1 he with he | he
    · exact hitem entry he
    · exact hitems entry he

theorem draws_modelItem : ∀ node : Node,
    Draws [] (modelItem node) (definedInEntry node) (fun item => inlinedInModel item.toList)
      fun item => IsModel item.toList
  | .text _ => .pure rfl (by simp [IsModel])
  | .element tag children => by
    unfold modelItem definedInEntry
    split
    · next hname =>
      rw [if_pos hname]
      refine (draws_choiceMembers children).map fun members hmembers => ?_
      refine ⟨List.append_nil _, fun entry he => ?_⟩
      rw [List.mem_singleton.1 he]
      exact hmembers
    · next hname =>
      rw [if_neg (by simp [hname]), definedBy_of_ne (by simp [Element.name, hname])
        (by simp [Element.name, hname])]
      exact .pure rfl (by simp [IsModel, ModelItem.usages])
    · next hname =>
      rw [if_neg (by simp [hname]), definedBy_of_ne (by simp [Element.name, hname])
        (by simp [Element.name, hname])]
      exact .pure rfl (by simp [IsModel, ModelItem.usages])
    · next hchoice _ _ =>
      rw [if_neg hchoice]
      split
      · next target ht =>
        have htarget := draws_modelTarget (draws_modelOf children) ht
        refine (draws_modelUsage htarget).map fun u hu => ⟨List.append_nil _, fun entry he => ?_⟩
        rw [List.mem_singleton.1 he]
        simpa [ModelItem.usages] using hu
      · next hnone =>
        rw [definedBy_of_modelTarget hnone]
        exact .pure rfl (by simp [IsModel])

theorem draws_choiceMembers : ∀ nodes : List Node,
    Draws [] (choiceMembers nodes) (definedInMembers nodes) inlinedAmong
      fun us => ∀ u ∈ us, u.IsModel
  | [] => .pure rfl (by simp)
  | .text _ :: later => by
    unfold choiceMembers definedInMembers
    exact draws_choiceMembers later
  | .element tag children :: later => by
    unfold choiceMembers definedInMembers
    split
    · next target ht =>
      have htarget := draws_modelTarget (draws_modelOf children) ht
      refine (draws_modelUsage htarget).bind fun u hu => ?_
      refine ((draws_choiceMembers later).frame _).map fun us hus => ?_
      exact ⟨inlinedAmong_cons u us, List.forall_mem_cons.2 ⟨hu, hus⟩⟩
    · next hnone =>
      rw [definedBy_of_modelTarget hnone]
      exact draws_choiceMembers later

end

theorem draws_readBody (es : List Element) :
    Draws [] (readBody es) (definedInBody es) (fun _ => []) fun _ => True := by
  induction es with
  | nil => exact .pure rfl trivial
  | cons e later ih =>
    rw [definedInBody, List.flatMap_cons]
    unfold readBody
    split
    · next hname =>
      rw [if_neg (by simp [hname]), definedBy_of_ne (by simp [hname]) (by simp [hname])]
      exact .after fun href _ => ih.map fun _ _ => ⟨rfl, trivial⟩
    · next hname =>
      rw [if_neg (by simp [hname])]
      simp only [definedBy, hname]
      exact (draws_defineAssembly .everywhere e (draws_modelOf e.children)).bind fun _ _ => ih
    · next hname =>
      rw [if_neg (by simp [hname])]
      simp only [definedBy, hname]
      exact (draws_defineField .everywhere e).bind fun _ _ => ih
    · next hname =>
      rw [if_pos hname]
      exact (draws_defineFlag .everywhere e).bind fun _ _ => ih
    · next _ hassembly hfield hflag =>
      rw [if_neg hflag, definedBy_of_ne hassembly hfield]
      exact ih

/-! ## Used once -/

/-- The inline definitions have handles of their own, as long as there are enough. -/
theorem nodup_inlineDefinitions {definitions : List Drafted}
    (h : definitions.length ≤ maxIndex + 1) :
    ((inlineDefinitions definitions).map (·.2)).Nodup := by
  induction definitions using List.reverseRecOn with
  | nil => exact .nil
  | append_singleton earlier d ih =>
    rw [List.length_append, List.length_singleton] at h
    rw [inlineDefinitions_append_singleton, List.map_append, List.nodup_append]
    refine ⟨ih (by omega), by cases d.scope <;> simp [Scope.handed], ?_⟩
    rintro id hid _ hlast rfl
    obtain ⟨⟨kind, id⟩, hearlier, rfl⟩ := List.mem_map.1 hid
    obtain ⟨j, e, he, _, _, rfl⟩ := mem_inlineDefinitions.1 hearlier
    have hj := (List.getElem?_eq_some_iff.1 he).1
    cases hs : d.scope with
    | everywhere => simp [hs, Scope.handed] at hlast
    | inline =>
      have hindex := congrArg Handle.index (show (Handle.ofIndex j : DeclarationId) =
        .ofIndex earlier.length by simpa [hs, Scope.handed] using hlast)
      rw [Handle.index_ofIndex_of_le (by omega), Handle.index_ofIndex_of_le (by omega)] at hindex
      omega

/-- Two places that yield the same value are one place, when no value is yielded twice. -/
theorem eq_of_nodup_flatMap {α β : Type} {f : α → List β} {as : List α}
    (h : (as.flatMap f).Nodup) {i j : Nat} {a b : α} (ha : as[i]? = some a) (hb : as[j]? = some b)
    {x : β} (hx : x ∈ f a) (hy : x ∈ f b) : i = j := by
  obtain ⟨hi, rfl⟩ := List.getElem?_eq_some_iff.1 ha
  obtain ⟨hj, rfl⟩ := List.getElem?_eq_some_iff.1 hb
  have hdisjoint := List.pairwise_iff_getElem.1 (List.nodup_flatMap.1 h).2
  by_contra hne
  rcases Nat.lt_or_gt_of_ne hne with hlt | hlt
  · exact hdisjoint i j hi hj hlt hx hy
  · exact hdisjoint j i hj hi hlt hy hx

namespace Draft

/-- The kind and the inline target of the usage at a slot of the definition number `i`. -/
def inlineAt? (draft : Draft) (i : Nat) (slot : Slot) : Option (Kind × DeclarationId) :=
  draft.definitions[i]?.bind fun d => (d.definition.usage? slot).bind Usage.inlined?

/-- The definitions of a draft fit together: an inline target is an inline definition of the kind of
    the usage and stands earlier, every inline definition is used at one place and no other at any,
    usages stand where their kinds belong, and no name is resolved. Handles are 32 bits wide, so
    definitions beyond those share the last handle; `paired` counts those too. -/
structure WellFormed (draft : Draft) : Prop where
  target : ∀ {i slot kind id}, draft.inlineAt? i slot = some (kind, id) →
    ∃ j t, j < i ∧ id = .ofIndex j ∧ draft.definitions[j]? = some t ∧ t.scope = .inline ∧
      t.definition.kind = kind
  once : draft.definitions.length ≤ maxIndex + 1 → ∀ {j t}, draft.definitions[j]? = some t →
    t.scope = .inline →
      ∃! place : Nat × Slot, ∃ kind, draft.inlineAt? place.1 place.2 = some (kind, .ofIndex j)
  never : draft.definitions.length ≤ maxIndex + 1 → ∀ {j t}, draft.definitions[j]? = some t →
    t.scope = .everywhere → ∀ i slot kind, draft.inlineAt? i slot ≠ some (kind, .ofIndex j)
  paired : (inlineDefinitions draft.definitions).Perm
    (draft.definitions.flatMap (·.definition.inlined))
  sorted : ∀ d ∈ draft.definitions, d.definition.Sorted
  fresh : draft.Fresh

theorem inlineAt?_eq_some_iff {draft : Draft} {i : Nat} {slot : Slot} {x : Kind × DeclarationId} :
    draft.inlineAt? i slot = some x ↔ ∃ d u, draft.definitions[i]? = some d ∧
      (slot, u) ∈ d.definition.usages ∧ u.inlined? = some x := by
  simp only [inlineAt?, Option.bind_eq_some_iff, Definition.mem_usages_iff]
  constructor
  · rintro ⟨d, hd, u, hu, hx⟩
    exact ⟨d, u, hd, hu, hx⟩
  · rintro ⟨d, u, hd, hu, hx⟩
    exact ⟨d, hd, u, hu, hx⟩

theorem mem_inlined_iff {d : Definition} {x : Kind × DeclarationId} :
    x ∈ d.inlined ↔ ∃ su ∈ d.usages, su.2.inlined? = some x := by
  rw [Definition.inlined, inlinedAmong, List.filterMap_map, List.mem_filterMap]
  rfl

/-- The handles that the usages of a definition target, usage by usage. -/
theorem map_snd_inlined (d : Definition) :
    d.inlined.map (·.2) = d.usages.flatMap fun su => (su.2.inlined?.map (·.2)).toList := by
  rw [Definition.inlined, inlinedAmong, List.filterMap_map, List.map_filterMap,
    List.filterMap_eq_flatMap_toList]
  rfl

/-- When no handle is targeted twice, the usages that target one stand at one place. -/
theorem eq_of_inlineAt? {draft : Draft} {i i' : Nat} {slot slot' : Slot} {kind kind' : Kind}
    {id : DeclarationId}
    (hnodup : (draft.definitions.flatMap fun d => d.definition.inlined.map (·.2)).Nodup)
    (h : draft.inlineAt? i slot = some (kind, id))
    (h' : draft.inlineAt? i' slot' = some (kind', id)) : (i, slot) = (i', slot') := by
  obtain ⟨d, u, hd, hu, hx⟩ := inlineAt?_eq_some_iff.1 h
  obtain ⟨d', u', hd', hu', hx'⟩ := inlineAt?_eq_some_iff.1 h'
  have hin : id ∈ d.definition.inlined.map (·.2) :=
    List.mem_map.2 ⟨_, mem_inlined_iff.2 ⟨_, hu, hx⟩, rfl⟩
  have hin' : id ∈ d'.definition.inlined.map (·.2) :=
    List.mem_map.2 ⟨_, mem_inlined_iff.2 ⟨_, hu', hx'⟩, rfl⟩
  obtain rfl : i = i' := eq_of_nodup_flatMap hnodup hd hd' hin hin'
  obtain rfl : d = d' := Option.some.inj (hd.symm.trans hd')
  have hslots := (List.nodup_flatMap.1 hnodup).1 d (List.mem_of_getElem? hd)
  rw [map_snd_inlined] at hslots
  obtain ⟨k, hk⟩ := List.getElem?_of_mem hu
  obtain ⟨k', hk'⟩ := List.getElem?_of_mem hu'
  obtain rfl : k = k' := eq_of_nodup_flatMap hslots hk hk' (x := id) (by simp [hx]) (by simp [hx'])
  rw [hk, Option.some.injEq] at hk'
  exact Prod.ext rfl (congrArg Prod.fst hk')

/-- Definitions that were drawn with nothing left in hand are well formed. -/
theorem wellFormed_of_drawn {draft : Draft} {made : List Defining}
    (h : Drawn made [] draft.definitions) (hfresh : draft.Fresh) : draft.WellFormed := by
  have hpaired : (inlineDefinitions draft.definitions).Perm
      (draft.definitions.flatMap (·.definition.inlined)) := by
    simpa only [List.append_nil] using h.once
  have htarget : ∀ {i slot kind id}, draft.inlineAt? i slot = some (kind, id) →
      ∃ j t, j < i ∧ id = .ofIndex j ∧ draft.definitions[j]? = some t ∧ t.scope = .inline ∧
        t.definition.kind = kind := by
    intro i slot kind id hat
    obtain ⟨d, u, hd, hu, hx⟩ := inlineAt?_eq_some_iff.1 hat
    have hearlier := h.earlier hd _ (mem_inlined_iff.2 ⟨(slot, u), hu, hx⟩)
    obtain ⟨j, t, ht, hscope, hkind, hid⟩ := mem_inlineDefinitions.1 hearlier
    rw [List.getElem?_take, Option.ite_none_right_eq_some] at ht
    exact ⟨j, t, ht.1, hid, ht.2, hscope, hkind⟩
  refine ⟨htarget, fun hmax j t ht hscope => ?_, fun hmax j t ht hscope i slot kind hat => ?_,
    hpaired, h.sorted, hfresh⟩
  · have hnodup : (draft.definitions.flatMap fun d => d.definition.inlined.map (·.2)).Nodup := by
      rw [← List.map_flatMap]
      exact (hpaired.map _).nodup_iff.1 (nodup_inlineDefinitions hmax)
    have hmem := hpaired.mem_iff.1 (mem_inlineDefinitions.2 ⟨j, t, ht, hscope, rfl, rfl⟩)
    obtain ⟨d, hd, hin⟩ := List.mem_flatMap.1 hmem
    obtain ⟨⟨slot, u⟩, hu, hx⟩ := mem_inlined_iff.1 hin
    obtain ⟨i, hi⟩ := List.getElem?_of_mem hd
    have hat := inlineAt?_eq_some_iff.2 ⟨d, u, hi, hu, hx⟩
    refine ⟨(i, slot), ⟨_, hat⟩, ?_⟩
    rintro ⟨i', slot'⟩ ⟨kind', hat'⟩
    exact eq_of_inlineAt? hnodup hat' hat
  · obtain ⟨j', t', hlt, hid, ht', hscope', _⟩ := htarget hat
    have hj := (List.getElem?_eq_some_iff.1 ht).1
    have hj' := (List.getElem?_eq_some_iff.1 ht').1
    have hindex := congrArg Handle.index hid
    rw [Handle.index_ofIndex_of_le (by omega), Handle.index_ofIndex_of_le (by omega)] at hindex
    subst hindex
    rw [ht', Option.some.injEq] at ht
    rw [← ht, hscope'] at hscope
    cases hscope

section

variable {entities : EntityMap} {path : Path} {source : String} {draft : Draft}

/-- The definitions of a draft that was read were drawn from the root of its text. -/
theorem drawn_of_read (h : Draft.read entities path source = .ok draft) :
    ∃ root, Element.parse entities source = .ok root ∧
      Drawn (definedInBody root.elements) [] draft.definitions := by
  obtain ⟨root, header, definitions, hroot, _, _, hbody, hdraft⟩ := exists_of_read h
  have hdrawn := (draws_readBody root.elements [] [] [] drawn_nil _ _ hbody).1
  rw [hdraft]
  exact ⟨root, hroot, hdrawn⟩

theorem wellFormed_of_read (h : Draft.read entities path source = .ok draft) :
    draft.WellFormed := by
  obtain ⟨_, _, hdrawn⟩ := drawn_of_read h
  exact wellFormed_of_drawn hdrawn (fresh_of_read h)

/-- A draft that was read is well formed, and its definitions are those of the elements of the text
    that define something, in the order in which the elements end, the flags of a definition before
    its model. -/
theorem definitions_of_read (h : Draft.read entities path source = .ok draft) :
    draft.WellFormed ∧ ∃ root, Element.parse entities source = .ok root ∧
      List.Forall₂ Defining.Makes (definedInBody root.elements) draft.definitions := by
  obtain ⟨root, hroot, hdrawn⟩ := drawn_of_read h
  exact ⟨wellFormed_of_read h, root, hroot, hdrawn.makes⟩

end

/-- An assembly with a field in a choice of its model and a flag that is written after the model. -/
def nestedText : String :=
  "<METASCHEMA><define-assembly name=\"a\"><model><choice><define-field name=\"b\">" ++
    "<flag name=\"c\"/></define-field></choice></model><flag name=\"d\"/></define-assembly>" ++
    "</METASCHEMA>"

theorem definitions_nestedText :
    ∃ draft, Draft.read [] ⟨"a"⟩ nestedText = .ok draft ∧
      draft.definitions.map (·.definition.name) = ["d", "c", "b", "a"] ∧
      draft.WellFormed := by
  have hnames : ((Draft.read [] ⟨"a"⟩ nestedText).toOption.map
      fun draft => draft.definitions.map (·.definition.name)) =
        some ["d", "c", "b", "a"] := by
    decide +kernel
  cases hread : Draft.read [] ⟨"a"⟩ nestedText with
  | error e =>
    rw [hread] at hnames
    cases hnames
  | ok draft =>
    rw [hread] at hnames
    exact ⟨draft, rfl, Option.some.inj hnames, (definitions_of_read hread).1⟩

end Draft

end SchemaFamily
