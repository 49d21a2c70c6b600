import SchemaFamily.Proofs.Draft.Checks
import SchemaFamily.Proofs.Draft.Extent
import SchemaFamily.Proofs.Results

/-
  Which documents are read. A reader `Tells` whether what is asked of the elements it reads holds:
  it succeeds when all of it does, and otherwise tells of the first that does not, with the element
  and its line. Each reader does so for its part of the list of checks, since the list follows the
  order of reading, so a document is read exactly when it is valid (`Draft.read_iff_valid`).
-/

namespace SchemaFamily

open Xml

/-! ## Telling what does not hold -/

/-- The error tells of the first of the checks that does not hold. -/
def Blames (checks : List Check) (error : DraftError) : Prop :=
  ∃ before rule e after, checks = before ++ (rule, e) :: after ∧
    (∀ check ∈ before, check.1.Holds check.2) ∧ ¬ rule.Holds e ∧
    error.element = e.name ∧ error.line = e.position.line ∧ rule.Tells e error.fault

/-- A success says that all checks hold, and its result is as `good` says; a failure tells of the
    first check that does not. -/
def Told {α : Type} (checks : List Check) (good : α → Prop) : Except DraftError α → Prop
  | .ok a => (∀ check ∈ checks, check.1.Holds check.2) ∧ good a
  | .error error => Blames checks error

theorem Blames.append {checks : List Check} {error : DraftError} (h : Blames checks error)
    (later : List Check) : Blames (checks ++ later) error := by
  obtain ⟨before, rule, e, after, rfl, hbefore, hbroken, htold⟩ := h
  exact ⟨before, rule, e, after ++ later, by simp, hbefore, hbroken, htold⟩

theorem Blames.after {checks later : List Check} {error : DraftError}
    (hchecks : ∀ check ∈ checks, check.1.Holds check.2) (h : Blames later error) :
    Blames (checks ++ later) error := by
  obtain ⟨before, rule, e, after, rfl, hbefore, hbroken, htold⟩ := h
  refine ⟨checks ++ before, rule, e, after, by simp, ?_, hbroken, htold⟩
  exact List.forall_mem_append.2 ⟨hchecks, hbefore⟩

namespace Told

variable {α β : Type} {checks later : List Check} {good : α → Prop} {good' : β → Prop}

theorem pure {a : α} (h : good a) : Told [] good (Pure.pure a) := ⟨by simp, h⟩

theorem bind {x : Except DraftError α} {f : α → Except DraftError β} (hx : Told checks good x)
    (hf : ∀ a, good a → Told later good' (f a)) : Told (checks ++ later) good' (x >>= f) := by
  cases x with
  | error error => exact Blames.append hx later
  | ok a =>
    obtain ⟨hchecks, ha⟩ := hx
    have hlater := hf a ha
    show Told _ good' (f a)
    cases hb : f a with
    | error error =>
      rw [hb] at hlater
      exact Blames.after hchecks hlater
    | ok b =>
      rw [hb] at hlater
      exact ⟨List.forall_mem_append.2 ⟨hchecks, hlater.1⟩, hlater.2⟩

/-- A single check that holds. -/
theorem ok (rule : Rule) {e : Element} {a : α} (h : rule.Holds e) (ha : good a) :
    Told [(rule, e)] good (.ok a) := ⟨by simpa using h, ha⟩

/-- The first check does not hold. -/
theorem failAt (rule : Rule) {e : Element} {fault : DraftFault} (hbroken : ¬ rule.Holds e)
    (htells : rule.Tells e fault) : Told ((rule, e) :: later) good (SchemaFamily.failAt e fault) :=
  ⟨[], rule, e, later, rfl, by simp, hbroken, rfl, rfl, htells⟩

/-- A check that holds may come first. -/
theorem cons (rule : Rule) {e : Element} (h : rule.Holds e) {x : Except DraftError α}
    (hx : Told checks good x) : Told ((rule, e) :: checks) good x := by
  have hfirst : Told [(rule, e)] (fun _ => True) (.ok ()) := .ok rule h trivial
  exact hfirst.bind fun _ _ => hx

/-- What follows asks nothing more. -/
theorem last {x : Except DraftError α} {f : α → Except DraftError β} (hx : Told checks good x)
    (hf : ∀ a, good a → Told [] good' (f a)) : Told checks good' (x >>= f) := by
  rw [← List.append_nil checks]
  exact hx.bind hf

theorem imp {x : Except DraftError α} {good' : α → Prop} (h : Told checks good x)
    (hgood : ∀ a, good a → good' a) : Told checks good' x := by
  cases x with
  | error error => exact h
  | ok a => exact ⟨h.1, hgood a h.2⟩

end Told

section

variable (e : Element)

theorem told_required (key : String) :
    Told [(.inked key, e)] (fun _ => True) (required e key) := by
  unfold required
  split
  · next value hvalue =>
    split
    · next hink => exact .ok (.inked key) ⟨value, hvalue, hink⟩ trivial
    · next hink =>
      refine .failAt (.inked key) ?_ rfl
      rintro ⟨value', hvalue', hink'⟩
      rw [hvalue, Option.some.injEq] at hvalue'
      exact hink (hvalue' ▸ hink')
  · next hvalue =>
    refine .failAt (.inked key) ?_ rfl
    rintro ⟨value', hvalue', _⟩
    rw [hvalue] at hvalue'
    cases hvalue'

/-- An attribute that is not there breaks no rule about its value. -/
theorem forall_of_eq_none {P : String → Prop} {key : String} (h : e.attribute? key = none) :
    ∀ value, e.attribute? key = some value → P value := by
  intro value hvalue
  rw [h] at hvalue
  cases hvalue

theorem forall_of_eq_some {P : String → Prop} {key value : String}
    (h : e.attribute? key = some value) (hp : P value) :
    ∀ value, e.attribute? key = some value → P value := by
  intro value' hvalue'
  rw [h, Option.some.injEq] at hvalue'
  exact hvalue' ▸ hp

theorem told_yesOrNo (key : String) :
    Told [(.yesOrNo key, e)] (fun _ => True) (yesOrNo e key) := by
  unfold yesOrNo
  split
  · next hvalue => exact .ok (.yesOrNo key) (forall_of_eq_none e hvalue) trivial
  · next hvalue => exact .ok (.yesOrNo key) (forall_of_eq_some e hvalue (.inr rfl)) trivial
  · next hvalue => exact .ok (.yesOrNo key) (forall_of_eq_some e hvalue (.inl rfl)) trivial
  · next other hno hyes hvalue =>
    refine .failAt (.yesOrNo key) (fun h => ?_) ⟨other, hvalue, rfl⟩
    exact (h other hvalue).elim hyes hno

theorem told_number (key : String) :
    Told [(.number key, e)] (fun _ => True) (number? e key) := by
  unfold number?
  split
  · next hvalue => exact .ok (.number key) (forall_of_eq_none e hvalue) trivial
  · next value hvalue =>
    have htrim : trimBlanks value.toList = (trimmed value).toList := by
      rw [← ofList_trimBlanks, String.toList_ofList]
    rw [htrim, maxWord32_eq]
    split
    · next n hn =>
      exact .ok (.number key) (forall_of_eq_some e hvalue (readUnsigned_isOk_iff.1 ⟨n, hn⟩))
        trivial
    · next reason hreason =>
      refine .failAt (.number key) (fun h => ?_) ⟨value, reason, hvalue, hreason, rfl⟩
      obtain ⟨n, hn⟩ := readUnsigned_isOk_iff.2 (h value hvalue)
      rw [hreason] at hn
      cases hn

theorem told_keyword {α : Type} (v : Vocabulary)
    {ofKeyword : String → Except KeywordFault α} (hv : ∀ s, v.Judged s (ofKeyword s)) :
    Told [(.keyword v, e)] (fun _ => True) (keyword? e v.key ofKeyword) := by
  unfold keyword?
  split
  · next hvalue => exact .ok (.keyword v) (forall_of_eq_none e hvalue) trivial
  · next value hvalue =>
    have hjudged := hv (trimmed value)
    rw [← ofList_trimBlanks] at hjudged
    split
    · next a ha =>
      rw [ha] at hjudged
      exact .ok (.keyword v) (forall_of_eq_some e hvalue hjudged) trivial
    · next fault hfault =>
      rw [hfault] at hjudged
      obtain ⟨hnot, rfl⟩ := hjudged
      exact .failAt (.keyword v) (fun h => hnot (h value hvalue)) ⟨value, hvalue, rfl⟩

theorem told_datatype : Told [(.keyword .datatype, e)] (fun _ => True) (datatype? e) :=
  told_keyword e .datatype Vocabulary.judged_datatype

/-- What an element says about its occurrence changes nothing about the kind of what is used. -/
theorem told_occurrence (u : Usage) :
    Told e.checksOfUsage (fun v => v.kind = u.kind) (occurrence u e) := by
  unfold occurrence
  refine .bind (told_number e "min-occurs") fun minOccurs _ => ?_
  refine .bind (told_yesOrNo e "required") fun required _ => ?_
  refine .last (told_keyword e .maxOccurs Vocabulary.judged_maxOccurs) fun _ _ => ?_
  exact .pure rfl

theorem told_groupOf : Told (Rule.ofGroup.map (·, e)) (fun _ => True) (groupOf e) := by
  unfold groupOf
  refine .bind (told_required e "name") fun name _ => ?_
  refine .bind (told_keyword e .jsonGrouping Vocabulary.judged_jsonGrouping) fun _ _ => ?_
  refine .last (told_keyword e .xmlGrouping Vocabulary.judged_xmlGrouping)
    fun _ _ => ?_
  exact .pure trivial

end

/-! ## Readers -/

/-- Whatever was read before, reading tells of the checks. -/
def Tells {α : Type} (r : Reading α) (checks : List Check) (good : α → Prop) : Prop :=
  ∀ definitions, Told checks (fun result => good result.1) (r.run definitions)

namespace Tells

variable {α β : Type} {r : Reading α} {checks later : List Check} {good : α → Prop}
  {good' : β → Prop}

theorem pure {a : α} (h : good a) : Tells (Pure.pure a) [] good :=
  fun _ => Told.pure h

theorem bind {f : α → Reading β} (hr : Tells r checks good)
    (hf : ∀ a, good a → Tells (f a) later good') : Tells (r >>= f) (checks ++ later) good' :=
  fun definitions => Told.bind (hr definitions) fun result h => hf result.1 h result.2

theorem lift {x : Except DraftError α} (h : Told checks good x) : Tells (liftM x) checks good := by
  intro definitions
  cases x with
  | error error => exact h
  | ok a => exact h

theorem addDefinition (scope : Scope) (definition : Definition) :
    Tells (SchemaFamily.addDefinition scope definition) [] fun _ => True :=
  fun _ => ⟨by simp, trivial⟩

theorem cons (rule : Rule) {e : Element} (h : rule.Holds e) (hr : Tells r checks good) :
    Tells r ((rule, e) :: checks) good :=
  fun definitions => Told.cons rule h (hr definitions)

/-- What comes first asks nothing. -/
theorem first {f : α → Reading β} (hr : Tells r [] good)
    (hf : ∀ a, good a → Tells (f a) later good') : Tells (r >>= f) later good' :=
  hr.bind hf

/-- What follows asks nothing more. -/
theorem last {f : α → Reading β} (hr : Tells r checks good)
    (hf : ∀ a, good a → Tells (f a) [] good') : Tells (r >>= f) checks good' := by
  rw [← List.append_nil checks]
  exact hr.bind hf

end Tells

theorem tells_defineFlag (scope : Scope) (e : Element) :
    Tells (defineFlag scope e) e.checksOfFlagDefinition fun _ => True := by
  unfold defineFlag
  refine .bind (.lift (told_required e "name")) fun name _ => ?_
  exact .last (.lift (told_datatype e)) fun datatype _ => .addDefinition _ _

theorem tells_flagUsage {e : Element} (he : e.name = "flag") :
    Tells (flagUsage e) e.checksOfFlag fun _ => True := by
  unfold flagUsage
  rw [Element.checksOfFlag_flag he]
  split
  · next name href =>
    have hsome : (e.attribute? "ref").isSome = true := by rw [href]; rfl
    rw [if_pos hsome]
    refine .cons .named (.inl hsome) (.bind (.lift (told_occurrence e _)) fun u _ => ?_)
    exact .last (.lift (told_datatype e)) fun datatype _ => .pure trivial
  · next href =>
    rw [if_neg (by rw [href]; simp)]
    split
    · next hname =>
      exact .lift (.failAt .named (by simp [Rule.Holds, href, hname]) rfl)
    · next name hname =>
      refine .cons .named (.inr (by rw [hname]; rfl)) ?_
      refine .bind (.lift (told_datatype e)) fun datatype _ => ?_
      refine .first (.addDefinition _ _) fun id _ => .lift ?_
      exact (told_occurrence e _).imp fun _ _ => trivial

theorem tells_flagUsages (es : List Element) :
    Tells (flagUsages es) (es.flatMap Element.checksOfFlag) fun _ => True := by
  induction es with
  | nil => exact .pure trivial
  | cons e later ih =>
    rw [List.flatMap_cons]
    unfold flagUsages
    split
    · next hname =>
      exact .bind (tells_flagUsage hname) fun u _ => .last ih fun us _ => .pure trivial
    · next hname =>
      rw [Element.checksOfFlag_define hname, List.append_assoc]
      refine .bind (tells_defineFlag .inline e) fun id _ => ?_
      refine .bind (.lift (told_occurrence e _)) fun u _ => ?_
      exact .last ih fun us _ => .pure trivial
    · next hflag hdefine =>
      rw [Element.checksOfFlag_of_ne hflag hdefine]
      exact ih

theorem tells_defineField (scope : Scope) {e : Element} (he : e.name = "define-field") :
    Tells (defineField scope e) e.checksOfDefinition fun _ => True := by
  unfold defineField
  rw [Element.checksOfDefinition_field he]
  refine .bind (.lift (told_required e "name")) fun name _ => ?_
  refine .bind (tells_flagUsages e.elements) fun flags _ => ?_
  exact .last (.lift (told_datatype e)) fun datatype _ => .addDefinition _ _

theorem tells_defineAssembly (scope : Scope) {e : Element} (he : e.name = "define-assembly")
    {model : Reading (List ModelItem)}
    (hm : Tells model (Element.checksOfEntries e.entries) fun _ => True) :
    Tells (defineAssembly scope e model) e.checksOfDefinition fun _ => True := by
  unfold defineAssembly
  rw [Element.checksOfDefinition_assembly he]
  refine .bind (.lift (told_required e "name")) fun name _ => ?_
  refine .bind (tells_flagUsages e.elements) fun flags _ => ?_
  exact .last hm fun items _ => .addDefinition _ _

/-! ## Models -/

/-- A usage of a field is told by its element. -/
def UsesAs (e : Element) (u : Usage) : Prop :=
  u.kind = .field ↔ e.name = "field" ∨ e.name = "define-field"

theorem tells_modelTarget {e : Element} {model : Reading (List ModelItem)}
    (hm : Tells model (Element.checksOfEntries e.entries) fun _ => True) {target : Reading Usage}
    (h : modelTarget? e model = some target) :
    e.isEntry = true ∧ Tells target
      (if e.name = "assembly" ∨ e.name = "field" then [(.inked "ref", e)]
        else e.checksOfDefinition) (UsesAs e) := by
  unfold modelTarget? at h
  split at h
  · next hname =>
    cases h
    refine ⟨by simp [Element.isEntry, hname], ?_⟩
    rw [if_pos (.inl hname)]
    exact .last (.lift (told_required e "ref")) fun name _ =>
      .pure (by simp [UsesAs, hname, Usage.reference])
  · next hname =>
    cases h
    refine ⟨by simp [Element.isEntry, hname], ?_⟩
    rw [if_pos (.inr hname)]
    exact .last (.lift (told_required e "ref")) fun name _ =>
      .pure (by simp [UsesAs, hname, Usage.reference])
  · next hname =>
    cases h
    refine ⟨by simp [Element.isEntry, hname], ?_⟩
    rw [if_neg (by simp [hname])]
    exact .last (tells_defineAssembly .inline hname hm) fun id _ =>
      .pure (by simp [UsesAs, hname, Usage.inline])
  · next hname =>
    cases h
    refine ⟨by simp [Element.isEntry, hname], ?_⟩
    rw [if_neg (by simp [hname])]
    exact .last (tells_defineField .inline hname) fun id _ =>
      .pure (by simp [UsesAs, hname, Usage.inline])
  · cases h

theorem isEntry_of_modelTarget_eq_none {e : Element} {model : Reading (List ModelItem)}
    (h : modelTarget? e model = none) : e.isEntry = false := by
  unfold modelTarget? at h
  split at h
  · cases h
  · cases h
  · cases h
  · cases h
  · next hassembly hfield hdefineAssembly hdefineField =>
    have hassembly : e.name ≠ "assembly" := hassembly
    have hfield : e.name ≠ "field" := hfield
    have hdefineAssembly : e.name ≠ "define-assembly" := hdefineAssembly
    have hdefineField : e.name ≠ "define-field" := hdefineField
    simp [Element.isEntry, hassembly, hfield, hdefineAssembly, hdefineField]

theorem tells_wrapping {e : Element} {u : Usage} (hu : UsesAs e u) :
    Tells (do
      if u.kind = .field then
        match ← keyword? e "in-xml" FieldWrapping.ofKeyword with
        | some inXml => return { u with inXml }
        | none => return u
      else return u : Reading Usage)
      (if e.name = "field" ∨ e.name = "define-field" then [(.keyword .fieldWrapping, e)] else [])
      fun _ => True := by
  split
  · next hkind =>
    rw [if_pos (hu.1 hkind)]
    refine .last (.lift (told_keyword e .fieldWrapping Vocabulary.judged_fieldWrapping))
      fun wrapping _ => ?_
    split
    · exact .pure trivial
    · exact .pure trivial
  · next hkind =>
    rw [if_neg fun hname => hkind (hu.2 hname)]
    exact .pure trivial

theorem tells_modelUsage {e : Element} {definition : List Check} {target : Reading Usage}
    (ht : Tells target
      (if e.name = "assembly" ∨ e.name = "field" then [(.inked "ref", e)] else definition)
      (UsesAs e)) :
    Tells (modelUsage e target) (e.checksOfEntry definition) fun _ => True := by
  unfold modelUsage Element.checksOfEntry
  rw [List.append_assoc, List.append_assoc]
  refine .bind ht fun t ht => ?_
  refine .bind (.lift (told_occurrence e t)) fun u hu => ?_
  have hu : UsesAs e u := by rw [UsesAs, hu]; exact ht
  rw [Element.checksOfGroup]
  cases e.child? "group-as" with
  | some group =>
    refine .bind (.lift (told_groupOf group)) fun g _ => ?_
    have hgrouped : UsesAs e { u with groupAs := some g } := hu
    exact .first (.pure hgrouped) fun u hu => tells_wrapping hu
  | none => exact .first (.pure hu) fun u hu => tells_wrapping hu

mutual

theorem tells_modelOf : ∀ (nodes : List Node) (tag : Tag),
    Tells (modelOf nodes) (Element.checksOfEntries (Element.entries ⟨tag, nodes⟩)) fun _ => True
  | [], _ => .pure trivial
  | .text _ :: later, tag => by
    unfold modelOf
    exact tells_modelOf later tag
  | .element tag' children :: later, tag => by
    unfold modelOf
    split
    · next hname =>
      rw [Element.entries_cons_model hname]
      exact tells_modelItems children
    · next hname =>
      rw [Element.entries_cons_of_ne hname]
      exact tells_modelOf later tag

theorem tells_modelItems : ∀ nodes : List Node,
    Tells (modelItems nodes) (Element.checksOfEntries (Element.entriesAmong nodes)) fun _ => True
  | [] => .pure trivial
  | node :: later => by
    unfold modelItems
    rw [Element.entriesAmong_cons, Element.checksOfEntries_append]
    refine .bind (tells_modelItem node) fun item _ => ?_
    exact .last (tells_modelItems later) fun items _ => .pure trivial

theorem tells_modelItem : ∀ node : Node,
    Tells (modelItem node) (Element.checksOfEntries (Element.entriesAmong [node])) fun _ => True
  | .text _ => .pure trivial
  | .element tag children => by
    unfold modelItem
    split
    · next hname =>
      rw [Element.entriesAmong_choice hname]
      exact .last (tells_choiceMembers children) fun members _ => .pure trivial
    · next hname =>
      rw [Element.entriesAmong_eq_nil (by simp [hname])
        (by simp [Element.isEntry, Element.name, hname])]
      exact .pure trivial
    · next hname =>
      rw [Element.entriesAmong_eq_nil (by simp [hname])
        (by simp [Element.isEntry, Element.name, hname])]
      exact .pure trivial
    · next hchoice _ _ =>
      split
      · next target ht =>
        obtain ⟨hentry, htarget⟩ := tells_modelTarget (tells_modelOf children tag) ht
        rw [Element.entriesAmong_of_ne hchoice, List.filter_cons_of_pos hentry,
          Element.checksOfEntries_cons]
        exact .bind (tells_modelUsage htarget) fun u _ => .pure trivial
      · next ht =>
        rw [Element.entriesAmong_eq_nil hchoice (isEntry_of_modelTarget_eq_none ht)]
        exact .pure trivial

theorem tells_choiceMembers : ∀ nodes : List Node,
    Tells (choiceMembers nodes) (Element.checksOfEntries
      ((nodes.filterMap Node.element?).filter Element.isEntry)) fun _ => True
  | [] => .pure trivial
  | .text _ :: later => by
    unfold choiceMembers
    exact tells_choiceMembers later
  | .element tag children :: later => by
    unfold choiceMembers
    rw [List.filterMap_cons_some (show Node.element? (.element tag children) = some ⟨tag, children⟩
      from rfl)]
    split
    · next target ht =>
      obtain ⟨hentry, htarget⟩ := tells_modelTarget (tells_modelOf children tag) ht
      rw [List.filter_cons_of_pos hentry, Element.checksOfEntries_cons]
      refine .bind (tells_modelUsage htarget) fun u _ => ?_
      exact .last (tells_choiceMembers later) fun us _ => .pure trivial
    · next ht =>
      rw [List.filter_cons_of_neg (by simp [isEntry_of_modelTarget_eq_none ht])]
      exact tells_choiceMembers later

end

/-! ## Documents -/

theorem tells_readBody (es : List Element) :
    Tells (readBody es) (es.flatMap fun e =>
      if e.name = "import" then [(.inked "href", e)] else e.checksOfDefinition) fun _ => True := by
  induction es with
  | nil => exact .pure trivial
  | cons e later ih =>
    rw [List.flatMap_cons]
    unfold readBody
    split
    · next hname =>
      rw [if_pos hname]
      refine .bind (.lift (told_required e "href")) fun href _ => ?_
      exact .last ih fun imports _ => .pure trivial
    · next hname =>
      rw [if_neg (by simp [hname])]
      exact .bind (tells_defineAssembly .everywhere hname (tells_modelOf e.children e.tag))
        fun _ _ => ih
    · next hname =>
      rw [if_neg (by simp [hname])]
      exact .bind (tells_defineField .everywhere hname) fun _ _ => ih
    · next hname =>
      rw [if_neg (by simp [hname]), Element.checksOfDefinition_flag hname]
      exact .bind (tells_defineFlag .everywhere e) fun _ _ => ih
    · next himport hassembly hfield hflag =>
      have hnone : e.checksOfDefinition = [] := by
        refine List.eq_nil_iff_forall_not_mem.2 fun check h => ?_
        rcases Element.name_of_mem_checksOfDefinition h with hname | hname | hname
        · exact hassembly hname
        · exact hfield hname
        · exact hflag hname
      rw [if_neg himport, hnone]
      exact ih

theorem told_headerOf (path : Path) (root : Element) :
    Told [(.yesOrNo "abstract", root)] (fun _ => True) (headerOf path root) := by
  unfold headerOf
  exact .last (told_yesOrNo root "abstract") fun isAbstract _ => .pure trivial

/-- Reading a document tells of what is asked of its elements. -/
theorem told_ofElement (path : Path) (root : Element) :
    Told root.checks (fun _ => True) (Draft.ofElement path root) := by
  unfold Draft.ofElement
  split
  · next hname => exact .failAt .metaschema hname rfl
  · next hname =>
    refine .cons .metaschema (of_not_not hname) ?_
    refine .bind (told_headerOf path root) fun header _ => ?_
    exact .last (tells_readBody root.elements []) fun result _ => .pure trivial

namespace Draft

section

variable {entities : EntityMap} {path : Path} {source : String} {root : Element}

/-- A text that has a root is read exactly when the root is valid. When it is not, the error tells
    of the first rule, in the order of reading, that does not hold, with the element that breaks it
    and its line. -/
theorem read_iff_valid (h : Element.parse entities source = .ok root) :
    ((∃ draft, read entities path source = .ok draft) ↔ root.Valid) ∧
    ∀ error, read entities path source = .error error → ∃ before rule e after,
      root.checks = before ++ (rule, e) :: after ∧
      (∀ check ∈ before, check.1.Holds check.2) ∧ root.Asks rule e ∧ ¬ rule.Holds e ∧
      error.element = e.name ∧ error.line = e.position.line ∧ rule.Tells e error.fault := by
  have htold := told_ofElement path root
  rw [read, h]
  dsimp only
  cases hread : ofElement path root with
  | ok draft =>
    rw [hread] at htold
    refine ⟨⟨fun _ => Element.valid_iff.2 htold.1, fun _ => ⟨draft, rfl⟩⟩, fun error he => ?_⟩
    cases he
  | error error =>
    rw [hread] at htold
    obtain ⟨before, rule, e, after, hchecks, hbefore, hbroken, htells⟩ := htold
    have hasked : root.Asks rule e := Element.mem_checks_iff.1 (by rw [hchecks]; simp)
    refine ⟨⟨?_, fun hvalid => absurd (hvalid rule e hasked) hbroken⟩, ?_⟩
    · rintro ⟨draft, hdraft⟩
      cases hdraft
    · intro error' he
      cases he
      exact ⟨before, rule, e, after, hchecks, hbefore, hasked, hbroken, htells⟩

end

/-- A field of the given name in a choice of a model, with blanks around its datatype. -/
def choiceText (name : String) : String :=
  "<METASCHEMA><define-assembly name=\"a\"><model><choice>\n<define-field name=\"" ++ name ++
    "\" as-type=\" token \"/></choice></model></define-assembly></METASCHEMA>"

/-- The field has to have a name that is not blank. -/
theorem read_iff_valid_choiceText :
    (∃ root, Element.parse [] (choiceText "f") = .ok root ∧ root.Valid) ∧
    ∃ root rule e, Element.parse [] (choiceText " ") = .ok root ∧ root.Asks rule e ∧
      ¬ rule.Holds e ∧ e.name = "define-field" ∧ e.position.line = 2 := by
  have hread : (read [] ⟨"a"⟩ (choiceText "f")).isOk = true := by decide +kernel
  have hparse : (Element.parse [] (choiceText " ")).isOk = true := by decide +kernel
  have hfault : read [] ⟨"a"⟩ (choiceText " ") = .error ⟨"define-field", 2, .missing "name"⟩ := by
    decide +kernel
  constructor
  · obtain ⟨draft, hdraft⟩ := exists_of_isOk hread
    obtain ⟨root, _, _, hroot, _⟩ := exists_of_read hdraft
    exact ⟨root, hroot, (read_iff_valid hroot).1.1 ⟨draft, hdraft⟩⟩
  · obtain ⟨root, hroot⟩ := exists_of_isOk hparse
    obtain ⟨_, rule, e, _, _, _, hasked, hbroken, hname, hline, _⟩ :=
      (read_iff_valid hroot).2 _ hfault
    exact ⟨root, rule, e, hroot, hasked, hbroken, hname.symm, hline.symm⟩

end Draft

end SchemaFamily
