import Mathlib.Data.List.Find
import SchemaFamily.Proofs.Family.Frames
import SchemaFamily.Proofs.Family.Kept
import SchemaFamily.Proofs.Family.Reconciling
import SchemaFamily.Proofs.Family.Rounds

/-
  Reconciling under several suffixes. A family that was linked may be reconciled again and again,
  each time under another suffix. Every call makes the same demands under its suffix, and the
  multiplexers, the names and the usages are those of all demands so far (`Graph.Meets`), so it is
  known which multiplexer represents a usage after any number of calls
  (`represented_of_suffixes`).
-/

namespace SchemaFamily

namespace Graph

variable {g g' g₀ : Graph} {demands : List Multiplexer} {suffix : String}

/-- The multiplexers are those that meet the demands, and each name and each usage stands for the
    one that it should. -/
structure Meets (g : Graph) (demands : List Multiplexer) : Prop where
  multiplexers : g.multiplexers = (arena demands).toArray
  names : ∀ name, g.multiplexerNamed? name = (sharedBy? demands name).map (·.id)
  usages : ∀ ref, g.multiplexerFor? ref = (representing? demands ref).map (·.id)

theorem Unshared.meets (h : g.Unshared) : g.Meets [] := by
  refine ⟨h.multiplexers, fun name => ?_, fun ref => ?_⟩
  · rw [multiplexerNamed?, h.names]
    rfl
  · rw [multiplexerFor?, h.usages]
    rfl

/-- Documents and declarations do not matter. -/
theorem Meets.congr (h : g.Meets demands) (hm : g'.multiplexers = g.multiplexers)
    (hn : g'.multiplexerNames = g.multiplexerNames)
    (hu : g'.multiplexerUsages = g.multiplexerUsages) : g'.Meets demands :=
  ⟨hm.trans h.multiplexers, fun name => by rw [← h.names, multiplexerNamed?, hn, multiplexerNamed?],
    fun ref => by rw [← h.usages, multiplexerFor?, hu, multiplexerFor?]⟩

theorem Meets.sortMultiplexers (h : g.Meets demands) {id : DocumentId}
    (hg : g.sortMultiplexers id = .ok g') : g'.Meets demands := by
  obtain ⟨_, _, _, _, rfl⟩ := eq_of_sortMultiplexers hg
  exact h.congr rfl rfl rfl

theorem multiplexerFor?_bindUsage (g : Graph) (u ref : UsageRef) (id : MultiplexerId) :
    (g.bindUsage u id).multiplexerFor? ref =
      (g.multiplexerFor? ref).or (if u = ref then some id else none) := by
  rw [Graph.bindUsage]
  by_cases hu : u = ref
  · subst hu
    rw [if_pos rfl]
    split
    · next h =>
      obtain ⟨i, hi⟩ := Option.isSome_iff_exists.1 h
      rw [hi, Option.some_or]
    · next h =>
      rw [Option.not_isSome_iff_eq_none.1 h, Option.none_or, multiplexerFor?, List.lookup_cons_self]
  · rw [if_neg hu, Option.or_none]
    split
    · rfl
    · have hbeq : (ref == u) = false := by simpa using Ne.symm hu
      rw [multiplexerFor?, List.lookup_cons, hbeq, multiplexerFor?]

/-- A usage is represented as the demands say when a demand is met by a multiplexer there is. -/
theorem Meets.bindUsage (h : g.Meets demands) {m s : Multiplexer}
    (hs : sharedBy? demands m.name = some s) :
    (g.bindUsage m.usage s.id).Meets (demands ++ [m]) := by
  have hmem : m.name ∈ demands.map (·.name) := by
    by_contra hnot
    cases hs.symm.trans (sharedBy?_eq_none hnot)
  have hfields : (g.bindUsage m.usage s.id).multiplexers = g.multiplexers ∧
      (g.bindUsage m.usage s.id).multiplexerNames = g.multiplexerNames := by
    rw [Graph.bindUsage]
    split <;> exact ⟨rfl, rfl⟩
  refine ⟨?_, fun name => ?_, fun ref => ?_⟩
  · rw [hfields.1, h.multiplexers, arena_append_of_mem hmem]
  · rw [multiplexerNamed?, hfields.2, sharedBy?, arena_append_of_mem hmem]
    exact h.names name
  · rw [multiplexerFor?_bindUsage, h.usages, representing?_append_of_mem hmem, hs]
    by_cases href : m.usage = ref
    · rw [if_pos href, if_pos href]
      cases representing? demands ref <;> rfl
    · rw [if_neg href, if_neg href, Option.or_none, Option.or_none]

/-- A usage is represented as the demands say when its demand is met by a new multiplexer. -/
theorem Meets.addMultiplexer (h : g.Meets demands) {m : Multiplexer}
    (hm : sharedBy? demands m.name = none) {id : MultiplexerId}
    (hadd : g.addMultiplexer (fun id => { m with id }) = (g', .ok id)) :
    g'.Meets (demands ++ [m]) := by
  have hnew : m.name ∉ demands.map (·.name) := by
    intro hmem
    obtain ⟨s, hs⟩ := exists_sharedBy? hmem
    cases hm.symm.trans hs
  have hsize : g.multiplexers.size = (arena demands).length := by
    rw [h.multiplexers, List.size_toArray]
  rcases g.addMultiplexer_cases (fun id => { m with id }) rfl with hcase | ⟨_, hcase⟩
  · rw [hcase] at hadd
    cases hadd
  · rw [hcase] at hadd
    cases hadd
    refine ⟨?_, fun name => ?_, fun ref => ?_⟩
    · dsimp only
      rw [hsize, h.multiplexers, arena_append_of_not_mem hnew, List.push_toArray]
    · rw [multiplexerNamed?, List.lookup_cons]
      by_cases hname : name = m.name
      · subst hname
        rw [beq_self_eq_true, sharedBy?_append_self hnew, hsize]
        rfl
      · have hbeq : (name == m.name) = false := by simpa using hname
        rw [hbeq, sharedBy?_append_of_ne hname]
        exact h.names name
    · rw [multiplexerFor?, List.lookup_cons, representing?_append_of_not_mem hnew]
      by_cases href : m.usage = ref
      · subst href
        rw [beq_self_eq_true, if_pos rfl, hsize]
        rfl
      · have hbeq : (ref == m.usage) = false := by simpa using Ne.symm href
        rw [hbeq, if_neg href]
        exact h.usages ref

/-- A demand that is met is among the demands from then on. -/
theorem brings_meetDemand (m : Multiplexer) :
    Pass.Brings (·.Meets demands) (meetDemand m) fun _ g => g.Meets (demands ++ [m]) := by
  intro g hg n g' happly
  rw [meetDemand, Pass.apply_bind_of_ok (Pass.apply_get g)] at happly
  have hname := hg.names m.name
  cases hs : sharedBy? demands m.name with
  | some s =>
    rw [hs, Option.map_some] at hname
    rw [hname] at happly
    refine Pass.Brings.bind (P := (·.Meets demands)) (R := fun _ g => g.Meets (demands ++ [m]))
      (.ask _) (fun found => ?_) g hg n g' happly
    refine Pass.Brings.bind (Q := fun _ => (·.Meets demands))
      (.change fun g g' hg hregister => ?_) fun _ => ?_
    · rcases eq_of_registerDependency hregister with rfl | ⟨_, _, rfl⟩
      · exact hg.1
      · exact hg.1.congr rfl rfl rfl
    · exact Pass.Brings.bind (.modify fun g hg => hg.bindUsage hs) fun _ => .pure fun g hg => hg
  | none =>
    rw [hs, Option.map_none] at hname
    rw [hname] at happly
    dsimp only at happly
    rw [Pass.apply_bind_of_ok (Pass.apply_get g)] at happly
    rcases hadd : g.addMultiplexer fun id => { m with id } with ⟨g₁, handle | id⟩
    · rw [hadd] at happly
      cases happly
    · rw [hadd] at happly
      cases happly
      exact hg.addMultiplexer hs hadd

/-! ## Calls that make demands -/

/-- In a family of the same core the demands are met. -/
def Reconciled (g₀ : Graph) (demands : List Multiplexer) (g : Graph) : Prop :=
  g₀.SameCore g ∧ g.Meets demands

theorem demanded_under (g : Graph) (suffix suffix' : String) (e : Eligible) :
    g.demanded suffix' e = (g.demanded suffix e).map (·.under suffix') := by
  rw [demanded, demanded]
  cases g.document e.document with
  | error handle => rfl
  | ok owner =>
    cases e.candidate.value.declaration? with
    | none => rfl
    | some wrapped =>
      dsimp only
      cases g.declaration wrapped with
      | error handle => rfl
      | ok target =>
        dsimp only
        cases MultiplexMode.of? e.candidate.group target <;> rfl

/-- Under another suffix the same is demanded, named otherwise. -/
theorem demands_under (g : Graph) (suffix suffix' : String) (es : List Eligible) :
    g.demands suffix' es = (g.demands suffix es).map (·.under suffix') := by
  rw [demands, demands, List.map_filterMap]
  refine congrArg (fun f => es.filterMap f) (funext fun e => ?_)
  rw [demanded_under g suffix suffix']
  cases g.demanded suffix e <;> rfl

theorem demands_append (g : Graph) (suffix : String) (es later : List Eligible) :
    g.demands suffix (es ++ later) = g.demands suffix es ++ g.demands suffix later :=
  List.filterMap_append

theorem demands_flatMap {α : Type} (g : Graph) (suffix : String) (as : List α)
    (f : α → List Eligible) :
    g.demands suffix (as.flatMap f) = as.flatMap fun a => g.demands suffix (f a) := by
  induction as with
  | nil => rfl
  | cons a later ih => rw [List.flatMap_cons, List.flatMap_cons, demands_append, ih]

/-- Reconciling a usage meets its demand. -/
theorem brings_reconcileUsage (suffix : String) (e : Eligible) :
    Pass.Brings (g₀.Reconciled demands) (reconcileUsage suffix e.document e.candidate) fun _ =>
      g₀.Reconciled (demands ++ g₀.demands suffix [e]) := by
  rintro g ⟨hcore, hmeets⟩ n g' happly
  have hkept := keepsCore_reconcileUsage suffix e g
  rw [happly] at hkept
  refine ⟨hcore.trans hkept, ?_⟩
  rw [apply_reconcileUsage, hcore.demanded] at happly
  cases hd : g₀.demanded suffix e with
  | error failure =>
    rw [hd] at happly
    cases happly
  | ok m =>
    rw [hd] at happly
    have hone : g₀.demands suffix [e] = [m] := by
      rw [Graph.demands, List.filterMap_cons, hd]
      rfl
    rw [hone]
    exact brings_meetDemand m g hmeets n g' happly

/-- Reconciling a document meets the demands of its eligible usages. -/
theorem brings_reconcileDocument (h : g₀.Arranged) (suffix : String) {document : DocumentId}
    (hlt : document.index < g₀.documents.size) :
    Pass.Brings (g₀.Reconciled demands) (reconcileDocument suffix document) fun _ =>
      g₀.Reconciled (demands ++ g₀.demands suffix (g₀.eligible [document])) := by
  rintro g hg n g' happly
  have hcandidates := hg.1.candidates_eq h hlt
  rw [reconcileDocument, Pass.apply_bind_ask hcandidates] at happly
  have hone (c : Candidate) (done : List Multiplexer) :
      Pass.Brings (g₀.Reconciled done) (reconcileUsage suffix document c) fun _ =>
        g₀.Reconciled (done ++ g₀.demands suffix [⟨document, c⟩]) :=
    brings_reconcileUsage suffix ⟨document, c⟩
  have htotal := Pass.Brings.total_append (S := g₀.Reconciled)
    (fun c (_ : c ∈ (g₀.holdings document).flatMap Declaration.candidates) => hone c) demands
  rw [← demands_flatMap, ← eligible_singleton h hlt] at htotal
  have hsort : ∀ made : Nat, Pass.Brings
      (g₀.Reconciled (demands ++ g₀.demands suffix (g₀.eligible [document])))
      (Pass.change (·.sortMultiplexers document) >>= fun _ => pure made)
      fun _ => g₀.Reconciled (demands ++ g₀.demands suffix (g₀.eligible [document])) := by
    intro made
    refine .bind (.change fun g g' hg hsorted => ?_) fun _ => .pure fun g hg => hg
    exact ⟨hg.1.trans (sameCore_sortMultiplexers hsorted), hg.2.sortMultiplexers hsorted⟩
  exact Pass.Brings.bind htotal hsort g hg n g' happly

/-- Reconciling a family meets the demands of its eligible usages, documents after their imports. -/
theorem brings_reconcile (h : g₀.InOrder) (hne : g₀.documents.size ≠ 0)
    {documents : List DocumentId} (hpost : g₀.Postorder [.ofIndex 0] documents)
    (hperm : documents.Perm (g₀.documents.toList.map (·.id))) (suffix : String) :
    Pass.Brings (g₀.Reconciled demands) (reconcile suffix) fun _ =>
      g₀.Reconciled (demands ++ g₀.demands suffix (g₀.eligible documents)) := by
  rintro g hg n g' happly
  have himports := hg.1.sameImports
  obtain ⟨taken, htaken, htakenPost, _⟩ :=
    postorder_of_spans (h.congr hg.1.sameOutline himports).spans
  obtain rfl : documents = taken := (hpost.congr himports).unique htakenPost
  have hroot : g.root? = some (.ofIndex 0) := by
    rw [root?, if_neg]
    simpa [Array.isEmpty, ← hg.1.sameOutline.size_documents] using hne
  rw [reconcile, Pass.apply_bind_of_ok (Pass.apply_get g), hroot] at happly
  dsimp only at happly
  rw [Pass.apply_bind_ask htaken] at happly
  have hall : g₀.demands suffix (g₀.eligible documents) =
      documents.flatMap fun document => g₀.demands suffix (g₀.eligible [document]) := by
    rw [← demands_flatMap]
    refine congrArg _ ?_
    rw [eligible, List.flatMap_assoc]
    refine List.flatMap_congr fun document _ => ?_
    rw [eligible, List.flatMap_singleton]
  rw [hall]
  refine Pass.Brings.total_append (fun document hd done => ?_) demands g hg n g' happly
  exact brings_reconcileDocument h.arranged suffix (h.arranged.mem_ids_iff.1 (hperm.mem_iff.1 hd))

/-- Every multiplexer is found under its handle, unless there are more of them than handles. -/
theorem Meets.multiplexer (h : g.Meets demands) (hcap : g.multiplexers.size ≤ maxIndex + 1)
    {m : Multiplexer} (hm : m ∈ g.multiplexers) : g.multiplexer m.id = .ok m := by
  obtain ⟨i, hi⟩ := Array.getElem?_of_mem hm
  have hlt := (Array.getElem?_eq_some_iff.1 hi).1
  have hplace := hi
  rw [h.multiplexers, List.getElem?_toArray, arena, getElem?_numbered,
    Option.map_eq_some_iff] at hplace
  obtain ⟨d, _, rfl⟩ := hplace
  rw [Graph.multiplexer, Handle.index_ofIndex_of_le (by omega), hi]

/-- The name of what a usage uses. -/
def targetName? (g : Graph) (e : Eligible) : Option String :=
  (e.candidate.value.declaration?.bind fun wrapped => g.declarations[wrapped.index]?).map (·.name)

theorem targetName?_of_demanded {e : Eligible} {m : Multiplexer}
    (h : g.demanded suffix e = .ok m) : g.targetName? e = some m.wrappedName := by
  have hm := madeFor_of_demanded h
  obtain ⟨t, ht, hwrapped, _⟩ := hm.target
  rw [targetName?, hm.wrapped, Option.bind_some, ht, Option.map_some, hwrapped]

/-- The demand that is found first is that of the usage that is found first. -/
theorem find?_demands {es : List Eligible} (hall : ∀ e ∈ es, ∃ m, g.demanded suffix e = .ok m)
    {p : Multiplexer → Bool} {q : Eligible → Bool}
    (hpq : ∀ e ∈ es, ∀ m, g.demanded suffix e = .ok m → p m = q e) :
    (g.demands suffix es).find? p =
      (es.find? q).bind fun e => (g.demanded suffix e).toOption := by
  induction es with
  | nil => rfl
  | cons e later ih =>
    rw [List.forall_mem_cons] at hall hpq
    obtain ⟨m, hm⟩ := hall.1
    have hdemands : g.demands suffix (e :: later) = m :: g.demands suffix later := by
      rw [Graph.demands, List.filterMap_cons, hm]
      rfl
    rw [hdemands, List.find?_cons, List.find?_cons, hpq.1 m hm]
    cases q e with
    | true =>
      dsimp only
      rw [Option.bind_some, hm]
      rfl
    | false => exact ih hall.2 hpq.2

/-- Of some usages, those whose targets have the name `x` are represented by multiplexers that wrap
    what has this name: all but the first by the one that was named under the suffix, and the first
    by the newest of those made for it. -/
structure Represents (g g' : Graph) (es : List Eligible) (suffix x : String) (first : Eligible)
    (shared newest : Multiplexer) : Prop where
  shared_mem : shared ∈ g'.multiplexers
  newest_mem : newest ∈ g'.multiplexers
  shared_wrappedName : shared.wrappedName = x
  newest_wrappedName : newest.wrappedName = x
  shared_name : shared.name = x ++ suffix
  others : ∀ e ∈ es, g.targetName? e = some x → e ≠ first →
    g'.multiplexerFor? e.candidate.usage = some shared.id
  of_first : g'.multiplexerFor? first.candidate.usage = some newest.id
  find?_newest :
    g'.multiplexers.toList.reverse.find? (·.usage == first.candidate.usage) = some newest
  newest_eq_iff : newest = shared ↔
    ∀ m ∈ g'.multiplexers, m.usage = first.candidate.usage → m = shared

/-- Where the demands of some usages are met in several rounds, it is the first round that names the
    multiplexer that usages share. -/
theorem Meets.represents {es : List Eligible} {later : List String}
    (h : g'.Meets (rounds (suffix :: later) (g.demands suffix es)))
    (hall : ∀ e ∈ es, ∃ m, g.demanded suffix e = .ok m)
    (hnodup : (es.map (·.candidate.usage)).Nodup) {first : Eligible} {x : String}
    (hfirst : es.find? (g.targetName? · == some x) = some first) :
    ∃ shared newest, g.Represents g' es suffix x first shared newest ∧
      ((∀ s ∈ later, s = suffix) → newest = shared) := by
  have hbase := hnodup.sublist (usages_demands_sublist g suffix es)
  have hmem := List.mem_of_find?_eq_some hfirst
  obtain ⟨b, hb⟩ := hall first hmem
  have husage : b.usage = first.candidate.usage := (madeFor_of_demanded hb).usage
  -- the first demand for a name is that of the first usage whose target has it
  have hfind : (g.demands suffix es).find? (·.wrappedName == x) = some b := by
    have hkeys := find?_demands hall (p := (·.wrappedName == x)) (q := (g.targetName? · == some x))
      fun e _ m hm => by rw [targetName?_of_demanded hm, Option.some_beq_some]
    rw [hkeys, hfirst, Option.bind_some, hb]
    rfl
  have hx : b.wrappedName = x := by simpa using List.find?_some hfind
  subst hx
  have hlist : g'.multiplexers.toList =
      arena (rounds (suffix :: later) (g.demands suffix es)) := by
    rw [h.multiplexers, List.toList_toArray]
  have hin : ∀ {m}, m ∈ arena (rounds (suffix :: later) (g.demands suffix es)) ↔
      m ∈ g'.multiplexers := by
    intro m
    rw [← hlist, Array.mem_toList_iff]
  obtain ⟨shared, hshared, _, hsb⟩ := exists_sharedBy?_rounds suffix later hfind
  obtain ⟨newest, hrep, hnewest, s, hs, hnb⟩ := representing?_rounds_first hbase suffix
    later hfind
  obtain ⟨hsharedMem, hsharedName⟩ := mem_of_sharedBy? hshared
  have hnewestMem := List.mem_reverse.1 (List.mem_of_find?_eq_some hnewest)
  refine ⟨shared, newest, ⟨hin.1 hsharedMem, hin.1 hnewestMem, by rw [hsb]; rfl, by rw [hnb]; rfl,
    hsharedName, fun e he hname hne => ?_, ?_, ?_, ?_⟩, fun hsame => ?_⟩
  · obtain ⟨c, hc⟩ := hall e he
    have hwrapped : c.wrappedName = b.wrappedName := by
      rw [targetName?_of_demanded hc] at hname
      exact Option.some.inj hname
    have hcusage : c.usage = e.candidate.usage := (madeFor_of_demanded hc).usage
    have hother : ¬ c.Leads (g.demands suffix es) := by
      intro hlead
      rw [Multiplexer.Leads, hwrapped, hfind] at hlead
      refine hne (List.inj_on_of_nodup_map hnodup he hmem ?_)
      rw [← hcusage, ← Option.some.inj hlead, husage]
    rw [h.usages, ← hcusage,
      representing?_rounds_other hbase (mem_demands.2 ⟨e, he, hc⟩) hother, hwrapped, hshared]
    rfl
  · rw [h.usages, ← husage, hrep]
    rfl
  · rw [hlist, ← husage]
    exact hnewest
  · rw [SchemaFamily.newest_eq_iff hbase hfind hshared hnewest, husage]
    simp only [hin]
  · have hsuffix : s = suffix := by
      rcases List.mem_cons.1 hs with rfl | hlater
      · rfl
      · exact hsame s hlater
    have hname : newest.name = b.wrappedName ++ suffix := by
      rw [hnb, hsuffix]
      rfl
    have hself := sharedBy?_of_mem hnewestMem
    rw [hname, hshared] at hself
    exact (Option.some.inj hself).symm

end Graph

section

variable {tree : ImportTree} {suffix : String} {later : List String} {k : Nat} {made : List Nat}
  {g g' : Graph}

/-- After any number of calls the demands of each of them are met. -/
theorem meets_of_calls (ha : (Graph.ofTree tree).Addressable)
    (hl : link.apply (Graph.ofTree tree) = (.ok k, g))
    (hs : Pass.Calls reconcile g (suffix :: later) made g') :
    ∃ documents, g.Postorder [.ofIndex 0] documents ∧
      documents.Perm (g.documents.toList.map (·.id)) ∧
      (∀ e ∈ g.eligible documents, ∃ m, g.demanded suffix e = .ok m) ∧
      g'.Meets (rounds (suffix :: later) (g.demands suffix (g.eligible documents))) := by
  obtain ⟨h, _, hunshared, hne⟩ := reconcilable_of_link ha hl
  obtain ⟨documents, hpost, hperm, hall⟩ : ∃ documents, g.Postorder [.ofIndex 0] documents ∧
      documents.Perm (g.documents.toList.map (·.id)) ∧
      ∀ e ∈ g.eligible documents, ∃ m, g.demanded suffix e = .ok m := by
    cases hs with
    | cons first _ =>
      obtain ⟨documents, hpost, hperm, hall, _⟩ := served_of_reconcile ha hl first
      exact ⟨documents, hpost, hperm, hall⟩
  have hbrings : ∀ t done, Pass.Brings (g.Reconciled done) (reconcile t) fun _ =>
      g.Reconciled (done ++ (g.demands suffix (g.eligible documents)).map (·.under t)) := by
    intro t done
    rw [← g.demands_under suffix t]
    exact Graph.brings_reconcile h hne hpost hperm t
  have hstart : g.Reconciled [] g := ⟨.refl g, hunshared.meets⟩
  exact ⟨documents, hpost, hperm, hall, (hs.brings hbrings hstart).2⟩

/-- When a family that was linked is reconciled under one suffix after the other, every eligible
    usage is represented by a multiplexer that wraps what has the name of its target. Of the
    usages whose targets have one name, taken document by document and documents after their
    imports, all but the first are represented by the one multiplexer that was named under the first
    suffix. The first is represented by the newest of those made for it, which is the same only if
    no other was made for it, as when the suffix is the same every time. -/
theorem represented_of_suffixes (ha : (Graph.ofTree tree).Addressable)
    (hl : link.apply (Graph.ofTree tree) = (.ok k, g))
    (hs : Pass.Calls reconcile g (suffix :: later) made g') :
    ∃ documents, g.Postorder [.ofIndex 0] documents ∧
      documents.Perm (g.documents.toList.map (·.id)) ∧
      (∀ e, e ∈ g.eligible documents ↔ ∃ d ∈ g.declarations, ∃ slot u,
        d.definition.usage? slot = some u ∧ d.eligibleAt slot u = some e) ∧
      (g'.multiplexers.size ≤ maxIndex + 1 →
        ∀ m ∈ g'.multiplexers, g'.multiplexer m.id = .ok m) ∧
      (∀ e ∈ g.eligible documents, ∃ t ∈ g.declarations,
        e.candidate.value.declaration? = some t.id ∧ g.targetName? e = some t.name) ∧
      ∀ first x, (g.eligible documents).find? (g.targetName? · == some x) = some first →
        ∃ shared newest, g.Represents g' (g.eligible documents) suffix x first shared newest ∧
          ((∀ s ∈ later, s = suffix) → newest = shared) := by
  obtain ⟨h, _⟩ := reconcilable_of_link ha hl
  obtain ⟨documents, hpost, hperm, hall, hmeets⟩ := meets_of_calls ha hl hs
  have husages := Graph.nodup_eligible h.arranged hperm
  refine ⟨documents, hpost, hperm, fun e => ?_, fun hcap m hm => hmeets.multiplexer hcap hm,
    fun e he => ?_, fun first x hfirst => hmeets.represents hall husages hfirst⟩
  · rw [Graph.mem_eligible_iff h.arranged hperm]
    refine exists_congr fun d => and_congr_right fun _ => ?_
    rw [Declaration.eligible, List.mem_filterMap, Prod.exists]
    simp only [Definition.mem_usages_iff]
  · obtain ⟨m, hm⟩ := hall e he
    obtain ⟨t, ht, hwrapped, _⟩ := (Graph.madeFor_of_demanded hm).target
    have hid : t.id = m.wrapped := Handle.ext (h.arranged.declaration_index ht)
    refine ⟨t, Array.mem_of_getElem? ht, ?_, ?_⟩
    · rw [hid, (Graph.madeFor_of_demanded hm).wrapped]
    · rw [Graph.targetName?_of_demanded hm, hwrapped]

end

/-- A file that groups the same field twice. -/
def groupedTwice : Disk := .ofSights
  [(⟨"a"⟩, .file (some ("<METASCHEMA><define-field name=\"p\"/>" ++
      "<define-assembly name=\"q\"><model><field ref=\"p\"><group-as name=\"g\"/></field>" ++
      "<field ref=\"p\"><group-as name=\"h\"/></field></model></define-assembly></METASCHEMA>")))]

/-- The family is one document, in which two usages have the target `p`. Under the suffixes `A` and
    `B` two multiplexers are made, and the second comes to represent the first usage only. -/
theorem calls_groupedTwice :
    ∃ tree c' k g made g', (resolve groupedTwice [] ⟨"a"⟩ ⟨""⟩).run.run {} = (.ok tree, c') ∧
      (Graph.ofTree tree).Addressable ∧ link.apply (Graph.ofTree tree) = (.ok k, g) ∧
      Pass.Calls reconcile g ["A", "B"] made g' ∧
      g.documents.toList.map (·.id) = [.ofIndex 0] ∧
      (g.eligible [.ofIndex 0]).map (fun e => (e.candidate.usage, g.targetName? e)) =
        [(⟨.ofIndex 1, .model 0⟩, some "p"), (⟨.ofIndex 1, .model 1⟩, some "p")] ∧
      g'.multiplexers.toList.map (·.name) = ["pA", "pB"] ∧
      g'.multiplexerFor? ⟨.ofIndex 1, .model 0⟩ = some (.ofIndex 1) ∧
      g'.multiplexerFor? ⟨.ofIndex 1, .model 1⟩ = some (.ofIndex 0) := by
  have hkey : succeeds (fun tree _ => decide (Graph.ofTree tree).Addressable &&
        succeeds (fun _ g =>
            succeeds (fun _ g' => decide (
                g.documents.toList.map (·.id) = [.ofIndex 0] ∧
                (g.eligible [.ofIndex 0]).map (fun e => (e.candidate.usage, g.targetName? e)) =
                  [(⟨.ofIndex 1, .model 0⟩, some "p"), (⟨.ofIndex 1, .model 1⟩, some "p")] ∧
                g'.multiplexers.toList.map (·.name) = ["pA", "pB"] ∧
                g'.multiplexerFor? ⟨.ofIndex 1, .model 0⟩ = some (.ofIndex 1) ∧
                g'.multiplexerFor? ⟨.ofIndex 1, .model 1⟩ = some (.ofIndex 0)))
              ((Pass.total reconcile ["A", "B"]).apply g))
          (link.apply (Graph.ofTree tree)))
      ((resolve groupedTwice [] ⟨"a"⟩ ⟨""⟩).run.run {}) = true := by
    decide +kernel
  obtain ⟨tree, c', hr, hcheck⟩ := exists_of_succeeds hkey
  obtain ⟨ha, hlink⟩ := Bool.and_eq_true_iff.1 hcheck
  obtain ⟨k, g, hl, htotal⟩ := exists_of_succeeds hlink
  obtain ⟨n, g', hs, hfacts⟩ := exists_of_succeeds htotal
  obtain ⟨made, hcalls, _⟩ := Pass.calls_of_total hs
  exact ⟨tree, c', k, g, made, g', hr, of_decide_eq_true ha, hl, hcalls, of_decide_eq_true hfacts⟩

/-- The first usage is represented by the newest multiplexer, and the other by that of the first
    suffix. -/
theorem represented_groupedTwice :
    ∃ g made g' first shared newest, Pass.Calls reconcile g ["A", "B"] made g' ∧
      g.Represents g' (g.eligible [.ofIndex 0]) "A" "p" first shared newest ∧
      g'.multiplexer shared.id = .ok shared ∧ shared.name = "pA" := by
  obtain ⟨tree, c', k, g, made, g', hr, ha, hl, hcalls, hids, heligible, hnames, _⟩ :=
    calls_groupedTwice
  obtain ⟨documents, _, hperm, _, hmultiplexer, _, hrepresents⟩ :=
    represented_of_suffixes ha hl hcalls
  rw [hids] at hperm
  obtain rfl := List.perm_singleton.1 hperm
  obtain ⟨first, hfirst⟩ : ∃ first,
      (g.eligible [.ofIndex 0]).find? (g.targetName? · == some "p") = some first := by
    have hmem : (⟨.ofIndex 1, .model 0⟩, some "p") ∈
        (g.eligible [.ofIndex 0]).map fun e => (e.candidate.usage, g.targetName? e) := by
      rw [heligible]
      exact List.mem_cons_self
    obtain ⟨e, he, hpair⟩ := List.mem_map.1 hmem
    rw [← Option.isSome_iff_exists, List.find?_isSome]
    exact ⟨e, he, by rw [(Prod.mk.inj hpair).2, beq_self_eq_true]⟩
  obtain ⟨shared, newest, hshares, _⟩ := hrepresents first "p" hfirst
  have hsize : g'.multiplexers.size ≤ maxIndex + 1 := by
    have hlength := congrArg List.length hnames
    rw [List.length_map, Array.length_toList] at hlength
    rw [hlength]
    decide
  exact ⟨g, made, g', first, shared, newest, hcalls, hshares,
    hmultiplexer hsize shared hshares.shared_mem, hshares.shared_name⟩

/-- Two usages with one target are represented by different multiplexers. -/
theorem unshared_groupedTwice :
    ∃ tree c' k g made g', (resolve groupedTwice [] ⟨"a"⟩ ⟨""⟩).run.run {} = (.ok tree, c') ∧
      link.apply (Graph.ofTree tree) = (.ok k, g) ∧ Pass.Calls reconcile g ["A", "B"] made g' ∧
      ∃ e e', e ∈ g.eligible [.ofIndex 0] ∧ e' ∈ g.eligible [.ofIndex 0] ∧
        g.targetName? e = some "p" ∧ g.targetName? e' = some "p" ∧
        g'.multiplexerFor? e.candidate.usage = some (.ofIndex 1) ∧
        g'.multiplexerFor? e'.candidate.usage = some (.ofIndex 0) := by
  obtain ⟨tree, c', k, g, made, g', hr, _, hl, hcalls, _, heligible, _, hfirst, hsecond⟩ :=
    calls_groupedTwice
  have hmem : ∀ {ref}, (ref, some "p") ∈
      ([(⟨.ofIndex 1, .model 0⟩, some "p"), (⟨.ofIndex 1, .model 1⟩, some "p")] :
        List (UsageRef × Option String)) →
      ∃ e ∈ g.eligible [.ofIndex 0], e.candidate.usage = ref ∧ g.targetName? e = some "p" := by
    intro ref href
    rw [← heligible] at href
    obtain ⟨e, he, hpair⟩ := List.mem_map.1 href
    exact ⟨e, he, Prod.mk.inj hpair⟩
  obtain ⟨e, he, heref, hename⟩ := hmem List.mem_cons_self
  obtain ⟨e', he', heref', hename'⟩ := hmem (List.mem_cons_of_mem _ List.mem_cons_self)
  exact ⟨tree, c', k, g, made, g', hr, hl, hcalls, e, e', he, he', hename, hename',
    by rw [heref, hfirst], by rw [heref', hsecond]⟩

end SchemaFamily
