import SchemaFamily.Proofs.Family.Sharing

/-
  Rounds of demands. The same demands may be made again under other suffixes (`rounds`). A demand
  whose name is new is met by a multiplexer made for it, which represents its usage from then on;
  any other demand leaves its usage as it is represented already (`representing?`). So of the usages
  of one wrapped name only the first ever has multiplexers made for it, and it is represented by the
  newest of them (`representing?_rounds_first`), whereas the others stay with the one of the first
  round (`representing?_rounds_other`).
-/

namespace SchemaFamily

/-- The multiplexer that represents a usage when demands were met one after the other: the newest of
    those made for it, else that of the name of its first demand. -/
def representing? (demands : List Multiplexer) (ref : UsageRef) : Option Multiplexer :=
  ((arena demands).reverse.find? (·.usage == ref)).or
    ((demands.find? (·.usage == ref)).bind fun m => sharedBy? demands m.name)

/-- The demand when another suffix is taken. -/
def Multiplexer.under (m : Multiplexer) (suffix : String) : Multiplexer :=
  { m with name := m.wrappedName ++ suffix }

/-- The demands made under one suffix after the other. -/
def rounds (suffixes : List String) (base : List Multiplexer) : List Multiplexer :=
  suffixes.flatMap fun suffix => base.map (·.under suffix)

@[simp]
theorem Multiplexer.usage_under (m : Multiplexer) (suffix : String) :
    (m.under suffix).usage = m.usage := rfl

/-- Names to which the same suffix is added are the same only if they were before. -/
theorem append_suffix_inj {x y suffix : String} : x ++ suffix = y ++ suffix ↔ x = y := by
  refine ⟨fun h => String.ext ?_, congrArg (· ++ suffix)⟩
  have hchars := congrArg String.toList h
  rw [String.toList_append, String.toList_append] at hchars
  exact List.append_cancel_right hchars

/-- What has a key of its own is found under it. -/
theorem find?_of_nodup {α β : Type} [BEq β] [LawfulBEq β] {key : α → β} {as : List α}
    (h : (as.map key).Nodup) {a : α} (ha : a ∈ as) : as.find? (key · == key a) = some a := by
  obtain ⟨b, hb⟩ : ∃ b, as.find? (key · == key a) = some b :=
    Option.isSome_iff_exists.1 (List.find?_isSome.2 ⟨a, ha, by simp⟩)
  have hkey : key b = key a := by simpa using List.find?_some hb
  rw [hb, List.inj_on_of_nodup_map h (List.mem_of_find?_eq_some hb) ha hkey]

variable {demands : List Multiplexer} {m : Multiplexer}

/-! ## One more demand -/

theorem sharedBy?_append_of_ne {name : String} (h : name ≠ m.name) :
    sharedBy? (demands ++ [m]) name = sharedBy? demands name := by
  by_cases hname : name ∈ demands.map (·.name)
  · exact sharedBy?_append hname m
  · rw [sharedBy?_eq_none hname, sharedBy?_eq_none]
    simpa using ⟨fun d hd e => hname (List.mem_map.2 ⟨d, hd, e⟩), h⟩

theorem representing?_append_of_mem (h : m.name ∈ demands.map (·.name)) (ref : UsageRef) :
    representing? (demands ++ [m]) ref =
      (representing? demands ref).or
        (if m.usage = ref then sharedBy? demands m.name else none) := by
  have hshared : ∀ name, sharedBy? (demands ++ [m]) name = sharedBy? demands name := by
    intro name
    rw [sharedBy?, arena_append_of_mem h, sharedBy?]
  rw [representing?, representing?, arena_append_of_mem h, Option.or_assoc]
  refine congrArg _ ?_
  simp only [hshared, List.find?_append]
  cases hd : demands.find? (·.usage == ref) with
  | some d =>
    obtain ⟨s, hs⟩ := exists_sharedBy? (List.mem_map.2 ⟨d, List.mem_of_find?_eq_some hd, rfl⟩)
    rw [Option.some_or, Option.bind_some, hs, Option.some_or]
  | none =>
    by_cases hm : m.usage = ref
    · simp [hm]
    · simp [hm]

theorem representing?_append_of_not_mem (h : m.name ∉ demands.map (·.name)) (ref : UsageRef) :
    representing? (demands ++ [m]) ref =
      if m.usage = ref then some { m with id := .ofIndex (arena demands).length }
      else representing? demands ref := by
  rw [representing?, arena_append_of_not_mem h, List.reverse_append, List.reverse_singleton,
    List.singleton_append, List.find?_cons, List.find?_append]
  by_cases hm : m.usage = ref
  · simp [hm]
  · have hbeq : (m.usage == ref) = false := by simpa using hm
    rw [if_neg hm, representing?]
    dsimp only
    simp only [hbeq, List.find?_cons, List.find?_nil, Option.or_none]
    refine congrArg _ (Option.bind_congr fun d hd => ?_)
    exact sharedBy?_append (List.mem_map.2 ⟨d, List.mem_of_find?_eq_some hd, rfl⟩) m

/-! ## Multiplexers of all rounds -/

/-- A multiplexer meets the first demand of its name. -/
theorem exists_find?_of_mem_arena (h : m ∈ arena demands) :
    ∃ d, demands.find? (·.name == m.name) = some d ∧ m = { d with id := m.id } := by
  obtain ⟨i, hi⟩ := List.getElem?_of_mem h
  rw [arena, getElem?_numbered, Option.map_eq_some_iff] at hi
  obtain ⟨d, hd, rfl⟩ := hi
  refine ⟨d, ?_, rfl⟩
  have hnodup : ((firstBy (·.name) demands).map (·.name)).Nodup :=
    List.nodup_iff_pairwise_ne.2 (List.pairwise_map.2 (pairwise_firstBy demands))
  rw [← find?_firstBy, find?_of_nodup hnodup (List.mem_of_getElem? hd)]

/-- The demands before others are met by the multiplexers before others. -/
theorem arena_grows (demands more : List Multiplexer) :
    arena demands <+: arena (demands ++ more) := by
  induction more generalizing demands with
  | nil => exact ⟨[], by rw [List.append_nil, List.append_nil]⟩
  | cons m later ih =>
    rw [List.append_cons]
    refine List.IsPrefix.trans ?_ (ih (demands ++ [m]))
    by_cases hm : m.name ∈ demands.map (·.name)
    · exact ⟨[], by rw [List.append_nil, arena_append_of_mem hm]⟩
    · exact ⟨_, (arena_append_of_not_mem hm).symm⟩

/-- The demand is the first for what has its wrapped name. -/
def Multiplexer.Leads (base : List Multiplexer) (m : Multiplexer) : Prop :=
  base.find? (·.wrappedName == m.wrappedName) = some m

variable {base : List Multiplexer} {b : Multiplexer} {suffix : String}
  {suffixes later : List String}

theorem find?_round (base : List Multiplexer) (suffix x : String) :
    (base.map (·.under suffix)).find? (·.name == x ++ suffix) =
      (base.find? (·.wrappedName == x)).map (·.under suffix) := by
  rw [List.find?_map]
  refine congrArg (fun p => (base.find? p).map (·.under suffix)) (funext fun d => ?_)
  rw [Bool.eq_iff_iff, Function.comp_apply, beq_iff_eq, beq_iff_eq]
  exact append_suffix_inj

/-- In no round is a multiplexer made for a usage that is not the first of its wrapped name. -/
theorem exists_leads_of_mem_arena (h : m ∈ arena (rounds suffixes base)) :
    ∃ suffix ∈ suffixes, ∃ b : Multiplexer, b.Leads base ∧
      m = { b.under suffix with id := m.id } := by
  obtain ⟨d, hd, hm⟩ := exists_find?_of_mem_arena h
  rw [rounds, List.find?_flatMap] at hd
  obtain ⟨suffix, hsuffix, hround⟩ := List.exists_of_findSome?_eq_some hd
  obtain ⟨c, _, hc⟩ := List.mem_map.1 (List.mem_of_find?_eq_some hround)
  have hname : m.name = c.wrappedName ++ suffix := by
    rw [hm, ← hc]
    rfl
  rw [hname, find?_round, Option.map_eq_some_iff] at hround
  obtain ⟨b, hb, rfl⟩ := hround
  have hsame : b.wrappedName = c.wrappedName := by simpa using List.find?_some hb
  rw [← hsame] at hb
  exact ⟨suffix, hsuffix, b, hb, hm⟩

/-- The multiplexer that is named under the first suffix is made in the first round for the first
    usage of its wrapped name. -/
theorem exists_sharedBy?_rounds (suffix : String) (later : List String) (hb : b.Leads base) :
    ∃ m, sharedBy? (rounds (suffix :: later) base) (b.wrappedName ++ suffix) = some m ∧
      m ∈ arena (base.map (·.under suffix)) ∧ m = { b.under suffix with id := m.id } := by
  have hround := find?_round base suffix b.wrappedName
  rw [hb, Option.map_some] at hround
  obtain ⟨m, hm⟩ := exists_sharedBy? (List.mem_map.2
    ⟨_, List.mem_of_find?_eq_some hround, (rfl : _ = b.wrappedName ++ suffix)⟩)
  obtain ⟨hmem, hname⟩ := mem_of_sharedBy? hm
  obtain ⟨d, hd, hmd⟩ := exists_find?_of_mem_arena hmem
  rw [hname, hround] at hd
  cases hd
  have hall := (arena_grows (base.map (·.under suffix)) (rounds later base)).subset hmem
  refine ⟨m, ?_, hmem, hmd⟩
  rw [← hname]
  exact sharedBy?_of_mem hall

section

variable (hnodup : (base.map (·.usage)).Nodup)

include hnodup

theorem find?_usage_rounds (hb : b ∈ base) :
    (rounds (suffix :: later) base).find? (·.usage == b.usage) = some (b.under suffix) := by
  have hself : base.find? (·.usage == b.usage) = some b := find?_of_nodup hnodup hb
  rw [rounds, List.flatMap_cons, List.find?_append, List.find?_map]
  show ((base.find? (·.usage == b.usage)).map _).or _ = _
  rw [hself]
  rfl

/-- A usage that is not the first of its wrapped name is represented by the multiplexer that was
    named after it under the first suffix. -/
theorem representing?_rounds_other (hb : b ∈ base) (hother : ¬ b.Leads base) :
    representing? (rounds (suffix :: later) base) b.usage =
      sharedBy? (rounds (suffix :: later) base) (b.wrappedName ++ suffix) := by
  have hnone : (arena (rounds (suffix :: later) base)).reverse.find? (·.usage == b.usage) =
      none := by
    rw [List.find?_eq_none]
    intro m hm husage
    obtain ⟨_, _, c, hc, hmc⟩ := exists_leads_of_mem_arena (List.mem_reverse.1 hm)
    have hsame : c.usage = b.usage := by
      rw [hmc] at husage
      simpa using husage
    rw [List.inj_on_of_nodup_map hnodup (List.mem_of_find?_eq_some hc) hb hsame] at hc
    exact hother hc
  rw [representing?, hnone, Option.none_or, find?_usage_rounds hnodup hb, Option.bind_some]
  rfl

/-- The first usage of its wrapped name is represented by the newest of the multiplexers that were
    made for it. -/
theorem representing?_rounds_first (suffix : String) (later : List String) (hb : b.Leads base) :
    ∃ newest, representing? (rounds (suffix :: later) base) b.usage = some newest ∧
      (arena (rounds (suffix :: later) base)).reverse.find? (·.usage == b.usage) = some newest ∧
      ∃ t ∈ suffix :: later, newest = { b.under t with id := newest.id } := by
  obtain ⟨m, hm, _, hmb⟩ := exists_sharedBy?_rounds suffix later hb
  have hmem := (mem_of_sharedBy? hm).1
  obtain ⟨newest, hnewest⟩ : ∃ newest,
      (arena (rounds (suffix :: later) base)).reverse.find? (·.usage == b.usage) =
        some newest := by
    rw [← Option.isSome_iff_exists, List.find?_isSome]
    exact ⟨m, List.mem_reverse.2 hmem, by rw [hmb]; simp [Multiplexer.under]⟩
  obtain ⟨t, ht, c, hc, hmc⟩ := exists_leads_of_mem_arena
    (List.mem_reverse.1 (List.mem_of_find?_eq_some hnewest))
  have husage : c.usage = b.usage := by
    have := List.find?_some hnewest
    rw [hmc] at this
    simpa using this
  have hsame := List.inj_on_of_nodup_map hnodup (List.mem_of_find?_eq_some hc)
    (List.mem_of_find?_eq_some hb) husage
  refine ⟨newest, ?_, hnewest, t, ht, by rw [← hsame]; exact hmc⟩
  rw [representing?, hnewest, Option.some_or]

/-- The newest of the multiplexers that were made for the first usage of its wrapped name is that of
    the first round only if it is the only one. -/
theorem newest_eq_iff (hb : b.Leads base) {shared newest : Multiplexer}
    (hshared : sharedBy? (rounds (suffix :: later) base) (b.wrappedName ++ suffix) =
      some shared)
    (hnewest : (arena (rounds (suffix :: later) base)).reverse.find? (·.usage == b.usage) =
      some newest) :
    newest = shared ↔
      ∀ m ∈ arena (rounds (suffix :: later) base), m.usage = b.usage → m = shared := by
  have hlast : newest ∈ arena (rounds (suffix :: later) base) ∧ newest.usage = b.usage :=
    ⟨List.mem_reverse.1 (List.mem_of_find?_eq_some hnewest), by simpa using List.find?_some hnewest⟩
  refine ⟨?_, fun hall => hall newest hlast.1 hlast.2⟩
  rintro rfl m hm husage
  obtain ⟨s, hs, hfirst, hsb⟩ := exists_sharedBy?_rounds suffix later hb
  cases hshared.symm.trans hs
  -- the multiplexers of the first round come first, and no other of them is for that usage
  obtain ⟨more, hmore⟩ := arena_grows (base.map (·.under suffix)) (rounds later base)
  have hrounds : arena (rounds (suffix :: later) base) =
      arena (base.map (·.under suffix)) ++ more := hmore.symm
  have hnames := pairwise_arena (rounds (suffix :: later) base)
  rw [hrounds] at hm hnewest hnames
  rw [List.reverse_append, List.find?_append] at hnewest
  rcases List.mem_append.1 hm with hm | hm
  · obtain ⟨d, hd, hmd⟩ := exists_find?_of_mem_arena hm
    obtain ⟨c, hc, rfl⟩ := List.mem_map.1 (List.mem_of_find?_eq_some hd)
    have hsame : c = b := by
      refine List.inj_on_of_nodup_map hnodup hc (List.mem_of_find?_eq_some hb) ?_
      rw [← husage, hmd]
      rfl
    have hname : m.name = newest.name := by
      rw [hmd, hsb, hsame]
    have hself := sharedBy?_of_mem hm
    rw [hname, sharedBy?_of_mem hfirst] at hself
    exact (Option.some.inj hself).symm
  · obtain ⟨n, hn⟩ : ∃ n, more.reverse.find? (·.usage == b.usage) = some n :=
      Option.isSome_iff_exists.1
        (List.find?_isSome.2 ⟨m, List.mem_reverse.2 hm, by simpa using husage⟩)
    rw [hn, Option.some_or] at hnewest
    cases hnewest
    have hlater := List.mem_reverse.1 (List.mem_of_find?_eq_some hn)
    exact absurd rfl ((List.pairwise_append.1 hnames).2.2 _ hfirst _ hlater)

end

end SchemaFamily
