import SchemaFamily.Proofs.Disk.Spelling

/-
  Paths under other spellings. Two spellings of a path differ by single dots and doubled or
  trailing slashes only (`Path.Respells`); then they are normalised to the same
  (`Path.Respells.normalize_eq`). What a path is joined to or the directory of a path is normalised
  to can be told from what the paths are normalised to (`trail_join`, `trail_directory`), so it does
  not depend on how they are spelled either.
-/

namespace SchemaFamily

/-! ## Pieces on both sides of a separator -/

theorem pieces_append_sep {p : Char → Bool} {c : Char} (h : p c = true) (cs later : List Char) :
    pieces p (cs ++ c :: later) = pieces p cs ++ pieces p later := by
  induction cs with
  | nil => exact pieces_cons_sep h later
  | cons x cs ih =>
    cases hx : p x with
    | true => rw [List.cons_append, pieces_cons_sep hx, pieces_cons_sep hx, ih, List.cons_append]
    | false =>
      obtain ⟨piece, more, hpieces⟩ := List.exists_cons_of_ne_nil (pieces_ne_nil p cs)
      rw [List.cons_append, pieces_cons_of_not hx, pieces_cons_of_not hx, ih, hpieces]
      rfl

namespace Path

variable {p p' q q' : Path}

theorem segments_slash (s t : String) :
    (Path.mk (s ++ "/" ++ t)).segments = (Path.mk s).segments ++ (Path.mk t).segments := by
  have hlist : (s ++ "/" ++ t).toList = s.toList ++ '/' :: t.toList := by simp
  rw [segments, cut, hlist, pieces_append_sep (by decide), List.map_append]
  rfl

/-! ## The trail of a path -/

/-- The components of a path without the dot in front, if there is one. -/
def trail (p : Path) : List Component := p.components.filter (· != .here)

theorem normalize_eq (p : Path) : p.normalize = ofComponents p.trail := rfl

theorem components_normalize_eq (p : Path) : p.normalize.components = p.trail :=
  components_normalize p

theorem filter_steps {steps : List Component} (h : ∀ c ∈ steps, c.IsStep) :
    steps.filter (· != .here) = steps := by
  refine List.filter_eq_self.2 fun c hc => ?_
  have := h c hc
  cases c with
  | here => cases this
  | _ => rfl

/-- The segments of a path make steps. -/
theorem isStep_of_mem_segments {c : Component}
    (h : c ∈ p.segments.filterMap Component.ofSegment?) : c.IsStep := by
  obtain ⟨segment, hs, hc⟩ := List.mem_filterMap.1 h
  exact .of_segment (not_mem_of_mem_cut hs) hc

/-- Only a path that is spelled from the root starts there. -/
theorem start?_cases (p : Path) :
    (p.isAbsolute = true ∧ p.start? = some .root) ∨
      (p.isAbsolute = false ∧ (p.start? = none ∨ p.start? = some .here)) := by
  have hcut : p.segments = (pieces (· == '/') p.text.toList).map String.ofList := rfl
  cases hp : p.text.toList with
  | nil =>
    refine .inr ⟨by rw [isAbsolute, hp]; rfl, .inl ?_⟩
    rw [start?, hcut, hp]
    rfl
  | cons c cs =>
    obtain ⟨piece, later, hpieces⟩ := List.exists_cons_of_ne_nil (pieces_ne_nil (· == '/') cs)
    by_cases hc : c = '/'
    · subst hc
      refine .inl ⟨by rw [isAbsolute, hp]; rfl, ?_⟩
      rw [start?, hcut, hp, pieces_cons_sep (by decide), hpieces]
      rfl
    · refine .inr ⟨by rw [isAbsolute, hp]; simpa using hc, ?_⟩
      have hne : String.ofList (c :: piece) ≠ "" := fun h => by
        simpa using congrArg String.toList h
      rw [hp, pieces_cons_of_not (by simpa using hc), hpieces] at hcut
      rw [start?]
      split
      · next heq => exact absurd (List.cons.inj (hcut.symm.trans heq)).1 hne
      · exact .inr rfl
      · exact .inl rfl

/-- A path starts at the root or does not, and then come the steps that its segments make. -/
theorem trail_eq (p : Path) :
    p.trail = (if p.isAbsolute then [.root] else []) ++
      p.segments.filterMap Component.ofSegment? := by
  have hsteps := filter_steps fun c hc => isStep_of_mem_segments (p := p) hc
  rw [trail, components, List.filter_append, hsteps]
  rcases p.start?_cases with ⟨habsolute, hstart⟩ | ⟨habsolute, hstart | hstart⟩ <;>
    · rw [habsolute, hstart]
      rfl

theorem root_mem_trail_iff (p : Path) : .root ∈ p.trail ↔ p.isAbsolute = true := by
  have hsteps : .root ∉ p.segments.filterMap Component.ofSegment? := fun h =>
    isStep_of_mem_segments h
  rw [trail_eq, List.mem_append]
  constructor
  · rintro (h | h)
    · split at h
      · assumption
      · cases h
    · exact absurd h hsteps
  · intro h
    rw [if_pos h]
    exact .inl List.mem_cons_self

theorem isAbsolute_of_trail (h : p.trail = q.trail) : p.isAbsolute = q.isAbsolute := by
  rw [Bool.eq_iff_iff, ← root_mem_trail_iff, ← root_mem_trail_iff, h]

/-- Before a slash stands a path, or the root. -/
theorem trail_slash (s t : String) :
    (Path.mk (s ++ "/" ++ t)).trail = (if s = "" then [.root] else (Path.mk s).trail) ++
      (Path.mk t).segments.filterMap Component.ofSegment? := by
  rw [trail_eq, segments_slash, List.filterMap_append, ← List.append_assoc]
  by_cases hs : s = ""
  · have habsolute : (Path.mk (s ++ "/" ++ t)).isAbsolute = true := by simp [isAbsolute, hs]
    rw [habsolute, if_pos hs, hs]
    rfl
  · obtain ⟨c, cs, hcs⟩ := List.exists_cons_of_ne_nil fun h => hs (String.toList_eq_nil_iff.1 h)
    have habsolute : (Path.mk (s ++ "/" ++ t)).isAbsolute = (Path.mk s).isAbsolute := by
      simp [isAbsolute, hcs]
    rw [habsolute, if_neg hs, ← trail_eq]

/-- What a path is joined to takes its steps after those of the path, or is itself. -/
theorem trail_join (p q : Path) :
    (p.join q).trail = if q.isAbsolute then q.trail else p.trail ++ q.trail := by
  rw [join]
  split
  · rfl
  · next hq =>
    have hqtrail : q.trail = q.segments.filterMap Component.ofSegment? := by
      rw [trail_eq, if_neg hq, List.nil_append]
    split
    · next hlast =>
      rcases hp : p.text.toList.getLast? with _ | c
      · have hempty : p.text = "" := String.toList_eq_nil_iff.1 (List.getLast?_eq_none_iff.1 hp)
        have htrail : p.trail = [] := by
          rw [show p = ⟨""⟩ from congrArg Path.mk hempty]
          rfl
        rw [hempty, String.empty_append, htrail]
        rfl
      · have hc : c = '/' := by
          rw [hp] at hlast
          simpa using hlast
        obtain ⟨front, hfront⟩ := List.getLast?_eq_some_iff.1 hp
        have htext : p.text = String.ofList front ++ "/" := by
          rw [← String.toList_inj, hfront, hc]
          simp
        have hown := trail_slash (String.ofList front) ""
        rw [String.append_empty, ← htext] at hown
        rw [htext, trail_slash, hqtrail]
        refine congrArg (· ++ _) ?_
        exact (List.append_nil _).symm.trans hown.symm
    · next hlast =>
      have hne : p.text ≠ "" := fun h => hlast (by rw [h]; rfl)
      rw [trail_slash, if_neg hne, hqtrail]

/-! ## Directories -/

/-- Steps are read back from their plainest spelling, after the root if it is spelled. -/
theorem trail_ofComponents {steps : List Component} (h : ∀ c ∈ steps, c.IsStep) :
    (ofComponents steps).trail = steps ∧
      (ofComponents (.root :: steps)).trail = .root :: steps := by
  obtain ⟨hplain, hroot⟩ := components_ofComponents h
  refine ⟨by rw [trail, hplain, filter_steps h], ?_⟩
  rw [trail, hroot, List.filter_cons_of_pos (by decide), filter_steps h]

/-- A dot in front of steps is spelled but does not count. -/
theorem trail_ofComponents_here {steps : List Component} (h : ∀ c ∈ steps, c.IsStep) :
    (ofComponents (.here :: steps)).trail = steps := by
  cases steps with
  | nil => decide
  | cons c later =>
    have hplain : ofComponents (c :: later) =
        ⟨"/".intercalate ((c :: later).map Component.text)⟩ := by
      rw [ofComponents.eq_def]
      split
      · next heq => exact absurd (h .root ((List.cons.inj heq).1 ▸ List.mem_cons_self)) id
      · rfl
    have hsteps := (trail_ofComponents h).1
    have habsolute : ¬ (ofComponents (c :: later)).isAbsolute = true := by
      rw [← root_mem_trail_iff, hsteps]
      exact fun hroot => h .root hroot
    rw [trail_eq, if_neg habsolute, List.nil_append, hplain] at hsteps
    have htext : ofComponents (.here :: c :: later) =
        ⟨"." ++ "/" ++ "/".intercalate ((c :: later).map Component.text)⟩ := by
      refine congrArg Path.mk ?_
      rw [← String.toList_inj, String.toList_append, String.toList_append,
        String.toList_intercalate, String.toList_intercalate]
      simp only [List.map_cons, List.intercalate_cons_cons]
      rfl
    rw [htext, trail_slash, hsteps]
    rfl

/-- A start of a path stays when the last step is dropped, or is dropped itself. -/
theorem trail_dropLast {start : Component} {steps : List Component} (h : ∀ c ∈ steps, c.IsStep)
    (hspelled : ∀ steps, (∀ c ∈ steps, c.IsStep) →
      (ofComponents (start :: steps)).trail = [start].filter (· != .here) ++ steps) :
    (ofComponents (start :: steps).dropLast).trail =
      ([start].filter (· != .here) ++ steps).dropLast := by
  cases steps with
  | nil =>
    have hnil : (ofComponents []).trail = [] := by decide
    rw [List.dropLast_singleton, List.append_nil, hnil, List.filter_singleton]
    cases start != .here <;> rfl
  | cons c later =>
    have hne : c :: later ≠ [] := List.cons_ne_nil c later
    rw [List.dropLast_cons_of_ne_nil hne, List.dropLast_append_of_ne_nil hne]
    exact hspelled _ fun c hc => h c ((List.dropLast_sublist _).subset hc)

/-- The directory of a path has all its steps but the last. -/
theorem trail_directory (p : Path) : p.directory.trail = p.trail.dropLast := by
  have hsteps : ∀ c ∈ p.segments.filterMap Component.ofSegment?, c.IsStep := fun c hc =>
    isStep_of_mem_segments hc
  have hdirectory : p.directory.trail = (ofComponents p.components.dropLast).trail := by
    rw [directory]
    split
    · next hnil =>
      rw [hnil]
      decide
    · rfl
  rw [hdirectory, components, trail_eq p]
  rcases p.start?_cases with ⟨habsolute, hstart⟩ | ⟨habsolute, hstart | hstart⟩ <;>
    rw [habsolute, hstart]
  · exact trail_dropLast hsteps fun steps h => (trail_ofComponents h).2
  · exact (trail_ofComponents fun c hc => hsteps c ((List.dropLast_sublist _).subset hc)).1
  · exact trail_dropLast hsteps fun steps h => trail_ofComponents_here h

/-! ## Other spellings -/

/-- A segment that is no dot and not empty. -/
def counts (segment : String) : Bool := segment != "" && segment != "."

/-- The spellings differ by single dots and doubled or trailing slashes only: both start at the root
    or neither does, and the segments that count are the same. -/
structure Respells (p q : Path) : Prop where
  absolute : p.isAbsolute = q.isAbsolute
  segments : p.segments.filter counts = q.segments.filter counts

theorem Respells.trans {r : Path} (h : p.Respells q) (h' : q.Respells r) : p.Respells r :=
  ⟨h.absolute.trans h'.absolute, h.segments.trans h'.segments⟩

theorem filterMap_counts (segments : List String) :
    (segments.filter counts).filterMap Component.ofSegment? =
      segments.filterMap Component.ofSegment? := by
  rw [List.filterMap_filter]
  refine List.filterMap_congr fun segment _ => ?_
  rw [counts]
  split
  · rfl
  · next h =>
    rw [Component.ofSegment?, if_pos]
    by_contra hne
    exact h (by simpa [not_or] using hne)

theorem Respells.trail_eq (h : p.Respells q) : p.trail = q.trail := by
  rw [Path.trail_eq, Path.trail_eq q, h.absolute, ← filterMap_counts, h.segments,
    filterMap_counts]

/-- Two spellings of a path are normalised to the same. -/
theorem Respells.normalize_eq (h : p.Respells q) : p.normalize = q.normalize :=
  congrArg ofComponents h.trail_eq

theorem trail_of_normalize (h : p.normalize = q.normalize) : p.trail = q.trail := by
  rw [← components_normalize_eq, h, components_normalize_eq]

theorem normalize_join (hp : p.normalize = p'.normalize) (hq : q.normalize = q'.normalize) :
    (p.join q).normalize = (p'.join q').normalize := by
  have hqtrail := trail_of_normalize hq
  rw [normalize_eq, normalize_eq, trail_join, trail_join, trail_of_normalize hp, hqtrail,
    isAbsolute_of_trail hqtrail]

theorem normalize_directory (h : p.normalize = p'.normalize) :
    p.directory.normalize = p'.directory.normalize := by
  rw [normalize_eq, normalize_eq, trail_directory, trail_directory, trail_of_normalize h]

/-! ## Texts of imports -/

/-- The plain spelling of a path that an import names, from a dot on unless from the root. A blank
    text names none and stays. -/
def plainHref (href : String) : String :=
  if hasInk href then ((Path.mk ".").join (Path.mk href).normalize).text else href

theorem normalize_plainHref {href : String} (h : hasInk href = true) :
    (Path.mk (plainHref href)).normalize = (Path.mk href).normalize := by
  have hdot : (Path.mk ".").trail = [] := by decide
  have htrail : (Path.mk href).normalize.trail = (Path.mk href).trail :=
    trail_of_normalize (normalize_normalize _)
  refine congrArg ofComponents ?_
  show (Path.mk (plainHref href)).trail = (Path.mk href).trail
  rw [plainHref, if_pos h]
  show ((Path.mk ".").join (Path.mk href).normalize).trail = _
  rw [trail_join, htrail, hdot, List.nil_append, ite_self]

theorem hasInk_plainHref (href : String) : hasInk (plainHref href) = hasInk href := by
  rw [plainHref]
  split
  · next h =>
    rw [h, join]
    split
    · next habsolute =>
      obtain ⟨cs, hcs⟩ := List.head?_eq_some_iff.1 (beq_iff_eq.1 habsolute)
      rw [hasInk, hcs]
      rfl
    · rw [if_neg (by decide)]
      simp [hasInk, isBlank, blankRanges]
  · rfl

theorem plainHref_plainHref (href : String) : plainHref (plainHref href) = plainHref href := by
  by_cases h : hasInk href = true
  · rw [plainHref, if_pos (by rw [hasInk_plainHref, h]), normalize_plainHref h, plainHref, if_pos h]
  · rw [plainHref, plainHref, if_neg h, if_neg h]

/-- Texts with one plain spelling name paths that are normalised to the same. -/
theorem normalize_of_plainHref {href href' : String} (h : plainHref href = plainHref href') :
    (Path.mk href).normalize = (Path.mk href').normalize := by
  have hink : hasInk href = hasInk href' := by rw [← hasInk_plainHref, h, hasInk_plainHref]
  by_cases hinked : hasInk href = true
  · rw [← normalize_plainHref hinked, h, normalize_plainHref (hink ▸ hinked)]
  · rw [plainHref, plainHref, if_neg hinked, if_neg (hink ▸ hinked)] at h
    rw [h]

/-- Two spellings of a path that are not blank have the same plain spelling. -/
theorem plainHref_eq {href href' : String} (h : (Path.mk href).Respells ⟨href'⟩)
    (hink : hasInk href = true) (hink' : hasInk href' = true) :
    plainHref href = plainHref href' := by
  rw [plainHref, plainHref, if_pos hink, if_pos hink', h.normalize_eq]

end Path

end SchemaFamily
