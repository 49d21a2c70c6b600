import Mathlib.Data.List.Basic
import SchemaFamily.Disk.Path
import SchemaFamily.Proofs.Text.Words

/-
  Spellings of paths. The plainest spelling of steps between slashes is read back as those steps
  (`components_ofComponents`), so a normalised path has the components of the path without its dots
  (`components_normalize`), and two normalised paths are the same as soon as their components are
  (`ofComponents_components_normalize`).
-/

namespace SchemaFamily

/-! ## Segments between slashes -/

namespace Path

theorem not_mem_of_mem_cut {separator : Char} {s segment : String}
    (h : segment ∈ cut separator s) : separator ∉ segment.toList := by
  obtain ⟨piece, hp, rfl⟩ := List.mem_map.1 h
  rw [String.toList_ofList]
  intro hm
  have := eq_false_of_mem_pieces hp separator hm
  simp at this

/-- Segments without slashes are found again between the slashes. -/
theorem cut_intercalate {segments : List String} (h : ∀ s ∈ segments, '/' ∉ s.toList)
    (hne : segments ≠ []) : cut '/' ("/".intercalate segments) = segments := by
  have hsplit : (['/'].intercalate (segments.map String.toList)).splitOn '/' =
      segments.map String.toList := by
    refine List.splitOn_intercalate '/' ?_ (by simpa using hne)
    intro cs hcs
    obtain ⟨s, hs, rfl⟩ := List.mem_map.1 hcs
    exact h s hs
  rw [cut, pieces_eq_splitOnP, String.toList_intercalate]
  show ((['/'].intercalate (segments.map String.toList)).splitOn '/').map String.ofList = segments
  rw [hsplit, List.map_map]
  simp [Function.comp_def]

end Path

/-! ## Steps between slashes -/

namespace Component

/-- The component is what some piece between slashes makes. -/
def IsStep : Component → Prop
  | .root | .here => False
  | .parent => True
  | .name text => text ≠ "" ∧ text ≠ "." ∧ text ≠ ".." ∧ '/' ∉ text.toList

variable {c : Component}

theorem IsStep.of_segment {segment : String} (hs : '/' ∉ segment.toList)
    (h : ofSegment? segment = some c) : c.IsStep := by
  unfold ofSegment? at h
  split at h
  · cases h
  · next hplain =>
    split at h
    · cases h
      trivial
    · next hparent =>
      cases h
      rw [not_or] at hplain
      exact ⟨hplain.1, hplain.2, hparent, hs⟩

theorem IsStep.ofSegment?_text (h : c.IsStep) : ofSegment? c.text = some c := by
  cases c with
  | root => cases h
  | here => cases h
  | parent => decide
  | name text =>
    obtain ⟨hempty, hdot, hdots, _⟩ := h
    rw [ofSegment?, Component.text, if_neg (by rw [not_or]; exact ⟨hempty, hdot⟩), if_neg hdots]

theorem IsStep.text_ne (h : c.IsStep) : c.text ≠ "" ∧ c.text ≠ "." ∧ '/' ∉ c.text.toList := by
  cases c with
  | root => cases h
  | here => cases h
  | parent => decide
  | name text => exact ⟨h.1, h.2.1, h.2.2.2⟩

end Component

namespace Path

variable {steps : List Component}

/-- The steps of a path are read back from its segments. -/
theorem filterMap_ofSegment?_text (h : ∀ c ∈ steps, c.IsStep) :
    (steps.map Component.text).filterMap Component.ofSegment? = steps := by
  rw [List.filterMap_map]
  refine (List.filterMap_congr fun c hc => ?_).trans List.filterMap_some
  exact (h c hc).ofSegment?_text

theorem components_of_steps (h : ∀ c ∈ steps, c.IsStep) :
    (Path.mk ("/".intercalate (steps.map Component.text))).components = steps := by
  cases steps with
  | nil => decide
  | cons c later =>
    have hsegments : (Path.mk ("/".intercalate ((c :: later).map Component.text))).segments =
        (c :: later).map Component.text := by
      refine cut_intercalate (fun s hs => ?_) (by simp)
      obtain ⟨c', hc', rfl⟩ := List.mem_map.1 hs
      exact (h c' hc').text_ne.2.2
    obtain ⟨hempty, hdot, _⟩ := (h c List.mem_cons_self).text_ne
    have hstart : (Path.mk ("/".intercalate ((c :: later).map Component.text))).start? = none := by
      rw [start?, hsegments, List.map_cons]
      split
      · next heq => exact absurd (List.cons.inj heq).1 hempty
      · next heq => exact absurd (List.cons.inj heq).1 hdot
      · rfl
    rw [components, hstart, hsegments, filterMap_ofSegment?_text h]
    rfl

theorem components_of_root_steps (h : ∀ c ∈ steps, c.IsStep) :
    (Path.mk ("/" ++ "/".intercalate (steps.map Component.text))).components = .root :: steps := by
  cases steps with
  | nil => decide
  | cons c later =>
    have hspell : "/" ++ "/".intercalate ((c :: later).map Component.text) =
        "/".intercalate ("" :: (c :: later).map Component.text) := by
      rw [← String.toList_inj, String.toList_append, String.toList_intercalate,
        String.toList_intercalate]
      simp only [List.map_cons, List.intercalate_cons_cons]
      rfl
    have hsegments : (Path.mk ("/" ++ "/".intercalate ((c :: later).map
        Component.text))).segments = "" :: (c :: later).map Component.text := by
      rw [segments, hspell]
      refine cut_intercalate (fun s hs => ?_) (by simp)
      rcases List.mem_cons.1 hs with rfl | hs
      · simp
      · obtain ⟨c', hc', rfl⟩ := List.mem_map.1 hs
        exact (h c' hc').text_ne.2.2
    have hread := filterMap_ofSegment?_text h
    rw [components, start?, hsegments, List.filterMap_cons, hread]
    rfl

/-- The components of a path without its dots: steps, after the root if the path starts there. -/
theorem filter_components (p : Path) :
    ∃ steps : List Component, (∀ c ∈ steps, c.IsStep) ∧
      (p.components.filter (· != .here) = steps ∨
        p.components.filter (· != .here) = .root :: steps) := by
  have hsteps : ∀ c ∈ p.segments.filterMap Component.ofSegment?, c.IsStep := by
    intro c hc
    obtain ⟨segment, hs, hc⟩ := List.mem_filterMap.1 hc
    exact .of_segment (not_mem_of_mem_cut hs) hc
  have hkeep : (p.segments.filterMap Component.ofSegment?).filter (· != .here) =
      p.segments.filterMap Component.ofSegment? := by
    refine List.filter_eq_self.2 fun c hc => ?_
    have := hsteps c hc
    cases c with
    | here => cases this
    | _ => rfl
  refine ⟨_, hsteps, ?_⟩
  rw [components, List.filter_append, hkeep, start?]
  split
  · exact .inr rfl
  · exact .inl rfl
  · exact .inl rfl

/-- A path that is spelled plainly has the components that it is spelled from. -/
theorem components_ofComponents (h : ∀ c ∈ steps, c.IsStep) :
    (ofComponents steps).components = steps ∧
      (ofComponents (.root :: steps)).components = .root :: steps := by
  refine ⟨?_, components_of_root_steps h⟩
  rw [ofComponents.eq_def]
  split
  · exact absurd (h .root List.mem_cons_self) id
  · exact components_of_steps h

theorem components_normalize (p : Path) :
    p.normalize.components = p.components.filter (· != .here) := by
  obtain ⟨steps, hsteps, h | h⟩ := p.filter_components
  · rw [normalize, h, (components_ofComponents hsteps).1]
  · rw [normalize, h, (components_ofComponents hsteps).2]

/-- A normalised path is the plainest spelling of its components. -/
theorem ofComponents_components_normalize (p : Path) :
    ofComponents p.normalize.components = p.normalize := by
  rw [components_normalize]
  rfl

@[simp]
theorem normalize_normalize (p : Path) : p.normalize.normalize = p.normalize := by
  rw [normalize, components_normalize, List.filter_filter]
  simp only [Bool.and_self]
  rfl

end Path

end SchemaFamily
