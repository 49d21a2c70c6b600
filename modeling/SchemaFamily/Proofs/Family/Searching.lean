import Mathlib.Data.Finset.Card
import Mathlib.Data.List.Dedup
import SchemaFamily.Proofs.Draft.Origins
import SchemaFamily.Proofs.Family.Unfolding

/-
  Searches with a stack of calls. `Search.step` is one step of the recursion over imports, with the
  calls that wait as frames on a stack and with nothing that counts the steps. The active paths of
  a search are different (`Sound.nodup`), and each is the path of the family or one that an import
  of a file or of a kept draft names (`places`), so a step can only go so deep (`Sound.depth_le`).
  Hence the steps that `resolveFrom` may take suffice, it does what the machine does
  (`runs_resolveFrom`), and the machine ends with what `resolve` gives, whatever the files, the
  paths and the cache (`search_ends`).
-/

namespace SchemaFamily

open Xml

/-! ## Calls on a stack -/

/-- A call that waits: the key of its document, the trees of the imports that it has followed,
    newest first, and the imports that are ahead. -/
structure Frame where
  key : Path
  draft : Draft
  done : List ImportTree
  ahead : List Import

/-- The keys of the frames, the innermost last. -/
def keysOf (frames : List Frame) : List Path := (frames.map Frame.key).reverse

@[simp] theorem keysOf_cons (frame : Frame) (frames : List Frame) :
    keysOf (frame :: frames) = keysOf frames ++ [frame.key] := by
  rw [keysOf, List.map_cons, List.reverse_cons, keysOf]

theorem length_keysOf (frames : List Frame) : (keysOf frames).length = frames.length := by
  rw [keysOf, List.length_reverse, List.length_map]

/-- Where a search is: it is called with a path, it follows the imports of the innermost frame, or
    it has ended. -/
inductive Search where
  | call (c : Cache) (frames : List Frame) (p : Path)
  | follow (c : Cache) (frame : Frame) (frames : List Frame)
  | ended (c : Cache) (result : Except Failure ImportTree)

namespace Search

/-- The paths on the way to where the search is. -/
def active : Search → List Path
  | .call _ frames _ => keysOf frames
  | .follow _ frame frames => keysOf (frame :: frames)
  | .ended _ _ => []

/-- Number of calls that have begun and not ended. -/
def depth : Search → Nat
  | .call _ frames _ => frames.length + 1
  | .follow _ _ frames => frames.length + 1
  | .ended _ _ => 0

/-- The innermost call returns a tree. -/
def deliver (c : Cache) (tree : ImportTree) : List Frame → Search
  | [] => .ended c (.ok tree)
  | frame :: frames => .follow c { frame with done := tree :: frame.done } frames

/-- One step: a call reports a cycle or loads its draft, and a frame calls with its next import or
    returns its tree. -/
def step (disk : Disk) (entities : EntityMap) (base : Path) : Search → Search
  | .call c frames p =>
    if p.normalize ∈ keysOf frames then
      .ended c (.error (.importCycle (keysOf frames ++ [p.normalize])))
    else
      match (loadDraft disk entities p.normalize).run.run c with
      | (.ok draft, c) => .follow c ⟨p.normalize, draft, [], draft.imports⟩ frames
      | (.error failure, c) => .ended c (.error failure)
  | .follow c frame frames =>
    match frame.ahead with
    | i :: ahead => .call c ({ frame with ahead } :: frames) (i.path base)
    | [] => deliver c (.node frame.draft frame.done.reverse) frames
  | .ended c result => .ended c result

/-- How a call ends that has this outcome. -/
def conclude (frames : List Frame) : Except Failure ImportTree × Cache → Search
  | (.ok tree, c) => deliver c tree frames
  | (.error failure, c) => .ended c (.error failure)

theorem conclude_nil (outcome : Except Failure ImportTree × Cache) :
    conclude [] outcome = .ended outcome.2 outcome.1 := by
  rcases outcome with ⟨_ | _, _⟩ <;> rfl

end Search

/-! ## Places that a search can reach -/

/-- The texts by which a document imports files. -/
def hrefsOf (entities : EntityMap) (text : String) : List String :=
  match Element.parse entities text with
  | .ok root => (root.childrenNamed "import").filterMap (·.attribute? "href")
  | .error _ => []

/-- The texts by which the files and the drafts of the cache import files. -/
def hrefs (disk : Disk) (entities : EntityMap) (c : Cache) : List String :=
  disk.texts.flatMap (hrefsOf entities) ++
    (c.drafts.flatMap fun entry => entry.2.imports).map Import.href

/-- The path of the family and the paths that imports name, all normalised. -/
def places (disk : Disk) (entities : EntityMap) (base p : Path) (c : Cache) : Finset Path :=
  (p.normalize :: (hrefs disk entities c).map fun href => (base.join ⟨href⟩).normalize).toFinset

/-- The draft imports files at some of the paths. -/
def Draft.ImportsWithin (draft : Draft) (base : Path) (places : Finset Path) : Prop :=
  ∀ i ∈ draft.imports, (i.path base).normalize ∈ places

section

variable {disk : Disk} {entities : EntityMap} {base p : Path} {c : Cache}

theorem length_hrefsOf_le (entities : EntityMap) (text : String) :
    (hrefsOf entities text).length ≤ text.length := by
  unfold hrefsOf
  split
  · next root hroot =>
    calc ((root.childrenNamed "import").filterMap (·.attribute? "href")).length
      _ ≤ (root.childrenNamed "import").length := List.length_filterMap_le _ _
      _ ≤ root.elements.length := List.length_filter_le _ _
      _ ≤ root.children.length := List.length_filterMap_le _ _
      _ ≤ text.length := Element.length_children_le hroot
  · exact Nat.zero_le _

theorem length_flatMap_hrefsOf_le (entities : EntityMap) (texts : List String) :
    (texts.flatMap (hrefsOf entities)).length ≤ (String.join texts).length := by
  induction texts with
  | nil => exact Nat.zero_le _
  | cons text later ih =>
    rw [List.flatMap_cons, List.length_append, String.join_cons, String.length_append]
    exact Nat.add_le_add (length_hrefsOf_le entities text) ih

/-- The steps of a search are more than the places that it can reach. -/
theorem card_places_lt_steps (disk : Disk) (entities : EntityMap) (base p : Path) (c : Cache) :
    (places disk entities base p c).card < steps disk c := by
  have hsteps : steps disk c =
      disk.size + (c.drafts.flatMap fun entry => entry.2.imports).length + 2 := rfl
  have htexts := length_flatMap_hrefsOf_le entities disk.texts
  calc (places disk entities base p c).card
    _ ≤ (hrefs disk entities c).length + 1 := by
      refine (List.toFinset_card_le _).trans ?_
      rw [List.length_cons, List.length_map]
    _ < steps disk c := by
      rw [hrefs, List.length_append, List.length_map, hsteps, Disk.size]
      omega

/-- What a document imports is at a place that its text names. -/
theorem importsWithin_of_readDraft {a : Path} {draft : Draft}
    (h : readDraft disk entities a = .ok draft) :
    draft.ImportsWithin base (places disk entities base p c) := by
  unfold readDraft at h
  split at h
  · cases h
  · next text htext =>
    split at h
    · cases h
    · next hread =>
      cases h
      intro i hi
      obtain ⟨root, hroot, _, _, himports, _⟩ := Draft.origins_of_read hread
      obtain ⟨e, he, hname, hhref⟩ := himports i hi
      have hmem : i.href ∈ hrefsOf entities text := by
        rw [hrefsOf, hroot]
        exact List.mem_filterMap.2 ⟨e, List.mem_filter.2 ⟨he, by simpa using hname⟩, hhref⟩
      refine List.mem_toFinset.2 (List.mem_cons_of_mem _ (List.mem_map.2 ⟨i.href, ?_, rfl⟩))
      exact List.mem_append_left _
        (List.mem_flatMap.2 ⟨text, Disk.mem_texts_of_read htext, hmem⟩)

theorem importsWithin_of_mem_drafts {entry : List Component × Draft} (h : entry ∈ c.drafts) :
    entry.2.ImportsWithin base (places disk entities base p c) := by
  intro i hi
  refine List.mem_toFinset.2 (List.mem_cons_of_mem _ (List.mem_map.2 ⟨i.href, ?_, rfl⟩))
  exact List.mem_append_right _
    (List.mem_map.2 ⟨i, List.mem_flatMap.2 ⟨entry, h, hi⟩, rfl⟩)

end

/-! ## One step -/

section

variable {disk : Disk} {entities : EntityMap} {base : Path} {places : Finset Path}

/-- The drafts of the cache import files at some of the paths. -/
def Cache.ImportsWithin (base : Path) (places : Finset Path) (c : Cache) : Prop :=
  ∀ entry ∈ c.drafts, entry.2.ImportsWithin base places

/-- Every frame has only imports ahead that are at some of the paths. -/
def FramesWithin (base : Path) (places : Finset Path) (frames : List Frame) : Prop :=
  ∀ frame ∈ frames, ∀ i ∈ frame.ahead, (i.path base).normalize ∈ places

/-- What is ahead of a search, and in its cache, is at some of the paths. -/
def Search.Within (base : Path) (places : Finset Path) : Search → Prop
  | .call c frames p => c.ImportsWithin base places ∧ FramesWithin base places frames ∧
      p.normalize ∈ places
  | .follow c frame frames => c.ImportsWithin base places ∧
      FramesWithin base places (frame :: frames)
  | .ended _ _ => True

/-- The active paths are different and among some, and so is all that is ahead. -/
structure Search.Sound (base : Path) (places : Finset Path) (s : Search) : Prop where
  nodup : s.active.Nodup
  mem : ∀ q ∈ s.active, q ∈ places
  within : s.Within base places

/-- Different paths among some are not more than these. -/
theorem length_le_card {way : List Path} (hnodup : way.Nodup) (hmem : ∀ q ∈ way, q ∈ places) :
    way.length ≤ places.card := by
  rw [← List.toFinset_card_of_nodup hnodup]
  exact Finset.card_le_card fun q hq => hmem q (List.mem_toFinset.1 hq)

/-- A frame on top whose path is new and at a place keeps the paths different and at places. -/
theorem keysOf_cons_within (frame : Frame) {frames : List Frame} (hnew : frame.key ∉ keysOf frames)
    (hplace : frame.key ∈ places) (hnodup : (keysOf frames).Nodup)
    (hmem : ∀ q ∈ keysOf frames, q ∈ places) :
    (keysOf (frame :: frames)).Nodup ∧ ∀ q ∈ keysOf (frame :: frames), q ∈ places := by
  rw [keysOf_cons, ← List.concat_eq_append]
  refine ⟨hnodup.concat hnew, fun q hq => ?_⟩
  rw [List.concat_eq_append, List.mem_append, List.mem_singleton] at hq
  exact hq.elim (hmem q) fun h => h ▸ hplace

/-- A call is at most one deeper than there are places. -/
theorem Search.Sound.depth_le {s : Search} (h : s.Sound base places) :
    s.depth ≤ places.card + 1 := by
  have hle := length_le_card h.nodup h.mem
  cases s with
  | call c frames p =>
    rw [active, length_keysOf] at hle
    exact Nat.succ_le_succ hle
  | follow c frame frames =>
    rw [active, length_keysOf, List.length_cons] at hle
    exact Nat.le_succ_of_le hle
  | ended c result => exact Nat.zero_le _

theorem loads_importsWithin (hfiles : ∀ a draft, readDraft disk entities a = .ok draft →
      draft.ImportsWithin base places) (p : Path) :
    Loads (Cache.ImportsWithin base places) (loadDraft disk entities p)
      (Draft.ImportsWithin · base places) :=
  loads_loadDraft (P := fun entry => entry.2.ImportsWithin base places) fun draft h =>
    hfiles p draft h

/-- What a call returns goes to the frame that waits for it. -/
theorem sound_deliver {c : Cache} {tree : ImportTree} {frames : List Frame}
    (hc : c.ImportsWithin base places) (hframes : FramesWithin base places frames)
    (hnodup : (keysOf frames).Nodup) (hmem : ∀ q ∈ keysOf frames, q ∈ places) :
    (Search.deliver c tree frames).Sound base places := by
  cases frames with
  | nil => exact ⟨List.nodup_nil, by simp [Search.deliver, Search.active], trivial⟩
  | cons frame frames =>
    refine ⟨hnodup, hmem, hc, fun f hf => ?_⟩
    rcases List.mem_cons.1 hf with rfl | hf
    · exact hframes frame List.mem_cons_self
    · exact hframes f (List.mem_cons_of_mem _ hf)

/-- A step keeps the active paths different and among the places. -/
theorem sound_step (hfiles : ∀ a draft, readDraft disk entities a = .ok draft →
      draft.ImportsWithin base places) {s : Search} (h : s.Sound base places) :
    (s.step disk entities base).Sound base places := by
  have hended : ∀ c result, (Search.ended c result).Sound base places := fun c result =>
    ⟨List.nodup_nil, by simp [Search.active], trivial⟩
  cases s with
  | call c frames p =>
    obtain ⟨hc, hframes, hp⟩ := h.within
    rw [Search.step]
    split
    · exact hended _ _
    · next hnew =>
      obtain ⟨hkept, hloaded⟩ := loads_importsWithin hfiles p.normalize c hc
      split
      · next draft c' hrun =>
        rw [hrun] at hkept hloaded
        obtain ⟨hnodup, hmem⟩ :=
          keysOf_cons_within ⟨p.normalize, draft, [], draft.imports⟩ hnew hp h.nodup h.mem
        refine ⟨hnodup, hmem, hkept, fun frame hframe => ?_⟩
        rcases List.mem_cons.1 hframe with rfl | hframe
        · exact hloaded draft rfl
        · exact hframes frame hframe
      · exact hended _ _
  | follow c frame frames =>
    obtain ⟨hc, hframes⟩ := h.within
    have hkeys : keysOf (frame :: frames) = keysOf frames ++ [frame.key] := keysOf_cons _ _
    rw [Search.step]
    split
    · next i ahead hahead =>
      refine ⟨h.nodup, h.mem, hc, fun f hf j hj => ?_, ?_⟩
      · rcases List.mem_cons.1 hf with rfl | hf
        · refine hframes frame List.mem_cons_self j ?_
          rw [hahead]
          exact List.mem_cons_of_mem _ hj
        · exact hframes f (List.mem_cons_of_mem _ hf) j hj
      · refine hframes frame List.mem_cons_self i ?_
        rw [hahead]
        exact List.mem_cons_self
    · have hnodup : (keysOf frames ++ [frame.key]).Nodup := hkeys ▸ h.nodup
      refine sound_deliver hc (fun f hf => hframes f (List.mem_cons_of_mem _ hf))
        (List.nodup_append.1 hnodup).1 fun q hq => h.mem q ?_
      rw [Search.active, hkeys]
      exact List.mem_append_left _ hq
  | ended c result => exact h

theorem sound_steps (hfiles : ∀ a draft, readDraft disk entities a = .ok draft →
      draft.ImportsWithin base places) {s : Search} (h : s.Sound base places) (n : Nat) :
    ((Search.step disk entities base)^[n] s).Sound base places := by
  induction n generalizing s with
  | zero => exact h
  | succ n ih => exact ih (sound_step hfiles h)

end

/-! ## Whole searches -/

/-- Some steps lead from one state of a search to another. -/
def Search.Reaches (disk : Disk) (entities : EntityMap) (base : Path) (s s' : Search) : Prop :=
  ∃ n, (Search.step disk entities base)^[n] s = s'

section

variable {disk : Disk} {entities : EntityMap} {base : Path} {places : Finset Path}
  {s s' s'' : Search}

theorem Search.Reaches.refl (s : Search) : s.Reaches disk entities base s := ⟨0, rfl⟩

theorem Search.Reaches.head (h : (s.step disk entities base).Reaches disk entities base s') :
    s.Reaches disk entities base s' := by
  obtain ⟨n, hn⟩ := h
  exact ⟨n + 1, hn⟩

theorem Search.Reaches.trans (h : s.Reaches disk entities base s')
    (h' : s'.Reaches disk entities base s'') : s.Reaches disk entities base s'' := by
  obtain ⟨n, rfl⟩ := h
  obtain ⟨m, rfl⟩ := h'
  exact ⟨m + n, Function.iterate_add_apply _ m n s⟩

/-- A frame follows its imports one after the other, when a call for an import ends as `load`
    does. -/
theorem reaches_follow {load : Import → Loading ImportTree} {key : Path} {draft : Draft}
    {frames : List Frame}
    (hkeeps : ∀ (c : Cache) (i : Import), c.ImportsWithin base places →
      ((load i).run.run c).2.ImportsWithin base places)
    (hload : ∀ (c : Cache) (done : List ImportTree) (i : Import) (ahead : List Import),
      c.ImportsWithin base places → (i.path base).normalize ∈ places →
        (Search.call c (⟨key, draft, done, ahead⟩ :: frames) (i.path base)).Reaches
          disk entities base
          (.conclude (⟨key, draft, done, ahead⟩ :: frames) ((load i).run.run c)))
    {ahead : List Import} (hahead : ∀ i ∈ ahead, (i.path base).normalize ∈ places)
    (done : List ImportTree) {c : Cache} (hc : c.ImportsWithin base places) :
    (Search.follow c ⟨key, draft, done, ahead⟩ frames).Reaches disk entities base
      (.conclude frames ((Loading.each load ahead >>= fun trees =>
        (return .node draft (done.reverse ++ trees) : Loading ImportTree)).run.run c)) := by
  induction ahead generalizing done c with
  | nil =>
    refine .head ?_
    rw [Search.step, Loading.each, pure_bind, List.append_nil]
    exact .refl _
  | cons i later ih =>
    obtain ⟨hi, hlater⟩ := List.forall_mem_cons.1 hahead
    refine .head (.trans (hload c done i later hc hi) ?_)
    have hkept := hkeeps c i hc
    rw [Loading.each, bind_assoc, Loading.run_bind]
    rcases hrun : (load i).run.run c with ⟨failure | tree, c'⟩
    · exact .refl _
    · rw [hrun] at hkept
      have hnext := ih hlater (tree :: done) hkept
      show (Search.follow c' ⟨key, draft, tree :: done, later⟩ frames).Reaches disk entities base _
      simpa only [List.reverse_cons, List.append_assoc, List.singleton_append, bind_assoc,
        pure_bind] using hnext

/-- A search that has more steps left than there are places that are not active does what the
    calls on the stack do: its steps are never used up. -/
theorem runs_resolveFrom (hfiles : ∀ a draft, readDraft disk entities a = .ok draft →
      draft.ImportsWithin base places) (n : Nat) (frames : List Frame) (p : Path) (c : Cache)
    (hnodup : (keysOf frames).Nodup) (hmem : ∀ q ∈ keysOf frames, q ∈ places)
    (hp : p.normalize ∈ places) (hc : c.ImportsWithin base places)
    (henough : places.card < n + frames.length) :
    (Search.call c frames p).Reaches disk entities base
      (.conclude frames ((resolveFrom disk entities base n (keysOf frames) p).run.run c)) := by
  induction n generalizing frames p c with
  | zero =>
    have hle := length_le_card hnodup hmem
    rw [length_keysOf] at hle
    omega
  | succ n ih =>
    refine .head ?_
    simp only [Search.step, resolveFrom, List.contains_iff_mem]
    split
    · exact .refl _
    · next hnew =>
      obtain ⟨hkept, hloaded⟩ := loads_importsWithin hfiles p.normalize c hc
      rw [Loading.run_bind]
      rcases hrun : (loadDraft disk entities p.normalize).run.run c with ⟨failure | draft, c'⟩
      · exact .refl _
      · rw [hrun] at hkept hloaded
        refine reaches_follow (fun c i hc => ?_) (fun c done i ahead hc hi => ?_)
          (hloaded draft rfl) [] hkept
        · exact (loads_resolveFrom (fun q => loads_importsWithin hfiles q.normalize) base n _ _ c
            hc).1
        · have hway := keysOf_cons_within ⟨p.normalize, draft, done, ahead⟩ hnew hp
            hnodup hmem
          have hcall := ih _ (i.path base) c hway.1 hway.2 hi hc (by rw [List.length_cons]; omega)
          rwa [keysOf_cons] at hcall

end

/-- Resolving ends, whatever the files import, also a path that is on the way under another
    spelling, and whatever the cache holds: the calls on a stack come to the result and the cache of
    `resolve`. All the time the active paths are different, and each is that of the family or one
    that an import of a file or of a kept draft names, so calls are never deeper than there are such
    places and one more. -/
theorem search_ends (disk : Disk) (entities : EntityMap) (base p : Path) (c : Cache) :
    (∃ n, (Search.step disk entities base)^[n] (.call c [] p) =
      .ended ((resolve disk entities p base).run.run c).2
        ((resolve disk entities p base).run.run c).1) ∧
    ∀ n, let s := (Search.step disk entities base)^[n] (.call c [] p)
      s.active.Nodup ∧ (∀ q ∈ s.active, q ∈ places disk entities base p c) ∧
        s.depth ≤ (places disk entities base p c).card + 1 := by
  have hfiles : ∀ a draft, readDraft disk entities a = .ok draft →
      draft.ImportsWithin base (places disk entities base p c) :=
    fun a draft h => importsWithin_of_readDraft h
  have hc : c.ImportsWithin base (places disk entities base p c) :=
    fun entry h => importsWithin_of_mem_drafts h
  have hp : p.normalize ∈ places disk entities base p c :=
    List.mem_toFinset.2 List.mem_cons_self
  refine ⟨?_, fun n => ?_⟩
  · obtain ⟨n, hn⟩ := runs_resolveFrom hfiles (steps disk c) [] p c List.nodup_nil
      (by simp [keysOf]) hp hc (card_places_lt_steps disk entities base p c)
    have hrun : (resolve disk entities p base).run.run c =
        (resolveFrom disk entities base (steps disk c) [] p).run.run c := by
      rw [resolve, Loading.run_bind, Loading.run_get]
    rw [hrun]
    exact ⟨n, hn.trans (Search.conclude_nil _)⟩
  · have hstart : (Search.call c [] p).Sound base (places disk entities base p c) :=
      ⟨List.nodup_nil, by simp [Search.active, keysOf], hc, by simp [FramesWithin], hp⟩
    have hsound := sound_steps hfiles hstart n
    exact ⟨hsound.nodup, hsound.mem, hsound.depth_le⟩

end SchemaFamily
