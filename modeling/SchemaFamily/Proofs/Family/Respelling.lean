import SchemaFamily.Proofs.Draft.Extent
import SchemaFamily.Proofs.Family.Blurring
import SchemaFamily.Proofs.Family.Searching
import SchemaFamily.Proofs.Xml.Replacing

/-
  Families under other spellings. How the path of a family and the base directory are spelled makes
  no difference at all, since a search asks for normalised paths only (`compileIn_eq`). Where files
  spell the paths of their imports differently, two searches go side by side: they ask for the same
  paths and hold the same drafts but for what `blur` drops (`Search.near_step`). So they end alike,
  in trees that are the same after blurring or in the same failure, and what the trees are compiled
  to is alike as well (`compile_of_respells`).
-/

namespace SchemaFamily

open Xml

section

variable (kept : Path → Position → Bool)

/-! ## Blurred by file -/

/-- The draft blurred as its file is. -/
def Draft.blurFile (d : Draft) : Draft := d.blur (kept d.header.source)

mutual

/-- The tree with each draft blurred as its file is. -/
def ImportTree.blurFiles : ImportTree → ImportTree
  | .node draft imports => .node (draft.blurFile kept) (ImportTree.blurFilesAll imports)

/-- The trees with each draft blurred as its file is. -/
def ImportTree.blurFilesAll : List ImportTree → List ImportTree
  | [] => []
  | tree :: later => tree.blurFiles :: ImportTree.blurFilesAll later

end

/-- The cache with each draft blurred as its file is. -/
def Cache.blurFiles (c : Cache) : Cache :=
  { c with drafts := c.drafts.map fun entry => (entry.1, entry.2.blurFile kept) }

/-- A column of what a document says is kept, if it is in the file of each document of that
    handle. -/
def Graph.keeps (g : Graph) (id : DocumentId) (p : Position) : Bool :=
  g.documents.all fun d => d.id != id || kept d.header.source p

/-- The graph with each document blurred as its file is. -/
def Graph.blurFiles (g : Graph) : Graph := g.blur (g.keeps kept)

/-- Both files are read, to texts that respell each other, or neither is, for the same reason. -/
def FileRespells (kept : Position → Bool) (entities : EntityMap) :
    Except DiskFault String → Except DiskFault String → Prop
  | .ok text, .ok text' => TextRespells kept entities text text'
  | .error fault, .error fault' => fault = fault'
  | _, _ => False

/-- What is read at each path of the disks is the same but for how imports are spelled. -/
def Disk.Respells (entities : EntityMap) (disk disk' : Disk) : Prop :=
  ∀ p, FileRespells (kept p) entities (disk.read p) (disk'.read p)

/-- The families are the same after blurring, or there are none, for the same reason; and so are
    the caches afterwards, with the same paths. -/
structure AnswersAlike (answer answer' : Except Failure Graph × Cache) : Prop where
  family : answer.1.map (Graph.blurFiles kept) = answer'.1.map (Graph.blurFiles kept)
  cache : answer.2.blurFiles kept = answer'.2.blurFiles kept

end

/-! ## Spellings of the path and of the base directory -/

section

variable {disk : Disk} {p p' base base' : Path}

theorem resolveFrom_eq (entities : EntityMap) (hp : p.normalize = p'.normalize)
    (hbase : base.normalize = base'.normalize) (steps : Nat) (way : List Path) :
    resolveFrom disk entities base steps way p = resolveFrom disk entities base' steps way p' := by
  induction steps generalizing p p' way with
  | zero => rw [resolveFrom, resolveFrom, hp]
  | succ steps ih =>
    have himport (key : Path) (i : Import) :
        resolveFrom disk entities base steps (way ++ [key]) (base.join ⟨i.href⟩) =
          resolveFrom disk entities base' steps (way ++ [key]) (base'.join ⟨i.href⟩) :=
      ih (Path.normalize_join hbase rfl) _
    simp only [resolveFrom, hp, himport]

/-- Only what the path and the base directory are normalised to counts. -/
theorem compileIn_eq (settings : Settings) (hp : p.normalize = p'.normalize)
    (hbase : base.normalize = base'.normalize) :
    compileIn disk settings p base = compileIn disk settings p' base' := by
  simp only [compileIn, resolve, resolveFrom_eq settings.entities hp hbase]

end

/-! ## Loading -/

section

variable {kept : Path → Position → Bool} {entities : EntityMap} {disk disk' : Disk} {c c' : Cache}

theorem Cache.get?_blurFiles (c : Cache) (p : Path) :
    (c.blurFiles kept).get? p = (c.get? p).map (Draft.blurFile kept) := by
  rw [get?, get?, blurFiles]
  induction c.drafts with
  | nil => rfl
  | cons entry later ih =>
    rw [List.map_cons, List.lookup_cons, List.lookup_cons, ih]
    split <;> rfl

theorem Cache.blurFiles_insert (c : Cache) (p : Path) (draft : Draft) :
    (c.insert p draft).blurFiles kept = (c.blurFiles kept).insert p (draft.blurFile kept) := by
  have hcontains : (c.blurFiles kept).contains p = c.contains p := by
    rw [contains, contains, get?_blurFiles, Option.isSome_map]
  rw [insert, insert, hcontains]
  split <;> rfl

/-- Files that respell each other have drafts that are the same after blurring, or fail alike. -/
theorem readDraft_of_respells (h : disk.Respells kept entities disk') (p : Path) :
    (readDraft disk entities p).map (Draft.blurFile kept) =
      (readDraft disk' entities p).map (Draft.blurFile kept) := by
  have hfile := h p
  rw [readDraft, readDraft]
  rcases htext : disk.read p with fault | text <;>
    rcases htext' : disk'.read p with fault' | text' <;> rw [htext, htext'] at hfile
  · cases hfile
    rfl
  · cases hfile
  · cases hfile
  · have hread := read_of_respells hfile p
    dsimp only
    rcases hdraft : Draft.read entities p text with error | draft <;>
      rcases hdraft' : Draft.read entities p text' with error' | draft' <;>
      rw [hdraft, hdraft'] at hread
    · cases hread
      rfl
    · cases hread
    · cases hread
    · have hblur : draft.blur (kept p) = draft'.blur (kept p) := Except.ok.inj hread
      simp only [Except.map, Draft.blurFile, Draft.source_of_read hdraft,
        Draft.source_of_read hdraft', hblur]

theorem loadDraft_of_respells (h : disk.Respells kept entities disk')
    (hc : c.blurFiles kept = c'.blurFiles kept) (p : Path) :
    (((loadDraft disk entities p).run.run c).1.map (Draft.blurFile kept) =
        ((loadDraft disk' entities p).run.run c').1.map (Draft.blurFile kept)) ∧
      ((loadDraft disk entities p).run.run c).2.blurFiles kept =
        ((loadDraft disk' entities p).run.run c').2.blurFiles kept := by
  have hget : (c.get? p).map (Draft.blurFile kept) = (c'.get? p).map (Draft.blurFile kept) := by
    rw [← Cache.get?_blurFiles, hc, Cache.get?_blurFiles]
  rcases hdraft : c.get? p with _ | draft <;> rcases hdraft' : c'.get? p with _ | draft' <;>
    rw [hdraft, hdraft'] at hget
  · have hread := readDraft_of_respells h p
    rcases hd : readDraft disk entities p with failure | draft <;>
      rcases hd' : readDraft disk' entities p with failure' | draft' <;> rw [hd, hd'] at hread
    · cases hread
      rw [run_loadDraft_of_error hdraft hd, run_loadDraft_of_error hdraft' hd']
      exact ⟨rfl, hc⟩
    · cases hread
    · cases hread
    · rw [run_loadDraft_of_ok hdraft hd, run_loadDraft_of_ok hdraft' hd']
      refine ⟨hread, ?_⟩
      rw [Cache.blurFiles_insert, Cache.blurFiles_insert, hc, Except.ok.inj hread]
  · cases hget
  · cases hget
  · rw [run_loadDraft_of_hit hdraft, run_loadDraft_of_hit hdraft']
    refine ⟨congrArg Except.ok (Option.some.inj hget), ?_⟩
    exact congrArg (fun c : Cache => { c with hits := c.hits + 1 }) hc

/-! ## Searches side by side -/

theorem ImportTree.blurFilesAll_eq_map (trees : List ImportTree) :
    blurFilesAll kept trees = trees.map (blurFiles kept) := by
  induction trees with
  | nil => rfl
  | cons tree later ih => rw [blurFilesAll, ih, List.map_cons]

/-- Two calls wait with the same key, with drafts and trees that are the same after blurring, and
    with the same paths ahead. -/
structure Frame.Near (kept : Path → Position → Bool) (frame frame' : Frame) : Prop where
  key : frame.key = frame'.key
  draft : frame.draft.blurFile kept = frame'.draft.blurFile kept
  done : frame.done.map (ImportTree.blurFiles kept) = frame'.done.map (ImportTree.blurFiles kept)
  ahead : frame.ahead.map (fun i => Path.plainHref i.href) =
    frame'.ahead.map fun i => Path.plainHref i.href

/-- Two searches are at the same step, with caches, frames and results that are alike. -/
inductive Search.Near (kept : Path → Position → Bool) : Search → Search → Prop
  | call {c c' : Cache} {frames frames' : List Frame} {p p' : Path}
      (hcache : c.blurFiles kept = c'.blurFiles kept)
      (hframes : List.Forall₂ (Frame.Near kept) frames frames')
      (hpath : p.normalize = p'.normalize) : Near kept (.call c frames p) (.call c' frames' p')
  | follow {c c' : Cache} {frame frame' : Frame} {frames frames' : List Frame}
      (hcache : c.blurFiles kept = c'.blurFiles kept) (hframe : frame.Near kept frame')
      (hframes : List.Forall₂ (Frame.Near kept) frames frames') :
      Near kept (.follow c frame frames) (.follow c' frame' frames')
  | ended {c c' : Cache} {result result' : Except Failure ImportTree}
      (hcache : c.blurFiles kept = c'.blurFiles kept)
      (hresult : result.map (ImportTree.blurFiles kept) =
        result'.map (ImportTree.blurFiles kept)) :
      Near kept (.ended c result) (.ended c' result')

theorem keysOf_eq {frames frames' : List Frame}
    (h : List.Forall₂ (Frame.Near kept) frames frames') : keysOf frames = keysOf frames' := by
  have hkeys : frames.map Frame.key = frames'.map Frame.key := by
    induction h with
    | nil => rfl
    | cons hframe _ ih => rw [List.map_cons, List.map_cons, hframe.key, ih]
  rw [keysOf, keysOf, hkeys]

theorem Search.near_deliver {frames frames' : List Frame} {tree tree' : ImportTree}
    (hc : c.blurFiles kept = c'.blurFiles kept)
    (htree : tree.blurFiles kept = tree'.blurFiles kept)
    (h : List.Forall₂ (Frame.Near kept) frames frames') :
    (deliver c tree frames).Near kept (deliver c' tree' frames') := by
  cases h with
  | nil => exact .ended hc (by rw [Except.map, htree, Except.map])
  | cons hframe hframes =>
    refine .follow hc ⟨hframe.key, hframe.draft, ?_, hframe.ahead⟩ hframes
    rw [List.map_cons, List.map_cons, htree, hframe.done]

/-- A step of one search is like that of the other. -/
theorem Search.near_step {base base' : Path} (hbase : base.normalize = base'.normalize)
    (hdisk : disk.Respells kept entities disk') {s s' : Search} (h : s.Near kept s') :
    (s.step disk entities base).Near kept (s'.step disk' entities base') := by
  cases h with
  | @call c c' frames frames' p p' hc hframes hp =>
    rw [step, step, ← hp, ← keysOf_eq hframes]
    split
    · exact .ended hc rfl
    · obtain ⟨hdraft, hcache⟩ := loadDraft_of_respells hdisk hc p.normalize
      rcases hrun : (loadDraft disk entities p.normalize).run.run c with ⟨failure | draft, c₁⟩ <;>
        rcases hrun' : (loadDraft disk' entities p.normalize).run.run c' with
          ⟨failure' | draft', c₁'⟩ <;> rw [hrun, hrun'] at hdraft hcache
      · cases hdraft
        exact .ended hcache rfl
      · cases hdraft
      · cases hdraft
      · have hblur : draft.blurFile kept = draft'.blurFile kept := Except.ok.inj hdraft
        have himports : (draft.blurFile kept).imports = (draft'.blurFile kept).imports :=
          congrArg Draft.imports hblur
        refine .follow hcache ⟨rfl, hblur, rfl, ?_⟩ hframes
        have hhrefs := congrArg (List.map Import.href) himports
        simp only [Draft.blurFile, Draft.blur, List.map_map] at hhrefs
        exact hhrefs
  | @follow c c' frame frame' frames frames' hc hframe hframes =>
    rcases frame with ⟨key, draft, done, ahead⟩
    rcases frame' with ⟨key', draft', done', ahead'⟩
    obtain ⟨hkey, hdraft, hdone, hahead⟩ := hframe
    rcases ahead with _ | ⟨i, ahead⟩ <;> rcases ahead' with _ | ⟨i', ahead'⟩
    · refine near_deliver hc ?_ hframes
      simp only [ImportTree.blurFiles, ImportTree.blurFilesAll_eq_map, List.map_reverse]
      rw [hdraft, hdone]
    · cases hahead
    · cases hahead
    · obtain ⟨hhref, hmore⟩ := List.cons.inj hahead
      refine .call hc (.cons ⟨hkey, hdraft, hdone, hmore⟩ hframes) ?_
      exact Path.normalize_join hbase (Path.normalize_of_plainHref hhref)
  | ended hc hresult => exact .ended hc hresult

theorem Search.near_steps {base base' : Path} (hbase : base.normalize = base'.normalize)
    (hdisk : disk.Respells kept entities disk') {s s' : Search} (h : s.Near kept s') (n : Nat) :
    ((step disk entities base)^[n] s).Near kept ((step disk' entities base')^[n] s') := by
  induction n generalizing s s' with
  | zero => exact h
  | succ n ih => exact ih (near_step hbase hdisk h)

/-- A search comes to what resolving gives. -/
theorem reaches_resolve (disk : Disk) (entities : EntityMap) (base p : Path) (c : Cache) :
    (Search.call c [] p).Reaches disk entities base
      (.ended ((resolve disk entities p base).run.run c).2
        ((resolve disk entities p base).run.run c).1) := by
  have hp : p.normalize ∈ places disk entities base p c :=
    List.mem_toFinset.2 List.mem_cons_self
  have hreaches := runs_resolveFrom (fun a draft h => importsWithin_of_readDraft h)
    (steps disk c) [] p c List.nodup_nil (by simp [keysOf]) hp
    (fun entry h => importsWithin_of_mem_drafts h) (card_places_lt_steps disk entities base p c)
  rw [Search.conclude_nil] at hreaches
  rw [resolve, Loading.run_bind, Loading.run_get]
  exact hreaches

theorem iterate_step_ended (base : Path) (result : Except Failure ImportTree) (n : Nat) :
    (Search.step disk entities base)^[n] (.ended c result) = .ended c result :=
  Function.iterate_fixed rfl n

/-- What is resolved from files that respell each other is the same after blurring. -/
theorem resolve_of_respells {p p' base base' : Path} (hp : p.normalize = p'.normalize)
    (hbase : base.normalize = base'.normalize) (hdisk : disk.Respells kept entities disk')
    (hc : c.blurFiles kept = c'.blurFiles kept) :
    ((resolve disk entities p base).run.run c).1.map (ImportTree.blurFiles kept) =
        ((resolve disk' entities p' base').run.run c').1.map (ImportTree.blurFiles kept) ∧
      ((resolve disk entities p base).run.run c).2.blurFiles kept =
        ((resolve disk' entities p' base').run.run c').2.blurFiles kept := by
  obtain ⟨n, hn⟩ := reaches_resolve disk entities base p c
  obtain ⟨m, hm⟩ := reaches_resolve disk' entities base' p' c'
  -- Both have ended after the steps of the one and then of the other.
  have hnear := Search.near_steps hbase hdisk (.call hc .nil hp : Search.Near kept _ _) (m + n)
  rw [Function.iterate_add_apply, hn, iterate_step_ended, Nat.add_comm,
    Function.iterate_add_apply, hm, iterate_step_ended] at hnear
  cases hnear with
  | ended hcache hresult => exact ⟨hresult, hcache⟩

/-! ## The graphs of trees -/

namespace Graph

variable {coarse : DocumentId → Position → Bool} {g g' : Graph}

/-- A column that is kept in what a document says is kept in its file. -/
def Heeds (kept : Path → Position → Bool) (coarse : DocumentId → Position → Bool) (g : Graph) :
    Prop :=
  ∀ d ∈ g.documents, ∀ p, coarse d.id p = true → kept d.header.source p = true

theorem heeds_keeps (g : Graph) : g.Heeds kept (g.keeps kept) := by
  intro d hd p hp
  have := Array.all_eq_true'.1 hp d hd
  simpa using this

/-- Adding trees leaves every document with its handle and its header. -/
theorem Heeds.of_grown (h : g'.Heeds kept coarse)
    (hgrown : ∀ d ∈ g.documents, ∃ d' ∈ g'.documents, d'.id = d.id ∧ d'.header = d.header) :
    g.Heeds kept coarse := by
  intro d hd p hp
  obtain ⟨d', hd', hid, hheader⟩ := hgrown d hd
  exact hheader ▸ h d' hd' p (hid ▸ hp)

theorem Heeds.of_attach {parent child : DocumentId}
    (h : (g.attach parent child).Heeds kept coarse) : g.Heeds kept coarse := by
  refine h.of_grown fun d hd => ?_
  obtain ⟨i, hi⟩ := Array.getElem?_of_mem hd
  obtain ⟨d', hd', houtline⟩ := (sameOutline_attach g parent child).exists_document hi
  exact ⟨d', Array.mem_of_getElem? hd', congrArg (·.id) houtline, congrArg (·.header) houtline⟩

theorem Heeds.of_insert {draft : Draft} (h : (g.insert draft).1.Heeds kept coarse) :
    g.Heeds kept coarse ∧
      ∀ p, coarse (.ofIndex g.documents.size) p = true → kept draft.header.source p = true := by
  rw [Heeds, documents_insert] at h
  obtain ⟨_, _, _, _, _, hdocument⟩ := g.exists_documentOf draft
  refine ⟨fun d hd => h d (Array.mem_push.2 (.inl hd)), fun p hp => ?_⟩
  have hlast := h _ (Array.mem_push.2 (.inr rfl)) p
  rw [hdocument] at hlast
  exact hlast hp

mutual

theorem Heeds.of_graft : ∀ {tree : ImportTree} {g : Graph}, (g.graft tree).1.Heeds kept coarse →
    g.Heeds kept coarse
  | .node draft imports, g, h => by
    have hinserted : ((g.insert draft).1.graftImports (g.insert draft).2 imports).Heeds kept
        coarse := h
    exact hinserted.of_graftImports.of_insert.1

theorem Heeds.of_graftImports : ∀ {trees : List ImportTree} {g : Graph} {parent : DocumentId},
    (g.graftImports parent trees).Heeds kept coarse → g.Heeds kept coarse
  | [], _, _, h => h
  | tree :: later, g, parent, h => by
    have hmore : (((g.graft tree).1.attach parent (g.graft tree).2).graftImports parent
        later).Heeds kept coarse := h
    exact hmore.of_graftImports.of_attach.of_graft

end

/-- Drafts that are the same after blurring make graphs so that were so. -/
theorem blur_insert {draft draft' : Draft} (hg : g.blur coarse = g'.blur coarse)
    (hdraft : draft.blurFile kept = draft'.blurFile kept)
    (h : (g.insert draft).1.Heeds kept coarse) :
    (g.insert draft).1.blur coarse = (g'.insert draft').1.blur coarse ∧
      (g.insert draft).2 = (g'.insert draft').2 := by
  have hsize : g.documents.size = g'.documents.size := by
    rw [← size_documents_blur coarse g, hg, size_documents_blur]
  have hheader : draft.header = draft'.header := by
    have hheaders : (draft.blurFile kept).header = (draft'.blurFile kept).header :=
      congrArg Draft.header hdraft
    exact hheaders
  have hblur : draft.blur (coarse (.ofIndex g.documents.size)) =
      draft'.blur (coarse (.ofIndex g'.documents.size)) := by
    rw [Draft.blurFile, Draft.blurFile, ← hheader] at hdraft
    rw [← hsize]
    exact Draft.blur_of_blur h.of_insert.2 hdraft
  have hinsert := insert_blur coarse g draft
  rw [hg, hblur, ← insert_blur coarse g' draft'] at hinsert
  exact Prod.mk.inj hinsert

mutual

/-- Trees that are the same after blurring make graphs so that were so. -/
theorem blur_graft : ∀ {tree tree' : ImportTree} {g g' : Graph}, g.blur coarse = g'.blur coarse →
    tree.blurFiles kept = tree'.blurFiles kept → (g.graft tree).1.Heeds kept coarse →
      (g.graft tree).1.blur coarse = (g'.graft tree').1.blur coarse ∧
        (g.graft tree).2 = (g'.graft tree').2
  | .node draft imports, .node draft' imports', g, g', hg, htree, h => by
    obtain ⟨hdraft, himports⟩ := ImportTree.node.inj htree
    have hinserted : ((g.insert draft).1.graftImports (g.insert draft).2 imports).Heeds kept
        coarse := h
    obtain ⟨hinsert, hid⟩ := blur_insert hg hdraft hinserted.of_graftImports
    refine ⟨?_, hid⟩
    exact blur_graftImports hinsert hid himports h

theorem blur_graftImports : ∀ {trees trees' : List ImportTree} {g g' : Graph}
    {parent parent' : DocumentId}, g.blur coarse = g'.blur coarse → parent = parent' →
      ImportTree.blurFilesAll kept trees = ImportTree.blurFilesAll kept trees' →
        (g.graftImports parent trees).Heeds kept coarse →
          (g.graftImports parent trees).blur coarse = (g'.graftImports parent' trees').blur coarse
  | [], [], _, _, _, _, hg, _, _, _ => hg
  | [], _ :: _, _, _, _, _, _, _, htrees, _ => by cases htrees
  | _ :: _, [], _, _, _, _, _, _, htrees, _ => by cases htrees
  | tree :: later, tree' :: later', g, g', parent, _, hg, rfl, htrees, h => by
    obtain ⟨htree, hlater⟩ := List.cons.inj htrees
    have hmore : (((g.graft tree).1.attach parent (g.graft tree).2).graftImports parent
        later).Heeds kept coarse := h
    obtain ⟨hgraft, hid⟩ := blur_graft hg htree hmore.of_graftImports.of_attach
    have hattached : ((g.graft tree).1.attach parent (g.graft tree).2).blur coarse =
        ((g'.graft tree').1.attach parent (g'.graft tree').2).blur coarse := by
      rw [attach_blur, attach_blur, hgraft, hid]
    have hgrafted := blur_graftImports hattached rfl hlater hmore
    exact hgrafted

end

theorem keeps_congr (h : g.documents.map (fun d => (d.id, d.header)) =
    g'.documents.map fun d => (d.id, d.header)) : g.keeps kept = g'.keeps kept := by
  have hkeeps (g : Graph) (id : DocumentId) (p : Position) : g.keeps kept id p =
      (g.documents.map fun d => (d.id, d.header)).all
        fun d => d.1 != id || kept d.2.source p := by
    rw [Array.all_map]
    rfl
  funext id p
  rw [hkeeps, hkeeps, h]

theorem SameOutline.keeps_eq (h : g.SameOutline g') : g.keeps kept = g'.keeps kept := by
  refine keeps_congr ?_
  have houtlines := congrArg (·.map fun d : Document => (d.id, d.header)) h.documents
  simp only [Array.map_map] at houtlines
  exact houtlines

/-- Trees that are the same after blurring make families that are. -/
theorem ofTree_of_blurFiles {tree tree' : ImportTree}
    (h : tree.blurFiles kept = tree'.blurFiles kept) :
    (ofTree tree).keeps kept = (ofTree tree').keeps kept ∧
      (ofTree tree).blurFiles kept = (ofTree tree').blurFiles kept := by
  have hblur : (ofTree tree).blur ((ofTree tree).keeps kept) =
      (ofTree tree').blur ((ofTree tree).keeps kept) :=
    (blur_graft rfl h (heeds_keeps (ofTree tree))).1
  have hkeeps : (ofTree tree).keeps kept = (ofTree tree').keeps kept := by
    refine keeps_congr ?_
    have hdocuments := congrArg (fun g : Graph => g.documents.map fun d => (d.id, d.header)) hblur
    simp only [Graph.blur, Array.map_map] at hdocuments
    exact hdocuments
  refine ⟨hkeeps, ?_⟩
  rw [blurFiles, blurFiles, ← hkeeps]
  exact hblur

end Graph

/-! ## Compiling -/

/-- Families that are the same after blurring are finished to such, or not for the same reason. -/
theorem finish_of_blurFiles {tree tree' : ImportTree}
    (h : tree.blurFiles kept = tree'.blurFiles kept) (suffix : String) :
    ((finishFamily suffix).apply (.ofTree tree)).1 =
        ((finishFamily suffix).apply (.ofTree tree')).1 ∧
      ((finishFamily suffix).apply (.ofTree tree)).2.blurFiles kept =
        ((finishFamily suffix).apply (.ofTree tree')).2.blurFiles kept := by
  obtain ⟨hkeeps, hblur⟩ := Graph.ofTree_of_blurFiles h
  have hfinished (tree : ImportTree) :
      ((finishFamily suffix).apply (.ofTree tree)).2.keeps kept =
        (Graph.ofTree tree).keeps kept :=
    (sameOutline_finishFamily suffix (.ofTree tree)).symm.keeps_eq
  have happly (tree : ImportTree) :=
    apply_finishFamily_blur ((Graph.ofTree tree).keeps kept) suffix (.ofTree tree)
  have hsame := (happly tree).symm.trans
    ((congrArg (finishFamily suffix).apply hblur).trans (happly tree'))
  obtain ⟨hresult, hgraph⟩ := Prod.mk.inj hsame
  rw [Graph.blurFiles, Graph.blurFiles, hfinished, hfinished]
  exact ⟨hresult, hgraph⟩

/-- Compiling files that respell each other gives the same family after blurring. -/
theorem compileIn_of_respells {settings : Settings} {p p' base base' : Path}
    (hp : p.normalize = p'.normalize) (hbase : base.normalize = base'.normalize)
    (hdisk : disk.Respells kept settings.entities disk')
    (hc : c.blurFiles kept = c'.blurFiles kept) :
    AnswersAlike kept ((compileIn disk settings p base).run.run c)
      ((compileIn disk' settings p' base').run.run c') := by
  obtain ⟨htree, hcache⟩ := resolve_of_respells hp hbase hdisk hc
  rw [compileIn, compileIn, Loading.run_bind, Loading.run_bind]
  rcases hrun : (resolve disk settings.entities p base).run.run c with ⟨failure | tree, c₁⟩ <;>
    rcases hrun' : (resolve disk' settings.entities p' base').run.run c' with
      ⟨failure' | tree', c₁'⟩ <;> rw [hrun, hrun'] at htree hcache
  · cases htree
    exact ⟨rfl, hcache⟩
  · cases htree
  · cases htree
  · obtain ⟨hresult, hgraph⟩ :=
      finish_of_blurFiles (Except.ok.inj htree) settings.multiplexerSuffix
    dsimp only
    rcases happly : (finishFamily settings.multiplexerSuffix).apply (.ofTree tree) with
      ⟨failure | n, g⟩ <;>
      rcases happly' : (finishFamily settings.multiplexerSuffix).apply (.ofTree tree') with
        ⟨failure' | n', g'⟩ <;> rw [happly, happly'] at hresult hgraph
    · cases hresult
      exact ⟨rfl, hcache⟩
    · cases hresult
    · cases hresult
    · exact ⟨congrArg Except.ok hgraph, hcache⟩

/-- The spelling of paths does not matter. Single dots and doubled or trailing slashes in the path
    of a family or in the base directory change nothing at all. In what files import they change
    the spelling that the documents keep, and the columns of what then stands elsewhere on its
    line; the family is otherwise the same, or the failure, with its paths, its chain and its
    message, and so is the cache. -/
theorem compile_of_respells (settings : Settings) {p p' base base' : Path} (hp : p.Respells p')
    (hbase : base.Respells base') :
    (∀ disk, compileIn disk settings p base = compileIn disk settings p' base' ∧
      compile disk settings p = compile disk settings p') ∧
    ∀ kept disk disk', disk.Respells kept settings.entities disk' →
      ∀ c c' : Cache, c.blurFiles kept = c'.blurFiles kept →
        AnswersAlike kept ((compileIn disk settings p base).run.run c)
            ((compileIn disk' settings p' base').run.run c') ∧
          AnswersAlike kept ((compile disk settings p).run.run c)
            ((compile disk' settings p').run.run c') := by
  have hdirectory := Path.normalize_directory hp.normalize_eq
  refine ⟨fun disk => ⟨?_, ?_⟩, fun kept disk disk' hdisk c c' hc => ⟨?_, ?_⟩⟩
  · exact compileIn_eq settings hp.normalize_eq hbase.normalize_eq
  · exact compileIn_eq settings hp.normalize_eq hdirectory
  · exact compileIn_of_respells hp.normalize_eq hbase.normalize_eq hdisk hc
  · exact compileIn_of_respells hp.normalize_eq hdirectory hdisk hc

/-- Disks on which one file has another text. -/
theorem Disk.respells_cons {q : Path} {text text' : String} {sights : List (Path × Sight)}
    (h : TextRespells (kept q) entities text text') :
    (Disk.ofSights ((q, .file (some text)) :: sights)).Respells kept entities
      (Disk.ofSights ((q, .file (some text')) :: sights)) := by
  intro p
  simp only [Disk.read, Disk.ofSights, List.lookup_cons]
  cases hp : p == q with
  | true =>
    rw [beq_iff_eq.1 hp]
    exact h
  | false =>
    dsimp only
    split
    · exact rfl
    · exact rfl
    · exact rfl
    · exact .refl _ _

end

/-- A file that imports another, which defines a flag behind this on the same line. -/
def importingText (href : String) : String :=
  "<METASCHEMA><import href=\"" ++ href ++ "\"/><define-flag name=\"f\"/></METASCHEMA>"

/-- A disk with a text that may import another, and with nothing where no path leads. -/
def importingDisk (text : String) : Disk :=
  .ofSights [(⟨"a"⟩, .file (some text)), (⟨"b"⟩, .file (some "<METASCHEMA/>")),
    (⟨""⟩, .nothing .missing)]

/-- The columns that are kept however the import is spelled. -/
def keptImporting : Position → Bool := unmoved "<METASCHEMA>".toList "import href=\"b\"/".toList

theorem textRespells_importingText :
    TextRespells keptImporting [] (importingText "b") (importingText ".//b") := by
  have htext : (importingText "b").toList = "<METASCHEMA>".toList ++
      '<' :: "import href=\"b\"/".toList ++ ['>'] ++
        "<define-flag name=\"f\"/></METASCHEMA>".toList := by
    decide +kernel
  have htext' : (importingText ".//b").toList = "<METASCHEMA>".toList ++
      '<' :: "import href=\".//b\"/".toList ++ ['>'] ++
        "<define-flag name=\"f\"/></METASCHEMA>".toList := by
    decide +kernel
  have hbody : IsTagBody "import href=\"b\"/".toList :=
    ⟨by decide +kernel, by decide +kernel, by decide +kernel⟩
  have hbody' : IsTagBody "import href=\".//b\"/".toList :=
    ⟨by decide +kernel, by decide +kernel, by decide +kernel⟩
  have hstands : (found (importingText "b")).pieces =
      [⟨0, .opening "METASCHEMA".toList⟩] ++
        ⟨byteLength "<METASCHEMA>".toList, tagOfBody "import href=\"b\"/".toList⟩ ::
          [⟨30, .empty "define-flag name=\"f\"".toList⟩, ⟨53, .closing "METASCHEMA".toList⟩] := by
    decide +kernel
  have hempty : tagOfBody "import href=\"b\"/".toList = .empty "import href=\"b\"".toList := by
    decide +kernel
  have hempty' : tagOfBody "import href=\".//b\"/".toList =
      .empty "import href=\".//b\"".toList := by
    decide +kernel
  have hspelled : BodyRespells [] "import href=\"b\"".toList "import href=\".//b\"".toList := by
    refine ⟨by decide +kernel, by decide +kernel, [("href", "b")], [("href", ".//b")],
      ⟨by decide +kernel, by decide +kernel⟩, ⟨by decide +kernel, by decide +kernel⟩, ?_⟩
    exact .cons (.href ⟨by decide +kernel, by decide +kernel⟩ (by decide) (by decide)) .nil
  refine textRespells_of_tag htext htext' (by decide +kernel) hbody hbody' hstands ?_
    (by decide +kernel)
  rw [hempty, hempty']
  exact .empty hspelled

theorem compile_respelledImport :
    let kept : Path → Position → Bool := fun _ => keptImporting
    let disk := importingDisk (importingText "b")
    let disk' := importingDisk (importingText ".//b")
    disk.Respells kept [] disk' ∧
      (∃ g c, (compileIn disk {} ⟨"a"⟩ ⟨""⟩).run.run {} = (.ok g, c)) ∧
      AnswersAlike kept ((compileIn disk {} ⟨"a"⟩ ⟨""⟩).run.run {})
        ((compileIn disk' {} ⟨"./a"⟩ ⟨"."⟩).run.run {}) := by
  intro kept disk disk'
  have hdisk : disk.Respells kept [] disk' := Disk.respells_cons textRespells_importingText
  have hsucceeds : succeeds (fun _ _ => true)
      ((compileIn disk {} ⟨"a"⟩ ⟨""⟩).run.run {}) = true := by
    decide +kernel
  obtain ⟨g, c, hrun, _⟩ := exists_of_succeeds hsucceeds
  have hp : (Path.mk "a").Respells ⟨"./a"⟩ := ⟨by decide +kernel, by decide +kernel⟩
  have hbase : (Path.mk "").Respells ⟨"."⟩ := ⟨by decide +kernel, by decide +kernel⟩
  exact ⟨hdisk, ⟨g, c, hrun⟩, ((compile_of_respells {} hp hbase).2 kept _ _ hdisk {} {} rfl).1⟩

/-- Where the definitions of the family of a text stand, or why there is none. -/
def standings (text : String) : Except Failure (Array Position) :=
  ((compile (importingDisk text) {} ⟨"a"⟩).run.run {}).1.map fun g =>
    g.declarations.map (·.definition.metadata.position)

/-- How an import is spelled can be told from the family: what then stands behind it on its line
    has another column. A dot that is left out may leave no path, which is refused. In a tag that
    is refused, what is wrong is told with another offset. Behind a byte order mark places are told
    too early, and whether on the line before depends on what is between. -/
theorem respelling_moves :
    ((Path.mk "b").Respells ⟨"./b"⟩ ∧
      standings (importingText "b") = .ok #[⟨1, 31⟩] ∧
      standings (importingText "./b") = .ok #[⟨1, 33⟩]) ∧
    ((Path.mk ".").Respells ⟨""⟩ ∧
      standings (importingText ".") = .error (.unreadable ⟨""⟩ .missing) ∧
      standings (importingText "") = .error (.malformed ⟨"a"⟩ ⟨"import", 1, .missing "href"⟩)) ∧
    (standings "<METASCHEMA><import href=\"b\" href=\"c\"/></METASCHEMA>" =
        .error (.malformed ⟨"a"⟩ ⟨"import", 1, .xml (.attribute (.duplicated 16 7))⟩) ∧
      standings "<METASCHEMA><import href=\"./b\" href=\"c\"/></METASCHEMA>" =
        .error (.malformed ⟨"a"⟩ ⟨"import", 1, .xml (.attribute (.duplicated 18 7))⟩)) ∧
    (Path.mk "b\n").Respells ⟨"b\n/"⟩ ∧
      standings "\uFEFF<METASCHEMA><import href=\"b\n\"></x></METASCHEMA>" =
        .error (.malformed ⟨"a"⟩ ⟨"import", 1, .xml (.closingMismatch "import" "x")⟩) ∧
      standings "\uFEFF<METASCHEMA><import href=\"b\n/\"></x></METASCHEMA>" =
        .error (.malformed ⟨"a"⟩ ⟨"import", 2, .xml (.closingMismatch "import" "x")⟩) := by
  refine ⟨⟨⟨by decide +kernel, by decide +kernel⟩, by decide +kernel, by decide +kernel⟩,
    ⟨⟨by decide +kernel, by decide +kernel⟩, by decide +kernel, by decide +kernel⟩,
    ⟨by decide +kernel, by decide +kernel⟩,
    ⟨by decide +kernel, by decide +kernel⟩, by decide +kernel, by decide +kernel⟩

end SchemaFamily
