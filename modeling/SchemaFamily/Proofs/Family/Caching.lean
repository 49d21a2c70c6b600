import SchemaFamily.Family.Compile
import SchemaFamily.Proofs.Family.Cycles
import SchemaFamily.Proofs.Xml.Entities

/-
  Sharing a cache. Calls that share one may read with different entities, but a draft is kept under
  its path alone, so a call may be given a draft that was read with the entities of another. What a
  cache holds was read with the entities of some earlier call (`readBy_after`); when none of those
  drafts differs from what the call itself would read, the answer is the one that the call has with
  a cache of its own (`answer_of_shared`). How many steps a search may take depends on the cache,
  but what it finds does not (`unfoldFrom_congr`).
-/

namespace SchemaFamily

open Relation

section

variable {disk : Disk} {entities : Xml.EntityMap} {base : Path}

/-! ## Steps that do not matter -/

/-- A search that has enough steps for every way there is finds the same with more. -/
theorem unfoldFrom_congr {n m : Nat} {way : List Path} {p : Path}
    (hway : (way ++ [p.normalize]).IsChain (Imports disk entities base)) (hnodup : way.Nodup)
    (hn : disk.size + 2 ≤ n + way.length) (hm : disk.size + 2 ≤ m + way.length) :
    unfoldFrom disk entities base n way p = unfoldFrom disk entities base m way p := by
  induction n generalizing m way p with
  | zero =>
    have := length_way_le hway.left_of_append hnodup
    omega
  | succ n ih =>
    cases m with
    | zero =>
      have := length_way_le hway.left_of_append hnodup
      omega
    | succ m =>
      rw [unfoldFrom, unfoldFrom]
      split
      · rfl
      · next hmem =>
        cases hread : readDraft disk entities p.normalize with
        | error failure => rfl
        | ok draft =>
          have himports : (draft.imports.mapM fun i =>
                unfoldFrom disk entities base n (way ++ [p.normalize]) (base.join ⟨i.href⟩)) =
              draft.imports.mapM fun i =>
                unfoldFrom disk entities base m (way ++ [p.normalize]) (base.join ⟨i.href⟩) := by
            refine mapM_congr fun i hi => ?_
            have hlength : (way ++ [p.normalize]).length = way.length + 1 := by simp
            have hnodup' : (way ++ [p.normalize]).Nodup :=
              List.concat_eq_append ▸ List.Nodup.concat hmem hnodup
            exact ih (isChain_extend hway hread hi) hnodup' (by omega) (by omega)
          simp only [bind, Except.bind]
          rw [himports]

theorem gives_resolve (p base : Path) :
    Gives disk entities (resolve disk entities p base)
      (unfoldFrom disk entities base (steps disk {}) [] p) := by
  intro c hc
  obtain ⟨hrun, hkept⟩ := run_resolve hc p base
  have hsteps : ∀ c : Cache, disk.size + 2 ≤ steps disk c + ([] : List Path).length := by
    intro c
    rw [steps, List.length_nil]
    omega
  refine ⟨hrun.trans ?_, hkept⟩
  exact unfoldFrom_congr (List.isChain_singleton _) List.nodup_nil (hsteps c) (hsteps {})

end

/-! ## Compiling without a cache -/

/-- What a tree of drafts is compiled to. -/
def finishTree (settings : Settings) (tree : ImportTree) : Except Failure Graph :=
  match (finishFamily settings.multiplexerSuffix).apply (Graph.ofTree tree) with
  | (.ok _, g) => .ok g
  | (.error failure, _) => .error failure

/-- What `compileIn` does when every draft is read from its file. -/
def compileFiles (disk : Disk) (settings : Settings) (p base : Path) : Except Failure Graph :=
  unfoldFrom disk settings.entities base (steps disk {}) [] p >>= finishTree settings

section

variable {disk : Disk} {settings : Settings}

theorem gives_compileIn (p base : Path) :
    Gives disk settings.entities (compileIn disk settings p base)
      (compileFiles disk settings p base) := by
  refine Gives.bind (gives_resolve p base) fun tree => ?_
  rw [finishTree]
  rcases (finishFamily settings.multiplexerSuffix).apply (Graph.ofTree tree) with ⟨failure | n, g⟩
  · exact Gives.throw failure
  · exact Gives.pure g

/-- What a faithful cache holds does not show in the result. -/
theorem compileIn_of_faithful {c : Cache} (hc : c.Faithful disk settings.entities) (p base : Path) :
    ((compileIn disk settings p base).run.run c).1 =
      ((compileIn disk settings p base).run.run {}).1 :=
  (gives_compileIn p base c hc).1.trans
    (gives_compileIn p base {} (Cache.faithful_empty _ _)).1.symm

end

/-! ## Calls that share a cache -/

/-- A call: the settings it is made with, the path of the family, and the directory in which
    imports are read when it is not that of the path. -/
structure Call where
  settings : Settings
  path : Path
  base : Option Path := none

namespace Call

/-- What a call does with a cache. -/
def load (disk : Disk) (call : Call) : Loading Graph :=
  match call.base with
  | none => compile disk call.settings call.path
  | some base => compileIn disk call.settings call.path base

/-- The answer of a call that has a cache of its own. -/
def answer (disk : Disk) (call : Call) : Except Failure Graph := ((call.load disk).run.run {}).1

theorem load_eq (disk : Disk) (call : Call) :
    call.load disk =
      compileIn disk call.settings call.path (call.base.getD call.path.directory) := by
  rw [load]
  cases call.base <;> rfl

end Call

/-- The answers of calls one after the other, each with the cache that the calls before it left. -/
def answers (disk : Disk) : List Call → Cache → List (Except Failure Graph)
  | [], _ => []
  | call :: later, c =>
    let (answer, c) := (call.load disk).run.run c
    answer :: answers disk later c

/-- The cache that calls leave. -/
def Cache.after (disk : Disk) (c : Cache) (calls : List Call) : Cache :=
  calls.foldl (fun c call => ((call.load disk).run.run c).2) c

/-- Every draft of the cache is what the file under whose path it is kept holds when it is read
    with the entities of one of the calls. -/
def Cache.ReadBy (disk : Disk) (calls : List Call) (c : Cache) : Prop :=
  ∀ entry ∈ c.drafts, ∃ call ∈ calls,
    readDraft disk call.settings.entities (.ofComponents entry.1) = .ok entry.2

section

variable {disk : Disk} {call : Call} {calls before : List Call} {c : Cache}

theorem getElem?_answers {i : Nat} (h : calls[i]? = some call) (c : Cache) :
    (answers disk calls c)[i]? =
      some ((call.load disk).run.run (c.after disk (calls.take i))).1 := by
  induction calls generalizing i c with
  | nil => cases h
  | cons first later ih =>
    cases i with
    | zero =>
      cases h
      rfl
    | succ i => exact ih h _

/-- A call leaves drafts that it found or that it read with its own entities. -/
theorem readBy_load (h : call ∈ calls) (hc : c.ReadBy disk calls) :
    Cache.ReadBy disk calls ((call.load disk).run.run c).2 := by
  have hload : ∀ p : Path, Loads (Cache.ReadBy disk calls)
      (loadDraft disk call.settings.entities p.normalize) fun _ => True := by
    intro p c hc
    refine ⟨(loads_loadDraft (fun draft hread => ⟨call, h, ?_⟩) c hc).1, fun _ _ => trivial⟩
    rwa [Path.ofComponents_components_normalize]
  rw [call.load_eq]
  have hcompile : Loads (Cache.ReadBy disk calls) (compileIn disk call.settings call.path
      (call.base.getD call.path.directory)) fun _ => True := by
    refine Loads.bind (loads_resolve hload _ _) fun tree _ => ?_
    split
    · exact Loads.pure trivial
    · exact Loads.throw _
  exact (hcompile c hc).1

theorem readBy_after (h : before ⊆ calls) (hc : c.ReadBy disk calls) :
    (c.after disk before).ReadBy disk calls := by
  induction before generalizing c with
  | nil => exact hc
  | cons call later ih =>
    exact ih (List.subset_of_cons_subset h) (readBy_load (h List.mem_cons_self) hc)

/-- Calls share a cache that is empty at first, and any of them may fail. What the cache holds when
    a call is made was read by calls before it. If none of that differs from what the call itself
    reads, its answer is the one that it has with a cache of its own; so it is whenever the
    entities of all calls before it are those of the call, whatever else they are set to. -/
theorem answer_of_shared (calls : List Call) (i : Nat) (hcall : calls[i]? = some call) :
    (Cache.after disk {} (calls.take i)).ReadBy disk (calls.take i) ∧
    ((Cache.after disk {} (calls.take i)).Faithful disk call.settings.entities →
      (answers disk calls {})[i]? = some (call.answer disk)) ∧
    ((∀ earlier ∈ calls.take i, earlier.settings.entities.Alike call.settings.entities) →
      (answers disk calls {})[i]? = some (call.answer disk)) := by
  have hread : (Cache.after disk {} (calls.take i)).ReadBy disk (calls.take i) :=
    readBy_after (List.Subset.refl _) (fun _ h => by cases h)
  have hown : (Cache.after disk {} (calls.take i)).Faithful disk call.settings.entities →
      (answers disk calls {})[i]? = some (call.answer disk) := by
    intro hfaithful
    rw [getElem?_answers hcall, Call.answer, call.load_eq, compileIn_of_faithful hfaithful]
  refine ⟨hread, hown, fun halike => hown fun entry he => ?_⟩
  obtain ⟨earlier, hearlier, hdraft⟩ := hread entry he
  rwa [← readDraft_eq (halike earlier hearlier)]

end

/-- A file with an entity that it does not declare, one that imports it, and one that imports
    nothing that there is. -/
def entityInName : Disk := .ofSights
  [(⟨"a"⟩, .file (some "<METASCHEMA><short-name>&x;</short-name></METASCHEMA>")),
    (⟨"b"⟩, .file (some "<METASCHEMA><import href=\"a\"/></METASCHEMA>")),
    (⟨"c"⟩, .file (some "<METASCHEMA><import href=\"b\"/><import href=\"d\"/></METASCHEMA>"))]

/-- The names of the documents of an answer. -/
def answerNames (answer : Except Failure Graph) : Option (List String) :=
  answer.toOption.map fun g => g.documents.toList.map (·.name)

/-- The second call is given the draft that the first read with another value of the entity. -/
theorem not_own_answer_entityInName :
    let first : Call := { settings := { entities := [("x", "1")] }, path := ⟨"a"⟩ }
    let second : Call := { settings := { entities := [("x", "2")] }, path := ⟨"a"⟩ }
    answerNames (second.answer entityInName) = some ["2"] ∧
      (answers entityInName [first, second] {})[1]?.map answerNames = some (some ["1"]) ∧
      (answers entityInName [first, second] {})[1]? ≠ some (second.answer entityInName) := by
  intro first second
  have hown : answerNames (second.answer entityInName) = some ["2"] := by decide +kernel
  have hshared : (answers entityInName [first, second] {})[1]?.map answerNames =
      some (some ["1"]) := by
    decide +kernel
  refine ⟨hown, hshared, fun heq => ?_⟩
  rw [heq, Option.map_some, hown] at hshared
  exact absurd hshared (by decide)

/-- The call before it failed after it had read two files, and names its entities in another
    order. -/
theorem answer_entityInName :
    let first : Call := { settings := { entities := [("x", "1"), ("y", "2")] }, path := ⟨"c"⟩ }
    let second : Call :=
      { settings := { multiplexerSuffix := "Group", entities := [("y", "2"), ("x", "1")] },
        path := ⟨"b"⟩, base := some ⟨"."⟩ }
    answerNames (first.answer entityInName) = none ∧
      answerNames (second.answer entityInName) = some ["b", "1"] ∧
      (answers entityInName [first, second] {})[1]? = some (second.answer entityInName) := by
  intro first second
  refine ⟨by decide +kernel, by decide +kernel, ?_⟩
  refine (answer_of_shared [first, second] 1 rfl).2.2 fun earlier hearlier => ?_
  rw [List.mem_singleton.1 hearlier]
  intro name
  show List.lookup name [("x", "1"), ("y", "2")] = List.lookup name [("y", "2"), ("x", "1")]
  simp only [List.lookup_cons, List.lookup_nil]
  by_cases hx : name = "x"
  · subst hx
    decide
  · rw [beq_false_of_ne hx]

end SchemaFamily
