import LsmKv.Outputs

namespace LsmKv
set_option autoImplicit true

open Versioned

/-- What `DB::Get` answers from a version: `NotFound` where no file has the key. -/
def Version.answer (v : Version) (store : Store) (k : Bytes) (s : Nat) : Except Status Bytes :=
  ((v.get k s).run store).1.getD (.error .notFound)

/-- The version with files that flushes have put at the front of L0. -/
def Version.addLevel0 (v : Version) (added : List FileMetaData) : Version :=
  v.setLevel 0 (added ++ v.levels 0)

/-- The builders of a compaction, each one's file opened under the number of its output. -/
def Opens (db : Db) (todo : List TableBuilder) (outputs : List FileMetaData) : Prop :=
  List.Forall₂ (fun b f => ∃ t, f = Sys.metaOf f.number b t ∧
    Table.openFile (tablePath db.path f.number) b.file db.options f.number = .ok t) todo outputs

/-- `DoCompaction` at its install: `c` is what it chose from the version that was current at its
start, `added` the files that came to L0 while it ran, and `outputs` what its loop has written
from the merge of the inputs. `T` are the open tables. -/
structure CompactionRun (R : Nat) (db : Db) (level : Nat) (added : List FileMetaData)
    (T : Table → Prop) (c : Compaction) (outputs : List FileMetaData) : Prop where
  level_lt : level + 1 < kNumLevels
  last_le : db.lastSequence ≤ kMaxSequenceNumber
  floor_le : R ≤ db.smallestSnapshot
  start : db.current.Wf R
  begun : ∃ db', db.beginCompaction level = some (db', c)
  before : (db.current.addLevel0 added).Wf R
  distinct : Distinct (db.current.addLevel0 added).content
  tablesOk : TablesOk T
  open_before : ∀ t, (db.current.addLevel0 added).tables t → T t
  open_outputs : ∀ f ∈ outputs, T f.table
  number_ne : ∀ f ∈ outputs, ∀ l, ∀ g ∈ (db.current.addLevel0 added).levels l, g.number ≠ f.number
  nodup : (outputs.map FileMetaData.number).Nodup
  written : ∃ store recs, store.Serves T store.mems ∧ (c.merge.run store).1 = (recs, .ok) ∧
    Opens db (compactLoop db.options c.bottomMost c.smallestSnapshot {} none recs) outputs ∧
    ∀ es, built db.options es ∈
      compactLoop db.options c.bottomMost c.smallestSnapshot {} none recs → TableFits db.options es

section Answers
variable {U U' : Set Rec} {v : Version} {R : Nat} {T : Table → Prop}

theorem Version.Wf.setOf_runs (h : v.Wf R) : {r | r ∈ v.runs.flatten} = v.content :=
  Set.ext fun _ => Version.mem_runs h.ok.empty

theorem Version.Wf.reads (h : v.Wf R) (hd : Distinct v.content) (hT : TablesOk T)
    (ht : ∀ t, v.tables t → T t) {store : Store} (hst : store.Serves T store.mems)
    (hs : s ≤ kMaxSequenceNumber) (k : Bytes) : Reads v.content k s (v.answer store k s) := by
  have hget : ((v.get k s).run store).1 = (firstFound v.runs k s).map Rec.answer :=
    ((Version.get_ensures hT ht h.ok k s) store hst).1
  have hans : v.answer store k s = answerOf (firstFound v.runs k s) := by
    unfold Version.answer
    rw [hget]
    cases firstFound v.runs k s <;> rfl
  rw [hans, ← h.setOf_runs]
  apply h.runsOk.reads _ hs
  rw [h.setOf_runs]
  exact hd

theorem Shown.unique (hd : Distinct U) (h : Shown U s k a) (h' : Shown U s k b) : a = b := by
  obtain ⟨x, hx, rfl⟩ := h
  obtain ⟨y, hy, rfl⟩ := h'
  rw [Live.unique hd hx hy]

/-- Two answers are the same exactly when the same value is shown. -/
theorem Reads.eq_iff (hd : Distinct U) (hd' : Distinct U') (h : Reads U k s a)
    (h' : Reads U' k s b) : a = b ↔ ∀ v, Shown U s k v ↔ Shown U' s k v := by
  rcases h with ⟨x, rfl, hx⟩ | ⟨rfl, hx⟩
  · rcases h' with ⟨y, rfl, hy⟩ | ⟨rfl, hy⟩
    · constructor
      · intro he v
        cases he
        exact ⟨fun hv => Shown.unique hd hx hv ▸ hy, fun hv => Shown.unique hd' hy hv ▸ hx⟩
      · intro hv
        rw [Shown.unique hd' hy ((hv x).1 hx)]
    · constructor
      · intro he
        cases he
      · intro hv
        exact absurd ((hv x).1 hx) (hy x)
  · rcases h' with ⟨y, rfl, hy⟩ | ⟨rfl, hy⟩
    · constructor
      · intro he
        cases he
      · intro hv
        exact absurd ((hv y).2 hy) (hx y)
    · exact ⟨fun _ v => ⟨fun hv => absurd hv (hx v), fun hv => absurd hv (hy v)⟩, fun _ => rfl⟩

end Answers

theorem Opens.recs {db : Db} {outs : List (List Rec)} {outputs : List FileMetaData}
    (h : Opens db (outs.map (built db.options)) outputs)
    (hfit : ∀ es ∈ outs, TableFits db.options es) (hasc : ∀ es ∈ outs, Ascending Rec.pos es) :
    outputs.map FileMetaData.recs = outs ∧ ∀ f ∈ outputs, f.Ok := by
  induction outs generalizing outputs with
  | nil =>
    cases h
    exact ⟨rfl, fun _ hf => nomatch hf⟩
  | cons es outs ih =>
    cases h with
    | @cons _ f _ fs hf hrest =>
      obtain ⟨t, hmeta, hopen⟩ := hf
      obtain ⟨hrecs, hok⟩ := ih hrest (fun es h => hfit es (List.mem_cons_of_mem _ h))
        fun es h => hasc es (List.mem_cons_of_mem _ h)
      have hes : es ∈ es :: outs := List.mem_cons_self
      obtain ⟨t', hopen', hn, hg, hr⟩ := openFile_good (tablePath db.path f.number) f.number
        db.options (hfit es hes) (hasc es hes)
      cases hopen.symm.trans hopen'
      have hfok : f.Ok := hmeta ▸ metaOf_ok db.options hn hg hr
      have hfrecs : f.recs = es := by
        rw [hmeta]
        exact hr
      exact ⟨by rw [List.map_cons, hfrecs, hrecs], List.forall_mem_cons.2 ⟨hfok, hok⟩⟩

namespace CompactionRun
variable {R : Nat} {db : Db} {level : Nat} {added : List FileMetaData} {T : Table → Prop}
  {c : Compaction} {outputs : List FileMetaData}

theorem picked (h : CompactionRun R db level added T c outputs) :
    c.Picked (db.current.addLevel0 added) ∧ c.smallestSnapshot = db.smallestSnapshot := by
  obtain ⟨_, hb⟩ := h.begun
  obtain ⟨hp, hS, _⟩ := Db.beginCompaction_picked h.start h.level_lt hb
  exact ⟨hp.add_level0 added, hS⟩

theorem inputs_subset (h : CompactionRun R db level added T c outputs) :
    c.inputRecs ⊆ (db.current.addLevel0 added).content := by
  intro x hx
  have he := h.picked.1.recs_eq
  unfold Version.content
  rw [he]
  exact .inl hx

/-- The outputs hold what the loop keeps of the merged inputs. -/
theorem planned (h : CompactionRun R db level added T c outputs) :
    Planned c (outputs.map FileMetaData.recs) ∧ ∀ f ∈ outputs, f.Ok := by
  obtain ⟨hp, hS⟩ := h.picked
  obtain ⟨store, recs, hst, hmerge, hopens, hfit⟩ := h.written
  have hd := h.distinct.mono h.inputs_subset
  have hin : ∀ f ∈ c.inputs, T f.table := by
    intro f hf
    apply h.open_before
    rcases hp.mem_inputs hf with hl | hl
    · exact ⟨_, f, hl, rfl⟩
    · exact ⟨_, f, hl, rfl⟩
  have hmerged := ((Compaction.merge_ensures h.tablesOk hin
    fun f hf => (hp.input_ok h.before hf).good) store hst).1
  have hrecs : recs = c.merged := by
    have := hmerge.symm.trans hmerged
    exact (Prod.mk.inj this).1
  subst hrecs
  obtain ⟨outs, hloop, hflat, hrun, hord⟩ :=
    hp.exists_outputs h.before hd (hS ▸ h.floor_le) db.options c.bottomMost
  rw [hloop] at hopens hfit
  obtain ⟨hmap, hok⟩ := hopens.recs (fun es hes => hfit es (List.mem_map_of_mem hes))
    fun es hes => (hrun es hes).2
  rw [hmap]
  exact ⟨⟨hflat, hrun, hord⟩, hok⟩

theorem install_wf (h : CompactionRun R db level added T c outputs) :
    (c.install (db.current.addLevel0 added) outputs).Wf R := by
  obtain ⟨hplan, hok⟩ := h.planned
  exact h.picked.1.install_wf h.before (hplan.outputsOk hok h.number_ne h.nodup)

theorem install_content (h : CompactionRun R db level added T c outputs) :
    (c.install (db.current.addLevel0 added) outputs).content =
      {x | x ∈ keepFrom c.bottomMost c.smallestSnapshot {} c.merged} ∪
        Compaction.restOf (db.current.addLevel0 added) c := by
  have hrecs : {x | ∃ f ∈ outputs, x ∈ f.recs} =
      {x | x ∈ keepFrom c.bottomMost c.smallestSnapshot {} c.merged} := by
    rw [← h.planned.1.flatten]
    exact Set.ext fun x => mem_flatten_recs.symm
  rw [← hrecs]
  exact h.picked.1.install_recs h.before

theorem install_distinct (h : CompactionRun R db level added T c outputs) :
    Distinct (c.install (db.current.addLevel0 added) outputs).content := by
  apply h.distinct.mono
  rw [h.install_content]
  rintro x (hx | ⟨l, f, hf, _, hx⟩)
  · exact h.inputs_subset (Compaction.mem_merged.1 ((keepFrom_sublist _ _ _ _).subset hx))
  · exact ⟨l, Version.mem_levelRecs.2 ⟨f, hf, hx⟩⟩

theorem install_tables (h : CompactionRun R db level added T c outputs) (t : Table)
    (ht : (c.install (db.current.addLevel0 added) outputs).tables t) : T t := by
  obtain ⟨l, f, hf, rfl⟩ := ht
  rcases h.picked.1.mem_install_file h.before hf with hf | ⟨_, hf⟩
  · exact h.open_before _ ⟨l, f, hf, rfl⟩
  · exact h.open_outputs f hf

theorem reads_before (h : CompactionRun R db level added T c outputs) {store : Store}
    (hst : store.Serves T store.mems) (hs : s ≤ kMaxSequenceNumber) (k : Bytes) :
    Reads (db.current.addLevel0 added).content k s
      ((db.current.addLevel0 added).answer store k s) :=
  h.before.reads h.distinct h.tablesOk h.open_before hst hs k

theorem reads_after (h : CompactionRun R db level added T c outputs) {store : Store}
    (hst : store.Serves T store.mems) (hs : s ≤ kMaxSequenceNumber) (k : Bytes) :
    Reads (c.install (db.current.addLevel0 added) outputs).content k s
      ((c.install (db.current.addLevel0 added) outputs).answer store k s) :=
  h.install_wf.reads h.install_distinct h.tablesOk h.install_tables hst hs k

theorem install_content_max (h : CompactionRun R db level added T c outputs)
    (hS : kMaxSequenceNumber ≤ db.smallestSnapshot) :
    (c.install (db.current.addLevel0 added) outputs).content =
      Compaction.restOf (db.current.addLevel0 added) c := by
  obtain ⟨hp, hc⟩ := h.picked
  have hok : ∀ r ∈ c.merged, r.Ok := fun r hr =>
    hp.inputRecs_ok h.before r (Compaction.mem_merged.1 hr)
  rw [h.install_content, keepFrom_eq_nil (hc ▸ hS) hok (hc ▸ hS)]
  simp

end CompactionRun

/-- A compaction leaves every read at or above its smallest snapshot as it was, exactly when that
snapshot is below the largest sequence number, or the files it leaves alone show at that number
what all files show. -/
theorem compaction_preserves_iff {R : Nat} {db : Db} {level : Nat} {added : List FileMetaData}
    {T : Table → Prop} {c : Compaction} {outputs : List FileMetaData}
    (h : CompactionRun R db level added T c outputs) :
    (∀ k s, db.smallestSnapshot ≤ s → s ≤ kMaxSequenceNumber →
      ∀ store : Store, store.Serves T store.mems →
        (db.current.addLevel0 added).answer store k s =
          (c.install (db.current.addLevel0 added) outputs).answer store k s) ↔
      db.smallestSnapshot < kMaxSequenceNumber ∨
        ∀ k v, Shown (db.current.addLevel0 added).content kMaxSequenceNumber k v ↔
          Shown (Compaction.restOf (db.current.addLevel0 added) c) kMaxSequenceNumber k v := by
  by_cases hS : db.smallestSnapshot < kMaxSequenceNumber
  · refine iff_of_true (fun k s hs hmax store hst => ?_) (.inl hS)
    obtain ⟨hp, hc⟩ := h.picked
    have hd := h.distinct.mono h.inputs_subset
    have hag := h.planned.1.install_agree hp h.before hd (hc ▸ hS)
    rw [hc] at hag
    have hafter := (hag.reads hs).2 (h.reads_after hst hmax k)
    exact Reads.unique h.distinct (h.reads_before hst hmax k) hafter
  · have hcontent := h.install_content_max (not_lt.1 hS)
    have heq (k : Bytes) {store : Store} (hst : store.Serves T store.mems) :=
      Reads.eq_iff h.distinct h.install_distinct (h.reads_before hst le_rfl k)
        (h.reads_after hst le_rfl k)
    rw [hcontent] at heq
    constructor
    · intro hall
      obtain ⟨store, _, hst, _⟩ := h.written
      have hle : db.smallestSnapshot ≤ kMaxSequenceNumber :=
        (Db.le_smallestSnapshot_iff.1 le_rfl).1.trans h.last_le
      exact .inr fun k => (heq k hst).1 (hall k kMaxSequenceNumber hle le_rfl store hst)
    · intro hall k s hs hmax store hst
      obtain rfl : s = kMaxSequenceNumber := le_antisymm hmax ((not_lt.1 hS).trans hs)
      exact (heq k hst).2 (hall.resolve_left hS k)

section Single
variable {f : FileMetaData} {T : Table → Prop} {outputs : List FileMetaData}

/-- A database with one file, in L0. -/
def oneFileDb (f : FileMetaData) (last : Nat) : Db where
  current := ({} : Version).setLevel 0 [f]
  nextFileNumber := 2
  lastSequence := last

def oneFileCompaction (f : FileMetaData) (last : Nat) : Compaction where
  level := 0
  inputs0 := [f]
  inputs1 := []
  bottomMost := true
  smallestSnapshot := last

theorem Version.addLevel0_nil (v : Version) : v.addLevel0 [] = v := by
  obtain ⟨levels⟩ := v
  simp only [addLevel0, setLevel, List.nil_append, Version.mk.injEq]
  funext l
  split_ifs with h
  · rw [h]
  · rfl

theorem levels_oneFileDb (hg : g ∈ (oneFileDb f last).current.levels l) : l = 0 ∧ g = f := by
  rw [oneFileDb, Version.levels_setLevel] at hg
  split_ifs at hg with hl
  · exact ⟨hl, List.mem_singleton.1 hg⟩
  · cases hg

theorem mem_content_oneFileDb : x ∈ (oneFileDb f last).current.content ↔ x ∈ f.recs := by
  constructor
  · rintro ⟨l, hx⟩
    obtain ⟨g, hg, hx⟩ := Version.mem_levelRecs.1 hx
    rwa [(levels_oneFileDb hg).2] at hx
  · exact fun hx => ⟨0, Version.mem_levelRecs.2 ⟨f, List.mem_singleton_self f, hx⟩⟩

theorem shown_oneFileDb (hr : f.recs = threeRecs) :
    Shown (oneFileDb f last).current.content kMaxSequenceNumber [97] [99] := by
  refine ⟨Rec.encode [97] 3 .kValue [99], ⟨⟨?_, by decide, by decide, ?_⟩, by decide⟩, rfl⟩
  · rw [mem_content_oneFileDb, hr]
    decide
  · intro y hy
    rw [mem_content_oneFileDb, hr] at hy
    revert y
    decide

theorem merged_oneFile (hr : f.recs = threeRecs) :
    (oneFileCompaction f last).merged = threeRecs := by
  have hflat : (oneFileCompaction f last).merged = mergeRuns Rec.pos [f.recs] := rfl
  rw [hflat, hr, mergeRuns, List.flatten_singleton]
  exact List.mergeSort_of_pairwise (ascending_threeRecs.imp fun hab => decide_eq_true hab.le)

theorem compactionRun_oneFile (hf : f.Ok) (hr : f.recs = threeRecs) (hn : f.number = 1)
    (hlast : last ≤ kMaxSequenceNumber) (hT : TablesOk T) (ht : T f.table)
    (hout : ∀ g ∈ outputs, T g.table ∧ g.number ≠ 1) (hd : (outputs.map FileMetaData.number).Nodup)
    (hopens : Opens (oneFileDb f last) (compactLoop {} true last {} none threeRecs) outputs)
    (hfit : ∀ es, built {} es ∈ compactLoop {} true last {} none threeRecs → TableFits {} es) :
    CompactionRun 0 (oneFileDb f last) 0 [] T (oneFileCompaction f last) outputs := by
  have hok : ∀ x ∈ f.recs, x.Ok := by
    rw [hr]
    simp only [threeRecs, List.forall_mem_cons, List.not_mem_nil, false_imp_iff, implies_true,
      and_true]
    exact ⟨Rec.encode_ok (by decide), Rec.encode_ok (by decide), Rec.encode_ok (by decide)⟩
  have hwf : (oneFileDb f last).current.Wf 0 := by
    refine (Version.wf_empty 0).addFile hf hok ?_ ?_
    · intro x _ l y hy
      cases hy
    · intro l g hg
      cases hg
  have hin : ∀ g ∈ (oneFileCompaction f last).inputs, T g.table ∧ g.table.Good := by
    intro g hg
    rw [List.mem_singleton.1 hg]
    exact ⟨ht, hf.good⟩
  have hmerge := ((Compaction.merge_ensures hT (fun g hg => (hin g hg).1)
    fun g hg => (hin g hg).2) {} ⟨rfl, fun _ h => (nomatch h), rfl⟩).1
  rw [merged_oneFile hr] at hmerge
  refine {
    level_lt := by decide
    last_le := hlast
    floor_le := Nat.zero_le _
    start := hwf
    begun := ⟨_, rfl⟩
    before := by rwa [Version.addLevel0_nil]
    distinct := ?_
    tablesOk := hT
    open_before := ?_
    open_outputs := fun g hg => (hout g hg).1
    number_ne := ?_
    nodup := hd
    written := ⟨{}, threeRecs, ⟨rfl, fun _ h => (nomatch h), rfl⟩, hmerge, hopens, hfit⟩ }
  · rw [Version.addLevel0_nil]
    intro x hx y hy
    rw [mem_content_oneFileDb, hr] at hx hy
    revert x y
    decide
  · rw [Version.addLevel0_nil]
    rintro t ⟨l, g, hg, rfl⟩
    rw [(levels_oneFileDb hg).2]
    exact ht
  · rw [Version.addLevel0_nil]
    intro g hg l g' hg' he
    rw [(levels_oneFileDb hg').2, hn] at he
    exact (hout g hg).2 he.symm

theorem exists_file (number : Nat) (hasc : Ascending Rec.pos es)
    (hlen : (tableFile {} es).length < 2 ^ 32) : ∃ t, t.number = number ∧ t.Good ∧ t.recs = es ∧
      Table.openFile (tablePath "" number) (built {} es).file {} number = .ok t := by
  obtain ⟨t, ht, hn, hg, hr⟩ := openFile_good (tablePath "" number) number {}
    (tableFits_of_file hlen) hasc
  exact ⟨t, hn, hg, hr, ht⟩

theorem compactLoop_threeRecs :
    compactLoop {} true 3 {} none threeRecs = [built {} (threeRecs.take 1)] := rfl

/-- One file is compacted into one at level 1 that has only the newest version. -/
theorem compaction_preserves_oneFile : ∃ f g T,
    CompactionRun 0 (oneFileDb f 3) 0 [] T (oneFileCompaction f 3) [g] ∧
    f.recs = threeRecs ∧ g.recs = threeRecs.take 1 ∧
    ∀ k, ((oneFileDb f 3).current.addLevel0 []).answer {} k 3 =
      ((oneFileCompaction f 3).install ((oneFileDb f 3).current.addLevel0 []) [g]).answer
        {} k 3 := by
  have hlen : (tableFile {} (threeRecs.take 1)).length < 2 ^ 32 := by decide +kernel
  obtain ⟨t, hn, hg, hr, -⟩ := exists_file 1 ascending_threeRecs length_tableFile_threeRecs
  obtain ⟨t', hn', hg', hr', hopen⟩ := exists_file 2
    (ascending_threeRecs.sublist (List.take_sublist 1 _)) hlen
  have hT : TablesOk (· ∈ [t, t']) := by
    apply tablesOk_of_good
    · simp [hg, hg']
    · simp [hn, hn']
  have hfit : ∀ es, built {} es ∈ compactLoop {} true 3 {} none threeRecs → TableFits {} es := by
    intro es hes
    apply tableFits_of_file
    rw [compactLoop_threeRecs, List.mem_singleton] at hes
    rw [← built_file, hes]
    exact hlen
  have hrun : CompactionRun 0 (oneFileDb (Sys.metaOf 1 (built {} threeRecs) t) 3) 0 []
      (· ∈ [t, t']) (oneFileCompaction (Sys.metaOf 1 (built {} threeRecs) t) 3)
      [Sys.metaOf 2 (built {} (threeRecs.take 1)) t'] :=
    compactionRun_oneFile (metaOf_ok {} hn hg hr) hr rfl (by decide) hT (by simp [Sys.metaOf])
      (by simp [Sys.metaOf]) (by simp) (.cons ⟨t', rfl, hopen⟩ .nil) hfit
  have hlt : (3 : Nat) < kMaxSequenceNumber := by decide
  exact ⟨_, _, _, hrun, hr, hr', fun k => (compaction_preserves_iff hrun).2 (.inl hlt) k 3 le_rfl
    hlt.le {} ⟨rfl, fun _ h => (nomatch h), rfl⟩⟩

/-- At the largest sequence number the compaction drops every value. -/
theorem compaction_loses_oneFile : ¬ ∀ R db level added T c outputs,
    CompactionRun R db level added T c outputs →
    ∀ k s, db.smallestSnapshot ≤ s → s ≤ kMaxSequenceNumber →
      ∀ store : Store, store.Serves T store.mems →
        (db.current.addLevel0 added).answer store k s =
          (c.install (db.current.addLevel0 added) outputs).answer store k s := by
  intro hall
  obtain ⟨t, hn, hg, hr, -⟩ := exists_file 1 ascending_threeRecs length_tableFile_threeRecs
  have hT : TablesOk (· ∈ [t]) := tablesOk_of_good (by simp [hg]) (by simp)
  have hrun : CompactionRun 0 (oneFileDb (Sys.metaOf 1 (built {} threeRecs) t) kMaxSequenceNumber) 0
      [] (· ∈ [t])
      (oneFileCompaction (Sys.metaOf 1 (built {} threeRecs) t) kMaxSequenceNumber) [] :=
    compactionRun_oneFile (metaOf_ok {} hn hg hr) hr rfl le_rfl hT (by simp [Sys.metaOf]) (by simp)
      (by simp) .nil fun es hes => by cases hes
  have hst : Store.Serves (· ∈ [t]) (fun _ => {}) {} := ⟨rfl, fun _ h => (nomatch h), rfl⟩
  have heq := hall _ _ _ _ _ _ _ hrun [97] kMaxSequenceNumber le_rfl le_rfl {} hst
  have hiff := (Reads.eq_iff hrun.distinct hrun.install_distinct
    (hrun.reads_before hst le_rfl [97]) (hrun.reads_after hst le_rfl [97])).1 heq [99]
  rw [hrun.install_content_max le_rfl, Version.addLevel0_nil] at hiff
  obtain ⟨r, ⟨⟨⟨l, g, hgl, hgn, _⟩, _, _, _⟩, _⟩, _⟩ := hiff.1 (shown_oneFileDb hr)
  rw [(levels_oneFileDb hgl).2] at hgn
  exact hgn (List.mem_singleton_self _)

end Single

end LsmKv
