import LsmKv.JobSteps
import LsmKv.Library.Span

namespace LsmKv
set_option autoImplicit true

open Versioned
open Wal (Group)

section Reopen
variable {v : Version} {fs : DbFs} {φ : FileMetaData → FileMetaData}

/-- A file with the same metadata and records. -/
structure SameFile (f g : FileMetaData) : Prop where
  ok : g.Ok
  number : g.number = f.number
  recs : g.recs = f.recs

def Version.mapFiles (v : Version) (φ : FileMetaData → FileMetaData) : Version where
  levels := fun l => (v.levels l).map φ

theorem levelRecs_map (h : ∀ f ∈ files, (φ f).recs = f.recs) :
    levelRecs (files.map φ) = levelRecs files := by
  rw [levelRecs, levelRecs, List.flatMap_map]
  exact List.flatMap_congr h

theorem Version.mem_mapFiles : g ∈ (v.mapFiles φ).levels l ↔ ∃ f ∈ v.levels l, φ f = g :=
  List.mem_map

theorem Version.Wf.mapFiles (h : v.Wf R) (hφ : ∀ l, ∀ f ∈ v.levels l, SameFile f (φ f)) :
    (v.mapFiles φ).Wf R := by
  have hrecs : ∀ l, levelRecs ((v.mapFiles φ).levels l) = levelRecs (v.levels l) := fun l =>
    levelRecs_map fun f hf => (hφ l f hf).recs
  have hnum : ∀ l, ((v.mapFiles φ).levels l).map FileMetaData.number =
      (v.levels l).map FileMetaData.number := fun l => by
    rw [Version.mapFiles, List.map_map]
    exact List.map_congr_left fun f hf => (hφ l f hf).number
  refine ⟨⟨?_, fun l hl => ⟨?_, ?_, ?_⟩, fun l hl => ?_⟩,
    fun l => by rw [hrecs]; exact h.recOk l, ?_,
    fun l l' hl => by rw [hrecs, hrecs]; exact h.deeper l l' hl, ?_, fun l => by
      rw [hnum]; exact h.nodup l⟩
  · intro g hg
    obtain ⟨f, hf, rfl⟩ := Version.mem_mapFiles.1 hg
    exact (hφ 0 f hf).ok
  · intro g hg
    obtain ⟨f, hf, rfl⟩ := Version.mem_mapFiles.1 hg
    exact (hφ l f hf).ok
  · intro g hg
    obtain ⟨f, hf, rfl⟩ := Version.mem_mapFiles.1 hg
    rw [(hφ l f hf).recs]
    exact (h.ok.deeper l hl).ne_nil f hf
  · refine List.pairwise_map.2 ((h.ok.deeper l hl).disjoint.imp_of_mem fun {f g} hf hg hfg => ?_)
    rw [(hφ l f hf).recs, (hφ l g hg).recs]
    exact hfg
  · show (v.levels l).map φ = []
    rw [h.ok.empty l hl]
    rfl
  · refine List.pairwise_map.2 (h.level0.imp_of_mem fun {f g} hf hg hfg => ?_)
    rw [(hφ 0 f hf).recs, (hφ 0 g hg).recs, (hφ 0 f hf).number, (hφ 0 g hg).number]
    exact hfg
  · intro l l' f' hf' g' hg' hn
    obtain ⟨f, hf, rfl⟩ := Version.mem_mapFiles.1 hf'
    obtain ⟨g, hg, rfl⟩ := Version.mem_mapFiles.1 hg'
    rw [(hφ l f hf).number, (hφ l' g hg).number] at hn
    exact h.numbers l l' f hf g hg hn

theorem Version.content_mapFiles (hφ : ∀ l, ∀ f ∈ v.levels l, SameFile f (φ f)) :
    (v.mapFiles φ).content = v.content := by
  ext x
  refine exists_congr fun l => ?_
  rw [Version.mapFiles, levelRecs_map fun f hf => (hφ l f hf).recs]

theorem sameFile_reopen (hok : f.Ok) (hs : SstHolds fs f.number f.recs) (path : String)
    (options : Options) : SameFile f (Manifest.reopenFile (openTable path options fs) f) := by
  have ha : Ascending Rec.pos f.recs := hok.good.ascending
  obtain ⟨t, ht, hn, hg, hr⟩ := hs.openTable ha path options
  rw [Manifest.reopenFile, ht]
  refine ⟨⟨hg, hn, ?_, ?_⟩, rfl, hr⟩
  · rw [hok.smallest]
    exact congrArg firstKeyOf hr.symm
  · rw [hok.largest]
    exact congrArg lastKeyOf hr.symm

/-- The manifest and the tables it names. -/
structure Committed (fs : DbFs) (m : Manifest) : Prop where
  manifest : fs.read .manifest = none ∧ m = {} ∨ fs.read .manifest = some m.encode ∧ m.Fits
  wf : ∃ R, m.version.Wf R
  sst : ∀ l, ∀ f ∈ m.version.levels l, SstHolds fs f.number f.recs
  next : 0 < m.nextFileNumber
  log_le : m.logNumber ≤ m.nextFileNumber
  last : m.lastSequence ≤ kMaxSequenceNumber

theorem Committed.load (h : Committed fs m) (options : Options) (path : String) :
    ∃ φ, Sys.loadManifest options path fs = .ok { m with version := m.version.mapFiles φ } ∧
      ∀ l, ∀ f ∈ m.version.levels l, SameFile f (φ f) := by
  obtain ⟨R, hwf⟩ := h.wf
  rw [Sys.loadManifest]
  rcases h.manifest with ⟨hr, rfl⟩ | ⟨hr, hfit⟩
  · refine ⟨id, ?_, fun l f hf => nomatch hf⟩
    rw [hr]
    rfl
  · have hsame : ∀ l, ∀ f ∈ m.version.levels l,
        SameFile f (Manifest.reopenFile (openTable path options fs) f) := fun l f hf =>
      sameFile_reopen (hwf.file_ok hf) (h.sst l f hf) path options
    refine ⟨_, ?_, hsame⟩
    rw [hr]
    refine Manifest.load_encode _ hfit (hwf.level0.imp fun h => h.1)
      (fun l hl => (hwf.ok.deeper l hl).smallest_sorted) hwf.ok.empty ?_
    intro e he
    obtain ⟨_, hf⟩ := Manifest.mem_filesOf.1 he
    have hok := hwf.file_ok hf
    obtain ⟨t, ht, _⟩ := (h.sst _ _ hf).openTable hok.good.ascending path options
    exact ⟨t, ht⟩

end Reopen

section Replay
variable {fs : DbFs} {logs : Nat → List Group} {path : String}

theorem Fs.names_nodup (fs : DbFs) : fs.names.Nodup := fs.dir.keys_nodup

theorem logNumberOf_eq (h : Sys.logNumberOf name = some n) : name = .log n := by
  cases name <;> cases h
  rfl

theorem mem_liveLogs : n ∈ Sys.liveLogs fs k ↔ k ≤ n ∧ fs.read (.log n) ≠ none := by
  rw [Sys.liveLogs, List.mem_insertionSort, List.mem_filter, List.mem_filterMap, decide_eq_true_eq,
    and_comm, ← Fs.mem_names]
  refine and_congr_right fun _ => ⟨?_, fun h => ⟨_, h, rfl⟩⟩
  rintro ⟨name, hm, hn⟩
  exact logNumberOf_eq hn ▸ hm

theorem liveLogs_sorted (fs : DbFs) (k : Nat) : (Sys.liveLogs fs k).Pairwise (· < ·) := by
  have hnd : (fs.names.filterMap Sys.logNumberOf).Nodup := by
    refine (Fs.names_nodup fs).filterMap fun a b n ha hb => ?_
    rw [logNumberOf_eq ha, logNumberOf_eq hb]
  have hperm := List.perm_insertionSort (· ≤ ·)
    ((fs.names.filterMap Sys.logNumberOf).filter fun n => decide (k ≤ n))
  have hsorted := List.pairwise_insertionSort (· ≤ ·)
    ((fs.names.filterMap Sys.logNumberOf).filter fun n => decide (k ≤ n))
  have hnd' := hperm.nodup_iff.2 (hnd.filter _)
  exact (hsorted.and hnd').imp fun ⟨hle, hne⟩ => lt_of_le_of_ne hle hne

/-- What is in the log files. All their numbers are below `N`. -/
structure Stored (fs : DbFs) (logs : Nat → List Group) (N : Nat) : Prop where
  image : ∀ n bytes, fs.read (.log n) = some bytes → Wal.Image (logs n) bytes
  absent : ∀ n, fs.read (.log n) = none → logs n = []
  bound : ∀ n, fs.read (.log n) ≠ none → n < N

theorem Stored.flatMap_live (h : Stored fs logs N) (k : Nat) :
    (Sys.liveLogs fs k).flatMap logs = span logs k N := by
  refine span_of_sorted (liveLogs_sorted fs k) (fun n hn => ?_) fun n hk _ hn => h.absent n ?_
  · obtain ⟨hk, hr⟩ := mem_liveLogs.1 hn
    exact ⟨hk, h.bound n hr⟩
  · by_contra hr
    exact hn (mem_liveLogs.2 ⟨hk, hr⟩)

theorem Stored.replayLogs (h : Stored fs logs N) {ns : List Nat}
    (hns : ∀ n ∈ ns, fs.read (.log n) ≠ none) (hfit : ∀ g ∈ ns.flatMap logs, g.Fits) :
    Sys.replayLogs path fs ns = .ok ((ns.flatMap logs).flatMap Group.numbered) := by
  induction ns with
  | nil => rfl
  | cons n ns ih =>
    obtain ⟨bytes, hb⟩ := Option.ne_none_iff_exists'.1 (hns n List.mem_cons_self)
    rw [List.flatMap_cons] at hfit
    obtain ⟨he, hst⟩ := Wal.replay_image (h.image n bytes hb)
      (fun g hg => hfit g (List.mem_append_left _ hg)) (logPath path n)
    have hrest := ih (fun n hn => hns n (List.mem_cons_of_mem _ hn))
      fun g hg => hfit g (List.mem_append_right _ hg)
    have hok : Status.ok.isOk = true := rfl
    rw [Sys.replayLogs, hb, Option.getD_some, hst, if_pos hok, hrest, he, List.flatMap_cons,
      List.flatMap_append]
    rfl

theorem replayInto_spec {m : MemTable} {es : List Wal.Entry} (ha : Ascending Rec.pos m.recs)
    (hfit : ∀ e ∈ es, e.key.length + e.value.length + 16 < 2 ^ 32)
    (hasc : SeqAsc (es.map Wal.Entry.toRec))
    (hlt : ∀ x ∈ m.recs, ∀ e ∈ es, x.seq < e.toRec.seq) :
    Ascending Rec.pos (Sys.replayInto m es).recs ∧
      ∀ r, r ∈ (Sys.replayInto m es).recs ↔ r ∈ m.recs ∨ r ∈ es.map Wal.Entry.toRec := by
  apply MemTable.recs_addAll ha hfit
  · exact (List.pairwise_map.1 hasc).imp fun hs he => hs.ne (Rec.seq_eq_of_pos he)
  · intro x hx e he hpos
    exact (hlt x hx e he).ne (Rec.seq_eq_of_pos hpos)

theorem maxSequence_le (hl : last ≤ b) (he : ∀ e ∈ es, Wal.Entry.seq e ≤ b) :
    Sys.maxSequence last es ≤ b := by
  induction es generalizing last with
  | nil => exact hl
  | cons e es ih =>
    rw [Sys.maxSequence, List.foldl_cons]
    refine ih ?_ fun e he' => he e (List.mem_cons_of_mem _ he')
    split
    · exact he e List.mem_cons_self
    · exact hl

theorem le_maxSequence (last : Nat) (es : List Wal.Entry) :
    last ≤ Sys.maxSequence last es ∧ ∀ e ∈ es, e.seq ≤ Sys.maxSequence last es := by
  induction es generalizing last with
  | nil => exact ⟨le_rfl, by simp⟩
  | cons e es ih =>
    obtain ⟨h1, h2⟩ := ih (if last < e.seq then e.seq else last)
    have hle : last ≤ (if last < e.seq then e.seq else last) ∧
        e.seq ≤ (if last < e.seq then e.seq else last) := by
      split <;> omega
    refine ⟨hle.1.trans h1, fun x hx => ?_⟩
    rcases List.mem_cons.1 hx with rfl | hx
    · exact hle.2.trans h1
    · exact h2 x hx

theorem le_foldl_bump (ns : List Nat) (next : Nat) :
    next ≤ ns.foldl (fun next n => if next ≤ n then n + 1 else next) next ∧
      ∀ n ∈ ns, n < ns.foldl (fun next n => if next ≤ n then n + 1 else next) next := by
  induction ns generalizing next with
  | nil => exact ⟨le_rfl, by simp⟩
  | cons k ns ih =>
    obtain ⟨h1, h2⟩ := ih (if next ≤ k then k + 1 else next)
    have hle : next ≤ (if next ≤ k then k + 1 else next) ∧
        k < (if next ≤ k then k + 1 else next) := by
      split <;> omega
    refine ⟨hle.1.trans h1, fun n hn => ?_⟩
    rcases List.mem_cons.1 hn with rfl | hn
    · exact hle.2.trans_le h1
    · exact h2 n hn

theorem lt_bumpFileNumber (hm : name ∈ fs.names) (hn : Sys.numberOf name = some n) (next : Nat) :
    n < Sys.bumpFileNumber fs next :=
  (le_foldl_bump _ next).2 n (List.mem_filterMap.2 ⟨name, hm, hn⟩)

end Replay

/-- A process that has nothing open. -/
structure Idle (s : Sys) : Prop where
  mode : s.mode = .closed
  lead : s.lead = none
  writers : s.writers = []
  rotating : s.rotating = none
  jobs : s.jobs = []
  gets : s.gets = []
  done : s.done = s.hist

/-- The live logs hold the end of the history, and the version what is before it. -/
structure Recoverable (σ : Prop) (hist : List Group) (m : Manifest) (logs : Nat → List Group)
    (N : Nat) (older : List Group) : Prop where
  split : hist = older ++ span logs m.logNumber N
  tops : ∀ g ∈ older, g.base + g.entries.length ≤ m.lastSequence + 1
  content : ∀ x ∈ m.version.content, x ∈ recsOf hist
  agree : σ → ∃ n, older.length ≤ n ∧ (∀ x ∈ m.version.content, x ∈ recsOf (hist.take n)) ∧
    Agree kMaxSequenceNumber {r | r ∈ recsOf (hist.take n)} m.version.content

section Recover
variable {σ : Prop} {s : Sys} {m : Manifest} {logs : Nat → List Group}

/-- The state in which `Recover` has read everything. -/
def Sys.recovering (s : Sys) (options : Options) (path : String) (m : Manifest)
    (es : List Wal.Entry) : Sys :=
  let mem := Sys.replayInto {} es
  { s with
    mode := .opening
    failed := none
    db := {
      options := options
      path := path
      mem := if mem.isEmpty then 0 else 1
      imm := if mem.isEmpty then none else some 0
      current := m.version
      nextFileNumber := Sys.bumpFileNumber s.fs m.nextFileNumber
      lastSequence := Sys.maxSequence m.lastSequence es }
    store := {
      mems := fun id => if id = 0 then mem else {}
      cache := if 0 < options.blockCacheBytes then
        some (BlockCache.new options.blockCacheBytes 16) else none }
    nextMem := 2
    opened := m.version.files.map (·.table) }

theorem Sys.recover_eq (hm : s.mode = .closed) (hload : loadManifest options path s.fs = .ok m)
    (hes : replayLogs path s.fs (liveLogs s.fs m.logNumber) = .ok es) :
    s.recover options path = some (s.recovering options path m es) := by
  rw [recover, if_pos hm, hload]
  simp only [hes]
  rfl

end Recover

section Opening
variable {σ : Prop} {s : Sys} {m : Manifest} {logs : Nat → List Group} {v : Version}

theorem Wal.Group.Fits.numbered_fits {g : Group} (h : g.Fits) {e : Wal.Entry}
    (he : e ∈ g.numbered) :
    e.key.length + e.value.length + 16 < 2 ^ 32 := by
  rw [Group.numbered, Wal.number_eq_mapIdx, List.mem_mapIdx] at he
  obtain ⟨i, hi, rfl⟩ := he
  exact h.entry _ (List.getElem_mem hi)

theorem HistOk.replayInto {gs : List Group} (h : HistOk gs) :
    Ascending Rec.pos (Sys.replayInto {} (gs.flatMap Group.numbered)).recs ∧
      ∀ r, r ∈ (Sys.replayInto {} (gs.flatMap Group.numbered)).recs ↔ r ∈ recsOf gs := by
  have hspec := @replayInto_spec {} (gs.flatMap Group.numbered) .nil (fun e he => by
      obtain ⟨g, hg, he⟩ := List.mem_flatMap.1 he
      exact (h.fits g hg).numbered_fits he)
    (by rw [h.numbered_recs]; exact h.seqAsc) (fun x hx => nomatch hx)
  refine ⟨hspec.1, fun r => (hspec.2 r).trans ?_⟩
  rw [h.numbered_recs]
  simp

theorem HistOk.seq_numbered {gs : List Group} (h : HistOk gs) {e : Wal.Entry}
    (he : e ∈ gs.flatMap Group.numbered) : e.seq ≤ kMaxSequenceNumber := by
  obtain ⟨g, hg, he⟩ := List.mem_flatMap.1 he
  have hb := h.bound g hg
  rw [Group.numbered, Wal.number_eq_mapIdx, List.mem_mapIdx] at he
  obtain ⟨i, hi, rfl⟩ := he
  exact (Nat.mod_le _ _).trans (by omega)

theorem HistOk.top_le {gs : List Group} (h : HistOk gs) (hg : g ∈ gs) (last : Nat) :
    g.base + g.entries.length ≤ Sys.maxSequence last (gs.flatMap Group.numbered) + 1 := by
  have hb := h.bound g hg
  have hne := (h.fits g hg).nonempty
  have hlen : 0 < g.entries.length := List.length_pos_iff.2 hne
  have hkmax : kMaxSequenceNumber < 2 ^ 64 := by decide
  have hmem : (⟨(g.base + (g.entries.length - 1)) % 2 ^ 64, g.entries[g.entries.length - 1].type,
      g.entries[g.entries.length - 1].key, g.entries[g.entries.length - 1].value⟩ : Wal.Entry) ∈
      gs.flatMap Group.numbered := by
    refine List.mem_flatMap.2 ⟨g, hg, ?_⟩
    rw [Group.numbered, Wal.number_eq_mapIdx, List.mem_mapIdx]
    exact ⟨g.entries.length - 1, by omega, rfl⟩
  have hle : (g.base + (g.entries.length - 1)) % 2 ^ 64 ≤ _ :=
    (le_maxSequence last (gs.flatMap Group.numbered)).2 _ hmem
  rw [Nat.mod_eq_of_lt (by omega)] at hle
  omega

theorem tables_reopened (hwf : v.Wf R)
    (hsst : ∀ l, ∀ f ∈ v.levels l, SstHolds fs f.number f.recs) (next : Nat) (store : Store)
    (hcache : ∀ P : Nat → Nat → Bytes → Prop, ∀ c, store.cache = some c → c.Caches P)
    (hfaults : store.faults = []) :
    Tables fs v (Sys.bumpFileNumber fs next) store (v.files.map (·.table)) where
  good t ht := by
    obtain ⟨f, hf, rfl⟩ := List.mem_map.1 ht
    obtain ⟨l, hl⟩ := Version.mem_files hf
    exact (hwf.file_ok hl).good
  nodup := by
    rw [List.map_map]
    have he : v.files.map (Table.number ∘ FileMetaData.table) = v.files.map FileMetaData.number :=
      List.map_congr_left fun f hf => by
        obtain ⟨l, hl⟩ := Version.mem_files hf
        exact (hwf.file_ok hl).number
    rw [he]
    exact hwf.files_nodup
  number_lt t ht := by
    obtain ⟨f, hf, rfl⟩ := List.mem_map.1 ht
    obtain ⟨l, hl⟩ := Version.mem_files hf
    obtain ⟨_, _, hr⟩ := hsst l f hl
    have hm : FileName.sst f.number ∈ fs.names := Fs.mem_names.2 (by simp [hr])
    rw [(hwf.file_ok hl).number]
    exact lt_bumpFileNumber hm rfl next
  serves := ⟨rfl, fun c hc => hcache _ c hc, hfaults⟩
  live l f hf := ⟨List.mem_map_of_mem (hwf.mem_files hf), hsst l f hf⟩
  names name hm n hn := lt_bumpFileNumber hm hn next

theorem MemTable.isEmpty_iff {t : MemTable} {l : List Rec} (h : ∀ r, r ∈ t.recs ↔ r ∈ l) :
    t.isEmpty = true ↔ l = [] := by
  rw [← MemTable.recs_eq_nil, List.eq_nil_iff_forall_not_mem, List.eq_nil_iff_forall_not_mem]
  exact forall_congr' fun r => not_congr (h r)

theorem HistOk.recsOf_eq_nil {gs : List Group} (h : HistOk gs) : recsOf gs = [] ↔ gs = [] := by
  refine ⟨fun he => ?_, fun he => he ▸ rfl⟩
  cases gs with
  | nil => rfl
  | cons g gs =>
    have hne := (h.fits g List.mem_cons_self).nonempty
    have hlen : g.recs.length = g.entries.length := length_numberRecs _ _
    rw [recsOf, List.flatMap_cons, List.append_eq_nil_iff] at he
    rw [he.1] at hlen
    exact absurd (List.length_eq_zero_iff.1 hlen.symm) hne

namespace Recoverable

theorem live_ok (h : Recoverable σ hist m logs N older) (hok : HistOk hist) :
    HistOk (span logs m.logNumber N) :=
  hok.sublist (h.split ▸ List.sublist_append_right _ _)

theorem logged (h : Recoverable σ hist m logs N older) (hok : HistOk hist)
    (hm : m.lastSequence ≤ kMaxSequenceNumber) (fine : Prop) :
    Logged fine hist hist (Sys.maxSequence m.lastSequence
      ((span logs m.logNumber N).flatMap Group.numbered)) none := by
  have hlok := h.live_ok hok
  refine ⟨hok, List.prefix_refl _, maxSequence_le hm fun e he => hlok.seq_numbered he,
    fun g hg => ?_, fun _ _ => rfl, fun _ hc => nomatch hc⟩
  rw [h.split] at hg
  rcases List.mem_append.1 hg with hg | hg
  · have h1 := h.tops g hg
    have h2 := (le_maxSequence m.lastSequence
      ((span logs m.logNumber N).flatMap Group.numbered)).1
    omega
  · exact hlok.top_le hg m.lastSequence

theorem layered (h : Recoverable σ hist m logs N older) {fine : Prop}
    (hlog : Logged fine hist hist last none) (hnil : span logs m.logNumber N = [])
    (hwf : v.Wf R) (hcont : v.content = m.version.content) (mems : Nat → MemTable)
    (hmem : (mems 0).recs = []) :
    Layered ⟨last, recsOf hist, [], []⟩ (recsOf hist) 0 none mems v ∧
      (σ → Agree last {r | r ∈ recsOf hist} v.content) := by
  have hsub : ∀ x ∈ v.content, x ∈ recsOf hist := fun x hx => h.content x (hcont ▸ hx)
  have hle : ∀ x ∈ v.content, x.seq ≤ last := fun x hx => (hlog.mem_done (hsub x hx)).2
  refine ⟨⟨by simp, by rw [hmem]; exact .nil, by simp [hmem], fun _ => rfl,
    fun _ hi => (nomatch hi), fun _ hi => (nomatch hi), hwf.of_le hle, hsub⟩, fun hs => ?_⟩
  obtain ⟨n, hn, hin, hag⟩ := h.agree hs
  have hall : hist.take n = hist := by
    have hlen := congrArg List.length h.split
    rw [hnil, List.append_nil] at hlen
    exact List.take_of_length_le (by omega)
  rw [hall] at hag
  rw [hcont]
  exact hag.lower (fun x hx => (hlog.mem_done hx).2) fun x hx => hle x (hcont ▸ hx)

theorem replaying (h : Recoverable σ hist m logs N older) (hwf : v.Wf R)
    (hcont : v.content = m.version.content) {mems : Nat → MemTable} (hmem : (mems 1).recs = [])
    (hasc : Ascending Rec.pos (mems 0).recs)
    (himm : ∀ r, r ∈ (mems 0).recs ↔ r ∈ recsOf (span logs m.logNumber N)) :
    Replaying σ hist 1 0 mems v := by
  refine ⟨hmem, hasc, ⟨R, hwf⟩, fun x hx => h.content x (hcont ▸ hx), older,
    span logs m.logNumber N, h.split, himm, fun hs => ?_⟩
  rw [hcont]
  exact h.agree hs

/-- A process in `Recover`, before its flush. -/
theorem sound_opening {mem : Nat} {imm : Option Nat} {store : Store} {opened : List Table}
    {gh : Ghost} {options : Options} {path : String} (hi : Idle s)
    (hlog : Logged (Status.ok.isOk = true) s.hist s.hist last none)
    (htab : Tables s.fs v next store opened) (hnext : 0 < next) (hmem : mem < 2)
    (himm : ∀ id, imm = some id → id < 2 ∧ id ≠ mem) (hfresh : ∀ id, 2 ≤ id → store.mems id = {})
    (hfloor : gh.floor ≤ last)
    (hlay : imm = none → Layered gh (recsOf s.hist) mem none store.mems v ∧
      (σ → Agree last {r | r ∈ gh.flushed} v.content))
    (hrep : ∀ id, imm = some id → Replaying σ s.hist mem id store.mems v) :
    Sound σ gh { s with
      mode := .opening
      failed := none
      db := {
        options := options, path := path, mem := mem, imm := imm, current := v,
        nextFileNumber := next, lastSequence := last }
      store := store
      nextMem := 2
      opened := opened } := by
  obtain ⟨hmode, hlead, hw, hrot, hjobs, hgets, hdone⟩ := hi
  have hvis : recsOf s.done ++ (s.lead.map Lead.inserted).getD [] = recsOf s.hist := by
    rw [hlead, hdone]
    simp
  refine ⟨by simp, rfl, ?_, by simp [hw], ⟨hmem, himm, hfresh⟩, htab, hnext, fun _ => le_rfl,
    ⟨hfloor, fun _ hc => nomatch hc⟩, fun ho => ?_, fun ho hs => ?_, fun _ id hid => ?_, ?_,
    .inl ⟨hjobs, rfl⟩, ?_, fun _ => ⟨hlead, hw, hrot, rfl, hgets, rfl⟩⟩
  · show Logged _ s.done s.hist last s.lead
    rw [hlead, hdone]
    exact hlog
  · have hnone : imm = none := ho rfl
    subst hnone
    show Layered gh (recsOf s.done ++ (s.lead.map Lead.inserted).getD []) _ _ _ _
    rw [hvis]
    exact (hlay rfl).1
  · exact (hlay (ho rfl)).2 hs
  · show Replaying σ s.done _ _ _ _
    rw [hdone]
    exact hrep id hid
  · intro r hr
    have hc := hrot.symm.trans hr
    cases hc
  · intro c hc
    have hm : c ∈ s.gets := hc
    rw [hgets] at hm
    cases hm

/-- What `Recover` reads is enough to start from. -/
theorem sound (h : Recoverable σ s.hist m logs N older) (hi : Idle s)
    (hok : HistOk s.hist) (hc : Committed s.fs m) {φ : FileMetaData → FileMetaData}
    (hφ : ∀ l, ∀ f ∈ m.version.levels l, SameFile f (φ f)) (options : Options) (path : String) :
    ∃ gh, Sound σ gh (s.recovering options path { m with version := m.version.mapFiles φ }
      ((span logs m.logNumber N).flatMap Group.numbered)) := by
  obtain ⟨R, hwf⟩ := hc.wf
  have hwf' := hwf.mapFiles hφ
  have hcont := Version.content_mapFiles hφ
  have hsst : ∀ l, ∀ f ∈ (m.version.mapFiles φ).levels l, SstHolds s.fs f.number f.recs := by
    intro l g hg
    obtain ⟨f, hf, rfl⟩ := Version.mem_mapFiles.1 hg
    rw [(hφ l f hf).number, (hφ l f hf).recs]
    exact hc.sst l f hf
  have hlok := h.live_ok hok
  obtain ⟨hasc, hmem⟩ := hlok.replayInto
  have hempty := MemTable.isEmpty_iff hmem
  rw [hlok.recsOf_eq_nil] at hempty
  have hlogged := h.logged hok hc.last (Status.ok.isOk = true)
  have hcache : ∀ (P : Nat → Nat → Bytes → Prop) (c : BlockCache),
      (if 0 < options.blockCacheBytes then some (BlockCache.new options.blockCacheBytes 16)
        else none) = some c → c.Caches P := by
    intro P c hc
    split at hc <;> cases hc
    exact BlockCache.caches_new _ _
  have htables := fun mems => tables_reopened hwf' hsst m.nextFileNumber
    ⟨mems, _, []⟩ hcache rfl
  have hnext : 0 < Sys.bumpFileNumber s.fs m.nextFileNumber :=
    hc.next.trans_le (le_foldl_bump _ _).1
  obtain ⟨R, hwf⟩ : ∃ R, (m.version.mapFiles φ).Wf R := ⟨R, hwf'⟩
  rw [Sys.recovering]
  generalize hlive : span logs m.logNumber N = live at *
  by_cases hnil : live = []
  · simp only [hempty.2 hnil, if_true]
    obtain ⟨hlay, hag⟩ := h.layered hlogged (hlive.trans hnil) hwf hcont
      (fun id => if id = 0 then Sys.replayInto {} (live.flatMap Group.numbered) else {})
      ((MemTable.recs_eq_nil _).2 (hempty.2 hnil))
    exact ⟨_, sound_opening hi hlogged (htables _) hnext (by omega) (by simp)
      (fun id hid => if_neg (by omega)) le_rfl (fun _ => ⟨hlay, hag⟩) (by simp)⟩
  · have hne : (Sys.replayInto {} (live.flatMap Group.numbered)).isEmpty = false :=
      Bool.eq_false_iff.2 fun he => hnil (hempty.1 he)
    simp only [hne]
    subst hlive
    refine ⟨⟨0, [], [], []⟩, sound_opening hi hlogged (htables _) hnext (by simp) (by simp)
      (fun id hid => if_neg (by omega)) (Nat.zero_le _) (by simp) ?_⟩
    rintro _ ⟨⟩
    exact h.replaying hwf hcont rfl hasc hmem

theorem recover (h : Recoverable σ s.hist m logs N older) (hi : Idle s) (hok : HistOk s.hist)
    (hc : Committed s.fs m) (hst : Stored s.fs logs N) (options : Options) (path : String) :
    ∃ φ gh, (∀ l, ∀ f ∈ m.version.levels l, SameFile f (φ f)) ∧
      s.recover options path = some (s.recovering options path
        { m with version := m.version.mapFiles φ }
        ((span logs m.logNumber N).flatMap Group.numbered)) ∧
      Sound σ gh (s.recovering options path { m with version := m.version.mapFiles φ }
        ((span logs m.logNumber N).flatMap Group.numbered)) := by
  obtain ⟨φ, hload, hφ⟩ := hc.load options path
  obtain ⟨gh, hsound⟩ := h.sound hi hok hc hφ options path
  refine ⟨φ, gh, hφ, Sys.recover_eq hi.mode hload ?_, hsound⟩
  have hlive := hst.flatMap_live m.logNumber
  have hlok := h.live_ok hok
  rw [← hlive] at hlok ⊢
  exact hst.replayLogs (fun n hn => (mem_liveLogs.1 hn).2) hlok.fits

end Recoverable

end Opening

end LsmKv
