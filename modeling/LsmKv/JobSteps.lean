import LsmKv.ClientSteps

namespace LsmKv
set_option autoImplicit true

open Versioned
open Wal (Group)

variable {σ : Prop} {gh : Ghost} {s s' : Sys}

theorem flushLoop_finish (options : Options) (S : Nat) (l : List Rec) :
    (flushLoop S {} (TableBuilder.new options) l).finish =
      built options (keepFrom false S {} l) := by
  rw [flushLoop_eq]
  rfl

theorem FileMetaData.number_mem (h : Tables fs current next store opened) (hwf : current.Wf R)
    (hf : f ∈ current.levels l) : ∃ t ∈ opened, t.number = f.number :=
  ⟨f.table, (h.live l f hf).1, (hwf.file_ok hf).number⟩

namespace Sound

theorem idle_committing (h : Sound σ gh s) (hj : s.jobs = []) : s.db.committing = false := by
  rcases h.jobs with ⟨_, hc⟩ | ⟨j, hj', _⟩
  · exact hc
  · rw [hj] at hj'
    cases hj'

theorem wf (h : Sound σ gh s) : ∃ R, s.db.current.Wf R := by
  by_cases ho : s.mode = .opening → s.db.imm = none
  · exact ⟨_, (h.layered ho).wf⟩
  · rw [Classical.not_imp] at ho
    obtain ⟨imm, hi⟩ := Option.ne_none_iff_exists'.1 ho.2
    exact (h.replaying ho.1 imm hi).wf

theorem imm_asc (h : Sound σ gh s) (hi : s.db.imm = some imm) :
    Ascending Rec.pos (s.store.mems imm).recs := by
  by_cases ho : s.mode = .opening
  · exact (h.replaying ho imm hi).imm_asc
  · exact (h.layered fun hc => absurd hc ho).imm_asc imm hi

theorem smallest_opening (h : Sound σ gh s) (ho : s.mode = .opening) :
    s.db.smallestSnapshot = s.db.lastSequence := by
  rw [Db.smallestSnapshot, (h.opening ho).2.2.2.1]
  rfl

theorem startFlush (h : Sound σ gh s) (hs : s.startFlush = some s') (hj : s.jobs = [])
    (hfit : s'.Fits) (hσ : σ → s.db.smallestSnapshot < kMaxSequenceNumber) : Sound σ gh s' := by
  obtain ⟨imm, hi, _, rfl⟩ := Sys.startFlush_cases hs
  have hnew : s.fs.read (.sst s.db.nextFileNumber) = none := h.tables.fresh rfl le_rfl
  rw [flushLoop_finish, hj] at hfit ⊢
  refine { h with
    tables := h.tables.frame (fun _ _ _ => rfl) (Nat.le_succ _) fun _ hn => .inl hn
    log_lt := h.log_lt.trans (Nat.lt_succ_self _)
    rotating := fun r hr =>
      have hro := h.rotating r hr
      { hro with number_lt := hro.number_lt.trans (Nat.lt_succ_self _) }
    jobs := .inr ⟨_, rfl, ?_⟩ }
  refine .flushOpen (h.idle_committing hj) ⟨imm, s.db.smallestSnapshot, hi, le_rfl, hσ,
    h.smallest_opening, rfl⟩ ?_ ⟨Nat.lt_succ_self _, h.tables.number_lt⟩
    (writing_writeTable hnew _)
  exact hfit.table _ (List.mem_append_right _ List.mem_cons_self) _ rfl _ rfl

theorem startCompaction (h : Sound σ gh s) (hs : s.startCompaction level = some s')
    (hj : s.jobs = []) (hσ : σ → s.db.smallestSnapshot < kMaxSequenceNumber) :
    Sound σ gh s' := by
  obtain ⟨hm, _, hl, db, c, hb, rfl⟩ := Sys.startCompaction_cases hs
  have hlay := h.layered fun ho => by simp [hm] at ho
  obtain ⟨hp, hS, hdb⟩ := Db.beginCompaction_picked hlay.wf hl hb
  have hc := h.idle_committing hj
  generalize db.compactPointer = pointer at hdb
  subst hdb
  rw [hj]
  refine { h with jobs := .inr ⟨_, rfl, .compactMerge hc ⟨hm, hp, ?_, hS.le, ?_⟩⟩ }
  · rw [hS]
    exact Db.le_smallestSnapshot_iff.2
      ⟨h.pins.floor_le, fun sn hsn => (h.pins.snapshot sn hsn).1⟩
  · rw [hS]
    exact hσ

theorem startLog (h : Sound σ gh s) (hs : s.startLog = some s') : Sound σ gh s' := by
  obtain ⟨hm, hj, hi, rfl⟩ := Sys.startLog_cases hs
  have hnew : s.fs.read (.log s.db.nextFileNumber) = none := h.tables.fresh rfl le_rfl
  exact { h with
    tables := h.tables.frame (fun _ _ _ => rfl) (Nat.le_succ _) fun _ hn => .inl hn
    log_lt := h.log_lt.trans (Nat.lt_succ_self _)
    rotating := fun r hr => by
      rw [(h.opening hm).2.2.1] at hr
      cases hr
    jobs := .inr ⟨_, rfl, .logOpened (h.idle_committing hj) hm hi (Nat.lt_succ_self _)
      (openingLog_openLog hnew)⟩ }

end Sound

theorem NewNumber.ne (h : NewNumber s n)
    (ht : Tables s.fs s.db.current s.db.nextFileNumber s.store s.opened)
    (hwf : s.db.current.Wf R) : ∀ l, ∀ f ∈ s.db.current.levels l, f.number ≠ n := by
  intro l f hf
  obtain ⟨t, hto, htn⟩ := FileMetaData.number_mem ht hwf hf
  have := h.2 t hto
  omega

theorem NewFile.ne_number (h : NewFile s f es) (hn : NewNumber s n) : f.number ≠ n := by
  have := hn.2 f.table h.opened
  rw [h.ok.number] at this
  omega

theorem NewFile.frame_fs (h : NewFile s f es)
    (hr : fs.read (.sst f.number) = s.fs.read (.sst f.number)) :
    NewFile { s with fs := fs, jobs := jobs } f es :=
  ⟨h.ok, h.recs, h.opened, h.sst.frame hr, h.fresh⟩

namespace Sound

theorem job_fs (h : Sound σ gh s)
    (hlive : ∀ l, ∀ f ∈ s.db.current.levels l, fs.read (.sst f.number) = s.fs.read (.sst f.number))
    (hnames : ∀ name ∈ fs.names, name ∈ s.fs.names ∨
      ∀ n, Sys.numberOf name = some n → n < s.db.nextFileNumber)
    (hlog : ∀ r, s.rotating = some r → fs.read (.log r.number) = s.fs.read (.log r.number))
    (hj : JobOk σ gh.floor { s with fs := fs, jobs := [j] } j) :
    Sound σ gh { s with fs := fs, jobs := [j] } :=
  { h with
    tables := h.tables.frame hlive le_rfl hnames
    rotating := fun r hr =>
      have hro := h.rotating r hr
      { hro with log := hro.log.frame (hlog r hr) }
    jobs := .inr ⟨j, rfl, hj⟩ }

theorem names_of_read {fs fs' : DbFs} (hf : ∀ name, name ≠ x → fs'.read name = fs.read name)
    (hx : ∀ n, Sys.numberOf x = some n → n < next) :
    ∀ name ∈ fs'.names, name ∈ fs.names ∨ ∀ n, Sys.numberOf name = some n → n < next := by
  intro name hn
  by_cases he : name = x
  · subst he
    exact .inr hx
  · rw [Fs.mem_names, hf name he] at hn
    exact .inl (Fs.mem_names.2 hn)

theorem job_table (h : Sound σ gh s) (hn : NewNumber s n)
    (hf : ∀ name, name ≠ .sst n → fs.read name = s.fs.read name)
    (hj : JobOk σ gh.floor { s with fs := fs, jobs := [j] } j) :
    Sound σ gh { s with fs := fs, jobs := [j] } := by
  obtain ⟨R, hwf⟩ := h.wf
  refine h.job_fs (fun l f hm => hf _ ?_) (names_of_read hf ?_) (fun r _ => hf _ (by simp)) hj
  · simpa using hn.ne h.tables hwf l f hm
  · rintro _ ⟨⟩
    exact hn.1

theorem job_manifest (h : Sound σ gh s)
    (hf : ∀ name, ¬ IsManifest name → fs.read name = s.fs.read name)
    (hj : JobOk σ gh.floor { s with fs := fs, jobs := [j] } j) :
    Sound σ gh { s with fs := fs, jobs := [j] } := by
  refine h.job_fs (fun _ _ _ => hf _ (by simp [IsManifest])) (fun name hn => ?_)
    (fun _ _ => hf _ (by simp [IsManifest])) hj
  by_cases hm : IsManifest name
  · right
    rcases hm with rfl | rfl <;> exact fun _ hc => nomatch hc
  · rw [Fs.mem_names, hf name hm] at hn
    exact .inl (Fs.mem_names.2 hn)

/-- Deleting an obsolete file. -/
theorem job_unlink (h : Sound σ gh s) (ho : isObsolete s.db.current log name = true)
    (hlog : s.rotating = none ∨ log ≤ s.db.logNumber)
    (hj : JobOk σ gh.floor { s with fs := s.fs.unlink name, jobs := [j] } j) :
    Sound σ gh { s with fs := s.fs.unlink name, jobs := [j] } := by
  have hread : ∀ x, x ≠ name → (s.fs.unlink name).read x = s.fs.read x := by
    intro x hx
    rw [Fs.read_unlink, if_neg hx]
  refine h.job_fs (fun l f hf => hread _ ?_) (fun x hx => .inl ?_) (fun r hr => hread _ ?_) hj
  · rintro rfl
    obtain ⟨R, hwf⟩ := h.wf
    have hmem : f.number ∈ s.db.current.files.map (·.number) :=
      List.mem_map_of_mem (hwf.mem_files hf)
    rw [isObsolete, Bool.not_eq_true', ← Bool.not_eq_true, List.contains_iff_mem] at ho
    exact ho hmem
  · rw [Fs.mem_names, Fs.read_unlink] at hx
    split at hx
    · exact absurd rfl hx
    · exact Fs.mem_names.2 hx
  · rintro rfl
    have hlt := (h.rotating r hr).log_lt
    simp only [isObsolete, decide_eq_true_eq] at ho
    rcases hlog with hn | hle
    · rw [hn] at hr
      cases hr
    · omega

theorem ioStep_unlink {P : FileName → Prop} (h : ∀ op ∈ io, ∃ name, op = Io.unlink name ∧ P name)
    (hs : ioStep n fs io = some (fs', io')) :
    (∃ name, P name ∧ fs' = fs.unlink name) ∧ ∀ op ∈ io', ∃ name, op = Io.unlink name ∧ P name := by
  rcases ioStep_cases hs with ⟨op, rfl, rfl⟩ | ⟨nm, bs, rest, rfl, _⟩
  · obtain ⟨name, rfl, hp⟩ := h op List.mem_cons_self
    exact ⟨⟨name, hp, rfl⟩, fun o ho => h o (List.mem_cons_of_mem _ ho)⟩
  · obtain ⟨name, he, _⟩ := h _ List.mem_cons_self
    cases he

/-- A system call of the job in flight. -/
theorem job_io (h : Sound σ gh s) (hj : s.jobs = [j]) (hio : ioStep n s.fs j.io = some (fs, io)) :
    Sound σ gh { s with fs := fs, jobs := [{ j with io := io }] } := by
  have hok : JobOk σ gh.floor s j := by
    rcases h.jobs with ⟨hn, _⟩ | ⟨j', hj', hok⟩
    · rw [hn] at hj
      cases hj
    · rw [hj] at hj'
      cases hj'
      exact hok
  obtain ⟨R, hwf⟩ := h.wf
  cases hok with
  | flushOpen hc hf hfit hn hw =>
    exact h.job_table hn (fun name hne => read_ioStep hio (hw.names hne))
      (.flushOpen hc hf hfit hn (hw.step hio))
  | flushInstall hc hf hn => cases hio
  | compactMerge hc hcp => cases hio
  | compactNext hc hcp hp ho hd => cases hio
  | compactOpen hc hcp hp ho hd hfit hn hw =>
    have hread := fun (name : FileName) (hne : name ≠ _) => read_ioStep hio (hw.names hne)
    refine h.job_table hn hread (.compactOpen hc ⟨hcp.running, hcp.picked, hcp.floor_le,
      hcp.smallest, hcp.below⟩ hp ?_ hd hfit hn (hw.step hio))
    exact ho.imp fun f es hf => hf.frame_fs (hread _ (by simpa using hf.ne_number hn))
  | commit hc hi hlog hio' =>
    exact h.job_manifest (fun name hm => read_ioStep hio (hio' name hm))
      (.commit hc hi hlog fun name hm => ioStep_names hio (hio' name hm))
  | commitDone hc hi hlog hio' =>
    obtain ⟨⟨name, ho, rfl⟩, hrest⟩ := ioStep_unlink hio' hio
    exact h.job_unlink ho (.inr hlog) (.commitDone hc hi hlog hrest)
  | logOpened hc hm hi hn hio' =>
    have hread := fun (name : FileName) (hne : name ≠ _) => read_ioStep hio (hio'.names hne)
    refine h.job_fs (fun _ _ _ => hread _ (by simp)) (names_of_read hread ?_) (fun r hr => ?_)
      (.logOpened hc hm hi hn (hio'.step hio))
    · rintro _ ⟨⟩
      exact hn
    · rw [(h.opening hm).2.2.1] at hr
      cases hr
  | recoverCommit hc hm hi hio' =>
    exact h.job_manifest (fun name hm => read_ioStep hio (hio' name hm))
      (.recoverCommit hc hm hi fun name hm => ioStep_names hio (hio' name hm))
  | recovered hc hm hi hio' =>
    obtain ⟨⟨name, ho, rfl⟩, hrest⟩ := ioStep_unlink hio' hio
    exact h.job_unlink ho (.inl (h.opening hm).2.2.1) (.recovered hc hm hi hrest)

end Sound

section Install
variable {visible : List Rec} {mem imm last : Nat} {mems : Nat → MemTable} {current : Version}
  {done : List Group} {f : FileMetaData} {es : List Rec}

/-- The version a flush commits. -/
def Version.addFile (v : Version) (f : FileMetaData) : Version := v.setLevel 0 (f :: v.levels 0)

theorem Version.content_addFile (v : Version) (f : FileMetaData) :
    (v.addFile f).content = {x | x ∈ f.recs} ∪ v.content := by
  ext x
  constructor
  · rintro ⟨l, hx⟩
    rw [addFile, levels_setLevel] at hx
    split at hx
    · rename_i hl
      subst hl
      rw [levelRecs, List.flatMap_cons, List.mem_append] at hx
      exact hx.imp id fun hx => ⟨0, hx⟩
    · exact .inr ⟨l, hx⟩
  · rintro (hx | ⟨l, hx⟩)
    · refine ⟨0, ?_⟩
      rw [addFile, levels_setLevel, if_pos rfl, levelRecs, List.flatMap_cons]
      exact List.mem_append_left _ hx
    · refine ⟨l, ?_⟩
      rw [addFile, levels_setLevel]
      split
      · rename_i hl
        subst hl
        rw [levelRecs, List.flatMap_cons]
        exact List.mem_append_right _ hx
      · exact hx

theorem Version.mem_addFile (h : g ∈ (current.addFile f).levels l) :
    g = f ∨ g ∈ current.levels l := by
  rw [addFile, levels_setLevel] at h
  split at h
  · rename_i hl
    subst hl
    exact List.mem_cons.1 h
  · exact .inr h

def Ghost.flush (gh : Ghost) : Ghost := ⟨gh.floor, gh.flushed ++ gh.frozen, [], gh.active⟩

theorem Layered.flush (h : Layered gh visible mem (some imm) mems current) (ha : SeqAsc visible)
    (hok : ∀ r ∈ visible, r.Ok) (hf : f.Ok) (hr : f.recs = es)
    (hes : List.Sublist es (mems imm).recs)
    (hfresh : ∀ l, ∀ g ∈ current.levels l, g.number < f.number) :
    Layered gh.flush visible mem none mems (current.addFile f) := by
  have hfrozen : ∀ x ∈ f.recs, x ∈ gh.frozen := fun x hx =>
    (h.imm_iff imm rfl x).1 (hes.subset (hr ▸ hx))
  rw [h.split] at ha hok
  have hlt := (seqAsc_append.1 ha).2.2
  refine ⟨by rw [h.split]; simp [Ghost.flush], h.mem_asc, h.mem_iff, fun _ => rfl,
    fun _ hi => (nomatch hi), fun _ hi => (nomatch hi), ?_, fun x hx => ?_⟩
  · refine h.wf.addFile hf (fun x hx => ?_) (fun x hx l y hy => ?_) hfresh
    · exact hok x (List.mem_append_right _ (List.mem_append_left _ (hfrozen x hx)))
    · exact newer_of_seq_lt
        (hlt y (h.content y ⟨l, hy⟩) x (List.mem_append_left _ (hfrozen x hx)))
  · rw [Version.content_addFile] at hx
    rcases hx with hx | hx
    · exact List.mem_append_right _ (hfrozen x hx)
    · exact List.mem_append_left _ (h.content x hx)

theorem setOf_mem_append (l m : List Rec) : {r | r ∈ l ++ m} = {r | r ∈ m} ∪ {r | r ∈ l} := by
  ext r
  simp only [List.mem_append, Set.mem_ofPred_eq, Set.mem_union]
  exact or_comm

/-- What the flush dropped is invisible. -/
theorem Layered.flush_agree (h : Layered gh visible mem (some imm) mems current)
    (ha : SeqAsc visible) (hok : ∀ r ∈ visible, r.Ok)
    (hr : f.recs = keepFrom false S {} (mems imm).recs)
    (hS : S < kMaxSequenceNumber) (hSs : S ≤ smallest)
    (hag : Agree smallest {r | r ∈ gh.flushed} current.content) :
    Agree smallest {r | r ∈ gh.flush.flushed} (current.addFile f).content := by
  have hsplit := h.split
  rw [hsplit] at ha hok
  have hmid : SeqAsc (gh.flushed ++ gh.frozen) :=
    List.Pairwise.sublist ((List.sublist_append_left _ _).append_left _) ha
  have habove : Above {r | r ∈ gh.frozen} {r | r ∈ gh.flushed} := hmid.above
  have habove' : Above {r | r ∈ gh.frozen} current.content :=
    fun x hx y hy => habove x hx y (h.content y hy)
  have himm : {r | r ∈ (mems imm).recs} = {r | r ∈ gh.frozen} := Set.ext (h.imm_iff imm rfl)
  have hsorted : SortedRecs (mems imm).recs := by
    refine ⟨(h.imm_asc imm rfl).imp fun hlt => hlt.le, fun r hr => ?_, ?_⟩
    · exact hok r (List.mem_append_right _ (List.mem_append_left _ ((h.imm_iff imm rfl r).1 hr)))
    · rw [himm]
      exact hmid.distinct.mono fun r hr => List.mem_append_right _ hr
  have hkept : {x | x ∈ f.recs} = Retained (false = true) S {r | r ∈ gh.frozen} := by
    rw [hr, keepFrom_eq_retained hS hsorted, himm]
  rw [Version.content_addFile, hkept, Ghost.flush, setOf_mem_append]
  exact (hag.union_above habove habove').trans
    ((agree_retained (fun hf => nomatch hf)).mono hSs)

/-- After the flush of `Recover` every record is in the version. -/
theorem Replaying.flush {fine : Prop} {hist : List Group}
    (h : Replaying σ done mem imm mems current) (hl : Logged fine done hist last none)
    (hf : f.Ok) (hr : f.recs = keepFrom false last {} (mems imm).recs)
    (hfresh : ∀ l, ∀ g ∈ current.levels l, g.number < f.number)
    (hσ : σ → last < kMaxSequenceNumber) :
    Layered ⟨last, recsOf done, [], []⟩ (recsOf done) mem none mems (current.addFile f) ∧
      (σ → Agree last {r | r ∈ recsOf done} (current.addFile f).content) := by
  obtain ⟨older, replayed, hsplit, himm, hag⟩ := h.split
  obtain ⟨R, hwf⟩ := h.wf
  have hdone : recsOf done = recsOf older ++ recsOf replayed := by rw [hsplit, recsOf_append]
  have hasc : SeqAsc (recsOf older ++ recsOf replayed) := hdone ▸ hl.done_ok.seqAsc
  have hle : ∀ x ∈ recsOf done, x.seq ≤ last := fun x hx => (hl.mem_done hx).2
  have hmem : ∀ x ∈ recsOf replayed, x ∈ recsOf done := fun x hx => by
    rw [hdone]
    exact List.mem_append_right _ hx
  have hkept : ∀ x ∈ f.recs, x ∈ recsOf replayed := fun x hx =>
    (himm x).1 ((keepFrom_sublist _ _ _ _).subset (hr ▸ hx))
  have hset : {r | r ∈ (mems imm).recs} = {r | r ∈ recsOf replayed} := Set.ext himm
  have hsorted : SortedRecs (mems imm).recs := by
    refine ⟨h.imm_asc.imp fun hlt => hlt.le,
      fun r hr => (hl.mem_done (hmem r ((himm r).1 hr))).1, ?_⟩
    rw [hset]
    exact hl.done_ok.seqAsc.distinct.mono hmem
  have hret : last < kMaxSequenceNumber →
      {x | x ∈ f.recs} = Retained (false = true) last {r | r ∈ recsOf replayed} := by
    intro hS
    rw [hr, keepFrom_eq_retained hS hsorted, hset]
  have hnewer : ∀ x ∈ f.recs, ∀ l, ∀ y ∈ levelRecs (current.levels l), Newer last x y := by
    intro x hx l y hy
    refine ⟨fun hk => ?_, fun _ => hle x (hmem x (hkept x hx))⟩
    by_cases hS : last < kMaxSequenceNumber
    · -- the collapse was total: `x` is the newest replayed record of its key
      have hxr : x ∈ Retained (false = true) last {r | r ∈ recsOf replayed} := hret hS ▸ hx
      have hyd := h.content y ⟨l, hy⟩
      rw [hdone] at hyd
      rcases List.mem_append.1 hyd with hy | hy
      · exact ((seqAsc_append.1 hasc).2.2 y hy x (hkept x hx)).le
      · rcases hxr.2 with hgt | ⟨hp, _⟩
        · exact absurd (hle x (hmem x (hkept x hx))) (not_le_of_gt hgt)
        · exact hp.2 y hy hk (hle y (hmem y hy))
    · rw [hr, keepFrom_eq_nil (not_lt.1 hS) hsorted.ok (not_lt.1 hS)] at hx
      cases hx
  refine ⟨⟨by simp, ?_, ?_, fun _ => rfl, fun _ hi => (nomatch hi), fun _ hi => (nomatch hi), ?_,
    ?_⟩, ?_⟩
  · rw [h.mem_nil]
    exact .nil
  · rw [h.mem_nil]
    exact fun _ => Iff.rfl
  · have hlast : current.Wf last := hwf.of_le fun x hx => hle x (h.content x hx)
    exact hlast.addFile hf (fun x hx => (hl.mem_done (hmem x (hkept x hx))).1) hnewer hfresh
  · intro x hx
    rw [Version.content_addFile] at hx
    rcases hx with hx | hx
    · exact hmem x (hkept x hx)
    · exact h.content x hx
  · intro hs
    obtain ⟨n, hn, hsub, hagree⟩ := hag hs
    have htake : ∀ x ∈ recsOf (done.take n), x ∈ recsOf done := fun x hx => by
      obtain ⟨g, hg, hx⟩ := List.mem_flatMap.1 hx
      exact List.mem_flatMap.2 ⟨g, List.mem_of_mem_take hg, hx⟩
    have h1 : Agree last {r | r ∈ recsOf (done.take n)} current.content :=
      hagree.lower (fun x hx => hle x (htake x hx)) fun x hx => hle x (h.content x hx)
    have h2 := h1.union_tail hsub (N := {r | r ∈ recsOf replayed}) fun x hx y hy hyn => by
      have hyd := htake y hy
      rw [hdone] at hyd
      rcases List.mem_append.1 hyd with hy | hy
      · exact (seqAsc_append.1 hasc).2.2 y hy x hx
      · exact absurd hy hyn
    have hunion : {r | r ∈ recsOf done} =
        {r | r ∈ recsOf replayed} ∪ {r | r ∈ recsOf (done.take n)} := by
      ext x
      constructor
      · intro hx
        have hxd : x ∈ recsOf older ++ recsOf replayed := hdone ▸ hx
        rcases List.mem_append.1 hxd with hx | hx
        · right
          obtain ⟨g, hg, hx⟩ := List.mem_flatMap.1 hx
          refine List.mem_flatMap.2 ⟨g, ?_, hx⟩
          rw [hsplit, List.take_append, List.take_of_length_le hn]
          exact List.mem_append_left _ hg
        · exact .inl hx
      · rintro (hx | hx)
        · exact hmem x hx
        · exact htake x hx
    rw [Version.content_addFile, hret (hσ hs), hunion]
    exact h2.trans (agree_retained fun hf => nomatch hf)

end Install

section Compact
variable {visible : List Rec} {mem : Nat} {imm : Option Nat} {mems : Nat → MemTable}
  {current : Version} {c : Compaction} {outputs : List FileMetaData} {outs : List (List Rec)}

theorem recs_outputs (ho : List.Forall₂ (NewFile s) outputs outs) :
    outputs.map FileMetaData.recs = outs := by
  induction ho with
  | nil => rfl
  | cons h _ ih => rw [List.map_cons, h.recs, ih]

theorem newFile_of_mem (ho : List.Forall₂ (NewFile s) outputs outs) (hf : f ∈ outputs) :
    ∃ es ∈ outs, NewFile s f es := by
  induction ho with
  | nil => cases hf
  | cons h _ ih =>
    rcases List.mem_cons.1 hf with rfl | hf
    · exact ⟨_, List.mem_cons_self, h⟩
    · obtain ⟨es, hes, hn⟩ := ih hf
      exact ⟨es, List.mem_cons_of_mem _ hes, hn⟩

theorem outputsOk_of_newFiles (hp : Planned c outs) (ho : List.Forall₂ (NewFile s) outputs outs)
    (hd : (outputs.map FileMetaData.number).Nodup) : c.OutputsOk s.db.current outputs := by
  refine Planned.outputsOk (recs_outputs ho ▸ hp) (fun f hf => ?_) (fun f hf l g hg => ?_) hd
  · obtain ⟨_, _, hn⟩ := newFile_of_mem ho hf
    exact hn.ok
  · obtain ⟨_, _, hn⟩ := newFile_of_mem ho hf
    exact (hn.fresh l g hg).ne

theorem Layered.compact (h : Layered gh visible mem imm mems current) (hp : c.Picked current)
    (ho : c.OutputsOk current outputs) :
    Layered gh visible mem imm mems (c.install current outputs) :=
  { h with
    wf := hp.install_wf h.wf ho
    content := fun x hx => by
      have hx' : x ∈ {x | ∃ f ∈ outputs, x ∈ f.recs} ∪ Compaction.restOf current c := by
        rw [← hp.install_recs h.wf]
        exact hx
      rcases hx' with ⟨f, hf, hx⟩ | ⟨l, f, hf, _, hx⟩
      · obtain ⟨g, hg, hxg⟩ := ho.mem_inputs f hf x hx
        apply h.content
        rcases hp.input_level hg hxg with hl | hl
        · exact ⟨_, hl⟩
        · exact ⟨_, hl⟩
      · exact h.content x ⟨l, Version.mem_levelRecs.2 ⟨f, hf, hx⟩⟩ }

theorem Layered.inputs_distinct (h : Layered gh visible mem imm mems current) (ha : SeqAsc visible)
    (hp : c.Picked current) : Distinct c.inputRecs := by
  refine ha.distinct.mono ?_
  rintro x ⟨f, hf, hx⟩
  show x ∈ visible
  rw [h.split]
  apply List.mem_append_left
  rcases hp.input_level hf hx with hl | hl
  · exact h.content x ⟨_, hl⟩
  · exact h.content x ⟨_, hl⟩

end Compact

theorem Store.Serves.open {store : Store} {opened : List Table} {t : Table} {M : Nat → MemTable}
    (h : store.Serves (· ∈ opened) M) (hn : ∀ t' ∈ opened, t'.number ≠ t.number) :
    store.Serves (· ∈ opened ++ [t]) M := by
  have hT : (fun t' => t' ∈ opened ∨ t' = t) = (· ∈ opened ++ [t]) := by
    funext t'
    rw [List.mem_append, List.mem_singleton]
  exact hT ▸ h.add t hn

theorem CapOk.open (h : CapOk opened mems visible mem nextMem last c) (t : Table) :
    CapOk (opened ++ [t]) mems visible mem nextMem last c :=
  { h with tables := fun t' ht => List.mem_append_left _ (h.tables t' ht) }

theorem NewFile.open (h : NewFile s f es) (t : Table) :
    NewFile { s with opened := s.opened ++ [t], jobs := jobs } f es :=
  ⟨h.ok, h.recs, List.mem_append_left _ h.opened, h.sst, h.fresh⟩

namespace Sound

theorem job_ok (h : Sound σ gh s) (hj : s.jobs = [j]) : JobOk σ gh.floor s j := by
  rcases h.jobs with ⟨hn, _⟩ | ⟨j', hj', hok⟩
  · rw [hn] at hj
    cases hj
  · rw [hj] at hj'
    cases hj'
    exact hok

theorem next_job (h : Sound σ gh s) (hj : JobOk σ gh.floor s j) :
    Sound σ gh { s with jobs := [j] } :=
  { h with jobs := .inr ⟨j, rfl, hj.frame (.of_eq rfl rfl rfl rfl (fun _ => rfl) fun _ _ => rfl)⟩ }

/-- A job opens the table it has written. -/
theorem open_table (h : Sound σ gh s) (hn : NewNumber s t.number) (ht : t.Good)
    (hj : JobOk σ gh.floor { s with opened := s.opened ++ [t], jobs := [j] } j) :
    Sound σ gh { s with opened := s.opened ++ [t], jobs := [j] } :=
  { h with
    tables := {
      good := fun t' ht' => by
        rcases List.mem_append.1 ht' with ht' | ht'
        · exact h.tables.good t' ht'
        · exact List.mem_singleton.1 ht' ▸ ht
      nodup := by
        rw [List.map_append, List.nodup_append]
        refine ⟨h.tables.nodup, List.nodup_singleton _, fun n hm n' hm' => ?_⟩
        obtain ⟨t', ht', rfl⟩ := List.mem_map.1 hm
        rw [List.map_singleton, List.mem_singleton] at hm'
        exact hm' ▸ (hn.2 t' ht').ne
      number_lt := fun t' ht' => by
        rcases List.mem_append.1 ht' with ht' | ht'
        · exact h.tables.number_lt t' ht'
        · exact List.mem_singleton.1 ht' ▸ hn.1
      serves := h.tables.serves.open fun t' ht' => (hn.2 t' ht').ne
      live := fun l f hf => ⟨List.mem_append_left _ (h.tables.live l f hf).1,
        (h.tables.live l f hf).2⟩
      names := h.tables.names }
    jobs := .inr ⟨j, rfl, hj⟩
    gets := fun c hc => ⟨(h.gets c hc).1.open t, (h.gets c hc).2⟩ }

theorem new_file (h : Sound σ gh s) (hn : NewNumber s n) (hsst : SstHolds s.fs n es)
    (ha : Ascending Rec.pos es) (options : Options) :
    ∃ t, s.openJobTable n = .ok t ∧ t.number = n ∧ t.Good ∧ ∀ jobs,
      NewFile { s with opened := s.opened ++ [t], jobs := jobs }
        (Sys.metaOf n (built options es) t) es := by
  obtain ⟨t, ht, htn, hg, hr⟩ := hsst.openTable ha s.db.path s.db.options
  obtain ⟨R, hwf⟩ := h.wf
  refine ⟨t, ht, htn, hg, fun jobs => ⟨metaOf_ok options htn hg hr, hr,
    List.mem_append_right _ List.mem_cons_self, hsst, fun l g hm => ?_⟩⟩
  obtain ⟨t', ht', hn'⟩ := FileMetaData.number_mem h.tables hwf hm
  show g.number < n
  exact hn' ▸ hn.2 t' ht'

theorem phase_flushOpen (h : Sound σ gh s) (hc : s.db.committing = false) (hf : Flushing σ s es)
    (hfit : TableFits s.db.options es) (hn : NewNumber s n)
    (hw : s.fs.read (.sst n) = some (tableFile s.db.options es))
    (hs : s.phaseStep order (.flushOpen n (built s.db.options es)) = some (t, next)) :
    ∃ j, next = some j ∧ Sound σ gh { t with jobs := [j] } := by
  have ha : Ascending Rec.pos es := by
    obtain ⟨imm, S, hi, _, _, _, rfl⟩ := hf
    exact (h.imm_asc hi).sublist (keepFrom_sublist _ _ _ _)
  obtain ⟨tb, ht, htn, hg, hnew⟩ := h.new_file hn ⟨_, hfit, hw⟩ ha s.db.options
  simp only [Sys.phaseStep, ht] at hs
  cases hs
  exact ⟨_, rfl, h.open_table (htn ▸ hn) hg (.flushInstall hc hf (hnew _))⟩

theorem phase_compactOpen (h : Sound σ gh s) (hc : s.db.committing = false)
    (hcp : Compacting σ gh.floor s c) (hp : Planned c (outs ++ es :: rest))
    (ho : List.Forall₂ (NewFile s) outputs outs) (hd : (outputs.map FileMetaData.number).Nodup)
    (hfit : TableFits s.db.options es) (hn : NewNumber s n)
    (hw : s.fs.read (.sst n) = some (tableFile s.db.options es))
    (hs : s.phaseStep order (.compactOpen c n (built s.db.options es)
      (rest.map (built s.db.options)) outputs) = some (t, next)) :
    ∃ j, next = some j ∧ Sound σ gh { t with jobs := [j] } := by
  have ha : Ascending Rec.pos es := (hp.run es (by simp)).2
  obtain ⟨tb, ht, htn, hg, hnew⟩ := h.new_file hn ⟨_, hfit, hw⟩ ha s.db.options
  simp only [Sys.phaseStep, ht] at hs
  cases hs
  refine ⟨_, rfl, h.open_table (htn ▸ hn) hg (@JobOk.compactNext _ _ _ c (outs ++ [es]) _ _ hc
    ⟨hcp.running, hcp.picked, hcp.floor_le, hcp.smallest, hcp.below⟩ ?_ ?_ ?_)⟩
  · rw [List.append_assoc]
    exact hp
  · exact List.rel_append (ho.imp fun _ _ hf => hf.open tb) (.cons (hnew _) .nil)
  · rw [List.map_append, List.nodup_append]
    refine ⟨hd, List.nodup_singleton _, fun m hm m' hm' => ?_⟩
    obtain ⟨f, hf, rfl⟩ := List.mem_map.1 hm
    obtain ⟨_, _, hnf⟩ := newFile_of_mem ho hf
    rw [List.map_singleton, List.mem_singleton] at hm'
    exact hm' ▸ hnf.ne_number hn

end Sound

theorem NewFile.live (h : NewFile s f es) : f.table ∈ s.opened ∧ SstHolds s.fs f.number f.recs :=
  ⟨h.opened, h.recs ▸ h.sst⟩

theorem not_isManifest (h : ¬ IsManifest name) (m : Manifest) :
    ∀ op ∈ writeManifest m, name ∉ op.names :=
  names_writeManifest m (fun he => h (.inl he)) fun he => h (.inr he)

theorem mem_isObsolete {order : List FileName} {op : Io}
    (h : op ∈ (order.filter (isObsolete v log)).map Io.unlink) :
    ∃ name, op = .unlink name ∧ isObsolete v log name = true := by
  obtain ⟨name, hn, rfl⟩ := List.mem_map.1 h
  exact ⟨name, rfl, (List.mem_filter.1 hn).2⟩

/-- The records once a flush is installed; that of `Recover` covers all that is done. -/
def Ghost.install (gh : Ghost) (s : Sys) : Ghost :=
  if s.mode = .opening then ⟨s.db.lastSequence, recsOf s.done, [], []⟩ else gh.flush

def Ghost.afterPhase (gh : Ghost) (s : Sys) : Phase → Ghost
  | .flushInstall _ => gh.install s
  | _ => gh

namespace Sound

/-- A job makes its version the current one and begins to write the manifest. -/
theorem commitBegin {version : Version} {imm : Option Nat} (h : Sound σ gh s) (gh' : Ghost)
    (hrot : s.rotating = none) (himm : ∀ id, imm = some id → s.db.imm = some id)
    (himmLog : imm ≠ none → immLog = s.db.immLogNumber)
    (hi : s.mode = .opening → imm = none)
    (hfiles : ∀ l, ∀ f ∈ version.levels l, f.table ∈ s.opened ∧ SstHolds s.fs f.number f.recs)
    (hpins : Pins gh'.floor s.db.lastSequence s.db.snapshots)
    (hlay : Layered gh' s.visible s.db.mem imm s.store.mems version)
    (hcov : σ → Agree s.db.smallestSnapshot {r | r ∈ gh'.flushed} version.content)
    (hlog : log ≤ s.db.logNumber) (m : Manifest) :
    Sound σ gh' { s with
      db := { s.db with imm := imm, immLogNumber := immLog, committing := true, current := version }
      jobs := [⟨writeManifest m, .cleanup version log .commitDone⟩] } :=
  { h with
    ids := { h.ids with imm_lt := fun id hid => h.ids.imm_lt id (himm id hid) }
    tables := { h.tables with live := hfiles }
    imm_log := fun hne => by
      obtain ⟨id, hid⟩ := Option.ne_none_iff_exists'.1 hne
      show immLog ≤ _
      rw [himmLog hne]
      exact h.imm_log (by rw [himm id hid]; exact Option.some_ne_none id)
    pins := hpins
    layered := fun _ => hlay
    covers := fun _ => hcov
    replaying := fun ho id hid => by
      have hc := (hi ho).symm.trans hid
      cases hc
    rotating := fun r hr => by
      have hc := hrot.symm.trans hr
      cases hc
    jobs := .inr ⟨_, rfl, .commit rfl hi hlog fun name hn => not_isManifest hn m⟩ }

theorem phase_flushInstall (h : Sound σ gh s) (hc : s.db.committing = false)
    (hf : Flushing σ s es) (hn : NewFile s f es)
    (hs : s.phaseStep order (.flushInstall f) = some (t, next)) :
    ∃ j, next = some j ∧ Sound σ (gh.install s) { t with jobs := [j] } := by
  simp only [Sys.phaseStep, Sys.commitVersion, hc] at hs
  split at hs
  · rename_i hu
    have hrot := (Sys.unlocked_iff.1 hu).2
    cases hs
    obtain ⟨imm, S, hi, hS, hσ, hop, hes⟩ := hf
    have hfiles : ∀ l, ∀ g ∈ (s.db.current.addFile f).levels l,
        g.table ∈ s.opened ∧ SstHolds s.fs g.number g.recs := by
      intro l g hg
      rcases Version.mem_addFile hg with rfl | hg
      · exact hn.live
      · exact h.tables.live l g hg
    by_cases ho : s.mode = .opening
    · obtain rfl := hop ho
      obtain ⟨hlead, _, _, hsn, _⟩ := h.opening ho
      have hlog := h.logged
      rw [hlead] at hlog
      obtain ⟨hlay, hag⟩ := (h.replaying ho imm hi).flush hlog hn.ok (hn.recs.trans hes) hn.fresh hσ
      have hvis : s.visible = recsOf s.done := by simp [Sys.visible, hlead]
      rw [Ghost.install, if_pos ho]
      refine ⟨_, rfl, h.commitBegin _ hrot (by rintro _ ⟨⟩) (fun hne => absurd rfl hne)
        (fun _ => rfl) hfiles ⟨le_rfl, fun sn hm => ?_⟩ (by rw [hvis]; exact hlay) ?_ le_rfl _⟩
      · rw [hsn] at hm
        cases hm
      · rw [h.smallest_opening ho]
        exact hag
    · have hno : s.mode = .opening → s.db.imm = none := fun hc => absurd hc ho
      have hlay := h.layered hno
      rw [hi] at hlay
      have hok : ∀ r ∈ s.visible, r.Ok := fun r hr => (h.logged.mem_visible hr).1
      rw [Ghost.install, if_neg ho]
      refine ⟨_, rfl, h.commitBegin gh.flush hrot (by rintro _ ⟨⟩)
        (fun hne => absurd rfl hne) (fun _ => rfl) hfiles h.pins
        (hlay.flush h.logged.seqAsc hok hn.ok hn.recs (hes ▸ keepFrom_sublist _ _ _ _) hn.fresh)
        (fun hs => ?_) le_rfl _⟩
      exact hlay.flush_agree h.logged.seqAsc hok (hn.recs.trans hes) (hσ hs) hS (h.covers hno hs)
  · cases hs

theorem phase_compactMerge (h : Sound σ gh s) (hc : s.db.committing = false)
    (hcp : Compacting σ gh.floor s c)
    (hs : s.phaseStep order (.compactMerge c) = some (t, next)) :
    ∃ j, next = some j ∧ Sound σ gh { t with jobs := [j] } := by
  have hlay := h.layered fun ho => by simp [hcp.running] at ho
  have hd := hlay.inputs_distinct h.logged.seqAsc hcp.picked
  have hin : ∀ f ∈ c.inputs, f.table ∈ s.opened := fun f hf => by
    rcases hcp.picked.mem_inputs hf with hl | hl
    · exact (h.tables.live _ f hl).1
    · exact (h.tables.live _ f hl).1
  obtain ⟨hres, hserve⟩ := (Compaction.merge_ensures h.tables.tablesOk hin
    fun f hf => h.tables.good _ (hin f hf)) s.store h.tables.serves
  obtain ⟨outs, hloop, hflat, hrun, hord⟩ :=
    hcp.picked.exists_outputs hlay.wf hd hcp.floor_le s.db.options c.bottomMost
  simp only [Sys.phaseStep] at hs
  generalize c.merge.run s.store = p at hs hres hserve
  obtain ⟨⟨recs, status⟩, store⟩ := p
  cases hres
  cases hs
  have hst := h.store_step hserve
  refine ⟨_, rfl, hst.next_job ?_⟩
  rw [hloop]
  exact @JobOk.compactNext _ _ _ c [] outs [] hc
    ⟨hcp.running, hcp.picked, hcp.floor_le, hcp.smallest, hcp.below⟩ ⟨hflat, hrun, hord⟩ .nil .nil

end Sound

namespace Sound

theorem phase_compactInstall (h : Sound σ gh s) (hc : s.db.committing = false)
    (hcp : Compacting σ gh.floor s c) (hp : Planned c outs)
    (ho : List.Forall₂ (NewFile s) outputs outs) (hd : (outputs.map FileMetaData.number).Nodup)
    (hs : s.phaseStep order (.compactNext c [] outputs) = some (t, next)) :
    ∃ j, next = some j ∧ Sound σ gh { t with jobs := [j] } := by
  simp only [Sys.phaseStep, Sys.commitVersion, hc] at hs
  split at hs
  · rename_i hu
    have hrot := (Sys.unlocked_iff.1 hu).2
    cases hs
    have hmo : s.mode ≠ .opening := by simp [hcp.running]
    have hno : s.mode = .opening → s.db.imm = none := fun hc => absurd hc hmo
    have hlay := h.layered hno
    have hout := outputsOk_of_newFiles hp ho hd
    refine ⟨_, rfl, h.commitBegin _ hrot (fun _ hi => hi) (fun _ => rfl) hno
      (fun l f hf => ?_) h.pins (hlay.compact hcp.picked hout) (fun hs => ?_) ?_ _⟩
    · rcases hcp.picked.mem_install hlay.wf hf with ⟨hf, _⟩ | ⟨_, hf⟩
      · exact h.tables.live l f hf
      · obtain ⟨_, _, hn⟩ := newFile_of_mem ho hf
        exact hn.live
    · have hdist := hlay.inputs_distinct h.logged.seqAsc hcp.picked
      have hag := (recs_outputs ho ▸ hp).install_agree hcp.picked hlay.wf hdist (hcp.below hs)
      exact (h.covers hno hs).trans (hag.mono hcp.smallest)
    · simp only [Db.oldestLiveLog]
      split
      · rename_i hi
        exact h.imm_log (Option.isSome_iff_ne_none.1 hi)
      · exact le_rfl
  · cases hs

theorem phase_compactNext (h : Sound σ gh s) (hc : s.db.committing = false)
    (hcp : Compacting σ gh.floor s c) (hp : Planned c (outs ++ es :: rest))
    (ho : List.Forall₂ (NewFile s) outputs outs) (hd : (outputs.map FileMetaData.number).Nodup)
    (hs : s.phaseStep order (.compactNext c (built s.db.options es :: rest.map (built s.db.options))
      outputs) = some (t, next))
    (hfit : ∀ j, next = some j → Sys.Fits { t with jobs := [j] }) :
    ∃ j, next = some j ∧ Sound σ gh { t with jobs := [j] } := by
  simp only [Sys.phaseStep] at hs
  split at hs
  · cases hs
    have hnew : s.fs.read (.sst s.db.nextFileNumber) = none := h.tables.fresh rfl le_rfl
    refine ⟨_, rfl, { h with
      tables := h.tables.frame (fun _ _ _ => rfl) (Nat.le_succ _) fun _ hn => .inl hn
      log_lt := h.log_lt.trans (Nat.lt_succ_self _)
      rotating := fun r hr =>
        have hro := h.rotating r hr
        { hro with number_lt := hro.number_lt.trans (Nat.lt_succ_self _) }
      jobs := .inr ⟨_, rfl, .compactOpen hc ?_ hp ?_ hd ?_ ?_ (writing_writeTable hnew _)⟩ }⟩
    · exact ⟨hcp.running, hcp.picked, hcp.floor_le, hcp.smallest, hcp.below⟩
    · exact ho.imp fun f es hf => ⟨hf.ok, hf.recs, hf.opened, hf.sst, hf.fresh⟩
    · exact (hfit _ rfl).table _ List.mem_cons_self _ rfl _ rfl
    · exact ⟨Nat.lt_succ_self _, h.tables.number_lt⟩
  · cases hs

theorem phase_commitDone (h : Sound σ gh s)
    (hs : s.phaseStep order .commitDone = some (t, next)) :
    next = none ∧ Sound σ gh { t with jobs := [] } := by
  simp only [Sys.phaseStep] at hs
  split at hs
  · cases hs
    exact ⟨rfl, { h with jobs := .inl ⟨rfl, rfl⟩ }⟩
  · cases hs

theorem phase_logOpened (h : Sound σ gh s) (hc : s.db.committing = false)
    (hm : s.mode = .opening) (hi : s.db.imm = none) (hn : n < s.db.nextFileNumber)
    (hs : s.phaseStep order (.logOpened n) = some (t, next)) :
    ∃ j, next = some j ∧ Sound σ gh { t with jobs := [j] } := by
  cases hs
  exact ⟨_, rfl, { h with
    log_lt := hn
    imm_log := fun hne => absurd hi hne
    rotating := fun r hr => by
      have hc := (h.opening hm).2.2.1.symm.trans hr
      cases hc
    jobs := .inr ⟨_, rfl, .recoverCommit hc hm hi fun name hn => not_isManifest hn _⟩ }⟩

theorem phase_recovered (h : Sound σ gh s) (hc : s.db.committing = false) (hi : s.db.imm = none)
    (hs : s.phaseStep order .recovered = some (t, next)) :
    next = none ∧ Sound σ gh { t with jobs := [] } := by
  cases hs
  exact ⟨rfl, { h with
    is_open := by simp
    layered := fun _ => h.layered fun _ => hi
    covers := fun _ => h.covers fun _ => hi
    replaying := fun ho => nomatch ho
    jobs := .inl ⟨rfl, hc⟩
    opening := fun ho => nomatch ho }⟩

/-- The job in flight, its system calls made, takes its next step. -/
theorem job_phase (h : Sound σ gh s) (hj : s.jobs = [⟨[], phase⟩])
    (hs : s.phaseStep order phase = some (t, next))
    (hfit : ∀ j, next = some j → Sys.Fits { t with jobs := [j] }) :
    Sound σ (gh.afterPhase s phase) { t with jobs := next.toList } := by
  have some_next : ∀ {gh'}, (∃ j, next = some j ∧ Sound σ gh' { t with jobs := [j] }) →
      Sound σ gh' { t with jobs := next.toList } := by
    rintro gh' ⟨j, rfl, hj⟩
    exact hj
  generalize hjob : (⟨[], phase⟩ : Job) = j at hj
  cases h.job_ok hj with
  | flushOpen hc hf hfit hn hw =>
    cases hjob
    exact some_next (h.phase_flushOpen hc hf hfit hn hw.done hs)
  | flushInstall hc hf hn =>
    cases hjob
    exact some_next (h.phase_flushInstall hc hf hn hs)
  | compactMerge hc hcp =>
    cases hjob
    exact some_next (h.phase_compactMerge hc hcp hs)
  | @compactNext c outs rest outputs hc hcp hp ho hd =>
    cases hjob
    cases rest with
    | nil => exact some_next (h.phase_compactInstall hc hcp (List.append_nil outs ▸ hp) ho hd hs)
    | cons es rest => exact some_next (h.phase_compactNext hc hcp hp ho hd hs hfit)
  | compactOpen hc hcp hp ho hd hfit hn hw =>
    cases hjob
    exact some_next (h.phase_compactOpen hc hcp hp ho hd hfit hn hw.done hs)
  | commit hc hi hlog hio =>
    cases hjob
    simp only [Sys.phaseStep] at hs
    split at hs
    · cases hs
      exact h.next_job (.commitDone hc hi hlog fun op ho => mem_isObsolete ho)
    · cases hs
  | commitDone hc hi hlog hio =>
    cases hjob
    obtain ⟨rfl, hok⟩ := h.phase_commitDone hs
    exact hok
  | logOpened hc hm hi hn hio =>
    cases hjob
    exact some_next (h.phase_logOpened hc hm hi hn hs)
  | recoverCommit hc hm hi hio =>
    cases hjob
    simp only [Sys.phaseStep] at hs
    split at hs
    · cases hs
      exact h.next_job (.recovered hc hm hi fun op ho => mem_isObsolete ho)
    · cases hs
  | recovered hc hm hi hio =>
    cases hjob
    obtain ⟨rfl, hok⟩ := h.phase_recovered hc hi hs
    exact hok

end Sound

theorem Logged.fail (h : Logged fine done hist last lead) {fine' : Prop} (hf : fine' → fine) :
    Logged fine' done hist last lead :=
  { h with idle := fun hl hfine => h.idle hl (hf hfine) }

namespace Sound

theorem jobs_index (h : Sound σ gh s) (hj : s.jobs[i]? = some j) : i = 0 ∧ s.jobs = [j] := by
  rcases h.jobs with ⟨hn, _⟩ | ⟨j', hj', _⟩
  · rw [hn] at hj
    cases hj
  · rw [hj'] at hj ⊢
    cases i with
    | zero => exact ⟨rfl, by rw [Option.some.inj hj]⟩
    | succ i => cases hj

/-- A phase keeps the list of jobs, unless it fails and ends `Recover`. -/
theorem phaseStep_jobs (hs : s.phaseStep order phase = some (t, next)) :
    t.jobs = s.jobs ∨ t.mode = .closed ∧ next = none := by
  have hfail : ∀ (s : Sys) status, (s.fail status).jobs = s.jobs ∨
      (s.fail status).mode = .closed := by
    intro s status
    rw [Sys.fail]
    split
    · exact .inr rfl
    · exact .inl rfl
  have hcommit : ∀ (s : Sys) v, (s.commitVersion v).1.jobs = s.jobs := by
    intro s v
    rw [Sys.commitVersion]
    split <;> rfl
  cases phase with
  | flushOpen n b =>
    rw [Sys.phaseStep] at hs
    split at hs <;> cases hs
    · exact (hfail _ _).imp id fun hm => ⟨hm, rfl⟩
    · exact .inl rfl
  | flushInstall f =>
    rw [Sys.phaseStep] at hs
    split at hs
    · obtain ⟨rfl, _⟩ := Prod.ext_iff.1 (Option.some.inj hs)
      exact .inl (hcommit _ _)
    · cases hs
  | compactMerge c =>
    simp only [Sys.phaseStep] at hs
    generalize c.merge.run s.store = p at hs
    obtain ⟨⟨recs, status⟩, store⟩ := p
    dsimp only at hs
    split at hs <;> cases hs
    · exact .inl rfl
    · exact (hfail _ _).imp id fun hm => ⟨hm, rfl⟩
  | compactNext c todo outputs =>
    cases todo with
    | nil =>
      rw [Sys.phaseStep] at hs
      split at hs
      · obtain ⟨rfl, _⟩ := Prod.ext_iff.1 (Option.some.inj hs)
        exact .inl (hcommit _ _)
      · cases hs
    | cons b todo =>
      rw [Sys.phaseStep] at hs
      split at hs <;> cases hs
      exact .inl rfl
  | compactOpen c n b todo outputs =>
    rw [Sys.phaseStep] at hs
    split at hs <;> cases hs
    · exact (hfail _ _).imp id fun hm => ⟨hm, rfl⟩
    · exact .inl rfl
  | commitWait v =>
    rw [Sys.phaseStep] at hs
    split at hs <;> cases hs
    exact .inl rfl
  | cleanup v l p =>
    rw [Sys.phaseStep] at hs
    split at hs <;> cases hs
    exact .inl rfl
  | commitDone =>
    rw [Sys.phaseStep] at hs
    split at hs <;> cases hs
    exact .inl rfl
  | logOpened n =>
    cases hs
    exact .inl rfl
  | recovered =>
    cases hs
    exact .inl rfl

theorem setJob_singleton (j : Job) (next : Option Job) : Sys.setJob [j] 0 next = next.toList := by
  cases next <;> rfl

theorem jobStep (h : Sound σ gh s) (hs : s.jobStep i n order = some s') (hfit : s'.Fits) :
    ∃ gh', Sound σ gh' s' := by
  obtain ⟨j, hj, hcase⟩ := Sys.jobStep_cases hs
  obtain ⟨rfl, hjobs⟩ := h.jobs_index hj
  rcases hcase with ⟨hio, t, next, hp, rfl⟩ | ⟨fs, io, hio, rfl⟩
  · obtain ⟨io, phase⟩ := j
    cases hio
    rcases phaseStep_jobs hp with hjt | ⟨hmode, rfl⟩
    · rw [hjt, hjobs, setJob_singleton] at hfit ⊢
      refine ⟨_, h.job_phase hjobs hp fun j hj => ?_⟩
      rw [hj] at hfit
      exact hfit
    · have hok := h.job_phase hjobs hp fun j hj => nomatch hj
      exact absurd hmode hok.is_open
  · refine ⟨gh, ?_⟩
    rw [hjobs]
    exact h.job_io hjobs hio

end Sound

theorem read_failCall (h : Sys.failCall n fs io = some fs') (hn : ∀ op ∈ io, name ∉ op.names) :
    fs'.read name = fs.read name := by
  rw [Sys.failCall] at h
  split at h
  · cases h
    rfl
  · exact read_failIo h hn

theorem read_abandon (hne : name ≠ .sst number) (fs : DbFs) (io : List Io) :
    (Sys.abandon number fs io).read name = fs.read name := by
  rw [Sys.abandon.eq_def]
  split
  · rfl
  · rfl
  · rw [Fs.read_unlink, if_neg hne]

namespace Sound

theorem end_job (h : Sound σ gh s) (hm : s.mode ≠ .opening) (hrot : s.rotating = none)
    (hc : committing = false)
    (hlive : ∀ l, ∀ f ∈ s.db.current.levels l, fs.read (.sst f.number) = s.fs.read (.sst f.number))
    (hnames : ∀ name ∈ fs.names, name ∈ s.fs.names ∨
      ∀ n, Sys.numberOf name = some n → n < s.db.nextFileNumber) (what : String) :
    Sound σ gh { s with
      fs := fs
      db := { s.db with bgError := .ioError what, committing := committing }
      jobs := [] } :=
  { h with
    logged := h.logged.fail fun hf => nomatch hf
    tables := h.tables.frame hlive le_rfl hnames
    rotating := fun r hr => by
      have hcon := hrot.symm.trans hr
      cases hcon
    jobs := .inl ⟨rfl, hc⟩
    opening := fun ho => absurd ho hm }

theorem end_table (h : Sound σ gh s) (hm : s.mode ≠ .opening) (hrot : s.rotating = none)
    (hc : s.db.committing = false) (hn : NewNumber s n)
    (hf : ∀ name, name ≠ .sst n → fs.read name = s.fs.read name) (what : String) :
    Sound σ gh { s with fs := fs, db := { s.db with bgError := .ioError what }, jobs := [] } := by
  obtain ⟨R, hwf⟩ := h.wf
  refine h.end_job hm hrot hc (fun l f hl => hf _ ?_) (names_of_read hf ?_) what
  · simpa using hn.ne h.tables hwf l f hl
  · rintro _ ⟨⟩
    exact hn.1

theorem end_manifest (h : Sound σ gh s) (hm : s.mode ≠ .opening) (hrot : s.rotating = none)
    (hf : ∀ name, ¬ IsManifest name → fs.read name = s.fs.read name) (what : String) :
    Sound σ gh { s with
      fs := fs, db := { s.db with committing := false, bgError := .ioError what },
        jobs := [] } := by
  refine h.end_job hm hrot rfl (fun _ _ _ => hf _ (by simp [IsManifest])) (fun name hn => ?_) what
  by_cases hmn : IsManifest name
  · right
    rcases hmn with rfl | rfl <;> exact fun _ hc => nomatch hc
  · rw [Fs.mem_names, hf name hmn] at hn
    exact .inl (Fs.mem_names.2 hn)

theorem failPhase_opening (hm : s.mode = .opening) (hs : s.failPhase io phase = some t) :
    t.mode = .closed := by
  have hfail : ∀ (s : Sys) status, s.mode = .opening → (s.fail status).mode = .closed := by
    intro s status hm
    rw [Sys.fail, if_pos hm]
  rw [Sys.failPhase.eq_def] at hs
  split at hs
  · cases hs
    exact hfail _ _ hm
  · cases hs
    exact hfail _ _ hm
  · split at hs <;> cases hs
    exact hfail _ _ hm
  · split at hs <;> cases hs
    exact hfail _ _ hm
  · split at hs <;> cases hs
    exact hfail _ _ hm
  · cases hs

/-- A failed job stops the background work, or `Recover`. -/
theorem failJob (h : Sound σ gh s) (hs : s.failJob i n = some s') :
    Sound σ gh s' ∨ s'.mode = .closed := by
  obtain ⟨j, fs, t, hj, _, hrot, hcall, ht, rfl⟩ := Sys.failJob_cases hs
  obtain ⟨rfl, hjobs⟩ := h.jobs_index hj
  by_cases hm : s.mode = .opening
  · have hm' : ({ s with fs := fs } : Sys).mode = .opening := hm
    have hclosed : t.mode = .closed := failPhase_opening hm' ht
    exact .inr hclosed
  · left
    have hfail : ∀ (fs : DbFs) db status, ({ s with fs := fs, db := db } : Sys).fail status =
        { s with fs := fs, db := { db with bgError := status } } := fun fs db status => if_neg hm
    cases h.job_ok hjobs with
    | flushOpen hc hf hfit hn hw =>
      obtain rfl := (Option.some.inj ht).symm.trans (hfail _ _ _)
      simp only [hjobs]
      exact h.end_table hm hrot hc hn (fun name hne => (read_abandon hne _ _).trans
        (read_failCall hcall (hw.names hne))) _
    | flushInstall hc hf hn => cases ht
    | compactMerge hc hcp => cases ht
    | compactNext hc hcp hp ho hd => cases ht
    | compactOpen hc hcp hp ho hd hfit hn hw =>
      obtain rfl := (Option.some.inj ht).symm.trans (hfail _ _ _)
      simp only [hjobs]
      exact h.end_table hm hrot hc hn (fun name hne => (read_abandon hne _ _).trans
        (read_failCall hcall (hw.names hne))) _
    | commit hc hi hlog hio =>
      rw [Sys.failPhase] at ht
      split at ht
      · cases ht
      · obtain rfl := (Option.some.inj ht).symm.trans (hfail _ _ _)
        simp only [hjobs]
        exact h.end_manifest hm hrot (fun name hn => read_failCall hcall (hio name hn)) _
    | commitDone hc hi hlog hio => cases ht
    | logOpened hc hm' hi hn hio => exact absurd hm' hm
    | recoverCommit hc hm' hi hio => exact absurd hm' hm
    | recovered hc hm' hi hio => exact absurd hm' hm

end Sound

/-- Every step of an open process keeps the invariant, but for a job whose system call fails. -/
theorem Sound.step_ok (h : Sound σ gh s) (hs : LsmKv.step s a = some s') (ha : a.internal)
    (hfit : s'.Fits)
    (hjob : a.startsJob → s.jobs = [] ∧ (σ → s.db.smallestSnapshot < kMaxSequenceNumber))
    (hscan : a.movesScan → s'.store.Serves (· ∈ s.opened) s.store.mems)
    (hok : ∀ i n, a ≠ .failJob i n) : ∃ gh', Sound σ gh' s' := by
  cases a with
  | write id entries sync => exact ⟨gh, h.write hs⟩
  | rotate byFlush => exact ⟨gh, h.rotate hs⟩
  | rotateIo n => exact ⟨gh, h.rotateIo hs⟩
  | rotateSwap => exact ⟨gh.freeze, h.rotateSwap hs⟩
  | begin elapsed => exact ⟨gh, h.begin hs hfit⟩
  | append n => exact ⟨gh, h.append hs⟩
  | syncLog => exact ⟨gh, h.syncLog hs⟩
  | insert =>
    obtain ⟨r, hr⟩ := h.insert hs
    exact ⟨gh.insert r, hr⟩
  | finish => exact ⟨gh, h.finish hs⟩
  | getSnapshot => exact ⟨gh, h.getSnapshot hs⟩
  | releaseSnapshot handle => exact ⟨gh, h.releaseSnapshot hs⟩
  | getBegin id key snapshot => exact ⟨gh, h.getBegin hs hfit⟩
  | getEnd id => exact ⟨gh, h.getEnd hs⟩
  | newIterator id snapshot => exact ⟨gh, h.newIterator hs⟩
  | seekToFirst id =>
    have hmove : s.moveScan id true DBIter.seekToFirst = some s' := hs
    exact ⟨gh, h.moveScan hmove (hscan trivial)⟩
  | seek id target =>
    have hmove : s.moveScan id true (DBIter.seek · target) = some s' := hs
    exact ⟨gh, h.moveScan hmove (hscan trivial)⟩
  | next id =>
    obtain ⟨_, _, _, _, hmove⟩ := Sys.next_cases hs
    exact ⟨gh, h.moveScan hmove (hscan trivial)⟩
  | startFlush => exact ⟨gh, h.startFlush hs (hjob trivial).1 hfit (hjob trivial).2⟩
  | startCompaction level => exact ⟨gh, h.startCompaction hs (hjob trivial).1 (hjob trivial).2⟩
  | startLog => exact ⟨gh, h.startLog hs⟩
  | job i n order => exact h.jobStep hs hfit
  | failAppend n => exact ⟨gh, h.failAppend hs⟩
  | failSync => exact ⟨gh, h.failSync hs⟩
  | failRotate n => exact ⟨gh, h.failRotate hs⟩
  | failJob i n => exact absurd rfl (hok i n)
  | kill => cases ha
  | recover options path => cases ha
  | powerLoss keep cut => cases ha
  | powerLossData cut => cases ha

/-- Every step of an open process keeps the invariant, or ends a `Recover` that failed. -/
theorem Sound.step (h : Sound σ gh s) (hs : LsmKv.step s a = some s') (ha : a.internal)
    (hfit : s'.Fits)
    (hjob : a.startsJob → s.jobs = [] ∧ (σ → s.db.smallestSnapshot < kMaxSequenceNumber))
    (hscan : a.movesScan → s'.store.Serves (· ∈ s.opened) s.store.mems) :
    (∃ gh', Sound σ gh' s') ∨ s'.mode = .closed := by
  by_cases hf : ∃ i n, a = .failJob i n
  · obtain ⟨i, n, rfl⟩ := hf
    exact (h.failJob hs).imp (fun h => ⟨gh, h⟩) id
  · exact .inl (h.step_ok hs ha hfit hjob hscan fun i n he => hf ⟨i, n, he⟩)

end LsmKv
