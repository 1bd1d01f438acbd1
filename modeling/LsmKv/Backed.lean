import LsmKv.Stable

namespace LsmKv
set_option autoImplicit true

open Wal (Group)

variable {σ : Prop} {gh : Ghost} {s s' t : Sys} {m m' : Manifest} {logs : Nat → List Group}
  {fs fs' : DbFs}

theorem Committed.same (h : Committed fs m) (h' : Committed fs m') :
    m'.logNumber = m.logNumber ∧ m'.version.content = m.version.content := by
  obtain ⟨φ, hload, hφ⟩ := h.load {} ""
  obtain ⟨φ', hload', hφ'⟩ := h'.load {} ""
  have he := Except.ok.inj (hload'.symm.trans hload)
  rw [Manifest.mk.injEq] at he
  refine ⟨he.2.1, ?_⟩
  rw [← Version.content_mapFiles hφ, ← Version.content_mapFiles hφ', he.1]

theorem Committed.of_stat (h : Committed fs m) (hm : fs'.stat .manifest = fs.stat .manifest)
    (hs : ∀ n, Listed fs n → fs'.stat (.sst n) = fs.stat (.sst n)) : Committed fs' m := by
  refine h.frame ?_ fun l f hf => ?_
  · rw [Fs.read_eq_stat, Fs.read_eq_stat, hm]
  · rw [Fs.read_eq_stat, Fs.read_eq_stat, hs _ (h.listed hf)]

/-- The record of a group is complete in a log. -/
def Delivers (fs : DbFs) (k : Nat) (g : Group) : Prop :=
  ∃ (xs : List Group) (rest : Bytes), (∀ x ∈ xs, x.Fits) ∧
    fs.read (.log k) = some (Wal.fileHeader ++ (xs.flatMap Group.record ++ (g.record ++ rest)))

namespace Delivers

theorem of_image {gs : List Group} (h : Wal.Image gs bytes) (hr : fs.read (.log k) = some bytes)
    (hg : ∀ g ∈ gs, g.Fits) (hmem : g ∈ gs) : Delivers fs k g := by
  cases h with
  | header _ => cases hmem
  | @records tail _ ht =>
    obtain ⟨xs, ys, rfl⟩ := List.append_of_mem hmem
    refine ⟨xs, ys.flatMap Group.record ++ tail, fun x hx => hg x (by simp [hx]), ?_⟩
    rw [hr, List.flatMap_append, List.flatMap_cons]
    simp only [List.append_assoc]

theorem mem (h : Delivers fs k g) (hst : Stored fs logs N) (hg : ∀ x ∈ logs k, x.Fits)
    (hfit : g.Fits) :
    g ∈ logs k := by
  obtain ⟨xs, rest, hx, hr⟩ := h
  have hx' : ∀ x ∈ xs ++ [g], x.Fits := by
    intro x hmem
    rcases List.mem_append.1 hmem with hmem | hmem
    · exact hx x hmem
    · exact List.mem_singleton.1 hmem ▸ hfit
  have he : Wal.fileHeader ++ (xs.flatMap Group.record ++ (g.record ++ rest)) =
      Wal.fileHeader ++ ((xs ++ [g]).flatMap Group.record ++ rest) := by
    simp [List.flatMap_append]
  obtain ⟨zs, hzs⟩ := (hst.image k _ hr).covers hg hx' he
  rw [hzs]
  simp

theorem grow (h : Delivers fs k g)
    (hr : ∀ bytes, fs.read (.log k) = some bytes →
      ∃ more, fs'.read (.log k) = some (bytes ++ more)) :
    Delivers fs' k g := by
  obtain ⟨xs, rest, hx, hread⟩ := h
  obtain ⟨more, hmore⟩ := hr _ hread
  refine ⟨xs, rest ++ more, hx, hmore.trans ?_⟩
  simp only [List.append_assoc]

theorem of_read (h : Delivers fs k g) (hr : fs'.read (.log k) = fs.read (.log k)) :
    Delivers fs' k g :=
  h.grow fun bytes hb => ⟨[], by rw [hr, hb, List.append_nil]⟩

end Delivers

/-- The tables of a manifest hold the first `n` groups, and live logs those after them. -/
structure Covered (s : Sys) (m : Manifest) (n : Nat) : Prop where
  le : n ≤ s.done.length
  log_le : m.logNumber ≤ s.db.logNumber
  holds : Holds s.hist n m.version
  rest : ∀ g ∈ s.hist.drop n, ∃ k, m.logNumber ≤ k ∧ Delivers s.fs k g

theorem Covered.keep (h : Covered s m n) (hh : s'.hist = s.hist)
    (hd : s.done.length ≤ s'.done.length) (hl : s.db.logNumber ≤ s'.db.logNumber)
    (hr : ∀ k g, m.logNumber ≤ k → Delivers s.fs k g → Delivers s'.fs k g) : Covered s' m n where
  le := h.le.trans hd
  log_le := h.log_le.trans hl
  holds := hh ▸ h.holds
  rest g hg := by
    rw [hh] at hg
    obtain ⟨k, hk, hdel⟩ := h.rest g hg
    exact ⟨k, hk, hr k g hk hdel⟩

/-- The manifest on disk and the logs hold all groups; no table holds one that is not finished. -/
def Backed (s : Sys) : Prop := ∃ m n, Committed s.fs m ∧ Covered s m n

section Growth
variable {name : FileName} {io io' : List Io}

theorem OpeningLog.grows (h : OpeningLog fs number io) (hs : ioStep n fs io = some (fs', io'))
    (hb : fs.read name = some bytes) : ∃ more, fs'.read name = some (bytes ++ more) := by
  by_cases hn : name = .log number
  · subst hn
    rcases h with ⟨hr, _⟩ | ⟨w, rest, hr, _, rfl⟩ | ⟨_, rfl⟩
    · rw [hr] at hb
      cases hb
    · cases hr.symm.trans hb
      rcases ioStep_cases hs with ⟨op, he, rfl⟩ | ⟨nm, bs, rest', he, _, _, rfl, rfl⟩ <;> cases he
      · exact ⟨rest, by rw [Io.run, Fs.read_append, if_pos rfl, hr]; rfl⟩
      · exact ⟨rest.take n, by rw [Fs.read_append, if_pos rfl, hr]; rfl⟩
    · cases hs
  · exact ⟨[], by rw [read_ioStep hs (h.names hn), hb, List.append_nil]⟩

theorem OpeningLog.grows_fail (h : OpeningLog fs number io) (hs : Sys.failIo n fs io = some fs')
    (hb : fs.read name = some bytes) : ∃ more, fs'.read name = some (bytes ++ more) := by
  by_cases hn : name = .log number
  · subst hn
    rcases h with ⟨hr, _⟩ | ⟨w, rest, hr, _, rfl⟩ | ⟨_, rfl⟩
    · rw [hr] at hb
      cases hb
    · cases hr.symm.trans hb
      rw [Sys.failIo] at hs
      split at hs <;> cases hs
      exact ⟨rest.take n, by rw [Fs.read_append, if_pos rfl, hr]; rfl⟩
    · cases hs
  · exact ⟨[], by rw [read_failIo hs (h.names hn), hb, List.append_nil]⟩

theorem read_append_grows (fs : DbFs) (name : FileName) (bs : Bytes) (n : FileName)
    (hb : fs.read n = some bytes) : ∃ more, (fs.append name bs).read n = some (bytes ++ more) := by
  by_cases hn : n = name
  · subst hn
    exact ⟨bs, by rw [Fs.read_append, if_pos rfl, hb]; rfl⟩
  · exact ⟨[], by rw [Fs.read_append, if_neg hn, hb, List.append_nil]⟩

end Growth

/-- What a client's step leaves of the logs, and of what is finished. -/
structure LogsGrow (s s' : Sys) : Prop where
  done : s.done.length ≤ s'.done.length
  number : s.db.logNumber ≤ s'.db.logNumber
  read : ∀ k bytes, s.fs.read (.log k) = some bytes →
    ∃ more, s'.fs.read (.log k) = some (bytes ++ more)

theorem LogsGrow.of_eq (hd : s'.done = s.done) (hn : s'.db.logNumber = s.db.logNumber)
    (hf : s'.fs = s.fs) :
    LogsGrow s s' where
  done := hd ▸ le_rfl
  number := hn ▸ le_rfl
  read k bytes hb := ⟨[], by rw [hf, hb, List.append_nil]⟩

theorem Sound.logsGrow (h : Sound σ gh s) (hs : LsmKv.step s a = some s') (ha : a.internal)
    (hj : ¬ a.ofJob) : LogsGrow s s' := by
  by_cases hw : ¬ a.ofWriter
  · exact .of_eq (Sys.kept_read hs ha hw hj Sys.done fun _ => rfl)
      (Sys.kept_read hs ha hw hj (·.db.logNumber) fun _ => rfl)
      (Sys.kept_read hs ha hw hj Sys.fs fun _ => rfl)
  cases a with
  | write id entries sync =>
    obtain ⟨_, _, _, rfl⟩ := Sys.write_cases hs
    exact .of_eq rfl rfl rfl
  | rotate byFlush =>
    obtain ⟨_, _, _, _, _, rfl⟩ := Sys.rotate_cases hs
    exact .of_eq rfl rfl rfl
  | rotateIo n =>
    obtain ⟨r, _, _, hr, hio, rfl⟩ := Sys.rotateIo_cases hs
    exact ⟨le_rfl, le_rfl, fun k bytes hb => (h.rotating r hr).log.grows hio hb⟩
  | failRotate n =>
    obtain ⟨r, _, hr, hio, rfl⟩ := Sys.failRotate_cases hs
    exact ⟨le_rfl, le_rfl, fun k bytes hb => (h.rotating r hr).log.grows_fail hio hb⟩
  | rotateSwap =>
    obtain ⟨r, hr, _, _, rfl⟩ := Sys.rotateSwap_cases hs
    exact ⟨le_rfl, (h.rotating r hr).log_lt.le, fun k bytes hb => ⟨[], hb.trans (by simp)⟩⟩
  | begin elapsed =>
    obtain ⟨_, _, _, _, _, _, ⟨_, rfl⟩ | ⟨_, rfl⟩⟩ := Sys.begin_cases hs
    · exact .of_eq rfl rfl rfl
    · exact .of_eq rfl rfl rfl
  | append n =>
    obtain ⟨_, _, _, ⟨_, _, rfl⟩ | rfl⟩ := Sys.append_cases hs
    · exact ⟨le_rfl, le_rfl, fun k bytes hb => read_append_grows _ _ _ _ hb⟩
    · exact ⟨le_rfl, le_rfl, fun k bytes hb => read_append_grows _ _ _ _ hb⟩
  | syncLog =>
    obtain ⟨_, _, _, _, rfl⟩ := Sys.syncLog_cases hs
    exact ⟨le_rfl, le_rfl, fun k bytes hb => ⟨[], by rw [Fs.read_fsync, hb, List.append_nil]⟩⟩
  | insert =>
    obtain ⟨_, _, _, _, _, _, _, rfl⟩ := Sys.insert_cases hs
    exact .of_eq rfl rfl rfl
  | finish =>
    obtain ⟨_, _, _, _, _, _, _, rfl⟩ := Sys.finish_cases hs
    exact ⟨h.logged.pre.length_le, le_rfl, fun k bytes hb => ⟨[], hb.trans (by simp)⟩⟩
  | failAppend n =>
    obtain ⟨_, _, _, _, rfl⟩ := Sys.failAppend_cases hs
    exact ⟨le_rfl, le_rfl, fun k bytes hb => read_append_grows _ _ _ _ hb⟩
  | failSync =>
    obtain ⟨_, _, _, _, _, rfl⟩ := Sys.failSync_cases hs
    exact .of_eq rfl rfl rfl
  | _ => exact absurd not_false hw

/-- Only the last part of a record makes the history longer. -/
theorem Sys.hist_client (hs : LsmKv.step s a = some s') (ha : a.internal) (hj : ¬ a.ofJob) :
    s'.hist = s.hist ∨ ∃ ld, s.lead = some ld ∧ ld.unwritten ≠ [] ∧
      s' = { s with
        fs := s.fs.append (.log s.db.logNumber) ld.unwritten
        lead := some { ld with unwritten := [] }
        hist := s.hist ++ [ld.group] } := by
  by_cases hw : ¬ a.ofWriter
  · exact .inl (kept_read hs ha hw hj Sys.hist fun _ => rfl)
  cases a with
  | write id entries sync =>
    obtain ⟨_, _, _, rfl⟩ := write_cases hs
    exact .inl rfl
  | rotate byFlush =>
    obtain ⟨_, _, _, _, _, rfl⟩ := rotate_cases hs
    exact .inl rfl
  | rotateIo n =>
    obtain ⟨_, _, _, _, _, rfl⟩ := rotateIo_cases hs
    exact .inl rfl
  | failRotate n =>
    obtain ⟨_, _, _, _, rfl⟩ := failRotate_cases hs
    exact .inl rfl
  | rotateSwap =>
    obtain ⟨_, _, _, _, rfl⟩ := rotateSwap_cases hs
    exact .inl rfl
  | begin elapsed =>
    obtain ⟨_, _, _, _, _, _, ⟨_, rfl⟩ | ⟨_, rfl⟩⟩ := begin_cases hs
    · exact .inl rfl
    · exact .inl rfl
  | append n =>
    obtain ⟨ld, hl, hne, ⟨_, _, rfl⟩ | ⟨_, rfl⟩⟩ := append_cases hs
    · exact .inl rfl
    · exact .inr ⟨ld, hl, hne, rfl⟩
  | syncLog =>
    obtain ⟨_, _, _, _, rfl⟩ := syncLog_cases hs
    exact .inl rfl
  | insert =>
    obtain ⟨_, _, _, _, _, _, _, rfl⟩ := insert_cases hs
    exact .inl rfl
  | finish =>
    obtain ⟨_, _, _, _, _, _, _, rfl⟩ := finish_cases hs
    exact .inl rfl
  | failAppend n =>
    obtain ⟨_, _, _, _, rfl⟩ := failAppend_cases hs
    exact .inl rfl
  | failSync =>
    obtain ⟨_, _, _, _, _, rfl⟩ := failSync_cases hs
    exact .inl rfl
  | _ => exact absurd not_false hw

namespace Backed

theorem client (h : Backed s) (hS : Sound σ gh s) (hD : Disk σ gh s m logs) (hm : s.mode = .running)
    (hs : LsmKv.step s a = some s') (ha : a.internal) (hj : ¬ a.ofJob) : Backed s' := by
  obtain ⟨m₀, n, hc, hcov⟩ := h
  have hgrow := hS.logsGrow hs ha hj
  refine ⟨m₀, n, hc.of_stat (hS.stat_client hs ha hj (by simp))
    (fun _ _ => hS.stat_client hs ha hj (by simp)), ?_⟩
  rcases Sys.hist_client hs ha hj with hh | ⟨ld, hl, hne, rfl⟩
  · exact hcov.keep hh hgrow.done hgrow.number fun k g _ hd => hd.grow (hgrow.read k)
  · obtain ⟨part, ht⟩ := (hD.running hm).tail
    rw [hl] at ht
    refine ⟨hcov.le, hcov.log_le, hcov.holds.snoc ?_ _, fun g hg => ?_⟩
    · exact hcov.le.trans hS.logged.pre.length_le
    · have hg : g ∈ (s.hist ++ [ld.group]).drop n := hg
      rw [List.drop_append_of_le_length (hcov.le.trans hS.logged.pre.length_le)] at hg
      rcases List.mem_append.1 hg with hg | hg
      · obtain ⟨k, hk, hd⟩ := hcov.rest g hg
        exact ⟨k, hk, hd.grow (hgrow.read k)⟩
      · rw [List.mem_singleton.1 hg]
        refine ⟨s.db.logNumber, hcov.log_le, logs s.db.logNumber, [], fun x hx => ?_, ?_⟩
        · exact hS.logged.ok.fits x (hD.mem_hist hm hx)
        · refine (ht.append_all hne).read.trans ?_
          simp [List.flatMap_append]

/-- The version that was just committed holds the groups before the live logs,
which are finished. -/
theorem renamed (hS : Sound True gh s) (hD : Disk True gh s m logs) (hm : s.mode = .running)
    (hT : Trailing s) {new : Manifest} (hv : new.version = s.db.current)
    (hlog : new.logNumber = s.db.oldestLiveLog) : ∃ n, Covered s new n := by
  have hrun := hD.running hm
  obtain ⟨base, hhist, hflushed, _⟩ := hrun.parts trivial
  have himage : ∀ k, s.db.oldestLiveLog ≤ k → ∀ g ∈ logs k, Delivers s.fs k g := by
    intro k _ g hg
    obtain ⟨bytes, hb⟩ : ∃ bytes, s.fs.read (.log k) = some bytes := by
      cases hb : s.fs.read (.log k) with
      | none =>
        rw [hD.onDisk.stored.absent k hb] at hg
        cases hg
      | some bytes => exact ⟨bytes, rfl⟩
    exact .of_image (hD.onDisk.stored.image k bytes hb) hb
      (fun x hx => hS.logged.ok.fits x (hD.mem_hist hm hx)) hg
  refine ⟨base.length, ?_, ?_, ?_, fun g hg => ?_⟩
  · by_cases heq : s.hist = s.done
    · rw [← heq, hhist, List.length_append]
      exact Nat.le_add_right _ _
    · -- the group that is not finished is in the log in use
      obtain ⟨g, xs, hg, hx, hread⟩ := hT hm heq
      have hfit : g.Fits := hS.logged.ok.fits g (by simp [hg])
      have hmem : g ∈ logs s.db.logNumber := by
        refine Delivers.mem ⟨xs, [], hx, hread.trans ?_⟩ hD.onDisk.stored
          (fun x hx => hS.logged.ok.fits x (hD.mem_hist hm hx)) hfit
        simp [List.flatMap_append]
      have hspan : span logs s.db.oldestLiveLog s.db.nextFileNumber ≠ [] :=
        List.ne_nil_of_mem (mem_span.2 ⟨_, hrun.oldest_le, hS.log_lt, hmem⟩)
      have hlen := congrArg List.length (hhist.symm.trans hg)
      have hpos := List.length_pos_iff.2 hspan
      simp only [List.length_append, List.length_singleton] at hlen
      omega
  · rw [hlog]
    exact hrun.oldest_le
  · rw [hv]
    exact hS.holds (fun ho => absurd (hm.symm.trans ho) (by simp)) trivial hhist hflushed
  · rw [hhist, List.drop_left] at hg
    obtain ⟨k, hk, _, hg⟩ := mem_span.1 hg
    exact ⟨k, hlog ▸ hk, himage k hk g hg⟩

theorem job (h : Backed s) (hS : Sound True gh s) (hD : Disk True gh s m logs)
    (hm : s.mode = .running) (hT : Trailing s) (hs : LsmKv.step s a = some s') (ha : a.ofJob) :
    Backed s' := by
  have hh : s'.hist = s.hist := Sys.kept_job hs ha Sys.hist fun _ => rfl
  have hd : s'.done = s.done := Sys.kept_job hs ha Sys.done fun _ => rfl
  have hn := hS.logNumber_job hm hs ha
  obtain ⟨m₀, n, hc, hcov⟩ := h
  have hlogs : ∀ k, (s'.fs.stat (.log k) = s.fs.stat (.log k)) →
      s'.fs.read (.log k) = s.fs.read (.log k) := by
    intro k hst
    rw [Fs.read_eq_stat, Fs.read_eq_stat, hst]
  have hkeep : Committed s'.fs m₀ →
    (∀ k, m₀.logNumber ≤ k → s'.fs.stat (.log k) = s.fs.stat (.log k)) →
      Backed s' := fun hc' hst =>
    ⟨m₀, n, hc', hcov.keep hh (congrArg List.length hd).ge hn.ge
      (fun k g hk hdel => hdel.of_read (hlogs k (hst k hk)))⟩
  cases hD.effect hS hs ha with
  | same hf =>
    exact hkeep (hc.of_stat (hf _ (by simp)) fun _ _ => hf _ (by simp)) fun _ _ => hf _ (by simp)
  | table hl _ hf =>
    refine hkeep (hc.of_stat (hf _ (by simp)) fun k hk => hf _ ?_) fun _ _ => hf _ (by simp)
    rintro ⟨⟩
    exact hl hk
  | renamed hj hst hr hc' hv hlog hf =>
    obtain ⟨n', hcov'⟩ := renamed hS hD hm hT hv (hlog hm)
    exact ⟨_, n', hc', hcov'.keep hh (congrArg List.length hd).ge hn.ge
      fun k g _ hdel => hdel.of_read (hlogs k (hf _ (by simp [IsManifest])))⟩
  | unlinkTable hl hfs =>
    refine hkeep (hc.of_stat ?_ fun k hk => ?_) fun k _ => ?_
    · rw [hfs, Fs.stat_unlink, if_neg (by simp)]
    · rw [hfs, Fs.stat_unlink, if_neg]
      rintro ⟨⟩
      exact hl hk
    · rw [hfs, Fs.stat_unlink, if_neg (by simp)]
  | unlinkLog hk _ hfs =>
    refine hkeep (hc.of_stat ?_ fun k _ => ?_) fun k hle => ?_
    · rw [hfs, Fs.stat_unlink, if_neg (by simp)]
    · rw [hfs, Fs.stat_unlink, if_neg (by simp)]
    · rw [hfs, Fs.stat_unlink, if_neg]
      rintro ⟨⟩
      rw [(hD.onDisk.committed.same hc).1] at hle
      omega
  | log ho _ =>
    rw [hm] at ho
    cases ho

theorem step (h : Backed s) (hS : Sound True gh s) (hD : Disk True gh s m logs)
    (hm : s.mode = .running) (hT : Trailing s) (hs : LsmKv.step s a = some s') (ha : a.internal) :
    Backed s' := by
  by_cases hj : a.ofJob
  · exact h.job hS hD hm hT hs hj
  · exact h.client hS hD hm hs ha hj

theorem opened (hS : Sound True gh s) (hD : Disk True gh s m logs)
    (hj : s.jobs = [⟨[], .recovered⟩]) :
    Backed s := by
  obtain ⟨hnew, hset, hclean⟩ := hD.jobs _ (hj ▸ List.mem_cons_self)
  obtain ⟨hl, _, _, _, _, hb⟩ := hS.opening hnew.opening
  refine ⟨m, s.hist.length, hD.onDisk.committed, ?_, hclean.number.le, hset.holds trivial,
    fun g hg => ?_⟩
  · rw [hS.logged.idle hl hb]
  · rw [List.drop_length] at hg
    cases hg

end Backed

end LsmKv
