import LsmKv.Guarantees

namespace LsmKv
set_option autoImplicit true

open Versioned
open Wal (Group)

variable {σ : Prop} {gh : Ghost} {s s' t : Sys} {m : Manifest} {logs : Nat → List Group}
  {hist : List Group} {fs : DbFs}

/-- A record that a crash cannot take: it is in a table of the manifest or in a live log, a newer
one of its key was written, or it deletes a key of which the tables show no value. -/
inductive Kept (fs : DbFs) (m : Manifest) (hist : List Group) (r : Rec) : Prop where
  | table (hf : f ∈ m.version.levels l) (hr : r ∈ f.recs) (hs : SstHolds fs f.number f.recs)
  | log (hn : m.logNumber ≤ n) (hb : fs.read (.log n) = some bytes)
      (hr : ∀ path, r ∈ (Wal.replay path bytes).entries.map Wal.Entry.toRec)
  | superseded (hr' : r' ∈ recsOf hist) (hk : r'.userKey = r.userKey) (hlt : r.seq < r'.seq)
  | deletion (hd : r.isDeletion = true)
      (hnone : ∀ v, ¬ Shown m.version.content kMaxSequenceNumber r.userKey v)

theorem Stored.kept (h : Stored fs logs N) (hok : HistOk (span logs m.logNumber N))
    (hr : r ∈ recsOf (span logs m.logNumber N)) : Kept fs m hist r := by
  obtain ⟨g, hg, hrg⟩ := List.mem_flatMap.1 hr
  obtain ⟨n, hn, hN, hgn⟩ := mem_span.1 hg
  have hlog : ∀ x ∈ logs n, x ∈ span logs m.logNumber N := fun x hx => mem_span.2 ⟨n, hn, hN, hx⟩
  cases hb : fs.read (.log n) with
  | none =>
    rw [h.absent n hb] at hgn
    cases hgn
  | some bytes =>
    refine .log hn hb fun path => ?_
    rw [(Wal.replay_image (h.image n bytes hb) (fun x hx => hok.fits x (hlog x hx)) path).1,
      List.map_flatMap]
    refine List.mem_flatMap.2 ⟨g, hgn, ?_⟩
    rw [Group.numbered, map_toRec_number (hok.bound g hg)]
    exact hrg

/-- What is before the live logs is in the tables, but for versions nobody can ask for again. -/
theorem Recoverable.kept {older : List Group} (h : Recoverable True hist m logs N older)
    (hok : HistOk hist) (hc : Committed fs m) (hst : Stored fs logs N) (hr : r ∈ recsOf hist) :
    Kept fs m hist r := by
  rw [h.split, recsOf_append] at hr
  rcases List.mem_append.1 hr with hr | hr
  · obtain ⟨n, hn, hcont, hagree⟩ := h.agree trivial
    have hpre : older <+: hist := ⟨_, h.split.symm⟩
    have hmem : r ∈ recsOf (hist.take n) := by
      obtain ⟨g, hg, hrg⟩ := List.mem_flatMap.1 hr
      exact List.mem_flatMap.2 ⟨g, (List.prefix_take_iff.2 ⟨hpre, hn⟩).subset hg, hrg⟩
    have hsub : ∀ x ∈ recsOf (hist.take n), x ∈ recsOf hist := fun x hx => by
      obtain ⟨g, hg, hxg⟩ := List.mem_flatMap.1 hx
      exact List.mem_flatMap.2 ⟨g, List.mem_of_mem_take hg, hxg⟩
    have hle : ∀ x ∈ recsOf hist, x.seq ≤ kMaxSequenceNumber := fun x hx => by
      obtain ⟨g, hg, _, _, hlt⟩ := hok.mem_recsOf hx
      have := hok.bound g hg
      omega
    obtain ⟨x, hx⟩ := exists_newest (List.finite_toSet (recsOf (hist.take n))) hmem
      (hle r (hsub r hmem))
    rcases (hx.max r hmem rfl (hle r (hsub r hmem))).lt_or_eq with hlt | heq
    · exact .superseded (hsub x hx.mem) hx.key_eq hlt
    · have hd : Distinct {y | y ∈ recsOf (hist.take n)} :=
        (hok.sublist (List.take_sublist _ _)).seqAsc.distinct
      obtain rfl : r = x := hd r hmem x hx.mem hx.key_eq.symm heq
      by_cases hdel : r.isDeletion = true
      · refine .deletion hdel ?_
        rintro v ⟨y, hy, _⟩
        have hlive := (hagree _ le_rfl _ y).2 hy
        rw [hlive.1.unique hd hx] at hlive
        cases hdel.symm.trans hlive.2
      · have hlive := (hagree _ le_rfl _ r).1 ⟨hx, Bool.eq_false_iff.2 hdel⟩
        obtain ⟨l, hl⟩ := hlive.1.mem
        obtain ⟨f, hf, hrf⟩ := Version.mem_levelRecs.1 hl
        exact .table hf hrf (hc.sst l f hf)
  · exact hst.kept (h.live_ok hok) hr

section Sample

/-- Client threads that do the background work themselves, one at a time: every `Get` returns the
effect of a write not older than those acknowledged before it, and no table of the version is
missing. -/
theorem lone_jobs_safe (h : Run (Orderly True) {} s) :
    (∀ a ∈ s.answers, a.call.snapshot = none → a.Effect s.hist) ∧
    (s.mode ≠ .closed → ∀ l, ∀ f ∈ s.db.current.levels l, SstHolds s.fs f.number f.recs) := by
  refine ⟨fun a ha hn => ((Seen.run h trivial).answers a ha).effect hn, fun hm l f hf => ?_⟩
  obtain ⟨_, _, _, hS, _⟩ := (Good.run h).sound hm
  exact (hS.tables.live l f hf).2

/-- `Open` without a background thread. -/
def inlineOpenActs : List Act :=
  .recover { backgroundCompaction := false } "db" :: .startLog :: jobActs 8 ++
    .job 0 0 [.manifest, .log 1] :: jobActs 1

/-- A thread flushes a memtable, writes, and reads. -/
def inlineActs : List Act :=
  inlineOpenActs ++ putActs [97] [1] ++ rotateActs ++
    flushActs [.manifest, .sst 3, .log 2, .log 1] ++ putActs [98] [2] ++
    [.getBegin 7 [97] none, .getEnd 7]

set_option synthInstance.maxSize 2000 in
theorem lone_jobs_safe_sample : ∃ s, runActs Orderly.checkAll {} inlineActs = some s ∧
    s.answers.map (fun a => a.result.toOption) = [some [1]] ∧
    (∀ a ∈ s.answers, a.call.snapshot = none → a.Effect s.hist) ∧
    (s.db.current.levels 0).map FileMetaData.number = [3] ∧
    ∀ f ∈ s.db.current.levels 0, SstHolds s.fs f.number f.recs := by
  obtain ⟨s, hs, hans, hm, hf⟩ : ∃ s, runActs Orderly.checkAll {} inlineActs = some s ∧
      s.answers.map (fun a => a.result.toOption) = [some [1]] ∧ s.mode ≠ .closed ∧
      (s.db.current.levels 0).map FileMetaData.number = [3] := by
    decide +kernel
  obtain ⟨heffect, htables⟩ :=
    lone_jobs_safe (Run.of_checks (fun _ _ _ => Orderly.of_checkAll) hs)
  exact ⟨s, hs, hans, heffect, hf, htables hm 0⟩

/-- Two threads flush the same memtable. The first deletes the table of the second, which is not in
the version yet; then a memtable is filled and switched, and the install of the second clears it. -/
def crossedActs : List Act :=
  inlineOpenActs ++ putActs [97] [1] ++ rotateActs ++ [.startFlush, .startFlush] ++ jobActs 4 ++
    List.replicate 4 (.job 1 0 []) ++ jobActs 6 ++
    .job 0 0 [.manifest, .sst 3, .sst 4, .log 2, .log 1] :: jobActs 3 ++ putActs [98] [2] ++
    rotateActs ++ jobActs 1

set_option synthInstance.maxSize 2000 in
theorem crossed_flushes_lose : ∃ s, runActs Crashes.check {} crossedActs = some s ∧
    s.mode = .running ∧ s.db.options.backgroundCompaction = false ∧
    (s.db.current.levels 0).map FileMetaData.number = [4, 3] ∧ s.fs.read (.sst 4) = none ∧
    mapOfGroups s.acked [98] = some [2] ∧
    (((s.db.capture none).get [98]).run s.store).1.toOption = none := by
  decide +kernel

end Sample

end LsmKv
