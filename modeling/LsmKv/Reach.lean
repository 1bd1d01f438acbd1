import LsmKv.DiskJobs
import LsmKv.Footprint

namespace LsmKv
set_option autoImplicit true

open Versioned
open Wal (Group)

/-- The invariant of every state: of an open process, or of what the last one left. -/
inductive Good (σ : Prop) (s : Sys) : Prop where
  | opened (hS : Sound σ gh s) (hD : Disk σ gh s m logs) (hC : ScansOk s) : Good σ s
  | closed (hi : Idle s) (hd : OnDisk σ s.fs s.hist m logs N) (hc : s.scans = []) : Good σ s

variable {σ : Prop} {gh : Ghost} {s s' : Sys} {m : Manifest} {logs : Nat → List Group}

theorem onDisk_empty (σ : Prop) : OnDisk σ .empty [] {} (fun _ => []) 0 where
  ok := .nil
  committed := ⟨.inl ⟨rfl, rfl⟩, ⟨0, Version.wf_empty 0⟩, fun _ _ hf => (nomatch hf), Nat.one_pos,
    Nat.zero_le _, Nat.zero_le _⟩
  stored := ⟨fun _ _ hr => (nomatch hr), fun _ _ => rfl, fun _ hr => absurd rfl hr⟩
  cover := {
    log_le := le_rfl
    content := fun _ ⟨_, hx⟩ => (nomatch hx)
    cover := .inl ⟨rfl, fun _ hg => (nomatch hg),
      fun _ => ⟨fun _ ⟨_, hx⟩ => (nomatch hx), fun _ _ _ _ =>
      ⟨fun hl => (nomatch hl.1.mem), fun hl => (nomatch hl.1.mem.choose_spec)⟩⟩⟩ }

theorem good_new (σ : Prop) : Good σ {} :=
  .closed ⟨rfl, rfl, rfl, rfl, rfl, rfl, rfl⟩ (onDisk_empty σ) rfl

theorem Good.kill (h : Good σ s) : Good σ s.kill := by
  cases h with
  | opened hS hD _ => exact .closed ⟨rfl, rfl, rfl, rfl, rfl, rfl, rfl⟩ hD.onDisk rfl
  | closed hi hd _ => exact .closed ⟨rfl, rfl, rfl, rfl, rfl, rfl, rfl⟩ hd rfl

section Resize
variable {hist : List Group}

theorem span_resize {f : Nat → List Group} (ha : a ≤ b) (ha' : a ≤ c) (hb : ∀ n, b ≤ n → f n = [])
    (hc : ∀ n, c ≤ n → f n = []) : span f a b = span f a c := by
  rcases le_total b c with hle | hle
  · exact (span_trim ha hle fun n hn _ => hb n hn).symm
  · exact span_trim ha' hle fun n hn _ => hc n hn

theorem Settled.resize (h : Settled σ hist m logs N) (hl : m.logNumber ≤ N) (hl' : m.logNumber ≤ N')
    (hN : ∀ n, N ≤ n → logs n = []) (hN' : ∀ n, N' ≤ n → logs n = []) : Settled σ hist m logs N' :=
  { h with live := (span_resize hl' hl hN' hN).trans h.live }

theorem Aligned.resize (h : Aligned σ hist m logs N pre) (hN : ∀ n, N ≤ n → logs n = [])
    (hN' : ∀ n, N' ≤ n → logs n = []) : Aligned σ hist m logs N' pre := by
  refine { h with split := ?_ }
  rw [span_resize (Nat.zero_le N') (Nat.zero_le N) hN' hN]
  exact h.split

end Resize

/-- The invariant of a database whose `Recover` has read everything. -/
theorem OnDisk.recovering (h : OnDisk σ s.fs s.hist m logs N) (gh : Ghost) (options : Options)
    (path : String) (v : Version) (hj : s.jobs = []) :
    Disk σ gh (s.recovering options path { m with version := v }
      ((span logs m.logNumber N).flatMap Group.numbered)) m logs := by
  have hafter := h.stored.after
  have hbump : ∀ n, s.fs.read (.log n) ≠ none → n < Sys.bumpFileNumber s.fs m.nextFileNumber :=
    fun n hr => lt_bumpFileNumber (Fs.mem_names.2 hr) rfl _
  have hle : m.logNumber ≤ Sys.bumpFileNumber s.fs m.nextFileNumber :=
    h.committed.log_le.trans (le_foldl_bump _ _).1
  have hstored : Stored s.fs logs (Sys.bumpFileNumber s.fs m.nextFileNumber) :=
    ⟨h.stored.image, h.stored.absent, hbump⟩
  have hlive : HistOk (span logs m.logNumber N) := by
    obtain ⟨older, hrec⟩ := h.cover.recoverable
    exact hrec.live_ok h.ok
  obtain ⟨_, hmem⟩ := hlive.replayInto
  have hempty := MemTable.isEmpty_iff hmem
  refine ⟨⟨h.ok, h.committed, hstored, hle, h.cover.content, ?_⟩, fun j hm => ?_, fun hm => ?_,
    fun _ => ⟨?_, fun hi => ⟨rfl, ?_⟩⟩⟩
  · rcases h.cover.cover with hs | ⟨pre, ha⟩
    · exact .inl (hs.resize h.cover.log_le hle hafter hstored.after)
    · exact .inr ⟨pre, ha.resize hafter hstored.after⟩
  · have hm' : j ∈ s.jobs := hm
    rw [hj] at hm'
    cases hm'
  · cases hm
  · by_cases he :
      (Sys.replayInto {} ((span logs m.logNumber N).flatMap Group.numbered)).isEmpty = true
    · simp only [Sys.recovering, he, if_true]
      exact (MemTable.recs_eq_nil _).2 he
    · simp only [Sys.recovering, he]
      rfl
  · rcases h.cover.cover with hs | ⟨pre, ha⟩
    · refine absurd ?_ hi
      have he : (Sys.replayInto {}
          ((span logs m.logNumber N).flatMap Group.numbered)).isEmpty = true := by
        rw [hempty, hs.live]
        rfl
      exact if_pos he
    · exact ⟨pre, ha.resize hafter hstored.after⟩

theorem OnDisk.recover (h : OnDisk σ s.fs s.hist m logs N) (hi : Idle s) (hc : s.scans = [])
    (options : Options) (path : String) :
    ∃ s', s.recover options path = some s' ∧ s'.mode = .opening ∧ s'.failed = none ∧
      s'.hist = s.hist ∧ Good σ s' := by
  obtain ⟨older, hrec⟩ := h.cover.recoverable
  obtain ⟨φ, gh, _, hs, hS⟩ := hrec.recover hi h.ok h.committed h.stored options path
  refine ⟨_, hs, rfl, rfl, rfl,
    .opened hS (h.recovering gh options path _ hi.jobs) ⟨fun _ => hc, ?_⟩⟩
  intro c hm
  have hm' : c ∈ s.scans := hm
  rw [hc] at hm'
  cases hm'

/-- A step of a run with one job at a time and no power loss. Under `σ` no job starts when a
snapshot could be at the largest sequence number, and no memtable is switched under a leader. -/
structure Orderly (σ : Prop) (s : Sys) (a : Act) (s' : Sys) : Prop where
  fits : s'.Fits
  oneJob : a.startsJob → s.jobs = []
  pins : a.startsJob → σ → s.db.smallestSnapshot < kMaxSequenceNumber
  swap : a = .rotateSwap → σ → s.lead = none
  power : a.internal ∨ a = .kill ∨ ∃ options path, a = .recover options path

/-- Without a process nothing happens but `Recover`. -/
theorem Idle.step_eq_none (h : Idle s) (ha : a.internal) (hc : s.scans = []) :
    LsmKv.step s a = none := by
  have hclosed : s.mode ≠ .running := by simp [h.mode]
  have hun : s.unlocked = false := by simp [Sys.unlocked, h.mode]
  cases a with
  | write id entries sync => exact if_neg fun hg => hclosed hg.1
  | rotate byFlush => exact if_neg fun hg => hclosed hg.1
  | rotateIo n => simp [LsmKv.step, Sys.rotateIo, h.rotating]
  | rotateSwap => simp [LsmKv.step, Sys.rotateSwap, h.rotating]
  | begin elapsed => simp [LsmKv.step, Sys.begin, h.writers]
  | append n => simp [LsmKv.step, Sys.append, h.lead]
  | syncLog => simp [LsmKv.step, Sys.syncLog, h.lead]
  | insert => simp [LsmKv.step, Sys.insert, h.lead]
  | finish => simp [LsmKv.step, Sys.finish, h.lead]
  | getSnapshot => exact if_neg fun hg => hclosed hg.1
  | releaseSnapshot handle => exact if_neg fun hg => hclosed hg.1
  | getBegin id key snapshot => simp [LsmKv.step, Sys.getBegin, hclosed]
  | getEnd id => simp [LsmKv.step, Sys.getEnd, h.gets]
  | newIterator id snapshot => simp [LsmKv.step, Sys.newIterator, hclosed]
  | seekToFirst id => simp [LsmKv.step, Sys.moveScan, hc]
  | seek id target => simp [LsmKv.step, Sys.moveScan, hc]
  | next id => simp [LsmKv.step, Sys.next, hc]
  | startFlush => simp [LsmKv.step, Sys.startFlush, Sys.mayStart, hun]
  | startCompaction level => simp [LsmKv.step, Sys.startCompaction, hclosed]
  | startLog => simp [LsmKv.step, Sys.startLog, h.mode]
  | job i n order => simp [LsmKv.step, Sys.jobStep, h.jobs]
  | failAppend n => simp [LsmKv.step, Sys.failAppend, h.lead]
  | failSync => simp [LsmKv.step, Sys.failSync, h.lead]
  | failRotate n => simp [LsmKv.step, Sys.failRotate, h.rotating]
  | failJob i n => simp [LsmKv.step, Sys.failJob, h.jobs]
  | kill => cases ha
  | recover options path => cases ha
  | powerLoss keep cut => cases ha
  | powerLossData cut => cases ha

theorem Good.step (h : Good σ s) (hs : LsmKv.step s a = some s') (ha : Orderly σ s a s') :
    Good σ s' := by
  rcases ha.power with hint | rfl | ⟨options, path, rfl⟩
  · cases h with
    | opened hS hD hC =>
      have hC' := hC.step hS hs hint
      rcases hD.step hS hs hint ha.fits (fun hj => ⟨ha.oneJob hj, ha.pins hj⟩) ha.swap
        (fun hm => (hC.moves hS hs hm).1) with ⟨gh, m, logs, hS', hD'⟩ | ⟨hi, m, logs, N, hd⟩
      · exact .opened hS' hD' hC'
      · exact .closed hi hd (hC'.idle (by simp [hi.mode]))
    | closed hi hd hc =>
      rw [hi.step_eq_none hint hc] at hs
      cases hs
  · cases hs
    exact h.kill
  · cases h with
    | opened hS hD _ =>
      have hc : s.recover options path = some s' := hs
      rw [Sys.recover, if_neg hS.is_open] at hc
      cases hc
    | closed hi hd hc =>
      obtain ⟨s'', hs'', _, _, _, hgood⟩ := hd.recover hi hc options path
      have hr : s.recover options path = some s' := hs
      cases hr.symm.trans hs''
      exact hgood

/-- Every state of an orderly run meets the invariant. -/
theorem Good.run (h : Run (Orderly σ) {} s) : Good σ s :=
  h.induct (good_new σ) fun _ _ _ hg hs ho => hg.step hs ho

end LsmKv
