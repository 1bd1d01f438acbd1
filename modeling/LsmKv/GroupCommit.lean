import LsmKv.Queue
import LsmKv.SequenceLimit
import LsmKv.Syncs

namespace LsmKv
set_option autoImplicit true

open Versioned
open Wal (Group)

variable {σ : Prop} {gh : Ghost} {s s' : Sys} {a : Act} {ld : Lead}

/-- What the leader has inserted is in the memtable in use. -/
def InUse (s : Sys) : Prop :=
  ∀ ld, s.lead = some ld → ∀ r ∈ s.visible, ld.base ≤ r.seq → r ∈ (s.store.mems s.db.mem).recs

namespace InUse

theorem of_none (h : s.lead = none) : InUse s := fun ld hl => by
  rw [h] at hl
  cases hl

theorem calm (h : InUse s) (hS : Sound σ gh s) (hc : Calm s s') : InUse s' := by
  intro ld' hl' r hr hle
  rw [hc.visible] at hr
  rcases hc.lead ld' hl' with ⟨hlast, _⟩ | ⟨hmem, ld, hl, hbase, _⟩
  · -- a new leader has inserted nothing
    have := (hS.logged.mem_visible hr).2
    omega
  · rw [hc.mems, hmem]
    exact h ld hl r hr (hbase ▸ hle)

theorem insert (h : InUse s) (hS : Sound σ gh s) (hs : s.insert = some s') : InUse s' := by
  obtain ⟨ld, e, hi⟩ := hS.inserts hs
  obtain ⟨rest, hl'⟩ := hi.lead'
  intro ld' hld r hr hle
  cases hl'.symm.trans hld
  rw [hi.mems, hi.mem, Function.update_self, hi.recs, mem_insertRun]
  rw [hi.visible] at hr
  rcases List.mem_append.1 hr with hr | hr
  · exact .inr (h ld hi.lead r hr hle)
  · exact .inl (List.mem_singleton.1 hr)

theorem step (h : InUse s) (hS : Sound σ gh s) (hC : ScansOk s) (hs : LsmKv.step s a = some s')
    (ha : a.internal) (hswap : a = .rotateSwap → s.lead = none) : InUse s' := by
  by_cases hi : a = .insert
  · subst hi
    exact h.insert hS hs
  · exact h.calm hS (hS.calm hC hs ha hi hswap)

end InUse

/-- A step of a database that is flushed and compacted by one thread at a time and whose memtables
are switched between two writes. -/
structure Grouped (s : Sys) (a : Act) (s' : Sys) : Prop where
  orderly : Orderly False s a s'
  swap : a = .rotateSwap → s.lead = none

theorem Run.of_grouped (h : Run Grouped {} s) : Run (Orderly False) {} s :=
  h.mono fun _ _ _ hg => hg.orderly

theorem Run.grouped (h : Run Grouped {} s) : Trailing s ∧ InUse s := by
  have hall : Good False s ∧ Trailing s ∧ InUse s := by
    refine h.induct (I := fun s => Good False s ∧ Trailing s ∧ InUse s)
      ⟨good_new False, .of_eq rfl, .of_none rfl⟩ ?_
    rintro s a s' ⟨hg, ht, hi⟩ hs hp
    refine ⟨hg.step hs hp.orderly, ?_⟩
    rcases hp.orderly.power with hint | rfl | ⟨options, path, rfl⟩
    · cases hg with
      | opened hS hD hC =>
        exact ⟨ht.step hS hD hs hint hp.swap, hi.step hS hC hs hint hp.swap⟩
      | closed hidle _ hc =>
        rw [hidle.step_eq_none hint hc] at hs
        cases hs
    · cases hs
      exact ⟨.of_eq rfl, .of_none rfl⟩
    · obtain ⟨hclosed, hres⟩ := Sys.recover_cases hs
      cases hg with
      | opened hS _ _ => exact absurd hclosed hS.is_open
      | closed hidle _ _ =>
        obtain ⟨_, rfl⟩ | ⟨_, _, _, _, rfl⟩ := hres
        · exact ⟨.of_eq hidle.done.symm, .of_none hidle.lead⟩
        · exact ⟨.of_eq hidle.done.symm, .of_none hidle.lead⟩
  exact hall.2

/-- A leader that can finish has its record at the end of the log and its entries in the memtable,
each once. -/
theorem Run.finishes (h : Run Grouped {} s) (hs : LsmKv.step s .finish = some s') :
    ∃ ld xs, s.lead = some ld ∧ s'.returned = s.returned ++ ld.members.map (fun w => (w, true)) ∧
      s'.writers = s.writers.drop ld.members.length ∧
      recsOf s'.done = recsOf s.done ++ recsOf (Sys.batchesFrom ld.base ld.members) ∧
      s.fs.read (.log s.db.logNumber) =
        some (Wal.fileHeader ++ (xs ++ [ld.group]).flatMap Group.record) ∧
      ∀ r ∈ ld.group.recs, (s.store.mems s.db.mem).recs.count r = 1 := by
  obtain ⟨htrail, huse⟩ := h.grouped
  obtain ⟨ld, hl, hopen, _, hnil, _, hall, rfl⟩ := Sys.finish_cases hs
  obtain ⟨gh, m, logs, hS, hD⟩ := (Good.run h.of_grouped).sound hopen
  have hm := hS.running_of_lead (by simp [hl])
  have hlead := hS.logged.leadOk ld hl
  have hhist := hlead.logged hnil
  obtain ⟨g, xs, hg, _, hread⟩ := htrail hm (by simp [hhist])
  obtain rfl : g = ld.group := by simpa using hg.symm.trans hhist
  refine ⟨ld, xs, hl, rfl, rfl, ?_, hread, fun r hr => ?_⟩
  · show recsOf s.hist = _
    rw [hhist, recsOf_append, recsOf_singleton, recsOf_batchesFrom]
    rfl
  · have hins := hlead.inserted_all hall
    have hmem : r ∈ (s.store.mems s.db.mem).recs := by
      refine huse ld hl r ?_ (hlead.mem_inserted hS.logged.last_le (hins.symm ▸ hr)).2.1
      rw [Sys.visible, hl, Option.map_some, Option.getD_some, hins]
      exact List.mem_append_right _ hr
    exact List.count_eq_one_of_mem (hS.layered_running hm).mem_asc.nodup hmem

/-- Group commit while every group fits its record. Since the process opened the database its
`Write` calls have returned in the order in which they were made; those that returned OK are in the
history once each, in that order, as runs of sequence numbers; and only the end of a group lets
calls return OK, namely its members, whose entries are then in the log and in the memtable. -/
theorem group_commit_once {s₀ s₁ : Sys} (h : Run Grouped {} s₀)
    (hr : step s₀ (.recover options path) = some s₁) (hp : Grouped s₀ (.recover options path) s₁)
    (h' : Run (fun s a s' => Grouped s a s' ∧ a.internal) s₁ s) :
    s.calls = s.returned.map Prod.fst ++ s.writers ∧
    (∃ bs : List Group,
      bs.map Group.entries = (s.returned.filter Prod.snd).map (fun c => c.1.entries) ∧
      recsOf s.done = recsOf s₁.done ++ recsOf bs) ∧
    s.done <+: s.hist ∧ SeqAsc (recsOf s.hist) ∧
    (∀ a s', step s a = some s' → a.internal → a ≠ .finish →
      s'.returned.filter Prod.snd = s.returned.filter Prod.snd) ∧
    ∀ s', step s .finish = some s' → ∃ ld xs, s.lead = some ld ∧ ld.members <+: s.writers ∧
      s'.returned = s.returned ++ ld.members.map (fun w => (w, true)) ∧
      s'.writers = s.writers.drop ld.members.length ∧
      recsOf s'.done = recsOf s.done ++ recsOf (Sys.batchesFrom ld.base ld.members) ∧
      s.fs.read (.log s.db.logNumber) =
        some (Wal.fileHeader ++ (xs ++ [ld.group]).flatMap Group.record) ∧
      ∀ r ∈ ld.group.recs, (s.store.mems s.db.mem).recs.count r = 1 := by
  obtain ⟨hrun, hq, bs, hb⟩ := Batches.of_open Run.of_grouped h hr hp h'
  have hlog : s.done <+: s.hist ∧ SeqAsc (recsOf s.hist) := by
    cases Good.run hrun.of_grouped with
    | opened hS _ _ => exact ⟨hS.logged.pre, hS.logged.ok.seqAsc⟩
    | closed hi hd _ => exact ⟨hi.done ▸ List.prefix_rfl, hd.ok.seqAsc⟩
  refine ⟨hq.calls, ⟨bs, hb.entries, hb.recs⟩, hlog.1, hlog.2,
    fun a s' hs ha hf => Sys.step_filter_returned hs ha hf, fun s' hs => ?_⟩
  obtain ⟨ld, xs, hl, hfin⟩ := hrun.finishes hs
  exact ⟨ld, xs, hl, hq.lead ld hl, hfin⟩

section Sample

def Grouped.check (s : Sys) (a : Act) : Bool := Orderly.checkAll s a && a.goesOn

theorem Grouped.of_checkAll (hc : Orderly.checkAll s a = true) (hs : LsmKv.step s a = some s')
    (h : Shallow s) : Grouped s a s' := by
  have ho := Orderly.of_checkAll hc hs h
  exact ⟨⟨ho.fits, ho.oneJob, fun _ hf => hf.elim, fun _ hf => hf.elim, ho.power⟩,
    fun ha => ho.swap ha trivial⟩

theorem Grouped.of_check (hc : Grouped.check s a = true) (hs : LsmKv.step s a = some s')
    (h : Shallow s) : Grouped s a s' ∧ a.internal := by
  rw [check, Bool.and_eq_true] at hc
  exact ⟨.of_checkAll hc.1 hs h, (Act.goesOn_spec hc.2).1⟩

/-- Two calls share a group and a third one waits. -/
def sharedActs : List Act :=
  openActs.tail ++ [.write 1 [⟨.kValue, [97], [1]⟩] false, .write 2 [⟨.kDeletion, [97], []⟩] false,
    .begin false, .write 3 [⟨.kValue, [98], [3]⟩] true, .append 7, .append 0, .syncLog, .insert,
    .insert]

set_option synthInstance.maxSize 2000 in
theorem group_commit_once_sample : ∃ s₁ s s', step {} (.recover {} "db") = some s₁ ∧
    runActs Grouped.check s₁ sharedActs = some s ∧ step s .finish = some s' ∧
    s'.returned.map (fun c => (c.1.id, c.2)) = [(1, true), (2, true)] ∧
    s'.writers.map Writer.id = [3] ∧
    ∃ ld xs, s.lead = some ld ∧ ld.members <+: s.writers ∧
      s.fs.read (.log s.db.logNumber) =
        some (Wal.fileHeader ++ (xs ++ [ld.group]).flatMap Group.record) ∧
      ∀ r ∈ ld.group.recs, (s.store.mems s.db.mem).recs.count r = 1 := by
  obtain ⟨s₁, hr, hc, s, hs, s', hf, hret, hw⟩ : ∃ s₁,
      step {} (.recover {} "db") = some s₁ ∧ Orderly.checkAll {} (.recover {} "db") = true ∧
      ∃ s, runActs Grouped.check s₁ sharedActs = some s ∧ ∃ s', step s .finish = some s' ∧
      s'.returned.map (fun c => (c.1.id, c.2)) = [(1, true), (2, true)] ∧
      s'.writers.map Writer.id = [3] := by
    decide +kernel
  have hrun₀ : Run Grouped {} {} := .refl
  have hp : Grouped {} (.recover {} "db") s₁ := .of_checkAll hc hr hrun₀.shallow
  have hrun := Run.of_checks_from (fun _ _ _ => Grouped.of_check) (hrun₀.step hr hp).shallow hs
  obtain ⟨-, -, -, -, -, hfin⟩ := group_commit_once hrun₀ hr hp hrun
  obtain ⟨ld, xs, hl, hpre, -, -, -, hread, hmem⟩ := hfin s' hf
  exact ⟨s₁, s, s', hr, hs, hf, hret, hw, ld, xs, hl, hpre, hread, hmem⟩

end Sample

section Oversized

/-- A record whose length field wraps to zero delivers nothing. -/
theorem Wal.replay_wrapped {n : Nat} {b : WriteBatch} (h : (Wal.payload n b).length = 2 ^ 32)
    (path : String) : (Wal.replay path (Wal.fileHeader ++ Wal.record n b)).entries = [] := by
  have hzero : decodeFixed32 ((Wal.record n b).drop 4) = 0 := by
    rw [record, List.drop_left' (length_putFixed32 _), decodeFixed32_put, h, Nat.mod_self]
  rw [replay_header]
  cases hfuel : (fileHeader ++ Wal.record n b).length with
  | zero => rfl
  | succ fuel =>
    rw [replayLoop, hzero]
    -- whatever the checksum of nothing is, nothing is delivered
    split
    · rfl
    split
    · rfl
    rw [if_neg (Nat.not_lt_zero _)]
    dsimp only
    split <;> rfl

/-- A `Put` whose record is just too long for its length field. -/
theorem oversized_put_not_logged : ∃ (s : Sys) (v : Bytes), v.length = 2 ^ 32 - 20 ∧
    Run (fun _ _ _ => True) {} s ∧
    s.returned = [(⟨0, [⟨.kValue, [97], v⟩], false⟩, true)] ∧
    s.acked = [⟨1, [⟨.kValue, [97], v⟩]⟩] ∧
    ∃ bytes, s.fs.read (.log s.db.logNumber) = some bytes ∧
      ∀ path, (Wal.replay path bytes).entries = [] := by
  obtain ⟨v, hv⟩ : ∃ v : Bytes, v.length = 2 ^ 32 - 20 :=
    ⟨List.replicate (2 ^ 32 - 20) 0, List.length_replicate⟩
  have hfit : WriteBatch.Fits ⟨.kValue, [97], v⟩ := by
    simp only [WriteBatch.Fits, hv, List.length_singleton]
    omega
  have hrun : Run (fun _ _ _ => True) {} ((created.calling ⟨.kValue, [97], v⟩).wrote _) :=
    (((created_run.trans (created_waits.call_run _)).mono fun _ _ _ _ => trivial).trans
      ((created_waits.call _).write_run_of hfit (fun _ => trivial) fun _ _ => trivial))
  have hlog : created.fs.read (.log created.db.logNumber) = some Wal.fileHeader := rfl
  refine ⟨_, v, hv, hrun, rfl, rfl, Wal.fileHeader ++ Group.record ⟨1, [⟨.kValue, [97], v⟩]⟩, ?_,
    fun path => Wal.replay_wrapped ?_ path⟩
  · show ((created.fs.append (.log created.db.logNumber)
      (Group.record ⟨1, [⟨.kValue, [97], v⟩]⟩)).fsync (.log created.db.logNumber)).read
      (.log created.db.logNumber) = _
    rw [Fs.read_fsync, Fs.read_append, if_pos rfl, hlog]
    rfl
  · have hkey : (putVarint32 (1 % 2 ^ 32)).length = 1 := by decide +kernel
    have hvalue : (putVarint32 ((2 ^ 32 - 20) % 2 ^ 32)).length = 5 := by decide +kernel
    rw [Wal.length_payload, WriteBatch.ofEntries_rep, List.flatMap_singleton]
    simp only [WriteBatch.encodeEntry, List.length_cons, List.length_append, List.length_nil,
      Nat.zero_add, hv, hkey, hvalue]
    omega

end Oversized

end LsmKv
