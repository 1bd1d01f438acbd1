import LsmKv.Refinement

namespace LsmKv
set_option autoImplicit true

open Wal (Group)

variable {s s' : Sys}

/-- A step of a `Write` call, or of a memtable switch. -/
def Act.ofWriter : Act → Prop
  | write _ _ _ => True
  | rotate _ => True
  | rotateIo _ => True
  | rotateSwap => True
  | begin _ => True
  | append _ => True
  | syncLog => True
  | insert => True
  | finish => True
  | failAppend _ => True
  | failSync => True
  | failRotate _ => True
  | _ => False

namespace Sys

/-- The state without what snapshots, reads and iterators change. -/
def unread (s : Sys) : Sys :=
  { s with
    db := { s.db with snapshots := [] }
    store := {}
    gets := []
    scans := []
    nextHandle := 0
    answers := [] }

/-- Whatever `unread` keeps, the clients that do not write keep. -/
theorem kept_read {α : Type} (hs : LsmKv.step s a = some s') (ha : a.internal) (hw : ¬ a.ofWriter)
    (hj : ¬ a.ofJob) (f : Sys → α) (hf : ∀ s, f s.unread = f s) : f s' = f s := by
  rw [← hf s', ← hf s]
  refine congrArg f ?_
  have hmove : ∀ {id fresh f}, s.moveScan id fresh f = some s' → s'.unread = s.unread := by
    intro id fresh f hmove
    obtain ⟨_, _, _, rfl⟩ := moveScan_cases hmove
    rfl
  cases a with
  | getSnapshot =>
    obtain ⟨_, _, rfl⟩ := getSnapshot_cases hs
    rfl
  | releaseSnapshot handle =>
    obtain ⟨_, _, rfl⟩ := releaseSnapshot_cases hs
    rfl
  | getBegin id key snapshot =>
    obtain ⟨_, _, _, _, _, rfl⟩ := getBegin_cases hs
    rfl
  | getEnd id =>
    obtain ⟨_, _, _, rfl⟩ := getEnd_cases hs
    rfl
  | newIterator id snapshot =>
    obtain ⟨_, _, _, _, rfl⟩ := newIterator_cases hs
    rfl
  | seekToFirst id =>
    have hseek : s.moveScan id true DBIter.seekToFirst = some s' := hs
    exact hmove hseek
  | seek id target =>
    have hseek : s.moveScan id true (DBIter.seek · target) = some s' := hs
    exact hmove hseek
  | next id =>
    obtain ⟨_, _, _, _, hnext⟩ := next_cases hs
    exact hmove hnext
  | kill => cases ha
  | recover options path => cases ha
  | powerLoss keep cut => cases ha
  | powerLossData cut => cases ha
  | startFlush => exact absurd trivial hj
  | startCompaction level => exact absurd trivial hj
  | startLog => exact absurd trivial hj
  | job i n order => exact absurd trivial hj
  | failJob i n => exact absurd trivial hj
  | _ => exact absurd trivial hw

/-- The state without what `Write` calls and memtable switches change. -/
def unwritten (s : Sys) : Sys :=
  { s with
    fs := .empty
    db := { s.db with
      mem := 0
      imm := none
      logNumber := 0
      immLogNumber := 0
      nextFileNumber := 0
      lastSequence := 0
      bgError := .ok }
    store := { s.store with mems := fun _ => {} }
    nextMem := 0
    writers := []
    lead := none
    rotating := none
    hist := []
    done := []
    acked := []
    batches := []
    calls := []
    returned := []
    safe := 0 }

/-- Whatever `unwritten` keeps, `Write` calls keep. -/
theorem kept_write {α : Type} (hs : LsmKv.step s a = some s') (hw : a.ofWriter) (f : Sys → α)
    (hf : ∀ s, f s.unwritten = f s) : f s' = f s := by
  rw [← hf s', ← hf s]
  refine congrArg f ?_
  cases a with
  | write id entries sync =>
    obtain ⟨_, _, _, rfl⟩ := write_cases hs
    rfl
  | rotate byFlush =>
    obtain ⟨_, _, _, _, _, rfl⟩ := rotate_cases hs
    rfl
  | rotateIo n =>
    obtain ⟨_, _, _, _, _, rfl⟩ := rotateIo_cases hs
    rfl
  | rotateSwap =>
    obtain ⟨_, _, _, _, rfl⟩ := rotateSwap_cases hs
    rfl
  | begin elapsed =>
    obtain ⟨_, _, _, _, _, _, ⟨_, rfl⟩ | ⟨_, rfl⟩⟩ := begin_cases hs <;> rfl
  | append n =>
    obtain ⟨_, _, _, ⟨_, _, rfl⟩ | rfl⟩ := append_cases hs <;> rfl
  | syncLog =>
    obtain ⟨_, _, _, _, rfl⟩ := syncLog_cases hs
    rfl
  | insert =>
    obtain ⟨_, _, _, _, _, _, _, rfl⟩ := insert_cases hs
    rfl
  | finish =>
    obtain ⟨_, _, _, _, _, _, _, rfl⟩ := finish_cases hs
    rfl
  | failAppend n =>
    obtain ⟨_, _, _, _, rfl⟩ := failAppend_cases hs
    rfl
  | failSync =>
    obtain ⟨_, _, _, _, _, rfl⟩ := failSync_cases hs
    rfl
  | failRotate n =>
    obtain ⟨_, _, _, _, rfl⟩ := failRotate_cases hs
    rfl
  | _ => cases hw

end Sys

/-- The `Write` calls, their leader and what it may be waiting for. -/
structure SameQueue (s s' : Sys) : Prop where
  writers : s'.writers = s.writers
  calls : s'.calls = s.calls
  returned : s'.returned = s.returned
  lead : s'.lead = s.lead
  rotating : s'.rotating = s.rotating

theorem Sys.step_queue (hs : LsmKv.step s a = some s') (ha : a.internal) (hw : ¬ a.ofWriter) :
    SameQueue s s' := by
  by_cases hj : a.ofJob
  · exact ⟨kept_job hs hj writers fun _ => rfl, kept_job hs hj calls fun _ => rfl,
      kept_job hs hj returned fun _ => rfl, kept_job hs hj lead fun _ => rfl,
      kept_job hs hj rotating fun _ => rfl⟩
  · exact ⟨kept_read hs ha hw hj writers fun _ => rfl, kept_read hs ha hw hj calls fun _ => rfl,
      kept_read hs ha hw hj returned fun _ => rfl, kept_read hs ha hw hj lead fun _ => rfl,
      kept_read hs ha hw hj rotating fun _ => rfl⟩

/-- Calls are made on an open database. -/
theorem Sys.step_calls (hs : LsmKv.step s a = some s') (ha : a.internal) (hm : s.mode ≠ .running) :
    s'.calls = s.calls := by
  cases a with
  | write id entries sync => exact absurd (write_cases hs).1 hm
  | rotate byFlush => exact absurd (rotate_cases hs).1 hm
  | begin elapsed => exact absurd (begin_cases hs).1 hm
  | rotateIo n =>
    obtain ⟨_, _, _, _, _, rfl⟩ := rotateIo_cases hs
    rfl
  | rotateSwap =>
    obtain ⟨_, _, _, _, rfl⟩ := rotateSwap_cases hs
    rfl
  | append n =>
    obtain ⟨_, _, _, ⟨_, _, rfl⟩ | rfl⟩ := append_cases hs <;> rfl
  | syncLog =>
    obtain ⟨_, _, _, _, rfl⟩ := syncLog_cases hs
    rfl
  | insert =>
    obtain ⟨_, _, _, _, _, _, _, rfl⟩ := insert_cases hs
    rfl
  | finish =>
    obtain ⟨_, _, _, _, _, _, _, rfl⟩ := finish_cases hs
    rfl
  | failAppend n =>
    obtain ⟨_, _, _, _, rfl⟩ := failAppend_cases hs
    rfl
  | failSync =>
    obtain ⟨_, _, _, _, _, rfl⟩ := failSync_cases hs
    rfl
  | failRotate n =>
    obtain ⟨_, _, _, _, rfl⟩ := failRotate_cases hs
    rfl
  | _ => exact (step_queue hs ha not_false).calls

/-- Every call has returned or waits, in the order of the calls, and a group is the front of those
that wait. -/
structure Queue (s : Sys) : Prop where
  calls : s.calls = s.returned.map Prod.fst ++ s.writers
  lead : ∀ ld, s.lead = some ld → ld.members <+: s.writers
  rotating : ∀ r, s.rotating = some r → r.byFlush = false → s.lead = none

namespace Queue

theorem of_same (h : Queue s) (hq : SameQueue s s') : Queue s' where
  calls := by rw [hq.calls, hq.returned, hq.writers, h.calls]
  lead := by rw [hq.lead, hq.writers]; exact h.lead
  rotating := by rw [hq.rotating, hq.lead]; exact h.rotating

theorem retire (h : Queue s) {ms : List Writer} (hp : ms <+: s.writers) (ok : Bool) :
    s.calls = (s.returned ++ ms.map fun w => (w, ok)).map Prod.fst ++ s.writers.drop ms.length := by
  obtain ⟨rest, hrest⟩ := hp
  have hfst : (ms.map fun w => (w, ok)).map Prod.fst = ms := by
    rw [List.map_map]
    exact List.map_id _
  rw [List.map_append, hfst, ← hrest, List.drop_left, List.append_assoc, hrest]
  exact h.calls

theorem of_lead (h : Queue s) (hl : s.lead = some ld) (hl' : s'.lead = some ld')
    (hm : ld'.members = ld.members) (hw : s'.writers = s.writers) (hc : s'.calls = s.calls)
    (hr : s'.returned = s.returned) (hrot : s'.rotating = s.rotating) : Queue s' where
  calls := by rw [hc, hr, hw, h.calls]
  lead x hx := by
    rw [hl'] at hx
    cases hx
    rw [hm, hw]
    exact h.lead ld hl
  rotating r hrr hb := by
    rw [hrot] at hrr
    cases hl.symm.trans (h.rotating r hrr hb)

theorem of_retired (h : Queue s) (hl : s.lead = some ld) (hr : s.rotating = none) (ok : Bool)
    (hw : s'.writers = s.writers.drop ld.members.length) (hc : s'.calls = s.calls)
    (hret : s'.returned = s.returned ++ ld.members.map fun w => (w, ok)) (hl' : s'.lead = none)
    (hrot : s'.rotating = s.rotating) : Queue s' where
  calls := by rw [hc, hret, hw, h.retire (h.lead ld hl) ok]
  lead x hx := by
    rw [hl'] at hx
    cases hx
  rotating r hrr := by
    rw [hrot, hr] at hrr
    cases hrr

theorem step (h : Queue s) (hs : LsmKv.step s a = some s') (ha : a.internal) : Queue s' := by
  cases a with
  | write id entries sync =>
    obtain ⟨_, hrot, _, rfl⟩ := Sys.write_cases hs
    refine ⟨?_, ?_, ?_⟩
    · show s.calls ++ _ = _ ++ (s.writers ++ _)
      rw [h.calls, List.append_assoc]
    · intro ld hl
      exact (h.lead ld hl).trans (List.prefix_append _ _)
    · exact h.rotating
  | rotate byFlush =>
    obtain ⟨_, _, _, _, hwho, rfl⟩ := Sys.rotate_cases hs
    refine ⟨h.calls, h.lead, ?_⟩
    intro r hr hb
    cases hr
    rcases hwho with hflush | ⟨hl, _⟩
    · cases hb.symm.trans hflush
    · exact hl
  | rotateIo n =>
    obtain ⟨r, _, io, hr, _, rfl⟩ := Sys.rotateIo_cases hs
    refine ⟨h.calls, h.lead, ?_⟩
    intro r' hr' hb
    cases hr'
    exact h.rotating r hr hb
  | rotateSwap =>
    obtain ⟨_, _, _, _, rfl⟩ := Sys.rotateSwap_cases hs
    exact ⟨h.calls, h.lead, fun _ hr => by cases hr⟩
  | begin elapsed =>
    obtain ⟨_, hrot, hl, w, ws, hw, ⟨_, rfl⟩ | ⟨_, rfl⟩⟩ := Sys.begin_cases hs
    · refine ⟨?_, ?_, h.rotating⟩
      · have hfront : [w] <+: s.writers := ⟨ws, hw.symm⟩
        have hret := h.retire hfront false
        rw [hw] at hret
        exact hret
      · intro ld hld
        cases hl.symm.trans hld
    · refine ⟨h.calls, ?_, ?_⟩
      · intro ld hld
        cases hld
        show _ <+: s.writers
        rw [hw]
        exact (Writer.buildBatchGroup_spec w ws).1
      · intro r hr
        cases hrot.symm.trans hr
  | append n =>
    obtain ⟨ld, hl, _, ⟨_, _, rfl⟩ | rfl⟩ := Sys.append_cases hs
    · exact h.of_lead hl rfl rfl rfl rfl rfl rfl
    · exact h.of_lead hl rfl rfl rfl rfl rfl rfl
  | syncLog =>
    obtain ⟨ld, hl, _, _, rfl⟩ := Sys.syncLog_cases hs
    exact h.of_lead hl rfl rfl rfl rfl rfl rfl
  | insert =>
    obtain ⟨ld, _, _, hl, _, _, _, rfl⟩ := Sys.insert_cases hs
    exact h.of_lead hl rfl rfl rfl rfl rfl rfl
  | finish =>
    obtain ⟨ld, hl, _, hrot, _, _, _, rfl⟩ := Sys.finish_cases hs
    exact h.of_retired hl hrot true rfl rfl rfl rfl rfl
  | failAppend n =>
    obtain ⟨ld, hl, hrot, _, rfl⟩ := Sys.failAppend_cases hs
    exact h.of_retired hl hrot false rfl rfl rfl rfl rfl
  | failSync =>
    obtain ⟨ld, hl, hrot, _, _, rfl⟩ := Sys.failSync_cases hs
    exact h.of_retired hl hrot false rfl rfl rfl rfl rfl
  | failRotate n =>
    obtain ⟨r, _, hr, _, rfl⟩ := Sys.failRotate_cases hs
    cases hb : r.byFlush with
    | true =>
      refine ⟨?_, h.lead, fun _ hr => by cases hr⟩
      simpa [hb] using h.calls
    | false =>
      refine ⟨?_, ?_, fun _ hr => by cases hr⟩
      · simpa [hb] using h.retire (List.take_prefix 1 s.writers) false
      · intro ld hl
        cases (h.rotating r hr hb).symm.trans hl
  | _ => exact h.of_same (Sys.step_queue hs ha not_false)

theorem kill (s : Sys) : Queue s.kill :=
  ⟨rfl, fun _ hl => (by cases hl), fun _ hr => (by cases hr)⟩

theorem recover (h : Queue s) (hs : s.recover options path = some s') : Queue s' := by
  obtain ⟨_, ⟨_, rfl⟩ | ⟨_, _, _, _, rfl⟩⟩ := Sys.recover_cases hs
  · exact ⟨h.calls, h.lead, h.rotating⟩
  · exact ⟨h.calls, h.lead, h.rotating⟩

/-- Since the database was opened no call is forgotten. -/
theorem run {σ : Prop} (h : Run (Orderly σ) {} s) :
    Queue s ∧ (s.mode ≠ .running → s.calls = []) := by
  refine h.induct (I := fun s => Queue s ∧ (s.mode ≠ .running → s.calls = []))
    ⟨.kill {}, fun _ => rfl⟩ ?_
  rintro s a s' ⟨hq, hnone⟩ hs ho
  rcases ho.power with hint | rfl | ⟨options, path, rfl⟩
  · refine ⟨hq.step hs hint, fun hm => ?_⟩
    have hm' : s.mode ≠ .running := fun h => hm ((Onward.step hs hint).running h)
    rw [Sys.step_calls hs hint hm']
    exact hnone hm'
  · cases hs
    exact ⟨.kill s, fun _ => rfl⟩
  · refine ⟨hq.recover hs, fun _ => ?_⟩
    obtain ⟨hm, ⟨_, rfl⟩ | ⟨_, _, _, _, rfl⟩⟩ := Sys.recover_cases hs
    · exact hnone (by simp [hm])
    · exact hnone (by simp [hm])

end Queue

theorem recsOf_batchesFrom (base : Nat) (ws : List Writer) :
    recsOf (Sys.batchesFrom base ws) = numberRecs base (ws.flatMap Writer.entries) := by
  induction ws generalizing base with
  | nil => rfl
  | cons w ws ih =>
    rw [Sys.batchesFrom, List.flatMap_cons, numberRecs_append, ← ih]
    rfl

theorem entries_batchesFrom (base : Nat) (ws : List Writer) :
    (Sys.batchesFrom base ws).map Group.entries = ws.map Writer.entries := by
  induction ws generalizing base with
  | nil => rfl
  | cons w ws ih =>
    rw [Sys.batchesFrom, List.map_cons, List.map_cons, ih]

/-- The batches of the calls that returned OK, each as one run of sequence numbers, are what was
finished since `s₁`. -/
structure Batches (s₁ s : Sys) (bs : List Group) : Prop where
  entries : bs.map Group.entries = (s.returned.filter Prod.snd).map fun c => c.1.entries
  recs : recsOf s.done = recsOf s₁.done ++ recsOf bs

/-- Calls return OK at the end of their group only. -/
theorem Sys.step_returned (hs : LsmKv.step s a = some s') (ha : a.internal) (hf : a ≠ .finish) :
    ∃ ws : List Writer, s'.returned = s.returned ++ ws.map fun w => (w, false) := by
  have hsame : s'.returned = s.returned →
      ∃ ws : List Writer, s'.returned = s.returned ++ ws.map fun w => (w, false) :=
    fun h => ⟨[], by simp [h]⟩
  cases a with
  | write id entries sync =>
    obtain ⟨_, _, _, rfl⟩ := write_cases hs
    exact hsame rfl
  | rotate byFlush =>
    obtain ⟨_, _, _, _, _, rfl⟩ := rotate_cases hs
    exact hsame rfl
  | rotateIo n =>
    obtain ⟨_, _, _, _, _, rfl⟩ := rotateIo_cases hs
    exact hsame rfl
  | rotateSwap =>
    obtain ⟨_, _, _, _, rfl⟩ := rotateSwap_cases hs
    exact hsame rfl
  | begin elapsed =>
    obtain ⟨_, _, _, w, ws, _, ⟨_, rfl⟩ | ⟨_, rfl⟩⟩ := begin_cases hs
    · exact ⟨[w], rfl⟩
    · exact hsame rfl
  | append n =>
    obtain ⟨_, _, _, ⟨_, _, rfl⟩ | rfl⟩ := append_cases hs
    · exact hsame rfl
    · exact hsame rfl
  | syncLog =>
    obtain ⟨_, _, _, _, rfl⟩ := syncLog_cases hs
    exact hsame rfl
  | insert =>
    obtain ⟨_, _, _, _, _, _, _, rfl⟩ := insert_cases hs
    exact hsame rfl
  | finish => exact absurd rfl hf
  | failAppend n =>
    obtain ⟨ld, _, _, _, rfl⟩ := failAppend_cases hs
    exact ⟨ld.members, rfl⟩
  | failSync =>
    obtain ⟨ld, _, _, _, _, rfl⟩ := failSync_cases hs
    exact ⟨ld.members, rfl⟩
  | failRotate n =>
    obtain ⟨_, _, _, _, rfl⟩ := failRotate_cases hs
    exact ⟨_, rfl⟩
  | _ => exact hsame (step_queue hs ha not_false).returned

theorem Sys.step_filter_returned (hs : LsmKv.step s a = some s') (ha : a.internal)
    (hf : a ≠ .finish) : s'.returned.filter Prod.snd = s.returned.filter Prod.snd := by
  obtain ⟨ws, hws⟩ := step_returned hs ha hf
  have hnone : (ws.map fun w => (w, false)).filter Prod.snd = [] :=
    List.filter_eq_nil_iff.2 (by simp)
  rw [hws, List.filter_append, hnone, List.append_nil]

theorem Batches.step {σ : Prop} {gh : Ghost} {s₁ : Sys} (h : Batches s₁ s bs) (hS : Sound σ gh s)
    (hs : LsmKv.step s a = some s') (ha : a.internal) : ∃ bs', Batches s₁ s' bs' := by
  by_cases hf : a = .finish
  · subst hf
    obtain ⟨ld, hl, _, _, hw, _, _, rfl⟩ := Sys.finish_cases hs
    refine ⟨bs ++ Sys.batchesFrom ld.base ld.members, ?_, ?_⟩
    · have hok : (ld.members.map fun w => (w, true)).filter Prod.snd =
          ld.members.map fun w => (w, true) := List.filter_eq_self.2 (by simp)
      show _ = ((s.returned ++ _).filter _).map _
      rw [List.map_append, List.filter_append, hok, List.map_append, h.entries, entries_batchesFrom,
        List.map_map]
      rfl
    · show recsOf s.hist = _
      rw [(hS.logged.leadOk ld hl).logged hw, recsOf_append, h.recs, recsOf_append,
        recsOf_batchesFrom, recsOf_singleton, List.append_assoc]
      rfl
  · refine ⟨bs, ?_, ?_⟩
    · rw [Sys.step_filter_returned hs ha hf]
      exact h.entries
    · rw [((Sys.step_kept hs ha).2 hf).done]
      exact h.recs

theorem Sys.recover_mode (hs : s.recover options path = some s') : s'.mode ≠ .running := by
  obtain ⟨hm, ⟨_, rfl⟩ | ⟨_, _, _, _, rfl⟩⟩ := recover_cases hs
  · exact fun hr => by cases hm.symm.trans hr
  · exact fun hr => by cases hr

/-- The batches of the calls that returned OK since the process opened the database. -/
theorem Batches.of_open {σ : Prop} {P : Sys → Act → Sys → Prop} {s₀ s₁ : Sys}
    (hP : ∀ {s}, Run P {} s → Run (Orderly σ) {} s) (h : Run P {} s₀)
    (hr : LsmKv.step s₀ (.recover options path) = some s₁) (hp : P s₀ (.recover options path) s₁)
    (h' : Run (fun s a s' => P s a s' ∧ a.internal) s₁ s) :
    Run P {} s ∧ Queue s ∧ ∃ bs, Batches s₁ s bs := by
  have hrun₁ : Run P {} s₁ := h.step hr hp
  refine h'.induct (I := fun s => Run P {} s ∧ Queue s ∧ ∃ bs, Batches s₁ s bs) ?_ ?_
  · obtain ⟨hq, hnone⟩ := Queue.run (hP hrun₁)
    refine ⟨hrun₁, hq, [], ?_, (List.append_nil _).symm⟩
    have hcalls := hq.calls
    rw [hnone (Sys.recover_mode hr)] at hcalls
    have hret : s₁.returned = [] := List.map_eq_nil_iff.1 (List.append_eq_nil_iff.1 hcalls.symm).1
    rw [hret]
    rfl
  · rintro s a s' ⟨hrun, hq, bs, hb⟩ hs ⟨hstep, ha⟩
    refine ⟨hrun.step hs hstep, hq.step hs ha, ?_⟩
    cases Good.run (hP hrun) with
    | opened hS _ _ => exact hb.step hS hs ha
    | closed hi _ hc =>
      rw [hi.step_eq_none ha hc] at hs
      cases hs

/-- Group commit. Since the process opened the database its `Write` calls have returned in the order
in which they were made, the rest waits in that order, and what readers find beyond what `Recover`
found are the batches of the calls that returned OK: each once, as one run of sequence numbers, in
the order of the calls. The logs hold the end of the history, no sequence number twice. -/
theorem group_commit_in_order {s₀ s₁ : Sys} (h : Run Steady {} s₀)
    (hr : step s₀ (.recover options path) = some s₁) (hp : Steady s₀ (.recover options path) s₁)
    (h' : Run (fun s a s' => Steady s a s' ∧ a.internal) s₁ s) (hm : s.mode = .running) :
    s.calls = s.returned.map Prod.fst ++ s.writers ∧
    (∃ bs : List Group,
      bs.map Group.entries = (s.returned.filter Prod.snd).map (fun c => c.1.entries) ∧
      recsOf s.done = recsOf s₁.done ++ recsOf bs ∧
      ∀ k : Bytes, k.length + 8 < 2 ^ 32 → (((s.db.capture none).get k).run s.store).1 =
        answerFor (mapOf (recsOf s₁.done ++ recsOf bs ++ (s.lead.map Lead.inserted).getD []) k)) ∧
    s.done <+: s.hist ∧ SeqAsc (recsOf s.hist) ∧
    ∃ logs pre, Stored s.fs logs s.db.nextFileNumber ∧
      s.hist = pre ++ span logs 0 s.db.nextFileNumber := by
  obtain ⟨hrun, hq, bs, hb⟩ := Batches.of_open (fun h => h.steady.1) h hr hp h'
  cases Good.run hrun.steady.1 with
  | opened hS hD _ =>
    obtain ⟨pre, hal⟩ := (hD.running hm).aligned
    refine ⟨hq.calls, ⟨bs, hb.entries, hb.recs, fun k hk => ?_⟩, hS.logged.pre,
      hS.logged.ok.seqAsc, _, pre, hD.onDisk.stored, hal.split⟩
    rw [← hb.recs]
    exact hS.get_visible hm hk
  | closed hi _ _ => cases hi.mode.symm.trans hm

section Sample

/-- Two calls share a group; the sync of the next group fails while a fourth call waits. -/
def groupedActs : List Act :=
  openActs.tail ++ [.write 1 [⟨.kValue, [97], [1]⟩] false, .write 2 [⟨.kDeletion, [97], []⟩] false,
    .begin false, .write 3 [⟨.kValue, [98], [3]⟩] true, .append 7, .append 0, .syncLog,
    .insert, .insert, .finish, .begin false, .append 0,
    .write 4 [⟨.kValue, [99], [4]⟩] false, .failSync]

theorem group_commit_in_order_sample : ∃ s₁ s, step {} (.recover {} "db") = some s₁ ∧
    runActs (fun s a => Steady.check s a && a.goesOn) s₁ groupedActs = some s ∧
    s.calls.map Writer.id = [1, 2, 3, 4] ∧
    s.returned.map (fun c => (c.1.id, c.2)) = [(1, true), (2, true), (3, false)] ∧
    s.calls = s.returned.map Prod.fst ++ s.writers ∧
    ∃ bs : List Group,
      bs.map Group.entries = [[⟨.kValue, [97], [1]⟩], [⟨.kDeletion, [97], []⟩]] ∧
      (((s.db.capture none).get [97]).run s.store).1 =
        answerFor (mapOf (recsOf s₁.done ++ recsOf bs ++ []) [97]) := by
  obtain ⟨s₁, hr, hc, s, hs, hm, hl, hcalls, hret, hok⟩ : ∃ s₁,
      step {} (.recover {} "db") = some s₁ ∧ Steady.check {} (.recover {} "db") = true ∧
      ∃ s, runActs (fun s a => Steady.check s a && a.goesOn) s₁ groupedActs = some s ∧
      s.mode = .running ∧ s.lead = none ∧ s.calls.map Writer.id = [1, 2, 3, 4] ∧
      s.returned.map (fun c => (c.1.id, c.2)) = [(1, true), (2, true), (3, false)] ∧
      (s.returned.filter Prod.snd).map (fun c => c.1.entries) =
        [[⟨.kValue, [97], [1]⟩], [⟨.kDeletion, [97], []⟩]] := by
    decide +kernel
  have hrun₀ : Run Steady {} {} := .refl
  have hp : Steady {} (.recover {} "db") s₁ := .of_check hc hr hrun₀.shallow
  have hrun := Run.of_steady_with (fun _ => Act.goesOn_spec) (hrun₀.step hr hp) hs
  obtain ⟨h1, ⟨bs, hbs, -, hget⟩, -⟩ := group_commit_in_order hrun₀ hr hp
    (hrun.mono fun _ _ _ hd => ⟨hd.1, hd.2.1⟩) hm
  rw [hl] at hget
  exact ⟨s₁, s, hr, hs, hcalls, hret, h1, bs, hbs.trans hok, hget [97] (by decide)⟩

end Sample

end LsmKv
