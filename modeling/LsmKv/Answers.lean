import LsmKv.Clients

namespace LsmKv
set_option autoImplicit true

open Versioned
open Wal (Group)

variable {σ : Prop} {gh : Ghost} {s s' t : Sys} {c : Db.Capture}

/-- A read shows, at its point, all that was inserted so far. What the leader has yet to insert
at or below that point goes to the memtable that the read captured. -/
structure Sees (s : Sys) (c : Db.Capture) : Prop where
  agree : AgreeAt c.seq {r | r ∈ s.visible} (c.content s.store.mems)
  mem : ∀ ld, s.lead = some ld → ld.base ≤ c.seq → c.mem = s.db.mem

/-- A step that inserts nothing. The records of a new leader come after all read points. -/
structure Calm (s s' : Sys) : Prop where
  visible : s'.visible = s.visible
  mems : s'.store.mems = s.store.mems
  lead : ∀ ld', s'.lead = some ld' → s.db.lastSequence < ld'.base ∧ ld'.seq = ld'.base ∨
    s'.db.mem = s.db.mem ∧ ∃ ld, s.lead = some ld ∧ ld.base = ld'.base ∧ ld.seq = ld'.seq
  nextMem : s.nextMem ≤ s'.nextMem
  mem : s'.db.mem = s.db.mem ∨ s'.db.mem = s.nextMem

theorem Calm.of_eq (hd : s'.done = s.done) (hl : s'.lead = s.lead) (hm : s'.db.mem = s.db.mem)
    (hn : s'.nextMem = s.nextMem) (hs : s'.store.mems = s.store.mems) : Calm s s' := by
  refine ⟨?_, hs, fun ld' hl' => .inr ⟨hm, ld', hl ▸ hl', rfl, rfl⟩, hn.ge, .inl hm⟩
  rw [Sys.visible, Sys.visible, hd, hl]

theorem Calm.of_lead (hl : s.lead = some ld) (hl' : s'.lead = some ld') (hb : ld'.base = ld.base)
    (hq : ld'.seq = ld.seq) (hi : ld'.inserted = ld.inserted) (hd : s'.done = s.done)
    (hm : s'.db.mem = s.db.mem) (hn : s'.nextMem = s.nextMem)
    (hs : s'.store.mems = s.store.mems) : Calm s s' := by
  refine ⟨?_, hs, fun ld₁ hl₁ => .inr ⟨hm, ld, hl, ?_⟩, hn.ge, .inl hm⟩
  · rw [Sys.visible, Sys.visible, hd, hl, hl', Option.map_some, Option.map_some, hi]
  · rw [hl'] at hl₁
    cases hl₁
    exact ⟨hb.symm, hq.symm⟩

theorem Sees.calm (h : Sees s c) (hc : Calm s s') (hseq : c.seq ≤ s.db.lastSequence) :
    Sees s' c := by
  refine ⟨?_, fun ld' hl' hb => ?_⟩
  · rw [hc.visible, hc.mems]
    exact h.agree
  · rcases hc.lead ld' hl' with ⟨hlt, _⟩ | ⟨hm, ld, hl, he, _⟩
    · omega
    · rw [hm]
      exact h.mem ld hl (he ▸ hb)

theorem CapOk.calm
    (h : CapOk s.opened s.store.mems s.visible s.db.mem s.nextMem s.db.lastSequence c)
    (hc : Calm s s') (ho : s.opened <+: s'.opened) (hl : s.db.lastSequence ≤ s'.db.lastSequence) :
    CapOk s'.opened s'.store.mems s'.visible s'.db.mem s'.nextMem s'.db.lastSequence c where
  tables t ht := ho.subset (h.tables t ht)
  version := h.version
  runs := hc.mems ▸ h.runs
  sub := by
    rw [hc.mems, hc.visible]
    exact h.sub
  mem_lt := h.mem_lt.trans_le hc.nextMem
  imm_lt id hid := by
    obtain ⟨hlt, hne, hne'⟩ := h.imm_lt id hid
    refine ⟨hlt.trans_le hc.nextMem, ?_, hne'⟩
    rcases hc.mem with hm | hm
    · rwa [hm]
    · rw [hm]
      exact hlt.ne
  seq_le := h.seq_le.trans hl

section Insert
variable {opened : List Table} {mems : Nat → MemTable} {visible : List Rec} {mem nextMem last : Nat}
  {m : MemTable} {r : Rec}

theorem CapOk.content_insert (h : CapOk opened mems visible mem nextMem last c)
    (hm : m.recs = insertRun Rec.pos r (mems mem).recs) :
    c.content (Function.update mems mem m) = {x | x = r ∧ c.mem = mem} ∪ c.content mems := by
  have himm : (c.imm.toList.map fun id => (Function.update mems mem m id).recs) =
      c.imm.toList.map fun id => (mems id).recs := by
    refine List.map_congr_left fun id hid => ?_
    rw [Function.update_of_ne (h.imm_lt id (Option.mem_toList.1 hid)).2.1]
  ext x
  simp only [Db.Capture.content, Db.Capture.runs, himm, List.cons_append, List.flatten_cons,
    List.mem_append, Set.mem_ofPred_eq, Set.mem_union]
  by_cases hc : c.mem = mem
  · rw [hc, Function.update_self, hm, mem_insertRun]
    tauto
  · rw [Function.update_of_ne hc]
    tauto

theorem CapOk.content_sub (h : CapOk opened mems visible mem nextMem last c) :
    c.content mems ⊆ {x | x ∈ visible} := fun x hx => h.sub x hx

theorem CapOk.agree_insert (h : CapOk opened mems visible mem nextMem last c)
    (hm : m.recs = insertRun Rec.pos r (mems mem).recs) (hlt : ∀ x ∈ visible, x.seq < r.seq)
    (ha : AgreeAt c.seq {x | x ∈ visible} (c.content mems)) (hmem : r.seq ≤ c.seq → c.mem = mem) :
    AgreeAt c.seq {x | x ∈ visible ++ [r]} (c.content (Function.update mems mem m)) := by
  rw [h.content_insert hm, setOf_mem_append]
  by_cases hc : r.seq ≤ c.seq
  · have hset : {x | x = r ∧ c.mem = mem} = {x | x ∈ [r]} := by
      ext x
      simp [hmem hc]
    have habove : Above {x | x ∈ [r]} {x | x ∈ visible} := fun x hx y hy => by
      rw [List.mem_singleton.1 hx]
      exact hlt y hy
    rw [hset]
    exact ha.union_above habove fun x hx y hy => habove x hx y (h.content_sub hy)
  · have hlater : ∀ x ∈ {x | x ∈ [r]}, c.seq < Versioned.seq x := fun x hx => by
      rw [List.mem_singleton.1 hx]
      exact not_le.1 hc
    have hlater' : ∀ x ∈ {x | x = r ∧ c.mem = mem}, c.seq < Versioned.seq x := fun x hx =>
      hlater x (List.mem_singleton.2 hx.1)
    exact ((agreeAt_union_later hlater).trans ha).trans (agreeAt_union_later hlater').symm

end Insert

/-- The record of the leader's next entry. -/
def Lead.newRec (ld : Lead) (e : BatchEntry) : Rec := Rec.encode e.key ld.seq e.type e.value

/-- One more record is in the memtable. -/
structure Inserts (s s' : Sys) (ld : Lead) (e : BatchEntry) : Prop where
  lead : s.lead = some ld
  lead' : ∃ rest, s'.lead = some { ld with uninserted := rest, seq := ld.seq + 1 }
  mem : s'.db.mem = s.db.mem
  base_le : ld.base ≤ ld.seq
  fits : e.key.length + e.value.length + 16 < 2 ^ 32
  ok : (ld.newRec e).Ok
  seq : (ld.newRec e).seq = ld.seq
  visible : s'.visible = s.visible ++ [ld.newRec e]
  later : ∀ x ∈ s.visible, x.seq < (ld.newRec e).seq
  mems : s'.store.mems = Function.update s.store.mems s.db.mem
    ((s.store.mems s.db.mem).add ld.seq e.type e.key e.value)

theorem Inserts.recs (h : Inserts s s' ld e) :
    ((s.store.mems s.db.mem).add ld.seq e.type e.key e.value).recs =
      insertRun Rec.pos (ld.newRec e) (s.store.mems s.db.mem).recs :=
  MemTable.recs_add _ _ _ h.fits

namespace Sound

theorem inserts (h : Sound σ gh s) (hs : s.insert = some s') : ∃ ld e, Inserts s s' ld e := by
  obtain ⟨ld, e, rest, hl, hu, hw, hn, rfl⟩ := Sys.insert_cases hs
  have hlog := h.logged
  rw [hl] at hlog
  have hlead := hlog.leadOk ld rfl
  obtain ⟨_, he, hseq, hins⟩ := hlead.insert hu hw hn
  have hmax := hseq.trans hlog.last_le
  have hrseq : (ld.newRec e).seq = ld.seq := Rec.encode_seq hmax
  refine ⟨ld, e, hl, ⟨rest, rfl⟩, rfl, hlead.le, hlead.fits.entry e he, ?_, hrseq, ?_,
    fun x hx => ?_, rfl⟩
  · exact Rec.encode_ok hmax
  · rw [Sys.visible, Sys.visible, hl, Option.map_some, Option.getD_some, hins, Option.map_some,
      Option.getD_some, List.append_assoc]
    rfl
  · rw [hrseq]
    rw [Sys.visible, hl] at hx
    exact hlog.visible_lt hx

theorem sees_insert (h : Sound σ gh s) (hs : s.insert = some s')
    (hc : CapOk s.opened s.store.mems s.visible s.db.mem s.nextMem s.db.lastSequence c)
    (hsee : Sees s c) : Sees s' c := by
  obtain ⟨ld, e, hi⟩ := h.inserts hs
  refine ⟨?_, fun ld' hl' hle => ?_⟩
  · rw [hi.visible, hi.mems]
    refine hc.agree_insert hi.recs hi.later hsee.agree fun hle => hsee.mem ld hi.lead ?_
    exact hi.base_le.trans (hi.seq ▸ hle)
  · obtain ⟨rest, hrest⟩ := hi.lead'
    cases hrest.symm.trans hl'
    exact (hsee.mem ld hi.lead hle).trans hi.mem.symm

/-- A read that starts now sees everything up to its point. -/
theorem sees_now (h : Sound σ gh s) (hσ : σ) (hm : s.mode = .running)
    (hsn : ∀ x, sn = some x → x ∈ s.db.snapshots) : Sees s (s.db.capture sn) := by
  have hlay := h.layered_running hm
  have hag := h.covers (fun ho => by simp [hm] at ho) hσ
  have hle : s.db.smallestSnapshot ≤ (s.db.capture sn).seq := by
    obtain ⟨hlast, hsnaps⟩ := Db.le_smallestSnapshot_iff.1 (le_refl s.db.smallestSnapshot)
    cases sn with
    | none => exact hlast
    | some x => exact hsnaps x (hsn x rfl)
  have hasc := h.logged.seqAsc
  rw [show recsOf s.done ++ (s.lead.map Lead.inserted).getD [] = _ from hlay.split] at hasc
  have habove := hasc.above
  have hcontent : (s.db.capture sn).content s.store.mems =
      {r | r ∈ gh.frozen ++ gh.active} ∪ s.db.current.content := by
    ext r
    have himm : (∃ l ∈ s.db.imm.toList.map fun id => (s.store.mems id).recs, r ∈ l) ↔
        r ∈ gh.frozen := by
      cases hi : s.db.imm with
      | none => simp [hlay.imm_none hi]
      | some id => simp [hlay.imm_iff id hi]
    simp only [Db.Capture.content, Db.Capture.runs, Db.capture, List.cons_append, List.flatten_cons,
      List.flatten_append, List.mem_append, Set.mem_ofPred_eq, Set.mem_union, hlay.mem_iff,
      Version.mem_runs hlay.wf.ok.empty]
    rw [List.mem_flatten, himm]
    tauto
  refine ⟨?_, fun _ _ _ => rfl⟩
  rw [hcontent, hlay.split, setOf_mem_append]
  exact AgreeAt.union_above (hag _ hle) habove fun x hx y hy => habove x hx y (hlay.content y hy)

theorem reads_now (h : Sound σ gh s) (hσ : σ) (hm : s.mode = .running)
    (hsn : ∀ x, sn = some x → x ∈ s.db.snapshots) {k : Bytes} (hk : k.length + 8 < 2 ^ 32) :
    Reads {r | r ∈ s.visible} k (s.db.capture sn).seq
      (((s.db.capture sn).get k).run s.store).1 := by
  have hok := h.captured_ok (h.capOk hm hsn)
  exact (h.sees_now hσ hm hsn).agree.reads.2 (hok.run_get h.tables.serves hk).1

end Sound

theorem Calm.failLead (hl : s.lead = some ld) (hseq : ld.seq = ld.base) (fs : DbFs)
    (what : String) :
    Calm s (s.failLead ld fs what) := by
  refine ⟨?_, rfl, fun _ hc => (by cases hc), le_rfl, .inl rfl⟩
  simp [Sys.failLead, Sys.visible, hl, Lead.inserted, hseq]

namespace Sound

/-- Of the steps of an open database only an insert changes what was inserted. -/
theorem calm (h : Sound σ gh s) (hC : ScansOk s) (hs : LsmKv.step s a = some s') (ha : a.internal)
    (hi : a ≠ .insert) (hswap : a = .rotateSwap → s.lead = none) : Calm s s' := by
  have hjob : a.ofJob → Calm s s' := fun hj =>
    .of_eq (Sys.kept_job hs hj Sys.done fun _ => rfl) (Sys.kept_job hs hj Sys.lead fun _ => rfl)
      (Sys.kept_job hs hj (·.db.mem) fun _ => rfl) (Sys.kept_job hs hj Sys.nextMem fun _ => rfl)
      (h.mems_job hs hj)
  have hscan : a.movesScan → s'.store.mems = s.store.mems := fun hm => (hC.moves h hs hm).1.mems
  cases a with
  | insert => exact absurd rfl hi
  | write id entries sync =>
    obtain ⟨_, _, _, rfl⟩ := Sys.write_cases hs
    exact .of_eq rfl rfl rfl rfl rfl
  | rotate byFlush =>
    obtain ⟨_, _, _, _, _, rfl⟩ := Sys.rotate_cases hs
    exact .of_eq rfl rfl rfl rfl rfl
  | rotateIo n =>
    obtain ⟨_, _, _, _, _, rfl⟩ := Sys.rotateIo_cases hs
    exact .of_eq rfl rfl rfl rfl rfl
  | rotateSwap =>
    have hl := hswap rfl
    obtain ⟨_, _, _, _, rfl⟩ := Sys.rotateSwap_cases hs
    refine ⟨rfl, rfl, fun ld' hl' => ?_, Nat.le_succ _, .inr rfl⟩
    exact absurd (hl.symm.trans hl') (by simp)
  | begin elapsed =>
    obtain ⟨_, _, hl, w, ws, _, ⟨_, rfl⟩ | ⟨_, rfl⟩⟩ := Sys.begin_cases hs
    · exact .of_eq rfl rfl rfl rfl rfl
    · refine ⟨?_, rfl, ?_, le_rfl, .inl rfl⟩
      · simp [Sys.visible, hl, Lead.inserted]
      · rintro _ ⟨⟩
        exact .inl ⟨Nat.lt_succ_self _, rfl⟩
  | append n =>
    obtain ⟨ld, hl, _, ⟨_, _, rfl⟩ | rfl⟩ := Sys.append_cases hs
    · exact .of_lead hl rfl rfl rfl rfl rfl rfl rfl rfl
    · exact .of_lead hl rfl rfl rfl rfl rfl rfl rfl rfl
  | syncLog =>
    obtain ⟨ld, hl, _, _, rfl⟩ := Sys.syncLog_cases hs
    exact .of_lead hl rfl rfl rfl rfl rfl rfl rfl rfl
  | finish =>
    obtain ⟨ld, hl, _, _, hw, _, hu, rfl⟩ := Sys.finish_cases hs
    have hlead := h.logged.leadOk ld hl
    refine ⟨?_, rfl, fun _ hc => (by cases hc), le_rfl, .inl rfl⟩
    rw [Sys.visible, Sys.visible, hl, hlead.logged hw, recsOf_append, recsOf_singleton,
      Option.map_some, Option.getD_some, hlead.inserted_all hu]
    simp
  | getSnapshot =>
    obtain ⟨_, _, rfl⟩ := Sys.getSnapshot_cases hs
    exact .of_eq rfl rfl rfl rfl rfl
  | releaseSnapshot handle =>
    obtain ⟨_, _, rfl⟩ := Sys.releaseSnapshot_cases hs
    exact .of_eq rfl rfl rfl rfl rfl
  | getBegin id key snapshot =>
    obtain ⟨_, _, _, _, _, rfl⟩ := Sys.getBegin_cases hs
    exact .of_eq rfl rfl rfl rfl rfl
  | getEnd id =>
    obtain ⟨call, hc, _, rfl⟩ := Sys.getEnd_cases hs
    obtain ⟨hcap, hkey⟩ := h.gets call hc
    exact .of_eq rfl rfl rfl rfl ((h.captured_ok hcap).run_get h.tables.serves hkey).2.mems
  | newIterator id snapshot =>
    obtain ⟨_, _, _, _, rfl⟩ := Sys.newIterator_cases hs
    exact .of_eq rfl rfl rfl rfl rfl
  | seekToFirst id =>
    have hmems := hscan trivial
    have hmove : s.moveScan id true DBIter.seekToFirst = some s' := hs
    obtain ⟨_, _, _, rfl⟩ := Sys.moveScan_cases hmove
    exact .of_eq rfl rfl rfl rfl hmems
  | seek id target =>
    have hmems := hscan trivial
    have hmove : s.moveScan id true (DBIter.seek · target) = some s' := hs
    obtain ⟨_, _, _, rfl⟩ := Sys.moveScan_cases hmove
    exact .of_eq rfl rfl rfl rfl hmems
  | next id =>
    have hmems := hscan trivial
    obtain ⟨_, _, _, _, hmove⟩ := Sys.next_cases hs
    obtain ⟨_, _, _, rfl⟩ := Sys.moveScan_cases hmove
    exact .of_eq rfl rfl rfl rfl hmems
  | failAppend n =>
    obtain ⟨ld, hl, _, hn, rfl⟩ := Sys.failAppend_cases hs
    have hne : ld.unwritten ≠ [] := by
      intro he
      simp [he] at hn
    exact .failLead hl ((h.logged.leadOk ld hl).waiting hne).1 _ _
  | failSync =>
    obtain ⟨ld, hl, _, _, hu, rfl⟩ := Sys.failSync_cases hs
    exact .failLead hl ((h.logged.leadOk ld hl).unsynced hu) _ _
  | failRotate n =>
    obtain ⟨_, _, _, _, rfl⟩ := Sys.failRotate_cases hs
    exact .of_eq rfl rfl rfl rfl rfl
  | startFlush => exact hjob trivial
  | startCompaction level => exact hjob trivial
  | startLog => exact hjob trivial
  | job i n order => exact hjob trivial
  | failJob i n => exact hjob trivial
  | kill => cases ha
  | recover options path => cases ha
  | powerLoss keep cut => cases ha
  | powerLossData cut => cases ha

end Sound

/-- A read returned what the records inserted by then say at its point. A read without a snapshot
saw all that was acknowledged before it. -/
def Answer.Right (hist : List Group) (a : Answer) : Prop :=
  ∃ U : List Rec, (∀ r ∈ U, r ∈ recsOf hist) ∧
    Reads {r | r ∈ U} a.call.key a.call.capture.seq a.result ∧
    (a.call.snapshot = none → ∀ g ∈ a.call.acked, ∀ r ∈ g.recs, r ∈ U ∧ r.seq ≤ a.call.capture.seq)

theorem Answer.Right.mono {a : Answer} (h : a.Right hist) (hp : hist <+: hist') :
    a.Right hist' := by
  obtain ⟨U, hU, hreads, hacked⟩ := h
  refine ⟨U, fun r hr => ?_, hreads, hacked⟩
  obtain ⟨g, hg, hr⟩ := List.mem_flatMap.1 (hU r hr)
  exact List.mem_flatMap.2 ⟨g, hp.subset hg, hr⟩

/-- The reads in flight, and those that have returned. -/
structure Seen (s : Sys) : Prop where
  acked : ∀ g ∈ s.acked, g ∈ s.done
  gets : ∀ c ∈ s.gets, Sees s c.capture ∧ (c.snapshot = none → ∀ g ∈ c.acked,
    g ∈ s.done ∧ g.base + g.entries.length ≤ c.capture.seq + 1)
  answers : ∀ a ∈ s.answers, a.Right s.hist

namespace Seen

theorem calm (h : Seen s) (hS : Sound σ gh s) (hc : Calm s s') (hg : s'.gets = s.gets)
    (ha : s'.answers = s.answers) (hk : ∀ g ∈ s'.acked, g ∈ s.acked ∨ g ∈ s'.done)
    (hd : s.done <+: s'.done) (hh : s.hist <+: s'.hist) : Seen s' := by
  refine ⟨fun g hm => ?_, fun c hm => ?_, fun a hm => ?_⟩
  · rcases hk g hm with hm | hm
    · exact hd.subset (h.acked g hm)
    · exact hm
  · rw [hg] at hm
    obtain ⟨hsee, hacked⟩ := h.gets c hm
    refine ⟨hsee.calm hc (hS.gets c hm).1.seq_le, fun hn g hgm => ?_⟩
    exact ⟨hd.subset (hacked hn g hgm).1, (hacked hn g hgm).2⟩
  · rw [ha] at hm
    exact (h.answers a hm).mono hh

theorem insert (h : Seen s) (hS : Sound σ gh s) (hs : s.insert = some s') : Seen s' := by
  have hgets : ∀ c ∈ s.gets, Sees s' c.capture := fun c hc =>
    hS.sees_insert hs (hS.gets c hc).1 (h.gets c hc).1
  obtain ⟨ld, e, rest, hl, _, _, _, rfl⟩ := Sys.insert_cases hs
  exact ⟨h.acked, fun c hc => ⟨hgets c hc, (h.gets c hc).2⟩, h.answers⟩

theorem finish (h : Seen s) (hS : Sound σ gh s) (hs : s.finish = some s') (hcalm : Calm s s') :
    Seen s' := by
  obtain ⟨ld, hl, _, _, hw, _, _, rfl⟩ := Sys.finish_cases hs
  have hhist := (hS.logged.leadOk ld hl).logged hw
  refine h.calm hS hcalm rfl rfl (fun g hm => ?_) ?_ List.prefix_rfl
  · refine (List.mem_append.1 hm).imp id fun hm => ?_
    rw [List.mem_singleton.1 hm, hhist]
    exact List.mem_append_right _ (List.mem_singleton.2 rfl)
  · rw [hhist]
    exact List.prefix_append _ _

theorem getBegin {id : Nat} {key : Bytes} (h : Seen s) (hS : Sound σ gh s) (hσ : σ)
    (hs : s.getBegin id key snapshot = some s') : Seen s' := by
  obtain ⟨sn, hsn, hm, _, _, rfl⟩ := Sys.getBegin_cases hs
  have hcalm : Calm s { s with gets := s.gets ++ [⟨id, key, sn, s.db.capture sn, s.acked⟩] } :=
    .of_eq rfl rfl rfl rfl rfl
  refine ⟨h.acked, fun c hc => ?_, h.answers⟩
  rcases List.mem_append.1 hc with hc | hc
  · exact ⟨(h.gets c hc).1.calm hcalm (hS.gets c hc).1.seq_le, (h.gets c hc).2⟩
  · obtain rfl := List.mem_singleton.1 hc
    refine ⟨(hS.sees_now hσ hm (Sys.readPoint_mem hsn)).calm hcalm
      (hS.capOk hm (Sys.readPoint_mem hsn)).seq_le, ?_⟩
    rintro rfl g hg
    exact ⟨h.acked g hg, hS.logged.tops g (hS.logged.pre.subset (h.acked g hg))⟩

theorem reads (h : Seen s) (hS : Sound σ gh s) (hc : call ∈ s.gets) :
    Reads {r | r ∈ s.visible} call.key call.capture.seq
      ((call.capture.get call.key).run s.store).1 ∧
      ((call.capture.get call.key).run s.store).2.mems = s.store.mems := by
  obtain ⟨hcap, hkey⟩ := hS.gets call hc
  obtain ⟨hreads, hserves⟩ := (hS.captured_ok hcap).run_get hS.tables.serves hkey
  exact ⟨(h.gets call hc).1.agree.reads.2 hreads, hserves.mems⟩

theorem getEnd {id : Nat} (h : Seen s) (hS : Sound σ gh s) (hs : s.getEnd id = some s') :
    Seen s' := by
  obtain ⟨call, hc, _, rfl⟩ := Sys.getEnd_cases hs
  obtain ⟨hreads, hmems⟩ := h.reads hS hc
  refine ⟨h.acked, fun c hcm => ?_, fun a ha => ?_⟩
  · have hcm := List.mem_of_mem_filter hcm
    refine ⟨(h.gets c hcm).1.calm ?_ (hS.gets c hcm).1.seq_le, (h.gets c hcm).2⟩
    exact .of_eq rfl rfl rfl rfl hmems
  · rcases List.mem_append.1 ha with ha | ha
    · exact h.answers a ha
    · obtain rfl := List.mem_singleton.1 ha
      refine ⟨s.visible, fun r hr => hS.logged.visible_mem hr, hreads, fun hn g hg r hr => ?_⟩
      obtain ⟨hdone, htop⟩ := (h.gets call hc).2 hn g hg
      have hmem : r ∈ recsOf s.done := List.mem_flatMap.2 ⟨g, hdone, hr⟩
      have hbound := hS.logged.done_ok.bound g hdone
      have hlt := (mem_numberRecs hbound hr).2.2
      exact ⟨List.mem_append_left _ hmem, by dsimp only; omega⟩

theorem internal (h : Seen s) (hS : Sound σ gh s) (hC : ScansOk s) (hσ : σ)
    (hs : LsmKv.step s a = some s') (ha : a.internal) (hswap : a = .rotateSwap → s.lead = none) :
    Seen s' := by
  by_cases hi : a = .insert
  · subst hi
    exact h.insert hS hs
  have hcalm := hS.calm hC hs ha hi hswap
  obtain ⟨hreaders, hdone⟩ := Sys.step_kept hs ha
  by_cases hf : a = .finish
  · subst hf
    exact h.finish hS hs hcalm
  have hd := hdone hf
  have hkeep : s'.gets = s.gets → s'.answers = s.answers → Seen s' := fun hg han =>
    h.calm hS hcalm hg han (fun _ hm => .inl (hd.acked ▸ hm)) (hd.done ▸ List.prefix_rfl)
      (Onward.step hs ha).hist
  cases a with
  | getBegin id key snapshot => exact h.getBegin hS hσ hs
  | getEnd id => exact h.getEnd hS hs
  | getSnapshot =>
    obtain ⟨_, _, rfl⟩ := Sys.getSnapshot_cases hs
    exact hkeep rfl rfl
  | releaseSnapshot handle =>
    obtain ⟨_, _, rfl⟩ := Sys.releaseSnapshot_cases hs
    exact hkeep rfl rfl
  | _ => exact hkeep (hreaders not_false).gets (hreaders not_false).answers

theorem kill (h : Seen s) (hd : ∀ g ∈ s.done, g ∈ s.hist) : Seen s.kill :=
  ⟨fun g hg => hd g (h.acked g hg), fun _ hc => (by cases hc), h.answers⟩

theorem recover (h : Seen s) (hg : s.gets = []) (hs : s.recover options path = some s') :
    Seen s' := by
  have hnone : ∀ c ∈ s.gets, Sees s' c.capture ∧ (c.snapshot = none → ∀ g ∈ c.acked,
      g ∈ s'.done ∧ g.base + g.entries.length ≤ c.capture.seq + 1) := fun c hc => by
    rw [hg] at hc
    cases hc
  obtain ⟨_, ⟨_, rfl⟩ | ⟨_, _, _, _, rfl⟩⟩ := Sys.recover_cases hs
  · exact ⟨h.acked, hnone, h.answers⟩
  · exact ⟨h.acked, hnone, h.answers⟩

theorem step (h : Seen s) (hg : Good σ s) (hσ : σ) (hs : LsmKv.step s a = some s')
    (ho : Orderly σ s a s') : Seen s' := by
  rcases ho.power with hint | rfl | ⟨options, path, rfl⟩
  · cases hg with
    | opened hS hD hC => exact h.internal hS hC hσ hs hint fun ha => ho.swap ha hσ
    | closed hi hd hc =>
      rw [hi.step_eq_none hint hc] at hs
      cases hs
  · cases hs
    cases hg with
    | opened hS hD hC => exact h.kill fun g hm => hS.logged.pre.subset hm
    | closed hi hd hc => exact h.kill fun g hm => hi.done ▸ hm
  · cases hg with
    | opened hS hD hC =>
      have hr : s.recover options path = some s' := hs
      rw [Sys.recover, if_neg hS.is_open] at hr
      cases hr
    | closed hi hd hc => exact h.recover hi.gets hs

/-- Every read of an orderly run sees what it should. -/
theorem run (h : Run (Orderly σ) {} s) (hσ : σ) : Seen s := by
  induction h with
  | refl => exact ⟨fun _ hg => (by cases hg), fun _ hc => (by cases hc), fun _ ha => (by cases ha)⟩
  | step h hs ho ih => exact ih.step (Good.run h) hσ hs ho

end Seen

/-- A read returned the effect of a write to its key that is not older than any acknowledged before
the read, or found none when none was. -/
def Answer.Effect (hist : List Group) (a : Answer) : Prop :=
  (∃ r ∈ recsOf hist, r.userKey = a.call.key ∧ a.result = r.answer ∧
      ∀ g ∈ a.call.acked, ∀ x ∈ g.recs, x.userKey = a.call.key → x.seq ≤ r.seq) ∨
    a.result = .error .notFound ∧ ∀ g ∈ a.call.acked, ∀ x ∈ g.recs, x.userKey ≠ a.call.key

theorem Answer.Right.effect {a : Answer} (h : a.Right hist) (hn : a.call.snapshot = none) :
    a.Effect hist := by
  obtain ⟨U, hU, hreads, hacked⟩ := h
  have hmax : ∀ {r}, Newest {x | x ∈ U} a.call.key a.call.capture.seq r →
      ∀ g ∈ a.call.acked, ∀ x ∈ g.recs, x.userKey = a.call.key → x.seq ≤ r.seq :=
    fun hr g hg x hx hk => hr.max x (hacked hn g hg x hx).1 hk (hacked hn g hg x hx).2
  rcases hreads with ⟨v, hres, r, ⟨hr, hlive⟩, rfl⟩ | ⟨hres, hnone⟩
  · have hdead : r.isDeletion = false := hlive
    refine .inl ⟨r, hU r hr.mem, hr.key_eq, ?_, hmax hr⟩
    rw [hres, Rec.answer, hdead]
    rfl
  · by_cases hex : ∃ x ∈ U, x.userKey = a.call.key ∧ x.seq ≤ a.call.capture.seq
    · obtain ⟨x, hx, hk, hle⟩ := hex
      obtain ⟨r, hr⟩ := exists_newest (List.finite_toSet U) hx hle
      have hr : Newest {x | x ∈ U} a.call.key a.call.capture.seq r := hk ▸ hr
      have hdead : r.isDeletion = true := by
        by_contra hc
        exact hnone r.2 ⟨r, ⟨hr, Bool.eq_false_iff.2 hc⟩, rfl⟩
      refine .inl ⟨r, hU r hr.mem, hr.key_eq, ?_, hmax hr⟩
      rw [hres, Rec.answer, hdead]
      rfl
    · refine .inr ⟨hres, fun g hg x hx hk => hex ⟨x, ?_⟩⟩
      exact ⟨(hacked hn g hg x hx).1, hk, (hacked hn g hg x hx).2⟩

end LsmKv
