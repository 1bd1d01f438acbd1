import LsmKv.Invariant
import LsmKv.Runs

namespace LsmKv
set_option autoImplicit true

open Versioned
open Wal (Group)

variable {σ : Prop} {gh : Ghost} {s s' : Sys}

theorem Frame.of_eq (hm : s'.mode = s.mode) (hd : s'.db = s.db)
    (hs : s'.store.mems = s.store.mems) (ho : s'.opened = s.opened)
    (hf : ∀ n, s'.fs.read (.sst n) = s.fs.read (.sst n))
    (hl : s.mode = .opening → ∀ n, s'.fs.read (.log n) = s.fs.read (.log n)) : Frame s s' where
  mode := hm
  options := by rw [hd]
  current := by rw [hd]
  committing := by rw [hd]
  opened := ho
  next := by rw [hd]
  logNumber := by rw [hd]
  smallest := by rw [hd]
  last _ := by rw [hd]
  imm id h := by rw [hd, hs]; exact ⟨h, rfl⟩
  imm_none _ h := by rw [hd]; exact h
  sst := hf
  log := hl

theorem Db.smallestSnapshot_mono {db db' : Db} (hl : db.lastSequence ≤ db'.lastSequence)
    (hs : ∀ sn ∈ db'.snapshots, sn ∈ db.snapshots ∨ db.lastSequence ≤ sn.sequence) :
    db.smallestSnapshot ≤ db'.smallestSnapshot := by
  obtain ⟨h1, h2⟩ := le_smallestSnapshot_iff.1 (le_refl db.smallestSnapshot)
  refine le_smallestSnapshot_iff.2 ⟨h1.trans hl, fun sn hsn => ?_⟩
  rcases hs sn hsn with h | h
  · exact h2 sn h
  · exact h1.trans h

namespace Sound

theorem running (h : Sound σ gh s) (hne : s.mode ≠ .opening) : s.mode = .running := by
  have := h.is_open
  cases hm : s.mode <;> simp_all

theorem not_opening_of_lead (h : Sound σ gh s) (hl : s.lead = some ld) : s.mode ≠ .opening := by
  intro ho
  rw [(h.opening ho).1] at hl
  cases hl

theorem not_opening_of_rotating (h : Sound σ gh s) (hr : s.rotating = some r) :
    s.mode ≠ .opening := by
  intro ho
  rw [(h.opening ho).2.2.1] at hr
  cases hr

theorem write {id : Nat} (h : Sound σ gh s) (hs : s.write id entries sync = some s') :
    Sound σ gh s' := by
  obtain ⟨hm, _, hne, rfl⟩ := Sys.write_cases hs
  exact { h with
    writers := by
      intro w hw
      rcases List.mem_append.1 hw with hw | hw
      · exact h.writers w hw
      · rw [List.mem_singleton.1 hw]
        exact hne
    jobs := jobs_frame h.jobs rfl (.of_eq rfl rfl rfl rfl (fun _ => rfl) fun _ _ => rfl)
    opening := fun ho => absurd (hm.symm.trans ho) (by simp) }

theorem rotate (h : Sound σ gh s) (hs : s.rotate byFlush = some s') : Sound σ gh s' := by
  obtain ⟨hm, _, _, hi, _, rfl⟩ := Sys.rotate_cases hs
  have hnew : s.fs.read (.log s.db.nextFileNumber) = none := h.tables.fresh rfl le_rfl
  exact { h with
    tables := h.tables.frame (fun _ _ _ => rfl) (Nat.le_succ _) fun _ hn => .inl hn
    log_lt := h.log_lt.trans (Nat.lt_succ_self _)
    rotating := by
      rintro _ ⟨⟩
      exact ⟨Nat.lt_succ_self _, h.log_lt, hi, openingLog_openLog hnew⟩
    jobs := jobs_frame h.jobs rfl
      ⟨rfl, rfl, rfl, rfl, rfl, Nat.le_succ _, le_rfl, le_rfl, fun _ => rfl,
      fun _ hi => ⟨hi, rfl⟩, fun _ hi => hi, fun _ => rfl, fun _ _ => rfl⟩
    opening := fun ho => absurd (hm.symm.trans ho) (by simp) }

theorem rotation_tables (h : Sound σ gh s) (hr : s.rotating = some r)
    (hf : ∀ name, name ≠ .log r.number → fs'.read name = s.fs.read name) :
    Tables fs' s.db.current s.db.nextFileNumber s.store s.opened := by
  refine h.tables.frame (fun _ _ _ => hf _ (by simp)) le_rfl fun name hn => ?_
  by_cases he : name = .log r.number
  · subst he
    right
    rintro _ ⟨⟩
    exact (h.rotating r hr).number_lt
  · left
    rw [Fs.mem_names, hf name he] at hn
    exact Fs.mem_names.2 hn

theorem rotateIo (h : Sound σ gh s) (hs : s.rotateIo n = some s') : Sound σ gh s' := by
  obtain ⟨r, fs, io, hr, hio, rfl⟩ := Sys.rotateIo_cases hs
  have hro := h.rotating r hr
  have hne := h.not_opening_of_rotating hr
  have hf : ∀ name, name ≠ .log r.number → fs.read name = s.fs.read name :=
    fun name hn => read_ioStep hio (hro.log.names hn)
  exact { h with
    tables := h.rotation_tables hr hf
    rotating := by
      rintro _ ⟨⟩
      exact ⟨hro.number_lt, hro.log_lt, hro.imm_none, hro.log.step hio⟩
    jobs := jobs_frame h.jobs rfl (.of_eq rfl rfl rfl rfl (fun n => hf _ (by simp))
      fun ho => absurd ho hne)
    opening := fun ho => absurd ho hne }

theorem failRotate (h : Sound σ gh s) (hs : s.failRotate n = some s') : Sound σ gh s' := by
  obtain ⟨r, fs, hr, hio, rfl⟩ := Sys.failRotate_cases hs
  have hro := h.rotating r hr
  have hne := h.not_opening_of_rotating hr
  have hf : ∀ name, name ≠ .log r.number → fs.read name = s.fs.read name :=
    fun name hn => read_failIo hio (hro.log.names hn)
  exact { h with
    tables := h.rotation_tables hr hf
    writers := fun w hw => h.writers w (List.mem_of_mem_drop hw)
    rotating := by rintro _ ⟨⟩
    jobs := jobs_frame h.jobs rfl (.of_eq rfl rfl rfl rfl (fun n => hf _ (by simp))
      fun ho => absurd ho hne)
    opening := fun ho => absurd ho hne }

end Sound

/-- The memtable becomes immutable, and a new one takes its place. -/
def Ghost.freeze (gh : Ghost) : Ghost := ⟨gh.floor, gh.flushed, gh.active, []⟩

theorem CapOk.rotate (h : CapOk opened mems visible mem nextMem last c) :
    CapOk opened mems visible nextMem (nextMem + 1) last c :=
  { h with
    mem_lt := h.mem_lt.trans (Nat.lt_succ_self _)
    imm_lt := fun id hi =>
      have hid := h.imm_lt id hi
      ⟨hid.1.trans (Nat.lt_succ_self _), hid.1.ne, hid.2.2⟩ }

theorem Layered.freeze (h : Layered gh visible mem none mems current)
    (hnew : (mems nextMem).recs = []) :
    Layered gh.freeze visible nextMem (some mem) mems current where
  split := by
    rw [h.split, h.imm_none rfl]
    simp [Ghost.freeze]
  mem_asc := by
    rw [hnew]
    exact .nil
  mem_iff r := by
    rw [hnew]
    rfl
  imm_none hi := nomatch hi
  imm_asc := by
    rintro _ ⟨⟩
    exact h.mem_asc
  imm_iff := by
    rintro _ ⟨⟩
    exact h.mem_iff
  wf := h.wf
  content := h.content

namespace Sound

theorem rotateSwap (h : Sound σ gh s) (hs : s.rotateSwap = some s') :
    Sound σ gh.freeze s' := by
  obtain ⟨r, hr, _, _, rfl⟩ := Sys.rotateSwap_cases hs
  have hro := h.rotating r hr
  have hne := h.not_opening_of_rotating hr
  have hlay := h.layered fun ho => absurd ho hne
  rw [hro.imm_none] at hlay
  have hnew : (s.store.mems s.nextMem).recs = [] := by
    rw [h.ids.fresh _ le_rfl]
    rfl
  have himm : ∀ id, s.db.imm = some id → False := by
    rw [hro.imm_none]
    exact fun _ hi => nomatch hi
  exact { h with
    ids := by
      refine ⟨Nat.lt_succ_self _, ?_, fun id hid => h.ids.fresh id (Nat.le_of_succ_le hid)⟩
      rintro _ ⟨⟩
      exact ⟨h.ids.mem_lt.trans (Nat.lt_succ_self _), h.ids.mem_lt.ne⟩
    log_lt := hro.number_lt
    imm_log := fun _ => hro.log_lt.le
    layered := fun _ => hlay.freeze hnew
    covers := fun _ => h.covers fun ho => absurd ho hne
    replaying := fun ho => absurd ho hne
    rotating := by rintro _ ⟨⟩
    jobs := jobs_frame h.jobs rfl
      ⟨rfl, rfl, rfl, rfl, rfl, le_rfl, hro.log_lt.le, le_rfl, fun _ => rfl,
      fun id hi => (himm id hi).elim, fun ho => absurd ho hne, fun _ => rfl, fun _ _ => rfl⟩
    gets := fun c hc => ⟨(h.gets c hc).1.rotate, (h.gets c hc).2⟩
    opening := fun ho => absurd ho hne }

end Sound

theorem record_ne_nil (seq : Nat) (b : WriteBatch) : Wal.record seq b ≠ [] := by
  intro he
  have := congrArg List.length he
  rw [Wal.length_record, List.length_nil] at this
  omega

/-- The leader as it leaves the lock. -/
theorem leadOk_begin {lead : Lead} (hm : lead.members = (Writer.buildBatchGroup (w :: ws)).1)
    (hb : lead.batch = (Writer.buildBatchGroup (w :: ws)).2) (hbase : lead.base = last + 1)
    (hseq : lead.seq = last + 1) (hu : lead.unwritten = Wal.record lead.base lead.batch)
    (hi : lead.uninserted = lead.batch.forEach.1) (hne : ∀ x ∈ w :: ws, x.entries ≠ [])
    (hfit : (∀ e ∈ lead.entries, WriteBatch.Fits e) ∧
      12 + (WriteBatch.ofEntries lead.entries).rep.length < 2 ^ 32)
    (hlast : last + lead.batch.count ≤ kMaxSequenceNumber)
    (htop : ∀ g ∈ done, g.base + g.entries.length ≤ last + 1) :
    LeadOk done done (last + lead.batch.count) lead ∧ lead.batch.count = lead.entries.length := by
  obtain ⟨_, hw, hgroup⟩ := Writer.buildBatchGroup_spec w ws
  have hbatch : lead.batch = .ofEntries lead.entries := by
    rw [hb, hgroup, Lead.entries, hm]
  have hnil : lead.entries ≠ [] := by
    intro he
    rw [Lead.entries, hm, List.flatMap_eq_nil_iff] at he
    exact hne w List.mem_cons_self (he w hw)
  have hcount : lead.batch.count = lead.entries.length := by
    have := Wal.Group.length_le_rep lead.entries
    rw [hbatch, WriteBatch.ofEntries_count, Nat.mod_eq_of_lt (by omega)]
  have hpos : 0 < lead.entries.length := List.length_pos_iff.2 hnil
  have hfits : lead.group.Fits := by
    refine ⟨hnil, hfit.1, hfit.2, ?_⟩
    show lead.base < 2 ^ 64
    simp only [kMaxSequenceNumber] at hlast
    omega
  have hrec : lead.unwritten = lead.group.record := by
    rw [hu, hbatch]
    rfl
  refine ⟨⟨hbatch, hfits, by omega, fun g hg => hbase ▸ htop g hg, by omega, ?_, ?_, ?_, ?_, ?_⟩,
    hcount⟩
  · have hall : (WriteBatch.ofEntries lead.entries).forEach = (lead.entries, .ok) := hfits.forEach
    rw [hi, hbatch, hall, hseq, hbase, Nat.sub_self, List.drop_zero]
  · rw [hrec]
  · exact fun _ => ⟨by rw [hseq, hbase], rfl⟩
  · exact fun _ => by rw [hseq, hbase]
  · exact fun he => absurd (hrec.symm.trans he) (record_ne_nil _ _)

theorem CapOk.last_mono (h : CapOk opened mems visible mem nextMem last c) (hl : last ≤ last') :
    CapOk opened mems visible mem nextMem last' c :=
  { h with seq_le := h.seq_le.trans hl }

theorem Pins.last_mono (h : Pins floor last snapshots) (hl : last ≤ last') :
    Pins floor last' snapshots :=
  ⟨h.floor_le.trans hl, fun sn hsn => ⟨(h.snapshot sn hsn).1, (h.snapshot sn hsn).2.trans hl⟩⟩

namespace Sound

theorem begin (h : Sound σ gh s) (hs : s.begin elapsed = some s') (hfit : s'.Fits) :
    Sound σ gh s' := by
  obtain ⟨hm, hrot, hl, w, ws, hw, ⟨_, rfl⟩ | ⟨hok, rfl⟩⟩ := Sys.begin_cases hs
  · exact { h with
      writers := fun x hx => h.writers x (by rw [hw]; exact List.mem_cons_of_mem w hx)
      jobs := jobs_frame h.jobs rfl (.of_eq rfl rfl rfl rfl (fun _ => rfl) fun _ _ => rfl)
      opening := fun ho => absurd (hm.symm.trans ho) (by simp) }
  · have hidle := h.logged.idle hl hok
    have hmo : s.mode ≠ .opening := by simp [hm]
    set lead : Lead := {
      base := s.db.lastSequence + 1
      batch := (Writer.buildBatchGroup (w :: ws)).2
      members := (Writer.buildBatchGroup (w :: ws)).1
      unwritten := Wal.record (s.db.lastSequence + 1) (Writer.buildBatchGroup (w :: ws)).2
      unsynced := s.db.shouldSyncNow w.sync elapsed
      uninserted := (Writer.buildBatchGroup (w :: ws)).2.forEach.1
      seq := s.db.lastSequence + 1 } with hlead
    obtain ⟨hlok, hcount⟩ := @leadOk_begin w ws s.db.lastSequence s.done lead rfl rfl rfl rfl rfl
      rfl (hw ▸ h.writers) (hfit.group lead rfl) hfit.sequence
      fun g hg => h.logged.tops g (h.logged.pre.subset hg)
    have hvis : recsOf s.done ++ ((some lead).map Lead.inserted).getD [] = s.visible := by
      simp [Sys.visible, hl, hlead, Lead.inserted]
    have hle : s.db.lastSequence ≤ s.db.lastSequence + (Writer.buildBatchGroup (w :: ws)).2.count :=
      Nat.le_add_right _ _
    have hsmall : s.db.smallestSnapshot ≤ Db.smallestSnapshot { s.db with
        lastSequence := s.db.lastSequence + (Writer.buildBatchGroup (w :: ws)).2.count } :=
      Db.smallestSnapshot_mono hle fun sn hsn => .inl hsn
    exact { h with
      logged := {
        ok := h.logged.ok
        pre := h.logged.pre
        last_le := hfit.sequence
        tops := fun g hg => (h.logged.tops g hg).trans (Nat.succ_le_succ hle)
        idle := fun hn => nomatch hn
        leadOk := by
          rintro _ ⟨⟩
          show LeadOk s.done s.hist _ lead
          rw [hidle]
          exact hlok }
      pins := h.pins.last_mono hle
      layered := fun _ => by
        have hlay := h.layered fun ho => absurd ho hmo
        rw [← hvis] at hlay
        exact hlay
      covers := fun _ hσ => (h.covers (fun ho => absurd ho hmo) hσ).mono hsmall
      jobs := jobs_frame h.jobs rfl ⟨rfl, rfl, rfl, rfl, rfl, le_rfl, le_rfl, hsmall,
        fun ho => absurd ho hmo, fun _ hi => ⟨hi, rfl⟩, fun _ hi => hi, fun _ => rfl,
        fun _ _ => rfl⟩
      gets := fun c hc => by
        have hcap := (h.gets c hc).1.last_mono hle
        rw [← hvis] at hcap
        exact ⟨hcap, (h.gets c hc).2⟩
      opening := fun ho => absurd ho hmo }

end Sound

theorem LeadOk.unwritten_drop (h : LeadOk done hist last ld) (hn : n < ld.unwritten.length) :
    LeadOk done hist last { ld with unwritten := ld.unwritten.drop n } := by
  have hne : ld.unwritten ≠ [] := by
    intro he
    simp [he] at hn
  exact { h with
    unwritten := (List.drop_suffix _ _).trans h.unwritten
    waiting := fun _ => h.waiting hne
    logged := fun he => by
      have := List.drop_eq_nil_iff.1 he
      omega }

theorem Logged.append {ld : Lead} (h : Logged fine done hist last (some ld))
    (hne : ld.unwritten ≠ []) :
    Logged fine done (hist ++ [ld.group]) last (some { ld with unwritten := [] }) := by
  have hl := h.leadOk ld rfl
  obtain ⟨_, hd⟩ := hl.waiting hne
  have htop : ld.group.base + ld.group.entries.length = last + 1 := hl.top
  refine ⟨?_, h.pre.trans (List.prefix_append _ _), h.last_le, fun g hg => ?_,
    fun hn => (nomatch hn), ?_⟩
  · refine h.ok.snoc hl.fits (by rw [htop]; exact Nat.succ_le_succ h.last_le) fun g hg => ?_
    exact hl.above g (hd ▸ hg)
  · rcases List.mem_append.1 hg with hg | hg
    · exact h.tops g hg
    · rw [List.mem_singleton.1 hg]
      exact htop.le
  · rintro _ ⟨⟩
    exact { hl with
      unwritten := List.nil_suffix
      waiting := fun hc => absurd rfl hc
      logged := fun _ => by rw [hd]; rfl }

namespace Sound

theorem append_tables (h : Sound σ gh s) (n : Nat) (bytes : Bytes) :
    Tables (s.fs.append (.log n) bytes) s.db.current s.db.nextFileNumber s.store s.opened := by
  refine h.tables.frame (fun _ _ _ => ?_) le_rfl fun name hn => .inl ?_
  · rw [Fs.read_append, if_neg (by simp)]
  · rw [Fs.mem_names, Fs.read_append] at hn
    rw [Fs.mem_names]
    split at hn
    · rename_i he
      rw [he]
      intro hc
      simp [hc] at hn
    · exact hn

theorem append_rotating (h : Sound σ gh s) (bytes : Bytes) (hr : s.rotating = some r) :
    RotationOk (s.fs.append (.log s.db.logNumber) bytes) s.db.nextFileNumber s.db.logNumber
      s.db.imm r := by
  have hro := h.rotating r hr
  refine { hro with log := hro.log.frame ?_ }
  rw [Fs.read_append, if_neg (by simpa using hro.log_lt.ne')]

/-- A step of the leader that inserts nothing. -/
theorem lead_step {lead : Option Lead} {writers : List Writer}
    {returned : List (Writer × Bool)} (h : Sound σ gh s) (hl : s.lead = some ld) (bgError : Status)
    (hlog : Logged (bgError.isOk = true) s.done hist s.db.lastSequence lead)
    (hvis : recsOf s.done ++ (lead.map Lead.inserted).getD [] = s.visible)
    (hw : ∀ w ∈ writers, w ∈ s.writers)
    (ht : Tables fs s.db.current s.db.nextFileNumber s.store s.opened)
    (hf : ∀ n, fs.read (.sst n) = s.fs.read (.sst n))
    (hr : ∀ r, s.rotating = some r →
      RotationOk fs s.db.nextFileNumber s.db.logNumber s.db.imm r) :
    Sound σ gh { s with
      fs := fs, lead := lead, hist := hist, db := { s.db with bgError := bgError },
      writers := writers, returned := returned, safe := safe } := by
  have hmo := h.not_opening_of_lead hl
  exact { h with
    logged := hlog
    writers := fun w hm => h.writers w (hw w hm)
    tables := ht
    layered := fun _ => by
      have hlay := h.layered fun ho => absurd ho hmo
      rw [← hvis] at hlay
      exact hlay
    rotating := hr
    jobs := jobs_frame h.jobs rfl ⟨rfl, rfl, rfl, rfl, rfl, le_rfl, le_rfl, le_rfl, fun _ => rfl,
      fun _ hi => ⟨hi, rfl⟩, fun _ hi => hi, hf, fun ho => absurd ho hmo⟩
    gets := fun c hc => by
      have hcap := h.gets c hc
      rw [← hvis] at hcap
      exact hcap
    opening := fun ho => absurd ho hmo }

theorem read_sst_append (fs : DbFs) (n : Nat) (bytes : Bytes) (k : Nat) :
    (fs.append (.log n) bytes).read (.sst k) = fs.read (.sst k) := by
  rw [Fs.read_append, if_neg (by simp)]

theorem append (h : Sound σ gh s) (hs : s.append n = some s') : Sound σ gh s' := by
  obtain ⟨ld, hl, hne, hc⟩ := Sys.append_cases hs
  have hlog := h.logged
  rw [hl] at hlog
  have hvis : ∀ bytes, recsOf s.done ++
      ((some { ld with unwritten := bytes }).map Lead.inserted).getD [] = s.visible := by
    intro bytes
    rw [Sys.visible, hl]
    rfl
  rcases hc with ⟨_, hn, rfl⟩ | rfl
  · refine h.lead_step hl s.db.bgError ?_ (hvis _) (fun _ hw => hw)
      (h.append_tables _ _) (read_sst_append _ _ _) fun r hr => h.append_rotating _ hr
    exact { hlog with
      idle := fun hn => nomatch hn
      leadOk := by
        rintro _ ⟨⟩
        exact (hlog.leadOk ld rfl).unwritten_drop hn }
  · exact h.lead_step hl s.db.bgError (hlog.append hne) (hvis _) (fun _ hw => hw)
      (h.append_tables _ _) (read_sst_append _ _ _) fun r hr => h.append_rotating _ hr

theorem fsync_tables (h : Sound σ gh s) (name : FileName) :
    Tables (s.fs.fsync name) s.db.current s.db.nextFileNumber s.store s.opened :=
  h.tables.frame (fun _ _ _ => Fs.read_fsync _ _ _) le_rfl fun n hn => .inl (by
    rwa [Fs.mem_names, Fs.read_fsync, ← Fs.mem_names] at hn)

theorem syncLog (h : Sound σ gh s) (hs : s.syncLog = some s') : Sound σ gh s' := by
  obtain ⟨ld, hl, _, hu, rfl⟩ := Sys.syncLog_cases hs
  have hlog := h.logged
  rw [hl] at hlog
  refine h.lead_step hl s.db.bgError ?_ ?_ (fun _ hw => hw) (h.fsync_tables _)
    (fun _ => Fs.read_fsync _ _ _) fun r hr => ?_
  · exact { hlog with
      idle := fun hn => nomatch hn
      leadOk := by
        rintro _ ⟨⟩
        exact { hlog.leadOk ld rfl with unsynced := fun hc => nomatch hc } }
  · rw [Sys.visible, hl]
    rfl
  · have hro := h.rotating r hr
    exact { hro with log := hro.log.frame (Fs.read_fsync _ _ _) }

theorem failLead (h : Sound σ gh s) (hl : s.lead = some ld) (hseq : ld.seq = ld.base)
    (ht : Tables fs s.db.current s.db.nextFileNumber s.store s.opened)
    (hf : ∀ n, fs.read (.sst n) = s.fs.read (.sst n))
    (hr : ∀ r, s.rotating = some r →
      RotationOk fs s.db.nextFileNumber s.db.logNumber s.db.imm r) (what : String) :
    Sound σ gh (s.failLead ld fs what) := by
  refine h.lead_step hl (.ioError what) ?_ ?_ (fun _ hw => List.mem_of_mem_drop hw) ht hf
    hr
  · exact { h.logged with
      idle := fun _ hc => nomatch hc
      leadOk := fun _ hc => nomatch hc }
  · simp [Sys.visible, hl, Lead.inserted, hseq]

theorem failAppend (h : Sound σ gh s) (hs : s.failAppend n = some s') : Sound σ gh s' := by
  obtain ⟨ld, hl, _, hn, rfl⟩ := Sys.failAppend_cases hs
  have hne : ld.unwritten ≠ [] := by
    intro he
    simp [he] at hn
  exact h.failLead hl ((h.logged.leadOk ld hl).waiting hne).1 (h.append_tables _ _)
    (read_sst_append _ _ _) (fun r hr => h.append_rotating _ hr) _

theorem failSync (h : Sound σ gh s) (hs : s.failSync = some s') : Sound σ gh s' := by
  obtain ⟨ld, hl, _, _, hu, rfl⟩ := Sys.failSync_cases hs
  exact h.failLead hl ((h.logged.leadOk ld hl).unsynced hu) h.tables (fun _ => rfl) h.rotating _

end Sound

/-- One more entry is in the memtable. -/
theorem LeadOk.insert {rest : List BatchEntry} (h : LeadOk done hist last ld)
    (hu : ld.uninserted = e :: rest)
    (hw : ld.unwritten = []) (hn : ld.unsynced = false) :
    LeadOk done hist last { ld with uninserted := rest, seq := ld.seq + 1 } ∧ e ∈ ld.entries ∧
      ld.seq ≤ last ∧ Lead.inserted { ld with uninserted := rest, seq := ld.seq + 1 } =
        ld.inserted ++ [Rec.encode e.key ld.seq e.type e.value] := by
  have hle := h.le
  have hdrop : ld.entries.drop (ld.seq - ld.base) = e :: rest := h.rest.symm.trans hu
  have hlt : ld.seq - ld.base < ld.entries.length := by
    by_contra hc
    rw [List.drop_of_length_le (not_lt.1 hc)] at hdrop
    cases hdrop
  have hsucc : ld.seq + 1 - ld.base = ld.seq - ld.base + 1 := by omega
  have hrest : ld.entries.drop (ld.seq + 1 - ld.base) = rest := by
    rw [hsucc, ← List.drop_drop, hdrop]
    rfl
  have htake : ld.entries.take (ld.seq + 1 - ld.base) =
      ld.entries.take (ld.seq - ld.base) ++ [e] := by
    rw [hsucc, List.take_add_one, ← List.head?_drop, hdrop]
    rfl
  refine ⟨{ h with
    le := by show ld.base ≤ ld.seq + 1; omega
    rest := hrest.symm
    waiting := fun hc => absurd hw hc
    unsynced := fun hc => by simp [hn] at hc }, ?_, ?_, ?_⟩
  · exact List.mem_of_mem_drop (hdrop ▸ List.mem_cons_self)
  · have := h.top
    omega
  · rw [Lead.inserted_eq, Lead.inserted_eq]
    show numberRecs ld.base (ld.entries.take (ld.seq + 1 - ld.base)) = _
    rw [htake, numberRecs_append, List.length_take, min_eq_left hlt.le,
      Nat.add_sub_cancel' hle]
    rfl

theorem LeadOk.inserted_all (h : LeadOk done hist last ld) (hu : ld.uninserted = []) :
    ld.inserted = ld.group.recs := by
  have hlen := List.drop_eq_nil_iff.1 (h.rest.symm.trans hu)
  rw [Lead.inserted, List.take_of_length_le]
  rw [Wal.Group.recs, length_numberRecs]
  exact hlen

/-- A read goes on while a record above all others is inserted. -/
theorem CapOk.insert (h : CapOk opened mems visible mem nextMem last c) {m : MemTable} {r : Rec}
    (hm : m.recs = insertRun Rec.pos r (mems mem).recs) (hr : r.Ok)
    (hok : ∀ x ∈ visible, x.Ok) (hlt : ∀ x ∈ visible, x.seq < r.seq) :
    CapOk opened (Function.update mems mem m) (visible ++ [r]) mem nextMem last c := by
  have hsame : ∀ l, (∀ id, c.imm = some id → Function.update mems mem m id = mems id) →
      (l :: (c.imm.toList.map fun id => (Function.update mems mem m id).recs) ++ c.version.runs) =
      l :: (c.imm.toList.map fun id => (mems id).recs) ++ c.version.runs := by
    intro l him
    congr 2
    refine List.map_congr_left fun id hid => ?_
    rw [him id (Option.mem_toList.1 hid)]
  have himm : ∀ id, c.imm = some id → Function.update mems mem m id = mems id := fun id hid =>
    Function.update_of_ne (h.imm_lt id hid).2.1 _ _
  have hruns := hsame (Function.update mems mem m c.mem).recs himm
  by_cases hc : c.mem = mem
  · have hnew : (Function.update mems mem m c.mem).recs =
        insertRun Rec.pos r (mems c.mem).recs := by
      rw [hc, Function.update_self, hm]
    have hold := h.runs
    have hsub := h.sub
    rw [Db.Capture.runs, List.cons_append] at hold hsub
    have hmem : ∀ x ∈ (mems c.mem).recs, x ∈ visible := fun x hx =>
      hsub x (List.mem_flatten.2 ⟨_, List.mem_cons_self, hx⟩)
    have hrest : ∀ l ∈ (c.imm.toList.map fun id => (mems id).recs) ++ c.version.runs,
        ∀ x ∈ l, x ∈ visible := fun l hl x hx =>
      hsub x (List.mem_flatten.2 ⟨l, List.mem_cons_of_mem _ hl, hx⟩)
    refine { h with
      runs := ?_
      sub := ?_ }
    · rw [Db.Capture.runs, hruns, hnew, List.cons_append]
      refine ⟨?_, ?_, ?_⟩
      · intro l hl
        rcases List.mem_cons.1 hl with rfl | hl
        · refine (hold.ascending _ List.mem_cons_self).insertRun fun x hx he => ?_
          exact (hlt x (hmem x hx)).ne (Rec.seq_eq_of_pos he)
        · exact hold.ascending l (List.mem_cons_of_mem _ hl)
      · intro l hl x hx
        rcases List.mem_cons.1 hl with rfl | hl
        · rcases mem_insertRun.1 hx with rfl | hx
          · exact hr
          · exact hok x (hmem x hx)
        · exact hold.ok l (List.mem_cons_of_mem _ hl) x hx
      · obtain ⟨h1, h2⟩ := List.pairwise_cons.1 hold.shadows
        refine List.pairwise_cons.2 ⟨fun l hl x hx y hy hk => ?_, h2⟩
        rcases mem_insertRun.1 hx with rfl | hx
        · exact (hlt y (hrest l hl y hy)).le
        · exact h1 l hl x hx y hy hk
    · intro x hx
      rw [Db.Capture.runs, hruns, hnew, List.cons_append, List.flatten_cons, List.mem_append] at hx
      rcases hx with hx | hx
      · rcases mem_insertRun.1 hx with rfl | hx
        · exact List.mem_append_right _ (List.mem_singleton.2 rfl)
        · exact List.mem_append_left _ (hmem x hx)
      · obtain ⟨l, hl, hx⟩ := List.mem_flatten.1 hx
        exact List.mem_append_left _ (hrest l hl x hx)
  · have hall : c.runs (Function.update mems mem m) = c.runs mems := by
      rw [Db.Capture.runs, hruns, Function.update_of_ne hc]
      rfl
    exact { h with
      runs := hall ▸ h.runs
      sub := fun x hx => List.mem_append_left _ (h.sub x (hall ▸ hx)) }

def Ghost.insert (gh : Ghost) (r : Rec) : Ghost :=
  ⟨gh.floor, gh.flushed, gh.frozen, gh.active ++ [r]⟩

theorem Layered.insert (h : Layered gh visible mem imm mems current) {m : MemTable} {r : Rec}
    (hm : m.recs = insertRun Rec.pos r (mems mem).recs) (himm : ∀ id, imm = some id → id ≠ mem)
    (hlt : ∀ x ∈ visible, x.seq < r.seq) :
    Layered (gh.insert r) (visible ++ [r]) mem imm (Function.update mems mem m) current where
  split := by
    rw [h.split]
    simp [Ghost.insert]
  mem_asc := by
    rw [Function.update_self, hm]
    refine h.mem_asc.insertRun fun x hx he => ?_
    have hv : x ∈ visible := by
      rw [h.split]
      exact List.mem_append_right _ (List.mem_append_right _ ((h.mem_iff x).1 hx))
    exact (hlt x hv).ne (Rec.seq_eq_of_pos he)
  mem_iff x := by
    rw [Function.update_self, hm, mem_insertRun, h.mem_iff, Ghost.insert, List.mem_append,
      List.mem_singleton, or_comm]
  imm_none := h.imm_none
  imm_asc id hid := by
    rw [Function.update_of_ne (himm id hid)]
    exact h.imm_asc id hid
  imm_iff id hid := by
    rw [Function.update_of_ne (himm id hid)]
    exact h.imm_iff id hid
  wf := h.wf
  content := h.content

namespace Sound

theorem insert (h : Sound σ gh s) (hs : s.insert = some s') : ∃ r, Sound σ (gh.insert r) s' := by
  obtain ⟨ld, e, rest, hl, hu, hw, hn, rfl⟩ := Sys.insert_cases hs
  have hmo := h.not_opening_of_lead hl
  have hlog := h.logged
  have hlt : ∀ x ∈ s.visible, x.seq < ld.seq := fun x hx => by
    rw [Sys.visible, hl] at hx
    rw [hl] at hlog
    exact hlog.visible_lt hx
  have hok : ∀ x ∈ s.visible, x.Ok := fun x hx => (h.logged.mem_visible hx).1
  rw [hl] at hlog
  obtain ⟨hlead, he, hseq, hins⟩ := (hlog.leadOk ld rfl).insert hu hw hn
  have hfit := (hlog.leadOk ld rfl).fits.entry e he
  have hkmax := hseq.trans hlog.last_le
  set r := Rec.encode e.key ld.seq e.type e.value with hr
  have hrseq : r.seq = ld.seq := Rec.encode_seq hkmax
  have hrecs : ((s.store.mems s.db.mem).add ld.seq e.type e.key e.value).recs =
      insertRun Rec.pos r (s.store.mems s.db.mem).recs := by
    exact MemTable.recs_add _ _ _ hfit
  have hvis : recsOf s.done ++ ((some { ld with uninserted := rest, seq := ld.seq + 1 }).map
      Lead.inserted).getD [] = s.visible ++ [r] := by
    rw [Sys.visible, hl, Option.map_some, Option.getD_some, hins, Option.map_some,
      Option.getD_some, List.append_assoc]
  have hlt' : ∀ x ∈ s.visible, x.seq < r.seq := fun x hx => hrseq ▸ hlt x hx
  refine ⟨r, { h with
    logged := { hlog with
      idle := fun hc => nomatch hc
      leadOk := by
        rintro _ ⟨⟩
        exact hlead }
    ids := { h.ids with
      fresh := fun id hid => by
        have hne : id ≠ s.db.mem := (h.ids.mem_lt.trans_le hid).ne'
        show Function.update _ _ _ id = _
        rw [Function.update_of_ne hne, h.ids.fresh id hid] }
    tables := { h.tables with
      serves := ⟨rfl, h.tables.serves.cache, h.tables.serves.faults⟩ }
    layered := fun _ => by
      have hlay := (h.layered fun ho => absurd ho hmo).insert hrecs
        (fun id hid => (h.ids.imm_lt id hid).2) hlt'
      rw [← hvis] at hlay
      exact hlay
    covers := fun _ => h.covers fun ho => absurd ho hmo
    replaying := fun ho => absurd ho hmo
    jobs := jobs_frame h.jobs rfl ⟨rfl, rfl, rfl, rfl, rfl, le_rfl, le_rfl, le_rfl, fun _ => rfl,
      fun id hi => ⟨hi, Function.update_of_ne (h.ids.imm_lt id hi).2 _ _⟩, fun _ hi => hi,
      fun _ => rfl, fun _ _ => rfl⟩
    gets := fun c hc => by
      have hcap := (h.gets c hc).1.insert hrecs (Rec.encode_ok hkmax) hok hlt'
      rw [← hvis] at hcap
      exact ⟨hcap, (h.gets c hc).2⟩
    opening := fun ho => absurd ho hmo }⟩

theorem finish (h : Sound σ gh s) (hs : s.finish = some s') : Sound σ gh s' := by
  obtain ⟨ld, hl, _, _, hw, _, hu, rfl⟩ := Sys.finish_cases hs
  have hmo := h.not_opening_of_lead hl
  have hlead := h.logged.leadOk ld hl
  have hhist := hlead.logged hw
  have hvis : recsOf s.hist ++ ((none : Option Lead).map Lead.inserted).getD [] = s.visible := by
    rw [Sys.visible, hl, hhist, recsOf_append, recsOf_singleton, Option.map_some, Option.getD_some,
      hlead.inserted_all hu]
    simp
  exact { h with
    logged := { h.logged with
      pre := List.prefix_refl _
      idle := fun _ _ => rfl
      leadOk := fun _ hc => nomatch hc }
    writers := fun w hm => h.writers w (List.mem_of_mem_drop hm)
    layered := fun _ => by
      have hlay := h.layered fun ho => absurd ho hmo
      rw [← hvis] at hlay
      exact hlay
    replaying := fun ho => absurd ho hmo
    jobs := jobs_frame h.jobs rfl (.of_eq rfl rfl rfl rfl (fun _ => rfl) fun _ _ => rfl)
    gets := fun c hc => by
      have hcap := h.gets c hc
      rw [← hvis] at hcap
      exact hcap
    opening := fun ho => absurd ho hmo }

theorem snapshots {snapshots : List Snapshot} (h : Sound σ gh s) (hm : s.mode = .running)
    (hp : Pins gh.floor s.db.lastSequence snapshots)
    (hS : s.db.smallestSnapshot ≤ Db.smallestSnapshot { s.db with snapshots := snapshots }) :
    Sound σ gh { s with db := { s.db with snapshots := snapshots }, nextHandle := handle } := by
  have hmo : s.mode ≠ .opening := by simp [hm]
  exact { h with
    pins := hp
    covers := fun ho hσ => (h.covers ho hσ).mono hS
    jobs := jobs_frame h.jobs rfl ⟨rfl, rfl, rfl, rfl, rfl, le_rfl, le_rfl, hS, fun _ => rfl,
      fun _ hi => ⟨hi, rfl⟩, fun _ hi => hi, fun _ => rfl, fun _ _ => rfl⟩
    opening := fun ho => absurd ho hmo }

theorem getSnapshot (h : Sound σ gh s) (hs : s.getSnapshot = some s') : Sound σ gh s' := by
  obtain ⟨hm, _, rfl⟩ := Sys.getSnapshot_cases hs
  refine h.snapshots hm ⟨h.pins.floor_le, fun sn hsn => ?_⟩
    (Db.smallestSnapshot_mono le_rfl fun sn hsn => ?_)
  · rcases List.mem_append.1 hsn with hsn | hsn
    · exact h.pins.snapshot sn hsn
    · rw [List.mem_singleton.1 hsn]
      exact ⟨h.pins.floor_le, le_rfl⟩
  · refine (List.mem_append.1 hsn).imp id fun hsn => ?_
    rw [List.mem_singleton.1 hsn]

theorem releaseSnapshot (h : Sound σ gh s) (hs : s.releaseSnapshot handle = some s') :
    Sound σ gh s' := by
  obtain ⟨hm, _, rfl⟩ := Sys.releaseSnapshot_cases hs
  exact h.snapshots hm
    ⟨h.pins.floor_le, fun sn hsn => h.pins.snapshot sn (List.mem_of_mem_filter hsn)⟩
    (Db.smallestSnapshot_mono le_rfl fun sn hsn => .inl (List.mem_of_mem_filter hsn))

theorem capOk (h : Sound σ gh s) (hm : s.mode = .running)
    (hsn : ∀ x, sn = some x → x ∈ s.db.snapshots) :
    CapOk s.opened s.store.mems s.visible s.db.mem s.nextMem s.db.lastSequence
      (s.db.capture sn) := by
  have hlay := h.layered fun ho => by simp [hm] at ho
  have hruns := hlay.runsOk h.logged.seqAsc fun r hr => (h.logged.mem_visible hr).1
  refine ⟨?_, hlay.wf.ok, hruns, fun r hr => hlay.mem_runs hr, h.ids.mem_lt, fun id hi => ?_, ?_⟩
  · rintro t ⟨l, f, hf, rfl⟩
    exact (h.tables.live l f hf).1
  · have hid := h.ids.imm_lt id hi
    exact ⟨hid.1, hid.2, hid.2⟩
  · cases sn with
    | none => exact le_rfl
    | some x => exact (h.pins.snapshot x (hsn x rfl)).2

theorem getBegin {id : Nat} {key : Bytes} (h : Sound σ gh s)
    (hs : s.getBegin id key snapshot = some s') (hfit : s'.Fits) : Sound σ gh s' := by
  obtain ⟨sn, hsn, hm, _, _, rfl⟩ := Sys.getBegin_cases hs
  exact { h with
    jobs := jobs_frame h.jobs rfl (.of_eq rfl rfl rfl rfl (fun _ => rfl) fun _ _ => rfl)
    gets := fun c hc => by
      refine ⟨?_, hfit.key c hc⟩
      rcases List.mem_append.1 hc with hc | hc
      · exact (h.gets c hc).1
      · rw [List.mem_singleton.1 hc]
        exact h.capOk hm (Sys.readPoint_mem hsn)
    opening := fun ho => absurd (hm.symm.trans ho) (by simp) }

theorem store_step {store : Store} (h : Sound σ gh s)
    (hs : store.Serves (· ∈ s.opened) s.store.mems) : Sound σ gh { s with store := store } := by
  obtain ⟨mems, cache, faults⟩ := store
  obtain rfl : mems = s.store.mems := hs.mems
  exact { h with
    tables := { h.tables with serves := hs }
    jobs := jobs_frame h.jobs rfl (.of_eq rfl rfl rfl rfl (fun _ => rfl) fun _ _ => rfl) }

end Sound

theorem CapOk.ok (h : CapOk opened mems visible mem nextMem last c)
    (hT : TablesOk (· ∈ opened)) (ha : SeqAsc visible) (hl : last ≤ kMaxSequenceNumber) :
    c.Ok (· ∈ opened) mems where
  tables := hT
  opened := h.tables
  version := h.version
  runs := h.runs
  distinct := ha.distinct.mono fun r hr => h.sub r hr
  seq := h.seq_le.trans hl

namespace Sound

theorem captured_ok (h : Sound σ gh s)
    (hc : CapOk s.opened s.store.mems s.visible s.db.mem s.nextMem s.db.lastSequence c) :
    c.Ok (· ∈ s.opened) s.store.mems :=
  hc.ok h.tables.tablesOk h.logged.seqAsc h.logged.last_le

theorem getEnd {id : Nat} (h : Sound σ gh s) (hs : s.getEnd id = some s') : Sound σ gh s' := by
  obtain ⟨call, hc, _, rfl⟩ := Sys.getEnd_cases hs
  obtain ⟨hcap, hkey⟩ := h.gets call hc
  have hserve := ((h.captured_ok hcap).run_get h.tables.serves hkey).2
  have hst := h.store_step hserve
  exact { hst with
    jobs := jobs_frame hst.jobs rfl (.of_eq rfl rfl rfl rfl (fun _ => rfl) fun _ _ => rfl)
    gets := fun c hc => hst.gets c (List.mem_of_mem_filter hc)
    opening := fun ho => by
      have := (h.opening ho).2.2.2.2.1
      rw [this] at hc
      cases hc }

theorem newIterator {id : Nat} (h : Sound σ gh s) (hs : s.newIterator id snapshot = some s') :
    Sound σ gh s' := by
  obtain ⟨sn, _, _, _, rfl⟩ := Sys.newIterator_cases hs
  exact { h with
    jobs := jobs_frame h.jobs rfl (.of_eq rfl rfl rfl rfl (fun _ => rfl) fun _ _ => rfl) }

theorem moveScan {id : Nat} (h : Sound σ gh s) (hs : s.moveScan id fresh f = some s')
    (hserve : s'.store.Serves (· ∈ s.opened) s.store.mems) : Sound σ gh s' := by
  obtain ⟨scan, _, _, rfl⟩ := Sys.moveScan_cases hs
  have hst := h.store_step hserve
  exact { hst with
    jobs := jobs_frame hst.jobs rfl (.of_eq rfl rfl rfl rfl (fun _ => rfl) fun _ _ => rfl) }

end Sound

end LsmKv
