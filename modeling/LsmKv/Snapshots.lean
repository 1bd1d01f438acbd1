import LsmKv.Background

namespace LsmKv
set_option autoImplicit true

open Versioned
open Wal (Group)

variable {σ : Prop} {gh : Ghost} {s s' : Sys} {gs : List Group} {h p : Nat}

/-- Up to `p` the open database shows what the groups `gs` say, and no leader can add to that. -/
structure Shows (s : Sys) (gs : List Group) (p : Nat) : Prop where
  agree : AgreeAt p {r | r ∈ recsOf gs} {r | r ∈ s.visible}
  lead : ∀ ld, s.lead = some ld → p < ld.seq

theorem Shows.calm (h : Shows s gs p) (hc : Calm s s') (hp : p ≤ s.db.lastSequence) :
    Shows s' gs p := by
  refine ⟨hc.visible ▸ h.agree, fun ld' hl' => ?_⟩
  rcases hc.lead ld' hl' with ⟨hlt, hseq⟩ | ⟨_, ld, hl, _, hseq⟩
  · omega
  · exact hseq ▸ h.lead ld hl

theorem Sound.shows_insert (h : Sound σ gh s) (hs : s.insert = some s') (hsh : Shows s gs p) :
    Shows s' gs p := by
  obtain ⟨ld, e, hi⟩ := h.inserts hs
  have hlater : ∀ x ∈ {x | x ∈ [ld.newRec e]}, p < Versioned.seq x := fun x hx => by
    rw [List.mem_singleton.1 hx]
    exact (hsh.lead ld hi.lead).trans_eq hi.seq.symm
  refine ⟨?_, fun ld' hl' => ?_⟩
  · rw [hi.visible, setOf_mem_append]
    exact hsh.agree.trans (agreeAt_union_later hlater).symm
  · obtain ⟨rest, hrest⟩ := hi.lead'
    cases hrest.symm.trans hl'
    exact (hsh.lead ld hi.lead).trans (Nat.lt_succ_self _)

theorem Sound.shows_internal (h : Sound σ gh s) (hC : ScansOk s) (hs : LsmKv.step s a = some s')
    (ha : a.internal) (hswap : a = .rotateSwap → s.lead = none) (hp : p ≤ s.db.lastSequence)
    (hsh : Shows s gs p) : Shows s' gs p := by
  by_cases hi : a = .insert
  · subst hi
    exact h.shows_insert hs hsh
  · exact hsh.calm (h.calm hC hs ha hi hswap) hp

theorem Sys.shows_done (hl : s.lead = none) (p : Nat) : Shows s s.done p := by
  refine ⟨?_, fun ld hc => absurd (hl.symm.trans hc) (by simp)⟩
  have hvis : s.visible = recsOf s.done := by simp [Sys.visible, hl]
  rw [hvis]
  exact fun _ _ => Iff.rfl

/-- Every entry of the write under way is inserted. -/
def Sys.CaughtUp (s : Sys) : Prop := ∀ ld, s.lead = some ld → ld.uninserted = []

/-- The finished groups, and the one under way. -/
def Sys.applied (s : Sys) : List Group := s.done ++ (s.lead.map Lead.group).toList

theorem Sys.applied_of_idle (hl : s.lead = none) : s.applied = s.done := by
  simp [applied, hl]

theorem LeadOk.caught_up (h : LeadOk done hist last ld) (hu : ld.uninserted = []) :
    last < ld.seq ∧ hist = done ++ [ld.group] := by
  have hle := h.le
  have htop := h.top
  have hrest := List.drop_eq_nil_iff.1 (h.rest.symm.trans hu)
  have hpos := List.length_pos_iff.2 h.fits.nonempty
  have hne : 0 < ld.entries.length := hpos
  refine ⟨by omega, h.logged (Classical.byContradiction fun hw => ?_)⟩
  have hseq := (h.waiting hw).1
  omega

theorem Sound.histOk_applied (h : Sound σ gh s) (hc : s.CaughtUp) : HistOk s.applied := by
  cases hl : s.lead with
  | none => exact Sys.applied_of_idle hl ▸ h.logged.done_ok
  | some ld =>
    have hhist := ((h.logged.leadOk ld hl).caught_up (hc ld hl)).2
    rw [Sys.applied, hl, Option.map_some, Option.toList_some, ← hhist]
    exact h.logged.ok

theorem Sound.visible_applied (h : Sound σ gh s) (hc : s.CaughtUp) :
    s.visible = recsOf s.applied := by
  cases hl : s.lead with
  | none => simp [Sys.visible, Sys.applied, hl]
  | some ld =>
    rw [Sys.visible, Sys.applied, hl, Option.map_some, Option.getD_some, Option.map_some,
      Option.toList_some, recsOf_append, recsOf_singleton,
      (h.logged.leadOk ld hl).inserted_all (hc ld hl)]

theorem Sound.shows_applied (h : Sound σ gh s) (hc : s.CaughtUp) :
    Shows s s.applied s.db.lastSequence := by
  refine ⟨?_, fun ld hl => ((h.logged.leadOk ld hl).caught_up (hc ld hl)).1⟩
  rw [h.visible_applied hc]
  exact fun _ _ => Iff.rfl

/-- The snapshots that clients hold, those they read through and those they have read through,
each with what there is to say of it. -/
structure Handles (s : Sys) (Held : Snapshot → Prop) (Reading : GetCall → Snapshot → Prop)
    (Read : Answer → Snapshot → Prop) : Prop where
  snapshots : s.mode ≠ .closed → ∀ sn ∈ s.db.snapshots, Held sn
  gets : ∀ c ∈ s.gets, ∀ sn, c.snapshot = some sn → Reading c sn
  answers : ∀ a ∈ s.answers, ∀ sn, a.call.snapshot = some sn → Read a sn

section Handles
variable {Held Held' : Snapshot → Prop} {Reading Reading' : GetCall → Snapshot → Prop}
  {Read Read' : Answer → Snapshot → Prop}

/-- What a step of the open database must show of a new snapshot, of a read that starts, and of one
that returns. -/
structure Handles.Steps (s : Sys) (a : Act) (Held Held' : Snapshot → Prop)
    (Reading Reading' : GetCall → Snapshot → Prop) (Read Read' : Answer → Snapshot → Prop) :
    Prop where
  held : ∀ sn ∈ s.db.snapshots, Held sn → Held' sn
  reading : ∀ c ∈ s.gets, ∀ sn, Reading c sn → Reading' c sn
  read : ∀ a sn, Read a sn → Read' a sn
  taken : a = .getSnapshot → Held' ⟨s.nextHandle, s.db.lastSequence⟩
  begun : ∀ id key, ∀ sn ∈ s.db.snapshots, Held sn →
    Reading' ⟨id, key, some sn, s.db.capture (some sn), s.acked⟩ sn
  ended : ∀ c ∈ s.gets, ∀ sn, Reading c sn →
    Read' ⟨c, ((c.capture.get c.key).run s.store).1⟩ sn

theorem Handles.internal (h : Handles s Held Reading Read) (ho : s.mode ≠ .closed)
    (hs : LsmKv.step s a = some s') (ha : a.internal)
    (hst : Handles.Steps s a Held Held' Reading Reading' Read Read') :
    Handles s' Held' Reading' Read' := by
  have hheld : ∀ sn ∈ s.db.snapshots, Held' sn := fun sn hm => hst.held sn hm (h.snapshots ho sn hm)
  have hreading : ∀ c ∈ s.gets, ∀ sn, c.snapshot = some sn → Reading' c sn := fun c hm sn hsn =>
    hst.reading c hm sn (h.gets c hm sn hsn)
  have hread : ∀ a ∈ s.answers, ∀ sn, a.call.snapshot = some sn → Read' a sn := fun a hm sn hsn =>
    hst.read a sn (h.answers a hm sn hsn)
  by_cases hr : a.ofReader
  · cases a with
    | getSnapshot =>
      obtain ⟨_, _, rfl⟩ := Sys.getSnapshot_cases hs
      refine ⟨fun _ sn hm => ?_, hreading, hread⟩
      rcases List.mem_append.1 hm with hm | hm
      · exact hheld sn hm
      · rw [List.mem_singleton.1 hm]
        exact hst.taken rfl
    | releaseSnapshot handle =>
      obtain ⟨_, _, rfl⟩ := Sys.releaseSnapshot_cases hs
      exact ⟨fun _ sn hm => hheld sn (List.mem_of_mem_filter hm), hreading, hread⟩
    | getBegin id key snapshot =>
      obtain ⟨point, hp, _, _, _, rfl⟩ := Sys.getBegin_cases hs
      refine ⟨fun _ => hheld, fun c hm sn hsn => ?_, hread⟩
      rcases List.mem_append.1 hm with hm | hm
      · exact hreading c hm sn hsn
      · obtain rfl := List.mem_singleton.1 hm
        obtain rfl : point = some sn := hsn
        have hmem := Sys.readPoint_mem hp sn rfl
        exact hst.begun id key sn hmem (h.snapshots ho sn hmem)
    | getEnd id =>
      obtain ⟨call, hc, _, rfl⟩ := Sys.getEnd_cases hs
      refine ⟨fun _ => hheld, fun c hm => hreading c (List.mem_of_mem_filter hm),
        fun a hm sn hsn => ?_⟩
      rcases List.mem_append.1 hm with hm | hm
      · exact hread a hm sn hsn
      · obtain rfl := List.mem_singleton.1 hm
        exact hst.ended call hc sn (h.gets call hc sn hsn)
    | _ => cases hr
  · have hsame := (Sys.step_kept hs ha).1 hr
    exact ⟨fun _ => hsame.snapshots ▸ hheld, hsame.gets ▸ hreading, hsame.answers ▸ hread⟩

theorem Handles.kill (h : Handles s Held Reading Read) : Handles s.kill Held' Reading' Read :=
  ⟨fun hm => absurd rfl hm, fun _ hc => (by cases hc), h.answers⟩

theorem Handles.recover (h : Handles s Held Reading Read) (hg : s.gets = [])
    (hs : s.recover options path = some s') : Handles s' Held' Reading' Read := by
  have hnone : ∀ c ∈ s.gets, ∀ sn, c.snapshot = some sn → Reading' c sn := fun c hc => by
    rw [hg] at hc
    cases hc
  obtain ⟨hm, ⟨_, rfl⟩ | ⟨_, _, _, _, rfl⟩⟩ := Sys.recover_cases hs
  · exact ⟨fun ho => absurd hm ho, hnone, h.answers⟩
  · exact ⟨fun _ _ hmem => (by cases hmem), hnone, h.answers⟩

/-- In an orderly run only the steps of the open database are left to show. -/
theorem Handles.step (h : Handles s Held Reading Read) (hg : Good σ s)
    (hs : LsmKv.step s a = some s') (ho : Orderly σ s a s')
    (hread : ∀ a sn, Read a sn → Read' a sn)
    (hst : ∀ gh, Sound σ gh s → ScansOk s → a.internal →
      Handles.Steps s a Held Held' Reading Reading' Read Read') :
    Handles s' Held' Reading' Read' := by
  have hmono : Handles s Held Reading Read' :=
    ⟨h.snapshots, h.gets, fun a hm sn hsn => hread a sn (h.answers a hm sn hsn)⟩
  rcases ho.power with hint | rfl | ⟨options, path, rfl⟩
  · cases hg with
    | opened hS hD hC => exact h.internal hS.is_open hs hint (hst _ hS hC hint)
    | closed hi hd hc =>
      rw [hi.step_eq_none hint hc] at hs
      cases hs
  · cases hs
    exact hmono.kill
  · cases hg with
    | opened hS hD hC =>
      have hr : s.recover options path = some s' := hs
      rw [Sys.recover, if_neg hS.is_open] at hr
      cases hr
    | closed hi hd hc => exact hmono.recover hi.gets hs

end Handles

theorem Orderly.nextHandle_le (ho : Orderly σ s a s') (hs : LsmKv.step s a = some s') :
    s.nextHandle ≤ s'.nextHandle := by
  rcases ho.power with hint | rfl | ⟨options, path, rfl⟩
  · by_cases hr : a.ofReader
    · cases a with
      | getSnapshot =>
        obtain ⟨_, _, rfl⟩ := Sys.getSnapshot_cases hs
        exact Nat.le_succ _
      | releaseSnapshot handle =>
        obtain ⟨_, _, rfl⟩ := Sys.releaseSnapshot_cases hs
        exact le_rfl
      | getBegin id key snapshot =>
        obtain ⟨_, _, _, _, _, rfl⟩ := Sys.getBegin_cases hs
        exact le_rfl
      | getEnd id =>
        obtain ⟨_, _, _, rfl⟩ := Sys.getEnd_cases hs
        exact le_rfl
      | _ => cases hr
    · exact ((Sys.step_kept hs hint).1 hr).nextHandle.ge
  · cases hs
    exact le_rfl
  · obtain ⟨_, ⟨_, rfl⟩ | ⟨_, _, _, _, rfl⟩⟩ := Sys.recover_cases hs
    · exact le_rfl
    · exact le_rfl

/-- All handles that clients know were given to them. -/
def Given (s : Sys) : Prop :=
  Handles s (fun sn => sn.handle < s.nextHandle) (fun _ sn => sn.handle < s.nextHandle)
    (fun _ sn => sn.handle < s.nextHandle)

theorem Given.run (h : Run (Orderly σ) {} s) : Given s := by
  induction h with
  | refl => exact ⟨fun hm => absurd rfl hm, fun _ hc => (by cases hc), fun _ ha => (by cases ha)⟩
  | @step s a s' h hs ho ih =>
    have hle := ho.nextHandle_le hs
    refine Handles.step ih (Good.run h) hs ho (fun _ _ hlt => hlt.trans_le hle) fun gh hS hC hint =>
      ⟨fun _ _ hlt => hlt.trans_le hle, fun _ _ _ hlt => hlt.trans_le hle,
        fun _ _ hlt => hlt.trans_le hle, ?_, fun _ _ _ _ hlt => hlt.trans_le hle,
        fun _ _ _ hlt => hlt.trans_le hle⟩
    rintro rfl
    obtain ⟨_, _, rfl⟩ := Sys.getSnapshot_cases hs
    exact Nat.lt_succ_self _

/-- The snapshot of handle `h` reads the groups `gs` up to `p`. -/
def Viewed (h : Nat) (gs : List Group) (p : Nat) (s : Sys) : Prop :=
  Handles s (fun sn => sn.handle = h → sn.sequence = p ∧ Shows s gs p)
    (fun c sn => sn.handle = h → c.capture.seq = p ∧ Shows s gs p)
    (fun a sn => sn.handle = h → Reads {r | r ∈ recsOf gs} a.call.key p a.result)

theorem Viewed.taken (hsh : Shows s gs s.db.lastSequence) (hg : Given s)
    (hs : s.getSnapshot = some s') : Viewed s.nextHandle gs s.db.lastSequence s' := by
  have hne : ∀ sn : Snapshot, sn.handle < s.nextHandle → ¬ sn.handle = s.nextHandle :=
    fun sn hlt => hlt.ne
  obtain ⟨hm, _, rfl⟩ := Sys.getSnapshot_cases hs
  refine ⟨fun _ sn hmem heq => ?_, fun c hc sn hsn heq => ?_, fun a ha sn hsn heq => ?_⟩
  · rcases List.mem_append.1 hmem with hmem | hmem
    · exact absurd heq (hne sn (hg.snapshots (by simp [hm]) sn hmem))
    · rw [List.mem_singleton.1 hmem]
      exact ⟨rfl, hsh.agree, hsh.lead⟩
  · exact absurd heq (hne sn (hg.gets c hc sn hsn))
  · exact absurd heq (hne sn (hg.answers a ha sn hsn))

theorem Viewed.step (hv : Viewed h gs p s) (hseen : Seen s) (hg : Good σ s) (hσ : σ)
    (hlt : h < s.nextHandle) (hs : LsmKv.step s a = some s') (ho : Orderly σ s a s') :
    Viewed h gs p s' := by
  refine Handles.step hv hg hs ho (fun _ _ hr => hr) fun gh hS hC hint => ?_
  have hkeep : p ≤ s.db.lastSequence → Shows s gs p → Shows s' gs p :=
    hS.shows_internal hC hs hint fun ha => ho.swap ha hσ
  have hheld : ∀ sn ∈ s.db.snapshots, sn.sequence = p ∧ Shows s gs p → Shows s' gs p := by
    rintro sn hm ⟨rfl, hsh⟩
    exact hkeep (hS.pins.snapshot sn hm).2 hsh
  refine ⟨fun sn hm hp heq => ⟨(hp heq).1, hheld sn hm (hp heq)⟩, fun c hm sn hp heq => ?_,
    fun _ _ hr => hr, fun _ heq => absurd heq hlt.ne', fun id key sn hm hp heq => ?_,
    fun c hm sn hp heq => ?_⟩
  · obtain ⟨rfl, hsh⟩ := hp heq
    exact ⟨rfl, hkeep (hS.gets c hm).1.seq_le hsh⟩
  · exact ⟨(hp heq).1, hheld sn hm (hp heq)⟩
  · obtain ⟨rfl, hsh⟩ := hp heq
    exact hsh.agree.reads.2 (hseen.reads hS hm).1

theorem Viewed.run (hrun : Run (Orderly True) {} s) (h' : Run (Orderly True) s t)
    (hv : Viewed h gs p s) (hlt : h < s.nextHandle) : Viewed h gs p t ∧ h < t.nextHandle := by
  induction h' with
  | refl => exact ⟨hv, hlt⟩
  | step h' hs ho ih =>
    obtain ⟨hv, hlt⟩ := ih
    have hord := hrun.trans h'
    exact ⟨hv.step (Seen.run hord trivial) (Good.run hord) trivial hlt hs ho,
      hlt.trans_le (ho.nextHandle_le hs)⟩

theorem Viewed.of_taken (h : Run (Orderly True) {} s) (hs : LsmKv.step s .getSnapshot = some s')
    (ho : Orderly True s .getSnapshot s') (hsh : Shows s gs s.db.lastSequence)
    (h' : Run (Orderly True) s' t) : Viewed s.nextHandle gs s.db.lastSequence t := by
  have hgiven : s.nextHandle < s'.nextHandle := by
    obtain ⟨_, _, rfl⟩ := Sys.getSnapshot_cases hs
    exact Nat.lt_succ_self _
  exact ((Viewed.taken hsh (Given.run h) hs).run (h.trans (.step .refl hs ho)) h' hgiven).1

/-- A snapshot that is taken while no write is under way reads the database as it was then: it shows
every write acknowledged before, no later write, and the same answer for a key each time, whatever
is written, flushed, compacted or released meanwhile. -/
theorem snapshot_reads_fixed (h : Run Steady {} s) (hs : step s .getSnapshot = some s')
    (hp : Steady s .getSnapshot s') (hl : s.lead = none) (h' : Run Steady s' t) :
    (∀ g ∈ s.acked, g ∈ s.done) ∧
    (∀ a ∈ t.answers, ∀ sn, a.call.snapshot = some sn → sn.handle = s.nextHandle →
      Reads {r | r ∈ recsOf s.done} a.call.key s.db.lastSequence a.result) ∧
    ∀ a ∈ t.answers, ∀ b ∈ t.answers, ∀ sn sn', a.call.snapshot = some sn →
      b.call.snapshot = some sn' → sn.handle = s.nextHandle → sn'.handle = s.nextHandle →
      a.call.key = b.call.key → a.result = b.result := by
  have hord := h.steady.1
  have hv := Viewed.of_taken hord hs (hp.orderly h hs) (Sys.shows_done hl _)
    ((h.step hs hp).steady_from h')
  obtain ⟨gh, m, logs, hS, _⟩ := (Good.run hord).sound (by simp [(Sys.getSnapshot_cases hs).1])
  have hd : Distinct {r | r ∈ recsOf s.done} := hS.logged.done_ok.seqAsc.distinct
  refine ⟨(Seen.run hord trivial).acked, hv.answers, fun a ha b hb sn sn' hsa hsb heq heq' hk => ?_⟩
  have hb := hv.answers b hb sn' hsb heq'
  rw [← hk] at hb
  exact (hv.answers a ha sn hsa heq).unique hd hb

section Sample

/-- A key is written over while a snapshot is held; it is read before and after a flush of both
versions. -/
def snapshotActs : List Act :=
  putActs [97] [2] ++ [.getBegin 7 [97] (some 0), .getEnd 7] ++ rotatingPutActs [97] [3] ++
    .startFlush :: jobActs 10 ++ .job 0 0 [.manifest, .sst 3, .log 2, .log 1] :: jobActs 2 ++
    [.getBegin 8 [97] (some 0), .getEnd 8]

set_option synthInstance.maxSize 2000 in
theorem snapshot_reads_fixed_sample :
    ∃ s s' t, runActs Steady.check {} (openActs ++ putActs [97] [1]) = some s ∧
    step s .getSnapshot = some s' ∧ runActs Steady.check s' snapshotActs = some t ∧
    t.answers.map (fun a => (a.call.snapshot.map Snapshot.handle, a.result.toOption)) =
      [(some 0, some [1]), (some 0, some [1])] ∧
    (t.db.current.levels 0).map (fun f => f.recs.map Rec.seq) = [[2, 1]] ∧
    ∀ a ∈ t.answers, ∀ sn, a.call.snapshot = some sn → sn.handle = s.nextHandle →
      Reads {r | r ∈ recsOf s.done} a.call.key s.db.lastSequence a.result := by
  obtain ⟨s, hs, hl, s', hs', hc, t, ht, hans, hlev⟩ :
      ∃ s, runActs Steady.check {} (openActs ++ putActs [97] [1]) = some s ∧ s.lead.isNone = true ∧
      ∃ s', step s .getSnapshot = some s' ∧ Steady.check s .getSnapshot = true ∧
      ∃ t, runActs Steady.check s' snapshotActs = some t ∧
        t.answers.map (fun a => (a.call.snapshot.map Snapshot.handle, a.result.toOption)) =
          [(some 0, some [1]), (some 0, some [1])] ∧
        (t.db.current.levels 0).map (fun f => f.recs.map Rec.seq) = [[2, 1]] := by
    decide +kernel
  have hrun := Run.of_steady .refl hs
  have hp : Steady s .getSnapshot s' := .of_check hc hs' hrun.shallow
  have hrest := Run.of_steady (hrun.trans (.step .refl hs' hp)) ht
  exact ⟨s, s', t, hs, hs', ht, hans, hlev,
    (snapshot_reads_fixed hrun hs' hp (Option.isNone_iff_eq_none.1 hl) hrest).2.1⟩

end Sample

end LsmKv
