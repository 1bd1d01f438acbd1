import LsmKv.Syncs

namespace LsmKv
set_option autoImplicit true

open Wal (Group)

variable {σ : Prop} {gh : Ghost} {s s' t : Sys} {m m' : Manifest} {logs : Nat → List Group}
  {fs fs' : DbFs}

/-- The finished groups of every log are on stable storage. -/
structure Stable (s : Sys) : Prop where
  old : ∀ n f, n ≠ s.db.logNumber → s.fs.stat (.log n) = some f →
    f.data.length ≤ f.synced ∨ Wal.Image [] f.data
  current : ∀ f xs rest, s.fs.stat (.log s.db.logNumber) = some f →
    f.data = Wal.fileHeader ++ (xs.flatMap Group.record ++ rest) → (∀ g ∈ xs, g ∈ s.done) →
    xs = [] ∨ Wal.endOf xs ≤ f.synced

theorem Wal.endOf_le {xs : List Group}
    (h : data = fileHeader ++ (xs.flatMap Group.record ++ rest)) :
    endOf xs ≤ data.length := by
  rw [h, endOf, List.length_append, List.length_append]
  exact Nat.add_le_add_left (Nat.le_add_right _ _) _

/-- What a leader adds to its log makes no group complete but its own. -/
theorem LogTail.before {fine : Prop} {xs : List Group} (h : LogTail fs n gs fine (some ld) part)
    (hne : ld.unwritten ≠ []) (hb : bs <+: ld.unwritten) (hg : ∀ g ∈ gs, g.Fits)
    (hx : ∀ g ∈ xs, g.Fits) (hld : ld.group.Fits) (hnot : ld.group ∉ xs)
    (hf : fs.stat (.log n) = some f)
    (he : f.data ++ bs = Wal.fileHeader ++ (xs.flatMap Group.record ++ rest)) :
    ∃ rest', f.data = Wal.fileHeader ++ (xs.flatMap Group.record ++ rest') := by
  have hread := h.read
  rw [Fs.read_eq_stat, hf] at hread
  have hdata : f.data = Wal.fileHeader ++ (gs.flatMap Group.record ++ part) := Option.some.inj hread
  rw [hdata, List.append_assoc, List.append_assoc] at he
  rcases Wal.records_compare hx hg (List.append_cancel_left he).symm with ⟨zs, rfl, _⟩
    | ⟨z, zs, rfl, hz⟩
  · exact ⟨zs.flatMap Group.record ++ part, by rw [hdata, List.flatMap_append, List.append_assoc]⟩
  · -- a further group would be the leader's
    obtain ⟨c, hc⟩ := hb
    have hrec : part ++ ld.unwritten = ld.group.record :=
      (h.lead ld rfl).elim And.right fun hu => absurd hu.1 hne
    have hcut : z.record ++ (zs.flatMap Group.record ++ rest ++ c) = ld.group.record ++ [] := by
      rw [List.append_nil, ← hrec, ← hc, ← List.append_assoc part, hz, List.flatMap_cons]
      simp only [List.append_assoc]
    obtain ⟨rfl, _⟩ := Wal.Group.record_append_inj (hx z (by simp)) hld hcut
    exact absurd (by simp) hnot

namespace Stable

theorem of_same (h : Stable s) (hn : s'.db.logNumber = s.db.logNumber) (hd : s'.done = s.done)
    (hf : ∀ n, s'.fs.stat (.log n) = s.fs.stat (.log n)) : Stable s' where
  old n f hne hs := h.old n f (hn ▸ hne) (hf n ▸ hs)
  current f xs rest hs := by
    rw [hn, hf] at hs
    rw [hd]
    exact h.current f xs rest hs

theorem job (h : Stable s) (hS : Sound σ gh s) (hD : Disk σ gh s m logs) (hm : s.mode = .running)
    (hs : LsmKv.step s a = some s') (ha : a.ofJob) : Stable s' := by
  have heff := hD.effect hS hs ha
  have hn := hS.logNumber_job hm hs ha
  refine ⟨fun n f hne hf => ?_, fun f xs rest hf => ?_⟩
  · rcases heff.log_stat hm n with hsame | ⟨hnone, _⟩
    · exact h.old n f (hn ▸ hne) (hsame ▸ hf)
    · rw [hnone] at hf
      cases hf
  · rw [hn, heff.log_kept hm] at hf
    rw [Sys.kept_job hs ha Sys.done fun _ => rfl]
    exact h.current f xs rest hf

/-- The leader writes some bytes of its record. -/
theorem append (h : Stable s) (hS : Sound σ gh s) (hD : Disk σ gh s m logs) (hl : s.lead = some ld)
    (hne : ld.unwritten ≠ []) (hb : bs <+: ld.unwritten)
    (hfs : s'.fs = s.fs.append (.log s.db.logNumber) bs) (hn : s'.db.logNumber = s.db.logNumber)
    (hd : s'.done = s.done) : Stable s' := by
  have hm := hS.running_of_lead (by simp [hl])
  have hlok := hS.logged.leadOk ld hl
  refine ⟨fun n f hne' hf => ?_, fun f xs rest hf he hx => ?_⟩
  · rw [hn] at hne'
    rw [hfs, Fs.stat_append, if_neg (by simpa using hne')] at hf
    exact h.old n f hne' hf
  · rw [hn, hfs, Fs.stat_append, if_pos rfl] at hf
    rw [hd] at hx
    obtain ⟨g, hg, rfl⟩ := Option.map_eq_some_iff.1 hf
    obtain ⟨part, ht⟩ := (hD.running hm).tail
    rw [hl] at ht
    have hnot : ld.group ∉ xs := by
      intro hmem
      have hle := hlok.above _ (hx _ hmem)
      have hpos := List.length_pos_iff.2 hlok.fits.nonempty
      have hbase : ld.group.base = ld.base := rfl
      omega
    obtain ⟨rest', hbefore⟩ := ht.before hne hb
      (fun g hg => hS.logged.ok.fits g (hD.mem_hist hm hg))
      (fun g hg => hS.logged.done_ok.fits g (hx g hg)) hlok.fits hnot hg he
    exact h.current g xs rest' hg hbefore hx

theorem rotation (h : Stable s) (hr : s.rotating = some r) (hS : Sound σ gh s)
    (hf : ∀ name, name ≠ .log r.number → s'.fs.stat name = s.fs.stat name)
    (hb : ∀ bytes, s'.fs.read (.log r.number) = some bytes → bytes <+: Wal.fileHeader)
    (hn : s'.db.logNumber = s.db.logNumber) (hd : s'.done = s.done) : Stable s' := by
  have hlt := (hS.rotating r hr).log_lt
  refine ⟨fun n f hne hs => ?_, fun f xs rest hs => ?_⟩
  · rw [hn] at hne
    by_cases he : n = r.number
    · subst he
      exact .inr (.header (hb f.data (by rw [Fs.read_eq_stat, hs]; rfl)))
    · rw [hf _ (by simpa using he)] at hs
      exact h.old n f hne hs
  · rw [hn, hf _ (by simpa using hlt.ne)] at hs
    rw [hd]
    exact h.current f xs rest hs

/-- The log in use is closed with all its groups finished, and an empty one takes its place. -/
theorem swap (h : Stable s) (hS : Sound σ gh s) (hD : Disk σ gh s m logs)
    (hs : s.rotateSwap = some s') (hl : s.lead = none) : Stable s' := by
  obtain ⟨r, hr, hio, _, rfl⟩ := Sys.rotateSwap_cases hs
  have hm := hS.running (hS.not_opening_of_rotating hr)
  have hrun := hD.running hm
  have hrot := hS.rotating r hr
  have hb := hrun.rotating (by simp [hr])
  refine ⟨fun n f hne hf => ?_, fun f xs rest hf he _ => ?_⟩
  · have hf : s.fs.stat (.log n) = some f := hf
    by_cases hcur : n = s.db.logNumber
    · subst hcur
      obtain ⟨part, ht⟩ := hrun.tail
      have hread := ht.read
      rw [ht.idle hl hb, List.append_nil, Fs.read_eq_stat, hf] at hread
      have hdata : f.data = Wal.fileHeader ++ (logs s.db.logNumber).flatMap Group.record :=
        Option.some.inj hread
      have hdone : ∀ g ∈ logs s.db.logNumber, g ∈ s.done := fun g hg =>
        hS.logged.idle hl hb ▸ hD.mem_hist hm hg
      rcases h.current f _ [] hf (by rw [List.append_nil]; exact hdata) hdone with hnil | hle
      · rw [hnil] at hdata
        rw [hdata]
        exact .inr (.header (by simp))
      · refine .inl ?_
        rw [hdata, List.length_append]
        exact hle
    · exact h.old n f hcur hf
  · have hf : s.fs.stat (.log r.number) = some f := hf
    have hhead := hrot.log
    rw [hio] at hhead
    have hread := hhead.done
    rw [Fs.read_eq_stat, hf] at hread
    have hdata : f.data = Wal.fileHeader := Option.some.inj hread
    rw [hdata] at he
    exact .inl (Wal.eq_nil_of_header he)

theorem step (h : Stable s) (hS : Sound σ gh s) (hD : Disk σ gh s m logs) (hm : s.mode = .running)
    (hH : Honours s) (hpol : s.db.options.syncPolicy = .everyWrite)
    (hs : LsmKv.step s a = some s') (ha : a.internal) (hswap : a = .rotateSwap → s.lead = none) :
    Stable s' := by
  by_cases hj : a.ofJob
  · exact h.job hS hD hm hs hj
  by_cases hw : ¬ a.ofWriter
  · exact h.of_same (Sys.kept_read hs ha hw hj (·.db.logNumber) fun _ => rfl)
      (Sys.kept_read hs ha hw hj Sys.done fun _ => rfl)
      fun n => congrArg (Fs.stat · (.log n)) (Sys.kept_read hs ha hw hj Sys.fs fun _ => rfl)
  cases a with
  | write id entries sync =>
    obtain ⟨_, _, _, rfl⟩ := Sys.write_cases hs
    exact h.of_same rfl rfl fun _ => rfl
  | rotate byFlush =>
    obtain ⟨_, _, _, _, _, rfl⟩ := Sys.rotate_cases hs
    exact h.of_same rfl rfl fun _ => rfl
  | rotateIo n =>
    obtain ⟨r, fs, io, hr, hio, rfl⟩ := Sys.rotateIo_cases hs
    have hlog := (hS.rotating r hr).log
    exact h.rotation hr hS (fun name hne => stat_ioStep hio (hlog.names hne))
      (fun bytes hb => (hlog.step hio).header hb) rfl rfl
  | failRotate n =>
    obtain ⟨r, fs, hr, hio, rfl⟩ := Sys.failRotate_cases hs
    have hlog := (hS.rotating r hr).log
    exact h.rotation hr hS (fun name hne => stat_failIo hio (hlog.names hne))
      (fun bytes hb => hlog.failIo hio hb) rfl rfl
  | rotateSwap => exact h.swap hS hD hs (hswap rfl)
  | begin elapsed =>
    obtain ⟨_, _, _, _, _, _, ⟨_, rfl⟩ | ⟨_, rfl⟩⟩ := Sys.begin_cases hs
    · exact h.of_same rfl rfl fun _ => rfl
    · exact h.of_same rfl rfl fun _ => rfl
  | append n =>
    obtain ⟨ld, hl, hne, ⟨_, _, rfl⟩ | rfl⟩ := Sys.append_cases hs
    · exact h.append hS hD hl hne (List.take_prefix n _) rfl rfl rfl
    · exact h.append hS hD hl hne List.prefix_rfl rfl rfl rfl
  | syncLog =>
    obtain ⟨_, _, _, _, rfl⟩ := Sys.syncLog_cases hs
    refine ⟨fun n f hne hf => ?_, fun f xs rest hf he _ => ?_⟩
    · have hf : (s.fs.fsync (.log s.db.logNumber)).stat (.log n) = some f := hf
      rw [Fs.stat_fsync, if_neg (by simpa using hne)] at hf
      exact h.old n f hne hf
    · have hf : (s.fs.fsync (.log s.db.logNumber)).stat (.log s.db.logNumber) = some f := hf
      rw [Fs.stat_fsync, if_pos rfl] at hf
      obtain ⟨g, _, rfl⟩ := Option.map_eq_some_iff.1 hf
      exact .inr (Wal.endOf_le he)
  | insert =>
    obtain ⟨_, _, _, _, _, _, _, rfl⟩ := Sys.insert_cases hs
    exact h.of_same rfl rfl fun _ => rfl
  | finish =>
    obtain ⟨ld, hl, _, _, _, hsynced, _, rfl⟩ := Sys.finish_cases hs
    refine ⟨h.old, fun f xs rest hf he _ => ?_⟩
    rcases hH ld hl (.inl hpol) with hu | ⟨_, hsolid⟩
    · cases hsynced.symm.trans hu
    · exact .inr ((Wal.endOf_le he).trans (hsolid f hf))
  | failAppend n =>
    obtain ⟨ld, hl, _, hlt, rfl⟩ := Sys.failAppend_cases hs
    have hne : ld.unwritten ≠ [] := by
      rintro he
      rw [he] at hlt
      cases hlt
    exact h.append hS hD hl hne (List.take_prefix n _) rfl rfl rfl
  | failSync =>
    obtain ⟨_, _, _, _, _, rfl⟩ := Sys.failSync_cases hs
    exact h.of_same rfl rfl fun _ => rfl
  | _ => exact absurd not_false hw

theorem opened (hD : Disk σ gh s m logs) (hj : s.jobs = [⟨[], .recovered⟩]) : Stable s := by
  obtain ⟨hnew, _, hclean⟩ := hD.jobs _ (hj ▸ List.mem_cons_self)
  refine ⟨fun n f hne hf => ?_, fun f xs rest hf he _ => ?_⟩
  · have hread : s.fs.read (.log n) = some f.data := by
      rw [Fs.read_eq_stat, hf]
      rfl
    rcases Nat.lt_or_ge n s.db.logNumber with hlt | hge
    · cases hclean.unlinks n hlt (by simp [hread])
    · have himage := hD.onDisk.stored.image n f.data hread
      rw [hnew.empty n hge] at himage
      exact .inr himage
  · have hread := hnew.header
    rw [Fs.read_eq_stat, hf] at hread
    have hdata : f.data = Wal.fileHeader := Option.some.inj hread
    rw [hdata] at he
    exact .inl (Wal.eq_nil_of_header he)

end Stable

end LsmKv
