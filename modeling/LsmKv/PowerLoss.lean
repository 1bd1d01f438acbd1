import LsmKv.Backed

namespace LsmKv
set_option autoImplicit true

open Wal (Group)

variable {gh : Ghost} {s s' t : Sys} {m : Manifest} {logs logs' : Nat → List Group} {fs fs' : DbFs}
  {hist kept lost : List Group}

section Survivors

/-- The numbers of the entries that a replay of all logs delivers. -/
def loggedSeqs (fs : DbFs) : List Nat :=
  (fs.names.filterMap Sys.logNumberOf).flatMap fun n =>
    (Wal.replay "" ((fs.read (.log n)).getD [])).entries.map (·.seq)

theorem survivors_eq_takeWhile (fs fs' : DbFs) (hist : List Group) : Sys.survivors fs fs' hist =
    hist.takeWhile fun g =>
      !((loggedSeqs fs).contains g.base && !(loggedSeqs fs').contains g.base) := rfl

theorem mem_loggedSeqs : q ∈ loggedSeqs fs ↔ ∃ n bytes, fs.read (.log n) = some bytes ∧
    ∃ e ∈ (Wal.replay "" bytes).entries, e.seq = q := by
  rw [loggedSeqs, List.mem_flatMap]
  constructor
  · rintro ⟨n, hn, hq⟩
    obtain ⟨name, hname, hnum⟩ := List.mem_filterMap.1 hn
    rw [logNumberOf_eq hnum] at hname
    obtain ⟨bytes, hb⟩ := Option.ne_none_iff_exists'.1 (Fs.mem_names.1 hname)
    rw [hb] at hq
    obtain ⟨e, he, rfl⟩ := List.mem_map.1 hq
    exact ⟨n, bytes, hb, e, he, rfl⟩
  · rintro ⟨n, bytes, hb, e, he, rfl⟩
    refine ⟨n, List.mem_filterMap.2 ⟨.log n, Fs.mem_names.2 (by simp [hb]), rfl⟩, ?_⟩
    rw [hb]
    exact List.mem_map_of_mem he

theorem Stored.mem_loggedSeqs (h : Stored fs logs N) (hg : ∀ n, ∀ g ∈ logs n, g.Fits) :
    q ∈ loggedSeqs fs ↔ ∃ n, ∃ g ∈ logs n, ∃ e ∈ g.numbered, e.seq = q := by
  rw [LsmKv.mem_loggedSeqs]
  constructor
  · rintro ⟨n, bytes, hb, e, he, rfl⟩
    rw [(Wal.replay_image (h.image n bytes hb) (hg n) "").1] at he
    obtain ⟨g, hmem, he⟩ := List.mem_flatMap.1 he
    exact ⟨n, g, hmem, e, he, rfl⟩
  · rintro ⟨n, g, hmem, e, he, rfl⟩
    cases hb : fs.read (.log n) with
    | none =>
      rw [h.absent n hb] at hmem
      cases hmem
    | some bytes =>
      refine ⟨n, bytes, hb, e, ?_, rfl⟩
      rw [(Wal.replay_image (h.image n bytes hb) (hg n) "").1]
      exact List.mem_flatMap.2 ⟨g, hmem, he⟩

theorem HistOk.seq_range (h : HistOk hist) (hg : g ∈ hist) (he : e ∈ g.numbered) :
    g.base ≤ e.seq ∧ e.seq < g.base + g.entries.length := by
  have hb := h.bound g hg
  have hk : kMaxSequenceNumber + 1 ≤ 2 ^ 64 := by decide
  rw [Group.numbered, Wal.number_eq_mapIdx, List.mem_mapIdx] at he
  obtain ⟨i, hi, rfl⟩ := he
  dsimp only
  rw [Nat.mod_eq_of_lt (by omega)]
  omega

theorem HistOk.base_mem (h : HistOk hist) (hg : g ∈ hist) : ∃ e ∈ g.numbered, e.seq = g.base := by
  have hfit := h.fits g hg
  obtain ⟨x, xs, hx⟩ := List.exists_cons_of_ne_nil hfit.nonempty
  rw [Group.numbered, hx, Wal.number]
  exact ⟨_, List.mem_cons_self, Nat.mod_eq_of_lt hfit.base_lt⟩

theorem HistOk.eq_of_base (h : HistOk hist) (hx : x ∈ hist) (hy : y ∈ hist) (hle : y.base ≤ x.base)
    (hlt : x.base < y.base + y.entries.length) : x = y := by
  have hpos : ∀ g ∈ hist, 0 < g.entries.length :=
    fun g hg => List.length_pos_iff.2 (h.fits g hg).nonempty
  obtain ⟨i, hi, rfl⟩ := List.getElem_of_mem hx
  obtain ⟨j, hj, rfl⟩ := List.getElem_of_mem hy
  have horder := List.pairwise_iff_getElem.1 h.order
  rcases Nat.lt_trichotomy i j with hij | rfl | hij
  · have := horder i j hi hj hij
    have := hpos _ hx
    omega
  · rfl
  · have := horder j i hj hi hij
    omega

/-- A power loss that leaves the logs with `kept` takes the groups after them. -/
theorem survivors_eq (hok : HistOk (kept ++ lost)) (hst : Stored fs logs N)
    (hst' : Stored fs' logs' N)
    (hsub : ∀ n, ∀ g ∈ logs n, g ∈ kept ++ lost) (hsub' : ∀ n, ∀ g ∈ logs' n, g ∈ kept)
    (hkept : ∀ n, ∀ g ∈ logs n, g ∈ kept → ∃ n', g ∈ logs' n')
    (hlost : ∀ g ∈ lost, ∃ n, g ∈ logs n) :
    Sys.survivors fs fs' (kept ++ lost) = kept := by
  have hfit : ∀ n, ∀ g ∈ logs n, g.Fits := fun n g hg => hok.fits g (hsub n g hg)
  have hfit' : ∀ n, ∀ g ∈ logs' n, g.Fits := fun n g hg =>
    hok.fits g (List.mem_append_left _ (hsub' n g hg))
  rw [survivors_eq_takeWhile, List.takeWhile_append_of_pos]
  · cases lost with
    | nil => simp
    | cons g rest =>
      have hg : g ∈ kept ++ g :: rest := by simp
      have hin : g.base ∈ loggedSeqs fs := by
        obtain ⟨n, hn⟩ := hlost g List.mem_cons_self
        exact (hst.mem_loggedSeqs hfit).2 ⟨n, g, hn, hok.base_mem hg⟩
      have hout : g.base ∉ loggedSeqs fs' := by
        intro hmem
        obtain ⟨n, y, hy, e, he, hseq⟩ := (hst'.mem_loggedSeqs hfit').1 hmem
        have hy' := hsub' n y hy
        obtain ⟨hle, hlt⟩ := hok.seq_range (List.mem_append_left _ hy') he
        rw [hseq] at hle hlt
        have horder := (List.pairwise_append.1 hok.order).2.2 y hy' g List.mem_cons_self
        omega
      rw [List.takeWhile_cons_of_neg, List.append_nil]
      simp [hin, hout]
  · intro x hx
    have hx' : x ∈ kept ++ lost := List.mem_append_left _ hx
    by_cases hin : x.base ∈ loggedSeqs fs
    · have hin' : x.base ∈ loggedSeqs fs' := by
        obtain ⟨n, g, hg, e, he, hseq⟩ := (hst.mem_loggedSeqs hfit).1 hin
        obtain ⟨hle, hlt⟩ := hok.seq_range (hsub n g hg) he
        rw [hseq] at hle hlt
        obtain rfl := hok.eq_of_base hx' (hsub n g hg) hle hlt
        obtain ⟨n', hn'⟩ := hkept n x hg hx
        exact (hst'.mem_loggedSeqs hfit').2 ⟨n', x, hn', hok.base_mem hx'⟩
      simp [hin']
    · simp [hin]

end Survivors

theorem Firm.committed (h : Firm s) (hc : Committed s.fs m) (cut : FileName → Nat) :
    Committed (s.fs.powerLossData cut) m :=
  hc.frame (h.manifest.read_powerLossData cut) fun _ _ hf =>
    (h.listed _ (hc.listed hf)).read_powerLossData cut

theorem Disk.hist_eq {σ : Prop} (h : Disk σ gh s m logs) (hS : Sound σ gh s)
    (hm : s.mode = .running) (ha : Aligned σ s.hist m logs s.db.nextFileNumber pre) :
    s.hist = pre ++ span logs 0 s.db.logNumber ++ logs s.db.logNumber := by
  have hnil : span logs (s.db.logNumber + 1) s.db.nextFileNumber = [] :=
    span_eq_nil fun n hn _ => (h.running hm).later n hn
  rw [ha.split, span_split (Nat.zero_le _) hS.log_lt, hnil, List.append_nil, List.append_assoc]

theorem Disk.split_log {σ : Prop} (h : Disk σ gh s m logs) (hS : Sound σ gh s)
    (hm : s.mode = .running) (hT : Trailing s)
    (ha : Aligned σ s.hist m logs s.db.nextFileNumber pre) :
    ∃ ys tl, logs s.db.logNumber = ys ++ tl ∧ s.done = pre ++ span logs 0 s.db.logNumber ++ ys := by
  have hhist := h.hist_eq hS hm ha
  by_cases heq : s.hist = s.done
  · exact ⟨logs s.db.logNumber, [], by simp, heq ▸ hhist⟩
  · obtain ⟨g, xs, hg, hx, hread⟩ := hT hm heq
    have hmem : g ∈ logs s.db.logNumber := by
      refine Delivers.mem ⟨xs, [], hx, hread.trans ?_⟩ h.onDisk.stored
        (fun x hx => hS.logged.ok.fits x (h.mem_hist hm hx)) (hS.logged.ok.fits g (by simp [hg]))
      simp [List.flatMap_append]
    obtain ⟨ys, last, hys⟩ :=
      List.eq_nil_or_concat (logs s.db.logNumber) |>.resolve_left (List.ne_nil_of_mem hmem)
    rw [List.concat_eq_append] at hys
    refine ⟨ys, [last], hys, ?_⟩
    have he := hg.symm.trans hhist
    rw [hys, ← List.append_assoc] at he
    exact (List.append_inj' he rfl).1

section Cut
variable {cut : FileName → Nat} {pre ys tl : List Group} {k n : Nat}

theorem Stable.cut_current (h : Stable s)
    (ht : LogTail s.fs s.db.logNumber (ys ++ tl) fine lead part)
    (hfit : ∀ g ∈ ys ++ tl, g.Fits) (hys : ∀ g ∈ ys, g ∈ s.done) (cut : FileName → Nat) :
    ∃ k bytes, ys.length ≤ k ∧ (s.fs.powerLossData cut).read (.log s.db.logNumber) = some bytes ∧
      Wal.Image ((ys ++ tl).take k) bytes := by
  obtain ⟨f, hf, hdata⟩ : ∃ f, s.fs.stat (.log s.db.logNumber) = some f ∧
      f.data = Wal.fileHeader ++ ((ys ++ tl).flatMap Group.record ++ part) := by
    have hread := ht.read
    rw [Fs.read_eq_stat] at hread
    exact Option.map_eq_some_iff.1 hread
  have himage : Wal.Image (ys ++ tl) f.data := hdata ▸ .records _ ht.torn
  obtain ⟨k, _, hcut, hbefore⟩ := himage.take hfit (max f.synced (cut (.log s.db.logNumber)))
  refine ⟨k, _, ?_, by rw [Fs.read_powerLossData, hf]; rfl, hcut⟩
  have hdata' : f.data = Wal.fileHeader ++
      (ys.flatMap Group.record ++ (tl.flatMap Group.record ++ part)) := by
    rw [hdata, List.flatMap_append, List.append_assoc]
  rcases h.current f ys _ hf hdata' hys with rfl | hle
  · exact Nat.zero_le k
  · refine hbefore ys.length (by simp) ?_
    rw [List.take_left]
    exact hle.trans (le_max_left _ _)

theorem Stable.cut_old (h : Stable s) (hst : Stored s.fs logs N) (hfit : ∀ g ∈ logs n, g.Fits)
    (hn : n ≠ s.db.logNumber) (hb : (s.fs.powerLossData cut).read (.log n) = some bytes) :
    Wal.Image (logs n) bytes := by
  rw [Fs.read_powerLossData] at hb
  obtain ⟨f, hf, rfl⟩ := Option.map_eq_some_iff.1 hb
  have himage := hst.image n f.data (by rw [Fs.read_eq_stat, hf]; rfl)
  rcases h.old n f hn hf with hle | hnil
  · rw [List.take_of_length_le (hle.trans (le_max_left _ _))]
    exact himage
  · rw [hnil.eq_nil himage hfit]
    obtain ⟨j, _, hcut, _⟩ := hnil.take (fun _ hg => (by cases hg)) (max f.synced (cut (.log n)))
    rwa [List.take_nil] at hcut

theorem Stored.after_loss (h : Stored s.fs logs N) (hS : Stable s)
    (hfit : ∀ n, ∀ g ∈ logs n, g.Fits)
    (hb : (s.fs.powerLossData cut).read (.log s.db.logNumber) = some bytes)
    (hi : Wal.Image gs bytes) :
    Stored (s.fs.powerLossData cut) (Function.update logs s.db.logNumber gs) N := by
  have hnone : ∀ n, (s.fs.powerLossData cut).read (.log n) = none ↔ s.fs.read (.log n) = none := by
    intro n
    rw [Fs.read_powerLossData, Fs.read_eq_stat, Option.map_eq_none_iff, Option.map_eq_none_iff]
  refine ⟨fun n b hr => ?_, fun n hr => ?_, fun n hr => h.bound n fun hn => hr ((hnone n).2 hn)⟩
  · by_cases hn : n = s.db.logNumber
    · subst hn
      cases hb.symm.trans hr
      rwa [Function.update_self]
    · rw [Function.update_of_ne hn]
      exact hS.cut_old h (hfit n) hn hr
  · have hn : n ≠ s.db.logNumber := by
      rintro rfl
      rw [hr] at hb
      cases hb
    rw [Function.update_of_ne hn]
    exact h.absent n ((hnone n).1 hr)

theorem Covered.congr {m' : Manifest} (h : Covered s m' n) (hc' : Committed s.fs m')
    (hc : Committed s.fs m) :
    Covered s m n := by
  obtain ⟨hlog, hcontent⟩ := hc'.same hc
  refine ⟨h.le, hlog ▸ h.log_le, ⟨?_, ?_⟩, fun g hg => hlog ▸ h.rest g hg⟩
  · rw [hcontent]
    exact h.holds.content
  · rw [hcontent]
    exact h.holds.agree

/-- The groups that the tables lack are in live logs, so all before those logs are in the tables. -/
theorem Covered.bound (h : Covered s m n) (hD : Disk True gh s m logs) (hS : Sound True gh s)
    (hm : s.mode = .running) (ha : Aligned True s.hist m logs s.db.nextFileNumber pre) :
    (pre ++ span logs 0 m.logNumber).length ≤ n := by
  have hhist : s.hist = (pre ++ span logs 0 m.logNumber) ++
      span logs m.logNumber s.db.nextFileNumber := by
    rw [List.append_assoc, span_append (Nat.zero_le _) hD.onDisk.cover.log_le]
    exact ha.split
  by_contra hlt
  rw [not_le] at hlt
  have hdrop : s.hist.drop n = (pre ++ span logs 0 m.logNumber).drop n ++
      span logs m.logNumber s.db.nextFileNumber := by
    rw [hhist, List.drop_append_of_le_length hlt.le]
  -- the first group that the tables lack would be both before and in the live logs
  obtain ⟨x, hx⟩ := List.exists_mem_of_ne_nil _ (List.drop_eq_nil_iff.not.2 (not_le.2 hlt))
  obtain ⟨k, hk, hdel⟩ := h.rest x (hdrop ▸ List.mem_append_left _ hx)
  have hxa : x ∈ pre ++ span logs 0 m.logNumber := List.mem_of_mem_drop hx
  have hfit : x.Fits := hS.logged.ok.fits x (hhist ▸ List.mem_append_left _ hxa)
  have hxk := hdel.mem hD.onDisk.stored (fun g hg => hS.logged.ok.fits g (hD.mem_hist hm hg)) hfit
  have hkN : k < s.db.nextFileNumber := by
    by_contra hle
    rw [hD.onDisk.stored.after k (not_lt.1 hle)] at hxk
    cases hxk
  have horder := hS.logged.ok.order
  rw [hhist] at horder
  have hself := (List.pairwise_append.1 horder).2.2 x hxa x (mem_span.2 ⟨k, hk, hkN, hxk⟩)
  have hpos := List.length_pos_iff.2 hfit.nonempty
  omega

/-- The manifest and the logs account for what is left. -/
theorem Covered.after_loss (h : Covered s m n) (hD : Disk True gh s m logs) (hS : Sound True gh s)
    (hm : s.mode = .running) (ha : Aligned True s.hist m logs s.db.nextFileNumber pre)
    (hkept : kept = pre ++ span logs 0 s.db.logNumber ++ gs) (hdone : s.done <+: kept)
    (hpre : kept <+: s.hist) :
    Cover True kept m (Function.update logs s.db.logNumber gs) s.db.nextFileNumber := by
  have htake : kept.take n = s.hist.take n := by
    obtain ⟨rest, hrest⟩ := hpre
    rw [← hrest, List.take_append_of_le_length (h.le.trans hdone.length_le)]
  have hholds : Holds kept n m.version := by
    refine ⟨?_, ?_⟩
    · rw [htake]
      exact h.holds.content
    · rw [htake]
      exact h.holds.agree
  have hspan : ∀ b, b ≤ s.db.logNumber →
      span (Function.update logs s.db.logNumber gs) 0 b = span logs 0 b := fun b hb =>
    span_congr fun n _ hn => Function.update_of_ne (hn.trans_le hb).ne _ _
  refine ⟨hD.onDisk.cover.log_le, fun x hx => ?_, .inr ⟨pre, ?_, ?_, fun _ => ⟨n, ?_, hholds⟩⟩⟩
  · obtain ⟨g, hg, hr⟩ := List.mem_flatMap.1 (hholds.content x hx)
    exact List.mem_flatMap.2 ⟨g, List.mem_of_mem_take hg, hr⟩
  · have hnil : span (Function.update logs s.db.logNumber gs) (s.db.logNumber + 1)
        s.db.nextFileNumber = [] := by
      refine span_eq_nil fun n hn _ => ?_
      rw [Function.update_of_ne (by omega)]
      exact (hD.running hm).later n hn
    rw [hkept, span_split (Nat.zero_le _) hS.log_lt, hspan _ le_rfl, Function.update_self, hnil,
      List.append_nil, List.append_assoc]
  · rw [hspan _ h.log_le]
    exact ha.tops
  · rw [hspan _ h.log_le]
    exact h.bound hD hS hm ha

/-- What a power loss leaves on disk of an open database: all finished groups, and
perhaps one more. -/
theorem Disk.after_loss (hD : Disk True gh s m logs) (hS : Sound True gh s) (hm : s.mode = .running)
    (hF : Firm s) (hSt : Stable s) (hB : Backed s) (hT : Trailing s) (cut : FileName → Nat) :
    ∃ kept logs', s.done <+: kept ∧ Sys.survivors s.fs (s.fs.powerLossData cut) s.hist = kept ∧
      OnDisk True (s.fs.powerLossData cut) kept m logs' s.db.nextFileNumber := by
  have hrun := hD.running hm
  obtain ⟨pre, ha⟩ := hrun.aligned
  obtain ⟨ys, tl, hgs, hdone⟩ := hD.split_log hS hm hT ha
  have hfit : ∀ n, ∀ g ∈ logs n, g.Fits := fun n g hg => hS.logged.ok.fits g (hD.mem_hist hm hg)
  obtain ⟨part, ht⟩ := hrun.tail
  obtain ⟨k, bytes, hk, hb, himage⟩ :=
    hSt.cut_current (hgs ▸ ht) (hgs ▸ hfit _) (fun g hg => by simp [hdone, hg]) cut
  obtain ⟨m₀, n, hc₀, hcov₀⟩ := hB
  have hcov := hcov₀.congr hc₀ hD.onDisk.committed
  have hhist := hgs ▸ hD.hist_eq hS hm ha
  have hstored := hD.onDisk.stored.after_loss hSt hfit hb himage
  set kept := pre ++ span logs 0 s.db.logNumber ++ (ys ++ tl).take k with hkept
  have hsplit : s.hist = kept ++ (ys ++ tl).drop k := by
    rw [hkept, List.append_assoc, List.take_append_drop, hhist]
  have hpre : s.done <+: kept := by
    rw [hdone, hkept, List.prefix_append_right_inj, List.take_append, List.take_of_length_le hk]
    exact List.prefix_append _ _
  have hok : HistOk (kept ++ (ys ++ tl).drop k) := hsplit ▸ hS.logged.ok
  refine ⟨kept, _, hpre, ?_, hok.sublist (List.sublist_append_left _ _),
    hF.committed hD.onDisk.committed cut,
    hstored, hcov.after_loss hD hS hm ha hkept hpre (hsplit ▸ List.prefix_append _ _)⟩
  rw [hsplit]
  refine survivors_eq hok hD.onDisk.stored hstored
    (fun n g hg => hsplit ▸ hD.mem_hist hm hg) ?_ ?_ ?_
  · intro i g hg
    by_cases hi : i = s.db.logNumber
    · subst hi
      rw [Function.update_self] at hg
      exact List.mem_append_right _ hg
    · rw [Function.update_of_ne hi] at hg
      have hlt : i < s.db.logNumber := by
        refine lt_of_le_of_ne (not_lt.1 fun hlt => ?_) hi
        rw [hrun.later i hlt] at hg
        cases hg
      exact List.mem_append_left _
        (List.mem_append_right _ (mem_span.2 ⟨i, Nat.zero_le _, hlt, hg⟩))
  · intro i g hg hmem
    by_cases hi : i = s.db.logNumber
    · subst hi
      refine ⟨s.db.logNumber, ?_⟩
      rw [Function.update_self]
      rw [hgs, ← List.take_append_drop k (ys ++ tl)] at hg
      rcases List.mem_append.1 hg with hg | hg
      · exact hg
      · -- it is not both kept and lost
        have hself := (List.pairwise_append.1 hok.order).2.2 g hmem g hg
        have hpos := List.length_pos_iff.2 (hok.fits g (List.mem_append_left _ hmem)).nonempty
        omega
    · exact ⟨i, by rwa [Function.update_of_ne hi]⟩
  · intro g hg
    exact ⟨s.db.logNumber, hgs ▸ List.mem_of_mem_drop hg⟩

end Cut

/-- `Recover` ends by its last step only. -/
theorem Sys.starts_running (hs : LsmKv.step s a = some s') (ha : a.internal)
    (hm : s.mode ≠ .running) (hm' : s'.mode = .running) : ∃ i, s.jobs[i]? = some ⟨[], .recovered⟩ ∧
      s' = { s with mode := .running, jobs := s.jobs.eraseIdx i } := by
  have hfail : ∀ (t : Sys) status, t.mode = s.mode → (t.fail status).mode ≠ .running := by
    intro t status ht
    rw [fail]
    split
    · simp
    · exact fun h => hm (ht.symm.trans h)
  by_cases hw : a.ofWriter
  · exact absurd ((kept_write hs hw Sys.mode fun _ => rfl).symm.trans hm') hm
  by_cases hj : ¬ a.ofJob
  · exact absurd ((kept_read hs ha hw hj Sys.mode fun _ => rfl).symm.trans hm') hm
  cases a with
  | startFlush =>
    obtain ⟨_, _, _, rfl⟩ := startFlush_cases hs
    exact absurd hm' hm
  | startCompaction level =>
    obtain ⟨_, _, _, _, _, _, rfl⟩ := startCompaction_cases hs
    exact absurd hm' hm
  | startLog =>
    obtain ⟨_, _, _, rfl⟩ := startLog_cases hs
    exact absurd hm' hm
  | failJob i n =>
    obtain ⟨j, fs, t, _, _, _, _, ht, rfl⟩ := failJob_cases hs
    obtain ⟨db, _, what, hwhat⟩ := failPhase_cases ht
    have hm' : t.mode = .running := hm'
    rw [hwhat] at hm'
    exact absurd hm' (hfail _ _ rfl)
  | job i n order =>
    obtain ⟨j, hj, ⟨hio, t, next, hp, rfl⟩ | ⟨_, _, _, rfl⟩⟩ := jobStep_cases hs
    · have hm' : t.mode = .running := hm'
      rcases (phaseStep_same hp).2 with hsame | hclosed | hphase
      · exact absurd (hsame.symm.trans hm') hm
      · cases hclosed.symm.trans hm'
      · obtain ⟨io, phase⟩ := j
        cases hio
        cases hphase
        cases hp
        exact ⟨i, hj, rfl⟩
    · exact absurd hm' hm
  | _ => exact absurd not_false hj

/-- A step of a database under `kEveryWrite` that may lose power: while it is open, or while all its
logs are on stable storage. -/
structure Durable (s : Sys) (a : Act) (s' : Sys) : Prop where
  step : Steady s a s' ∨ ∃ cut, a = .powerLossData cut ∧
    (s.mode = .running ∨ ∀ n, s.fs.Solid (.log n))
  policy : ∀ options path, a = .recover options path → options.syncPolicy = .everyWrite

/-- What keeps acknowledged writes safe from a power loss. -/
structure Lasting (s : Sys) : Prop where
  good : Good True s
  tidy : Tidy s
  firm : Firm s
  honours : Honours s
  trailing : Trailing s
  policy : s.mode ≠ .closed → s.db.options.syncPolicy = .everyWrite
  acked : ∀ g ∈ s.acked, g ∈ s.done
  stable : s.mode = .running → Stable s
  backed : s.mode = .running → Backed s

namespace Lasting

theorem new : Lasting {} where
  good := good_new True
  tidy := ⟨fun hm => absurd rfl hm, fun hr => absurd rfl hr⟩
  firm := firm_new
  honours := .of_none rfl
  trailing := .of_eq rfl
  policy hm := absurd rfl hm
  acked g hg := by cases hg
  stable hm := by cases hm
  backed hm := by cases hm

theorem closed (hg : Good True s) (hF : Firm s) (hm : s.mode = .closed) (hl : s.lead = none)
    (hr : s.rotating = none) (hd : s.hist = s.done) (ha : ∀ g ∈ s.acked, g ∈ s.done) :
    Lasting s where
  good := hg
  tidy := ⟨fun ho => absurd hm ho, fun ho => absurd hr ho⟩
  firm := hF
  honours := .of_none hl
  trailing := .of_eq hd
  policy ho := absurd hm ho
  acked := ha
  stable ho := by cases hm.symm.trans ho
  backed ho := by cases hm.symm.trans ho

theorem orderly (h : Lasting s) (hp : Steady s a s') (hs : LsmKv.step s a = some s') :
    Orderly True s a s' :=
  hp.served.orderly h.tidy hs fun _ => hp.below

theorem internal (h : Lasting s) (hp : Steady s a s') (hs : LsmKv.step s a = some s')
    (ha : a.internal) (hS : Sound True gh s) (hD : Disk True gh s m logs) : Lasting s' := by
  have ho := h.orderly hp hs
  have hoptions : s'.db.options = s.db.options := by
    by_cases hw : a.ofWriter
    · exact Sys.kept_write hs hw (·.db.options) fun _ => rfl
    · by_cases hj : a.ofJob
      · exact Sys.kept_job hs hj (·.db.options) fun _ => rfl
      · exact Sys.kept_read hs ha hw hj (·.db.options) fun _ => rfl
  have hpol := h.policy hS.is_open
  refine {
    good := h.good.step hs ho
    tidy := h.tidy.internal hS.is_open hs ha hp.served.flush
    firm := h.firm.step h.good hs ho
    honours := h.honours.orderly h.good hs ho
    trailing := h.trailing.orderly h.good hs ho
    policy := fun _ => hoptions ▸ hpol
    acked := ?_
    stable := fun hm' => ?_
    backed := fun hm' => ?_ }
  · by_cases hf : a = .finish
    · subst hf
      obtain ⟨ld, hl, _, _, hnil, _, _, rfl⟩ := Sys.finish_cases hs
      intro g hg
      rcases List.mem_append.1 hg with hg | hg
      · exact hS.logged.pre.subset (h.acked g hg)
      · show g ∈ s.hist
        rw [(hS.logged.leadOk ld hl).logged hnil]
        exact List.mem_append_right _ hg
    · obtain ⟨hd, hk⟩ := (Sys.step_kept hs ha).2 hf
      rw [hd, hk]
      exact h.acked
  · by_cases hm : s.mode = .running
    · exact (h.stable hm).step hS hD hm h.honours hpol hs ha fun he => ho.swap he trivial
    · obtain ⟨i, hj, rfl⟩ := Sys.starts_running hs ha hm hm'
      obtain ⟨rfl, hjobs⟩ := hS.jobs_index hj
      exact (Stable.opened hD hjobs).of_same rfl rfl fun _ => rfl
  · by_cases hm : s.mode = .running
    · exact (h.backed hm).step hS hD hm h.trailing hs ha
    · obtain ⟨i, hj, rfl⟩ := Sys.starts_running hs ha hm hm'
      obtain ⟨rfl, hjobs⟩ := hS.jobs_index hj
      obtain ⟨m, n, hc, hcov⟩ := Backed.opened hS hD hjobs
      exact ⟨m, n, hc, hcov.keep rfl le_rfl le_rfl fun _ _ _ hd => hd⟩

theorem steady (h : Lasting s) (hp : Steady s a s') (hs : LsmKv.step s a = some s')
    (hpol : ∀ options path, a = .recover options path → options.syncPolicy = .everyWrite) :
    Lasting s' := by
  have ho := h.orderly hp hs
  rcases h.good.step_cases hs ho with ⟨hint, gh, m, logs, hS, hD⟩ | rfl
    | ⟨options, path, _, _, _, hr, rfl, hi, _⟩
  · exact h.internal hp hs hint hS hD
  · exact closed h.good.kill h.firm.kill rfl rfl rfl rfl
      fun g hg => h.good.done_hist.subset (h.acked g hg)
  · have hg := h.good.step hs ho
    have hF := h.firm.step h.good hs ho
    have hb := hp.served.background options path rfl
    obtain ⟨hm, ⟨_, rfl⟩ | ⟨_, _, _, _, rfl⟩⟩ := Sys.recover_cases hr
    · exact closed hg hF hm hi.lead hi.rotating hi.done.symm h.acked
    · exact {
        good := hg
        tidy := ⟨fun _ => hb, fun hne => absurd hi.rotating hne⟩
        firm := hF
        honours := .of_none hi.lead
        trailing := .of_eq hi.done.symm
        policy := fun _ => hpol options path rfl
        acked := h.acked
        stable := fun hm => (by cases hm)
        backed := fun hm => (by cases hm) }

theorem loss (h : Lasting s) {cut : FileName → Nat} {N : Nat} (hd : s.done <+: kept)
    (hsurv : Sys.survivors s.fs (s.fs.powerLossData cut) s.hist = kept)
    (hdisk : OnDisk True (s.fs.powerLossData cut) kept m logs N) :
    Lasting (s.powerLoss (s.fs.powerLossData cut)) := by
  have hsolid := s.fs.solid_powerLossData cut
  refine closed (.closed ⟨rfl, rfl, rfl, rfl, rfl, rfl, rfl⟩ (hsurv ▸ hdisk) rfl) ?_ rfl
    rfl rfl rfl ?_
  · exact ⟨hsolid _, fun n _ => hsolid _, fun _ ht => (by cases ht), fun _ hj => (by cases hj)⟩
  · intro g hg
    show g ∈ Sys.survivors _ _ _
    rw [hsurv]
    exact hd.subset (h.acked g hg)

theorem loss_solid (h : Lasting s) (hsolid : ∀ n, s.fs.Solid (.log n)) (cut : FileName → Nat) :
    Lasting (s.powerLoss (s.fs.powerLossData cut)) := by
  have hread : ∀ n, (s.fs.powerLossData cut).read (.log n) = s.fs.read (.log n) := fun n =>
    (hsolid n).read_powerLossData cut
  have hseqs : ∀ q, q ∈ loggedSeqs (s.fs.powerLossData cut) ↔ q ∈ loggedSeqs s.fs := by
    intro q
    simp only [mem_loggedSeqs, hread]
  have hsurv : Sys.survivors s.fs (s.fs.powerLossData cut) s.hist = s.hist := by
    rw [survivors_eq_takeWhile, List.takeWhile_eq_self_iff]
    intro g _
    by_cases hin : g.base ∈ loggedSeqs s.fs
    · simp [(hseqs _).2 hin]
    · simp [hin]
  obtain ⟨m, logs, N, hdisk⟩ : ∃ m logs N, OnDisk True s.fs s.hist m logs N := by
    cases h.good with
    | opened _ hD _ => exact ⟨_, _, _, hD.onDisk⟩
    | closed _ hd _ => exact ⟨_, _, _, hd⟩
  have hc := h.firm.committed hdisk.committed cut
  exact h.loss h.good.done_hist hsurv ⟨hdisk.ok, hc, hdisk.stored.frame hread le_rfl, hdisk.cover⟩

theorem step (h : Lasting s) (hp : Durable s a s') (hs : LsmKv.step s a = some s') :
    Lasting s' := by
  rcases hp.step with hsteady | ⟨cut, rfl, hm | hsolid⟩
  · exact h.steady hsteady hs hp.policy
  · cases hs
    obtain ⟨gh, m, logs, hS, hD⟩ := h.good.sound (by simp [hm])
    obtain ⟨kept, logs', hd, hsurv, hdisk⟩ :=
      hD.after_loss hS hm h.firm (h.stable hm) (h.backed hm) h.trailing cut
    exact h.loss hd hsurv hdisk
  · cases hs
    exact h.loss_solid hsolid cut

theorem run (h : Run Durable {} s) : Lasting s :=
  h.induct new fun _ _ _ h hs hp => h.step hp hs

end Lasting

/-- Under `kEveryWrite` no acknowledged write is ever lost. Through any number of process
crashes, and of power failures that cut unsynced bytes of files, every acknowledged group stays
in the history; `Open` reads all it needs; and reads of the open database return what the
finished groups say. -/
theorem power_loss_keeps_acknowledged (h : Run Durable {} s) :
    (∀ g ∈ s.acked, g ∈ s.done) ∧
    (s.mode = .closed → ∀ options path, ∃ s', s.recover options path = some s' ∧
      s'.mode = .opening ∧ s'.failed = none) ∧
    (s.mode = .running → ∀ k : Bytes, k.length + 8 < 2 ^ 32 →
      Reads {r | r ∈ s.visible} k s.db.lastSequence
      (((s.db.capture none).get k).run s.store).1) := by
  have hl := Lasting.run h
  refine ⟨hl.acked, fun hm options path => hl.good.recovers hm options path, fun hm k hk => ?_⟩
  obtain ⟨gh, m, logs, hS, _⟩ := hl.good.sound (by simp [hm])
  exact hS.reads_now trivial hm (fun _ hc => by cases hc) hk

section Sample

def Durable.check (s : Sys) : Act → Bool
  | .powerLossData _ => decide (s.mode = .running)
  | .recover options path =>
    decide (options.syncPolicy = .everyWrite) && Steady.check s (.recover options path)
  | a => Steady.check s a

theorem Durable.of_check (hc : Durable.check s a = true) (hs : LsmKv.step s a = some s')
    (h : Shallow s) :
    Durable s a s' := by
  cases a with
  | powerLossData cut =>
    exact ⟨.inr ⟨cut, rfl, .inl (of_decide_eq_true hc)⟩, fun _ _ he => (by cases he)⟩
  | recover options path =>
    obtain ⟨hpol, hsteady⟩ := Bool.and_eq_true_iff.1 hc
    refine ⟨.inl (.of_check hsteady hs h), fun _ _ he => ?_⟩
    cases he
    exact of_decide_eq_true hpol
  | _ => exact ⟨.inl (.of_check hc hs h), fun _ _ he => (by cases he)⟩

theorem Run.of_durable (h : runActs Durable.check {} as = some t) : Run Durable {} t := by
  have hrun : Run (fun s a _ => Durable.check s a = true) {} t :=
    Run.of_runActs (fun _ _ _ hc _ => hc) h
  clear h
  induction hrun with
  | refl => exact .refl
  | step _ hs hc ih => exact .step ih hs (.of_check hc hs ih.shallow)

/-- The power fails when the record of the second put is written and not synced. -/
def lossActs : List Act :=
  openActs ++ putActs [97] [1] ++
    [.write 0 [⟨.kValue, [97], [2]⟩] false, .begin false, .append 0, .powerLossData fun _ => 0]

theorem power_loss_keeps_acknowledged_sample : ∃ s, runActs Durable.check {} (lossActs ++
      reopenActs [.manifest, .sst 2, .log 1] [.manifest, .log 3, .sst 2, .log 1]) = some s ∧
    s.mode = .running ∧ s.acked.map Group.entries = [[⟨.kValue, [97], [1]⟩]] ∧
    s.hist.map Group.entries = [[⟨.kValue, [97], [1]⟩]] ∧
    Reads {r | r ∈ s.visible} [97] s.db.lastSequence
      (((s.db.capture none).get [97]).run s.store).1 := by
  obtain ⟨s, hs, hm, hacked, hhist⟩ : ∃ s, runActs Durable.check {} (lossActs ++
      reopenActs [.manifest, .sst 2, .log 1] [.manifest, .log 3, .sst 2, .log 1]) = some s ∧
      s.mode = .running ∧ s.acked.map Group.entries = [[⟨.kValue, [97], [1]⟩]] ∧
      s.hist.map Group.entries = [[⟨.kValue, [97], [1]⟩]] := by
    decide +kernel
  exact ⟨s, hs, hm, hacked, hhist, (power_loss_keeps_acknowledged (Run.of_durable hs)).2.2 hm
    [97] (by decide)⟩

end Sample

end LsmKv
