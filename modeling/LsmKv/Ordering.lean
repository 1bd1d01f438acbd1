import LsmKv.Checking

namespace LsmKv
set_option autoImplicit true

open Versioned
open Wal (Group)

variable {σ : Prop} {s t t' : Sys}

theorem Good.sound (h : Good σ s) (hm : s.mode ≠ .closed) :
    ∃ gh m logs, Sound σ gh s ∧ Disk σ gh s m logs := by
  cases h with
  | opened hS hD _ => exact ⟨_, _, _, hS, hD⟩
  | closed hi _ _ => exact absurd hi.mode hm

theorem Sound.layered_running (h : Sound σ gh s) (hm : s.mode = .running) :
    Layered gh s.visible s.db.mem s.db.imm s.store.mems s.db.current :=
  h.layered fun ho => by simp [hm] at ho

/-- Everything that a read can find, in the order in which it looks. -/
def Sys.sources (s : Sys) : List (List Rec) := (s.db.capture none).runs s.store.mems

theorem Sound.sources_ok (h : Sound σ gh s) (hm : s.mode = .running) : RunsOk s.sources :=
  (h.layered_running hm).runsOk h.logged.seqAsc fun _ hr => (h.logged.mem_visible hr).1

theorem Sound.source_visible (h : Sound σ gh s) (hm : s.mode = .running)
    (hr : r ∈ s.sources.flatten) :
    r ∈ s.visible :=
  (h.layered_running hm).mem_runs hr

/-- A source that a read looks at earlier has no older version of a key than a later one. -/
theorem sources_newest_first (h : Run (Orderly False) {} s) (hm : s.mode = .running) :
    s.sources.Pairwise fun l l' => ∀ x ∈ l, ∀ y ∈ l', y.userKey = x.userKey → y.seq ≤ x.seq := by
  obtain ⟨gh, m, logs, hS, _⟩ := (Good.run h).sound (by simp [hm])
  exact (hS.sources_ok hm).shadows

/-- Three versions of one key, in the memtable, twice in L0, and in L1. -/
theorem sources_newest_first_sample : ∃ s, Run (Orderly False) {} s ∧ s.mode = .running ∧
    (s.store.mems s.db.mem).recs.map Rec.seq = [4] ∧
    (s.db.current.levels 0).map (fun f => (f.number, f.recs.map Rec.seq)) =
      [(9, [3]), (8, [3])] ∧
    s.sources.Pairwise fun l l' => ∀ x ∈ l, ∀ y ∈ l', y.userKey = x.userKey → y.seq ≤ x.seq := by
  obtain ⟨s, hs, hm, _, hmem, h0, _⟩ := sampleActs_run
  have hrun := Run.of_check hs
  exact ⟨s, hrun, hm, hmem, h0, sources_newest_first hrun hm⟩

section Level
variable {fs : List FileMetaData}

theorem LevelOk.keys_apart (h : LevelOk fs) :
    fs.Pairwise fun f g => extractUserKey f.largest < extractUserKey g.smallest := by
  refine List.Pairwise.imp_of_mem (fun {f g} hf hg hfg => ?_) h.disjoint
  obtain ⟨a, ha, hae⟩ := (h.file f hf).largest_mem (h.ne_nil f hf)
  obtain ⟨b, hb, hbe⟩ := (h.file g hg).smallest_mem (h.ne_nil g hg)
  rw [← hae, ← hbe]
  exact hfg a ha b hb

theorem FileMetaData.Ok.ends {f : FileMetaData} (h : f.Ok) (hne : f.recs ≠ []) :
    f.recs.head?.map Prod.fst = some f.smallest ∧
    f.recs.getLast?.map Prod.fst = some f.largest := by
  rw [h.smallest, h.largest, firstKeyOf, lastKeyOf]
  change f.recs.head?.map Prod.fst = some ((f.recs.head?.map Prod.fst).getD []) ∧
    f.recs.getLast?.map Prod.fst = some ((f.recs.getLast?.map Prod.fst).getD [])
  rw [List.head?_eq_some_head hne, List.getLast?_eq_some_getLast hne]
  exact ⟨rfl, rfl⟩

/-- The binary search of `DB::Get` comes to the file that holds the key. -/
theorem LevelOk.search (h : LevelOk fs) (hf : f ∈ fs) (hx : x ∈ f.recs) :
    fs[lowerBoundOf (fun g => decide (extractUserKey g.largest < x.userKey)) fs]? = some f := by
  set p : FileMetaData → Bool := fun g => decide (extractUserKey g.largest < x.userKey) with hp
  have hpair : fs.Pairwise fun f g => p g = true → p f = true := by
    refine h.pairwise_largest (p := fun b => decide (extractUserKey b < x.userKey))
      fun a b hab hb => ?_
    rw [decide_eq_true_iff] at hb ⊢
    exact lt_trans hab hb
  obtain ⟨before, after, rfl⟩ := List.append_of_mem hf
  have hfile := h.file f hf
  -- the files in front end before the key, and this one does not
  have hbefore : ∀ g ∈ before, p g = true := by
    intro g hg
    have hgf := (List.pairwise_append.1 h.keys_apart).2.2 g hg f List.mem_cons_self
    have hle := firstKey_le hfile.good.ascending hx
    rw [← hfile.smallest] at hle
    exact decide_eq_true (lt_of_lt_of_le hgf hle)
  have hself : p f = false := by
    have hle := le_lastKey hfile.good.ascending hx
    rw [← hfile.largest] at hle
    exact decide_eq_false (not_lt.2 hle)
  rw [lowerBoundOf_eq hpair, List.takeWhile_append_of_pos hbefore,
    List.takeWhile_cons_of_neg (by simp [hself]), List.append_nil,
    List.getElem?_append_right le_rfl, Nat.sub_self, List.getElem?_cons_zero]

end Level

/-- The files of a level below L0 are in order and share no user key, and the binary search of a
read comes to the only one that can hold the key. -/
theorem levels_disjoint (h : Run (Orderly False) {} s) (hm : s.mode ≠ .closed) (hl : 0 < l) :
    ((s.db.current.levels l).Pairwise fun f g =>
      compareInternalKey f.smallest g.smallest = .lt ∧
        extractUserKey f.largest < extractUserKey g.smallest) ∧
    (∀ f ∈ s.db.current.levels l, f.recs.head?.map Prod.fst = some f.smallest ∧
      f.recs.getLast?.map Prod.fst = some f.largest) ∧
    ∀ f ∈ s.db.current.levels l, ∀ x ∈ f.recs,
      (s.db.current.levels l)[lowerBoundOf (fun g => decide (extractUserKey g.largest < x.userKey))
        (s.db.current.levels l)]? = some f := by
  obtain ⟨gh, m, logs, hS, _⟩ := (Good.run h).sound hm
  obtain ⟨R, hwf⟩ := hS.wf
  have hlev := hwf.ok.deeper l hl
  refine ⟨?_, fun f hf => (hlev.file f hf).ends (hlev.ne_nil f hf),
    fun f hf x hx => hlev.search hf hx⟩
  exact hlev.smallest_sorted.and hlev.keys_apart

theorem levels_disjoint_sample : ∃ s, Run (Orderly False) {} s ∧ s.mode = .running ∧
    (s.db.current.levels 1).map (fun f => (f.number, f.recs.map Rec.seq)) =
      [(4, [1]), (7, [2])] ∧
    ((s.db.current.levels 1).Pairwise fun f g =>
      compareInternalKey f.smallest g.smallest = .lt ∧
        extractUserKey f.largest < extractUserKey g.smallest) ∧
    (∀ f ∈ s.db.current.levels 1, f.recs.head?.map Prod.fst = some f.smallest ∧
      f.recs.getLast?.map Prod.fst = some f.largest) ∧
    ∀ f ∈ s.db.current.levels 1, ∀ x ∈ f.recs,
      (s.db.current.levels 1)[lowerBoundOf (fun g => decide (extractUserKey g.largest < x.userKey))
        (s.db.current.levels 1)]? = some f := by
  obtain ⟨s, hs, hm, _, _, _, h1, _⟩ := sampleActs_run
  have hrun := Run.of_check hs
  exact ⟨s, hrun, hm, h1, levels_disjoint hrun (by simp [hm]) Nat.one_pos⟩

section Sequences

/-- Nothing that is complete in a log is forgotten, not even in a crash. -/
theorem Orderly.hist_prefix (hs : LsmKv.step s a = some s') (ho : Orderly σ s a s') :
    s.hist <+: s'.hist := by
  rcases ho.power with hint | rfl | ⟨options, path, rfl⟩
  · exact (Onward.step hs hint).hist
  · cases hs
    exact List.prefix_rfl
  · have hr : s.recover options path = some s' := hs
    rw [Sys.recover] at hr
    split at hr
    · split at hr
      · cases hr
        exact List.prefix_rfl
      · split at hr <;> cases hr <;> exact List.prefix_rfl
    · cases hr

theorem Run.hist_prefix (h : Run (Orderly σ) s t) : s.hist <+: t.hist := by
  induction h with
  | refl => exact List.prefix_rfl
  | step _ hs ho ih => exact ih.trans (ho.hist_prefix hs)

theorem Sound.source_hist (h : Sound σ gh s) (hm : s.mode = .running) (hr : r ∈ s.sources.flatten) :
    r ∈ recsOf s.hist :=
  h.logged.visible_mem (h.source_visible hm hr)

theorem Logged.hist_lt {fine : Prop} (h : Logged fine done hist last lead) (hr : r ∈ recsOf hist) :
    r.seq < last + 1 := by
  obtain ⟨g, hg, _, _, hlt⟩ := h.ok.mem_recsOf hr
  exact hlt.trans_le (h.tops g hg)

theorem Disk.replay_le (h : Disk σ gh s m logs) (hS : Sound σ gh s) (hm : s.mode = .running)
    (hb : s.fs.read (.log n) = some bytes) {e : Wal.Entry}
    (he : e ∈ (Wal.replay path bytes).entries) :
    e.seq ≤ s.db.lastSequence := by
  obtain ⟨pre, ha⟩ := (h.running hm).aligned
  have hn : n < s.db.nextFileNumber := h.onDisk.stored.bound n (by simp [hb])
  have hsub : ∀ g ∈ logs n, g ∈ s.hist := by
    intro g hg
    rw [ha.split]
    exact List.mem_append_right pre (mem_span.2 ⟨n, Nat.zero_le n, hn, hg⟩)
  obtain ⟨hes, _⟩ := Wal.replay_image (h.onDisk.stored.image n bytes hb)
    (fun g hg => hS.logged.ok.fits g (hsub g hg)) path
  rw [hes] at he
  obtain ⟨g, hg, he⟩ := List.mem_flatMap.1 he
  have htop := hS.logged.tops g (hsub g hg)
  rw [Group.numbered, Wal.number_eq_mapIdx, List.mem_mapIdx] at he
  obtain ⟨i, hi, rfl⟩ := he
  exact (Nat.mod_le _ _).trans (by omega)

theorem Sound.begin_gt (h : Sound σ gh t) (hs : t.begin elapsed = some t') (hfit : t'.Fits)
    (hlead : t'.lead = some ld) (hr : r ∈ recsOf t.hist) (hx : x ∈ ld.group.recs) :
    r.seq < x.seq := by
  have hnew := (h.begin hs hfit).logged
  have hlok := hnew.leadOk ld hlead
  have hbound := hlok.bound hnew.last_le
  have hge := (mem_numberRecs hbound hx).2.1
  have hlt := h.logged.hist_lt hr
  obtain ⟨_, _, hnone, w, ws, _, ⟨_, rfl⟩ | ⟨_, rfl⟩⟩ := Sys.begin_cases hs
  · rw [hnone] at hlead
    cases hlead
  · cases hlead
    exact hlt.trans_le hge

end Sequences

/-- No version has a number above the last one that was given, and no later write gets a number at
or below that of a version which was there when the database was open. -/
theorem sequences_ascend (h : Run (Orderly False) {} s) (hm : s.mode = .running) :
    (∀ r ∈ s.sources.flatten, r.seq ≤ s.db.lastSequence) ∧
    (∀ path n bytes, s.fs.read (.log n) = some bytes →
      ∀ e ∈ (Wal.replay path bytes).entries, e.seq ≤ s.db.lastSequence) ∧
    ∀ t t' elapsed ld, Run (Orderly False) s t → step t (.begin elapsed) = some t' →
      Orderly False t (.begin elapsed) t' → t'.lead = some ld →
      ∀ r ∈ s.sources.flatten, ∀ x ∈ ld.group.recs, r.seq < x.seq := by
  obtain ⟨gh, m, logs, hS, hD⟩ := (Good.run h).sound (by simp [hm])
  refine ⟨fun r hr => ?_, fun path n bytes hb e he => hD.replay_le hS hm hb he, ?_⟩
  · exact Nat.lt_succ_iff.1 (hS.logged.hist_lt (hS.source_hist hm hr))
  · intro t t' elapsed ld hrun hs ho hlead r hr x hx
    have hbegin : t.begin elapsed = some t' := hs
    have hopen : t.mode ≠ .closed := by simp [(Sys.begin_cases hbegin).1]
    obtain ⟨gh', m', logs', hS', _⟩ := (Good.run (h.trans hrun)).sound hopen
    refine hS'.begin_gt hbegin ho.fits hlead ?_ hx
    obtain ⟨g, hg, hrg⟩ := List.mem_flatMap.1 (hS.source_hist hm hr)
    exact List.mem_flatMap.2 ⟨g, hrun.hist_prefix.subset hg, hrg⟩

theorem sequences_ascend_sample : ∃ s, Run (Orderly False) {} s ∧ s.mode = .running ∧
    s.db.lastSequence = 4 ∧ (∀ r ∈ s.sources.flatten, r.seq ≤ s.db.lastSequence) ∧
    (∀ path n bytes, s.fs.read (.log n) = some bytes →
      ∀ e ∈ (Wal.replay path bytes).entries, e.seq ≤ s.db.lastSequence) ∧
    ∀ t t' elapsed ld, Run (Orderly False) s t → step t (.begin elapsed) = some t' →
      Orderly False t (.begin elapsed) t' → t'.lead = some ld →
      ∀ r ∈ s.sources.flatten, ∀ x ∈ ld.group.recs, r.seq < x.seq := by
  obtain ⟨s, hs, hm, hlast, _⟩ := sampleActs_run
  have hrun := Run.of_check hs
  exact ⟨s, hrun, hm, hlast, sequences_ascend hrun hm⟩

end LsmKv
