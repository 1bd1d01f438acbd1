import LsmKv.FileNumbers

namespace LsmKv
set_option autoImplicit true

variable {σ : Prop} {gh : Ghost} {s : Sys}

/-- What a manifest records of a file. -/
def FileMetaData.entry (f : FileMetaData) : Nat × Nat × Bytes × Bytes :=
  (f.number, f.fileSize, f.smallest, f.largest)

/-- `m'` has the numbers of `m` and its files, level by level and in the same order. -/
structure Manifest.Same (m m' : Manifest) : Prop where
  logNumber : m'.logNumber = m.logNumber
  nextFileNumber : m'.nextFileNumber = m.nextFileNumber
  lastSequence : m'.lastSequence = m.lastSequence
  levels : ∀ l, (m'.version.levels l).map FileMetaData.entry =
    (m.version.levels l).map FileMetaData.entry

/-- What a manifest needs for its levels to come back in order. -/
structure Manifest.Ordered (openTable : Nat → Except Status Table) (m : Manifest) : Prop where
  fits : m.Fits
  level0 : (m.version.levels 0).Pairwise fun f g => g.number < f.number
  deeper : ∀ l, 0 < l →
    (m.version.levels l).Pairwise fun f g => compareInternalKey f.smallest g.smallest = .lt
  empty : ∀ l, kNumLevels ≤ l → m.version.levels l = []
  opens : ∀ l, ∀ f ∈ m.version.levels l, ∃ t, openTable f.number = .ok t

theorem Manifest.entry_reopenFile (openTable : Nat → Except Status Table) (f : FileMetaData) :
    (reopenFile openTable f).entry = f.entry := by
  rw [reopenFile]
  split <;> rfl

theorem Manifest.Ordered.load {openTable : Nat → Except Status Table} {m : Manifest}
    (h : m.Ordered openTable) : ∃ m', Manifest.load openTable m.encode = .ok m' ∧ m.Same m' := by
  refine ⟨_, Manifest.load_encode openTable h.fits h.level0 h.deeper h.empty fun e he => ?_,
    rfl, rfl, rfl, fun l => ?_⟩
  · exact h.opens e.1 e.2 (Manifest.mem_filesOf.1 he).2
  · change ((m.version.levels l).map (reopenFile openTable)).map _ = _
    rw [List.map_map]
    exact List.map_congr_left fun f _ => entry_reopenFile openTable f

theorem Run.fits (h : Run (Orderly σ) {} s) (hm : s.mode ≠ .closed) : s.Fits := by
  cases h with
  | refl => exact absurd rfl hm
  | step _ _ ho => exact ho.fits

theorem Sound.ordered (h : Sound σ gh s) (hfit : s.Fits) (path : String) (options : Options)
    (hlog : log < 2 ^ 64) (hnext : n < 2 ^ 64) (hlast : last < 2 ^ 64) :
    Manifest.Ordered (openTable path options s.fs) ⟨s.db.current, log, n, last⟩ := by
  obtain ⟨R, hwf⟩ := h.wf
  have hman := h.manifest_fits hfit
  refine ⟨⟨hlog, hnext, hlast, hman.files, hman.number, hman.fileSize, hman.smallest, hman.largest⟩,
    hwf.level0.imp fun h => h.1, fun l hl => (hwf.ok.deeper l hl).smallest_sorted, hwf.ok.empty, ?_⟩
  intro l f hf
  obtain ⟨t, ht, _⟩ :=
    (h.tables.live l f hf).2.openTable (hwf.file_ok hf).good.ascending path options
  exact ⟨t, ht⟩

/-- `LoadManifest` reads back what `WriteManifest` wrote of an ordered version, and the version of
an open database is always ordered. -/
theorem manifest_round_trip :
    (∀ (openTable : Nat → Except Status Table) (m : Manifest), m.Ordered openTable →
      ∃ m', Manifest.load openTable m.encode = .ok m' ∧ m.Same m') ∧
    ∀ s, Run (Orderly False) {} s → s.mode ≠ .closed → ∀ path options log n last,
      log < 2 ^ 64 → n < 2 ^ 64 → last < 2 ^ 64 →
      Manifest.Ordered (openTable path options s.fs) ⟨s.db.current, log, n, last⟩ := by
  refine ⟨fun _ _ h => h.load, fun s h hm path options log n last hlog hn hlast => ?_⟩
  obtain ⟨gh, m, logs, hS, _⟩ := (Good.run h).sound hm
  exact hS.ordered (h.fits hm) path options hlog hn hlast

theorem manifest_round_trip_sample : ∃ s m', Run (Orderly False) {} s ∧
    (s.db.current.levels 0).map (fun f => (f.number, f.recs.map Rec.seq)) =
      [(9, [3]), (8, [3])] ∧
    (s.db.current.levels 1).map (fun f => (f.number, f.recs.map Rec.seq)) =
      [(4, [1]), (7, [2])] ∧
    Manifest.load (openTable "db" {} s.fs) (Manifest.encode ⟨s.db.current, 10, 11, 4⟩) = .ok m' ∧
    Manifest.Same ⟨s.db.current, 10, 11, 4⟩ m' := by
  obtain ⟨s, hs, hm, _, _, h0, h1, _⟩ := sampleActs_run
  have hrun := Run.of_check hs
  have hord := manifest_round_trip.2 s hrun (by simp [hm]) "db" {} 10 11 4 (by decide) (by decide)
    (by decide)
  obtain ⟨m', hload, hsame⟩ := manifest_round_trip.1 _ _ hord
  exact ⟨s, m', hrun, h0, h1, hload, hsame⟩

end LsmKv
