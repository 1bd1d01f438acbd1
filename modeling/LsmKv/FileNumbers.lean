import LsmKv.Ordering

namespace LsmKv
set_option autoImplicit true

variable {σ : Prop} {gh : Ghost} {s s' t : Sys}

/-- The step takes `n` from `next_file_number_`. -/
def Draws (s s' : Sys) (n : Nat) : Prop := s.db.nextFileNumber ≤ n ∧ n < s'.db.nextFileNumber

/-- The steps of one process. -/
def Inside (s : Sys) (a : Act) (s' : Sys) : Prop := Orderly False s a s' ∧ a.internal

theorem Run.next_le (h : Run Inside s t) : s.db.nextFileNumber ≤ t.db.nextFileNumber := by
  induction h with
  | refl => exact le_rfl
  | step _ hs ho ih => exact ih.trans (Onward.step hs ho.2).next_le

/-- What a thread is about to do with files. -/
def Sys.pending (s : Sys) (io : List Io) : Prop :=
  (∃ j ∈ s.jobs, j.io = io) ∨ ∃ r, s.rotating = some r ∧ r.io = io

theorem Writing.creates (h : Writing fs name bytes (.openFile other trunc :: rest)) :
    fs.read other = none := by
  rcases h with ⟨hr, he⟩ | ⟨_, _, _, _, he⟩ | ⟨_, he | he⟩
  · cases he
    exact hr
  · cases he
  · cases he
  · cases he

theorem OpeningLog.creates (h : OpeningLog fs number (.openFile other trunc :: rest)) :
    fs.read other = none := by
  rcases h with ⟨hr, he⟩ | ⟨_, _, _, _, he⟩ | ⟨_, he⟩
  · cases he
    exact hr
  · cases he
  · cases he

theorem not_isManifest_of_number (h : Sys.numberOf name ≠ none) : ¬ IsManifest name := by
  rintro (rfl | rfl)
  · exact h rfl
  · exact h rfl

theorem JobOk.creates (h : JobOk σ floor s ⟨.openFile name trunc :: rest, phase⟩)
    (hn : Sys.numberOf name ≠ none) : s.fs.read name = none := by
  have hman : ∀ io, io = Io.openFile name trunc :: rest →
      (∀ name, ¬ IsManifest name → ∀ op ∈ io, name ∉ op.names) → False := by
    rintro _ rfl hio
    exact hio name (not_isManifest_of_number hn) _ List.mem_cons_self (by simp [Io.names])
  have hunlink : ∀ (P : FileName → Prop), (∀ op ∈ Io.openFile name trunc :: rest,
      ∃ nm, op = .unlink nm ∧ P nm) → False := by
    intro P hio
    obtain ⟨_, he, _⟩ := hio _ List.mem_cons_self
    cases he
  cases h with
  | flushOpen _ _ _ _ hw => exact hw.creates
  | compactOpen _ _ _ _ _ _ _ hw => exact hw.creates
  | commit _ _ _ hio => exact (hman _ rfl hio).elim
  | commitDone _ _ _ hio => exact (hunlink _ hio).elim
  | logOpened _ _ _ _ hio => exact hio.creates
  | recoverCommit _ _ _ hio => exact (hman _ rfl hio).elim
  | recovered _ _ _ hio => exact (hunlink _ hio).elim

theorem Sound.creates (h : Sound σ gh s) (hp : s.pending (.openFile name trunc :: rest))
    (hn : Sys.numberOf name ≠ none) : s.fs.read name = none := by
  rcases hp with ⟨⟨io, phase⟩, hj, rfl⟩ | ⟨r, hr, hio⟩
  · rcases h.jobs with ⟨hnil, _⟩ | ⟨j, hjobs, hok⟩
    · rw [hnil] at hj
      cases hj
    · rw [hjobs] at hj
      obtain rfl := List.mem_singleton.1 hj
      exact hok.creates hn
  · have hlog := (h.rotating r hr).log
    rw [hio] at hlog
    exact hlog.creates

/-- A number that is taken names no file of the directory and was not taken before in the same
process. So a table or a log is always opened as a new file, and the place of a block in the cache
is the place of one block only. -/
theorem file_numbers_fresh (h : Run (Orderly False) {} s) :
    (∀ a s' n, step s a = some s' → a.internal → Draws s s' n →
      (∀ name ∈ s.fs.names, Sys.numberOf name ≠ some n) ∧
      ∀ r b r' k, step r b = some r' → Run Inside r' s → Draws r r' k → k ≠ n) ∧
    (∀ name trunc rest, s.mode ≠ .closed → s.pending (.openFile name trunc :: rest) →
      Sys.numberOf name ≠ none → s.fs.read name = none) ∧
    (s.mode ≠ .closed → ∀ t ∈ s.opened, ∀ t' ∈ s.opened, ∀ e ∈ t.index, ∀ e' ∈ t'.index,
      t.number = t'.number → e.offset = e'.offset → t = t' ∧ e = e') := by
  refine ⟨fun a s' n hs ha hd => ⟨fun name hname hnum => ?_, ?_⟩, ?_, ?_⟩
  · cases Good.run h with
    | opened hS _ _ =>
      have := hS.tables.names name hname n hnum
      exact absurd hd.1 (not_le.2 this)
    | closed hi _ hc =>
      rw [hi.step_eq_none ha hc] at hs
      cases hs
  · intro r b r' k _ hrun hk
    have hle := hrun.next_le
    have h1 := hk.2
    have h2 := hd.1
    omega
  · intro name trunc rest hm hp hn
    obtain ⟨gh, m, logs, hS, _⟩ := (Good.run h).sound hm
    exact hS.creates hp hn
  · intro hm t ht t' ht' e he e' he' hnum hoff
    obtain ⟨gh, m, logs, hS, _⟩ := (Good.run h).sound hm
    have hT := hS.tables.tablesOk
    obtain rfl := hT.number_inj ht ht' hnum
    exact ⟨rfl, hT.offset_inj ht he he' hoff⟩

theorem file_numbers_fresh_sample : ∃ s s', Run (Orderly False) {} s ∧ s.mode = .running ∧
    step s (.rotate true) = some s' ∧ Draws s s' 11 ∧
    (∀ a s' n, step s a = some s' → a.internal → Draws s s' n →
      (∀ name ∈ s.fs.names, Sys.numberOf name ≠ some n) ∧
      ∀ r b r' k, step r b = some r' → Run Inside r' s → Draws r r' k → k ≠ n) ∧
    (∀ name trunc rest, s.mode ≠ .closed → s.pending (.openFile name trunc :: rest) →
      Sys.numberOf name ≠ none → s.fs.read name = none) ∧
    (s.mode ≠ .closed → ∀ t ∈ s.opened, ∀ t' ∈ s.opened, ∀ e ∈ t.index, ∀ e' ∈ t'.index,
      t.number = t'.number → e.offset = e'.offset → t = t' ∧ e = e') := by
  obtain ⟨s, hs, hm, _, _, _, _, hnext, hrot⟩ := sampleActs_run
  obtain ⟨s', hs', hnext'⟩ := Option.map_eq_some_iff.1 hrot
  have hrun := Run.of_check hs
  exact ⟨s, s', hrun, hm, hs', ⟨hnext.le, by omega⟩, file_numbers_fresh hrun⟩

end LsmKv
