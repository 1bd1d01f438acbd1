import LsmKv.Failures
import LsmKv.Readers
import LsmKv.SequenceLimit

namespace LsmKv
set_option autoImplicit true

open Versioned
open Wal (Group)

variable {σ : Prop} {gh : Ghost} {s s' t t' : Sys} {a : Act}

/-- While a write is under way it can end only by being finished or by failing. -/
theorem Sys.step_to_idle (hs : LsmKv.step s a = some s') (ha : a.internal) (hf : a ≠ .finish)
    (hx : ¬ a.failsLog) (hl : s'.lead = none) : s.lead = none ∧ s'.hist = s.hist := by
  have hjob : a.ofJob → s.lead = none ∧ s'.hist = s.hist := fun hj =>
    ⟨(kept_job hs hj lead fun _ => rfl).symm.trans hl, kept_job hs hj hist fun _ => rfl⟩
  have hread : ¬ a.ofWriter → ¬ a.ofJob → s.lead = none ∧ s'.hist = s.hist := fun hw hj =>
    ⟨(kept_read hs ha hw hj lead fun _ => rfl).symm.trans hl,
      kept_read hs ha hw hj hist fun _ => rfl⟩
  cases a with
  | write id entries sync =>
    obtain ⟨_, _, _, rfl⟩ := write_cases hs
    exact ⟨hl, rfl⟩
  | rotate byFlush =>
    obtain ⟨_, _, _, _, _, rfl⟩ := rotate_cases hs
    exact ⟨hl, rfl⟩
  | rotateIo n =>
    obtain ⟨_, _, _, _, _, rfl⟩ := rotateIo_cases hs
    exact ⟨hl, rfl⟩
  | rotateSwap =>
    obtain ⟨_, _, _, _, rfl⟩ := rotateSwap_cases hs
    exact ⟨hl, rfl⟩
  | begin elapsed =>
    obtain ⟨_, _, hidle, _, _, _, ⟨_, rfl⟩ | ⟨_, rfl⟩⟩ := begin_cases hs
    · exact ⟨hidle, rfl⟩
    · cases hl
  | append n => obtain ⟨_, _, _, ⟨_, _, rfl⟩ | rfl⟩ := append_cases hs <;> cases hl
  | syncLog =>
    obtain ⟨_, _, _, _, rfl⟩ := syncLog_cases hs
    cases hl
  | insert =>
    obtain ⟨_, _, _, _, _, _, _, rfl⟩ := insert_cases hs
    cases hl
  | finish => exact absurd rfl hf
  | failAppend n => exact absurd trivial hx
  | failSync => exact absurd trivial hx
  | failRotate n =>
    obtain ⟨_, _, _, _, rfl⟩ := failRotate_cases hs
    exact ⟨hl, rfl⟩
  | startFlush => exact hjob trivial
  | startCompaction level => exact hjob trivial
  | startLog => exact hjob trivial
  | job i n order => exact hjob trivial
  | failJob i n => exact hjob trivial
  | kill => cases ha
  | recover options path => cases ha
  | powerLoss keep cut => cases ha
  | powerLossData cut => cases ha
  | _ => exact hread not_false not_false

theorem Act.failsLog.fails (h : a.failsLog) : a.fails := by
  cases a with
  | failAppend n => exact trivial
  | failSync => exact trivial
  | _ => cases h

/-- Only acknowledged groups are finished, and between two writes no other is in a log. -/
structure Complete (s : Sys) : Prop where
  acked : s.acked = s.done
  idle : s.lead = none → s.hist = s.done

theorem Complete.step (h : Complete s) (hg : Good σ s) (hs : LsmKv.step s a = some s')
    (hp : Sequential s a s') : Complete s' := by
  rcases hp.crashes.power with ha | rfl | ⟨options, path, rfl⟩
  · by_cases hf : a = .finish
    · subst hf
      obtain ⟨ld, hl, _, _, hw, _, _, rfl⟩ := Sys.finish_cases hs
      obtain ⟨gh, hS, _⟩ := hg.of_lead hl
      refine ⟨?_, fun _ => rfl⟩
      show s.acked ++ [ld.group] = s.hist
      rw [h.acked, (hS.logged.leadOk ld hl).logged hw]
    · have hd := (Sys.step_kept hs ha).2 hf
      refine ⟨hd.acked.trans (h.acked.trans hd.done.symm), fun hl => ?_⟩
      obtain ⟨hidle, hhist⟩ := Sys.step_to_idle hs ha hf (fun hx => hp.succeeds hx.fails) hl
      rw [hhist, hd.done]
      exact h.idle hidle
  · cases hs
    have hl : s.lead = none := Classical.byContradiction fun hne => (hp.atomic hne).elim
    exact ⟨h.acked.trans (h.idle hl).symm, fun _ => rfl⟩
  · obtain ⟨_, ⟨_, rfl⟩ | ⟨_, _, _, _, rfl⟩⟩ := Sys.recover_cases hs
    · exact ⟨h.acked, h.idle⟩
    · exact ⟨h.acked, h.idle⟩

/-- A sequential step, below the largest sequence number. -/
structure Ordered (s : Sys) (a : Act) (s' : Sys) : Prop where
  sequential : Sequential s a s'
  below : BelowMax s a

theorem Run.of_ordered (h : Run Ordered s t) : Run (Orderly True) s t :=
  h.mono fun _ _ _ hp => hp.sequential.orderly fun _ => hp.below

theorem Complete.run (h : Run Ordered {} s) : Complete s := by
  induction h with
  | refl => exact ⟨rfl, fun _ => rfl⟩
  | step h hs hp ih => exact ih.step (Good.run h.of_ordered) hs hp.sequential

/-- The handle was given out in `s₁`, in a run that goes on to `s`. -/
structure TakenAt (s₁ s : Sys) (handle : Nat) : Prop where
  before : Run Ordered {} s₁
  after : ∃ s₂, step s₁ .getSnapshot = some s₂ ∧ Ordered s₁ .getSnapshot s₂ ∧ Run Ordered s₂ s
  handle : handle = s₁.nextHandle

theorem TakenAt.step {s₁ : Sys} {n : Nat} (h : TakenAt s₁ s n) (hs : LsmKv.step s a = some s')
    (hp : Ordered s a s') : TakenAt s₁ s' n := by
  obtain ⟨s₂, hs₂, hp₂, hrun⟩ := h.after
  exact ⟨h.before, ⟨s₂, hs₂, hp₂, hrun.step hs hp⟩, h.handle⟩

def Act.leads : Act → Bool
  | append _ => true
  | syncLog => true
  | insert => true
  | finish => true
  | _ => false

def Act.succeeds : Act → Bool
  | failAppend _ => false
  | failSync => false
  | failRotate _ => false
  | failJob _ _ => false
  | _ => true

def Act.closesIdle (s : Sys) : Act → Bool
  | kill => s.mode == .running && s.rotating.isNone && s.jobs.isEmpty
  | _ => true

def Ordered.check (s : Sys) (a : Act) : Bool :=
  Crashes.check s a && a.alone s && (s.lead.isNone || a.leads) && a.succeeds && a.closesIdle s &&
    BelowMax.check s a

theorem Ordered.of_check (hc : Ordered.check s a = true) (hs : LsmKv.step s a = some s')
    (h : Shallow s) : Ordered s a s' := by
  simp only [check, Bool.and_eq_true] at hc
  obtain ⟨⟨⟨⟨⟨hcrash, halone⟩, hlead⟩, hok⟩, hclose⟩, hbelow⟩ := hc
  refine ⟨⟨.of_check hcrash hs h, Act.alone_of_check halone, fun hl => ?_, fun hf => ?_, ?_⟩,
    BelowMax.of_check hbelow⟩
  · rcases Bool.or_eq_true_iff.1 hlead with hn | hn
    · exact absurd (Option.isNone_iff_eq_none.1 hn) hl
    · cases a with
      | append n => exact trivial
      | syncLog => exact trivial
      | insert => exact trivial
      | finish => exact trivial
      | _ => cases hn
  · cases a with
    | failAppend n => cases hok
    | failSync => cases hok
    | failRotate n => cases hok
    | failJob i n => cases hok
    | _ => cases hf
  · rintro rfl
    simp only [Act.closesIdle, Bool.and_eq_true, beq_iff_eq, Option.isNone_iff_eq_none,
      List.isEmpty_iff] at hclose
    exact ⟨hclose.1.1, hclose.1.2, hclose.2⟩

/-- A step of the process by itself, or a crash, in which no system call fails. -/
structure Undisturbed (s : Sys) (a : Act) (s' : Sys) : Prop where
  steady : Steady s a s'
  unattended : a.unattended
  succeeds : ∀ i n, a ≠ .failJob i n

/-- After a crash, and after any number of crashes of the `Open` calls that follow, `Open` does not
fail. -/
theorem Run.reopens (h : Run Steady {} s) (h' : Run Undisturbed s.kill t) :
    t.failed = none ∧ (t.mode = .closed → ∀ options path,
      ∃ u, t.recover options path = some u ∧ u.mode = .opening ∧ u.failed = none) := by
  have hkill : Run Steady {} s.kill := h.step rfl (.kill s)
  have hrun : Run Steady {} t := hkill.trans (h'.mono fun _ _ _ hp => hp.steady)
  exact ⟨Run.never_failed hkill rfl (h'.mono fun _ _ _ hp => ⟨hp.steady, hp.succeeds⟩),
    fun hm options path => (Good.run hrun.steady.1).recovers hm options path⟩

/-- Between two writes, a group in the logs that is not finished is that of a call which returned an
error. -/
def Blamed (s : Sys) : Prop :=
  s.lead = none → s.hist = s.done ∨ ∃ ws : List Writer, ∃ g : Group, s.hist = s.done ++ [g] ∧
    g.entries = ws.flatMap Writer.entries ∧ ∀ w ∈ ws, (w, false) ∈ s.returned

theorem Blamed.step (h : Blamed s) (hg : Good σ s) (hs : LsmKv.step s a = some s')
    (ha : a.internal) : Blamed s' := by
  intro hl
  by_cases hf : a = .finish
  · subst hf
    obtain ⟨_, _, _, _, _, _, _, rfl⟩ := Sys.finish_cases hs
    exact .inl rfl
  by_cases hx : a.failsLog
  · cases a with
    | failAppend n =>
      obtain ⟨ld, hld, _, hn, rfl⟩ := Sys.failAppend_cases hs
      obtain ⟨gh, hS, _⟩ := hg.of_lead hld
      exact .inl ((hS.logged.leadOk ld hld).waiting (List.ne_nil_of_length_pos (by omega))).2
    | failSync =>
      obtain ⟨ld, hld, _, hw, _, rfl⟩ := Sys.failSync_cases hs
      obtain ⟨gh, hS, _⟩ := hg.of_lead hld
      refine .inr ⟨ld.members, ld.group, (hS.logged.leadOk ld hld).logged hw, rfl, fun w hm => ?_⟩
      exact List.mem_append_right _ (List.mem_map_of_mem hm)
    | _ => cases hx
  · obtain ⟨hidle, hhist⟩ := Sys.step_to_idle hs ha hf hx hl
    have hdone := ((Sys.step_kept hs ha).2 hf).done
    obtain ⟨ws, hret⟩ := Sys.step_returned hs ha hf
    rw [hhist, hdone]
    refine (h hidle).imp id ?_
    rintro ⟨ms, g, hh, hg, hm⟩
    exact ⟨ms, g, hh, hg, fun w hw => hret ▸ List.mem_append_left _ (hm w hw)⟩

theorem Blamed.recover (hg : Good σ s) (hs : s.recover options path = some s') : Blamed s' := by
  obtain ⟨hm, hcases⟩ := Sys.recover_cases hs
  have hdone : s.done = s.hist := by
    cases hg with
    | opened hS _ _ => exact absurd hm hS.is_open
    | closed hi _ _ => exact hi.done
  obtain ⟨_, rfl⟩ | ⟨_, _, _, _, rfl⟩ := hcases
  · exact fun _ => .inl hdone.symm
  · exact fun _ => .inl hdone.symm

end LsmKv
