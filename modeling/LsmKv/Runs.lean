import LsmKv.Steps
import LsmKv.Outputs

namespace LsmKv
set_option autoImplicit true

/-- The table a job is writing. -/
def Phase.building : Phase → Option TableBuilder
  | flushOpen _ b => some b
  | compactOpen _ _ b _ _ => some b
  | _ => none

/-- Every number and length of the state fits the field the code keeps it in. -/
structure Sys.Fits (s : Sys) : Prop where
  sequence : s.db.lastSequence ≤ kMaxSequenceNumber
  fileNumber : s.db.nextFileNumber < 2 ^ 64
  files : (Manifest.filesOf s.db.current).length < 2 ^ 32
  fileSize : ∀ l, ∀ f ∈ s.db.current.levels l, f.fileSize < 2 ^ 64
  group : ∀ ld, s.lead = some ld → (∀ e ∈ ld.entries, WriteBatch.Fits e) ∧
    12 + (WriteBatch.ofEntries ld.entries).rep.length < 2 ^ 32
  table : ∀ j ∈ s.jobs, ∀ b, j.phase.building = some b →
    ∀ es, b = built s.db.options es → TableFits s.db.options es
  key : ∀ c ∈ s.gets, c.key.length + 8 < 2 ^ 32

/-- The states reached from `s₀` by steps that meet `P`. -/
inductive Run (P : Sys → Act → Sys → Prop) (s₀ : Sys) : Sys → Prop where
  | refl : Run P s₀ s₀
  | step (h : Run P s₀ s) (hs : LsmKv.step s a = some s') (hp : P s a s') : Run P s₀ s'

theorem Run.induct {P : Sys → Act → Sys → Prop} {I : Sys → Prop} (h : Run P s₀ s) (h0 : I s₀)
    (hstep : ∀ s a s', I s → LsmKv.step s a = some s' → P s a s' → I s') : I s := by
  induction h with
  | refl => exact h0
  | step _ hs hp ih => exact hstep _ _ _ ih hs hp

theorem Run.mono {P Q : Sys → Act → Sys → Prop} (h : Run P s₀ s)
    (hpq : ∀ s a s', P s a s' → Q s a s') : Run Q s₀ s := by
  induction h with
  | refl => exact .refl
  | step _ hs hp ih => exact .step ih hs (hpq _ _ _ hp)

theorem Run.trans {P : Sys → Act → Sys → Prop} (h : Run P s₀ s) (h' : Run P s t) : Run P s₀ t := by
  induction h' with
  | refl => exact h
  | step _ hs hp ih => exact .step ih hs hp

/-- Takes actions in order, as long as each one meets `p`. -/
def runActs (p : Sys → Act → Bool) : Sys → List Act → Option Sys
  | s, [] => some s
  | s, a :: as => if p s a then (step s a).bind fun s' => runActs p s' as else none

theorem Run.of_runActs {P : Sys → Act → Sys → Prop} {p : Sys → Act → Bool}
    (hp : ∀ s a s', p s a = true → LsmKv.step s a = some s' → P s a s') {as : List Act}
    (h : runActs p s as = some t) : Run P s t := by
  induction as generalizing s with
  | nil =>
    cases h
    exact .refl
  | cons a as ih =>
    rw [runActs] at h
    split at h
    · rename_i hpa
      obtain ⟨s', hs, hrest⟩ := Option.bind_eq_some_iff.1 h
      have hfirst : Run P s s' := .step .refl hs (hp s a s' hpa hs)
      exact hfirst.trans (ih hrest)
    · cases h

/-- A flush or a compaction starts. -/
def Act.startsJob : Act → Prop
  | startFlush => True
  | startCompaction _ => True
  | _ => False

def Act.movesScan : Act → Prop
  | seekToFirst _ => True
  | seek _ _ => True
  | next _ => True
  | _ => False

/-- A step of the process that has the database open. -/
def Act.internal : Act → Prop
  | kill => False
  | recover _ _ => False
  | powerLoss _ _ => False
  | powerLossData _ => False
  | _ => True

end LsmKv
