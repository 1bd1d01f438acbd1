import LsmKv.Queue
import LsmKv.Scans

namespace LsmKv
set_option autoImplicit true

open Versioned
open Wal (Group)

variable {σ : Prop} {gh : Ghost} {s s' t : Sys} {gs bs batches : List Group} {p : Nat}

/-- The groups hold some of the batches, each one entirely, in the order in which they were
grouped. -/
def Whole (batches gs : List Group) : Prop := ∃ bs, List.Sublist bs batches ∧ recsOf gs = recsOf bs

namespace Whole

theorem nil (batches : List Group) : Whole batches [] := ⟨[], List.nil_sublist _, rfl⟩

theorem mono (h : Whole batches gs) (hp : batches <+: batches') : Whole batches' gs := by
  obtain ⟨bs, hsub, heq⟩ := h
  exact ⟨bs, hsub.trans hp.sublist, heq⟩

theorem snoc (h : Whole batches gs) (hg : g.recs = recsOf bs) :
    Whole (batches ++ bs) (gs ++ [g]) := by
  obtain ⟨old, hsub, heq⟩ := h
  refine ⟨old ++ bs, hsub.append (List.Sublist.refl bs), ?_⟩
  rw [recsOf_append, recsOf_append, heq, recsOf_singleton, hg]

end Whole

theorem Lead.group_recs (ld : Lead) :
    ld.group.recs = recsOf (Sys.batchesFrom ld.base ld.members) := by
  rw [recsOf_batchesFrom]
  rfl

/-- What the logs hold is made of whole batches, also when the record under way is added. -/
structure Batched (s : Sys) : Prop where
  hist : ∀ gs, gs <+: s.hist → Whole s.batches gs
  lead : ∀ ld, s.lead = some ld → ld.unwritten ≠ [] → ∃ old,
    s.batches = old ++ Sys.batchesFrom ld.base ld.members ∧ ∀ gs, gs <+: s.hist → Whole old gs

namespace Batched

theorem keep (h : Batched s) (hb : s'.batches = s.batches) (hh : s'.hist = s.hist)
    (hl : ∀ ld', s'.lead = some ld' → ld'.unwritten ≠ [] → ∃ ld, s.lead = some ld ∧
      ld.unwritten ≠ [] ∧ ld'.base = ld.base ∧ ld'.members = ld.members) : Batched s' where
  hist gs hg := by
    rw [hb]
    exact h.hist gs (hh ▸ hg)
  lead ld' hld' hw' := by
    obtain ⟨ld, hld, hw, hbase, hmem⟩ := hl ld' hld' hw'
    rw [hb, hh, hbase, hmem]
    exact h.lead ld hld hw

theorem keep_lead (h : Batched s) (hb : s'.batches = s.batches) (hh : s'.hist = s.hist)
    (hl : s'.lead = s.lead) : Batched s' :=
  h.keep hb hh fun ld hld hw => ⟨ld, hl ▸ hld, hw, rfl, rfl⟩

theorem keep_idle (h : Batched s) (hb : s'.batches = s.batches) (hh : s'.hist = s.hist)
    (hl : s'.lead = none) : Batched s' :=
  h.keep hb hh fun ld hld => by cases hl.symm.trans hld

theorem begun (h : Batched s) (hb : s'.batches = s.batches ++ Sys.batchesFrom ld.base ld.members)
    (hh : s'.hist = s.hist) (hl : s'.lead = some ld) : Batched s' where
  hist gs hg := by
    rw [hb]
    exact (h.hist gs (hh ▸ hg)).mono (List.prefix_append _ _)
  lead ld' hld' _ := by
    cases hl.symm.trans hld'
    exact ⟨s.batches, hb, fun gs hg => h.hist gs (hh ▸ hg)⟩

theorem appended (h : Batched s) (hl : s.lead = some ld) (hw : ld.unwritten ≠ [])
    (hb : s'.batches = s.batches) (hh : s'.hist = s.hist ++ [ld.group])
    (hl' : ∀ ld', s'.lead = some ld' → ld'.unwritten = []) : Batched s' where
  hist gs hg := by
    obtain ⟨old, hold, hpre⟩ := h.lead ld hl hw
    rw [hh] at hg
    rw [hb]
    rcases List.prefix_concat_iff.1 hg with rfl | hg
    · rw [hold]
      exact (hpre _ List.prefix_rfl).snoc ld.group_recs
    · exact h.hist gs hg
  lead ld' hld' hw' := absurd (hl' ld' hld') hw'

theorem step (h : Batched s) (hs : LsmKv.step s a = some s') (ha : a.internal) : Batched s' := by
  by_cases hw : a.ofWriter
  · cases a with
    | write id entries sync =>
      obtain ⟨_, _, _, rfl⟩ := Sys.write_cases hs
      exact h.keep_lead rfl rfl rfl
    | rotate byFlush =>
      obtain ⟨_, _, _, _, _, rfl⟩ := Sys.rotate_cases hs
      exact h.keep_lead rfl rfl rfl
    | rotateIo n =>
      obtain ⟨_, _, _, _, _, rfl⟩ := Sys.rotateIo_cases hs
      exact h.keep_lead rfl rfl rfl
    | rotateSwap =>
      obtain ⟨_, _, _, _, rfl⟩ := Sys.rotateSwap_cases hs
      exact h.keep_lead rfl rfl rfl
    | begin elapsed =>
      obtain ⟨_, _, _, _, _, _, ⟨_, rfl⟩ | ⟨_, rfl⟩⟩ := Sys.begin_cases hs
      · exact h.keep_lead rfl rfl rfl
      · exact h.begun rfl rfl rfl
    | append n =>
      obtain ⟨ld, hl, hu, ⟨_, _, rfl⟩ | rfl⟩ := Sys.append_cases hs
      · exact h.keep rfl rfl fun ld' hld' _ => by cases hld'; exact ⟨ld, hl, hu, rfl, rfl⟩
      · exact h.appended hl hu rfl rfl fun ld' hld' => by cases hld'; rfl
    | syncLog =>
      obtain ⟨ld, hl, hu, _, rfl⟩ := Sys.syncLog_cases hs
      exact h.keep rfl rfl fun ld' hld' hw' => by cases hld'; exact absurd hu hw'
    | insert =>
      obtain ⟨ld, _, _, hl, _, hu, _, rfl⟩ := Sys.insert_cases hs
      exact h.keep rfl rfl fun ld' hld' hw' => by cases hld'; exact absurd hu hw'
    | finish =>
      obtain ⟨_, _, _, _, _, _, _, rfl⟩ := Sys.finish_cases hs
      exact h.keep_idle rfl rfl rfl
    | failAppend n =>
      obtain ⟨_, _, _, _, rfl⟩ := Sys.failAppend_cases hs
      exact h.keep_idle rfl rfl rfl
    | failSync =>
      obtain ⟨_, _, _, _, _, rfl⟩ := Sys.failSync_cases hs
      exact h.keep_idle rfl rfl rfl
    | failRotate n =>
      obtain ⟨_, _, _, _, rfl⟩ := Sys.failRotate_cases hs
      exact h.keep_lead rfl rfl rfl
    | _ => cases hw
  · by_cases hj : a.ofJob
    · exact h.keep_lead (Sys.kept_job hs hj Sys.batches fun _ => rfl)
        (Sys.kept_job hs hj Sys.hist fun _ => rfl) (Sys.kept_job hs hj Sys.lead fun _ => rfl)
    · exact h.keep_lead (Sys.kept_read hs ha hw hj Sys.batches fun _ => rfl)
        (Sys.kept_read hs ha hw hj Sys.hist fun _ => rfl)
        (Sys.kept_read hs ha hw hj Sys.lead fun _ => rfl)

theorem run (h : Run (Orderly σ) {} s) : Batched s := by
  refine h.induct ⟨fun gs hg => ?_, fun _ hl => (by cases hl)⟩ ?_
  · rw [List.prefix_nil.1 hg]
    exact .nil _
  · intro s a s' h hs ho
    rcases ho.power with hint | rfl | ⟨options, path, rfl⟩
    · exact h.step hs hint
    · cases hs
      exact h.keep_idle rfl rfl rfl
    · obtain ⟨_, ⟨_, rfl⟩ | ⟨_, _, _, _, rfl⟩⟩ := Sys.recover_cases hs
      · exact h.keep_lead rfl rfl rfl
      · exact h.keep_lead rfl rfl rfl

end Batched

theorem Orderly.batches_prefix (ho : Orderly σ s a s') (hs : LsmKv.step s a = some s') :
    s.batches <+: s'.batches := by
  have hsame : s'.batches = s.batches → s.batches <+: s'.batches := fun heq =>
    heq ▸ List.prefix_rfl
  rcases ho.power with hint | rfl | ⟨options, path, rfl⟩
  · by_cases hw : a.ofWriter
    · cases a with
      | begin elapsed =>
        obtain ⟨_, _, _, _, _, _, ⟨_, rfl⟩ | ⟨_, rfl⟩⟩ := Sys.begin_cases hs
        · exact List.prefix_rfl
        · exact List.prefix_append _ _
      | write id entries sync =>
        obtain ⟨_, _, _, rfl⟩ := Sys.write_cases hs
        exact List.prefix_rfl
      | rotate byFlush =>
        obtain ⟨_, _, _, _, _, rfl⟩ := Sys.rotate_cases hs
        exact List.prefix_rfl
      | rotateIo n =>
        obtain ⟨_, _, _, _, _, rfl⟩ := Sys.rotateIo_cases hs
        exact List.prefix_rfl
      | rotateSwap =>
        obtain ⟨_, _, _, _, rfl⟩ := Sys.rotateSwap_cases hs
        exact List.prefix_rfl
      | append n =>
        obtain ⟨_, _, _, ⟨_, _, rfl⟩ | rfl⟩ := Sys.append_cases hs
        · exact List.prefix_rfl
        · exact List.prefix_rfl
      | syncLog =>
        obtain ⟨_, _, _, _, rfl⟩ := Sys.syncLog_cases hs
        exact List.prefix_rfl
      | insert =>
        obtain ⟨_, _, _, _, _, _, _, rfl⟩ := Sys.insert_cases hs
        exact List.prefix_rfl
      | finish =>
        obtain ⟨_, _, _, _, _, _, _, rfl⟩ := Sys.finish_cases hs
        exact List.prefix_rfl
      | failAppend n =>
        obtain ⟨_, _, _, _, rfl⟩ := Sys.failAppend_cases hs
        exact List.prefix_rfl
      | failSync =>
        obtain ⟨_, _, _, _, _, rfl⟩ := Sys.failSync_cases hs
        exact List.prefix_rfl
      | failRotate n =>
        obtain ⟨_, _, _, _, rfl⟩ := Sys.failRotate_cases hs
        exact List.prefix_rfl
      | _ => cases hw
    · by_cases hj : a.ofJob
      · exact hsame (Sys.kept_job hs hj Sys.batches fun _ => rfl)
      · exact hsame (Sys.kept_read hs hint hw hj Sys.batches fun _ => rfl)
  · cases hs
    exact List.prefix_rfl
  · obtain ⟨_, ⟨_, rfl⟩ | ⟨_, _, _, _, rfl⟩⟩ := Sys.recover_cases hs
    · exact List.prefix_rfl
    · exact List.prefix_rfl

/-- What a reader at `p` is to be shown: whole batches, all at or below `p`. -/
structure Picture (s : Sys) (gs : List Group) (p : Nat) : Prop where
  asc : SeqAsc (recsOf gs)
  le : ∀ r ∈ recsOf gs, r.seq ≤ p
  whole : Whole s.batches gs

theorem Picture.mono (h : Picture s gs p) (hb : s.batches <+: s'.batches) : Picture s' gs p :=
  ⟨h.asc, h.le, h.whole.mono hb⟩

theorem Sound.picture (h : Sound σ gh s) (hb : Batched s) (hc : s.CaughtUp) :
    Picture s s.applied s.db.lastSequence := by
  refine ⟨(h.histOk_applied hc).seqAsc, fun r hr => ?_, hb.hist _ ?_⟩
  · rw [← h.visible_applied hc] at hr
    exact (h.logged.mem_visible hr).2
  · cases hl : s.lead with
    | none => exact Sys.applied_of_idle hl ▸ h.logged.pre
    | some ld =>
      have hhist := ((h.logged.leadOk ld hl).caught_up (hc ld hl)).2
      rw [Sys.applied, hl, Option.map_some, Option.toList_some, ← hhist]

/-- The calls that wait do so until the write under way, if there is one, has inserted its
entries. -/
structure Patient (waits : Act → Prop) (s : Sys) (a : Act) (s' : Sys) : Prop where
  orderly : Orderly True s a s'
  caughtUp : waits a → s.CaughtUp

theorem Run.patient {waits : Act → Prop} (h : Run (Patient waits) s t) : Run (Orderly True) s t :=
  h.mono fun _ _ _ hp => hp.orderly

/-- Every snapshot that was ever handed out has its picture. -/
def Views (s : Sys) : Prop := ∀ h < s.nextHandle, ∃ gs p, Viewed h gs p s ∧ Picture s gs p

theorem Orderly.handle_cases (ho : Orderly σ s a s') (hs : LsmKv.step s a = some s')
    (hlt : h < s'.nextHandle) : h < s.nextHandle ∨ a = .getSnapshot ∧ h = s.nextHandle := by
  rcases ho.power with hint | rfl | ⟨options, path, rfl⟩
  · by_cases hr : a.ofReader
    · cases a with
      | getSnapshot =>
        obtain ⟨_, _, rfl⟩ := Sys.getSnapshot_cases hs
        rcases Nat.lt_succ_iff_lt_or_eq.1 hlt with hlt | heq
        · exact .inl hlt
        · exact .inr ⟨rfl, heq⟩
      | releaseSnapshot handle =>
        obtain ⟨_, _, rfl⟩ := Sys.releaseSnapshot_cases hs
        exact .inl hlt
      | getBegin id key snapshot =>
        obtain ⟨_, _, _, _, _, rfl⟩ := Sys.getBegin_cases hs
        exact .inl hlt
      | getEnd id =>
        obtain ⟨_, _, _, rfl⟩ := Sys.getEnd_cases hs
        exact .inl hlt
      | _ => cases hr
    · exact .inl (hlt.trans_eq ((Sys.step_kept hs hint).1 hr).nextHandle)
  · cases hs
    exact .inl hlt
  · obtain ⟨_, ⟨_, rfl⟩ | ⟨_, _, _, _, rfl⟩⟩ := Sys.recover_cases hs
    · exact .inl hlt
    · exact .inl hlt

theorem Views.run (h : Run (Patient (· = .getSnapshot)) {} s) : Views s := by
  induction h with
  | refl => exact fun h hlt => absurd hlt (Nat.not_lt_zero h)
  | @step s a s' h hs hp ih =>
    intro handle hlt
    have hrun := h.patient
    rcases hp.orderly.handle_cases hs hlt with hlt | ⟨rfl, rfl⟩
    · obtain ⟨gs, p, hv, hpic⟩ := ih handle hlt
      exact ⟨gs, p, hv.step (Seen.run hrun trivial) (Good.run hrun) trivial hlt hs hp.orderly,
        hpic.mono (hp.orderly.batches_prefix hs)⟩
    · have hm := (Sys.getSnapshot_cases hs).1
      obtain ⟨gh, _, _, hS, _⟩ := (Good.run hrun).sound (by simp [hm])
      have hc := hp.caughtUp rfl
      exact ⟨s.applied, s.db.lastSequence, Viewed.taken (hS.shows_applied hc) (Given.run hrun) hs,
        (hS.picture (Batched.run hrun) hc).mono (hp.orderly.batches_prefix hs)⟩

theorem Viewed.answer (hv : Viewed h gs p s) (hpic : Picture s gs p) (ha : a ∈ s.answers)
    (hsn : a.call.snapshot = some sn) (heq : sn.handle = h) :
    a.result = answerFor (mapOf (recsOf gs) a.call.key) :=
  (reads_iff_mapOf hpic.asc hpic.le).1 (hv.answers a ha sn hsn heq)

/-- Through a snapshot that was taken while no entry was still to be inserted, a key has the same
answer each time, whatever is written, flushed or compacted meanwhile. -/
theorem snapshot_reads_stable (h : Run (Patient (· = .getSnapshot)) {} s) :
    ∀ a ∈ s.answers, ∀ b ∈ s.answers,
    ∀ sn sn', a.call.snapshot = some sn → b.call.snapshot = some sn' → sn.handle = sn'.handle →
    a.call.key = b.call.key → a.result = b.result := by
  intro a ha b hb sn sn' hsa hsb heq hk
  have hlt : sn'.handle < s.nextHandle := (Given.run h.patient).answers b hb sn' hsb
  obtain ⟨gs, p, hv, hpic⟩ := Views.run h sn'.handle hlt
  rw [hv.answer hpic ha hsa heq, hv.answer hpic hb hsb rfl, hk]

/-- A reader fixes what it is going to see. -/
def Act.fixesView : Act → Prop
  | getSnapshot => True
  | newIterator _ none => True
  | _ => False

theorem Views.of_handle (h : Run (Patient (· = .getSnapshot)) {} s) (handle : Nat) :
    ∃ bs, List.Sublist bs s.batches ∧ ∀ a ∈ s.answers, ∀ sn, a.call.snapshot = some sn →
      sn.handle = handle → a.result = answerFor (mapOf (recsOf bs) a.call.key) := by
  by_cases hlt : handle < s.nextHandle
  · obtain ⟨gs, p, hv, hpic⟩ := Views.run h handle hlt
    obtain ⟨bs, hsub, heq⟩ := hpic.whole
    refine ⟨bs, hsub, fun a ha sn hsn hh => ?_⟩
    rw [← heq]
    exact hv.answer hpic ha hsn hh
  · refine ⟨[], List.nil_sublist _, fun a ha sn hsn hh => absurd ?_ hlt⟩
    exact hh ▸ (Given.run h.patient).answers a ha sn hsn

/-- What an iterator that is made now is going to show. -/
theorem Views.of_iterator {id : Nat} (h : Run (Patient Act.fixesView) {} s)
    (hs : LsmKv.step s (.newIterator id snapshot) = some s₁)
    (hp : Patient Act.fixesView s (.newIterator id snapshot) s₁) :
    ∃ gs p, Picture s gs p ∧
      ∀ sn, s.readPoint snapshot = some sn → (s.db.capture sn).seq = p ∧ Shows s gs p := by
  have hm : s.mode = .running := (Sys.newIterator_cases hs).choose_spec.2.1
  obtain ⟨sn, hsn, _⟩ := Sys.newIterator_cases hs
  cases snapshot with
  | none =>
    obtain ⟨gh, _, _, hS, _⟩ := (Good.run h.patient).sound (by simp [hm])
    have hc := hp.caughtUp trivial
    refine ⟨s.applied, _, hS.picture (Batched.run h.patient) hc, fun sn hsn => ?_⟩
    cases hsn
    exact ⟨rfl, hS.shows_applied hc⟩
  | some handle =>
    obtain ⟨x, hx, _⟩ := Option.map_eq_some_iff.1 hsn
    have hlt := (Given.run h.patient).snapshots (by simp [hm]) x (List.mem_of_find?_eq_some hx)
    have heq : x.handle = handle := by simpa using List.find?_some hx
    have hmono : Run (Patient (· = .getSnapshot)) {} s :=
      h.mono fun _ _ _ hp => ⟨hp.orderly, fun ha => hp.caughtUp (ha ▸ trivial)⟩
    obtain ⟨gs, p, hv, hpic⟩ := Views.run hmono handle (heq ▸ hlt)
    exact ⟨gs, p, hpic, fun sn hsn => hv.point hm hsn⟩

/-- A reader that fixes its view while no entry is still to be inserted sees every batch entirely or
not at all: the calls of `Get` through one snapshot, and an iterator wherever it is moved, show
what some of the batches, applied in order, make of an empty map. -/
theorem readers_see_whole_batches (h : Run (Patient Act.fixesView) {} s) :
    (∀ handle, ∃ bs, List.Sublist bs s.batches ∧ ∀ a ∈ s.answers, ∀ sn, a.call.snapshot = some sn →
      sn.handle = handle → a.result = answerFor (mapOf (recsOf bs) a.call.key)) ∧
    ∀ id snapshot s₁, step s (.newIterator id snapshot) = some s₁ →
      Patient Act.fixesView s (.newIterator id snapshot) s₁ →
      ∃ bs, List.Sublist bs s.batches ∧ ∀ t a t₁ target u, Run Inner s₁ t → step t a = some t₁ →
        Inner t a t₁ → a.positions id target →
        Run (fun s a s' => Inner s a s' ∧ ∀ target, ¬ a.positions id target) t₁ u →
        ∃ c ∈ u.scans, c.id = id ∧ ∃ rest, (c.rows ++ rest).Pairwise (fun a b => a.1 < b.1) ∧
          (∀ k v, (k, v) ∈ c.rows ++ rest ↔ target ≤ k ∧ mapOf (recsOf bs) k = some v) ∧
          (c.it.valid = false → rest = []) := by
  have hmono : Run (Patient (· = .getSnapshot)) {} s :=
    h.mono fun _ _ _ hp => ⟨hp.orderly, fun ha => hp.caughtUp (ha ▸ trivial)⟩
  refine ⟨Views.of_handle hmono, fun id snapshot s₁ hs hp => ?_⟩
  obtain ⟨gs, p, hpic, hpt⟩ := Views.of_iterator h hs hp
  have hm : s.mode = .running := (Sys.newIterator_cases hs).choose_spec.2.1
  obtain ⟨gh, _, _, hS, _⟩ := (Good.run h.patient).sound (by simp [hm])
  obtain ⟨cap, rfl, hf⟩ := Following.new hpt hS hs
  obtain ⟨bs, hsub, heq⟩ := hpic.whole
  refine ⟨bs, hsub, fun t a t₁ target u h₁ hseek hw ha h₂ => ?_⟩
  obtain ⟨hru, hf⟩ := hf.positioned (h.patient.step hs hp.orderly) h₁ hseek ha hw h₂
  obtain ⟨c, hc, hid, _, rest, hsorted, hrows, hend⟩ := hf.rows hru
  refine ⟨c, hc, hid, rest, hsorted, fun k v => ?_, hend⟩
  rw [hrows, shown_iff_mapOf hpic.asc hpic.le, heq]

/-- The iterators that a client gets by moving a new one, and the store as its moves leave it. -/
inductive Db.Capture.Moved (cap : Db.Capture) (store : Store) : DBIter → Store → Prop where
  | new : Moved cap store cap.newIterator store
  | seekToFirst (h : Moved cap store it st) :
      Moved cap store (it.seekToFirst.run st).1 (it.seekToFirst.run st).2
  | seek (h : Moved cap store it st) (ht : target.length + 8 < 2 ^ 32) :
      Moved cap store ((it.seek target).run st).1 ((it.seek target).run st).2
  | next (h : Moved cap store it st) (hv : it.valid = true) :
      Moved cap store (it.next.run st).1 (it.next.run st).2

theorem Db.Capture.Moved.iterates {cap : Db.Capture} (h : cap.Moved store it st)
    (hok : cap.Ok T M) (hst : store.Serves T M) :
    st.Serves T M ∧ cap.Iterates T M it ∧ (it.valid = true → ∃ l, cap.Standing T M it l) := by
  induction h with
  | new => exact ⟨hst, cap.iterates_new, fun hv => by cases hv⟩
  | seekToFirst h ih =>
    obtain ⟨⟨l, hl, _⟩, hserves⟩ := hok.standing_seekToFirst ih.2.1 _ ih.1
    exact ⟨hserves, hl.iterates, fun _ => ⟨l, hl⟩⟩
  | seek h ht ih =>
    obtain ⟨⟨l, hl, _⟩, hserves⟩ := hok.standing_seek ih.2.1 ht _ ih.1
    exact ⟨hserves, hl.iterates, fun _ => ⟨l, hl⟩⟩
  | next h hv ih =>
    obtain ⟨l, hl⟩ := ih.2.2 hv
    cases l with
    | nil =>
      have hno : _ = false := hl.rest.shows
      rw [hv] at hno
      cases hno
    | cons r l =>
      obtain ⟨hl', hserves⟩ := hl.next hok _ ih.1
      exact ⟨hserves, hl'.iterates, fun _ => ⟨_, hl'⟩⟩

/-- From wherever an iterator stands, `SeekToFirst` and the client's loop over `Next` yield the
rows, and `Seek` those from its target on. -/
def Db.Capture.Lists (cap : Db.Capture) (store : Store) (rows : List (Bytes × Bytes)) : Prop :=
  ∀ it st, cap.Moved store it st →
    (∃ n, ∀ fuel ≥ n, ((it.seekToFirst >>= DBIter.drain fuel).run st).1 = rows) ∧
    ∀ target : Bytes, target.length + 8 < 2 ^ 32 →
      ∃ n, ∀ fuel ≥ n, ((it.seek target >>= DBIter.drain fuel).run st).1 =
        rows.filter fun row => decide (target ≤ row.1)

theorem Sound.lists (h : Sound σ gh s) (hm : s.mode = .running)
    (hsn : s.readPoint snapshot = some sn) : ∃ rows : List (Bytes × Bytes),
    rows.Pairwise (fun a b => a.1 < b.1) ∧
    (∀ k v, k.length + 8 < 2 ^ 32 →
      ((k, v) ∈ rows ↔ (((s.db.capture sn).get k).run s.store).1 = .ok v)) ∧
    (s.db.capture sn).Lists s.store rows := by
  have hok := h.captured_ok (h.capOk hm (Sys.readPoint_mem hsn))
  refine ⟨(s.db.capture sn).rows s.store.mems, hok.rows_sorted, fun k v hk => ?_,
    fun it st hit => ?_⟩
  · rw [hok.mem_rows]
    exact ((hok.run_get h.tables.serves hk).1.ok_iff hok.distinct).symm
  · obtain ⟨hst, hi, _⟩ := hit.iterates hok h.tables.serves
    refine ⟨?_, fun target ht => ?_⟩
    · obtain ⟨⟨l, hl, hrows⟩, hst'⟩ := hok.standing_seekToFirst hi st hst
      exact ⟨l.length + 1, fun fuel hf => ((hl.drain hok hf) _ hst').1.trans hrows⟩
    · obtain ⟨⟨l, hl, hrows⟩, hst'⟩ := hok.standing_seek hi ht st hst
      exact ⟨l.length + 1, fun fuel hf => ((hl.drain hok hf) _ hst').1.trans hrows⟩

/-- Scans and point lookups agree in every state that can be reached: from wherever an iterator
stands, `SeekToFirst` and the client's loop over `Next` yield in order the keys for which `Get` at
the same read point returns OK, each with that value, and `Seek` the part of them from its target
on. -/
theorem scan_enumerates_gets (h : Run (Orderly False) {} s) (hm : s.mode = .running)
    (hsn : s.readPoint snapshot = some sn) : ∃ rows : List (Bytes × Bytes),
    rows.Pairwise (fun a b => a.1 < b.1) ∧
    (∀ k v, k.length + 8 < 2 ^ 32 →
      ((k, v) ∈ rows ↔ (((s.db.capture sn).get k).run s.store).1 = .ok v)) ∧
    ∀ it st, (s.db.capture sn).Moved s.store it st →
      (∃ n, ∀ fuel ≥ n, ((it.seekToFirst >>= DBIter.drain fuel).run st).1 = rows) ∧
      ∀ target : Bytes, target.length + 8 < 2 ^ 32 →
        ∃ n, ∀ fuel ≥ n, ((it.seek target >>= DBIter.drain fuel).run st).1 =
          rows.filter fun row => decide (target ≤ row.1) := by
  obtain ⟨gh, _, _, hS, _⟩ := (Good.run h).sound (by simp [hm])
  exact hS.lists hm hsn

section Sample

def Sys.caughtUp (s : Sys) : Bool := s.lead.all fun ld => ld.uninserted.isEmpty

def Act.fixes : Act → Bool
  | getSnapshot => true
  | newIterator _ none => true
  | _ => false

def Patient.check (s : Sys) (a : Act) : Bool := Orderly.checkAll s a && (!a.fixes || s.caughtUp)

theorem Patient.of_check (hc : Patient.check s a = true) (hs : LsmKv.step s a = some s')
    (h : Shallow s) : Patient Act.fixesView s a s' := by
  rw [check, Bool.and_eq_true, Bool.or_eq_true] at hc
  obtain ⟨hall, hwait⟩ := hc
  refine ⟨.of_checkAll hall hs h, fun hf ld hl => ?_⟩
  have hfixes : a.fixes = true := by
    cases a with
    | getSnapshot => rfl
    | newIterator id snapshot =>
      cases snapshot with
      | none => rfl
      | some _ => cases hf
    | _ => cases hf
  rcases hwait with hno | hup
  · rw [hfixes] at hno
    cases hno
  · rw [Sys.caughtUp, hl] at hup
    exact List.isEmpty_iff.1 hup

/-- Two entries are written. -/
def pairActs : List Act :=
  [.write 0 [⟨.kValue, [97], [1]⟩, ⟨.kValue, [98], [2]⟩] false, .begin false]

/-- A snapshot and an iterator between the step that counts a write and those that insert it. -/
def earlyReaderActs : List Act :=
  openActs ++ pairActs ++ [.getSnapshot, .getBegin 7 [97] (some 0), .getEnd 7, .append 0, .syncLog,
    .insert, .getBegin 8 [97] (some 0), .getEnd 8, .getBegin 9 [98] (some 0), .getEnd 9,
    .newIterator 5 none, .seekToFirst 5, .next 5]

set_option synthInstance.maxSize 2000 in
theorem early_snapshot_changes : ∃ s, runActs Orderly.checkAll {} earlyReaderActs = some s ∧
    ∃ a ∈ s.answers, ∃ b ∈ s.answers, a.call.snapshot.map Snapshot.handle = some 0 ∧
      b.call.snapshot.map Snapshot.handle = some 0 ∧ a.call.key = [97] ∧ b.call.key = [97] ∧
      a.result = .error .notFound ∧ b.result = .ok [1] := by
  decide +kernel

set_option synthInstance.maxSize 2000 in
theorem early_readers_split_batch : ∃ s, runActs Orderly.checkAll {} earlyReaderActs = some s ∧
    s.batches.map Group.entries = [[⟨.kValue, [97], [1]⟩, ⟨.kValue, [98], [2]⟩]] ∧
    s.answers.map (fun a => (a.call.snapshot.map Snapshot.handle, a.call.key, a.result)) =
      [(some 0, [97], .error .notFound), (some 0, [97], .ok [1]),
        (some 0, [98], .error .notFound)] ∧
    s.scans.map (fun c => (c.rows, c.it.valid)) = [([([97], [1])], false)] ∧
    ∀ bs ∈ s.batches.sublists,
      ¬ (mapOf (recsOf bs) [97] = some [1] ∧ mapOf (recsOf bs) [98] = none) := by
  decide +kernel

/-- A snapshot just after the inserts; its key is written over, and the versions are flushed. -/
def lateSnapshotActs : List Act :=
  openActs ++ pairActs ++ [.append 0, .syncLog, .insert, .insert, .getSnapshot, .finish,
    .getBegin 7 [97] (some 0), .getEnd 7] ++ rotatingPutActs [97] [3] ++ .startFlush ::
    jobActs 10 ++ .job 0 0 [.manifest, .sst 3, .log 2, .log 1] :: jobActs 2 ++
    [.getBegin 8 [97] (some 0), .getEnd 8, .getBegin 9 [98] (some 0), .getEnd 9]

set_option synthInstance.maxSize 2000 in
theorem snapshot_reads_stable_sample : ∃ s, runActs Patient.check {} lateSnapshotActs = some s ∧
    s.answers.map (fun a => (a.call.snapshot.map Snapshot.handle, a.call.key, a.result)) =
      [(some 0, [97], .ok [1]), (some 0, [97], .ok [1]), (some 0, [98], .ok [2])] ∧
    ∀ a ∈ s.answers, ∀ b ∈ s.answers, ∀ sn sn', a.call.snapshot = some sn →
      b.call.snapshot = some sn' → sn.handle = sn'.handle → a.call.key = b.call.key →
      a.result = b.result := by
  obtain ⟨s, hs, hans⟩ : ∃ s, runActs Patient.check {} lateSnapshotActs = some s ∧
      s.answers.map (fun a => (a.call.snapshot.map Snapshot.handle, a.call.key, a.result)) =
        [(some 0, [97], .ok [1]), (some 0, [97], .ok [1]), (some 0, [98], .ok [2])] := by
    decide +kernel
  have hrun : Run (Patient Act.fixesView) {} s := Run.of_checks (fun _ _ _ => Patient.of_check) hs
  exact ⟨s, hs, hans, snapshot_reads_stable
    (hrun.mono fun _ _ _ hp => ⟨hp.orderly, fun ha => hp.caughtUp (ha ▸ trivial)⟩)⟩

def Inner.check (s : Sys) (a : Act) : Bool := Orderly.checkAll s a && a.moves

theorem Inner.of_check (hc : Inner.check s a = true) (hs : LsmKv.step s a = some s')
    (h : Shallow s) : Inner s a s' ∧ ∀ id target, ¬ a.positions id target := by
  rw [check, Bool.and_eq_true] at hc
  obtain ⟨hint, hfit, hpos⟩ := Act.moves_spec hc.2
  exact ⟨⟨.of_checkAll hc.1 hs h, hint, hfit⟩, hpos⟩

/-- A batch is inserted, but its call has not returned. -/
def insertedActs : List Act :=
  lateSnapshotActs ++ pairActs ++ [.append 0, .syncLog, .insert, .insert]

set_option synthInstance.maxSize 2000 in
theorem readers_see_whole_batches_sample : ∃ s s₁ t u,
    runActs Patient.check {} insertedActs = some s ∧
    step s (.newIterator 5 none) = some s₁ ∧ step s₁ (.seek 5 [98]) = some t ∧
    runActs Inner.check t (.finish :: putActs [99] [4] ++ [.next 5]) = some u ∧
    u.scans.map (fun c => (c.rows, c.it.valid)) = [([([98], [2])], false)] ∧
    ∃ bs, List.Sublist bs s.batches ∧ ∃ c ∈ u.scans, c.id = 5 ∧ ∃ rest,
      (c.rows ++ rest).Pairwise (fun a b => a.1 < b.1) ∧
      (∀ k v, (k, v) ∈ c.rows ++ rest ↔ [98] ≤ k ∧ mapOf (recsOf bs) k = some v) ∧
      (c.it.valid = false → rest = []) := by
  obtain ⟨s, hs, s₁, hs₁, hc₁, t, ht, hct, u, hu, hrows⟩ :
      ∃ s, runActs Patient.check {} insertedActs = some s ∧
      ∃ s₁, step s (.newIterator 5 none) = some s₁ ∧
        Patient.check s (.newIterator 5 none) = true ∧
      ∃ t, step s₁ (.seek 5 [98]) = some t ∧ Orderly.checkAll s₁ (.seek 5 [98]) = true ∧
      ∃ u, runActs Inner.check t (.finish :: putActs [99] [4] ++ [.next 5]) = some u ∧
        u.scans.map (fun c => (c.rows, c.it.valid)) = [([([98], [2])], false)] := by
    decide +kernel
  have hrun : Run (Patient Act.fixesView) {} s := Run.of_checks (fun _ _ _ => Patient.of_check) hs
  have hp : Patient Act.fixesView s (.newIterator 5 none) s₁ := .of_check hc₁ hs₁ hrun.shallow
  have hrun₁ := hrun.step hs₁ hp
  have hw : Inner s₁ (.seek 5 [98]) t :=
    ⟨.of_checkAll hct ht hrun₁.shallow, trivial, by simp [Act.seeksFit]⟩
  have h₂ := Run.of_checks_from (fun _ _ _ => Inner.of_check)
    (hrun₁.patient.step ht hw.orderly).shallow hu
  obtain ⟨bs, hsub, hscan⟩ := (readers_see_whole_batches hrun).2 5 none s₁ hs₁ hp
  exact ⟨s, s₁, t, u, hs, hs₁, ht, hu, hrows, bs, hsub,
    hscan s₁ (.seek 5 [98]) t [98] u .refl ht hw ⟨rfl, rfl⟩
      (h₂.mono fun _ _ _ hw => ⟨hw.1, hw.2 5⟩)⟩

set_option synthInstance.maxSize 2000 in
theorem scan_enumerates_gets_sample : ∃ s sn, Run (Orderly False) {} s ∧
    s.readPoint (some 0) = some sn ∧
    ((((s.db.capture sn).newIterator.seekToFirst >>= DBIter.drain 9).run s.store).1 =
      [([97], [1]), ([98], [2])]) ∧
    ∃ rows : List (Bytes × Bytes), rows.Pairwise (fun a b => a.1 < b.1) ∧
      (∀ k v, k.length + 8 < 2 ^ 32 →
        ((k, v) ∈ rows ↔ (((s.db.capture sn).get k).run s.store).1 = .ok v)) ∧
      ∃ n, ∀ fuel ≥ n, (((s.db.capture sn).newIterator.seekToFirst >>= DBIter.drain fuel).run
        s.store).1 = rows := by
  obtain ⟨s, hs, hm, sn, hsn, hrows⟩ : ∃ s, runActs Orderly.check {} insertedActs = some s ∧
      s.mode = .running ∧ ∃ sn, s.readPoint (some 0) = some sn ∧
      (((s.db.capture sn).newIterator.seekToFirst >>= DBIter.drain 9).run s.store).1 =
        [([97], [1]), ([98], [2])] := by
    decide +kernel
  obtain ⟨rows, hsorted, hget, hscan⟩ := scan_enumerates_gets (Run.of_check hs) hm hsn
  exact ⟨s, sn, Run.of_check hs, hsn, hrows, rows, hsorted, hget, (hscan _ _ .new).1⟩

end Sample

end LsmKv
