import LsmKv.CompactionReads
import LsmKv.LiveCursors
import LsmKv.Snapshots

namespace LsmKv
set_option autoImplicit true

open Versioned
open Wal (Group)

variable {σ : Prop} {gh gh' : Ghost} {s s' : Sys} {gs : List Group} {cap : Db.Capture} {p : Nat}
  {T T' : Table → Prop} {M M' : Nat → MemTable} {start : Option Bytes}

/-- What was captured shows the groups `gs` at its point, and goes on to. -/
structure Fixed (gs : List Group) (cap : Db.Capture) (s : Sys) : Prop where
  running : s.mode = .running
  capOk : CapOk s.opened s.store.mems s.visible s.db.mem s.nextMem s.db.lastSequence cap
  sees : Sees s cap
  shows : Shows s gs cap.seq

namespace Fixed

theorem ok (h : Fixed gs cap s) (hS : Sound σ gh s) : cap.Ok (· ∈ s.opened) s.store.mems :=
  hS.captured_ok h.capOk

theorem mem_rows (h : Fixed gs cap s) (hS : Sound σ gh s) :
    (k, v) ∈ cap.rows s.store.mems ↔ Shown {r | r ∈ recsOf gs} cap.seq k v := by
  rw [(h.ok hS).mem_rows]
  exact (h.shows.agree.trans h.sees.agree).shown.symm

theorem rows_eq (h : Fixed gs cap s) (h' : Fixed gs cap s') (hS : Sound σ gh s)
    (hS' : Sound σ gh' s') :
    cap.rows s'.store.mems = cap.rows s.store.mems := by
  refine Ascending.ext (f := Prod.fst) (h'.ok hS').rows_sorted (h.ok hS).rows_sorted fun row => ?_
  exact (h'.mem_rows hS').trans (h.mem_rows hS).symm

theorem internal (h : Fixed gs cap s) (hS : Sound σ gh s) (hC : ScansOk s)
    (hs : LsmKv.step s a = some s') (ha : a.internal) (hswap : a = .rotateSwap → s.lead = none) :
    Fixed gs cap s' := by
  have ho := Onward.step hs ha
  have hshows := hS.shows_internal hC hs ha hswap h.capOk.seq_le h.shows
  by_cases hi : a = .insert
  · subst hi
    refine ⟨ho.running h.running, ?_, hS.sees_insert hs h.capOk h.sees, hshows⟩
    obtain ⟨ld, e, hin⟩ := hS.inserts hs
    rw [hin.visible, hin.mems, hin.mem]
    have hcap := h.capOk.insert hin.recs hin.ok (fun x hx => (hS.logged.mem_visible hx).1) hin.later
    obtain ⟨_, _, _, _, _, _, _, rfl⟩ := Sys.insert_cases hs
    exact hcap
  · have hcalm := hS.calm hC hs ha hi hswap
    exact ⟨ho.running h.running, h.capOk.calm hcalm ho.opened ho.last_le,
      h.sees.calm hcalm h.capOk.seq_le, hshows⟩

theorem grows (h : Fixed gs cap s) (hS : Sound σ gh s) (hC : ScansOk s)
    (hs : LsmKv.step s a = some s') (ha : a.internal) (hswap : a = .rotateSwap → s.lead = none)
    (i : Iter) (l : List Rec) (hi : i.Stands (· ∈ s.opened) s.store.mems l) :
    ∃ l', i.Rest s'.store.mems l' ∧ Grown cap.seq l l' := by
  by_cases hin : a = .insert
  · subst hin
    obtain ⟨ld, e, hin⟩ := hS.inserts hs
    have hmo := hS.layered_running h.running
    rw [hin.mems]
    refine hi.add (fun x hx he => ?_) hin.fits ?_
    · have hvis : x ∈ s.visible := by
        rw [hmo.split]
        exact List.mem_append_right _ (List.mem_append_right _ ((hmo.mem_iff x).1 hx))
      exact (hin.later x hvis).ne (Rec.seq_eq_of_pos he)
    · exact (h.shows.lead ld hin.lead).trans_eq hin.seq.symm
  · rw [(hS.calm hC hs ha hin hswap).mems]
    exact ⟨l, hi.2, .refl _ l⟩

end Fixed

/-- Where an iterator stands, and what it has shown since it was positioned at `start`. -/
def Scan.At (T : Table → Prop) (M : Nat → MemTable) (cap : Db.Capture) : Option Bytes → Scan → Prop
  | none, c => cap.Iterates T M c.it ∧ c.it.valid = false
  | some target, c => ∃ l, cap.Standing T M c.it l ∧
      c.rows ++ (scanList cap.seq l).tail = (cap.rows M).filter fun row => decide (target ≤ row.1)

namespace Scan.At

variable {c : Scan}

theorem iterates (h : c.At T M cap start) : cap.Iterates T M c.it := by
  cases start with
  | none => exact h.1
  | some target => exact h.choose_spec.1.iterates

theorem grow (h : c.At T M cap start) (hok : cap.Ok T M) (hok' : cap.Ok T' M')
    (hrows : cap.rows M' = cap.rows M)
    (hgrow : ∀ i l, Iter.Stands T M i l → ∃ l', i.Rest M' l' ∧ Grown cap.seq l l') :
    c.At T' M' cap start := by
  cases start with
  | none => exact ⟨⟨h.1.seq, h.1.sources, h.1.ready⟩, h.2⟩
  | some target =>
    obtain ⟨l, hst, heq⟩ := h
    obtain ⟨l', hst', hscan⟩ := hst.grow hok hok' hgrow
    exact ⟨l', hst', by rw [hscan, hrows, heq]⟩

end Scan.At

theorem Db.Capture.Standing.row {it : DBIter} (h : cap.Standing T M it l) :
    (if it.valid then [(it.key, it.value)] else []) ++ (scanList cap.seq l).tail =
      scanList cap.seq l := by
  have hshows := h.rest.shows
  have hlive := h.live
  cases l with
  | nil =>
    rw [show it.valid = false from hshows, scanList_nil hlive]
    rfl
  | cons r l =>
    obtain ⟨hv, hk, hval⟩ := hshows
    rw [hv, hk, hval, scanList_cons hlive]
    rfl

/-- The scan of a client goes over the rows of the groups `gs`. -/
structure Following (id : Nat) (gs : List Group) (cap : Db.Capture)
    (start : Option Bytes) (s : Sys) :
    Prop where
  fixed : Fixed gs cap s
  scan : ∃ c, s.scans.find? (fun c => c.id == id) = some c ∧
    c.At (· ∈ s.opened) s.store.mems cap start

/-- Moving an iterator changes no other. -/
theorem Sys.moveScan_find {f : DBIter → StoreM DBIter} (hs : s.moveScan i fresh f = some s') :
    ∃ c, s.scans.find? (fun c => c.id == i) = some c ∧ s'.opened = s.opened ∧
      s'.store = ((f c.it).run s.store).2 ∧
      (∀ id, id ≠ i → s'.scans.find? (fun c => c.id == id) = s.scans.find? fun c => c.id == id) ∧
      s'.scans.find? (fun c => c.id == i) = some { c with
        it := ((f c.it).run s.store).1
        rows := (if fresh then [] else c.rows) ++
          (if ((f c.it).run s.store).1.valid then
            [(((f c.it).run s.store).1.key, ((f c.it).run s.store).1.value)] else []) } := by
  simp only [Sys.moveScan, Option.bind_eq_bind, Option.bind_eq_some_iff] at hs
  obtain ⟨c, hc, hs⟩ := hs
  cases hs
  set g : Scan → Scan := fun d => if d.id == i then { d with
    it := ((f c.it).run s.store).1
    rows := (if fresh then [] else c.rows) ++
      (if ((f c.it).run s.store).1.valid then
        [(((f c.it).run s.store).1.key, ((f c.it).run s.store).1.value)] else []) } else d with hg
  have hid : ∀ d, (g d).id = d.id := by
    intro d
    rw [hg]
    dsimp only
    split <;> rfl
  have hfind : ∀ id, (s.scans.map g).find? (fun c => c.id == id) =
      (s.scans.find? fun c => c.id == id).map g := by
    intro id
    rw [List.find?_map]
    simp only [Function.comp_def, hid]
  refine ⟨c, hc, rfl, rfl, fun id hne => ?_, ?_⟩
  · refine (hfind id).trans ?_
    cases hf : s.scans.find? fun c => c.id == id with
    | none => rfl
    | some d =>
      have hd : d.id = id := by simpa using List.find?_some hf
      rw [Option.map_some, hg]
      simp [hd, hne]
  · refine (hfind i).trans ?_
    have hci : c.id = i := by simpa using List.find?_some hc
    rw [hc, Option.map_some, hg]
    simp [hci]

namespace Following

variable {id : Nat}

theorem same (h : Following id gs cap start s) (hS : Sound σ gh s) (hS' : Sound σ gh' s')
    (hfix : Fixed gs cap s')
    (hgrow : ∀ i l, Iter.Stands (· ∈ s.opened) s.store.mems i l →
      ∃ l', i.Rest s'.store.mems l' ∧ Grown cap.seq l l')
    (hfind : s'.scans.find? (fun c => c.id == id) = s.scans.find? fun c => c.id == id) :
    Following id gs cap start s' := by
  obtain ⟨c, hc, hat⟩ := h.scan
  refine ⟨hfix, c, hfind.trans hc, ?_⟩
  exact hat.grow (h.fixed.ok hS) (hfix.ok hS') (h.fixed.rows_eq hfix hS hS') hgrow

theorem move {f : DBIter → StoreM DBIter} {start' : Option Bytes} (h : Following id gs cap start s)
    (hS : Sound σ gh s) (hfix : Fixed gs cap s') (hs : s.moveScan id fresh f = some s')
    (hf : ∀ c, s.scans.find? (fun c => c.id == id) = some c →
      c.At (· ∈ s.opened) s.store.mems cap start →
      Ensures (Store.Serves (· ∈ s.opened) s.store.mems) (f c.it) fun it =>
        Scan.At (· ∈ s.opened) s.store.mems cap start' { c with
          it := it
          rows := (if fresh then [] else c.rows) ++ if it.valid then
            [(it.key, it.value)] else [] }) :
    Following id gs cap start' s' := by
  obtain ⟨c, hc, hat⟩ := h.scan
  obtain ⟨d, hd, hopened, hstore, _, hfind⟩ := Sys.moveScan_find hs
  obtain rfl : c = d := Option.some.inj (hc.symm.trans hd)
  obtain ⟨hat', hserves⟩ := hf c hc hat s.store hS.tables.serves
  refine ⟨hfix, _, hfind, ?_⟩
  rw [hopened, hstore, hserves.mems]
  exact hat'

theorem seekToFirst (h : Following id gs cap start s) (hS : Sound σ gh s) (hfix : Fixed gs cap s')
    (hs : s.moveScan id true DBIter.seekToFirst = some s') : Following id gs cap (some []) s' := by
  refine h.move hS hfix hs fun c _ hat => ?_
  refine ((h.fixed.ok hS).standing_seekToFirst hat.iterates).imp
    fun it ⟨l, hst, hrows⟩ => ⟨l, hst, ?_⟩
  dsimp only
  rw [if_pos rfl, List.nil_append, hst.row, hrows]
  symm
  exact List.filter_eq_self.2 fun row _ => decide_eq_true (not_lt.1 (List.not_lt_nil row.1))

theorem seek (h : Following id gs cap start s) (hS : Sound σ gh s) (hfix : Fixed gs cap s')
    (hs : s.moveScan id true (DBIter.seek · target) = some s') (ht : target.length + 8 < 2 ^ 32) :
    Following id gs cap (some target) s' := by
  refine h.move hS hfix hs fun c _ hat => ?_
  refine ((h.fixed.ok hS).standing_seek hat.iterates ht).imp fun it ⟨l, hst, hrows⟩ => ⟨l, hst, ?_⟩
  dsimp only
  rw [if_pos rfl, List.nil_append, hst.row, hrows]

theorem next (h : Following id gs cap start s) (hS : Sound σ gh s) (hfix : Fixed gs cap s')
    (hs : s.next id = some s') : Following id gs cap start s' := by
  obtain ⟨d, _, hd, hv, hmove⟩ := Sys.next_cases hs
  refine h.move hS hfix hmove fun c hc hat => ?_
  obtain rfl : c = d := Option.some.inj (hc.symm.trans hd)
  cases start with
  | none =>
    have hv' : c.it.valid = false := hat.2
    rw [hv] at hv'
    cases hv'
  | some target =>
    obtain ⟨l, hst, hrows⟩ := hat
    cases l with
    | nil =>
      have hv' : c.it.valid = false := hst.rest.shows
      rw [hv] at hv'
      cases hv'
    | cons r l =>
      refine (hst.next (h.fixed.ok hS)).imp fun it hst' => ⟨_, hst', ?_⟩
      dsimp only
      rw [if_neg (by simp), List.append_assoc, hst'.row, scanList_advanceList, ← hrows,
        scanList_cons hst.live]
      rfl

end Following

/-- The lookup key of a seek has a length that fits its field. -/
def Act.seeksFit : Act → Prop
  | seek _ target => target.length + 8 < 2 ^ 32
  | _ => True

/-- A step of the process that has the database open. -/
structure Inner (s : Sys) (a : Act) (s' : Sys) : Prop where
  orderly : Orderly True s a s'
  internal : a.internal
  seek : a.seeksFit

/-- Such a step with the background thread on. -/
structure Within (s : Sys) (a : Act) (s' : Sys) : Prop where
  steady : Steady s a s'
  internal : a.internal
  seek : a.seeksFit

theorem Run.inner {Q : Act → Prop} (h : Run Steady {} s)
    (h' : Run (fun s a s' => Within s a s' ∧ Q a) s t) :
    Run (fun s a s' => Inner s a s' ∧ Q a) s t := by
  induction h' with
  | refl => exact .refl
  | step h' hs hw ih =>
    have hrun := h.trans (h'.mono fun _ _ _ hw => hw.1.steady)
    exact .step ih hs ⟨⟨hw.1.steady.orderly hrun hs, hw.1.internal, hw.1.seek⟩, hw.2⟩

/-- The client positions its iterator at the first key from `target` on. -/
def Act.positions (id : Nat) (target : Bytes) : Act → Prop
  | seekToFirst i => i = id ∧ target = []
  | seek i t => i = id ∧ t = target
  | _ => False

namespace Following

variable {id : Nat} {target : Bytes}

theorem step (h : Following id gs cap start s) (hord : Run (Orderly True) {} s)
    (hs : LsmKv.step s a = some s') (hw : Inner s a s') :
    (∀ target, a.positions id target → Following id gs cap (some target) s') ∧
      ((∀ target, ¬ a.positions id target) → Following id gs cap start s') := by
  have hswap : a = .rotateSwap → s.lead = none := fun ha => hw.orderly.swap ha trivial
  obtain ⟨gh, hS, hC⟩ : ∃ gh, Sound True gh s ∧ ScansOk s := by
    cases Good.run hord with
    | opened hS _ hC => exact ⟨_, hS, hC⟩
    | closed hi _ _ => cases hi.mode.symm.trans h.fixed.running
  have hfix := h.fixed.internal hS hC hs hw.internal hswap
  obtain ⟨gh', _, _, hS', _⟩ := (Good.run (.step hord hs hw.orderly)).sound (by simp [hfix.running])
  have hsame := h.same hS hS' hfix (h.fixed.grows hS hC hs hw.internal hswap)
  have hother : ∀ {i fresh} {f : DBIter → StoreM DBIter}, s.moveScan i fresh f = some s' → i ≠ id →
      Following id gs cap start s' := fun hmove hne =>
    hsame ((Sys.moveScan_find hmove).choose_spec.2.2.2.1 id hne.symm)
  have hon := Onward.step hs hw.internal
  cases a with
  | newIterator i snapshot =>
    refine ⟨fun _ hp => hp.elim, fun _ => hsame ?_⟩
    obtain ⟨c, hc, _⟩ := h.scan
    obtain ⟨_, _, _, _, rfl⟩ := Sys.newIterator_cases hs
    rw [List.find?_append, hc]
    rfl
  | seekToFirst i =>
    have hmove : s.moveScan i true DBIter.seekToFirst = some s' := hs
    by_cases heq : i = id
    · subst heq
      exact ⟨fun _ hp => hp.2 ▸ h.seekToFirst hS hfix hmove, fun hn => absurd ⟨rfl, rfl⟩ (hn [])⟩
    · exact ⟨fun _ hp => absurd hp.1 heq, fun _ => hother hmove heq⟩
  | seek i t =>
    have hmove : s.moveScan i true (DBIter.seek · t) = some s' := hs
    by_cases heq : i = id
    · subst heq
      exact ⟨fun _ hp => hp.2 ▸ h.seek hS hfix hmove hw.seek, fun hn => absurd ⟨rfl, rfl⟩ (hn t)⟩
    · exact ⟨fun _ hp => absurd hp.1 heq, fun _ => hother hmove heq⟩
  | next i =>
    refine ⟨fun _ hp => hp.elim, fun _ => ?_⟩
    by_cases heq : i = id
    · subst heq
      exact h.next hS hfix hs
    · obtain ⟨_, _, _, _, hmove⟩ := Sys.next_cases hs
      exact hother hmove heq
  | _ => exact ⟨fun _ hp => hp.elim, fun _ => hsame (by rw [hon.scans not_false])⟩

/-- However the iterator is moved, it stays on the rows of the groups. -/
theorem run (h : Following id gs cap start s) (hrun : Run (Orderly True) {} s)
    (h' : Run Inner s t) : ∃ start', Following id gs cap start' t := by
  induction h' with
  | refl => exact ⟨start, h⟩
  | @step t a t' h' hs hw ih =>
    obtain ⟨start', ht⟩ := ih
    obtain ⟨hpos, hkeep⟩ := ht.step (hrun.trans (h'.mono fun _ _ _ hw => hw.orderly)) hs hw
    by_cases hex : ∃ target, a.positions id target
    · exact ⟨_, hpos _ hex.choose_spec⟩
    · exact ⟨_, hkeep (not_exists.1 hex)⟩

theorem run_from (h : Following id gs cap start s) (hrun : Run (Orderly True) {} s)
    (h' : Run (fun s a s' => Inner s a s' ∧ ∀ target, ¬ a.positions id target) s t) :
    Following id gs cap start t := by
  induction h' with
  | refl => exact h
  | step h' hs hw ih =>
    exact (ih.step (hrun.trans (h'.mono fun _ _ _ hw => hw.1.orderly)) hs hw.1).2 hw.2

theorem positioned (h : Following id gs cap start s) (hrun : Run (Orderly True) {} s)
    (h₁ : Run Inner s t) (hseek : LsmKv.step t a = some t₁) (ha : a.positions id target)
    (hw : Inner t a t₁)
    (h₂ : Run (fun s a s' => Inner s a s' ∧ ∀ target, ¬ a.positions id target) t₁ u) :
    Run (Orderly True) {} u ∧ Following id gs cap (some target) u := by
  obtain ⟨_, hf⟩ := h.run hrun h₁
  have hrt := hrun.trans (h₁.mono fun _ _ _ hw => hw.orderly)
  have hr₂ := hrt.step hseek hw.orderly
  exact ⟨hr₂.trans (h₂.mono fun _ _ _ hw => hw.1.orderly),
    ((hf.step hrt hseek hw).1 target ha).run_from hr₂ h₂⟩

theorem new (hpt : ∀ sn, s.readPoint snapshot = some sn → (s.db.capture sn).seq = p ∧ Shows s gs p)
    (hS : Sound True gh s) (hs : s.newIterator id snapshot = some s') :
    ∃ cap : Db.Capture, cap.seq = p ∧ Following id gs cap none s' := by
  have hids : ∀ c ∈ s.scans, ¬ (c.id == id) = true := by
    simp only [Sys.newIterator, Option.bind_eq_bind, Option.bind_eq_some_iff] at hs
    obtain ⟨_, _, hs⟩ := hs
    split at hs
    · rename_i hg
      intro c hc
      simpa using List.all_eq_true.1 hg.2.2 c hc
    · cases hs
  obtain ⟨sn, hsn, hm, _, rfl⟩ := Sys.newIterator_cases hs
  have hmem := Sys.readPoint_mem hsn
  obtain ⟨hseq, hshows⟩ := hpt sn hsn
  refine ⟨s.db.capture sn, hseq, ⟨hm, hS.capOk hm hmem, ?_, ?_⟩,
    ⟨id, sn, (s.db.capture sn).newIterator, []⟩, ?_, ?_⟩
  · have hsee := hS.sees_now trivial hm hmem
    exact ⟨hsee.agree, hsee.mem⟩
  · rw [hseq]
    exact ⟨hshows.agree, hshows.lead⟩
  · rw [List.find?_append, List.find?_eq_none.2 hids]
    simp
  · exact ⟨Db.Capture.iterates_new _, rfl⟩

end Following

/-- The groups `gs` are what a read at this read point should show, up to `p`: those that were done
when the read starts, or when its snapshot was taken, with no write under way then. -/
inductive PointOf (s : Sys) : Option Nat → List Group → Nat → Prop where
  | now (hl : s.lead = none) : PointOf s none s.done s.db.lastSequence
  | held (h : Run Steady {} t) (hs : LsmKv.step t .getSnapshot = some t')
      (hp : Steady t .getSnapshot t') (hl : t.lead = none) (h' : Run Steady t' s) :
      PointOf s (some t.nextHandle) t.done t.db.lastSequence

theorem Viewed.point (hv : Viewed h gs p s) (hm : s.mode = .running)
    (hsn : s.readPoint (some h) = some sn) : (s.db.capture sn).seq = p ∧ Shows s gs p := by
  obtain ⟨x, hx, rfl⟩ := Option.map_eq_some_iff.1 hsn
  have hmem := List.mem_of_find?_eq_some hx
  have heq := List.find?_some hx
  exact hv.snapshots (by simp [hm]) x hmem (by simpa using heq)

theorem PointOf.shows (h : PointOf s snapshot gs p) (hm : s.mode = .running)
    (hsn : s.readPoint snapshot = some sn) : (s.db.capture sn).seq = p ∧ Shows s gs p := by
  cases h with
  | now hl =>
    cases hsn
    exact ⟨rfl, Sys.shows_done hl _⟩
  | held h hs hp hl h' =>
    have hv := Viewed.of_taken h.steady.1 hs (hp.orderly h hs) (Sys.shows_done hl _)
      ((h.step hs hp).steady_from h')
    exact hv.point hm hsn

theorem Following.of_run {id : Nat} (h : Run Steady {} s) (hpt : PointOf s snapshot gs p)
    (hs : LsmKv.step s (.newIterator id snapshot) = some s₁)
    (hp : Steady s (.newIterator id snapshot) s₁) (h₁ : Run Within s₁ t)
    (hseek : LsmKv.step t a = some t₁) (ha : a.positions id target) (hw : Within t a t₁)
    (h₂ : Run (fun s a s' => Within s a s' ∧ ∀ target, ¬ a.positions id target) t₁ u) :
    Run (Orderly True) {} u ∧
      ∃ cap : Db.Capture, cap.seq = p ∧ Following id gs cap (some target) u := by
  have hm : s.mode = .running := (Sys.newIterator_cases hs).choose_spec.2.1
  obtain ⟨gh, _, _, hS, _⟩ := (Good.run h.steady.1).sound (by simp [hm])
  obtain ⟨cap, hseq, hf⟩ := Following.new (fun _ => hpt.shows hm) hS hs
  have hr₁ : Run Steady {} s₁ := .step h hs hp
  have hrt : Run Steady {} t := hr₁.trans (h₁.mono fun _ _ _ hw => hw.steady)
  have hin := hr₁.inner (h₁.mono fun _ _ _ hw => ⟨hw, trivial⟩)
  have hw' : Inner t a t₁ := ⟨hw.steady.orderly hrt hseek, hw.internal, hw.seek⟩
  obtain ⟨hru, hf⟩ := hf.positioned hr₁.steady.1 (hin.mono fun _ _ _ hw => hw.1) hseek ha hw'
    ((hrt.step hseek hw.steady).inner h₂)
  exact ⟨hru, cap, hseq, hf⟩

theorem Following.rows {id : Nat} {cap : Db.Capture} (h : Following id gs cap (some target) s)
    (hrun : Run (Orderly True) {} s) :
    ∃ c ∈ s.scans, c.id = id ∧ c.it.status = .ok ∧ ∃ rest,
      (c.rows ++ rest).Pairwise (fun a b => a.1 < b.1) ∧
      (∀ k v, (k, v) ∈ c.rows ++ rest ↔ target ≤ k ∧ Shown {r | r ∈ recsOf gs} cap.seq k v) ∧
      (c.it.valid = false → rest = []) := by
  obtain ⟨gh, _, _, hS, _⟩ := (Good.run hrun).sound (by simp [h.fixed.running])
  obtain ⟨c, hc, l, hst, hrows⟩ := h.scan
  have hok := h.fixed.ok hS
  refine ⟨c, List.mem_of_find?_eq_some hc, by simpa using List.find?_some hc,
    hst.rest.inner.status (Iter.walks hok.tables), (scanList cap.seq l).tail, ?_, fun k v => ?_,
    fun hv => ?_⟩
  · rw [hrows]
    exact hok.rows_sorted.sublist List.filter_sublist
  · rw [hrows, List.mem_filter, h.fixed.mem_rows hS, decide_eq_true_iff, and_comm]
  · cases l with
    | nil => rw [scanList_nil hst.live]; rfl
    | cons r l =>
      have hv' : c.it.valid = true := hst.rest.shows.1
      rw [hv] at hv'
      cases hv'

/-- An iterator shows the database as it was when the iterator was made, or when its snapshot
was taken: whatever is written, flushed or compacted while the client moves it, the rows it has
stood on since a seek, and those it has left, are the live keys from the target on, in order
and none missing. -/
theorem iterator_rows_fixed {id : Nat} (h : Run Steady {} s) (hpt : PointOf s snapshot gs p)
    (hs : step s (.newIterator id snapshot) = some s₁) (hp : Steady s (.newIterator id snapshot) s₁)
    (h₁ : Run Within s₁ t) (hseek : step t a = some t₁) (ha : a.positions id target)
    (hw : Within t a t₁)
    (h₂ : Run (fun s a s' => Within s a s' ∧ ∀ target, ¬ a.positions id target) t₁ u) :
    ∃ c ∈ u.scans, c.id = id ∧ c.it.status = .ok ∧ ∃ rest,
      (c.rows ++ rest).Pairwise (fun a b => a.1 < b.1) ∧
      (∀ k v, (k, v) ∈ c.rows ++ rest ↔ target ≤ k ∧ Shown {r | r ∈ recsOf gs} p k v) ∧
      (c.it.valid = false → rest = []) := by
  obtain ⟨hru, cap, rfl, hf⟩ := Following.of_run h hpt hs hp h₁ hseek ha hw h₂
  exact hf.rows hru

section Sample

/-- The process goes on, and no iterator is positioned. -/
def Act.moves : Act → Bool
  | kill => false
  | recover _ _ => false
  | powerLoss _ _ => false
  | powerLossData _ => false
  | seekToFirst _ => false
  | seek _ _ => false
  | _ => true

theorem Act.moves_spec {a : Act} (h : a.moves = true) :
    a.internal ∧ a.seeksFit ∧ ∀ id target, ¬ a.positions id target := by
  cases a with
  | kill => cases h
  | recover options path => cases h
  | powerLoss keep cut => cases h
  | powerLossData cut => cases h
  | seekToFirst i => cases h
  | seek i t => cases h
  | _ => exact ⟨trivial, trivial, fun _ _ => not_false⟩

def Within.check (s : Sys) (a : Act) : Bool := Steady.check s a && a.moves

theorem Run.of_within (hr : Run Steady {} s) (h : runActs Within.check s as = some t) :
    Run (fun s a s' => Within s a s' ∧ ∀ id target, ¬ a.positions id target) s t :=
  (Run.of_steady_with (fun _ => Act.moves_spec) hr h).mono fun _ _ _ hp =>
    ⟨⟨hp.1, hp.2.1, hp.2.2.1⟩, hp.2.2.2⟩

/-- Writes, a memtable switch and a flush while a client steps through two keys. -/
def scanActs : List Act :=
  putActs [98] [8] ++ .next 5 :: rotatingPutActs [99] [3] ++ .startFlush :: jobActs 10 ++
    .job 0 0 [.manifest, .sst 3, .log 2, .log 1] :: jobActs 2 ++ [.next 5]

set_option synthInstance.maxSize 2000 in
theorem iterator_rows_fixed_sample : ∃ s s₁ t t₁ u,
    runActs Steady.check {} (openActs ++ putActs [97] [1] ++ putActs [98] [2]) = some s ∧
    step s (.newIterator 5 none) = some s₁ ∧ runActs Within.check s₁ (putActs [97] [9]) = some t ∧
    step t (.seek 5 [97]) = some t₁ ∧ runActs Within.check t₁ scanActs = some u ∧
    u.scans.map (fun c => (c.rows, c.it.valid)) = [([([97], [1]), ([98], [2])], false)] ∧
    ∃ c ∈ u.scans, c.id = 5 ∧ c.it.status = .ok ∧ ∃ rest,
      (c.rows ++ rest).Pairwise (fun a b => a.1 < b.1) ∧
      (∀ k v, (k, v) ∈ c.rows ++ rest ↔ [97] ≤ k ∧
        Shown {r | r ∈ recsOf s.done} s.db.lastSequence k v) ∧
      (c.it.valid = false → rest = []) := by
  obtain ⟨s, hs, hl, s₁, hs₁, hc₁, t, ht, t₁, ht₁, hct, u, hu, hrows⟩ :
      ∃ s, runActs Steady.check {} (openActs ++ putActs [97] [1] ++ putActs [98] [2]) = some s ∧
      s.lead.isNone = true ∧ ∃ s₁, step s (.newIterator 5 none) = some s₁ ∧
      Steady.check s (.newIterator 5 none) = true ∧
      ∃ t, runActs Within.check s₁ (putActs [97] [9]) = some t ∧
      ∃ t₁, step t (.seek 5 [97]) = some t₁ ∧ Steady.check t (.seek 5 [97]) = true ∧
      ∃ u, runActs Within.check t₁ scanActs = some u ∧
        u.scans.map (fun c => (c.rows, c.it.valid)) = [([([97], [1]), ([98], [2])], false)] := by
    decide +kernel
  have hrun := Run.of_steady .refl hs
  have hp : Steady s (.newIterator 5 none) s₁ := .of_check hc₁ hs₁ hrun.shallow
  have hrun₁ : Run Steady {} s₁ := .step hrun hs₁ hp
  have h₁ := Run.of_within hrun₁ ht
  have hrunt := hrun₁.trans (h₁.mono fun _ _ _ hw => hw.1.steady)
  have hpt : Steady t (.seek 5 [97]) t₁ := .of_check hct ht₁ hrunt.shallow
  have h₂ := Run.of_within (.step hrunt ht₁ hpt) hu
  exact ⟨s, s₁, t, t₁, u, hs, hs₁, ht, ht₁, hu, hrows,
    iterator_rows_fixed hrun (.now (Option.isNone_iff_eq_none.1 hl)) hs₁ hp
      (h₁.mono fun _ _ _ hw => hw.1) ht₁ ⟨rfl, rfl⟩ ⟨hpt, trivial, by simp [Act.seeksFit]⟩
      (h₂.mono fun _ _ _ hw => ⟨hw.1, hw.2 5⟩)⟩

end Sample

theorem Reads.ok_iff {U : Set Rec} {k : Bytes} (h : Reads U k p res) (hd : Distinct U) :
    res = .ok v ↔ Shown U p k v := by
  rcases h with ⟨w, rfl, hw⟩ | ⟨rfl, hn⟩
  · constructor
    · intro he
      cases he
      exact hw
    · intro hv
      rw [Shown.unique hd hw hv]
  · constructor
    · intro he
      cases he
    · intro hv
      exact absurd hv (hn v)

theorem PointOf.histOk (h : PointOf s snapshot gs p) (hS : Sound True gh s) : HistOk gs := by
  cases h with
  | now hl => exact hS.logged.done_ok
  | held h hs hp hl h' =>
    have hm := (Sys.getSnapshot_cases hs).1
    obtain ⟨gh', _, _, hS', _⟩ := (Good.run h.steady.1).sound (by simp [hm])
    exact hS'.logged.done_ok

theorem PointOf.reads (h : PointOf s snapshot gs p) (hS : Sound True gh s) (hm : s.mode = .running)
    (hsn : s.readPoint snapshot = some sn) {k : Bytes} (hk : k.length + 8 < 2 ^ 32) :
    Reads {r | r ∈ recsOf gs} k p (((s.db.capture sn).get k).run s.store).1 := by
  obtain ⟨hseq, hshows⟩ := h.shows hm hsn
  have hreads := hS.reads_now trivial hm (Sys.readPoint_mem hsn) hk
  rw [hseq] at hreads
  exact hshows.agree.reads.2 hreads

/-- Scans and point lookups agree: the rows of an iterator, whenever the client moves it, are the
keys for which a `Get` at its read point would have returned OK when it was made, each with the
value that `Get` would have returned, from the target of the last seek on. -/
theorem scan_agrees_with_get {id : Nat} (h : Run Steady {} s) (hpt : PointOf s snapshot gs p)
    (hs : step s (.newIterator id snapshot) = some s₁) (hp : Steady s (.newIterator id snapshot) s₁)
    (h₁ : Run Within s₁ t) (hseek : step t a = some t₁) (ha : a.positions id target)
    (hw : Within t a t₁)
    (h₂ : Run (fun s a s' => Within s a s' ∧ ∀ target, ¬ a.positions id target) t₁ u) :
    ∃ sn, s.readPoint snapshot = some sn ∧ ∃ c ∈ u.scans, c.id = id ∧ ∃ rest,
      (c.rows ++ rest).Pairwise (fun a b => a.1 < b.1) ∧
      (∀ k v, k.length + 8 < 2 ^ 32 → ((k, v) ∈ c.rows ++ rest ↔
        target ≤ k ∧ (((s.db.capture sn).get k).run s.store).1 = .ok v)) ∧
      (c.it.valid = false → rest = []) := by
  obtain ⟨sn, hsn, hm, _⟩ := Sys.newIterator_cases hs
  obtain ⟨gh, _, _, hS, _⟩ := (Good.run h.steady.1).sound (by simp [hm])
  obtain ⟨hru, cap, rfl, hf⟩ := Following.of_run h hpt hs hp h₁ hseek ha hw h₂
  obtain ⟨c, hc, hid, _, rest, hsorted, hrows, hend⟩ := hf.rows hru
  refine ⟨sn, hsn, c, hc, hid, rest, hsorted, ?_, hend⟩
  intro k v hk
  rw [hrows, (hpt.reads hS hm hsn hk).ok_iff (hpt.histOk hS).seqAsc.distinct]

section Sample

set_option synthInstance.maxSize 2000 in
/-- A key is deleted between the snapshot and the scan through it. -/
theorem scan_agrees_with_get_sample : ∃ b b' s s₁ t u,
    runActs Steady.check {} (openActs ++ putActs [97] [1]) = some b ∧
    step b .getSnapshot = some b' ∧
    runActs Steady.check b'
    [.write 0 [⟨.kDeletion, [97], []⟩] false, .begin false, .append 0, .syncLog,
      .insert, .finish] = some s ∧
    step s (.newIterator 5 (some b.nextHandle)) = some s₁ ∧ step s₁ (.seekToFirst 5) = some t ∧
    runActs Within.check t (putActs [98] [2] ++ [.next 5]) = some u ∧
    ∃ sn, s.readPoint (some b.nextHandle) = some sn ∧ ∃ c ∈ u.scans, c.id = 5 ∧ ∃ rest,
      (c.rows ++ rest).Pairwise (fun a b => a.1 < b.1) ∧
      (∀ k v, k.length + 8 < 2 ^ 32 → ((k, v) ∈ c.rows ++ rest ↔
        [] ≤ k ∧ (((s.db.capture sn).get k).run s.store).1 = .ok v)) ∧
      (c.it.valid = false → rest = []) := by
  obtain ⟨b, hb, hl, b', hb', hc, s, hs, s₁, hs₁, hc₁, t, ht, hct, u, hu, hrows⟩ :
      ∃ b, runActs Steady.check {} (openActs ++ putActs [97] [1]) = some b ∧ b.lead.isNone = true ∧
      ∃ b', step b .getSnapshot = some b' ∧ Steady.check b .getSnapshot = true ∧
      ∃ s, runActs Steady.check b'
      [.write 0 [⟨.kDeletion, [97], []⟩] false, .begin false, .append 0,
        .syncLog, .insert, .finish] = some s ∧
      ∃ s₁, step s (.newIterator 5 (some b.nextHandle)) = some s₁ ∧
      Steady.check s (.newIterator 5 (some b.nextHandle)) = true ∧
      ∃ t, step s₁ (.seekToFirst 5) = some t ∧ Steady.check s₁ (.seekToFirst 5) = true ∧
      ∃ u, runActs Within.check t (putActs [98] [2] ++ [.next 5]) = some u ∧
        u.scans.map (fun c => (c.rows, c.it.valid)) = [([([97], [1])], false)] := by
    decide +kernel
  have hrunb := Run.of_steady .refl hb
  have hpb : Steady b .getSnapshot b' := .of_check hc hb' hrunb.shallow
  have hb₁ := Run.of_steady (hrunb.step hb' hpb) hs
  have hrun := (hrunb.step hb' hpb).trans hb₁
  have hp : Steady s (.newIterator 5 (some b.nextHandle)) s₁ := .of_check hc₁ hs₁ hrun.shallow
  have hrun₁ : Run Steady {} s₁ := .step hrun hs₁ hp
  have hpt : Steady s₁ (.seekToFirst 5) t := .of_check hct ht hrun₁.shallow
  have h₂ := Run.of_within (.step hrun₁ ht hpt) hu
  exact ⟨b, b', s, s₁, t, u, hb, hb', hs, hs₁, ht, hu,
    scan_agrees_with_get hrun (.held hrunb hb' hpb (Option.isNone_iff_eq_none.1 hl) hb₁)
    hs₁ hp .refl ht ⟨rfl, rfl⟩ ⟨hpt, trivial, by simp [Act.seeksFit]⟩
    (h₂.mono fun _ _ _ hw => ⟨hw.1, hw.2 5⟩)⟩

end Sample

end LsmKv
