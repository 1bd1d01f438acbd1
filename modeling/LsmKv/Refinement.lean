import LsmKv.Durability
import LsmKv.Library.KvStore

namespace LsmKv
set_option autoImplicit true

open Versioned
open Wal (Group)

variable {σ : Prop} {gh : Ghost} {s s' : Sys} {gs : List Group} {p : Nat} {l : List Rec}

/-- The write a record stands for. -/
def Rec.op (r : Rec) : Kv.Op Bytes Bytes :=
  if r.isDeletion then .delete r.userKey else .put r.userKey r.2

theorem Rec.op_key (r : Rec) : r.op.key = r.userKey := by
  rw [Rec.op]
  split <;> rfl

theorem Rec.op_value (r : Rec) : r.op.value = some v ↔ r.isDeletion = false ∧ r.2 = v := by
  rw [Rec.op]
  split <;> simp_all [Kv.Op.value]

/-- What the records, in the order of their numbers, make of an empty map. -/
def mapOf (l : List Rec) : Bytes → Option Bytes := Kv.applyAll (fun _ => none) (l.map Rec.op)

theorem mapOf_concat (l : List Rec) (r : Rec) :
    mapOf (l ++ [r]) = Function.update (mapOf l) r.userKey r.op.value := by
  rw [mapOf, List.map_append, List.map_singleton, Kv.applyAll_concat, ← r.op_key]
  rfl

/-- A reader whose point is past all records is shown what the map has. -/
theorem shown_iff_mapOf (h : SeqAsc l) (hp : ∀ r ∈ l, r.seq ≤ p) :
    Shown {r | r ∈ l} p k v ↔ mapOf l k = some v := by
  induction l using List.reverseRecOn with
  | nil =>
    constructor
    · rintro ⟨r, hr, _⟩
      cases hr.1.mem
    · intro hm
      cases hm
  | append_singleton l r ih =>
    obtain ⟨hl, _, hlt⟩ := seqAsc_append.1 h
    have hih := ih hl fun x hx => hp x (List.mem_append_left _ hx)
    rw [mapOf_concat]
    by_cases hk : r.userKey = k
    · -- the last record of the key decides
      have hnew : Newest {x | x ∈ l ++ [r]} k p r := by
        refine ⟨by simp, hk, hp r (by simp), ?_⟩
        intro y hy _ _
        rcases List.mem_append.1 hy with hy | hy
        · exact (hlt y hy r List.mem_cons_self).le
        · rw [List.mem_singleton.1 hy]
      rw [hk, Function.update_self, Rec.op_value]
      constructor
      · rintro ⟨x, ⟨hx, hlive⟩, hv⟩
        obtain rfl := hx.unique h.distinct hnew
        exact ⟨hlive, hv⟩
      · rintro ⟨hlive, hv⟩
        exact ⟨r, ⟨hnew, hlive⟩, hv⟩
    · rw [Function.update_of_ne (Ne.symm hk), ← hih, setOf_mem_append]
      have hnone : ∀ y ∈ {x | x ∈ [r]}, key y = k → ¬ seq y ≤ p := by
        intro y hy hyk
        rw [List.mem_singleton.1 hy] at hyk
        exact absurd hyk hk
      simp only [Shown, Live, newest_union_right hnone]

/-- What `Get` answers for a value or for none. -/
def answerFor : Option Bytes → Except Status Bytes
  | some v => .ok v
  | none => .error .notFound

theorem reads_iff_mapOf (h : SeqAsc l) (hp : ∀ r ∈ l, r.seq ≤ p) :
    Reads {r | r ∈ l} k p res ↔ res = answerFor (mapOf l k) := by
  have hshown : ∀ v, Shown {r | r ∈ l} p k v ↔ mapOf l k = some v := fun v => shown_iff_mapOf h hp
  simp only [Reads, hshown]
  cases mapOf l k with
  | none => simp [answerFor]
  | some v =>
    constructor
    · rintro (⟨w, rfl, hw⟩ | ⟨_, hn⟩)
      · rw [hw]
        rfl
      · exact absurd rfl (hn v)
    · intro he
      exact .inl ⟨v, he, rfl⟩

/-- The write a client asks for. -/
def BatchEntry.op (e : BatchEntry) : Kv.Op Bytes Bytes :=
  match e.type with
  | .kValue => .put e.key e.value
  | .kDeletion => .delete e.key

def Wal.Group.ops (g : Group) : List (Kv.Op Bytes Bytes) := g.entries.map BatchEntry.op

theorem Rec.op_encode {e : BatchEntry} (h : n ≤ kMaxSequenceNumber) :
    (Rec.encode e.key n e.type e.value).op = e.op := by
  rw [Rec.op, Rec.encode_isDeletion h, Rec.encode_userKey, BatchEntry.op]
  cases e.type <;> rfl

theorem map_op_numberRecs (hb : n + es.length ≤ kMaxSequenceNumber + 1) :
    (numberRecs n es).map Rec.op = es.map BatchEntry.op := by
  induction es generalizing n with
  | nil => rfl
  | cons e es ih =>
    rw [List.length_cons] at hb
    rw [numberRecs, List.map_cons, List.map_cons, Rec.op_encode (by omega), ih (by omega)]

/-- What the groups make of an empty map. -/
def mapOfGroups (gs : List Group) : Bytes → Option Bytes :=
  Kv.applyAll (fun _ => none) (gs.map Group.ops).flatten

theorem HistOk.map_op_recsOf (h : HistOk gs) :
    (recsOf gs).map Rec.op = (gs.map Group.ops).flatten := by
  have hb := h.bound
  clear h
  induction gs with
  | nil => rfl
  | cons g gs ih =>
    rw [recsOf, List.flatMap_cons, List.map_append, List.map_cons, List.flatten_cons]
    have hg := map_op_numberRecs (hb g List.mem_cons_self)
    exact congrArg₂ (· ++ ·) hg (ih fun x hx => hb x (List.mem_cons_of_mem g hx))

theorem HistOk.mapOf_recsOf (h : HistOk gs) : mapOf (recsOf gs) = mapOfGroups gs := by
  rw [mapOf, mapOfGroups, h.map_op_recsOf]

theorem mapOfGroups_append (gs gs' : List Group) :
    mapOfGroups (gs ++ gs') = Kv.applyAll (mapOfGroups gs) (gs'.map Group.ops).flatten := by
  rw [mapOfGroups, List.map_append, List.flatten_append, Kv.applyAll_append]
  rfl

/-- What a step means to the clients of the store. A write takes effect when its group is finished,
or in a crash when its record was complete in the log. -/
def Sys.events (s : Sys) : Act → List (Kv.Event Bytes Bytes)
  | .finish => (s.lead.map fun ld => Kv.Event.commit ld.group.ops).toList
  | .getSnapshot => [.take s.nextHandle]
  | .releaseSnapshot handle => [.release handle]
  | .kill => ((s.hist.drop s.done.length).map Group.ops).map Kv.Event.commit ++ [.crash]
  | _ => []

/-- The states reached by steps that meet `P`, with the events on the way. -/
inductive Traced (P : Sys → Act → Sys → Prop) : List (Kv.Event Bytes Bytes) → Sys → Prop where
  | nil : Traced P [] {}
  | step {es : List (Kv.Event Bytes Bytes)} {s s' : Sys} {a : Act} (h : Traced P es s)
      (hs : LsmKv.step s a = some s') (hp : P s a s') : Traced P (es ++ s.events a) s'

theorem Traced.run {P : Sys → Act → Sys → Prop} (h : Traced P es s) : Run P {} s := by
  induction h with
  | nil => exact .refl
  | step _ hs hp ih => exact .step ih hs hp

/-- The database holds what the store does, and its snapshots show the views. -/
structure Refines (s : Sys) (A : Kv.Store Bytes Bytes) : Prop where
  map : A.map = mapOfGroups s.done
  views : s.mode ≠ .closed → ∀ sn ∈ s.db.snapshots, ∃ gs,
    A.views sn.handle = some (mapOfGroups gs) ∧
    HistOk gs ∧ (∀ r ∈ recsOf gs, r.seq ≤ sn.sequence) ∧ Shows s gs sn.sequence

namespace Refines

variable {A : Kv.Store Bytes Bytes}

theorem kill (h : Refines s A) (hd : s.done <+: s.hist) :
    Refines s.kill (A.run (s.events .kill)) := by
  refine ⟨?_, fun hm => absurd rfl hm⟩
  obtain ⟨rest, hrest⟩ := hd
  have hdrop : s.hist.drop s.done.length = rest := by rw [← hrest, List.drop_left]
  rw [Sys.events, hdrop, Kv.Store.run_append, Kv.Store.run_commits]
  show Kv.applyAll A.map _ = mapOfGroups s.hist
  rw [h.map, ← hrest, mapOfGroups_append]

theorem recover (h : Refines s A) (hs : s.recover options path = some s') : Refines s' A := by
  obtain ⟨hm, ⟨_, rfl⟩ | ⟨_, _, _, _, rfl⟩⟩ := Sys.recover_cases hs
  · exact ⟨h.map, fun ho => absurd hm ho⟩
  · exact ⟨h.map, fun _ sn hsn => (by cases hsn)⟩

theorem internal (h : Refines s A) (hS : Sound σ gh s) (hC : ScansOk s) (hg : Given s)
    (hs : LsmKv.step s a = some s') (ha : a.internal) (hswap : a = .rotateSwap → s.lead = none)
    (htake : a = .getSnapshot → s.lead = none) : Refines s' (A.run (s.events a)) := by
  have hviews := h.views hS.is_open
  have hshows : ∀ {gs p}, p ≤ s.db.lastSequence → Shows s gs p → Shows s' gs p := fun hp =>
    hS.shows_internal hC hs ha hswap hp
  -- a view that a snapshot showed before the step is shown after it
  have hkeep : ∀ sn ∈ s.db.snapshots, ∃ gs, A.views sn.handle = some (mapOfGroups gs) ∧ HistOk gs ∧
      (∀ r ∈ recsOf gs, r.seq ≤ sn.sequence) ∧ Shows s' gs sn.sequence := by
    intro sn hsn
    obtain ⟨gs, hview, hok, hle, hsh⟩ := hviews sn hsn
    exact ⟨gs, hview, hok, hle, hshows (hS.pins.snapshot sn hsn).2 hsh⟩
  obtain ⟨hreaders, hdone⟩ := Sys.step_kept hs ha
  have hquiet : s'.db.snapshots = s.db.snapshots → a ≠ .finish → Refines s' A := by
    intro hsn hf
    refine ⟨?_, fun _ => hsn ▸ hkeep⟩
    rw [(hdone hf).done]
    exact h.map
  cases a with
  | finish =>
    obtain ⟨ld, hl, _, _, hw, _, _, rfl⟩ := Sys.finish_cases hs
    refine ⟨?_, fun _ => ?_⟩
    · rw [Sys.events, hl]
      show Kv.applyAll A.map ld.group.ops = mapOfGroups s.hist
      rw [(hS.logged.leadOk ld hl).logged hw, mapOfGroups_append, h.map]
      simp
    · rw [Sys.events, hl]
      exact hkeep
  | getSnapshot =>
    have hl := htake rfl
    obtain ⟨hm, _, rfl⟩ := Sys.getSnapshot_cases hs
    refine ⟨h.map, fun _ sn hsn => ?_⟩
    show ∃ gs, Function.update A.views s.nextHandle (some A.map) sn.handle = _ ∧ _
    rcases List.mem_append.1 hsn with hsn | hsn
    · have hne : sn.handle ≠ s.nextHandle := (hg.snapshots hS.is_open sn hsn).ne
      rw [Function.update_of_ne hne]
      exact hkeep sn hsn
    · obtain rfl := List.mem_singleton.1 hsn
      refine ⟨s.done, ?_, hS.logged.done_ok, fun r hr => (hS.logged.mem_done hr).2, ?_⟩
      · rw [Function.update_self, h.map]
      · exact hshows le_rfl (Sys.shows_done hl _)
  | releaseSnapshot handle =>
    obtain ⟨hm, _, rfl⟩ := Sys.releaseSnapshot_cases hs
    refine ⟨h.map, fun _ sn hsn => ?_⟩
    show ∃ gs, Function.update A.views handle none sn.handle = _ ∧ _
    obtain ⟨hsn, hne⟩ := List.mem_filter.1 hsn
    rw [Function.update_of_ne (by simpa using hne)]
    exact hkeep sn hsn
  | getBegin id key snapshot =>
    refine hquiet ?_ (by simp)
    obtain ⟨_, _, _, _, _, rfl⟩ := Sys.getBegin_cases hs
    rfl
  | getEnd id =>
    refine hquiet ?_ (by simp)
    obtain ⟨_, _, _, rfl⟩ := Sys.getEnd_cases hs
    rfl
  | kill => cases ha
  | _ => exact hquiet (hreaders not_false).snapshots (by simp)

end Refines

/-- A step of a served process that takes no snapshot while a write is under way. -/
structure Paced (s : Sys) (a : Act) (s' : Sys) : Prop where
  steady : Steady s a s'
  take : a = .getSnapshot → s.lead = none

theorem Refines.step {A : Kv.Store Bytes Bytes} (h : Refines s A) (hrun : Run Steady {} s)
    (hs : LsmKv.step s a = some s') (hp : Paced s a s') : Refines s' (A.run (s.events a)) := by
  have ho := hp.steady.orderly hrun hs
  have hg := Good.run hrun.steady.1
  rcases ho.power with hint | rfl | ⟨options, path, rfl⟩
  · cases hg with
    | opened hS hD hC =>
      exact h.internal hS hC (.run hrun.steady.1) hs hint (fun ha => ho.swap ha trivial) hp.take
    | closed hi hd hc =>
      rw [hi.step_eq_none hint hc] at hs
      cases hs
  · cases hs
    exact h.kill hg.done_hist
  · exact h.recover hs

theorem Traced.refines (h : Traced Paced es s) : Refines s (Kv.Store.run {} es) := by
  induction h with
  | nil => exact ⟨rfl, fun hm => absurd rfl hm⟩
  | step h hs hp ih =>
    rw [Kv.Store.run_append]
    exact ih.step (h.run.mono fun _ _ _ hp => hp.steady) hs hp

theorem Sound.get_visible (h : Sound True gh s) (hm : s.mode = .running) {k : Bytes}
    (hk : k.length + 8 < 2 ^ 32) :
    (((s.db.capture none).get k).run s.store).1 = answerFor (mapOf s.visible k) := by
  have hreads := h.reads_now trivial hm (fun (x : Snapshot) (hx : none = some x) => by cases hx) hk
  exact (reads_iff_mapOf h.logged.seqAsc fun r hr => (h.logged.mem_visible hr).2).1 hreads

/-- While no entry of a write under way is inserted, a read answers from the finished groups. -/
theorem Sound.get_done (h : Sound True gh s) (hm : s.mode = .running)
    (hv : s.visible = recsOf s.done) {k : Bytes} (hk : k.length + 8 < 2 ^ 32) :
    (((s.db.capture none).get k).run s.store).1 = answerFor (mapOfGroups s.done k) := by
  rw [h.get_visible hm hk, hv, h.logged.done_ok.mapOf_recsOf]

theorem Sys.visible_of_idle (hl : s.lead = none) : s.visible = recsOf s.done := by
  simp [visible, hl]

/-- To its clients the database is a map with views. The writes of a run, in the order in which they
return, a crash adding those it found complete in the log, make a map, and while no write is under
way every read answers what the map says. A snapshot answers at every moment what the map said when
it was taken. -/
theorem store_refines (h : Traced Paced es s) (hm : s.mode = .running) :
    (s.lead = none → ∀ k : Bytes, k.length + 8 < 2 ^ 32 →
      (((s.db.capture none).get k).run s.store).1 = answerFor ((Kv.Store.run {} es).map k)) ∧
    ∀ sn ∈ s.db.snapshots, ∃ view, (Kv.Store.run {} es).views sn.handle = some view ∧
      ∀ k : Bytes, k.length + 8 < 2 ^ 32 →
        (((s.db.capture (some sn)).get k).run s.store).1 = answerFor (view k) := by
  have hr := h.refines
  have hrun : Run Steady {} s := h.run.mono fun _ _ _ hp => hp.steady
  obtain ⟨gh, _, _, hS, _⟩ := (Good.run hrun.steady.1).sound (by simp [hm])
  constructor
  · intro hl k hk
    rw [hr.map]
    exact hS.get_done hm (Sys.visible_of_idle hl) hk
  · intro sn hsn
    obtain ⟨gs, hview, hok, hle, hsh⟩ := hr.views (by simp [hm]) sn hsn
    refine ⟨mapOfGroups gs, hview, ?_⟩
    intro k hk
    have hreads :=
      hS.reads_now trivial hm (fun x (hx : some sn = some x) => Option.some.inj hx ▸ hsn) hk
    rw [← hok.mapOf_recsOf]
    exact (reads_iff_mapOf hok.seqAsc hle).1 (hsh.agree.reads.2 hreads)

section Sample

def Sys.eventsOf (s : Sys) : List Act → List (Kv.Event Bytes Bytes)
  | [] => []
  | a :: as => s.events a ++ ((LsmKv.step s a).map fun s' => s'.eventsOf as).getD []

def Paced.check (s : Sys) (a : Act) : Bool :=
  Steady.check s a && match a with
    | .getSnapshot => s.lead.isNone
    | _ => true

theorem Paced.of_check (hc : Paced.check s a = true) (hs : LsmKv.step s a = some s')
    (h : Shallow s) :
    Paced s a s' := by
  obtain ⟨hsteady, htake⟩ := Bool.and_eq_true_iff.1 hc
  refine ⟨.of_check hsteady hs h, ?_⟩
  rintro rfl
  exact Option.isNone_iff_eq_none.1 htake

theorem Traced.of_acts (ht : Traced Paced es s) (h : runActs Paced.check s as = some t) :
    Traced Paced (es ++ s.eventsOf as) t := by
  induction as generalizing s es with
  | nil =>
    cases h
    rw [Sys.eventsOf, List.append_nil]
    exact ht
  | cons a as ih =>
    rw [runActs] at h
    split at h
    · rename_i hc
      obtain ⟨s', hs, hrest⟩ := Option.bind_eq_some_iff.1 h
      rw [Sys.eventsOf, hs, ← List.append_assoc]
      exact ih (ht.step hs (.of_check hc hs ht.run.shallow)) hrest
    · cases h

/-- A put whose record is in the log when the process dies, two crashes, and a put
after a snapshot. -/
def refinedActs : List Act :=
  openActs ++ putActs [97] [1] ++
    [.write 0 [⟨.kValue, [97], [2]⟩] false, .begin false, .append 0, .kill] ++
    crashActs ++ .getSnapshot :: putActs [97] [3]

theorem store_refines_sample : ∃ s, runActs Paced.check {} refinedActs = some s ∧
    (((s.db.capture none).get [97]).run s.store).1 = .ok [3] ∧
    s.db.snapshots.map Snapshot.handle = [0] ∧
    ∀ sn ∈ s.db.snapshots, (((s.db.capture (some sn)).get [97]).run s.store).1 = .ok [2] := by
  obtain ⟨s, hs, hm, hl, hsn, hmap, hview⟩ : ∃ s, runActs Paced.check {} refinedActs = some s ∧
      s.mode = .running ∧ s.lead.isNone = true ∧ s.db.snapshots.map Snapshot.handle = [0] ∧
      (Kv.Store.run {} (Sys.eventsOf {} refinedActs)).map [97] = some [3] ∧
      ((Kv.Store.run {} (Sys.eventsOf {} refinedActs)).views 0).bind (fun view => view [97]) =
      some [2] := by
    decide +kernel
  obtain ⟨hnow, hheld⟩ := store_refines (Traced.nil.of_acts hs) hm
  refine ⟨s, hs, ?_, hsn, ?_⟩
  · rw [hnow (Option.isNone_iff_eq_none.1 hl) [97] (by decide), List.nil_append, hmap]
    rfl
  · intro sn hmem
    have hzero : sn.handle = 0 := by
      have hin := List.mem_map_of_mem (f := Snapshot.handle) hmem
      rw [hsn] at hin
      exact List.mem_singleton.1 hin
    obtain ⟨view, hv, hreads⟩ := hheld sn hmem
    rw [List.nil_append, hzero] at hv
    rw [hv] at hview
    rw [hreads [97] (by decide), show view [97] = some [2] from hview]
    rfl

end Sample

/-- What a reader with point `p` sees in `t` is what there was in `u`. -/
structure SeenAt (p : Nat) (u t : Sys) : Prop where
  visible : ∃ rest, t.visible = u.visible ++ rest ∧ ∀ r ∈ rest, p < r.seq
  le : ∀ r ∈ u.visible, r.seq ≤ p

/-- A step of the process that does not end the call. -/
structure During (id : Nat) (s : Sys) (a : Act) (s' : Sys) : Prop where
  steady : Steady s a s'
  internal : a.internal
  pending : a ≠ .getEnd id

/-- The call is under way, and what it will see was there at a moment since it began. -/
structure Spans (call : GetCall) (s t : Sys) : Prop where
  pending : t.gets.find? (fun c => c.id == call.id) = some call
  moment : ∃ u, Run (During call.id) s u ∧ Run (During call.id) u t ∧ SeenAt call.capture.seq u t

theorem During.find_get {call : GetCall} (hd : During call.id s a s')
    (hs : LsmKv.step s a = some s') (hf : s.gets.find? (fun c => c.id == call.id) = some call) :
    s'.gets.find? (fun c => c.id == call.id) = some call := by
  by_cases hr : a.ofReader
  · cases a with
    | getSnapshot =>
      obtain ⟨_, _, rfl⟩ := Sys.getSnapshot_cases hs
      exact hf
    | releaseSnapshot handle =>
      obtain ⟨_, _, rfl⟩ := Sys.releaseSnapshot_cases hs
      exact hf
    | getBegin id key snapshot =>
      obtain ⟨_, _, _, _, _, rfl⟩ := Sys.getBegin_cases hs
      show (s.gets ++ _).find? _ = _
      rw [List.find?_append, hf]
      rfl
    | getEnd id =>
      have hne : call.id ≠ id := fun he => hd.pending (he ▸ rfl)
      obtain ⟨_, _, _, rfl⟩ := Sys.getEnd_cases hs
      show (s.gets.filter _).find? _ = _
      rw [List.find?_filter, ← hf]
      congr 1
      funext c
      by_cases hc : c.id = call.id
      · simp [hc, hne]
      · simp [hc]
    | _ => cases hr
  · rw [((Sys.step_kept hs hd.internal).1 hr).gets]
    exact hf

theorem Sys.getBegin_find {id : Nat} {key : Bytes} (hs : s.getBegin id key none = some s') :
    s'.gets.find? (fun c => c.id == id) = some ⟨id, key, none, s.db.capture none, s.acked⟩ := by
  obtain ⟨sn, hsn, _, _, hfresh, rfl⟩ := Sys.getBegin_cases hs
  obtain rfl : sn = none := (Option.some.inj hsn).symm
  show (s.gets ++ _).find? _ = _
  rw [List.find?_append, List.find?_eq_none.2 (by simpa using hfresh)]
  simp

theorem SeenAt.step {u t t' : Sys} (h : SeenAt p u t) (hS : Sound σ gh t) (hC : ScansOk t)
    (hs : LsmKv.step t a = some t') (ha : a.internal) (hswap : a = .rotateSwap → t.lead = none) :
    SeenAt p u t' ∨ SeenAt p t' t' := by
  obtain ⟨rest, hrest, hlt⟩ := h.visible
  by_cases hi : a = .insert
  · subst hi
    obtain ⟨ld, e, hins⟩ := hS.inserts hs
    by_cases hp : (ld.newRec e).seq ≤ p
    · right
      refine ⟨⟨[], (List.append_nil _).symm, fun _ hr => (by cases hr)⟩, ?_⟩
      intro r hr
      rw [hins.visible] at hr
      rcases List.mem_append.1 hr with hr | hr
      · exact (hins.later r hr).le.trans hp
      · rw [List.mem_singleton.1 hr]
        exact hp
    · left
      refine ⟨⟨rest ++ [ld.newRec e], ?_, ?_⟩, h.le⟩
      · rw [hins.visible, hrest, List.append_assoc]
      · intro r hr
        rcases List.mem_append.1 hr with hr | hr
        · exact hlt r hr
        · rw [List.mem_singleton.1 hr]
          exact not_le.1 hp
  · left
    have hcalm := hS.calm hC hs ha hi hswap
    exact ⟨⟨rest, hcalm.visible.trans hrest, hlt⟩, h.le⟩

theorem Spans.step {call : GetCall} {t t' : Sys} (h : Spans call s t) (hrun : Run Steady {} t)
    (hs : LsmKv.step t a = some t') (hd : During call.id t a t') : Spans call s t' := by
  have ho := hd.steady.orderly hrun hs
  obtain ⟨u, hu, hut, hseen⟩ := h.moment
  refine ⟨hd.find_get hs h.pending, ?_⟩
  cases Good.run hrun.steady.1 with
  | opened hS _ hC =>
    rcases hseen.step hS hC hs hd.internal (fun ha => ho.swap ha trivial) with hseen | hseen
    · exact ⟨u, hu, hut.step hs hd, hseen⟩
    · exact ⟨t', (hu.trans hut).step hs hd, .refl, hseen⟩
  | closed hi _ hc =>
    rw [hi.step_eq_none hd.internal hc] at hs
    cases hs

theorem Spans.run {call : GetCall} (h : Spans call s s) (hrun : Run Steady {} s)
    (h' : Run (During call.id) s t) : Spans call s t := by
  have hboth : Run Steady {} t ∧ Spans call s t := by
    refine h'.induct (I := fun t => Run Steady {} t ∧ Spans call s t) ⟨hrun, h⟩ ?_
    rintro t a t' ⟨hr, hsp⟩ hs hd
    exact ⟨hr.step hs hd.steady, hsp.step hr hs hd⟩
  exact hboth.2

theorem Spans.begin {id : Nat} {key : Bytes} (h : Run Steady {} s)
    (hs : s.getBegin id key none = some s') :
    ∃ call : GetCall, call.id = id ∧ call.key = key ∧ Spans call s' s' := by
  refine ⟨⟨id, key, none, s.db.capture none, s.acked⟩, rfl, rfl, Sys.getBegin_find hs, _, .refl,
    .refl, ?_⟩
  obtain ⟨_, _, hm, _, _, rfl⟩ := Sys.getBegin_cases hs
  obtain ⟨gh, _, _, hS, _⟩ := (Good.run h.steady.1).sound (by simp [hm])
  refine ⟨⟨[], (List.append_nil _).symm, fun _ hr => (by cases hr)⟩, ?_⟩
  intro r hr
  exact (hS.logged.mem_visible hr).2

theorem SeenAt.reads {u t : Sys} (h : SeenAt p u t) (hasc : SeqAsc u.visible)
    (hr : Reads {r | r ∈ t.visible} k p res) : res = answerFor (mapOf u.visible k) := by
  obtain ⟨rest, hrest, hlt⟩ := h.visible
  have hagree : AgreeAt p {r | r ∈ t.visible} {r | r ∈ u.visible} := by
    rw [hrest, setOf_mem_append]
    exact agreeAt_union_later hlt
  exact (reads_iff_mapOf hasc h.le).1 (hagree.reads.1 hr)

/-- A `Get` takes effect at one moment: its answer is what the records that were in the database at
some moment between its call and its return say, whatever else runs in between. -/
theorem reads_linearizable {id : Nat} {key : Bytes} (h : Run Steady {} s)
    (hs : step s (.getBegin id key none) = some s') (hp : Steady s (.getBegin id key none) s')
    (h' : Run (During id) s' t) (ht : step t (.getEnd id) = some t') :
    ∃ u a, Run (During id) s' u ∧ Run (During id) u t ∧ t'.answers = t.answers ++ [a] ∧
      a.call.id = id ∧ a.call.key = key ∧ a.result = answerFor (mapOf u.visible key) := by
  have hrun : Run Steady {} s' := .step h hs hp
  obtain ⟨call, rfl, rfl, hspan⟩ := Spans.begin h hs
  have hrunt : Run Steady {} t := hrun.trans (h'.mono fun _ _ _ hd => hd.steady)
  obtain ⟨hfind, u, hu, hut, hseen⟩ := hspan.run hrun h'
  have hrunu : Run Steady {} u := hrun.trans (hu.mono fun _ _ _ hd => hd.steady)
  have hget : t.getEnd call.id = some t' := ht
  rw [Sys.getEnd, hfind] at hget
  cases hget
  have hmem := List.mem_of_find?_eq_some hfind
  have hreads : Reads {r | r ∈ t.visible} call.key call.capture.seq
      ((call.capture.get call.key).run t.store).1 := by
    cases Good.run hrunt.steady.1 with
    | opened hS _ _ => exact ((Seen.run hrunt.steady.1 trivial).reads hS hmem).1
    | closed hi _ _ =>
      rw [hi.gets] at hmem
      cases hmem
  refine ⟨u, _, hu, hut, rfl, rfl, rfl, hseen.reads ?_ hreads⟩
  cases Good.run hrunu.steady.1 with
  | opened hS _ _ => exact hS.logged.seqAsc
  | closed hi hd _ =>
    rw [Sys.visible, hi.lead, hi.done]
    simpa using hd.ok.seqAsc

section Sample

def Act.goesOn : Act → Bool
  | kill => false
  | recover _ _ => false
  | powerLoss _ _ => false
  | powerLossData _ => false
  | getEnd _ => false
  | _ => true

theorem Act.goesOn_spec {a : Act} (h : a.goesOn = true) : a.internal ∧ ∀ id, a ≠ .getEnd id := by
  cases a with
  | kill => cases h
  | recover options path => cases h
  | powerLoss keep cut => cases h
  | powerLossData cut => cases h
  | getEnd id => cases h
  | _ => exact ⟨trivial, fun _ he => by cases he⟩

/-- The first entry of a batch of two is inserted. -/
def halfwayActs : List Act :=
  openActs ++ putActs [97] [1] ++ [.write 0 [⟨.kValue, [97], [2]⟩, ⟨.kValue, [97], [3]⟩] false,
    .begin false, .append 0, .syncLog, .insert]

set_option synthInstance.maxSize 2000 in
theorem reads_linearizable_sample : ∃ s s' t t', runActs Steady.check {} halfwayActs = some s ∧
    step s (.getBegin 7 [97] none) = some s' ∧
    runActs (fun s a => Steady.check s a && a.goesOn) s' (.insert :: .finish :: putActs [97] [4]) =
      some t ∧
    step t (.getEnd 7) = some t' ∧ ∃ u a, Run (During 7) s' u ∧ Run (During 7) u t ∧
      t'.answers = t.answers ++ [a] ∧ a.call.id = 7 ∧ a.call.key = [97] ∧
      a.result = answerFor (mapOf u.visible [97]) := by
  obtain ⟨s, hs, s', hb, hc, t, ht, t', he⟩ : ∃ s, runActs Steady.check {} halfwayActs = some s ∧
      ∃ s', step s (.getBegin 7 [97] none) = some s' ∧
      Steady.check s (.getBegin 7 [97] none) = true ∧
      ∃ t, runActs (fun s a => Steady.check s a && a.goesOn) s'
      (.insert :: .finish :: putActs [97] [4]) = some t ∧
      ∃ t', step t (.getEnd 7) = some t' ∧ t'.answers.map (fun a => a.result.toOption) =
      [some [3]] := by
    decide +kernel
  have hrun := Run.of_steady .refl hs
  have hp : Steady s (.getBegin 7 [97] none) s' := .of_check hc hb hrun.shallow
  have h' := Run.of_steady_with (fun _ => Act.goesOn_spec) (hrun.step hb hp) ht
  exact ⟨s, s', t, t', hs, hb, ht, he.1, reads_linearizable hrun hb hp
    (h'.mono fun _ _ _ hd => ⟨hd.1, hd.2.1, hd.2.2 7⟩) he.1⟩

end Sample

end LsmKv
