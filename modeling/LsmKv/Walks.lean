import LsmKv.IterCursor
import LsmKv.Library.StableMerge

namespace LsmKv
set_option autoImplicit true

namespace Iterator
variable {ι : Type} [Iterator ι]

/-- The entry a cursor hands out: `key()` and `value()` while it is `Valid()`. -/
def shown (c : ι) : Option Rec := if valid c then some (key c, value c) else none

/-- One call of a client; `Next` is only made on a valid cursor. -/
def call (c : ι) : CursorCall → StoreM ι
  | .seekToFirst => seekToFirst c
  | .seek target => seek target c
  | .next => if valid c then next c else pure c

def calls (c : ι) : List CursorCall → StoreM ι
  | [] => pure c
  | a :: as => do
    let c ← call c a
    calls c as

end Iterator

/-- What a call leaves of the sequence `es` when `l` was left. -/
def CursorCall.move (es l : List Rec) : CursorCall → List Rec
  | .seekToFirst => es
  | .seek target => es.filter fun e => compareInternalKey e.1 target != .lt
  | .next => l.tail

/-- Cursors over sorted sequences: `recs (source c)` is the sequence of the cursor `c`, `Q c` says
that it can be positioned, `R c l` that it stands on the first entry of `l`, and `A` holds of the
targets it can seek to. -/
structure Walks [Iterator ι] (I : Store → Prop) (A : Bytes → Prop) (source : ι → X)
    (recs : X → List Rec) (Q : ι → Prop) (R : ι → List Rec → Prop) : Prop where
  sorted : Q c → Sorted Rec.pos (recs (source c))
  ready : R c l → Q c
  left : R c l → Sorted Rec.pos l
  valid_iff : R c l → (Iterator.valid c = true ↔ l ≠ [])
  head : R c (e :: l) → Iterator.key c = e.1 ∧ Iterator.value c = e.2
  status : R c l → Iterator.status c = .ok
  seekToFirst : Q c → Ensures I (Iterator.seekToFirst c) fun d =>
    source d = source c ∧ R d (recs (source c))
  seek : Q c → A target → Ensures I (Iterator.seek target c) fun d =>
    source d = source c ∧ R d (seekTo Rec.pos (sortKey target) (recs (source c)))
  next : R c (e :: l) → Ensures I (Iterator.next c) fun d => source d = source c ∧ R d l

namespace Walks
variable {ι X : Type} [Iterator ι] {I : Store → Prop} {A : Bytes → Prop} {source : ι → X}
  {recs : X → List Rec} {Q : ι → Prop} {R : ι → List Rec → Prop} {c : ι} {l : List Rec}

theorem shown (hw : Walks I A source recs Q R) (h : R c l) : Iterator.shown c = l.head? := by
  rw [Iterator.shown]
  cases l with
  | nil =>
    have hv : Iterator.valid c = false := by simpa using hw.valid_iff h
    rw [hv]
    rfl
  | cons e l =>
    have hv : Iterator.valid c = true := (hw.valid_iff h).2 (List.cons_ne_nil e l)
    rw [hv, (hw.head h).1, (hw.head h).2]
    rfl

theorem call_next (hw : Walks I A source recs Q R) (h : R c l) :
    Ensures I (Iterator.call c .next) fun d => source d = source c ∧ R d l.tail := by
  rw [Iterator.call]
  cases l with
  | nil =>
    have hv : Iterator.valid c = false := by simpa using hw.valid_iff h
    rw [hv]
    exact Ensures.pure ⟨rfl, h⟩
  | cons e l =>
    have hv : Iterator.valid c = true := (hw.valid_iff h).2 (List.cons_ne_nil e l)
    rw [hv]
    exact hw.next h

/-- The calls of a client leave of the sequence what they say. -/
theorem moves (hw : Walks I A source recs Q R) (h : R c l) (as : List CursorCall)
    (ha : ∀ target, .seek target ∈ as → A target) :
    Ensures I (Iterator.calls c as) fun d =>
      source d = source c ∧ R d (as.foldl (CursorCall.move (recs (source c))) l) := by
  induction as generalizing c l with
  | nil => exact Ensures.pure ⟨rfl, h⟩
  | cons a as ih =>
    have hrest := fun target ht => ha target (List.mem_cons_of_mem a ht)
    have hcall : Ensures I (Iterator.call c a) fun d =>
        source d = source c ∧ R d (a.move (recs (source c)) l) := by
      cases a with
      | seekToFirst => exact hw.seekToFirst (hw.ready h)
      | seek target =>
        rw [CursorCall.move, ← seekTo_eq_filter_compare (hw.sorted (hw.ready h))]
        exact hw.seek (hw.ready h) (ha target List.mem_cons_self)
      | next => exact hw.call_next h
    refine hcall.bind fun d ⟨hd, hm⟩ => ?_
    rw [List.foldl_cons, ← hd]
    exact ih (hd ▸ hm) hrest

theorem calls (hw : Walks I A source recs Q R) (h : R c l) (as : List CursorCall)
    (ha : ∀ target, .seek target ∈ as → A target) :
    Ensures I (Iterator.calls c as) fun d => source d = source c ∧ ∃ m, R d m :=
  (hw.moves h as ha).imp fun _ hd => ⟨hd.1, _, hd.2⟩

theorem nexts (hw : Walks I A source recs Q R) (h : R c l) (k : Nat) :
    Ensures I (Iterator.calls c (List.replicate k .next)) fun d =>
      Iterator.shown d = l[k]? ∧ Iterator.status d = .ok := by
  induction k generalizing c l with
  | zero =>
    refine Ensures.pure ⟨?_, hw.status h⟩
    rw [hw.shown h, List.head?_eq_getElem?]
  | succ k ih =>
    rw [List.replicate_succ, Iterator.calls, ← List.getElem?_tail]
    exact (hw.call_next h).bind fun d hd => ih hd.2

theorem calls_append (c : ι) (as bs : List CursorCall) :
    Iterator.calls c (as ++ bs) = Iterator.calls c as >>= fun d => Iterator.calls d bs := by
  induction as generalizing c with
  | nil => rfl
  | cons a as ih =>
    rw [List.cons_append, Iterator.calls, Iterator.calls, bind_assoc]
    exact bind_congr fun d => ih d

theorem shown_seekToFirst (hw : Walks I A source recs Q R) (h : R c l) (as : List CursorCall)
    (ha : ∀ target, .seek target ∈ as → A target) (k : Nat) :
    Ensures I (Iterator.calls c (as ++ .seekToFirst :: List.replicate k .next)) fun d =>
      Iterator.shown d = (recs (source c))[k]? ∧ Iterator.status d = .ok := by
  rw [calls_append]
  refine (hw.calls h as ha).bind fun d ⟨hd, m, hm⟩ => ?_
  rw [Iterator.calls, ← hd]
  exact (hw.seekToFirst (hw.ready hm)).bind fun d' hd' => hw.nexts hd'.2 k

theorem shown_seek (hw : Walks I A source recs Q R) (h : R c l) (as : List CursorCall)
    (ha : ∀ target, .seek target ∈ as → A target) (target : Bytes) (ht : A target) (k : Nat) :
    Ensures I (Iterator.calls c (as ++ .seek target :: List.replicate k .next)) fun d =>
      Iterator.shown d =
          ((recs (source c)).filter fun e => compareInternalKey e.1 target != .lt)[k]? ∧
        Iterator.status d = .ok := by
  rw [calls_append]
  refine (hw.calls h as ha).bind fun d ⟨hd, m, hm⟩ => ?_
  rw [Iterator.calls, ← hd, ← seekTo_eq_filter_compare (hw.sorted (hw.ready hm))]
  exact (hw.seek (hw.ready hm) ht).bind fun d' hd' => hw.nexts hd'.2 k

end Walks

instance : Iterator TableIterator where
  valid := TableIterator.valid
  key := TableIterator.key
  value := TableIterator.value
  status := TableIterator.status
  seekToFirst := TableIterator.seekToFirst
  seek := fun target it => it.seek target
  next := TableIterator.next

theorem TableIterator.walks {T : Table → Prop} {M : Nat → MemTable} (hT : TablesOk T) :
    Walks (Store.Serves T M) (fun _ => True) TableIterator.table Table.recs
      (fun it => T it.table ∧ it.table.Good ∧ it.status = .ok)
      (fun it l => T it.table ∧ it.table.Good ∧ it.Rest l) where
  sorted h := h.2.1.ascending.sorted
  ready h := ⟨h.1, h.2.1, h.2.2.ok⟩
  left h := (h.2.1.ascending.sublist h.2.2.suffix.sublist).sorted
  valid_iff h := h.2.2.valid_iff
  head h := h.2.2.head
  status h := h.2.2.ok
  seekToFirst := by
    intro it h
    refine (rest_seekToFirst hT h.1 h.2.1 h.2.2).imp fun r hr => ?_
    exact ⟨hr.1, by rw [hr.1]; exact ⟨h.1, h.2.1, hr.2⟩⟩
  seek := by
    intro it target h _
    refine (rest_seek hT h.1 h.2.1 h.2.2 target).imp fun r hr => ?_
    exact ⟨hr.1, by rw [hr.1]; exact ⟨h.1, h.2.1, hr.2⟩⟩
  next := by
    intro it e l h
    refine (h.2.2.next hT h.1).imp fun r hr => ?_
    exact ⟨hr.1, by rw [hr.1]; exact ⟨h.1, h.2.1, hr.2⟩⟩

theorem tableFits_of_lengths {options : Options} {es : List Rec}
    (hblocks : ∀ g ∈ cutBlocks options [] es,
      (blockBytes options.blockRestartInterval g).length < 2 ^ 32)
    (hfile : (tableFile options es).length < 2 ^ 63) : TableFits options es where
  keys := by
    intro e he
    rw [← List.nil_append es, ← flatten_cutBlocks options [] es] at he
    obtain ⟨g, hg, heg⟩ := List.mem_flatten.1 he
    exact lt_of_le_of_lt (BlockReader.length_key_le_blockBytes _ heg) (hblocks g hg)
  blocks := hblocks
  file := hfile

theorem tableFits_of_file {options : Options} {es : List Rec}
    (hfile : (tableFile options es).length < 2 ^ 32) : TableFits options es := by
  refine tableFits_of_lengths (fun g hg => ?_) (hfile.trans (by norm_num))
  refine lt_of_le_of_lt ?_ hfile
  have hblock : (blockBytes options.blockRestartInterval g).length ≤
      (TableBuilder.dataRegion options.blockRestartInterval (cutBlocks options [] es)).length := by
    have hmem : TableBuilder.withTrailer (blockBytes options.blockRestartInterval g) ∈
        (cutBlocks options [] es).map fun g =>
          TableBuilder.withTrailer (blockBytes options.blockRestartInterval g) :=
      List.mem_map_of_mem hg
    have hle := (List.sublist_flatten_of_mem hmem).length_le
    rw [TableBuilder.length_withTrailer] at hle
    exact (Nat.le_add_right _ _).trans hle
  rw [tableFile_eq, List.length_append]
  exact hblock.trans (Nat.le_add_right _ _)

theorem openFile_good (path : String) (number : Nat) (options : Options) (hfit : TableFits o es)
    (ha : Ascending Rec.pos es) : ∃ t, Table.openFile path (tableFile o es) options number = .ok t ∧
      t.number = number ∧ t.Good ∧ t.recs = es := by
  obtain ⟨t, ht, _, hn, hb⟩ := Table.openFile_tableFile path number options hfit
  refine ⟨t, ht, hn, ⟨_, _, hb, ?_⟩, ?_⟩
  · rw [flatten_cutBlocks, List.nil_append]
    exact ha
  · rw [hb.recs, flatten_cutBlocks, List.nil_append]

theorem tablesOk_of_good {opened : List Table} (hg : ∀ t ∈ opened, t.Good)
    (hn : (opened.map Table.number).Nodup) : TablesOk (· ∈ opened) where
  number_inj ht ht' he := List.inj_on_of_nodup_map hn ht ht' he
  offsets ht := by
    obtain ⟨_, _, hb, _⟩ := hg _ ht
    exact hb.offsets

/-- Two versions of a key and the deletion of another. -/
def threeRecs : List Rec :=
  [Rec.encode [97] 3 .kValue [99], Rec.encode [97] 1 .kValue [98], Rec.encode [98] 2 .kDeletion []]

theorem ascending_threeRecs : Ascending Rec.pos threeRecs := ascending_of_compare (by decide)

theorem length_tableFile_threeRecs : (tableFile {} threeRecs).length < 2 ^ 32 := by
  decide +kernel

/-- A block for each entry. -/
def smallBlocks : Options := { blockSizeBytes := 1 }

theorem cutBlocks_smallBlocks : cutBlocks smallBlocks [] threeRecs = threeRecs.map ([·]) := by
  decide +kernel

theorem tableFits_smallBlocks : TableFits smallBlocks threeRecs :=
  tableFits_of_file (by decide +kernel)

/-- A table opens and is read back as it was built, from wherever earlier calls left the
iterator and whatever its store has cached. -/
theorem table_round_trip (options readOptions : Options) (es : List Rec) (path : String)
    (number : Nat) (hasc : es.Pairwise fun a b => compareInternalKey a.1 b.1 = .lt)
    (hblocks : ∀ g ∈ cutBlocks options [] es,
      (blockBytes options.blockRestartInterval g).length < 2 ^ 32)
    (hfile : (tableFile options es).length < 2 ^ 63) :
    (∃ t, Table.openFile path (tableFile options es) readOptions number = .ok t ∧
      TablesOk (· = t) ∧ ∀ T M, TablesOk T → T t → ∀ as k,
        Ensures (Store.Serves T M)
          (Iterator.calls ({ table := t } : TableIterator)
            (as ++ .seekToFirst :: List.replicate k .next))
          (fun it => Iterator.shown it = es[k]? ∧ Iterator.status it = .ok) ∧
        ∀ target, Ensures (Store.Serves T M)
          (Iterator.calls ({ table := t } : TableIterator)
            (as ++ .seek target :: List.replicate k .next))
          (fun it => Iterator.shown it =
              (es.filter fun e => compareInternalKey e.1 target != .lt)[k]? ∧
            Iterator.status it = .ok)) ∧
      let b := ((TableBuilder.new options).addAll es).finish
      b.fileSize = b.file.length ∧ b.smallestKey = firstKeyOf es ∧ b.largestKey = lastKeyOf es := by
  obtain ⟨t, hopen, _, _, hb⟩ := Table.openFile_tableFile path number readOptions
    (tableFits_of_lengths hblocks hfile)
  have hflat : (cutBlocks options [] es).flatten = es := by
    rw [flatten_cutBlocks, List.nil_append]
  have hgood : t.Good := ⟨_, _, hb, by rw [hflat]; exact ascending_of_compare hasc⟩
  have hrecs : t.recs = es := by rw [hb.recs, hflat]
  have honly : TablesOk (· = t) :=
    ⟨fun h h' _ => h.trans h'.symm, fun h => by rw [h]; exact hb.offsets⟩
  refine ⟨⟨t, hopen, honly, fun T M hT ht as k => ?_⟩, TableBuilder.finish_fileSize options es,
    TableBuilder.finish_keys options es⟩
  have hrest : TableIterator.Rest { table := t } [] :=
    ⟨_, _, hb, by rw [hflat]; exact ascending_of_compare hasc, rfl, rfl⟩
  have hw := TableIterator.walks (M := M) hT
  have hfirst := hw.shown_seekToFirst ⟨ht, hgood, hrest⟩ as (fun _ _ => trivial) k
  have hseek := fun target =>
    hw.shown_seek ⟨ht, hgood, hrest⟩ as (fun _ _ => trivial) target trivial k
  rw [hrecs] at hfirst
  simp only [hrecs] at hseek
  exact ⟨hfirst, hseek⟩

/-- `Seek` for a version that is not there lands on the one below it, from where `Next` crosses into
the next block. -/
theorem table_round_trip_threeBlocks : ∃ t,
    cutBlocks smallBlocks [] threeRecs = threeRecs.map ([·]) ∧
    Table.openFile "000001.sst" (tableFile smallBlocks threeRecs) {} 1 = .ok t ∧
    (let shown as := Iterator.shown ((Iterator.calls ({ table := t } : TableIterator) as).run {}).1
    let target := encodeInternalKey [97] 2 .kValue
    shown [.seekToFirst] = some (Rec.encode [97] 3 .kValue [99]) ∧
      shown [.seekToFirst, .next] = some (Rec.encode [97] 1 .kValue [98]) ∧
      shown [.seekToFirst, .next, .seek target, .next] = some (Rec.encode [98] 2 .kDeletion []) ∧
      shown [.seek target, .next, .next] = none) ∧
    ((TableBuilder.new smallBlocks).addAll threeRecs).finish.largestKey =
      encodeInternalKey [98] 2 .kDeletion := by
  have hfit := tableFits_smallBlocks
  obtain ⟨⟨t, hopen, hT, hrun⟩, -, -, hlargest⟩ := table_round_trip smallBlocks {} threeRecs
    "000001.sst" 1 (by decide) hfit.blocks hfit.file
  have hs : Store.Serves (· = t) (fun _ => {}) {} := ⟨rfl, fun _ h => (by cases h), rfl⟩
  have hcalls := hrun (· = t) (fun _ => {}) hT rfl
  refine ⟨t, cutBlocks_smallBlocks, hopen,
    ⟨((hcalls [] 0).1 {} hs).1.1, ((hcalls [] 1).1 {} hs).1.1, ?_, ?_⟩, hlargest⟩
  · exact ((hcalls [.seekToFirst, .next] 1).2 _ {} hs).1.1.trans (by decide)
  · exact ((hcalls [] 2).2 _ {} hs).1.1.trans (by decide)

end LsmKv
