import LsmKv.Store

namespace LsmKv
set_option autoImplicit true

/-- File numbers name one table each, and offsets one block of it. -/
structure TablesOk (T : Table → Prop) : Prop where
  number_inj : T t → T t' → t.number = t'.number → t = t'
  offsets : T t → t.index.Pairwise fun a b => a.offset < b.offset

/-- The memtables are `M`, the cache holds blocks of the tables `T`, as their files hold them, and
no read fails. -/
structure Store.Serves (T : Table → Prop) (M : Nat → MemTable) (s : Store) : Prop where
  mems : s.mems = M
  cache : ∀ c, s.cache = some c → c.Caches fun n off v => (∃ t, T t ∧ t.number = n) ∧
    ∀ t, T t → t.number = n → ∀ e ∈ t.index, e.offset = off → t.readFile e = .ok v
  faults : s.faults = []

theorem Store.Serves.add {T : Table → Prop} {M : Nat → MemTable} {s : Store}
    (h : s.Serves T M) (t : Table)
    (hn : ∀ t', T t' → t'.number ≠ t.number) : s.Serves (fun t' => T t' ∨ t' = t) M := by
  refine ⟨h.mems, fun c hc => (h.cache c hc).imp ?_, h.faults⟩
  rintro n off v ⟨⟨t₀, ht₀, hn₀⟩, hv⟩
  refine ⟨⟨t₀, .inl ht₀, hn₀⟩, ?_⟩
  rintro t' (ht' | rfl) hn' e he ho
  · exact hv t' ht' hn' e he ho
  · exact absurd (hn₀.trans hn'.symm) (hn t₀ ht₀)

variable {T : Table → Prop} {M : Nat → MemTable} {t : Table} {interval : Int}
  {gs : List (List Rec)} {k : Bytes} {s : Nat}

theorem TablesOk.offset_inj (hT : TablesOk T) (ht : T t) (he : e ∈ t.index) (he' : e' ∈ t.index)
    (h : e.offset = e'.offset) : e = e' := by
  have hp := hT.offsets ht
  have hasc : Ascending IndexEntry.offset t.index := hp
  exact hasc.inj he he' h

/-- With a sound cache a block read returns the block of the file. -/
theorem Table.readBlock_ensures (hT : TablesOk T) (ht : T t) (he : e ∈ t.index)
    (hr : t.readFile e = .ok v) : Ensures (Store.Serves T M) (t.readBlock e) (· = .ok v) := by
  intro st hst
  obtain ⟨hm, hc, hf⟩ := hst
  have hP : (∃ t', T t' ∧ t'.number = t.number) ∧ ∀ t', T t' → t'.number = t.number →
      ∀ e' ∈ t'.index, e'.offset = e.offset → t'.readFile e' = .ok v := by
    refine ⟨⟨t, ht, rfl⟩, ?_⟩
    intro t' ht' hn e' he' ho
    obtain rfl := hT.number_inj ht' ht hn
    rw [hT.offset_inj ht' he' he ho, hr]
  have hfetch : (t.fetch e).run st = (.ok v, st) := by
    rw [Table.fetch]
    simp only [StateT.run_bind, StateT.run_get, pure_bind, hf, StateT.run_pure, hr]
    rfl
  cases hcache : st.cache with
  | none =>
    have hrun : (t.readBlock e).run st = (.ok v, st) := by
      rw [Table.readBlock]
      simp only [StateT.run_bind, StateT.run_get, pure_bind, hcache]
      exact hfetch
    rw [hrun]
    exact ⟨rfl, hm, hc, hf⟩
  | some c =>
    obtain ⟨hhit, hkeep⟩ := (hc c hcache).lookup t.number e.offset
    cases hl : c.lookup t.number e.offset with
    | mk found c' =>
      rw [hl] at hhit hkeep
      cases found with
      | some v' =>
        have hrun : (t.readBlock e).run st = (.ok v', { st with cache := some c' }) := by
          rw [Table.readBlock]
          simp only [StateT.run_bind, StateT.run_get, pure_bind, hcache, hl]
          rfl
        rw [hrun]
        refine ⟨?_, hm, fun c'' h => ?_, hf⟩
        · have := (hhit v' rfl).2 t ht rfl e he rfl
          rw [hr] at this
          exact this.symm
        · cases h
          exact hkeep
      | none =>
        obtain ⟨hv, hins⟩ := hkeep.insert (v := v) hP
        have hrun : (t.readBlock e).run st = (.ok (c'.insert t.number e.offset v).1,
            { st with cache := some (c'.insert t.number e.offset v).2 }) := by
          rw [Table.readBlock]
          simp only [StateT.run_bind, StateT.run_get, pure_bind, hcache, hl, hfetch]
          rfl
        rw [hrun]
        refine ⟨?_, hm, fun c'' h => ?_, hf⟩
        · have := hv.2 t ht rfl e he rfl
          rw [hr] at this
          exact this.symm
        · cases h
          exact hins

theorem pos_le_lastKeyOf {g : List Rec} (h : Ascending Rec.pos g) (ha : a ∈ g) :
    a.pos ≤ sortKey (lastKeyOf g) := by
  induction g using List.reverseRecOn with
  | nil => cases ha
  | append_singleton g e _ =>
    rw [lastKeyOf_append_singleton]
    rcases List.mem_append.1 ha with ha | ha
    · exact ((ascending_append.1 h).2.2 a ha e List.mem_cons_self).le
    · rw [List.mem_singleton.1 ha]
      exact le_refl _

theorem exists_pos_lastKeyOf {g : List Rec} (h : g ≠ []) : ∃ a ∈ g, a.1 = lastKeyOf g := by
  induction g using List.reverseRecOn with
  | nil => exact absurd rfl h
  | append_singleton g e _ =>
    exact ⟨e, by simp, (lastKeyOf_append_singleton g e).symm⟩

/-- Skipping the blocks that end before the target skips only entries before it. -/
theorem Table.Blocks.index_drop (h : t.Blocks interval gs) (hasc : Ascending Rec.pos gs.flatten)
    (target : Bytes) :
    ∃ pre post, gs = pre ++ post ∧ t.blocksFrom target = pre.length ∧
      (∀ a ∈ pre.flatten, a.pos < sortKey target) ∧
      (∀ g post', post = g :: post' → seekTo Rec.pos (sortKey target) g ≠ []) := by
  set p : List Rec → Bool := fun g => decide (sortKey (lastKeyOf g) < sortKey target) with hp
  have hindex : ∀ (es : List IndexEntry) (gs : List (List Rec)), List.Forall₂ (fun e g =>
      t.readFile e = .ok (blockBytes interval g) ∧ e.lastKey = lastKeyOf g) es gs →
      es.map (fun e => compareInternalKey e.lastKey target == .lt) = gs.map p := by
    intro es gs hf
    induction hf with
    | nil => rfl
    | cons hd _ ih =>
      rw [List.map_cons, List.map_cons, ih, hd.2, hp]
      congr 1
      rw [Bool.eq_iff_iff, beq_iff_eq, compareInternalKey_lt, decide_eq_true_iff]
  have hmap := hindex _ _ h.index
  have hbound : t.blocksFrom target = lowerBoundOf p gs := by
    have hlen : t.index.length = gs.length := h.index.length_eq
    rw [Table.blocksFrom, lowerBoundOf, lowerBoundOf, hlen]
    congr 1
    funext i
    rw [← List.getElem?_map, hmap, List.getElem?_map]
  have hsplit : gs.Pairwise fun a b => p b = true → p a = true := by
    have hne := h.ne_nil
    clear hbound hmap h hindex
    induction gs with
    | nil => exact .nil
    | cons g gs ih =>
      obtain ⟨_, hgs, hlt⟩ := ascending_append.1 hasc
      refine List.pairwise_cons.2 ⟨fun b hb hpb => ?_,
        ih hgs fun x hx => hne x (List.mem_cons_of_mem g hx)⟩
      obtain ⟨x, hx, hxk⟩ := exists_pos_lastKeyOf (hne g List.mem_cons_self)
      obtain ⟨y, hy, hyk⟩ := exists_pos_lastKeyOf (hne b (List.mem_cons_of_mem g hb))
      have hxy := hlt x hx y (List.mem_flatten.2 ⟨b, hb, hy⟩)
      rw [hp, decide_eq_true_iff] at hpb ⊢
      rw [Rec.pos, Rec.pos, hxk, hyk] at hxy
      exact lt_trans hxy hpb
  refine ⟨gs.takeWhile p, gs.dropWhile p, (List.takeWhile_append_dropWhile ..).symm,
    hbound.trans (lowerBoundOf_eq hsplit), ?_, ?_⟩
  · intro a ha
    obtain ⟨g, hg, hag⟩ := List.mem_flatten.1 ha
    have hpg : p g = true := List.mem_takeWhile_imp hg
    rw [hp, decide_eq_true_iff] at hpg
    have hgasc : Ascending Rec.pos g := by
      refine hasc.sublist ?_
      exact List.sublist_flatten_of_mem ((List.takeWhile_prefix p).subset hg)
    exact lt_of_le_of_lt (pos_le_lastKeyOf hgasc hag) hpg
  · intro g post' hpost hnil
    have hpg : p g = false := by
      by_contra hc
      have hne : gs.dropWhile p ≠ [] := by rw [hpost]; simp
      have := List.head_dropWhile_not p hne
      simp only [hpost, List.head_cons] at this
      exact hc this
    have hg : g ∈ gs := by
      have hm : g ∈ gs.dropWhile p := by rw [hpost]; exact List.mem_cons_self
      exact (List.dropWhile_suffix p).subset hm
    obtain ⟨x, hx, hxk⟩ := exists_pos_lastKeyOf (h.ne_nil g hg)
    have hgasc : Ascending Rec.pos g := hasc.sublist (List.sublist_flatten_of_mem hg)
    have hmem : x ∈ seekTo Rec.pos (sortKey target) g := by
      refine hgasc.mem_seekTo.2 ⟨hx, ?_⟩
      rw [hp, decide_eq_false_iff_not, not_lt] at hpg
      rwa [Rec.pos, hxk]
    rw [hnil] at hmem
    cases hmem

theorem Table.Blocks.forall₂_drop (h : t.Blocks interval (pre ++ post)) :
    List.Forall₂ (fun e g => t.readFile e = .ok (blockBytes interval g) ∧ e.lastKey = lastKeyOf g)
      (t.index.drop pre.length) post := by
  have hd := List.forall₂_drop pre.length h.index
  rwa [List.drop_left' rfl] at hd

theorem Table.Blocks.reads (h : t.Blocks interval gs) (hg : g ∈ gs) :
    BlockReader.Reads (BlockBuilder.new interval).restartInterval g
      (BlockReader.new (blockBytes interval g)) :=
  BlockReader.reads_new interval g (h.fits g hg) (h.keys g hg)

theorem Table.getInBlock_eq (h : t.Blocks interval gs) (hg : g ∈ gs) (hasc : Ascending Rec.pos g)
    (hs : seekTo Rec.pos (sortKey target) g = a :: m) :
    getInBlock (blockBytes interval g) k target =
      if a.userKey = k then some a.answer else none := by
  have hr := h.reads hg
  obtain ⟨hseek, hat⟩ := hr.seek hasc target
  rw [hs] at hat
  obtain ⟨hv, hk, hval, _⟩ := hat
  rw [getInBlock]
  simp only [hr.ok, hseek.ok, hv, hk, hval, Status.isOk, Status.ok, Rec.userKey, Rec.answer,
    Rec.isDeletion]
  by_cases hu : extractUserKey a.1 = k
  · simp only [hu]
    by_cases hd : extractValueType a.1 = ValueType.kDeletion.code <;> simp [hd]
  · simp [hu]

/-- A table answers a lookup from the version a seek over all its entries would find. -/
theorem Table.get_ensures (hT : TablesOk T) (ht : T t) (hb : t.Blocks interval gs)
    (hasc : Ascending Rec.pos gs.flatten) (k : Bytes) (s : Nat) :
    Ensures (Store.Serves T M) (t.get k s)
      (· = (findVersion gs.flatten k s).map Rec.answer) := by
  rw [Table.get]
  by_cases hbloom : BloomFilter.mayContain t.bloom k = true
  · simp only [hbloom, Bool.not_true, Bool.false_eq_true, if_false]
    obtain ⟨pre, post, rfl, hlen, hpre, hpost⟩ := hb.index_drop hasc (lookupKey k s)
    rw [hlen, findVersion, List.flatten_append, seekTo_append_of_lt hpre]
    have hf := hb.forall₂_drop
    cases post with
    | nil =>
      rw [List.forall₂_nil_right_iff.1 hf]
      exact Ensures.pure rfl
    | cons g post =>
      obtain ⟨e, es, ⟨hread, _⟩, _, he⟩ := List.forall₂_cons_right_iff.1 hf
      have hg : g ∈ pre ++ g :: post := by simp
      have hmem : e ∈ t.index := by
        have : e ∈ t.index.drop pre.length := by rw [he]; exact List.mem_cons_self
        exact List.mem_of_mem_drop this
      have hne := hpost g post rfl
      rw [List.flatten_cons, seekTo_append_of_ne_nil hne, he]
      refine (Table.readBlock_ensures hT ht hmem hread).bind fun r hr => ?_
      subst hr
      refine Ensures.pure ?_
      cases hs : seekTo Rec.pos (sortKey (lookupKey k s)) g with
      | nil => exact absurd hs hne
      | cons a m =>
        have hgasc : Ascending Rec.pos g := hasc.sublist (List.sublist_flatten_of_mem hg)
        rw [Table.getInBlock_eq hb hg hgasc hs, List.cons_append]
        by_cases hu : a.userKey = k <;> simp [hu]
  · simp only [hbloom, Bool.not_false, if_true]
    refine Ensures.pure ?_
    cases hv : findVersion gs.flatten k s with
    | none => rfl
    | some r =>
      obtain ⟨hm, hk⟩ := findVersion_mem hv
      obtain ⟨g, hg, hr⟩ := List.mem_flatten.1 hm
      have := hb.filter g hg r hr
      rw [hk] at this
      exact absurd this hbloom

namespace TableIterator

/-- The iterator stands on the first of the entries `l` of its table. -/
def At (interval : Int) (gs : List (List Rec)) (it : TableIterator) : List Rec → Prop
  | [] => it.valid = false
  | e :: l => it.valid = true ∧ ∃ pre g post m, gs = pre ++ g :: post ∧
      it.blockIndex = pre.length ∧ l = m ++ post.flatten ∧ e :: m <:+ g ∧
      it.reader.Reads (BlockBuilder.new interval).restartInterval g ∧
      it.reader.At (BlockBuilder.new interval).restartInterval (e :: m)

/-- What `LoadBlock` leaves to read from the blocks `gs` on. -/
def loaded (target : Option Bytes) : List (List Rec) → List Rec
  | [] => []
  | g :: gs => (match target with
    | none => g
    | some t => seekTo Rec.pos (sortKey t) g) ++ gs.flatten

theorem loaded_none (gs : List (List Rec)) : loaded none gs = gs.flatten := by
  cases gs <;> rfl

variable {it : TableIterator} {pre post : List (List Rec)}

theorem loadBlocks_ensures (hT : TablesOk T) (ht : T it.table)
    (hb : it.table.Blocks interval (pre ++ post))
    (hasc : Ascending Rec.pos (pre ++ post).flatten) (hok : it.status = .ok)
    (target : Option Bytes) :
    Ensures (Store.Serves T M) (it.loadBlocks target (it.table.index.drop pre.length)) fun r =>
      r.table = it.table ∧ r.status = .ok ∧ r.At interval (pre ++ post) (loaded target post) := by
  induction post generalizing it pre target with
  | nil =>
    rw [List.forall₂_nil_right_iff.1 hb.forall₂_drop]
    exact Ensures.pure ⟨rfl, hok, rfl⟩
  | cons g post ih =>
    obtain ⟨e, es, ⟨hread, _⟩, _, he⟩ := List.forall₂_cons_right_iff.1 hb.forall₂_drop
    have hg : g ∈ pre ++ g :: post := by simp
    have hlen : it.table.index.length = pre.length + (post.length + 1) := by
      rw [hb.index.length_eq]
      simp
    have hes : it.table.index.drop (pre ++ [g]).length = es := by
      rw [List.length_append, ← List.drop_drop, he]
      rfl
    have hesl : es.length = post.length := by
      rw [← hes, List.length_drop, hlen, List.length_append, List.length_singleton]
      omega
    have hmem : e ∈ it.table.index := by
      have : e ∈ it.table.index.drop pre.length := by rw [he]; exact List.mem_cons_self
      exact List.mem_of_mem_drop this
    have hgasc : Ascending Rec.pos g := hasc.sublist (List.sublist_flatten_of_mem hg)
    have hr := hb.reads hg
    rw [he, loadBlocks]
    refine (Table.readBlock_ensures hT ht hmem hread).bind fun r hr' => ?_
    subst hr'
    simp only [hr.ok, Status.isOk_ok, Bool.not_true, Bool.false_eq_true, if_false]
    -- where the reader ends up, whether it seeks or starts at the first entry
    obtain ⟨reader, m, hreader, hloaded, hsuf, hreads, hat⟩ : ∃ reader m,
        position (BlockReader.new (blockBytes interval g)) target = reader ∧
        loaded target (g :: post) = m ++ post.flatten ∧ m <:+ g ∧
        reader.Reads (BlockBuilder.new interval).restartInterval g ∧
        reader.At (BlockBuilder.new interval).restartInterval m := by
      cases target with
      | none => exact ⟨_, g, rfl, rfl, List.suffix_refl g, hr.seekToFirst⟩
      | some t => exact ⟨_, _, rfl, rfl, seekTo_suffix _ g, hr.seek hgasc t⟩
    rw [hreader, hloaded]
    simp only [hreads.ok, Status.isOk_ok, Bool.not_true, Bool.false_eq_true, if_false]
    cases m with
    | nil =>
      have hv : reader.valid = false := hat
      simp only [hv, Bool.false_eq_true, if_false]
      have hb' : it.table.Blocks interval ((pre ++ [g]) ++ post) := by simpa using hb
      have hrec := @ih { it with
        blockIndex := it.table.index.length - (es.length + 1), reader := reader, status := .ok }
        _ ht hb' (by simpa using hasc) rfl none
      simp only [hes, loaded_none, List.append_assoc, List.singleton_append] at hrec
      exact hrec
    | cons a m =>
      have hv : reader.valid = true := hat.1
      simp only [hv, if_true]
      refine Ensures.pure ⟨rfl, rfl, rfl, pre, g, post, m, rfl, ?_, rfl, hsuf, hreads, hat⟩
      simp only [hlen, hesl]
      omega

theorem loadBlock_ensures (hT : TablesOk T) (ht : T it.table)
    (hb : it.table.Blocks interval (pre ++ post))
    (hasc : Ascending Rec.pos (pre ++ post).flatten) (hok : it.status = .ok)
    (hi : it.blockIndex = pre.length) (target : Option Bytes) :
    Ensures (Store.Serves T M) (it.loadBlock target) fun r =>
      r.table = it.table ∧ r.status = .ok ∧ r.At interval (pre ++ post) (loaded target post) := by
  rw [loadBlock, hi]
  refine Ensures.ite (fun _ => loadBlocks_ensures hT ht hb hasc hok target) fun hge => ?_
  have hnil : post = [] := by
    have hl := hb.index.length_eq
    rw [List.length_append] at hl
    exact List.length_eq_zero_iff.1 (by omega)
  subst hnil
  exact Ensures.pure ⟨rfl, hok, rfl⟩

/-- The iterator is sound, and has the entries `l` left. -/
structure Cursor (interval : Int) (gs : List (List Rec)) (it : TableIterator) (l : List Rec) :
    Prop where
  ok : it.status = .ok
  at_list : it.At interval gs l

theorem seekToFirst_ensures (hT : TablesOk T) (ht : T it.table) (hb : it.table.Blocks interval gs)
    (hasc : Ascending Rec.pos gs.flatten) (hok : it.status = .ok) :
    Ensures (Store.Serves T M) it.seekToFirst fun r =>
      r.table = it.table ∧ r.Cursor interval gs gs.flatten := by
  have h := @loadBlock_ensures T M interval { it with blockIndex := 0 } [] gs hT ht hb
    hasc hok rfl none
  refine h.imp fun r ⟨h1, h2, h3⟩ => ⟨h1, h2, ?_⟩
  rwa [loaded_none] at h3

theorem seek_ensures (hT : TablesOk T) (ht : T it.table) (hb : it.table.Blocks interval gs)
    (hasc : Ascending Rec.pos gs.flatten) (hok : it.status = .ok) (target : Bytes) :
    Ensures (Store.Serves T M) (it.seek target) fun r =>
      r.table = it.table ∧ r.Cursor interval gs (seekTo Rec.pos (sortKey target) gs.flatten) := by
  obtain ⟨pre, post, rfl, hlen, hpre, hpost⟩ := hb.index_drop hasc target
  have hl : loaded (some target) post =
      seekTo Rec.pos (sortKey target) (pre ++ post).flatten := by
    rw [List.flatten_append, seekTo_append_of_lt hpre]
    cases post with
    | nil => rfl
    | cons g post => rw [List.flatten_cons, seekTo_append_of_ne_nil (hpost g post rfl)]; rfl
  rw [seek, hlen]
  have h := @loadBlock_ensures T M interval { it with blockIndex := pre.length } pre post hT ht hb
    hasc hok rfl (some target)
  refine h.imp fun r ⟨h1, h2, h3⟩ => ⟨h1, h2, ?_⟩
  rwa [hl] at h3

theorem next_ensures (hT : TablesOk T) (ht : T it.table) (hb : it.table.Blocks interval gs)
    (hasc : Ascending Rec.pos gs.flatten) (h : it.Cursor interval gs l) :
    Ensures (Store.Serves T M) it.next fun r =>
      r.table = it.table ∧ r.Cursor interval gs l.tail := by
  cases l with
  | nil =>
    have hv : it.valid = false := h.at_list
    simp only [next, hv, Bool.not_false, if_true]
    exact Ensures.pure ⟨rfl, h⟩
  | cons e l =>
    obtain ⟨hv, pre, g, post, m, rfl, hi, rfl, hsuf, hreads, hat⟩ := h.at_list
    obtain ⟨hreads', hat'⟩ := hreads.advance (fun x hx => hsuf.subset hx) hat
    simp only [next, hv, Bool.not_true, Bool.false_eq_true, if_false, hreads'.ok, Status.isOk_ok,
      List.tail_cons] at hat' ⊢
    cases m with
    | nil =>
      have hv' : it.reader.advance.valid = false := hat'
      simp only [hv', Bool.false_eq_true, if_false]
      have hb' : it.table.Blocks interval ((pre ++ [g]) ++ post) := by simpa using hb
      have hl := @loadBlock_ensures T M interval
        { it with reader := it.reader.advance, blockIndex := it.blockIndex + 1, valid := true }
        (pre ++ [g]) post
        hT ht hb' (by simpa using hasc) h.ok (by simp [hi]) none
      simp only [loaded_none, List.append_assoc, List.singleton_append] at hl
      exact hl.imp fun r ⟨h1, h2, h3⟩ => ⟨h1, h2, h3⟩
    | cons a m =>
      have hv' : it.reader.advance.valid = true := hat'.1
      simp only [hv', if_true]
      have hsuf' : a :: m <:+ g := (List.suffix_cons e (a :: m)).trans hsuf
      exact Ensures.pure ⟨rfl, h.ok, rfl, pre, g, post, m, rfl, hi, rfl, hsuf', hreads', hat'⟩

theorem Cursor.key_value (h : it.Cursor interval gs (e :: l)) :
    it.valid = true ∧ it.key = e.1 ∧ it.value = e.2 := by
  obtain ⟨hv, _, _, _, _, _, _, _, _, _, hat⟩ := h.at_list
  exact ⟨hv, hat.2.1, hat.2.2.1⟩

end TableIterator

/-- The entries from a reader's position on. -/
def BlockReader.collect : Nat → BlockReader → List Rec
  | 0, _ => []
  | fuel + 1, r => if r.valid then (r.key, r.value) :: collect fuel r.advance else []

def blockRecs (contents : Bytes) : List Rec :=
  (BlockReader.new contents).seekToFirst.collect contents.length

/-- The contents of a table, block by block. -/
def Table.recs (t : Table) : List Rec :=
  t.index.flatMap fun e =>
    match t.readFile e with
    | .ok contents => blockRecs contents
    | .error _ => []

theorem BlockReader.Reads.collect {r : BlockReader} (h : r.Reads n es) (hl : ∀ e ∈ l, e ∈ es)
    (ha : r.At n l) (hf : l.length ≤ fuel) : r.collect fuel = l := by
  induction fuel generalizing r l with
  | zero => rw [List.length_eq_zero_iff.1 (Nat.le_zero.1 hf)]; rfl
  | succ fuel ih =>
    cases l with
    | nil =>
      have hv : r.valid = false := ha
      simp [BlockReader.collect, hv]
    | cons e l =>
      obtain ⟨h', ha'⟩ := h.advance hl ha
      rw [BlockReader.collect, if_pos ha.1, ha.2.1, ha.2.2.1,
        ih h' (fun x hx => hl x (List.mem_cons_of_mem e hx)) ha' (Nat.le_of_succ_le_succ hf)]

theorem length_le_blockBytes (interval : Int) (g : List Rec) :
    g.length ≤ (blockBytes interval g).length := by
  rw [blockBytes, BlockBuilder.finish, BlockBuilder.addAll_buffer, List.length_append,
    List.length_append]
  have h := BlockReader.length_le_body (BlockBuilder.new interval).restartInterval
    (BlockBuilder.new interval).sinceRestart (BlockBuilder.new interval).lastKey g
  omega

theorem Table.Blocks.recs (h : t.Blocks interval gs) : t.recs = gs.flatten := by
  have hall : ∀ g ∈ gs, blockRecs (blockBytes interval g) = g := by
    intro g hg
    obtain ⟨hr, ha⟩ := (h.reads hg).seekToFirst
    exact hr.collect (fun e he => he) ha (length_le_blockBytes interval g)
  have hf := h.index
  rw [Table.recs]
  generalize t.index = index at hf
  clear h
  induction hf with
  | nil => rfl
  | cons hd _ ih =>
    rw [List.flatMap_cons, List.flatten_cons, hd.1,
      ih fun g hg => hall g (List.mem_cons_of_mem _ hg)]
    simp only [hall _ List.mem_cons_self]

/-- The table serves its blocks, and they hold a run. -/
def Table.Good (t : Table) : Prop :=
  ∃ interval gs, t.Blocks interval gs ∧ Ascending Rec.pos gs.flatten

theorem Table.Good.ascending (h : t.Good) : Ascending Rec.pos t.recs := by
  obtain ⟨_, _, hb, ha⟩ := h
  rwa [hb.recs]

theorem Table.Good.get_ensures (h : t.Good) (hT : TablesOk T) (ht : T t) (k : Bytes) (s : Nat) :
    Ensures (Store.Serves T M) (t.get k s) (· = (findVersion t.recs k s).map Rec.answer) := by
  obtain ⟨_, _, hb, ha⟩ := h
  rw [hb.recs]
  exact Table.get_ensures hT ht hb ha k s

namespace TableIterator

variable {it : TableIterator}

/-- The iterator has the entries `l` of its table left. -/
def Rest (it : TableIterator) (l : List Rec) : Prop :=
  ∃ interval gs, it.table.Blocks interval gs ∧ Ascending Rec.pos gs.flatten ∧
    it.Cursor interval gs l

theorem rest_seekToFirst (hT : TablesOk T) (ht : T it.table) (hg : it.table.Good)
    (hok : it.status = .ok) : Ensures (Store.Serves T M) it.seekToFirst fun r =>
      r.table = it.table ∧ r.Rest it.table.recs := by
  obtain ⟨interval, gs, hb, ha⟩ := hg
  refine (seekToFirst_ensures hT ht hb ha hok).imp fun r ⟨h1, h2⟩ => ⟨h1, interval, gs, ?_, ha, ?_⟩
  · rwa [h1]
  · rwa [hb.recs]

theorem rest_seek (hT : TablesOk T) (ht : T it.table) (hg : it.table.Good)
    (hok : it.status = .ok) (target : Bytes) :
    Ensures (Store.Serves T M) (it.seek target) fun r =>
      r.table = it.table ∧ r.Rest (seekTo Rec.pos (sortKey target) it.table.recs) := by
  obtain ⟨interval, gs, hb, ha⟩ := hg
  refine (seek_ensures hT ht hb ha hok target).imp fun r ⟨h1, h2⟩ => ⟨h1, interval, gs, ?_, ha, ?_⟩
  · rwa [h1]
  · rwa [hb.recs]

theorem Rest.next (h : it.Rest l) (hT : TablesOk T) (ht : T it.table) :
    Ensures (Store.Serves T M) it.next fun r => r.table = it.table ∧ r.Rest l.tail := by
  obtain ⟨interval, gs, hb, ha, hc⟩ := h
  refine (next_ensures hT ht hb ha hc).imp fun r ⟨h1, h2⟩ => ⟨h1, interval, gs, ?_, ha, h2⟩
  rwa [h1]

theorem Rest.ok (h : it.Rest l) : it.status = .ok := by
  obtain ⟨_, _, _, _, hc⟩ := h
  exact hc.ok

theorem Rest.valid_iff (h : it.Rest l) : it.valid = true ↔ l ≠ [] := by
  obtain ⟨_, _, _, _, hc⟩ := h
  cases l with
  | nil =>
    have hv : it.valid = false := hc.at_list
    simp [hv]
  | cons e l => simp [hc.key_value.1]

theorem Rest.head (h : it.Rest (e :: l)) : it.key = e.1 ∧ it.value = e.2 := by
  obtain ⟨_, _, _, _, hc⟩ := h
  exact hc.key_value.2

theorem Rest.suffix (h : it.Rest l) : l <:+ it.table.recs := by
  obtain ⟨_, gs, hb, _, hc⟩ := h
  rw [hb.recs]
  cases l with
  | nil => exact List.nil_suffix
  | cons e l =>
    obtain ⟨_, pre, g, post, m, rfl, _, rfl, ⟨u, hu⟩, _⟩ := hc.at_list
    refine ⟨pre.flatten ++ u, ?_⟩
    rw [List.flatten_append, List.flatten_cons, ← hu]
    simp

end TableIterator

end LsmKv
