import LsmKv.Drain
import LsmKv.Arena
import LsmKv.SkipList

namespace LsmKv
set_option autoImplicit true

/-- A database with `background_compaction` off and one client thread, without I/O errors. The arena
is the one of `mem_`. -/
structure Solo where
  tree : Drain := {}
  mem : MemTable := {}
  arena : Arena := {}
  memtableSizeBytes : Nat := 4194304
  scoring : Scoring

/-- What `NewNode` allocates: header, pointers, and the bytes of the key. -/
def nodeBytes (height length : Nat) : Nat := 8 + 8 * height + length

/-- The arena of a new memtable, which holds the head of the skip list. `base` is
what `new` returns. -/
def Arena.ofHead (base : Nat) : Arena :=
  (({} : Arena).allocateAligned (nodeBytes SkipList.kMaxHeight 0) base).1

/-- The buffer of an entry. -/
def memEntry (seq : Nat) (e : BatchEntry) : Bytes :=
  putLengthPrefixed (encodeInternalKey e.key seq e.type) ++ putLengthPrefixed e.value

theorem length_memEntry (seq : Nat) (e : BatchEntry) :
    (memEntry seq e).length = e.key.length + e.value.length + 16 := by
  simp only [memEntry, putLengthPrefixed, List.length_append, length_putFixed32,
    length_encodeInternalKey]
  omega

/-- An entry with the height of its node and the address of a block, if it needs one. -/
structure Placed where
  entry : BatchEntry
  height : Nat
  base : Nat

namespace Solo

def add (s : Solo) (seq : Nat) (p : Placed) : Solo :=
  { s with
    mem := s.mem.add seq p.entry.type p.entry.key p.entry.value
    arena := (s.arena.allocateAligned (nodeBytes p.height (memEntry seq p.entry).length) p.base).1 }

def addAll (s : Solo) : Nat → List Placed → Solo
  | _, [] => s
  | seq, p :: rest => (s.add seq p).addAll (seq + 1) rest

/-- `Write` once there is room. -/
def write (s : Solo) (ps : List Placed) : Solo :=
  let base := s.tree.db.lastSequence + 1
  { s with tree := { s.tree with db := { s.tree.db with
    lastSequence := s.tree.db.lastSequence + ps.length } } }.addAll base ps

/-- The memtable becomes immutable and a new one takes its place, with a new log. -/
def rotate (s : Solo) (base : Nat) : Solo :=
  { s with
    tree := { s.tree with
      db := { s.tree.db with
        nextFileNumber := s.tree.db.nextFileNumber + 1
        immLogNumber := s.tree.db.logNumber
        logNumber := s.tree.db.nextFileNumber
        imm := some s.tree.db.mem
        mem := s.tree.db.mem + 1 }
      mems := fun id => if id = s.tree.db.mem then s.mem.recs else s.tree.mems id }
    mem := {}
    arena := .ofHead base }

/-- `MakeRoomForWrite`, with `fuel` for its rounds and for what they drain: the status, and the
memtables it has made immutable. -/
def makeRoomForWrite (base : Nat) : Nat → Solo → Ending (Status × List MemTable × Solo)
  | 0, _ => .outOfFuel
  | fuel + 1, s =>
    if !s.tree.db.bgError.isOk then .returns (s.tree.db.bgError, [], s)
    else if s.arena.memoryUsage ≤ s.memtableSizeBytes then .returns (.ok, [], s)
    else if s.tree.db.imm.isSome then
      match Drain.drainBackgroundWork s.scoring fuel s.tree with
      | .dies => .dies
      | .outOfFuel => .outOfFuel
      | .returns d => makeRoomForWrite base fuel { s with tree := d }
    else
      match makeRoomForWrite base fuel (s.rotate base) with
      | .dies => .dies
      | .outOfFuel => .outOfFuel
      | .returns (status, rotated, s') => .returns (status, s.mem :: rotated, s')

/-- What `Recover` reads: the manifest with the tables it lists, and the entries of the logs. -/
structure Found where
  version : Version := {}
  contents : Nat → List Rec := fun _ => []
  nextFileNumber : Nat := 1
  lastSequence : Nat := 0
  entries : List Wal.Entry := []

/-- `Recover` up to its flush. -/
def Found.load (found : Found) (options : Options) (maxSize : Nat) : Drain :=
  let mem := Sys.replayInto {} found.entries
  { db := {
      options := options
      mem := if mem.isEmpty then 0 else 1
      imm := if mem.isEmpty then none else some 0
      current := found.version
      nextFileNumber := found.nextFileNumber
      lastSequence := Sys.maxSequence found.lastSequence found.entries }
    mems := fun _ => mem.recs
    contents := found.contents
    maxSize := maxSize }

/-- What a process goes by: the options, and the largest string that it can have. -/
structure Setup where
  options : Options
  memtableSizeBytes : Nat
  scoring : Scoring
  maxSize : Nat := 2 ^ 63 - 1

/-- The process when `Recover` has opened its log. -/
def start (setup : Setup) (d : Drain) (base : Nat) : Solo where
  tree := { d with db := { d.db with
    logNumber := d.db.nextFileNumber
    nextFileNumber := d.db.nextFileNumber + 1 } }
  arena := .ofHead base
  memtableSizeBytes := setup.memtableSizeBytes
  scoring := setup.scoring

/-- `Recover`: what is replayed goes to a table at once. `none` is the end of the process. -/
def recover (setup : Setup) (found : Found) (base : Nat) : Option Solo :=
  let d := found.load setup.options setup.maxSize
  match d.db.imm with
  | none => some (start setup d base)
  | some imm => (d.flushImmutableMemTable imm).map fun d => start setup d base

/-- What a process does next. `fits` is asked of the entries that are written. -/
inductive Step (fits : BatchEntry → Prop) (s : Solo) : Solo → Prop where
  | write (ps : List Placed) (hroom : s.arena.memoryUsage ≤ s.memtableSizeBytes)
      (hfits : ∀ p ∈ ps, fits p.entry) : Step fits s (s.write ps)
  /-- in `MakeRoomForWrite` -/
  | rotateFull (base : Nat) (hfull : s.memtableSizeBytes < s.arena.memoryUsage)
      (hi : s.tree.db.imm = none) : Step fits s (s.rotate base)
  /-- in `FlushMemTable` -/
  | rotateFlush (base : Nat) (hne : s.mem.isEmpty = false) (hi : s.tree.db.imm = none) :
      Step fits s (s.rotate base)
  /-- a round of `DrainBackgroundWork` -/
  | work (hp : s.tree.hasPendingWork s.scoring = true) (d : Drain)
      (hd : s.tree.backgroundWorkOnce s.scoring = some d) : Step fits s { s with tree := d }
  | getSnapshot (handle : Nat) : Step fits s { s with tree := { s.tree with db := { s.tree.db with
      snapshots := s.tree.db.snapshots ++ [⟨handle, s.tree.db.lastSequence⟩] } } }
  | releaseSnapshot
    (handle : Nat) : Step fits s { s with tree := { s.tree with db := { s.tree.db with
      snapshots := s.tree.db.snapshots.filter fun sn => sn.handle != handle } } }

/-- What a process can find after others have gone through the states `past`: a manifest whose
tables were in use, under numbers that are drawn, and logs. -/
structure Found.After (fits : BatchEntry → Prop) (found : Found) (past : List Solo) : Prop where
  drawn : ∀ l, ∀ f ∈ found.version.levels l, f.number < found.nextFileNumber
  files : ∀ l, ∀ f ∈ found.version.levels l, ∃ s ∈ past, ∃ l', ∃ g ∈ s.tree.db.current.levels l',
    f.smallest = g.smallest ∧ f.largest = g.largest ∧
    found.contents f.number = s.tree.contents g.number
  entries : ∀ e ∈ found.entries, fits ⟨e.type, e.key, e.value⟩

/-- The states of the processes so far, latest first. A process may end at any point. -/
inductive Reach (fits : BatchEntry → Prop) : List Solo → Prop where
  | none : Reach fits []
  | step {s s' : Solo} {past : List Solo} (h : Reach fits (s :: past)) (hs : Step fits s s') :
      Reach fits (s' :: s :: past)
  | recover {past : List Solo} {found : Found} {s : Solo} (h : Reach fits past)
      (hf : found.After fits past) (setup : Setup) (base : Nat)
      (hs : recover setup found base = some s) : Reach fits (s :: past)

end Solo

section Tagged

/-- Every key has its tag. -/
def Tagged (es : List Rec) : Prop := ∀ r ∈ es, 8 ≤ r.1.length

theorem Tagged.firstKeyOf {es : List Rec} (h : Tagged es) (hne : es ≠ []) :
    8 ≤ (LsmKv.firstKeyOf es).length := by
  cases es with
  | nil => exact absurd rfl hne
  | cons r rest => exact h r List.mem_cons_self

theorem Tagged.lastKeyOf {es : List Rec} (h : Tagged es) (hne : es ≠ []) :
    8 ≤ (LsmKv.lastKeyOf es).length := by
  rw [LsmKv.lastKeyOf, List.getLast?_eq_getLast_of_ne_nil hne]
  exact h _ (List.getLast_mem hne)

theorem Tagged.sublist {es es' : List Rec} (h : Tagged es) (hs : List.Sublist es' es) :
    Tagged es' :=
  fun r hr => h r (hs.subset hr)

theorem keepFrom_ne_nil {es : List Rec} (hS : S < kMaxSequenceNumber) (hne : es ≠ []) :
    keepFrom false S {} es ≠ [] := by
  cases es with
  | nil => exact absurd rfl hne
  | cons r rest =>
    have hh : KeyScan.hidden {} S r = false := by
      simp [KeyScan.hidden, KeyScan.enter, KeyScan.isNewKey, hS]
    simp [keepFrom, hh, dropsTombstone]

end Tagged

namespace Drain
variable {d : Drain}

theorem smallestSnapshot_lt (h : d.db.lastSequence < kMaxSequenceNumber) :
    d.db.smallestSnapshot < kMaxSequenceNumber :=
  (Db.le_smallestSnapshot_iff.1 le_rfl).1.trans_lt h

/-- The tables in use hold tagged keys and name two of them, and the memtable to flush
is not empty. -/
structure Filled (d : Drain) : Prop where
  fresh : d.Fresh
  keys : ∀ l, ∀ f ∈ d.db.current.levels l,
    8 ≤ f.smallest.length ∧ 8 ≤ f.largest.length ∧ Tagged (d.contents f.number)
  imm : ∀ i, d.db.imm = some i → d.mems i ≠ [] ∧ Tagged (d.mems i)

theorem new_keys {outs : List (List Rec)} {f : FileMetaData} (h : f ∈ (d.writeTables outs).1)
    (houts : ∀ es ∈ outs, es ≠ [] ∧ Tagged es) :
    8 ≤ f.smallest.length ∧ 8 ≤ f.largest.length ∧
      Tagged ((d.writeTables outs).2.contents f.number) := by
  obtain ⟨i, hi, rfl⟩ := List.mem_mapIdx.1 h
  obtain ⟨hne, htag⟩ := houts _ (List.getElem_mem hi)
  obtain ⟨hs, hl⟩ := TableBuilder.finish_keys d.db.options outs[i]
  refine ⟨?_, ?_, ?_⟩
  · rw [metaOf, Sys.metaOf, built, hs]
    exact htag.firstKeyOf hne
  · rw [metaOf, Sys.metaOf, built, hl]
    exact htag.lastKeyOf hne
  · have hc := contents_new (d := d) (List.getElem?_eq_getElem hi)
    exact hc.symm ▸ htag

namespace Filled

theorem old_keys (h : d.Filled) {outs : List (List Rec)} {f : FileMetaData}
    (hf : f ∈ d.db.current.levels l) : 8 ≤ f.smallest.length ∧ 8 ≤ f.largest.length ∧
      Tagged ((d.writeTables outs).2.contents f.number) := by
  rw [contents_old (h.fresh l f hf)]
  exact h.keys l f hf

theorem flush (h : d.Filled) {id : Nat} (hi : d.db.imm = some id)
    (hS : d.db.lastSequence < kMaxSequenceNumber) (hd : d.flushImmutableMemTable id = some d') :
    d'.Filled := by
  obtain rfl := flush_eq_some hd
  obtain ⟨hne, htag⟩ := h.imm id hi
  refine ⟨fresh_flush h.fresh _, fun l f hm => ?_, fun i hi => nomatch hi⟩
  simp only [installFlush, Version.setLevel] at hm
  split at hm
  · rcases List.mem_append.1 hm with hm | hm
    · refine new_keys hm fun es hes => ?_
      obtain rfl := List.mem_singleton.1 hes
      exact ⟨keepFrom_ne_nil (smallestSnapshot_lt hS) hne, htag.sublist (keepFrom_sublist _ _ _ _)⟩
    · exact h.old_keys hm
  · exact h.old_keys hm

theorem install (h : d.Filled) {c : Compaction} {outs : List (List Rec)}
    (houts : ∀ es ∈ outs, es ≠ [] ∧ Tagged es) : (d.installTables c outs).Filled := by
  refine ⟨fresh_install h.fresh, fun l f hm => ?_, h.imm⟩
  simp only [installTables, Compaction.install, Version.setLevel] at hm
  split at hm
  · rcases List.mem_append.1 ((List.perm_insertionSort _ _).mem_iff.1 hm) with hm | hm
    · exact h.old_keys (List.mem_filter.1 hm).1
    · exact new_keys hm houts
  · split at hm
    · exact h.old_keys (List.mem_filter.1 hm).1
    · exact h.old_keys hm

theorem compact (h : d.Filled) (hd : d.doCompaction level = some d') : d'.Filled := by
  rcases compact_eq_some hd with ⟨_, rfl⟩ | ⟨pointer, c, hb, rfl⟩
  · exact h
  · obtain ⟨_, _, hsub0, hsub1⟩ := beginCompaction_inputs hb
    have h₁ : Filled { d with db := { d.db with compactPointer := pointer } } :=
      ⟨h.fresh, h.keys, h.imm⟩
    refine h₁.install fun es hes => ⟨compactAdds_ne_nil hes, fun r hr => ?_⟩
    have hflat := flatten_compactAdds d.db.options c.bottomMost c.smallestSnapshot {} []
      (mergeRuns Rec.pos (c.inputs.map fun f => d.contents f.number))
    have hmem := (keepFrom_sublist _ _ _ _).subset (hflat ▸ List.mem_flatten_of_mem hes hr)
    obtain ⟨run, hrun, hr⟩ := List.mem_flatten.1 ((mergeRuns_perm Rec.pos _).mem_iff.1 hmem)
    obtain ⟨f, hf, rfl⟩ := List.mem_map.1 hrun
    rcases List.mem_append.1 hf with hf | hf
    · exact (h.keys _ f (hsub0.subset hf)).2.2 r hr
    · exact (h.keys _ f (hsub1.subset hf)).2.2 r hr

theorem once (h : d.Filled) (hS : d.db.lastSequence < kMaxSequenceNumber)
    (hd : d.backgroundWorkOnce sc = some d') : d'.Filled := by
  rw [backgroundWorkOnce] at hd
  split at hd
  · rename_i hi
    exact h.flush hi hS hd
  · split at hd
    · exact Option.some.inj hd ▸ h
    · exact h.compact hd

end Filled

end Drain

namespace Drain

theorem drainBackgroundWork_mono {sc : Scoring} {d d' : Drain}
    (h : drainBackgroundWork sc fuel d = .returns d') (hle : fuel ≤ fuel') :
    drainBackgroundWork sc fuel' d = .returns d' := by
  induction fuel generalizing d fuel' with
  | zero => cases h
  | succ n ih =>
    obtain ⟨m, rfl⟩ := Nat.exists_eq_add_of_le' (Nat.one_le_of_lt hle)
    rw [drainBackgroundWork] at h ⊢
    split at h
    · rename_i hp
      rw [if_pos hp]
      cases hd : d.backgroundWorkOnce sc with
      | none =>
        rw [hd] at h
        cases h
      | some d₁ =>
        rw [hd] at h
        exact ih h (Nat.le_of_succ_le_succ hle)
    · rename_i hp
      rw [if_neg hp]
      exact h

theorem drainBackgroundWork_passes {sc : Scoring} {d d' : Drain}
    (h : drainBackgroundWork sc fuel d = .returns d') : Passes sc d d' := by
  induction fuel generalizing d with
  | zero => cases h
  | succ n ih =>
    rw [drainBackgroundWork] at h
    split at h
    · rename_i hp
      cases hd : d.backgroundWorkOnce sc with
      | none =>
        rw [hd] at h
        cases h
      | some d₁ =>
        rw [hd] at h
        exact .once (Bool.and_eq_true_iff.1 hp).2 hd (ih h)
    · cases h
      exact .refl

theorem Passes.bgError {sc : Scoring} {d d' : Drain} (h : Passes sc d d') :
    d'.db.bgError = d.db.bgError := by
  induction h with
  | refl => rfl
  | once _ hd _ ih => exact ih.trans (once_db hd).2.1

end Drain

namespace Solo
variable {s s' : Solo} {past : List Solo} {fits : BatchEntry → Prop}

theorem memoryUsage_ofHead (base : Nat) : (Arena.ofHead base).memoryUsage = 4104 := rfl

structure Ok (s : Solo) : Prop where
  filled : s.tree.Filled
  tagged : ∀ e ∈ s.mem.entries, 8 ≤ (MemTable.decodeEntryKey e).length
  usage : s.mem.isEmpty = true → s.arena.memoryUsage = 4104
  ok : s.tree.db.bgError.isOk = true

/-- The options under which there is always room and the filters of all records can be built, and
sequence numbers to go. -/
structure Tame (s : Solo) : Prop where
  trigger : Drain.TriggerOk s.tree.db.options
  size : 4104 ≤ s.memtableSizeBytes
  seq : s.tree.db.lastSequence < kMaxSequenceNumber
  filters : BloomFilter.Fits s.tree.maxSize s.tree.records s.tree.db.options.bloomBitsPerKey

theorem mem_insert {t : MemTable} (hlen : e.length < 2 ^ 32) (h : x ∈ (t.insert e).entries) :
    x = e ∨ x ∈ t.entries := by
  simp only [MemTable.insert, MemTable.take_of_fits hlen, List.mem_append, List.mem_cons] at h
  rcases h with h | h | h
  · exact .inr ((List.takeWhile_sublist _).subset h)
  · exact .inl h
  · exact .inr ((List.dropWhile_sublist _).subset h)

theorem tagged_add {t : MemTable} (h : ∀ x ∈ t.entries, 8 ≤ (MemTable.decodeEntryKey x).length)
    (hfit : k.length + v.length + 16 < 2 ^ 32) :
    ∀ x ∈ (t.add seq ty k v).entries, 8 ≤ (MemTable.decodeEntryKey x).length := by
  intro x hx
  have hlen := length_memEntry seq ⟨ty, k, v⟩
  have hk : (encodeInternalKey k seq ty).length < 2 ^ 32 := by
    rw [length_encodeInternalKey]
    omega
  rcases mem_insert (hlen.trans_lt hfit) hx with rfl | hx
  · rw [memEntry, MemTable.decodeEntryKey_put hk, length_encodeInternalKey]
    exact Nat.le_add_left 8 _
  · exact h x hx

theorem tagged_recs {t : MemTable} (h : ∀ x ∈ t.entries, 8 ≤ (MemTable.decodeEntryKey x).length) :
    Tagged t.recs := by
  intro r hr
  obtain ⟨x, hx, rfl⟩ := List.mem_map.1 hr
  exact h x hx

theorem isEmpty_add (t : MemTable) (seq : Nat) (ty : ValueType) (k v : Bytes) :
    (t.add seq ty k v).isEmpty = false := by
  simp [MemTable.add, MemTable.insert, MemTable.isEmpty]

theorem tagged_replay {t : MemTable} (h : ∀ x ∈ t.entries, 8 ≤ (MemTable.decodeEntryKey x).length)
    {es : List Wal.Entry} (hes : ∀ e ∈ es, WriteBatch.Fits ⟨e.type, e.key, e.value⟩) :
    ∀ x ∈ (Sys.replayInto t es).entries, 8 ≤ (MemTable.decodeEntryKey x).length := by
  induction es generalizing t with
  | nil => exact h
  | cons e es ih =>
    exact ih (tagged_add h (hes e List.mem_cons_self)) fun e' he' => hes e'
      (List.mem_cons_of_mem _ he')

namespace Ok

theorem addAll (h : s.Ok) (hps : ∀ p ∈ ps, WriteBatch.Fits p.entry) : (s.addAll seq ps).Ok := by
  induction ps generalizing s seq with
  | nil => exact h
  | cons p ps ih =>
    refine ih ⟨h.filled, tagged_add h.tagged (hps p List.mem_cons_self), fun he => ?_, h.ok⟩
      fun q hq => hps q (List.mem_cons_of_mem _ hq)
    rw [Solo.add, isEmpty_add] at he
    cases he

theorem isEmpty_of_full (h : s.Ok) (ht : s.Tame)
    (hfull : s.memtableSizeBytes < s.arena.memoryUsage) :
    s.mem.isEmpty = false := by
  cases he : s.mem.isEmpty with
  | false => rfl
  | true =>
    have := h.usage he
    have := ht.size
    omega

theorem rotate (h : s.Ok) (hne : s.mem.isEmpty = false) (base : Nat) : (s.rotate base).Ok where
  filled := by
    refine ⟨fun l f hf => (h.filled.fresh l f hf).trans (Nat.lt_succ_self _), h.filled.keys,
      fun i hi => ?_⟩
    obtain rfl := Option.some.inj hi
    simp only [Solo.rotate, if_true]
    refine ⟨fun hnil => ?_, tagged_recs h.tagged⟩
    rw [(MemTable.recs_eq_nil _).1 hnil] at hne
    cases hne
  tagged := fun _ hx => nomatch hx
  usage := fun _ => memoryUsage_ofHead base
  ok := h.ok

theorem work (h : s.Ok) (ht : s.Tame) (hd : s.tree.backgroundWorkOnce s.scoring = some d) :
    Ok { s with tree := d } where
  filled := h.filled.once ht.seq hd
  tagged := h.tagged
  usage := h.usage
  ok := (congrArg Status.isOk (Drain.once_db hd).2.1).trans h.ok

theorem step (h : s.Ok) (ht : s.Tame) (hs : Step WriteBatch.Fits s s') : s'.Ok := by
  cases hs with
  | write ps _ hfits =>
    exact addAll ⟨⟨h.filled.fresh, h.filled.keys, h.filled.imm⟩, h.tagged, h.usage, h.ok⟩ hfits
  | rotateFull base hfull _ => exact h.rotate (h.isEmpty_of_full ht hfull) base
  | rotateFlush base hne _ => exact h.rotate hne base
  | work _ d hd => exact h.work ht hd
  | getSnapshot _ => exact ⟨⟨h.filled.fresh, h.filled.keys, h.filled.imm⟩, h.tagged, h.usage, h.ok⟩
  | releaseSnapshot _ =>
    exact ⟨⟨h.filled.fresh, h.filled.keys, h.filled.imm⟩, h.tagged, h.usage, h.ok⟩

theorem load {found : Found} (hf : found.After WriteBatch.Fits past) (hpast : ∀ t ∈ past, t.Ok)
    (options : Options) (maxSize : Nat) : (found.load options maxSize).Filled where
  fresh := hf.drawn
  keys := by
    intro l f hm
    obtain ⟨t, hmem, l', g, hg, hs, hl, hc⟩ := hf.files l f hm
    have hkeys := (hpast t hmem).filled.keys l' g hg
    rw [← hs, ← hl, ← hc] at hkeys
    exact hkeys
  imm := by
    intro i hi
    refine ⟨fun hnil => ?_,
      tagged_recs (tagged_replay (t := {}) (fun _ hx => nomatch hx) hf.entries)⟩
    have he := (MemTable.recs_eq_nil _).1 hnil
    rw [Found.load] at hi
    simp only [he, if_true] at hi
    cases hi

theorem start {d : Drain} (h : d.Filled) (hok : d.db.bgError.isOk = true) (setup : Setup)
    (base : Nat) : (Solo.start setup d base).Ok where
  filled := ⟨fun l f hm => (h.fresh l f hm).trans (Nat.lt_succ_self _), h.keys, h.imm⟩
  tagged := fun _ hx => (by cases hx)
  usage := fun _ => memoryUsage_ofHead base
  ok := hok

theorem recover {found : Found} (hf : found.After WriteBatch.Fits past) (hpast : ∀ t ∈ past, t.Ok)
    {setup : Setup} (hs : Solo.recover setup found base = some s) (ht : s.Tame) : s.Ok := by
  have hload := load hf hpast setup.options setup.maxSize
  rw [Solo.recover] at hs
  split at hs
  · obtain rfl := Option.some.inj hs
    exact .start hload rfl setup base
  · rename_i imm hi
    obtain ⟨d, hd, rfl⟩ := Option.map_eq_some_iff.1 hs
    have hseq : (found.load setup.options setup.maxSize).db.lastSequence < kMaxSequenceNumber := by
      have hlast := ht.seq
      rw [Drain.flush_eq_some hd] at hlast
      exact hlast
    have hok : d.db.bgError.isOk = true := by
      rw [Drain.flush_eq_some hd]
      rfl
    exact .start (hload.flush hi hseq hd) hok setup base

end Ok

theorem Reach.ok (h : Reach WriteBatch.Fits past) (ht : ∀ t ∈ past, t.Tame) : ∀ t ∈ past, t.Ok := by
  induction h with
  | none => exact fun _ hm => nomatch hm
  | step _ hs ih =>
    have hold := ih fun t hm => ht t (List.mem_cons_of_mem _ hm)
    refine List.forall_mem_cons.2 ⟨?_, hold⟩
    exact (hold _ List.mem_cons_self).step (ht _ (List.mem_cons_of_mem _ List.mem_cons_self)) hs
  | recover _ hf setup base hs ih =>
    have hold := ih fun t hm => ht t (List.mem_cons_of_mem _ hm)
    exact List.forall_mem_cons.2 ⟨.recover hf hold hs (ht _ List.mem_cons_self), hold⟩

theorem Reach.passes {sc : Scoring} {d d' : Drain} (hp : Drain.Passes sc d d')
    (h : Reach fits ({ s with tree := d, scoring := sc } :: past)) :
    ∃ past', Reach fits ({ s with tree := d', scoring := sc } :: past') := by
  induction hp generalizing past with
  | refl => exact ⟨past, h⟩
  | once hw hd _ ih => exact ih (h.step (.work hw _ hd))

/-- So can the state in which making room ends. -/
theorem Reach.room (h : Reach fits (s :: past))
    (hr : makeRoomForWrite base fuel s = .returns (status, rotated, s')) :
    ∃ past', Reach fits (s' :: past') := by
  induction fuel generalizing s past status rotated with
  | zero => cases hr
  | succ n ih =>
    rw [makeRoomForWrite] at hr
    split at hr
    · cases hr
      exact ⟨past, h⟩
    split at hr
    · cases hr
      exact ⟨past, h⟩
    rename_i hfull
    split at hr
    · cases hd : Drain.drainBackgroundWork s.scoring n s.tree with
      | dies =>
        rw [hd] at hr
        cases hr
      | outOfFuel =>
        rw [hd] at hr
        cases hr
      | returns d =>
        rw [hd] at hr
        obtain ⟨past', h'⟩ := Reach.passes (s := s) (Drain.drainBackgroundWork_passes hd) h
        exact ih h' hr
    · rename_i hi
      have h' := h.step (.rotateFull base (not_le.1 hfull) (by simpa using hi))
      cases hm : makeRoomForWrite base n (s.rotate base) with
      | dies =>
        rw [hm] at hr
        cases hr
      | outOfFuel =>
        rw [hm] at hr
        cases hr
      | returns p =>
        rw [hm] at hr
        cases hr
        exact ih h' hm

theorem room_of_free (hb : s.tree.db.bgError.isOk = true) (ht : 4104 ≤ s.memtableSizeBytes)
    (hfull : s.memtableSizeBytes < s.arena.memoryUsage) (hi : s.tree.db.imm = none)
    (base fuel : Nat) :
    makeRoomForWrite base (fuel + 2) s = .returns (.ok, [s.mem], s.rotate base) := by
  have hroom : makeRoomForWrite base (fuel + 1) (s.rotate base) =
      .returns (.ok, [], s.rotate base) := by
    have hok : (s.rotate base).tree.db.bgError.isOk = true := hb
    have hle : (s.rotate base).arena.memoryUsage ≤ (s.rotate base).memtableSizeBytes := ht
    rw [makeRoomForWrite, hok, if_pos hle]
    rfl
  rw [makeRoomForWrite, hb, if_neg (not_le.2 hfull), hi, hroom]
  rfl

theorem Ok.room (h : s.Ok) (ht : s.Tame) (base : Nat) : ∃ fuel rotated s',
    makeRoomForWrite base fuel s = .returns (.ok, rotated, s') ∧
      ∀ m ∈ rotated, m.isEmpty = false := by
  by_cases hle : s.arena.memoryUsage ≤ s.memtableSizeBytes
  · refine ⟨1, [], s, ?_, fun _ hm => (nomatch hm)⟩
    rw [makeRoomForWrite, h.ok, if_pos hle]
    rfl
  have hfull := not_le.1 hle
  have hne := h.isEmpty_of_full ht hfull
  have hone : ∀ m ∈ [s.mem], m.isEmpty = false := fun m hm => List.mem_singleton.1 hm ▸ hne
  cases hi : s.tree.db.imm with
  | none => exact ⟨2, _, _, room_of_free h.ok ht.size hfull hi base 0, hone⟩
  | some imm =>
    have hsteady : s.tree.Steady := ⟨h.filled.fresh, ht.trigger, h.ok, ht.filters⟩
    obtain ⟨fuel, d, hd, hp, hend⟩ := hsteady.drain s.scoring
    have hd' := Drain.drainBackgroundWork_mono hd (Nat.le_add_right fuel 2)
    have hb : d.db.bgError.isOk = true := hp.bgError ▸ h.ok
    have hnone : d.db.imm = none := by
      simp only [Drain.hasPendingWork, Bool.or_eq_false_iff, Option.isSome_eq_false_iff,
        Option.isNone_iff_eq_none] at hend
      exact hend.1
    have hroom := @room_of_free { s with tree := d } hb ht.size hfull hnone base fuel
    refine ⟨fuel + 3, [s.mem], Solo.rotate { s with tree := d } base, ?_, hone⟩
    rw [makeRoomForWrite, h.ok, if_neg hle, hi, hd']
    exact hroom

theorem records_rotate (s : Solo) (hi : s.tree.db.imm = none) (base : Nat) :
    (s.rotate base).tree.records = s.tree.records + s.mem.recs.length := by
  have hnew : (s.rotate base).tree.immRecords = s.mem.recs.length := by
    simp [Drain.immRecords, rotate]
  have hold : s.tree.immRecords = 0 := by rw [Drain.immRecords, hi]; rfl
  have hsum : ∑ l ∈ Finset.range kNumLevels, (s.rotate base).tree.levelSum List.length l =
      ∑ l ∈ Finset.range kNumLevels, s.tree.levelSum List.length l := rfl
  rw [Drain.records, Drain.records, hnew, hold, hsum]
  omega

/-- Below the size of a new memtable there is never room: an empty memtable is rotated, flushed and
rotated again. -/
theorem never_room (hsize : s.memtableSizeBytes < 4104)
    (hfull : s.memtableSizeBytes < s.arena.memoryUsage) (hmem : s.mem = {}) (hs : s.tree.Steady)
    (base fuel : Nat) : makeRoomForWrite base fuel s = .outOfFuel := by
  induction fuel generalizing s with
  | zero => rfl
  | succ n ih =>
    rw [makeRoomForWrite, hs.ok, if_neg (not_le.2 hfull)]
    simp only [Bool.not_true, Bool.false_eq_true, if_false]
    split
    · cases hd : Drain.drainBackgroundWork s.scoring n s.tree with
      | dies => exact absurd hd (hs.not_dies s.scoring n)
      | outOfFuel => rfl
      | returns d =>
        exact @ih { s with tree := d } hsize hfull hmem
          (hs.passes (Drain.drainBackgroundWork_passes hd))
    · rename_i hi
      have hnone : s.tree.db.imm = none := by simpa using hi
      have hrecords : (s.rotate base).tree.records = s.tree.records := by
        rw [records_rotate s hnone, hmem]
        rfl
      have hrot : (s.rotate base).tree.Steady :=
        ⟨fun l f hf => (hs.fresh l f hf).trans (Nat.lt_succ_self _), hs.trigger, hs.ok,
          hrecords ▸ hs.filters⟩
      rw [ih (s := s.rotate base) hsize hsize rfl hrot]

/-- With one client, room for a memtable's first block, a trigger, filters and entries that fit and
sequence numbers to go, making room ends after finitely many rounds, rotates no empty memtable, and
every table of a version names two tagged keys. -/
theorem making_room_ends (h : Reach WriteBatch.Fits (s :: past)) (ht : ∀ t ∈ s :: past, t.Tame)
    (base : Nat) :
    (∃ fuel rotated s', makeRoomForWrite base fuel s = .returns (.ok, rotated, s') ∧
      (∀ m ∈ rotated, m.isEmpty = false) ∧ ∃ past', Reach WriteBatch.Fits (s' :: past')) ∧
    ∀ l, ∀ f ∈ s.tree.db.current.levels l, 8 ≤ f.smallest.length ∧ 8 ≤ f.largest.length := by
  have hok := h.ok ht s List.mem_cons_self
  constructor
  · obtain ⟨fuel, rotated, s', hr, hne⟩ := hok.room (ht s List.mem_cons_self) base
    exact ⟨fuel, rotated, s', hr, hne, h.room hr⟩
  · exact fun l f hm => ⟨(hok.filled.keys l f hm).1, (hok.filled.keys l f hm).2.1⟩

section Sample

def setup (memtableSizeBytes : Nat) : Setup where
  options := { backgroundCompaction := false }
  memtableSizeBytes := memtableSizeBytes
  scoring := .exact fun _ => 10485760

/-- A new database. -/
def opened (memtableSizeBytes : Nat) : Solo :=
  start (setup memtableSizeBytes) (Found.load {} { backgroundCompaction := false } (2 ^ 63 - 1))
    4096

theorem reach_opened (fits : BatchEntry → Prop) (n : Nat) : Reach fits [opened n] := by
  have hnew : recover (setup n) {} 4096 = some (opened n) := rfl
  exact .recover .none ⟨fun _ _ h => absurd h List.not_mem_nil,
    fun _ _ h => absurd h List.not_mem_nil, fun _ h => absurd h List.not_mem_nil⟩
    (setup n) 4096 hnew

/-- A long value gets a block of its own, which is more than one block may take. -/
def put (value : Bytes) : Placed := ⟨⟨.kValue, [97], value⟩, 1, 65536⟩

theorem arena_write_put (n : Nat) {value : Bytes} (h : value.length = 4000) :
    ((opened n).write [put value]).arena.memoryUsage = 8145 := by
  have hwrite : ((opened n).write [put value]).arena =
      ((Arena.ofHead 4096).allocateAligned (nodeBytes 1 (memEntry 1 (put value).entry).length)
        65536).1 := rfl
  have hbytes : nodeBytes 1 (memEntry 1 (put value).entry).length = 4033 := by
    simp only [length_memEntry, put, h]
    rfl
  rw [hwrite, hbytes]
  rfl

theorem making_room_ends_sample : ∃ s past, Reach WriteBatch.Fits (s :: past) ∧
    (∀ t ∈ s :: past, t.Tame) ∧ s.memtableSizeBytes < s.arena.memoryUsage ∧
    (∃ fuel rotated s', makeRoomForWrite 131072 fuel s = .returns (.ok, rotated, s') ∧
      (∀ m ∈ rotated, m.isEmpty = false) ∧ ∃ past', Reach WriteBatch.Fits (s' :: past')) ∧
    ∀ l, ∀ f ∈ s.tree.db.current.levels l, 8 ≤ f.smallest.length ∧ 8 ≤ f.largest.length := by
  obtain ⟨value, hlen⟩ : ∃ value : Bytes, value.length = 4000 :=
    ⟨List.replicate 4000 0, List.length_replicate⟩
  have hreach : Reach WriteBatch.Fits [(opened 4104).write [put value], opened 4104] :=
    (reach_opened WriteBatch.Fits 4104).step (.write [put value] (by decide) fun p hp => by
      obtain rfl := List.mem_singleton.1 hp
      simp [WriteBatch.Fits, put, hlen])
  have htame : (opened 4104).Tame :=
    ⟨⟨by decide, by decide, by decide⟩, by decide, by decide, ⟨by decide, by decide, by decide⟩⟩
  have hall : ∀ t ∈ [(opened 4104).write [put value], opened 4104], t.Tame := by
    intro t ht
    rcases List.mem_pair.1 ht with rfl | rfl
    · exact ⟨htame.trigger, htame.size, (by decide : 1 < kMaxSequenceNumber), htame.filters⟩
    · exact htame
  have hfull : ((opened 4104).write [put value]).memtableSizeBytes <
      ((opened 4104).write [put value]).arena.memoryUsage := by
    rw [arena_write_put 4104 hlen]
    exact (by decide : 4104 < 8145)
  exact ⟨_, _, hreach, hall, hfull, making_room_ends hreach hall 131072⟩

/-- With `memtable_size_bytes = 4096` the first write of a new database never gets room, and the
second round of the loop installs a table without keys. -/
theorem making_room_never_ends : ∃ s, Reach (fun _ => True) [s] ∧ s.memtableSizeBytes = 4096 ∧
    s.tree.db.options.l0CompactionTrigger = 4 ∧
    (∀ base fuel, makeRoomForWrite base fuel s = .outOfFuel) ∧
    ∃ s' past, Reach (fun _ => True) (s' :: past) ∧ s'.memtableSizeBytes = 4096 ∧
      ∃ f ∈ s'.tree.db.current.levels 0, f.smallest = [] ∧ f.largest = [] := by
  have hopen := reach_opened (fun _ => True) 4096
  have hsteady : (opened 4096).tree.Steady := ⟨fun _ _ hf => absurd hf List.not_mem_nil,
    ⟨by decide, by decide, by decide⟩, rfl, ⟨by decide, by decide, by decide⟩⟩
  have hrotate := hopen.step (.rotateFull 8192 (by decide) rfl)
  have hwork := hrotate.step (.work rfl _ rfl)
  exact ⟨_, hopen, rfl, rfl, fun base fuel => never_room (by decide) (by decide) rfl
    hsteady base fuel, _, _, hwork, rfl, _, List.mem_cons_self, rfl, rfl⟩

end Sample

end Solo

theorem empty_table_opens (path : String) (options : Options) (number : Nat) :
    ∃ t, Table.openFile path (built {} []).file options number = .ok t := by
  have hfit : TableFits {} [] := ⟨fun _ h => (nomatch h), fun _ h => (nomatch h), by decide +kernel⟩
  obtain ⟨t, ht, _⟩ := Table.openFile_tableFile path number options hfit
  exact ⟨t, ht⟩

end LsmKv
