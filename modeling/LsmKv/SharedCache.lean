import LsmKv.Cache
import LsmKv.SsTable

namespace LsmKv
set_option autoImplicit true

/-- How far a call of `ReadBlock` has come. -/
inductive ReadPhase where
  | started
  | missed
  | fetched (buf : Bytes)
  | done (result : Except Status Bytes)
deriving DecidableEq

structure BlockRead where
  table : Table
  entry : IndexEntry
  phase : ReadPhase := .started
deriving DecidableEq

/-- Tables that share a cache, and the calls on them. -/
structure SharedCache where
  tables : List Table
  cache : BlockCache
  reads : List BlockRead := []

/-- The atomic steps: each `Lookup` and each `Insert` holds the lock of its shard, and `EraseFile`
locks one shard after the other. -/
inductive CacheAct where
  | call (table block : Nat)
  | lookup (read : Nat)
  | fetch (read : Nat) (fault : Option Status)
  | insert (read : Nat)
  | eraseShard (shard fileNumber : Nat)

namespace SharedCache

def setPhase (s : SharedCache) (i : Nat) (r : BlockRead) (phase : ReadPhase) : SharedCache :=
  { s with reads := s.reads.set i { r with phase } }

def lookupStep (s : SharedCache) (i : Nat) (r : BlockRead) : SharedCache :=
  match s.cache.lookup r.table.number r.entry.offset with
  | (some v, c) => { s.setPhase i r (.done (.ok v)) with cache := c }
  | (none, c) => { s.setPhase i r .missed with cache := c }

/-- The file read and the checksum test; the read may fail. -/
def fetchStep (s : SharedCache) (i : Nat) (r : BlockRead) (fault : Option Status) : SharedCache :=
  match fault with
  | some status => s.setPhase i r (.done (.error status))
  | none =>
    match r.table.readFile r.entry with
    | .error status => s.setPhase i r (.done (.error status))
    | .ok buf => s.setPhase i r (.fetched buf)

def insertStep (s : SharedCache) (i : Nat) (r : BlockRead) (buf : Bytes) : SharedCache :=
  let (v, c) := s.cache.insert r.table.number r.entry.offset buf
  { s.setPhase i r (.done (.ok v)) with cache := c }

def eraseStep (s : SharedCache) (i fileNumber : Nat) : SharedCache :=
  { s with cache := ⟨s.cache.shards.set i ((s.cache.shards.getD i {}).eraseFile fileNumber)⟩ }

def step (s : SharedCache) : CacheAct → Option SharedCache
  | .call table block => do
    let t ← s.tables[table]?
    let e ← t.index[block]?
    some { s with reads := s.reads ++ [⟨t, e, .started⟩] }
  | .lookup i => do
    let r ← s.reads[i]?
    match r.phase with
    | .started => some (s.lookupStep i r)
    | _ => none
  | .fetch i fault => do
    let r ← s.reads[i]?
    match r.phase with
    | .missed => some (s.fetchStep i r fault)
    | _ => none
  | .insert i => do
    let r ← s.reads[i]?
    match r.phase with
    | .fetched buf => some (s.insertStep i r buf)
    | _ => none
  | .eraseShard i fileNumber => some (s.eraseStep i fileNumber)

def run (s : SharedCache) (acts : List CacheAct) : Option SharedCache := acts.foldlM step s

/-- Index entries of one offset are one block: past the cache they are read alike. -/
def OneBlock (t : Table) : Prop :=
  ∀ e ∈ t.index, ∀ e' ∈ t.index, e.offset = e'.offset → ∀ v, t.readFile e = .ok v →
    t.readFile e' = .ok v

/-- A buffer that has been read, and a result, are what the file holds. -/
def BlockRead.Right (r : BlockRead) : Prop :=
  match r.phase with
  | .fetched buf => r.table.readFile r.entry = .ok buf
  | .done (.ok v) => r.table.readFile r.entry = .ok v
  | _ => True

structure Transparent (s : SharedCache) : Prop where
  cache : s.cache.Caches fun n off v =>
    ∀ t ∈ s.tables, t.number = n → ∀ e ∈ t.index, e.offset = off → t.readFile e = .ok v
  call : ∀ r ∈ s.reads, r.table ∈ s.tables ∧ r.entry ∈ r.table.index
  right : ∀ r ∈ s.reads, BlockRead.Right r

variable {s s' : SharedCache} {r : BlockRead}

theorem Transparent.setPhase (h : s.Transparent) (hr : r ∈ s.reads) (i : Nat) {phase : ReadPhase}
    (hp : BlockRead.Right { r with phase }) : (s.setPhase i r phase).Transparent where
  cache := h.cache
  call := fun x hx => by
    obtain hx | rfl := List.mem_or_eq_of_mem_set hx
    · exact h.call x hx
    · exact h.call r hr
  right := fun x hx => by
    obtain hx | rfl := List.mem_or_eq_of_mem_set hx
    · exact h.right x hx
    · exact hp

theorem Transparent.lookupStep (h : s.Transparent) (hr : r ∈ s.reads) (i : Nat) :
    (s.lookupStep i r).Transparent := by
  obtain ⟨ht, he⟩ := h.call r hr
  obtain ⟨hhit, hkeep⟩ := h.cache.lookup r.table.number r.entry.offset
  rw [SharedCache.lookupStep]
  split
  · rename_i v c hl
    rw [hl] at hhit hkeep
    have hset : (s.setPhase i r (.done (.ok v))).Transparent :=
      h.setPhase hr i (hhit v rfl _ ht rfl _ he rfl)
    exact ⟨hkeep, hset.call, hset.right⟩
  · rename_i c hl
    rw [hl] at hkeep
    have hset : (s.setPhase i r .missed).Transparent := h.setPhase hr i trivial
    exact ⟨hkeep, hset.call, hset.right⟩

theorem Transparent.fetchStep (h : s.Transparent) (hr : r ∈ s.reads) (i : Nat)
    (fault : Option Status) : (s.fetchStep i r fault).Transparent := by
  cases fault with
  | some status => exact h.setPhase hr i trivial
  | none =>
    rw [SharedCache.fetchStep]
    split
    · exact h.setPhase hr i trivial
    · rename_i hread
      exact h.setPhase hr i hread

theorem Transparent.insertStep (h : s.Transparent)
    (hnum : s.tables.Pairwise fun t t' => t.number ≠ t'.number) (hone : ∀ t ∈ s.tables, OneBlock t)
    (hr : r ∈ s.reads) (hp : r.phase = .fetched buf) (i : Nat) :
    (s.insertStep i r buf).Transparent := by
  obtain ⟨ht, he⟩ := h.call r hr
  have hread : r.table.readFile r.entry = .ok buf := by
    have := h.right r hr
    rwa [BlockRead.Right, hp] at this
  have hbuf : ∀ t ∈ s.tables, t.number = r.table.number → ∀ e ∈ t.index,
      e.offset = r.entry.offset → t.readFile e = .ok buf := by
    intro t ht' hn e he' ho
    obtain rfl : t = r.table := List.inj_on_of_nodup_map (List.pairwise_map.2 hnum) ht' ht hn
    exact hone _ ht _ he _ he' ho.symm _ hread
  obtain ⟨hv, hkeep⟩ := h.cache.insert hbuf
  have hset : (s.setPhase i r
      (.done (.ok (s.cache.insert r.table.number r.entry.offset buf).1))).Transparent :=
    h.setPhase hr i (hv _ ht rfl _ he rfl)
  exact ⟨hkeep, hset.call, hset.right⟩

theorem Transparent.eraseStep (h : s.Transparent) (i number : Nat) :
    (s.eraseStep i number).Transparent := by
  refine ⟨h.cache.set i fun e he => ?_, h.call, h.right⟩
  exact h.cache.getD i e (CacheShard.mem_eraseFile _ number e he)

theorem Transparent.step (h : s.Transparent)
    (hnum : s.tables.Pairwise fun t t' => t.number ≠ t'.number) (hone : ∀ t ∈ s.tables, OneBlock t)
    (hs : s.step a = some s') : s'.Transparent ∧ s'.tables = s.tables := by
  cases a with
  | call table block =>
    simp only [SharedCache.step, Option.bind_eq_bind, Option.bind_eq_some_iff] at hs
    obtain ⟨t, ht, e, he, hs⟩ := hs
    cases hs
    refine ⟨⟨h.cache, fun x hx => ?_, fun x hx => ?_⟩, rfl⟩
    · obtain hx | hx := List.mem_append.1 hx
      · exact h.call x hx
      · obtain rfl := List.mem_singleton.1 hx
        exact ⟨List.mem_of_getElem? ht, List.mem_of_getElem? he⟩
    · obtain hx | hx := List.mem_append.1 hx
      · exact h.right x hx
      · obtain rfl := List.mem_singleton.1 hx
        trivial
  | lookup i =>
    simp only [SharedCache.step, Option.bind_eq_bind, Option.bind_eq_some_iff] at hs
    obtain ⟨r, hr, hs⟩ := hs
    split at hs
    · cases hs
      refine ⟨h.lookupStep (List.mem_of_getElem? hr) i, ?_⟩
      rw [SharedCache.lookupStep]
      split <;> rfl
    · cases hs
  | fetch i fault =>
    simp only [SharedCache.step, Option.bind_eq_bind, Option.bind_eq_some_iff] at hs
    obtain ⟨r, hr, hs⟩ := hs
    split at hs
    · cases hs
      refine ⟨h.fetchStep (List.mem_of_getElem? hr) i fault, ?_⟩
      cases fault with
      | some status => rfl
      | none =>
        rw [SharedCache.fetchStep]
        split <;> rfl
    · cases hs
  | insert i =>
    simp only [SharedCache.step, Option.bind_eq_bind, Option.bind_eq_some_iff] at hs
    obtain ⟨r, hr, hs⟩ := hs
    split at hs
    · rename_i hp
      cases hs
      exact ⟨h.insertStep hnum hone (List.mem_of_getElem? hr) hp i, rfl⟩
    · cases hs
  | eraseShard i number =>
    cases hs
    exact ⟨h.eraseStep i number, rfl⟩

theorem Transparent.run (h : s.Transparent)
    (hnum : s.tables.Pairwise fun t t' => t.number ≠ t'.number) (hone : ∀ t ∈ s.tables, OneBlock t)
    (hs : s.run acts = some s') : s'.Transparent := by
  induction acts generalizing s with
  | nil =>
    cases hs
    exact h
  | cons a acts ih =>
    rw [SharedCache.run, List.foldlM_cons] at hs
    obtain ⟨s₁, hstep, hrun⟩ := Option.bind_eq_some_iff.1 hs
    obtain ⟨h₁, htab⟩ := h.step hnum hone hstep
    exact ih h₁ (htab ▸ hnum) (htab ▸ hone) hrun

theorem oneBlock_of_offsets {t : Table} (h : t.index.Pairwise fun a b => a.offset < b.offset) :
    OneBlock t := by
  intro e he e' he' ho v hv
  have hasc : Ascending IndexEntry.offset t.index := h
  rwa [← hasc.inj he he' ho]

/-- However the calls interleave, one that returns OK returns what the file holds, if entries of
one offset are one block. -/
theorem cache_transparent (tables : List Table) (capacityBytes numShards : Nat)
    (hnum : tables.Pairwise fun t t' => t.number ≠ t'.number) (hone : ∀ t ∈ tables, OneBlock t)
    (acts : List CacheAct)
    (hs : run { tables, cache := .new capacityBytes numShards } acts = some s) :
    ∀ r ∈ s.reads, ∀ v, r.phase = .done (.ok v) → r.table.readFile r.entry = .ok v := by
  have hnew : Transparent { tables, cache := .new capacityBytes numShards } :=
    ⟨BlockCache.caches_new _ _, fun r hr => (nomatch hr), fun r hr => (nomatch hr)⟩
  intro r hr v hv
  have hright := (hnew.run hnum hone hs).right r hr
  rwa [BlockRead.Right, hv] at hright

/-- A table of one block. -/
def soleTable : Table := ⟨"000001.sst", [7, 0, 0, 0, 0], 1, false, [⟨[], 0, 1⟩], []⟩

/-- Two readers miss, both insert, and a third one hits. -/
def bothInsert : List CacheAct :=
  [.call 0 0, .call 0 0, .lookup 0, .lookup 1, .fetch 0 none, .fetch 1 none, .insert 1, .insert 0,
    .call 0 0, .lookup 2, .eraseShard 0 1]

theorem cache_transparent_sole : ∃ s,
    run { tables := [soleTable], cache := .new 4096 2 } bothInsert = some s ∧
    s.reads.map BlockRead.phase = List.replicate 3 (.done (.ok [7])) ∧
    ∀ r ∈ s.reads, ∀ v, r.phase = .done (.ok v) → r.table.readFile r.entry = .ok v := by
  have hphases : (run { tables := [soleTable], cache := .new 4096 2 } bothInsert).map
      (fun s => s.reads.map BlockRead.phase) = some (List.replicate 3 (.done (.ok [7]))) := by
    decide +kernel
  obtain ⟨s, hs, hreads⟩ := Option.map_eq_some_iff.1 hphases
  refine ⟨s, hs, hreads, cache_transparent [soleTable] 4096 2 (List.pairwise_singleton ..) ?_ _ hs⟩
  intro t ht
  obtain rfl := List.mem_singleton.1 ht
  exact oneBlock_of_offsets (List.pairwise_singleton ..)

/-- A file whose index has two entries with offset 0: a block of one byte, and a block of that
byte and its checksum. -/
def aliasedFile : Bytes :=
  let short : Bytes := [7] ++ putFixed32 (Crc32c.value [7]).toNat
  let index := putLengthPrefixed [] ++ (putFixed64 0 ++ putFixed64 1) ++
    (putLengthPrefixed [] ++ (putFixed64 0 ++ putFixed64 5))
  short ++ putFixed32 (Crc32c.value short).toNat ++ putFixed32 (Crc32c.value []).toNat ++
    (index ++ putFixed32 (Crc32c.value index).toNat) ++ TableBuilder.footer 13 40 9 0

def aliasedTable : Table :=
  ⟨"000001.sst", aliasedFile, 1, true, [⟨[], 0, 1⟩, ⟨[], 0, 5⟩], []⟩

/-- The cache knows a block by its offset alone: once the short block is cached, a read of the long
one returns the short one. `Open` accepts the table, and both blocks pass their checksum. -/
theorem aliased_read :
    Table.openFile "000001.sst" aliasedFile {} 1 = .ok aliasedTable ∧
    (run { tables := [aliasedTable], cache := .new 4096 1 }
        [.call 0 0, .lookup 0, .fetch 0 none, .insert 0, .call 0 1, .lookup 1]).map reads =
      some [⟨aliasedTable, ⟨[], 0, 1⟩, .done (.ok [7])⟩,
        ⟨aliasedTable, ⟨[], 0, 5⟩, .done (.ok [7])⟩] ∧
    ∃ v, aliasedTable.readFile ⟨[], 0, 5⟩ = .ok (7 :: v) ∧ v ≠ [] := by
  refine ⟨by decide +kernel, by decide +kernel, aliasedFile.tail.take 4, by decide +kernel,
    by decide +kernel⟩

end SharedCache

end LsmKv
