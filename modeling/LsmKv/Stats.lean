import LsmKv.Checking

namespace LsmKv
set_option autoImplicit true

/-- The cumulative fields of `DbStats`. -/
inductive Counter where
  | writes
  | walSyncs
  | writeGroups
  | writesGrouped
  | memtableFlushes
  | compactions
  | compactionInputBytes
  | compactionOutputBytes
  | flushOutputBytes
  | flushVersionsDropped
  | bytesWrittenToWal
  | userBytesWritten
  | gets
  | getHitsMemtable
  | sstableBlocksRead
  | bloomRejections
  | tablesProbed
  | blockCacheHits
  | blockCacheMisses
  | blockCacheEvictions
  | scanEntriesReturned
  | scanEntriesSkipped
deriving DecidableEq, Repr

def Counter.all : List Counter :=
  [.writes, .walSyncs, .writeGroups, .writesGrouped, .memtableFlushes, .compactions,
    .compactionInputBytes, .compactionOutputBytes, .flushOutputBytes, .flushVersionsDropped,
    .bytesWrittenToWal, .userBytesWritten, .gets, .getHitsMemtable, .sstableBlocksRead,
    .bloomRejections, .tablesProbed, .blockCacheHits, .blockCacheMisses, .blockCacheEvictions,
    .scanEntriesReturned, .scanEntriesSkipped]

theorem Counter.mem_all (c : Counter) : c ∈ all := by
  cases c <;> decide

/-- The `Stats` of one open table, as far as `GetStats` reads them. -/
structure TableStats where
  blocksRead : Nat := 0
  bloomRejections : Nat := 0
deriving DecidableEq, Repr

/-- What a step adds to the counters: to those of the database and its block cache, and to those of
the open tables, by file number. -/
structure Work where
  own : Counter → Nat := fun _ => 0
  tables : Nat → TableStats := fun _ => {}

namespace Work

def count (c : Counter) (n : Nat) : Work where
  own d := if d = c then n else 0

def table (number : Nat) (t : TableStats) : Work where
  tables n := if n = number then t else {}

def add (v w : Work) : Work where
  own c := v.own c + w.own c
  tables n := ⟨(v.tables n).blocksRead + (w.tables n).blocksRead,
    (v.tables n).bloomRejections + (w.tables n).bloomRejections⟩

instance : Add Work := ⟨add⟩
instance : Zero Work := ⟨{}⟩

end Work

section Get

/-- How many blocks the cache holds. -/
def BlockCache.blocks (c : BlockCache) : Nat := (c.shards.map fun s => s.order.length).sum

/-- `ReadBlock`: a hit, or a miss with a file read that is counted when it succeeds. -/
def Table.readWork (t : Table) (entry : IndexEntry) (s : Store) : Work :=
  let read : Work :=
    if ((t.fetch entry).run s).1.isOk then .table t.number { blocksRead := 1 } else 0
  match s.cache with
  | none => read
  | some c =>
    if (c.lookup t.number entry.offset).1.isSome then .count .blockCacheHits 1
    else
      let c' := ((t.readBlock entry).run s).2.cache.getD c
      .count .blockCacheMisses 1 + read + .count .blockCacheEvictions
        (if ((t.fetch entry).run s).1.isOk then c.blocks + 1 - c'.blocks else 0)

def Table.getWork (t : Table) (key : Bytes) (seq : Nat) (s : Store) : Work :=
  if !BloomFilter.mayContain t.bloom key then .table t.number { bloomRejections := 1 }
  else
    match t.index.drop (t.blocksFrom (lookupKey key seq)) with
    | [] => 0
    | entry :: _ => t.readWork entry s

namespace Version

def probeWork (f : FileMetaData) (key : Bytes) (seq : Nat) (s : Store) : Work :=
  if key < extractUserKey f.smallest ∨ extractUserKey f.largest < key then 0
  else .count .tablesProbed 1 + f.table.getWork key seq s

def getLevel0Work (key : Bytes) (seq : Nat) : List FileMetaData → Store → Work
  | [], _ => 0
  | f :: fs, s =>
    let (found, s') := (probe f key seq).run s
    probeWork f key seq s + if found.isSome then 0 else getLevel0Work key seq fs s'

def getLevelWork (files : List FileMetaData) (key : Bytes) (seq : Nat) (s : Store) : Work :=
  match files.drop (lowerBoundOf (fun f => decide (extractUserKey f.largest < key)) files) with
  | [] => 0
  | f :: _ => probeWork f key seq s

def getDeeperWork (v : Version) (key : Bytes) (seq : Nat) : List Nat → Store → Work
  | [], _ => 0
  | level :: rest, s =>
    let (found, s') := (getLevel (v.levels level) key seq).run s
    getLevelWork (v.levels level) key seq s + if found.isSome then
    0 else getDeeperWork v key seq rest s'

def getWork (v : Version) (key : Bytes) (seq : Nat) (s : Store) : Work :=
  let (found, s') := (getLevel0 key seq (v.levels 0)).run s
  getLevel0Work key seq (v.levels 0) s +
    if found.isSome then 0 else v.getDeeperWork key seq (List.range' 1 (kNumLevels - 1)) s'

end Version

/-- `DB::Get` after its section under `mu_`. -/
def Db.Capture.getWork (c : Capture) (key : Bytes) (s : Store) : Work :=
  .count .gets 1 +
    if ((s.mems c.mem).get key c.seq).isSome then .count .getHitsMemtable 1
    else if (c.imm.bind fun imm => (s.mems imm).get key c.seq).isSome then 0
    else c.version.getWork key c.seq s

end Get

/-- The end of `Write` for a group; the product with 5 is one of `uint32_t` values. -/
def Lead.work (ld : Lead) (sync : Bool) : Work :=
  let userBytes := (ld.batch.forEach.1.map fun e => e.key.length + e.value.length).sum
  .count .walSyncs (if sync then 1 else 0) +
    .count .bytesWrittenToWal (userBytes + 20 + ld.batch.count * 5 % 2 ^ 32) +
    .count .userBytesWritten userBytes + .count .writes ld.batch.count + .count .writeGroups 1 +
    .count .writesGrouped ld.batch.count

/-- What the destructor of an iterator publishes. -/
def scanWork (returned skipped : Nat) : Work :=
  .count .scanEntriesReturned returned + .count .scanEntriesSkipped skipped

def Counter.ofCache : Counter → Bool
  | blockCacheHits | blockCacheMisses | blockCacheEvictions => true
  | _ => false

def Counter.ofJobs : Counter → Bool
  | memtableFlushes | compactions | compactionInputBytes | compactionOutputBytes | flushOutputBytes
  | flushVersionsDropped => true
  | _ => false

/-- Some blocks of open tables are read, and the counters in `own` go up. -/
structure Work.Reads (s : Sys) (own : Counter → Bool) (w : Work) : Prop where
  own_eq : ∀ c, own c = false → w.own c = 0
  opened : ∀ n, w.tables n ≠ {} → ∃ t ∈ s.opened, t.number = n

/-- The counters a step of the machine moves. How many blocks a cursor reads, and how large the
tables of a job are, is left open. -/
def Act.Does (s : Sys) (w : Work) : Act → Prop
  | finish => ∃ ld sync, s.lead = some ld ∧ w = ld.work sync
  | getEnd id => ∃ call, s.gets.find? (fun c => c.id == id) = some call ∧
      w = call.capture.getWork call.key s.store
  | seekToFirst _ => w.Reads s Counter.ofCache
  | seek _ _ => w.Reads s Counter.ofCache
  | next _ => w.Reads s Counter.ofCache
  | job _ _ _ => w.Reads s fun c => c.ofCache || c.ofJobs
  | _ => w = 0

/-- `w`, as far as a step may do it. -/
def Work.within (s : Sys) (own : Counter → Bool) (w : Work) : Work where
  own c := if own c then w.own c else 0
  tables n := if n ∈ s.opened.map (·.number) then w.tables n else {}

theorem Work.within_reads (s : Sys) (own : Counter → Bool) (w : Work) :
    (w.within s own).Reads s own where
  own_eq c hc := by simp [within, hc]
  opened n hn := by
    simp only [within] at hn
    split at hn
    · rename_i hm
      exact List.mem_map.1 hm
    · exact absurd rfl hn

/-- The counters a step moves, with `extra` for what is left open. -/
def Act.work (s : Sys) (sync : Bool) (extra : Work) : Act → Work
  | finish => (s.lead.map fun ld => ld.work sync).getD 0
  | getEnd id => ((s.gets.find? fun c => c.id == id).map fun call =>
      call.capture.getWork call.key s.store).getD 0
  | seekToFirst _ => extra.within s Counter.ofCache
  | seek _ _ => extra.within s Counter.ofCache
  | next _ => extra.within s Counter.ofCache
  | job _ _ _ => extra.within s fun c => c.ofCache || c.ofJobs
  | _ => 0

theorem Act.does_work {s s' : Sys} {a : Act} (hs : step s a = some s') (sync : Bool)
    (extra : Work) :
    a.Does s (a.work s sync extra) := by
  cases a with
  | finish =>
    cases hl : s.lead with
    | none => simp [step, Sys.finish, hl] at hs
    | some ld => exact ⟨ld, sync, hl, by simp [work, hl]⟩
  | getEnd id =>
    cases hf : s.gets.find? (fun c => c.id == id) with
    | none => simp [step, Sys.getEnd, hf] at hs
    | some call => exact ⟨call, hf, by simp [work, hf]⟩
  | job i n order => exact extra.within_reads s _
  | seekToFirst id => exact extra.within_reads s _
  | seek id target => exact extra.within_reads s _
  | next id => exact extra.within_reads s _
  | _ => rfl

/-- The machine with the counters of the open database. `hasCache` is whether `block_cache_` is set,
which `Open` decides. -/
structure Metered where
  sys : Sys := {}
  hasCache : Bool := false
  own : Counter → Nat := fun _ => 0
  tables : Nat → TableStats := fun _ => {}

namespace Metered

def after (m : Metered) (s : Sys) (w : Work) : Metered where
  sys := s
  hasCache := m.hasCache
  own c := m.own c + w.own c
  tables n := ⟨(m.tables n).blocksRead + (w.tables n).blocksRead,
    (m.tables n).bloomRejections + (w.tables n).bloomRejections⟩

/-- A step of the process that has the database open. -/
inductive Step (m : Metered) : Metered → Prop where
  | act (hs : step m.sys a = some s) (ha : a.internal) (hw : a.Does m.sys w) : Step m (m.after s w)
  | close (returned skipped : Nat) : Step m (m.after m.sys (scanWork returned skipped))

/-- Every `Open` starts from zero. -/
inductive Reach : Metered → Prop where
  | closed : Reach {}
  | reopen (h : Reach m) (hs : LsmKv.step m.sys a = some s) (ha : ¬ a.internal) :
      Reach { sys := s, hasCache := s.store.cache.isSome }
  | step (h : Reach m) (hs : Step m m') : Reach m'

/-- Steps on one open database, each of which meets `P`. -/
inductive Steps (P : Metered → Metered → Prop) (m : Metered) : Metered → Prop where
  | refl : Steps P m m
  | step (h : Steps P m m') (hs : Step m' m'') (hp : P m' m'') : Steps P m m''

/-- The sum over the files of the current version. -/
def overFiles (m : Metered) (f : TableStats → Nat) : Nat :=
  (m.sys.db.current.files.map fun file => f (m.tables file.number)).sum

/-- The counts, before they are reduced to 64 bits. -/
def total (m : Metered) : Counter → Nat
  | .sstableBlocksRead => m.own .sstableBlocksRead + m.overFiles TableStats.blocksRead
  | .bloomRejections => m.own .bloomRejections + m.overFiles TableStats.bloomRejections
  | c => if c.ofCache && !m.hasCache then 0 else m.own c

def getStats (m : Metered) (c : Counter) : Nat := m.total c % 2 ^ 64

/-- The files of the current version that have been read from. -/
def counted (m : Metered) : List Nat :=
  (m.sys.db.current.files.map (·.number)).filter fun n => m.tables n ≠ {}

/-- No such file has left the current version. -/
def Keeps (m m' : Metered) : Prop :=
  ∀ n ∈ m.counted, m.counted.count n ≤ (m'.sys.db.current.files.map (·.number)).count n

theorem Keeps.subperm (h : Keeps m m') :
    List.Subperm m.counted (m'.sys.db.current.files.map (·.number)) :=
  List.subperm_ext_iff.2 h

theorem overFiles_counted (m : Metered) (hf : f {} = 0) :
    m.overFiles f = (m.counted.map fun n => f (m.tables n)).sum := by
  rw [overFiles, counted]
  induction m.sys.db.current.files with
  | nil => rfl
  | cons file files ih =>
    rw [List.map_cons, List.sum_cons, ih, List.map_cons, List.filter_cons]
    by_cases h : m.tables file.number = {}
    · rw [if_neg (by simp [h]), h, hf, Nat.zero_add]
    · rw [if_pos (by simp [h]), List.map_cons, List.sum_cons]

theorem overFiles_mono (hk : Keeps m m') (hf : f {} = 0)
    (hle : ∀ n, f (m.tables n) ≤ f (m'.tables n)) :
    m.overFiles f ≤ m'.overFiles f := by
  obtain ⟨l, hperm, hsub⟩ := hk.subperm
  calc m.overFiles f = (m.counted.map fun n => f (m.tables n)).sum := m.overFiles_counted hf
    _ ≤ (m.counted.map fun n => f (m'.tables n)).sum := List.sum_le_sum fun n _ => hle n
    _ = (l.map fun n => f (m'.tables n)).sum := ((hperm.map _).sum_eq).symm
    _ ≤ ((m'.sys.db.current.files.map (·.number)).map fun n => f (m'.tables n)).sum :=
      (hsub.map _).sum_le_sum fun _ _ => Nat.zero_le _
    _ = m'.overFiles f := by rw [List.map_map]; rfl

theorem total_after (m : Metered) (s : Sys) (w : Work) (hk : Keeps m (m.after s w)) (c : Counter) :
    m.total c ≤ (m.after s w).total c := by
  have hown : m.own c ≤ (m.after s w).own c := Nat.le_add_right _ _
  cases c with
  | sstableBlocksRead =>
    exact Nat.add_le_add hown (overFiles_mono hk rfl fun n => Nat.le_add_right _ _)
  | bloomRejections =>
    exact Nat.add_le_add hown (overFiles_mono hk rfl fun n => Nat.le_add_right _ _)
  | _ =>
    simp only [total]
    split
    · exact Nat.zero_le _
    · rename_i hc
      exact hown.trans (if_neg hc).ge

theorem Steps.total_le (h : Steps Keeps m m') (c : Counter) : m.total c ≤ m'.total c := by
  induction h with
  | refl => exact le_refl _
  | step _ hs hk ih =>
    cases hs with
    | act hs ha hw => exact ih.trans (total_after _ _ _ hk c)
    | close returned skipped => exact ih.trans (total_after _ _ _ hk c)

/-- Two calls of `GetStats` show every counter going up, as long as no table that has been read from
leaves the current version between them and no count outgrows 64 bits. -/
theorem stats_monotonic (h : Steps Keeps m m') (hfit : ∀ c, m'.total c < 2 ^ 64) (c : Counter) :
    m.getStats c ≤ m'.getStats c := by
  have hle := h.total_le c
  rw [getStats, getStats, Nat.mod_eq_of_lt (hfit c), Nat.mod_eq_of_lt (hle.trans_lt (hfit c))]
  exact hle

section Play

instance : Decidable (Keeps m m') := by
  unfold Keeps
  infer_instance

instance : DecidablePred Act.internal := fun a => by
  cases a <;> unfold Act.internal <;> infer_instance

/-- Takes actions with what they leave open in order; `sync` is what the groups of
the run decide. -/
def play (sync : Bool) : Metered → List (Act × Work) → Option Metered
  | m, [] => some m
  | m, (a, extra) :: as =>
    match LsmKv.step m.sys a with
    | none => none
    | some s =>
      if a.internal then play sync (m.after s (a.work m.sys sync extra)) as
      else play sync { sys := s, hasCache := s.store.cache.isSome } as

theorem Reach.play (h : Reach m) (hp : play sync m as = some m') : Reach m' := by
  induction as generalizing m with
  | nil =>
    cases hp
    exact h
  | cons p as ih =>
    obtain ⟨a, extra⟩ := p
    rw [Metered.play] at hp
    split at hp
    · cases hp
    · rename_i s hs
      split at hp
      · rename_i ha
        exact ih (h.step (.act hs ha (Act.does_work hs sync extra))) hp
      · rename_i ha
        exact ih (h.reopen hs ha) hp

/-- The same on one open database, with `P` checked at each step. -/
def playWhile (P : Metered → Metered → Prop) [DecidableRel P] (sync : Bool) :
    Metered → List (Act × Work) → Option Metered
  | m, [] => some m
  | m, (a, extra) :: as =>
    match LsmKv.step m.sys a with
    | none => none
    | some s =>
      if a.internal ∧ P m (m.after s (a.work m.sys sync extra)) then
        playWhile P sync (m.after s (a.work m.sys sync extra)) as
      else none

theorem Steps.trans {P : Metered → Metered → Prop} (h : Steps P m m') (h' : Steps P m' m'') :
    Steps P m m'' := by
  induction h' with
  | refl => exact h
  | step _ hs hp ih => exact ih.step hs hp

theorem Steps.mono {P Q : Metered → Metered → Prop} (h : Steps P m m')
    (hpq : ∀ m m', P m m' → Q m m') : Steps Q m m' := by
  induction h with
  | refl => exact .refl
  | step _ hs hp ih => exact ih.step hs (hpq _ _ hp)

theorem Steps.playWhile {P : Metered → Metered → Prop} [DecidableRel P]
    (hp : playWhile P sync m as = some m') : Steps P m m' := by
  induction as generalizing m with
  | nil =>
    cases hp
    exact .refl
  | cons p as ih =>
    obtain ⟨a, extra⟩ := p
    rw [Metered.playWhile] at hp
    split at hp
    · cases hp
    · rename_i s hs
      split at hp
      · rename_i ha
        exact .trans (.step .refl (.act hs ha.1 (Act.does_work hs sync extra)) ha.2) (ih hp)
      · cases hp

def quiet (as : List Act) : List (Act × Work) := as.map fun a => (a, 0)

/-- One record is written, flushed to table 3 and read from there. -/
def readActs : List (Act × Work) :=
  quiet (.recover { l0CompactionTrigger := 2, backgroundCompaction := false } "db" :: .startLog ::
    jobActs 8 ++ .job 0 0 [.manifest, .log 1] :: jobActs 1 ++ putActs [97] [1] ++ rotateActs ++
    .startFlush :: jobActs 10 ++ .job 0 0 [.manifest, .sst 3, .log 2, .log 1] :: jobActs 1) ++
  (.job 0 0 [], .count .memtableFlushes 1 + .count .flushOutputBytes 111) ::
  quiet [.getBegin 0 [97] none, .getEnd 0]

/-- Another record goes to table 5, -/
def flushAgainActs : List (Act × Work) :=
  quiet (putActs [98] [1] ++ rotateActs ++
    .startFlush :: jobActs 10 ++ .job 0 0 [.manifest, .sst 5, .log 4, .sst 3, .log 2] ::
    jobActs 1) ++
  [(.job 0 0 [], .count .memtableFlushes 1 + .count .flushOutputBytes 111)]

/-- and both tables are compacted into table 6. -/
def compactBothActs : List (Act × Work) :=
  (.startCompaction 0, 0) ::
  (.job 0 0 [], .count .blockCacheHits 1 + .count .blockCacheMisses 1 +
    .table 5 { blocksRead := 1 }) ::
  quiet (jobActs 11 ++ .job 0 0 [.manifest, .sst 6, .sst 5, .log 4, .sst 3] :: jobActs 2) ++
  [(.job 0 0 [], .count .compactions 1 + .count .compactionInputBytes 222 +
    .count .compactionOutputBytes 124)]

set_option synthInstance.maxSize 2000 in
theorem readActs_run : ∃ m₁, play true {} readActs = some m₁ ∧ m₁.getStats .sstableBlocksRead = 1 ∧
    ∃ m₂, playWhile Keeps true m₁ flushAgainActs = some m₂ ∧ m₂.getStats .writes = 2 ∧
      (∀ c ∈ Counter.all, m₂.total c < 2 ^ 64) ∧
      ∃ m₃, playWhile (fun _ _ => True) true m₂ compactBothActs = some m₃ ∧
        m₃.getStats .sstableBlocksRead = 0 := by
  decide +kernel

theorem stats_monotonic_flush : ∃ m m', Reach m ∧ Steps Keeps m m' ∧ m'.getStats .writes = 2 ∧
    ∀ c, m.getStats c ≤ m'.getStats c := by
  obtain ⟨m₁, h₁, _, m₂, h₂, hw, hfit, _⟩ := readActs_run
  have hsteps := Steps.playWhile h₂
  exact ⟨m₁, m₂, Reach.closed.play h₁, hsteps, hw,
    stats_monotonic hsteps fun c => hfit c (Counter.mem_all c)⟩

/-- The reads of a table are forgotten with the table. -/
theorem stats_not_monotonic : ¬ ∀ m m', Reach m → Steps (fun _ _ => True) m m' →
    ∀ c, m.getStats c ≤ m'.getStats c := by
  intro h
  obtain ⟨m₁, h₁, hone, m₂, h₂, _, _, m₃, h₃, hzero⟩ := readActs_run
  have hsteps : Steps (fun _ _ => True) m₁ m₃ :=
    .trans ((Steps.playWhile h₂).mono fun _ _ _ => trivial) (Steps.playWhile h₃)
  have hle := h m₁ m₃ (Reach.closed.play h₁) hsteps .sstableBlocksRead
  rw [hone, hzero] at hle
  exact absurd hle (by decide)

end Play

end Metered

end LsmKv
