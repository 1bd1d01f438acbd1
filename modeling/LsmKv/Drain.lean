import LsmKv.Checking

namespace LsmKv
set_option autoImplicit true

/-- How `PickCompactionLevel` scores the levels. The scores of the source are quotients of doubles;
of their order only this matters. -/
structure Scoring where
  Score : Type
  /-- the comparison `score > best_score` -/
  above : Score → Score → Bool
  /-- the score of a level and its size in bytes -/
  score : Nat → Nat → Score
  /-- `1.0` -/
  one : Score
  trans : ∀ {a b c}, above a b = true → above b c = true → above a c = true
  empty : ∀ level, above (score level 0) one = false

/-- Exact quotients. -/
def Scoring.exact (maxBytes : Nat → Nat) : Scoring where
  Score := ℚ
  above a b := decide (b < a)
  score level bytes := bytes / maxBytes level
  one := 1
  trans h h' := by
    simp only [decide_eq_true_eq] at *
    exact h'.trans h
  empty _ := by simp

/-- The loop over the levels that are scored by their size. -/
def Scoring.pick (sc : Scoring) (v : Version) : List Nat → Option Nat → sc.Score → Option Nat
  | [], best, _ => best
  | level :: rest, best, bestScore =>
    let score := sc.score level (v.levelBytes level)
    if sc.above score bestScore then sc.pick v rest (some level) score
    else sc.pick v rest best bestScore

/-- `none` is a negative level. The trigger is compared as a `size_t`. -/
def Db.pickCompactionLevel (db : Db) (sc : Scoring) : Option Nat :=
  if (db.options.l0CompactionTrigger % 2 ^ 64).toNat ≤ (db.current.levels 0).length then some 0
  else sc.pick db.current (List.range' 1 (kNumLevels - 2)) none sc.one

/-- How a loop with fuel ends: it returns, the process dies in it, or the fuel is not enough. -/
inductive Ending (α : Type u) where
  | returns (a : α)
  | dies
  | outOfFuel

/-- A database that one thread works on, without I/O errors: what the memtables hold, and what
reading a table yields, by number. -/
structure Drain where
  db : Db := {}
  mems : Nat → List Rec := fun _ => []
  contents : Nat → List Rec := fun _ => []
  /-- the largest string that can be had -/
  maxSize : Nat := 2 ^ 63 - 1

namespace Drain

/-- The metadata of a table, once it is built and opened. -/
def metaOf (d : Drain) (number : Nat) (es : List Rec) : FileMetaData :=
  Sys.metaOf number (built d.db.options es) {
    path := tablePath d.db.path number
    file := (built d.db.options es).file
    number := number
    verifyChecksums := d.db.options.verifyChecksums }

/-- Writes tables with these records, under the next numbers. -/
def writeTables (d : Drain) (outs : List (List Rec)) : List FileMetaData × Drain :=
  let next := d.db.nextFileNumber
  (outs.mapIdx fun i es => d.metaOf (next + i) es, { d with
    db := { d.db with nextFileNumber := next + outs.length }
    contents := fun n => if next ≤ n then outs.getD (n - next) (d.contents n) else d.contents n })

/-- The filters of these tables can be built. Otherwise the process ends in the first that cannot,
by a division by zero or an exception that nothing catches. -/
def filtersBuild (d : Drain) (outs : List (List Rec)) : Bool :=
  outs.all fun es => BloomFilter.builds d.maxSize es.length d.db.options.bloomBitsPerKey

/-- The end of a flush: its table is the newest of level 0. -/
def installFlush (d : Drain) (es : List Rec) : Drain :=
  let (files, d) := d.writeTables [es]
  { d with db := { d.db with
    current := d.db.current.setLevel 0 (files ++ d.db.current.levels 0)
    imm := none
    immLogNumber := 0 } }

/-- `none` is the end of the process. -/
def flushImmutableMemTable (d : Drain) (imm : Nat) : Option Drain :=
  let es := keepFrom false d.db.smallestSnapshot {} (d.mems imm)
  if d.filtersBuild [es] then some (d.installFlush es) else none

/-- The end of a compaction: its outputs replace its inputs. -/
def installTables (d : Drain) (c : Compaction) (outs : List (List Rec)) : Drain :=
  let (files, d) := d.writeTables outs
  { d with db := { d.db with current := c.install d.db.current files } }

def doCompaction (d : Drain) (level : Nat) : Option Drain :=
  match d.db.beginCompaction level with
  | none => some d
  | some (db, c) =>
    let recs := mergeRuns Rec.pos (c.inputs.map fun f => d.contents f.number)
    let outs := compactAdds db.options c.bottomMost c.smallestSnapshot {} [] recs
    if d.filtersBuild outs then some ({ d with db := db }.installTables c outs) else none

def hasPendingWork (d : Drain) (sc : Scoring) : Bool :=
  d.db.imm.isSome || (d.db.pickCompactionLevel sc).isSome

def backgroundWorkOnce (d : Drain) (sc : Scoring) : Option Drain :=
  match d.db.imm with
  | some imm => d.flushImmutableMemTable imm
  | none =>
    match d.db.pickCompactionLevel sc with
    | none => some d
    | some level => d.doCompaction level

/-- `DrainBackgroundWork`, of at most `fuel` rounds. -/
def drainBackgroundWork (sc : Scoring) : Nat → Drain → Ending Drain
  | 0, _ => .outOfFuel
  | fuel + 1, d =>
    if d.db.bgError.isOk && d.hasPendingWork sc then
      match d.backgroundWorkOnce sc with
      | none => .dies
      | some d => drainBackgroundWork sc fuel d
    else .returns d

/-- The numbers of the files in use are drawn. -/
def Fresh (d : Drain) : Prop := ∀ l, ∀ f ∈ d.db.current.levels l, f.number < d.db.nextFileNumber

/-- The sum over the tables of a level. -/
def levelSum (d : Drain) (g : List Rec → Nat) (level : Nat) : Nat :=
  ((d.db.current.levels level).map fun f => g (d.contents f.number)).sum

/-- How much work a table at a level still makes: each record can move down so many times, and an
empty table can be dropped. -/
def tableWork (level : Nat) (es : List Rec) : Nat :=
  es.length * (kNumLevels - 1 - level) + if es = [] then 1 else 0

def immWork (d : Drain) : Nat :=
  (d.db.imm.map fun imm => (d.mems imm).length * kNumLevels + 2).getD 0

def work (d : Drain) : Nat :=
  d.immWork + ∑ l ∈ Finset.range kNumLevels, d.levelSum (tableWork l) l

def immRecords (d : Drain) : Nat := (d.db.imm.map fun imm => (d.mems imm).length).getD 0

/-- The records of the tables and of the memtable to flush. -/
def records (d : Drain) : Nat :=
  d.immRecords + ∑ l ∈ Finset.range kNumLevels, d.levelSum List.length l

section Written
variable {d : Drain} {outs : List (List Rec)}

theorem contents_old (h : n < d.db.nextFileNumber) :
    (d.writeTables outs).2.contents n = d.contents n :=
  if_neg (not_le.2 h)

theorem contents_new (h : outs[i]? = some es) :
    (d.writeTables outs).2.contents (d.db.nextFileNumber + i) = es := by
  simp [writeTables, List.getD, h]

theorem map_new_files (d : Drain) (outs : List (List Rec)) (g : List Rec → β) :
    ((d.writeTables outs).1.map fun f => g ((d.writeTables outs).2.contents f.number)) =
      outs.map g := by
  apply List.ext_getElem?
  intro i
  have hfile : (d.writeTables outs).1[i]? = outs[i]?.map (d.metaOf (d.db.nextFileNumber + i)) := by
    simp [writeTables]
  rw [List.getElem?_map, List.getElem?_map, hfile]
  cases hi : outs[i]? with
  | none => rfl
  | some es => exact congrArg (fun es => some (g es)) (contents_new hi)

theorem map_old_files {files : List FileMetaData} (h : ∀ f ∈ files, f.number < d.db.nextFileNumber)
    (g : List Rec → β) :
    (files.map fun f => g ((d.writeTables outs).2.contents f.number)) =
      files.map fun f => g (d.contents f.number) :=
  List.map_congr_left fun f hf => by rw [contents_old (h f hf)]

theorem new_number_lt {f : FileMetaData} (h : f ∈ (d.writeTables outs).1) :
    f.number < d.db.nextFileNumber + outs.length := by
  obtain ⟨i, hi, rfl⟩ := List.mem_mapIdx.1 h
  exact Nat.add_lt_add_left hi _

end Written

theorem sum_eq_of_pair {f g : Nat → Nat} (hl : l + 1 < n)
    (hrest : ∀ m, m ≠ l → m ≠ l + 1 → f m = g m) :
    ∃ r, ∑ m ∈ Finset.range n, f m = f l + f (l + 1) + r ∧
      ∑ m ∈ Finset.range n, g m = g l + g (l + 1) + r := by
  have hmem : l ∈ Finset.range n := Finset.mem_range.2 (by omega)
  have hmem' : l + 1 ∈ (Finset.range n).erase l := by simp [hl]
  refine ⟨∑ m ∈ ((Finset.range n).erase l).erase (l + 1), f m, ?_, ?_⟩
  · rw [← Finset.add_sum_erase _ f hmem, ← Finset.add_sum_erase _ f hmem', Nat.add_assoc]
  · have he : ∑ m ∈ ((Finset.range n).erase l).erase (l + 1), f m =
        ∑ m ∈ ((Finset.range n).erase l).erase (l + 1), g m := by
      apply Finset.sum_congr rfl
      intro m hm
      simp only [Finset.mem_erase] at hm
      exact hrest m hm.2.1 hm.1
    rw [← Finset.add_sum_erase _ g hmem, ← Finset.add_sum_erase _ g hmem', he, Nat.add_assoc]

section Flush
variable {d : Drain} {es : List Rec}

theorem sum_installFlush (hf : d.Fresh) (g : Nat → List Rec → Nat) :
    ∑ l ∈ Finset.range kNumLevels, (d.installFlush es).levelSum (g l) l =
      g 0 es + ∑ l ∈ Finset.range kNumLevels, d.levelSum (g l) l := by
  have hrest : ∀ l, (d.installFlush es).levelSum (g (l + 1)) (l + 1) =
      d.levelSum (g (l + 1)) (l + 1) := fun l =>
    congrArg List.sum (map_old_files (hf (l + 1)) (g (l + 1)))
  have hzero : (d.installFlush es).levelSum (g 0) 0 = g 0 es + d.levelSum (g 0) 0 := by
    have hnew := map_new_files d [es] (g 0)
    have hold : ((d.db.current.levels 0).map fun f =>
        g 0 ((d.writeTables [es]).2.contents f.number)) =
        (d.db.current.levels 0).map fun f => g 0 (d.contents f.number) :=
      map_old_files (hf 0) (g 0)
    simp only [levelSum, installFlush, Version.setLevel, if_pos]
    rw [List.map_append, List.sum_append]
    exact congrArg₂ (· + ·) ((congrArg List.sum hnew).trans (by simp)) (congrArg List.sum hold)
  have hsum : ∀ f : Nat → Nat, ∑ l ∈ Finset.range kNumLevels, f l =
      ∑ l ∈ Finset.range 6, f (l + 1) + f 0 :=
    fun f => Finset.sum_range_succ' f 6
  rw [hsum, hsum, hzero, Finset.sum_congr rfl fun l _ => hrest l]
  omega

theorem tableWork_keepFrom_lt (gc : Bool) (S : Nat) (es : List Rec) :
    tableWork 0 (keepFrom gc S {} es) < es.length * kNumLevels + 2 := by
  have hle := (keepFrom_sublist gc S {} es).length_le
  have h7 : kNumLevels = 7 := rfl
  rw [tableWork, h7]
  split <;> omega

theorem flush_eq_some (h : d.flushImmutableMemTable imm = some d') :
    d' = d.installFlush (keepFrom false d.db.smallestSnapshot {} (d.mems imm)) := by
  rw [flushImmutableMemTable] at h
  split at h
  · exact (Option.some.inj h).symm
  · cases h

theorem work_flush (hf : d.Fresh) (hi : d.db.imm = some imm)
    (h : d.flushImmutableMemTable imm = some d') : d'.work < d.work ∧ d'.records ≤ d.records := by
  obtain rfl := flush_eq_some h
  set es := keepFrom false d.db.smallestSnapshot {} (d.mems imm) with hes
  have himm : (d.installFlush es).immWork = 0 := rfl
  have hnone : (d.installFlush es).immRecords = 0 := rfl
  have hold : d.immWork = (d.mems imm).length * kNumLevels + 2 := by rw [immWork, hi]; rfl
  have hrecs : d.immRecords = (d.mems imm).length := by rw [immRecords, hi]; rfl
  have hlt := tableWork_keepFrom_lt false d.db.smallestSnapshot (d.mems imm)
  have hle := (keepFrom_sublist false d.db.smallestSnapshot {} (d.mems imm)).length_le
  rw [← hes] at hlt hle
  constructor
  · rw [work, work, himm, sum_installFlush hf tableWork]
    omega
  · rw [records, records, hnone, sum_installFlush hf fun _ => List.length]
    omega

theorem fresh_flush (hf : d.Fresh) (es : List Rec) : (d.installFlush es).Fresh := by
  intro l f hm
  simp only [installFlush, Version.setLevel] at hm
  split at hm
  · rcases List.mem_append.1 hm with hm | hm
    · exact new_number_lt hm
    · exact (hf 0 f hm).trans (Nat.lt_add_of_pos_right Nat.one_pos)
  · exact (hf l f hm).trans (Nat.lt_add_of_pos_right Nat.one_pos)

end Flush

section Compact
variable {d : Drain} {c : Compaction} {files : List FileMetaData}

theorem sum_keep_add {inputs : List FileMetaData} (g : FileMetaData → Nat) (removed : List Nat)
    (hin : List.Sublist inputs files) (hr : ∀ f ∈ inputs, f.number ∈ removed) :
    ((files.filter fun f => !removed.contains f.number).map g).sum + (inputs.map g).sum ≤
      (files.map g).sum := by
  have hsub : List.Sublist inputs (files.filter fun f => removed.contains f.number) := by
    have h := hin.filter fun f => removed.contains f.number
    rwa [List.filter_eq_self.2 fun f hf => by simpa using hr f hf] at h
  have hle : (inputs.map g).sum ≤ ((files.filter fun f => removed.contains f.number).map g).sum :=
    (hsub.map g).sum_le_sum fun _ _ => Nat.zero_le _
  have hsplit := ((List.filter_append_perm (fun f => removed.contains f.number) files).map g).sum_eq
  rw [List.map_append, List.sum_append] at hsplit
  omega

theorem beginCompaction_inputs {db db' : Db} (h : db.beginCompaction level = some (db', c)) :
    c.level = level ∧ c.inputs0 ≠ [] ∧ List.Sublist c.inputs0 (db.current.levels level) ∧
      List.Sublist c.inputs1 (db.current.levels (level + 1)) := by
  have hsub := db.inputs0_sublist level
  rw [Db.beginCompaction] at h
  simp only at h
  split at h
  · cases h
  · rename_i f rest hf
    cases h
    exact ⟨rfl, by rw [hf]; exact List.cons_ne_nil f rest, hsub, List.filter_sublist⟩

theorem beginCompaction_isSome {db : Db} (h : db.current.levels level ≠ []) :
    ∃ db' c, db.beginCompaction level = some (db', c) := by
  have hne : (if level = 0 then db.current.levels 0 else (db.chooseFile level).toList) ≠ [] := by
    split
    · rename_i h0
      exact h0 ▸ h
    · obtain ⟨f, rest, hf⟩ := List.exists_cons_of_ne_nil h
      rw [Db.chooseFile, hf, List.head?_cons]
      cases (f :: rest).find? _ <;> simp
  rw [Db.beginCompaction]
  simp only
  split
  · rename_i hnil
    exact absurd hnil hne
  · exact ⟨_, _, rfl⟩

theorem outs_length_le (options : Options) (gc : Bool) (S : Nat) (runs : List (List Rec)) :
    ((compactAdds options gc S {} [] (mergeRuns Rec.pos runs)).map List.length).sum ≤
      (runs.map List.length).sum := by
  have hflat := flatten_compactAdds options gc S {} [] (mergeRuns Rec.pos runs)
  rw [List.nil_append] at hflat
  rw [← List.length_flatten, ← List.length_flatten, hflat,
    ← (mergeRuns_perm Rec.pos runs).length_eq]
  exact (keepFrom_sublist _ _ _ _).length_le

theorem outs_work_le (options : Options) (gc : Bool) (S level : Nat) (runs : List (List Rec)) :
    ((compactAdds options gc S {} [] (mergeRuns Rec.pos runs)).map (tableWork level)).sum ≤
      (runs.map List.length).sum * (kNumLevels - 1 - level) := by
  set outs := compactAdds options gc S {} [] (mergeRuns Rec.pos runs) with houts
  have hlen := outs_length_le options gc S runs
  have hwork : outs.map (tableWork level) =
      outs.map fun es => es.length * (kNumLevels - 1 - level) := by
    apply List.map_congr_left
    intro es hes
    rw [tableWork, if_neg (compactAdds_ne_nil hes), Nat.add_zero]
  rw [hwork, List.sum_map_mul_right]
  exact Nat.mul_le_mul_right _ hlen

theorem tableWork_lt {runs : List (List Rec)} (hne : runs ≠ []) (hl : level + 1 < kNumLevels) :
    (runs.map List.length).sum * (kNumLevels - 1 - (level + 1)) <
      (runs.map (tableWork level)).sum := by
  have hstep : ∀ es : List Rec, es.length * (kNumLevels - 1 - (level + 1)) <
      tableWork level es := by
    intro es
    have hk : kNumLevels - 1 - level = kNumLevels - 1 - (level + 1) + 1 := by omega
    rw [tableWork, hk, Nat.mul_succ]
    split
    · omega
    · rename_i hes
      have := List.length_pos_iff.2 hes
      omega
  rw [← List.sum_map_mul_right]
  exact List.sum_lt_sum_of_ne_nil hne _ _ fun es _ => hstep es

theorem length_le_tableWork (level : Nat) (runs : List (List Rec)) :
    (runs.map List.length).sum * (kNumLevels - 1 - level) ≤ (runs.map (tableWork level)).sum := by
  rw [← List.sum_map_mul_right]
  exact List.sum_le_sum fun es _ => Nat.le_add_right _ _

theorem outs_work_lt (options : Options) (gc : Bool) (S : Nat) {ups ins : List FileMetaData}
    (e : FileMetaData → List Rec) (hne : ups ≠ []) (hl : level + 1 < kNumLevels) :
    ((compactAdds options gc S {} [] (mergeRuns Rec.pos ((ups ++ ins).map e))).map
        (tableWork (level + 1))).sum <
      (ups.map fun f => tableWork level (e f)).sum +
        (ins.map fun f => tableWork (level + 1) (e f)).sum := by
  have hout := outs_work_le options gc S (level + 1) ((ups ++ ins).map e)
  have hsplit : (((ups ++ ins).map e).map List.length).sum =
      ((ups.map e).map List.length).sum + ((ins.map e).map List.length).sum := by
    rw [List.map_append, List.map_append, List.sum_append]
  have hup := tableWork_lt (List.map_eq_nil_iff.not.2 hne : ups.map e ≠ []) hl
  have hin := length_le_tableWork (level + 1) (ins.map e)
  rw [hsplit, Nat.add_mul] at hout
  rw [List.map_map (g := tableWork level)] at hup
  rw [List.map_map (g := tableWork (level + 1))] at hin
  exact hout.trans_lt (Nat.add_lt_add_of_lt_of_le hup hin)

theorem sum_install (g : FileMetaData → Nat) (r : FileMetaData → FileMetaData → Prop)
    [DecidableRel r] (kept new : List FileMetaData) :
    (((kept ++ new).insertionSort r).map g).sum = (kept.map g).sum + (new.map g).sum := by
  rw [((List.perm_insertionSort r _).map g).sum_eq, List.map_append, List.sum_append]

section Install
variable {outs : List (List Rec)}

theorem old_files (hf : d.Fresh) (hs : List.Sublist files (d.db.current.levels m))
    (g : List Rec → Nat) :
    (files.map fun f => g ((d.installTables c outs).contents f.number)) =
      files.map fun f => g (d.contents f.number) :=
  map_old_files (fun f hm => hf m f (hs.subset hm)) g

theorem levelSum_rest (hf : d.Fresh) (g : List Rec → Nat) (h : m ≠ c.level)
    (h' : m ≠ c.level + 1) : (d.installTables c outs).levelSum g m = d.levelSum g m := by
  have hlevels : (d.installTables c outs).db.current.levels m = d.db.current.levels m := by
    simp only [installTables, Compaction.install, Version.setLevel, h, h', if_false]
    rfl
  rw [levelSum, hlevels, old_files hf (List.Sublist.refl _)]
  rfl

theorem levelSum_upper (outs : List (List Rec)) (hf : d.Fresh) (g : List Rec → Nat)
    (hs : List.Sublist c.inputs0 (d.db.current.levels c.level)) :
    (d.installTables c outs).levelSum g c.level +
        (c.inputs0.map fun f => g (d.contents f.number)).sum ≤ d.levelSum g c.level := by
  have hlevels : (d.installTables c outs).db.current.levels c.level =
      (d.db.current.levels c.level).filter
        fun f => !(c.inputs.map (·.number)).contains f.number := by
    simp only [installTables, Compaction.install, Version.setLevel, if_true, if_false,
      (Nat.succ_ne_self c.level).symm]
    rfl
  rw [levelSum, hlevels, old_files hf List.filter_sublist]
  exact sum_keep_add _ _ hs fun f hm => List.mem_map_of_mem (List.mem_append_left _ hm)

theorem levelSum_lower (outs : List (List Rec)) (hf : d.Fresh) (g : List Rec → Nat)
    (hs : List.Sublist c.inputs1 (d.db.current.levels (c.level + 1))) :
    (d.installTables c outs).levelSum g (c.level + 1) +
        (c.inputs1.map fun f => g (d.contents f.number)).sum ≤
      d.levelSum g (c.level + 1) + (outs.map g).sum := by
  have hsum : (d.installTables c outs).levelSum g (c.level + 1) =
      (((d.db.current.levels (c.level + 1)).filter
        fun f => !(c.inputs.map (·.number)).contains f.number).map
          fun f => g (d.contents f.number)).sum + (outs.map g).sum := by
    have hlevels : (d.installTables c outs).db.current.levels (c.level + 1) =
        ((d.db.current.levels (c.level + 1)).filter
          (fun f => !(c.inputs.map (·.number)).contains f.number) ++
            (d.writeTables outs).1).insertionSort
              fun a b => compareInternalKey a.smallest b.smallest ≠ .gt := by
      simp only [installTables, Compaction.install, Version.setLevel, if_true]
      rfl
    rw [levelSum, hlevels, sum_install, old_files hf List.filter_sublist]
    exact congrArg (fun fs => _ + List.sum fs) (map_new_files d outs g)
  have hkeep := sum_keep_add (fun f => g (d.contents f.number)) (c.inputs.map (·.number)) hs
    fun f hm => List.mem_map_of_mem (List.mem_append_right _ hm)
  rw [hsum, levelSum]
  omega

theorem fresh_install (hf : d.Fresh) : (d.installTables c outs).Fresh := by
  intro l f hm
  have hold : ∀ l', f ∈ d.db.current.levels l' → f.number < d.db.nextFileNumber + outs.length :=
    fun l' h => (hf l' f h).trans_le (Nat.le_add_right _ _)
  simp only [installTables, Compaction.install, Version.setLevel] at hm
  split at hm
  · rcases List.mem_append.1 ((List.perm_insertionSort _ _).mem_iff.1 hm) with hm | hm
    · exact hold _ (List.mem_filter.1 hm).1
    · exact new_number_lt hm
  · split at hm
    · exact hold _ (List.mem_filter.1 hm).1
    · exact hold _ hm

end Install

/-- The records that a compaction writes, one list for each table. -/
def outputsOf (d : Drain) (c : Compaction) : List (List Rec) :=
  compactAdds d.db.options c.bottomMost c.smallestSnapshot {} []
    (mergeRuns Rec.pos (c.inputs.map fun f => d.contents f.number))

theorem length_outputsOf_le (d : Drain) (c : Compaction) :
    ((d.outputsOf c).map List.length).sum ≤
      (c.inputs0.map fun f => (d.contents f.number).length).sum +
        (c.inputs1.map fun f => (d.contents f.number).length).sum := by
  have hsplit : ((c.inputs.map fun f => d.contents f.number).map List.length).sum =
      (c.inputs0.map fun f => (d.contents f.number).length).sum +
        (c.inputs1.map fun f => (d.contents f.number).length).sum := by
    rw [List.map_map, Compaction.inputs, List.map_append, List.sum_append]
    rfl
  rw [← hsplit]
  exact outs_length_le d.db.options c.bottomMost c.smallestSnapshot _

theorem compact_cases (d : Drain) (level : Nat) :
    (d.db.beginCompaction level = none ∧ d.doCompaction level = some d) ∨
    ∃ pointer c, d.db.beginCompaction level = some ({ d.db with compactPointer := pointer }, c) ∧
      d.doCompaction level = if d.filtersBuild (d.outputsOf c) then
        some ({ d with db := { d.db with compactPointer := pointer } }.installTables c
          (d.outputsOf c))
        else none := by
  rw [doCompaction]
  cases hb : d.db.beginCompaction level with
  | none => exact .inl ⟨rfl, rfl⟩
  | some p =>
    obtain ⟨db, c⟩ := p
    obtain ⟨_, pointer, rfl⟩ := Db.beginCompaction_db hb
    exact .inr ⟨pointer, c, rfl, rfl⟩

theorem compact_eq_some (h : d.doCompaction level = some d') :
    (d.db.beginCompaction level = none ∧ d' = d) ∨
    ∃ pointer c, d.db.beginCompaction level = some ({ d.db with compactPointer := pointer }, c) ∧
      d' = { d with db := { d.db with compactPointer := pointer } }.installTables c
        (d.outputsOf c) := by
  rcases compact_cases d level with ⟨hb, hd⟩ | ⟨pointer, c, hb, hd⟩
  · rw [hd] at h
    exact .inl ⟨hb, (Option.some.inj h).symm⟩
  · rw [hd] at h
    split at h
    · exact .inr ⟨pointer, c, hb, (Option.some.inj h).symm⟩
    · cases h

theorem records_inputs_le (hl : c.level + 1 < kNumLevels)
    (hs : List.Sublist c.inputs0 (d.db.current.levels c.level))
    (hs' : List.Sublist c.inputs1 (d.db.current.levels (c.level + 1))) :
    ((d.outputsOf c).map List.length).sum ≤ d.records := by
  have hout := length_outputsOf_le d c
  have h0 : (c.inputs0.map fun f => (d.contents f.number).length).sum ≤
      d.levelSum List.length c.level := (hs.map _).sum_le_sum fun _ _ => Nat.zero_le _
  have h1 : (c.inputs1.map fun f => (d.contents f.number).length).sum ≤
      d.levelSum List.length (c.level + 1) := (hs'.map _).sum_le_sum fun _ _ => Nat.zero_le _
  obtain ⟨r, hr, _⟩ := sum_eq_of_pair (f := d.levelSum List.length) (g := d.levelSum List.length) hl
    fun _ _ _ => rfl
  rw [records, hr]
  omega

theorem work_compact (hf : d.Fresh) (hl : level + 1 < kNumLevels)
    (hne : d.db.current.levels level ≠ []) (h : d.doCompaction level = some d') :
    d'.work < d.work ∧ d'.records ≤ d.records := by
  rcases compact_eq_some h with ⟨hnone, _⟩ | ⟨pointer, c, hb, rfl⟩
  · obtain ⟨db, c, hb⟩ := beginCompaction_isSome hne
    rw [hnone] at hb
    cases hb
  obtain ⟨rfl, h0, hsub0, hsub1⟩ := beginCompaction_inputs hb
  set d₁ : Drain := { d with db := { d.db with compactPointer := pointer } } with hd₁
  have hf₁ : d₁.Fresh := hf
  set outs := d.outputsOf c with houts
  have hrest (g : Nat → List Rec → Nat) := sum_eq_of_pair
    (f := fun l => (d₁.installTables c outs).levelSum (g l) l) (g := fun l => d.levelSum (g l) l) hl
    fun m hm hm' => levelSum_rest hf₁ (g m) hm hm'
  constructor
  · have hmoved : (outs.map (tableWork (c.level + 1))).sum <
        (c.inputs0.map fun f => tableWork c.level (d₁.contents f.number)).sum +
          (c.inputs1.map fun f => tableWork (c.level + 1) (d₁.contents f.number)).sum :=
      outs_work_lt d.db.options c.bottomMost c.smallestSnapshot (fun f => d.contents f.number) h0 hl
    have hupper := levelSum_upper outs hf₁ (tableWork c.level) hsub0
    have hlower := levelSum_lower outs hf₁ (tableWork (c.level + 1)) hsub1
    have himm : (d₁.installTables c outs).immWork = d.immWork := rfl
    obtain ⟨r, hnew, hold⟩ := hrest tableWork
    have hsame : ∀ l, d₁.levelSum (tableWork l) l = d.levelSum (tableWork l) l := fun _ => rfl
    rw [work, work, himm, hnew, hold]
    rw [hsame] at hupper hlower
    omega
  · have hmoved : (outs.map List.length).sum ≤
        (c.inputs0.map fun f => (d₁.contents f.number).length).sum +
          (c.inputs1.map fun f => (d₁.contents f.number).length).sum := length_outputsOf_le d c
    have hupper := levelSum_upper outs hf₁ List.length hsub0
    have hlower := levelSum_lower outs hf₁ List.length hsub1
    have himm : (d₁.installTables c outs).immRecords = d.immRecords := rfl
    obtain ⟨r, hnew, hold⟩ := hrest fun _ => List.length
    have hsame : ∀ l, d₁.levelSum List.length l = d.levelSum List.length l := fun _ => rfl
    rw [records, records, himm, hnew, hold]
    rw [hsame] at hupper hlower
    omega

theorem fresh_compact (hf : d.Fresh) (h : d.doCompaction level = some d') : d'.Fresh := by
  rcases compact_eq_some h with ⟨_, rfl⟩ | ⟨pointer, c, _, rfl⟩
  · exact hf
  · exact fresh_install hf

end Compact

section Pick

/-- What is picked is scored above one, so it is not empty. -/
theorem pick_spec (sc : Scoring) (v : Version) {levels : List Nat} {best : Option Nat}
    {bestScore : sc.Score} (hb : bestScore = sc.one ∨ sc.above bestScore sc.one = true)
    (h : sc.pick v levels best bestScore = some l) :
    best = some l ∨ l ∈ levels ∧ v.levels l ≠ [] := by
  induction levels generalizing best bestScore with
  | nil => exact .inl h
  | cons m rest ih =>
    rw [Scoring.pick] at h
    split at h
    · rename_i habove
      have hone : sc.above (sc.score m (v.levelBytes m)) sc.one = true := by
        rcases hb with rfl | hb
        · exact habove
        · exact sc.trans habove hb
      rcases ih (.inr hone) h with hm | ⟨hmem, hne⟩
      · obtain rfl := Option.some.inj hm
        refine .inr ⟨List.mem_cons_self, fun hnil => ?_⟩
        rw [Version.levelBytes, hnil, List.map_nil, List.sum_nil, sc.empty m] at hone
        cases hone
      · exact .inr ⟨List.mem_cons_of_mem _ hmem, hne⟩
    · rcases ih hb h with hm | ⟨hmem, hne⟩
      · exact .inl hm
      · exact .inr ⟨List.mem_cons_of_mem _ hmem, hne⟩

/-- The trigger is an `int` and not zero. -/
def TriggerOk (options : Options) : Prop :=
  options.l0CompactionTrigger ≠ 0 ∧ -2 ^ 31 ≤ options.l0CompactionTrigger ∧
    options.l0CompactionTrigger < 2 ^ 31

theorem pickCompactionLevel_spec {db : Db} {sc : Scoring} (ht : TriggerOk db.options)
    (h : db.pickCompactionLevel sc = some level) :
    level + 1 < kNumLevels ∧ db.current.levels level ≠ [] := by
  rw [Db.pickCompactionLevel] at h
  split at h
  · rename_i hle
    obtain rfl := Option.some.inj h
    refine ⟨by decide, fun hnil => ?_⟩
    obtain ⟨h0, hlow, hhigh⟩ := ht
    rw [hnil, List.length_nil] at hle
    omega
  · rcases pick_spec sc db.current (.inl rfl) h with h | ⟨hmem, hne⟩
    · cases h
    · have h7 : kNumLevels = 7 := rfl
      have := List.mem_range'_1.1 hmem
      exact ⟨by omega, hne⟩

end Pick

section Loop
variable {d : Drain} {sc : Scoring}

theorem work_once (hf : d.Fresh) (ht : TriggerOk d.db.options) (h : d.hasPendingWork sc = true)
    (hd : d.backgroundWorkOnce sc = some d') : d'.work < d.work ∧ d'.records ≤ d.records := by
  rw [backgroundWorkOnce] at hd
  cases hi : d.db.imm with
  | some imm =>
    rw [hi] at hd
    exact work_flush hf hi hd
  | none =>
    rw [hi] at hd
    cases hp : d.db.pickCompactionLevel sc with
    | none => simp [hasPendingWork, hi, hp] at h
    | some level =>
      rw [hp] at hd
      obtain ⟨hl, hne⟩ := pickCompactionLevel_spec ht hp
      exact work_compact hf hl hne hd

theorem fresh_once (hf : d.Fresh) (h : d.backgroundWorkOnce sc = some d') : d'.Fresh := by
  rw [backgroundWorkOnce] at h
  split at h
  · exact flush_eq_some h ▸ fresh_flush hf _
  · split at h
    · exact Option.some.inj h ▸ hf
    · exact fresh_compact hf h

theorem once_db (h : d.backgroundWorkOnce sc = some d') : d'.db.options = d.db.options ∧
    d'.db.bgError = d.db.bgError ∧ d'.maxSize = d.maxSize := by
  rw [backgroundWorkOnce] at h
  split at h
  · obtain rfl := flush_eq_some h
    exact ⟨rfl, rfl, rfl⟩
  · split at h
    · obtain rfl := Option.some.inj h
      exact ⟨rfl, rfl, rfl⟩
    · rcases compact_eq_some h with ⟨_, rfl⟩ | ⟨pointer, c, _, rfl⟩ <;> exact ⟨rfl, rfl, rfl⟩

/-- The states that the loop of `DrainBackgroundWork` goes through. -/
inductive Passes (sc : Scoring) : Drain → Drain → Prop where
  | refl {d : Drain} : Passes sc d d
  | once {d d₁ d' : Drain} (h : d.hasPendingWork sc = true)
      (hd : d.backgroundWorkOnce sc = some d₁) (hs : Passes sc d₁ d') : Passes sc d d'

/-- What the loop keeps: numbers that are drawn, a trigger, no error, and room for the filters of
all records there are. -/
structure Steady (d : Drain) : Prop where
  fresh : d.Fresh
  trigger : TriggerOk d.db.options
  ok : d.db.bgError.isOk = true
  filters : BloomFilter.Fits d.maxSize d.records d.db.options.bloomBitsPerKey

theorem filtersBuild_of_le {outs : List (List Rec)} (h : (outs.map List.length).sum ≤ d.records)
    (hf : BloomFilter.Fits d.maxSize d.records d.db.options.bloomBitsPerKey) :
    d.filtersBuild outs = true := by
  rw [filtersBuild, List.all_eq_true]
  intro es hes
  apply BloomFilter.Fits.builds
  refine hf.mono ((List.le_sum_of_mem ?_).trans h)
  exact List.mem_map_of_mem hes

/-- A round does not end the process. -/
theorem Steady.once_isSome (h : d.Steady) (sc : Scoring) :
    ∃ d', d.backgroundWorkOnce sc = some d' := by
  rw [backgroundWorkOnce]
  cases hi : d.db.imm with
  | some imm =>
    have hle := (keepFrom_sublist false d.db.smallestSnapshot {} (d.mems imm)).length_le
    have himm : (d.mems imm).length ≤ d.records := by
      rw [records, immRecords, hi]
      exact Nat.le_add_right _ _
    have hb : d.filtersBuild [keepFrom false d.db.smallestSnapshot {} (d.mems imm)] = true :=
      filtersBuild_of_le (by simpa using hle.trans himm) h.filters
    exact ⟨_, if_pos hb⟩
  | none =>
    cases hp : d.db.pickCompactionLevel sc with
    | none => exact ⟨d, rfl⟩
    | some level =>
      rcases compact_cases d level with ⟨_, hd⟩ | ⟨pointer, c, hb, hd⟩
      · exact ⟨d, hd⟩
      · obtain ⟨rfl, _, hsub0, hsub1⟩ := beginCompaction_inputs hb
        obtain ⟨hl, _⟩ := pickCompactionLevel_spec h.trigger hp
        rw [if_pos (filtersBuild_of_le (records_inputs_le hl hsub0 hsub1) h.filters)] at hd
        exact ⟨_, hd⟩

theorem Steady.once (h : d.Steady) (hp : d.hasPendingWork sc = true)
    (hd : d.backgroundWorkOnce sc = some d') : d'.Steady := by
  obtain ⟨ho, he, hm⟩ := once_db hd
  refine ⟨fresh_once h.fresh hd, ho ▸ h.trigger, he ▸ h.ok, ?_⟩
  rw [ho, hm]
  exact h.filters.mono (work_once h.fresh h.trigger hp hd).2

theorem Steady.passes (h : d.Steady) (hp : Passes sc d d') : d'.Steady := by
  induction hp with
  | refl => exact h
  | once hp hd _ ih => exact ih (h.once hp hd)

/-- The loop ends, by induction on the work that is left. -/
theorem Steady.drain (h : d.Steady) (sc : Scoring) :
    ∃ fuel d', drainBackgroundWork sc fuel d = .returns d' ∧
      Passes sc d d' ∧ d'.hasPendingWork sc = false := by
  induction hw : d.work using Nat.strong_induction_on generalizing d with
  | _ w ih =>
    cases hp : d.hasPendingWork sc with
    | false => exact ⟨1, d, by simp [drainBackgroundWork, hp], .refl, hp⟩
    | true =>
      obtain ⟨d₁, hd₁⟩ := h.once_isSome sc
      obtain ⟨fuel, d', hd, hs, hend⟩ :=
        ih _ (hw ▸ (work_once h.fresh h.trigger hp hd₁).1) (h.once hp hd₁) rfl
      refine ⟨fuel + 1, d', ?_, .once hp hd₁ hs, hend⟩
      rw [drainBackgroundWork, h.ok, hp, hd₁]
      exact hd

theorem Steady.not_dies (h : d.Steady) (sc : Scoring) (fuel : Nat) :
    drainBackgroundWork sc fuel d ≠ .dies := by
  induction fuel generalizing d with
  | zero => exact fun hd => (by cases hd)
  | succ fuel ih =>
    obtain ⟨d', hd'⟩ := h.once_isSome sc
    rw [drainBackgroundWork, h.ok, hd']
    cases hp : d.hasPendingWork sc with
    | false => exact fun hd => (by cases hd)
    | true => exact ih (h.once hp hd')

/-- `DrainBackgroundWork` ends with nothing left to do; each round takes work away, and compacts
into a level that exists. -/
theorem drain_terminates (sc : Scoring) (d : Drain) (h : d.Steady) :
    (∃ fuel d', drainBackgroundWork sc fuel d = .returns d' ∧ d'.db.imm = none ∧
      d'.db.pickCompactionLevel sc = none ∧ d'.db.bgError.isOk = true) ∧
    ∀ d', Passes sc d d' → d'.hasPendingWork sc = true →
      (∃ d'', d'.backgroundWorkOnce sc = some d'' ∧ d''.work < d'.work) ∧
      ∀ level, d'.db.pickCompactionLevel sc = some level → level + 1 ≤ 6 := by
  constructor
  · obtain ⟨fuel, d', hd, hs, hend⟩ := h.drain sc
    simp only [hasPendingWork, Bool.or_eq_false_iff, Option.isSome_eq_false_iff,
      Option.isNone_iff_eq_none] at hend
    exact ⟨fuel, d', hd, hend.1, hend.2, (h.passes hs).ok⟩
  · intro d' hs hp
    have hd := h.passes hs
    obtain ⟨d'', hd''⟩ := hd.once_isSome sc
    exact ⟨⟨d'', hd'', (work_once hd.fresh hd.trigger hp hd'').1⟩, fun level hl =>
      Nat.lt_succ_iff.1 (pickCompactionLevel_spec hd.trigger hl).1⟩

/-- Two versions of a key and a tombstone in a memtable, over a table that holds an older version,
and a trigger that moves both down at once. -/
def sample : Drain where
  db := {
    options := { l0CompactionTrigger := 1 }
    imm := some 0
    lastSequence := 4
    nextFileNumber := 2
    current := Version.setLevel {} 0 [metaOf {} 1 [(encodeInternalKey [97] 1 .kValue, [1])]] }
  mems := fun _ =>
    [(encodeInternalKey [97] 3 .kValue, [3]), (encodeInternalKey [97] 2 .kValue, [2]),
    (encodeInternalKey [98] 4 .kDeletion, [])]
  contents := fun _ => [(encodeInternalKey [97] 1 .kValue, [1])]

theorem drain_terminates_sample : sample.Steady ∧
    sample.hasPendingWork (.exact fun _ => 1) = true ∧
    (∃ fuel d', drainBackgroundWork (.exact fun _ => 1) fuel sample = .returns d' ∧
      d'.db.imm = none ∧ d'.db.pickCompactionLevel (.exact fun _ => 1) = none ∧
      d'.db.bgError.isOk = true) ∧
    ∀ d', Passes (.exact fun _ => 1) sample d' → d'.hasPendingWork (.exact fun _ => 1) = true →
      (∃ d'', d'.backgroundWorkOnce (.exact fun _ => 1) = some d'' ∧ d''.work < d'.work) ∧
      ∀ level, d'.db.pickCompactionLevel (.exact fun _ => 1) = some level → level + 1 ≤ 6 := by
  have hfresh : sample.Fresh := by
    intro l f hf
    simp only [sample, Version.setLevel] at hf
    split at hf
    · obtain rfl := List.mem_singleton.1 hf
      exact Nat.one_lt_two
    · cases hf
  have hrecords : sample.records = 4 := by decide +kernel
  have h : sample.Steady := ⟨hfresh, ⟨by decide, by decide, by decide⟩, rfl, by
    rw [hrecords]
    exact ⟨by decide, by decide, by decide⟩⟩
  exact ⟨h, rfl, drain_terminates (.exact fun _ => 1) sample h⟩

end Loop

/-- A state of the machine as the loop sees it. -/
def of (s : Sys) : Drain where
  db := s.db
  mems := fun id => (s.store.mems id).recs
  contents := fun n => ((s.opened.find? fun t => t.number == n).map Table.recs).getD []

/-- A new database with -1 bits per key, one `Put`, and the memtable made immutable. -/
def negativeActs : List Act :=
  .recover { bloomBitsPerKey := -1 } "db" :: .startLog :: jobActs 8 ++
    .job 0 0 [.manifest, .log 1] :: jobActs 1 ++ putActs [97] [1] ++ rotateActs

/-- The length of the filter wraps around to zero, and the hash of the key is taken modulo it. -/
theorem drain_dies : ∃ s, runActs Orderly.check {} negativeActs = some s ∧
    s.db.options.l0CompactionTrigger = 4 ∧ s.db.bgError.isOk = true ∧
    (∃ imm, s.db.imm = some imm ∧ (s.store.mems imm).isEmpty = false) ∧
    ∀ sc fuel, drainBackgroundWork sc (fuel + 1) (of s) = .dies := by
  have hrun : (runActs Orderly.check {} negativeActs).map (fun s =>
      (s.db.options.l0CompactionTrigger, s.db.options.bloomBitsPerKey, s.db.bgError.isOk, s.db.imm,
        (s.store.mems 0).isEmpty,
        (keepFrom false s.db.smallestSnapshot {} (s.store.mems 0).recs).length)) =
      some (4, -1, true, some 0, false, 1) := by decide +kernel
  obtain ⟨s, hs, he⟩ := Option.map_eq_some_iff.1 hrun
  simp only [Prod.mk.injEq] at he
  obtain ⟨htrigger, hbits, hok, himm, hne, hlen⟩ := he
  refine ⟨s, hs, htrigger, hok, ⟨0, himm, hne⟩, fun sc fuel => ?_⟩
  have hfilters : (of s).filtersBuild
      [keepFrom false s.db.smallestSnapshot {} (s.store.mems 0).recs] = false := by
    have hb : (of s).db.options.bloomBitsPerKey = -1 := hbits
    simp only [filtersBuild, List.all_cons, hlen, hb, BloomFilter.builds_neg ⟨le_rfl, by decide⟩,
      Bool.false_and]
  have honce : (of s).backgroundWorkOnce sc = none := by
    have hi : (of s).db.imm = some 0 := himm
    rw [backgroundWorkOnce, hi]
    exact if_neg (by rw [Bool.not_eq_true]; exact hfilters)
  have hpending : ((of s).db.bgError.isOk && (of s).hasPendingWork sc) = true := by
    have hi : (of s).db.imm = some 0 := himm
    have hb : (of s).db.bgError.isOk = true := hok
    rw [hb, hasPendingWork, hi]
    rfl
  rw [drainBackgroundWork, if_pos hpending, honce]

end Drain

section Machine
variable {σ : Prop} {gh : Ghost} {s : Sys}

theorem Tables.contents {t : Table}
    (h : Tables s.fs s.db.current s.db.nextFileNumber s.store s.opened)
    (ht : t ∈ s.opened) : (Drain.of s).contents t.number = t.recs := by
  have hfind : s.opened.find? (fun u => u.number == t.number) = some t := by
    obtain ⟨u, hu⟩ := Option.isSome_iff_exists.1
      ((List.find?_isSome (p := fun u : Table => u.number == t.number)).2
        ⟨t, ht, beq_self_eq_true _⟩)
    have hnum : u.number = t.number := by simpa using List.find?_some hu
    rw [hu, List.inj_on_of_nodup_map h.nodup (List.mem_of_find?_eq_some hu) ht hnum]
  simp only [Drain.of, hfind, Option.map_some, Option.getD_some]

namespace Sound

theorem drain_fresh (h : Sound σ gh s) : (Drain.of s).Fresh := by
  intro l f hf
  obtain ⟨_, _, hr⟩ := (h.tables.live l f hf).2
  exact h.tables.names (.sst f.number) (Fs.mem_names.2 (by simp [hr])) _ rfl

theorem drain_merge (h : Sound σ gh s)
    (hl : Layered gh s.visible s.db.mem s.db.imm s.store.mems s.db.current)
    {db : Db} {c : Compaction} (hb : s.db.beginCompaction level = some (db, c)) :
    (c.merge.run s.store).1 =
      (mergeRuns Rec.pos (c.inputs.map fun f => (Drain.of s).contents f.number), .ok) := by
  obtain ⟨_, _, hsub0, hsub1⟩ := Drain.beginCompaction_inputs hb
  have hlive : ∀ f ∈ c.inputs, ∃ l, f ∈ s.db.current.levels l := fun f hf =>
    (List.mem_append.1 hf).elim (fun h => ⟨_, hsub0.subset h⟩) fun h => ⟨_, hsub1.subset h⟩
  have hin : ∀ f ∈ c.inputs, f.table ∈ s.opened := fun f hf =>
    (hlive f hf).elim fun l hm => (h.tables.live l f hm).1
  have hres := ((Compaction.merge_ensures h.tables.tablesOk hin
    fun f hf => h.tables.good _ (hin f hf)) s.store h.tables.serves).1
  have hrecs : c.inputs.map FileMetaData.recs =
      c.inputs.map fun f => (Drain.of s).contents f.number := by
    apply List.map_congr_left
    intro f hf
    obtain ⟨l, hm⟩ := hlive f hf
    rw [← (hl.wf.file_ok hm).number, h.tables.contents (hin f hf)]
    rfl
  rw [hres, Compaction.merged, hrecs]

end Sound

end Machine

end LsmKv
