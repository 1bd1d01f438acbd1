import Mathlib

namespace LsmKv
set_option autoImplicit true

/-- A file: what has been written, and how much of it has been forced to stable storage. -/
structure Inode (β : Type) where
  data : List β := []
  synced : Nat := 0

/-- A change of the directory; the inode is the one the name refers to afterwards. -/
inductive DirOp (ν : Type) where
  | link (name : ν) (ino : Nat)
  | rename (old new : ν) (ino : Nat)
  | unlink (name : ν)

variable {ν β : Type} [DecidableEq ν]

abbrev Dir (ν : Type) := AList fun _ : ν => Nat

def DirOp.apply (dir : Dir ν) : DirOp ν → Dir ν
  | link name ino => dir.insert name ino
  | rename old new ino => (dir.erase old).insert new ino
  | unlink name => dir.erase name

/-- One directory of files. `durable` is the directory on stable storage, and `pending` what has
changed since the directory was last synced. -/
structure Fs (ν β : Type) [DecidableEq ν] where
  dir : Dir ν
  inodes : Nat → Inode β
  next : Nat
  durable : Dir ν
  pending : List (DirOp ν)
  fresh : ∀ name i, dir.lookup name = some i → i < next
  inj : ∀ a b i, dir.lookup a = some i → dir.lookup b = some i → a = b

namespace Fs

def empty : Fs ν β where
  dir := ∅
  inodes := fun _ => {}
  next := 0
  durable := ∅
  pending := []
  fresh := by simp
  inj := by simp

def read (fs : Fs ν β) (name : ν) : Option (List β) :=
  (fs.dir.lookup name).map fun i => (fs.inodes i).data

def names (fs : Fs ν β) : List ν := fs.dir.keys

/-- A new file under a name that is free, or that loses the file it referred to. -/
def addFile (fs : Fs ν β) (name : ν) (file : Inode β) : Fs ν β where
  dir := fs.dir.insert name fs.next
  inodes := Function.update fs.inodes fs.next file
  next := fs.next + 1
  durable := fs.durable
  pending := fs.pending ++ [.link name fs.next]
  fresh := by
    intro n i h
    by_cases hn : n = name
    · subst hn
      rw [AList.lookup_insert] at h
      cases h
      omega
    · rw [AList.lookup_insert_ne hn] at h
      have := fs.fresh n i h
      omega
  inj := by
    intro a b i ha hb
    have hother : ∀ n, n ≠ name → (fs.dir.insert name fs.next).lookup n = some i → i < fs.next := by
      intro n hn h
      rw [AList.lookup_insert_ne hn] at h
      exact fs.fresh n i h
    by_cases hna : a = name <;> by_cases hnb : b = name
    · rw [hna, hnb]
    · have := hother b hnb hb
      rw [hna, AList.lookup_insert] at ha
      cases ha
      omega
    · have := hother a hna ha
      rw [hnb, AList.lookup_insert] at hb
      cases hb
      omega
    · rw [AList.lookup_insert_ne hna] at ha
      rw [AList.lookup_insert_ne hnb] at hb
      exact fs.inj a b i ha hb

/-- Changes the contents of the file a name refers to. -/
def modify (fs : Fs ν β) (name : ν) (f : Inode β → Inode β) : Fs ν β :=
  match fs.dir.lookup name with
  | some i => { fs with inodes := Function.update fs.inodes i (f (fs.inodes i)) }
  | none => fs

/-- `open` with `O_CREAT`, and with `O_TRUNC` if asked to. -/
def openFile (fs : Fs ν β) (name : ν) (trunc : Bool) : Fs ν β :=
  if name ∈ fs.dir then (if trunc then fs.modify name fun _ => {} else fs) else fs.addFile name {}

def append (fs : Fs ν β) (name : ν) (bytes : List β) : Fs ν β :=
  fs.modify name fun f => { f with data := f.data ++ bytes }

def fsync (fs : Fs ν β) (name : ν) : Fs ν β :=
  fs.modify name fun f => { f with synced := f.data.length }

def unlink (fs : Fs ν β) (name : ν) : Fs ν β where
  dir := fs.dir.erase name
  inodes := fs.inodes
  next := fs.next
  durable := fs.durable
  pending := fs.pending ++ [.unlink name]
  fresh := by
    intro n i h
    by_cases hn : n = name
    · subst hn
      rw [AList.lookup_erase] at h
      cases h
    · rw [AList.lookup_erase_ne hn] at h
      exact fs.fresh n i h
  inj := by
    intro a b i ha hb
    have hne : ∀ n, (fs.dir.erase name).lookup n = some i → n ≠ name := by
      rintro n h rfl
      simp at h
    rw [AList.lookup_erase_ne (hne a ha)] at ha
    rw [AList.lookup_erase_ne (hne b hb)] at hb
    exact fs.inj a b i ha hb

def rename (fs : Fs ν β) (old new : ν) : Fs ν β :=
  match h : fs.dir.lookup old with
  | none => fs
  | some ino => {
      dir := (fs.dir.erase old).insert new ino
      inodes := fs.inodes
      next := fs.next
      durable := fs.durable
      pending := fs.pending ++ [.rename old new ino]
      fresh := by
        intro n i hi
        by_cases hn : n = new
        · subst hn
          rw [AList.lookup_insert] at hi
          cases hi
          exact fs.fresh old ino h
        · rw [AList.lookup_insert_ne hn] at hi
          by_cases ho : n = old
          · subst ho
            rw [AList.lookup_erase] at hi
            cases hi
          · rw [AList.lookup_erase_ne ho] at hi
            exact fs.fresh n i hi
      inj := by
        have hold : ∀ n i, n ≠ new → ((fs.dir.erase old).insert new ino).lookup n = some i →
            fs.dir.lookup n = some i ∧ i ≠ ino := by
          intro n i hn hi
          rw [AList.lookup_insert_ne hn] at hi
          have ho : n ≠ old := by
            rintro rfl
            rw [AList.lookup_erase] at hi
            cases hi
          rw [AList.lookup_erase_ne ho] at hi
          refine ⟨hi, ?_⟩
          rintro rfl
          exact ho (fs.inj n old i hi h)
        intro a b i ha hb
        by_cases hna : a = new <;> by_cases hnb : b = new
        · rw [hna, hnb]
        · rw [hna, AList.lookup_insert] at ha
          cases ha
          exact absurd rfl (hold b _ hnb hb).2
        · rw [hnb, AList.lookup_insert] at hb
          cases hb
          exact absurd rfl (hold a _ hna ha).2
        · exact fs.inj a b i (hold a i hna ha).1 (hold b i hnb hb).1 }

def syncDir (fs : Fs ν β) : Fs ν β := { fs with durable := fs.dir, pending := [] }

/-- A file system that holds the given files and has nothing to lose. -/
def mount : List (ν × List β) → Fs ν β
  | [] => empty
  | (name, data) :: files => ((mount files).addFile name ⟨data, data.length⟩).syncDir

/-- What a power loss leaves of a file: at least what was synced, at most what was written. -/
def survive (cut : ν → Nat) (fs : Fs ν β) (dir : Dir ν) : Fs ν β :=
  mount (dir.entries.map fun e =>
    (e.1, (fs.inodes e.2).data.take (max (fs.inodes e.2).synced (cut e.1))))

/-- A power loss: any of the pending directory operations may have reached the disk. -/
def powerLoss (fs : Fs ν β) (keep : List Bool) (cut : ν → Nat) : Fs ν β :=
  fs.survive cut <|
    ((fs.pending.zip keep).filter Prod.snd |>.map Prod.fst).foldl DirOp.apply fs.durable

/-- A power loss on a file system whose directory operations are durable at once. -/
def powerLossData (fs : Fs ν β) (cut : ν → Nat) : Fs ν β := fs.survive cut fs.dir

variable {fs : Fs ν β} {name n : ν} {bs : List β}

theorem mem_names : n ∈ fs.names ↔ fs.read n ≠ none := by
  rw [names, ← AList.mem_keys, ← AList.lookup_isSome, read, Ne, Option.map_eq_none_iff]
  exact Option.isSome_iff_ne_none

theorem mem_dir : n ∈ fs.dir ↔ fs.read n ≠ none := by
  rw [AList.mem_keys]
  exact mem_names

@[simp] theorem read_empty (n : ν) : (empty : Fs ν β).read n = none := rfl

theorem read_addFile (fs : Fs ν β) (name : ν) (file : Inode β) (n : ν) :
    (fs.addFile name file).read n = if n = name then some file.data else fs.read n := by
  rw [read, addFile]
  by_cases hn : n = name
  · subst hn
    simp
  · simp only [AList.lookup_insert_ne hn, if_neg hn, read]
    cases hl : fs.dir.lookup n with
    | none => rfl
    | some i =>
      have hi : i ≠ fs.next := (fs.fresh n i hl).ne
      simp [Function.update_of_ne hi]

theorem read_modify (fs : Fs ν β) (name : ν) (f : Inode β → Inode β) (n : ν) :
    (fs.modify name f).read n = if n = name then
      (fs.dir.lookup name).map fun i => (f (fs.inodes i)).data else fs.read n := by
  rw [modify]
  cases hl : fs.dir.lookup name with
  | none =>
    by_cases hn : n = name
    · subst hn
      simp [read, hl]
    · simp [hn]
  | some i =>
    by_cases hn : n = name
    · subst hn
      simp [read, hl]
    · simp only [if_neg hn, read]
      cases hn' : fs.dir.lookup n with
      | none => rfl
      | some j =>
        have hij : j ≠ i := by
          rintro rfl
          exact hn (fs.inj n name j hn' hl)
        simp [Function.update_of_ne hij]

theorem read_append (fs : Fs ν β) (name : ν) (bs : List β) (n : ν) :
    (fs.append name bs).read n =
      if n = name then (fs.read name).map (· ++ bs) else fs.read n := by
  have hr : (fs.read name).map (· ++ bs) =
      (fs.dir.lookup name).map fun i => (fs.inodes i).data ++ bs := by
    rw [read, Option.map_map]
    rfl
  rw [append, read_modify, hr]

@[simp] theorem read_fsync (fs : Fs ν β) (name n : ν) : (fs.fsync name).read n = fs.read n := by
  rw [fsync, read_modify]
  split
  · rename_i h
    rw [h, read]
  · rfl

theorem read_openFile (fs : Fs ν β) (name : ν) (trunc : Bool) (n : ν) :
    (fs.openFile name trunc).read n = if n = name then
      (if trunc then some [] else some ((fs.read name).getD [])) else fs.read n := by
  rw [openFile]
  by_cases hm : name ∈ fs.dir
  · rw [if_pos hm]
    obtain ⟨i, hi⟩ := Option.isSome_iff_exists.1 (AList.lookup_isSome.2 hm)
    cases trunc with
    | true =>
      rw [if_pos rfl, read_modify, hi]
      simp
    | false =>
      simp only [Bool.false_eq_true, if_false]
      split
      · rename_i h
        subst h
        simp [read, hi]
      · rfl
  · rw [if_neg hm, read_addFile]
    have hnone : fs.read name = none := by
      by_contra hc
      exact hm (mem_dir.2 hc)
    simp [hnone]

theorem read_unlink (fs : Fs ν β) (name n : ν) :
    (fs.unlink name).read n = if n = name then none else fs.read n := by
  rw [read, unlink]
  by_cases hn : n = name
  · subst hn
    simp
  · simp [hn, AList.lookup_erase_ne hn, read]

theorem read_rename (fs : Fs ν β) (hne : old ≠ new) (hr : fs.read old ≠ none) (n : ν) :
    (fs.rename old new).read n =
      if n = new then fs.read old else if n = old then none else fs.read n := by
  obtain ⟨i, hi⟩ : ∃ i, fs.dir.lookup old = some i :=
    Option.isSome_iff_exists.1 (AList.lookup_isSome.2 (mem_dir.2 hr))
  rw [rename]
  split
  · rename_i h
    rw [h] at hi
    cases hi
  · rename_i j h
    rw [h] at hi
    cases hi
    rw [read]
    by_cases hn : n = new
    · subst hn
      simp [read, h]
    · rw [if_neg hn, AList.lookup_insert_ne hn]
      by_cases ho : n = old
      · subst ho
        simp
      · rw [if_neg ho, AList.lookup_erase_ne ho, read]

@[simp] theorem read_syncDir (fs : Fs ν β) (n : ν) : fs.syncDir.read n = fs.read n := rfl

theorem read_mount (files : List (ν × List β)) (n : ν) :
    (mount files).read n = List.lookup n files := by
  induction files with
  | nil => rfl
  | cons f files ih =>
    obtain ⟨name, data⟩ := f
    rw [mount, read_syncDir, read_addFile, List.lookup_cons, ih]
    by_cases h : n = name
    · simp [h]
    · have hb : (n == name) = false := by simpa using h
      rw [hb, if_neg h]

theorem lookup_entries (g : ν → Nat → List β) (l : List (Sigma fun _ : ν => Nat)) (n : ν) :
    List.lookup n (l.map fun e => (e.1, g e.1 e.2)) = (List.dlookup n l).map (g n) := by
  induction l with
  | nil => rfl
  | cons e l ih =>
    obtain ⟨m, i⟩ := e
    rw [List.map_cons, List.lookup_cons, ih]
    by_cases h : n = m
    · subst h
      simp
    · have hb : (n == m) = false := by simpa using h
      rw [hb, List.dlookup_cons_ne _ _ h]

theorem read_survive (cut : ν → Nat) (fs : Fs ν β) (dir : Dir ν) (n : ν) :
    (fs.survive cut dir).read n = (dir.lookup n).map fun i =>
      (fs.inodes i).data.take (max (fs.inodes i).synced (cut n)) := by
  rw [survive, read_mount]
  exact lookup_entries (fun n i => (fs.inodes i).data.take (max (fs.inodes i).synced (cut n)))
    dir.entries n

section Synced

/-- The file behind a name, with how much of it is on stable storage. -/
def stat (fs : Fs ν β) (name : ν) : Option (Inode β) := (fs.dir.lookup name).map fs.inodes

theorem read_eq_stat (fs : Fs ν β) (n : ν) : fs.read n = (fs.stat n).map Inode.data := by
  rw [read, stat, Option.map_map]
  rfl

theorem stat_addFile (fs : Fs ν β) (name : ν) (file : Inode β) (n : ν) :
    (fs.addFile name file).stat n = if n = name then some file else fs.stat n := by
  rw [stat, addFile]
  by_cases hn : n = name
  · subst hn
    simp
  · simp only [AList.lookup_insert_ne hn, if_neg hn, stat]
    cases hl : fs.dir.lookup n with
    | none => rfl
    | some i =>
      have hi : i ≠ fs.next := (fs.fresh n i hl).ne
      simp [Function.update_of_ne hi]

theorem stat_modify (fs : Fs ν β) (name : ν) (f : Inode β → Inode β) (n : ν) :
    (fs.modify name f).stat n = if n = name then (fs.stat name).map f else fs.stat n := by
  rw [modify]
  cases hl : fs.dir.lookup name with
  | none =>
    by_cases hn : n = name
    · subst hn
      simp [stat, hl]
    · simp [hn]
  | some i =>
    by_cases hn : n = name
    · subst hn
      simp [stat, hl]
    · simp only [if_neg hn, stat]
      cases hn' : fs.dir.lookup n with
      | none => rfl
      | some j =>
        have hij : j ≠ i := by
          rintro rfl
          exact hn (fs.inj n name j hn' hl)
        simp [Function.update_of_ne hij]

theorem stat_append (fs : Fs ν β) (name : ν) (bs : List β) (n : ν) :
    (fs.append name bs).stat n = if n = name then
      (fs.stat name).map fun f => { f with data := f.data ++ bs } else fs.stat n :=
  stat_modify fs name _ n

theorem stat_fsync (fs : Fs ν β) (name n : ν) : (fs.fsync name).stat n = if n = name then
    (fs.stat name).map fun f => { f with synced := f.data.length } else fs.stat n :=
  stat_modify fs name _ n

theorem stat_openFile_ne (fs : Fs ν β) (name : ν) (trunc : Bool) (hn : n ≠ name) :
    (fs.openFile name trunc).stat n = fs.stat n := by
  rw [openFile]
  split
  · split
    · rw [stat_modify, if_neg hn]
    · rfl
  · rw [stat_addFile, if_neg hn]

theorem stat_unlink (fs : Fs ν β) (name n : ν) :
    (fs.unlink name).stat n = if n = name then none else fs.stat n := by
  rw [stat, unlink]
  by_cases hn : n = name
  · subst hn
    simp
  · simp [hn, AList.lookup_erase_ne hn, stat]

theorem stat_rename (fs : Fs ν β) (hne : old ≠ new) (hr : fs.read old ≠ none) (n : ν) :
    (fs.rename old new).stat n =
      if n = new then fs.stat old else if n = old then none else fs.stat n := by
  obtain ⟨i, hi⟩ : ∃ i, fs.dir.lookup old = some i :=
    Option.isSome_iff_exists.1 (AList.lookup_isSome.2 (mem_dir.2 hr))
  rw [rename]
  split
  · rename_i h
    rw [h] at hi
    cases hi
  · rename_i j h
    rw [h] at hi
    cases hi
    rw [stat]
    by_cases hn : n = new
    · subst hn
      simp [stat, h]
    · rw [if_neg hn, AList.lookup_insert_ne hn]
      by_cases ho : n = old
      · subst ho
        simp
      · rw [if_neg ho, AList.lookup_erase_ne ho, stat]

theorem stat_rename_ne (fs : Fs ν β) (hn : n ≠ new) (ho : n ≠ old) :
    (fs.rename old new).stat n = fs.stat n := by
  rw [rename]
  split
  · rfl
  · rw [stat, AList.lookup_insert_ne hn, AList.lookup_erase_ne ho, stat]

theorem read_powerLossData (fs : Fs ν β) (cut : ν → Nat) (n : ν) : (fs.powerLossData cut).read n =
    (fs.stat n).map fun f => f.data.take (max f.synced (cut n)) := by
  rw [powerLossData, read_survive, stat, Option.map_map]
  rfl

/-- All of the file is on stable storage. -/
def Solid (fs : Fs ν β) (name : ν) : Prop := ∀ f, fs.stat name = some f → f.data.length ≤ f.synced

theorem Solid.frame {fs' : Fs ν β} (h : fs.Solid name) (hs : fs'.stat name = fs.stat name) :
    fs'.Solid name := fun f hf => h f (hs ▸ hf)

theorem Solid.of_none (h : fs.stat name = none) : fs.Solid name := fun f hf => by
  rw [h] at hf
  cases hf

theorem solid_fsync (fs : Fs ν β) (name : ν) : (fs.fsync name).Solid name := by
  intro f hf
  rw [stat_fsync, if_pos rfl] at hf
  obtain ⟨g, _, rfl⟩ := Option.map_eq_some_iff.1 hf
  exact le_rfl

theorem solid_mount (files : List (ν × List β)) (name : ν) : (mount files).Solid name := by
  induction files with
  | nil => exact .of_none rfl
  | cons e files ih =>
    intro f hf
    have hf : ((mount files).addFile e.1 ⟨e.2, e.2.length⟩).stat name = some f := hf
    rw [stat_addFile] at hf
    split at hf
    · cases hf
      exact le_rfl
    · exact ih f hf

theorem solid_powerLossData (fs : Fs ν β) (cut : ν → Nat) (name : ν) :
    (fs.powerLossData cut).Solid name :=
  solid_mount _ name

theorem Solid.read_powerLossData (h : fs.Solid name) (cut : ν → Nat) :
    (fs.powerLossData cut).read name = fs.read name := by
  rw [Fs.read_powerLossData, read_eq_stat]
  cases hf : fs.stat name with
  | none => rfl
  | some f =>
    have hle := h f hf
    exact congrArg some (List.take_of_length_le (hle.trans (le_max_left _ _)))

end Synced

end Fs

end LsmKv
