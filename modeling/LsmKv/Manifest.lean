import LsmKv.Collapse
import LsmKv.Library.FileSystem

namespace LsmKv
set_option autoImplicit true

inductive FileName where
  | log (number : Nat)
  | sst (number : Nat)
  | manifest
  | manifestTmp
deriving DecidableEq, Repr

abbrev DbFs := Fs FileName UInt8

/-- The number zero-padded to six digits. -/
def numberedFile (dir : String) (number : Nat) (suffix : String) : String :=
  let digits := toString number
  dir ++ "/" ++ String.ofList (List.replicate (6 - digits.length) '0') ++ digits ++ suffix

def tablePath (dir : String) (number : Nat) : String := numberedFile dir number ".sst"
def logPath (dir : String) (number : Nat) : String := numberedFile dir number ".log"

def openTable (dir : String) (options : Options) (fs : DbFs) (number : Nat) : Except Status Table :=
  match fs.read (.sst number) with
  | none => .error (.ioError ("open " ++ tablePath dir number))
  | some file => Table.openFile (tablePath dir number) file options number

def kManifestMagic : Nat := 0x54534546494e414d

/-- What a manifest says, with the tables of its files open. -/
structure Manifest where
  version : Version := {}
  logNumber : Nat := 0
  nextFileNumber : Nat := 1
  lastSequence : Nat := 0

namespace Manifest

/-- The files of a version with their levels, in the order they are written. -/
def filesOf (v : Version) : List (Nat × FileMetaData) :=
  (List.range kNumLevels).flatMap fun level => (v.levels level).map fun f => (level, f)

def encodeFile (e : Nat × FileMetaData) : Bytes :=
  putFixed32 e.1 ++ (putFixed64 e.2.number ++ (putFixed64 e.2.fileSize ++
    (putLengthPrefixed e.2.smallest ++ putLengthPrefixed e.2.largest)))

def body (m : Manifest) : Bytes :=
  putFixed64 kManifestMagic ++ (putFixed64 m.nextFileNumber ++ (putFixed64 m.lastSequence ++
    (putFixed64 m.logNumber ++ (putFixed32 (filesOf m.version).length ++
      (filesOf m.version).flatMap encodeFile))))

/-- The bytes of `WriteManifest`. -/
def encode (m : Manifest) : Bytes :=
  m.body ++ putFixed32 (Crc32c.value m.body).toNat

def parseFiles (openTable : Nat → Except Status Table) :
    Nat → Bytes → Except Status (List (Nat × FileMetaData))
  | 0, _ => .ok []
  | n + 1, rest =>
    if rest.length < 20 then .error (.corruption "truncated manifest entry")
    else
      let level := decodeFixed32 rest
      let number := decodeFixed64 (rest.drop 4)
      let fileSize := decodeFixed64 (rest.drop 12)
      match getLengthPrefixed (rest.drop 20) with
      | none => .error (.corruption "truncated manifest key")
      | some (smallest, rest) =>
        match getLengthPrefixed rest with
        | none => .error (.corruption "truncated manifest key")
        | some (largest, rest) =>
          if kNumLevels ≤ level then .error (.corruption "manifest level out of range")
          else
            match openTable number with
            | .error s => .error s
            | .ok table =>
              match parseFiles openTable n rest with
              | .error s => .error s
              | .ok files => .ok ((level, ⟨number, fileSize, smallest, largest, table⟩) :: files)

/-- L0 newest first, the deeper levels by smallest key. -/
def sortLevels (files : List (Nat × FileMetaData)) : Version where
  levels := fun level =>
    let fs := (files.filter fun e => e.1 == level).map Prod.snd
    if level = 0 then fs.insertionSort fun a b => b.number ≤ a.number
    else fs.insertionSort fun a b => compareInternalKey a.smallest b.smallest ≠ .gt

/-- `LoadManifest` on the bytes of a manifest that exists. -/
def load (openTable : Nat → Except Status Table) (body : Bytes) : Except Status Manifest :=
  if body.length < 36 then .error (.corruption "manifest too short")
  else
    let rest := body.take (body.length - 4)
    if (Crc32c.value rest).toNat ≠ decodeFixed32 (body.drop (body.length - 4)) then
      .error (.corruption "manifest checksum mismatch")
    else if decodeFixed64 rest ≠ kManifestMagic then .error (.corruption "bad manifest magic")
    else
      let numFiles := decodeFixed32 (rest.drop 32)
      match parseFiles openTable numFiles (rest.drop 36) with
      | .error s => .error s
      | .ok files => .ok {
          version := sortLevels files
          logNumber := decodeFixed64 (rest.drop 24)
          nextFileNumber := decodeFixed64 (rest.drop 8)
          lastSequence := decodeFixed64 (rest.drop 16) }

/-- A file with its table opened anew. -/
def reopenFile (openTable : Nat → Except Status Table) (f : FileMetaData) : FileMetaData :=
  match openTable f.number with
  | .ok t => { f with table := t }
  | .error _ => f

def reopenVersion (openTable : Nat → Except Status Table) (v : Version) : Version where
  levels := fun level => (v.levels level).map (reopenFile openTable)

/-- Every number and key of the manifest fits its field. -/
structure Fits (m : Manifest) : Prop where
  logNumber : m.logNumber < 2 ^ 64
  nextFileNumber : m.nextFileNumber < 2 ^ 64
  lastSequence : m.lastSequence < 2 ^ 64
  files : (filesOf m.version).length < 2 ^ 32
  number : ∀ e ∈ filesOf m.version, e.2.number < 2 ^ 64
  fileSize : ∀ e ∈ filesOf m.version, e.2.fileSize < 2 ^ 64
  smallest : ∀ e ∈ filesOf m.version, e.2.smallest.length < 2 ^ 32
  largest : ∀ e ∈ filesOf m.version, e.2.largest.length < 2 ^ 32

theorem mem_filesOf : e ∈ filesOf v ↔ e.1 < kNumLevels ∧ e.2 ∈ v.levels e.1 := by
  simp only [filesOf, List.mem_flatMap, List.mem_range, List.mem_map]
  constructor
  · rintro ⟨l, hl, f, hf, rfl⟩
    exact ⟨hl, hf⟩
  · rintro ⟨hl, hf⟩
    exact ⟨e.1, hl, e.2, hf, rfl⟩

theorem drop_append_left {a : List α} (h : a.length = n) (b : List α) : (a ++ b).drop n = b :=
  List.drop_left' h

theorem parseFiles_encode (openTable : Nat → Except Status Table) (es : List (Nat × FileMetaData))
    (rest : Bytes) (hlev : ∀ e ∈ es, e.1 < kNumLevels)
    (hfit : ∀ e ∈ es, e.2.number < 2 ^ 64 ∧ e.2.fileSize < 2 ^ 64 ∧ e.2.smallest.length < 2 ^ 32 ∧
      e.2.largest.length < 2 ^ 32)
    (hopen : ∀ e ∈ es, ∃ t, openTable e.2.number = .ok t) :
    parseFiles openTable es.length (es.flatMap encodeFile ++ rest) =
      .ok (es.map fun e => (e.1, reopenFile openTable e.2)) := by
  induction es with
  | nil => rfl
  | cons e es ih =>
    obtain ⟨hn, hs, hk, hl⟩ := hfit e List.mem_cons_self
    have hlv := hlev e List.mem_cons_self
    obtain ⟨t, ht⟩ := hopen e List.mem_cons_self
    have hrest := ih (fun x hx => hlev x (List.mem_cons_of_mem e hx))
      (fun x hx => hfit x (List.mem_cons_of_mem e hx))
      fun x hx => hopen x (List.mem_cons_of_mem e hx)
    set tail := es.flatMap encodeFile ++ rest with htail
    set keys := putLengthPrefixed e.2.smallest ++ (putLengthPrefixed e.2.largest ++ tail) with hkeys
    have henc : (e :: es).flatMap encodeFile ++ rest =
        putFixed32 e.1 ++ (putFixed64 e.2.number ++ (putFixed64 e.2.fileSize ++ keys)) := by
      simp [encodeFile, hkeys, htail]
    have hd4 : ((e :: es).flatMap encodeFile ++ rest).drop 4 =
        putFixed64 e.2.number ++ (putFixed64 e.2.fileSize ++ keys) := by
      rw [henc, drop_append_left (by simp)]
    have hd12 : ((e :: es).flatMap encodeFile ++ rest).drop 12 =
        putFixed64 e.2.fileSize ++ keys := by
      rw [show 12 = 4 + 8 from rfl, ← List.drop_drop, hd4, drop_append_left (by simp)]
    have hd20 : ((e :: es).flatMap encodeFile ++ rest).drop 20 = keys := by
      rw [show 20 = 12 + 8 from rfl, ← List.drop_drop, hd12, drop_append_left (by simp)]
    have hlevel : decodeFixed32 ((e :: es).flatMap encodeFile ++ rest) = e.1 := by
      rw [henc, decodeFixed32_put, Nat.mod_eq_of_lt]
      simp only [kNumLevels] at hlv
      omega
    have hlen : ¬ ((e :: es).flatMap encodeFile ++ rest).length < 20 := by
      rw [henc]
      simp only [List.length_append, length_putFixed32, length_putFixed64]
      omega
    have hg1 : getLengthPrefixed keys =
        some (e.2.smallest, putLengthPrefixed e.2.largest ++ tail) := getLengthPrefixed_put hk _
    have hg2 : getLengthPrefixed (putLengthPrefixed e.2.largest ++ tail) =
        some (e.2.largest, tail) := getLengthPrefixed_put hl _
    rw [List.length_cons, parseFiles]
    simp only [hlen, if_false, hlevel, hd4, hd12, hd20, decodeFixed64_put, Nat.mod_eq_of_lt hn,
      Nat.mod_eq_of_lt hs, hg1, hg2, not_le_of_gt hlv, ht, hrest, List.map_cons, reopenFile]

/-- The levels a manifest was written from, if they are sorted as they should be, come back. -/
theorem sortLevels_filesOf (g : FileMetaData → FileMetaData) (hn : ∀ f, (g f).number = f.number)
    (hs : ∀ f, (g f).smallest = f.smallest)
    (h0 : (v.levels 0).Pairwise fun a b => b.number < a.number)
    (hd : ∀ l, 0 < l →
      (v.levels l).Pairwise fun a b => compareInternalKey a.smallest b.smallest = .lt)
    (he : ∀ l, kNumLevels ≤ l → v.levels l = []) :
    sortLevels ((filesOf v).map fun e => (e.1, g e.2)) =
      { levels := fun level => (v.levels level).map g } := by
  have hfilter : ∀ level, (((filesOf v).map fun e => (e.1, g e.2)).filter
      fun e => e.1 == level).map Prod.snd = (v.levels level).map g := by
    intro level
    have hone : ∀ l, (((v.levels l).map fun f => (l, f)).map (fun e => (e.1, g e.2))).filter
        (fun e => e.1 == level) = if l = level then
        (v.levels l).map (fun f => (l, g f)) else [] := by
      intro l
      by_cases hl : l = level
      · subst hl
        simp [Function.comp_def]
      · simp [Function.comp_def, hl]
    have hflat : ((filesOf v).map fun e => (e.1, g e.2)).filter (fun e => e.1 == level) =
        (List.range kNumLevels).flatMap fun l =>
          if l = level then (v.levels l).map (fun f => (l, g f)) else [] := by
      rw [filesOf, List.map_flatMap, List.filter_flatMap]
      simp only [hone]
    rw [hflat]
    by_cases hl : level < kNumLevels
    · simp only [kNumLevels] at hl
      have hr : List.range kNumLevels = [0, 1, 2, 3, 4, 5, 6] := rfl
      rw [hr]
      obtain h | h | h | h | h | h | h : level = 0 ∨ level = 1 ∨ level = 2 ∨ level = 3 ∨
        level = 4 ∨ level = 5 ∨ level = 6 := by omega
      all_goals subst h; simp [Function.comp_def]
    · rw [he level (not_lt.1 hl), List.map_nil, List.map_eq_nil_iff, List.flatMap_eq_nil_iff]
      intro l hl'
      have hne : l ≠ level := by
        have := List.mem_range.1 hl'
        omega
      rw [if_neg hne]
  rw [sortLevels]
  congr 1
  funext level
  simp only [hfilter]
  by_cases hl : level = 0
  · subst hl
    rw [if_pos rfl]
    refine List.Pairwise.insertionSort_eq (List.pairwise_map.2 (h0.imp fun {a b} hab => ?_))
    rw [hn, hn]
    exact hab.le
  · rw [if_neg hl]
    refine List.Pairwise.insertionSort_eq (List.pairwise_map.2 ?_)
    refine (hd level (Nat.pos_of_ne_zero hl)).imp fun {a b} hab => ?_
    rw [hs, hs, hab]
    decide

theorem length_body (m : Manifest) : 36 ≤ m.body.length := by
  simp only [body, List.length_append, length_putFixed32, length_putFixed64]
  omega

/-- Loading undoes writing, with every table opened anew. -/
theorem load_encode (openTable : Nat → Except Status Table) {m : Manifest} (hfit : m.Fits)
    (h0 : (m.version.levels 0).Pairwise fun a b => b.number < a.number)
    (hd : ∀ l, 0 < l →
      (m.version.levels l).Pairwise fun a b => compareInternalKey a.smallest b.smallest = .lt)
    (he : ∀ l, kNumLevels ≤ l → m.version.levels l = [])
    (hopen : ∀ e ∈ filesOf m.version, ∃ t, openTable e.2.number = .ok t) :
    load openTable m.encode = .ok { m with version := reopenVersion openTable m.version } := by
  have hlen : m.encode.length - 4 = m.body.length := by simp [encode]
  have htake : m.encode.take (m.encode.length - 4) = m.body := by
    rw [hlen, encode, List.take_left' rfl]
  have hdrop : m.encode.drop (m.encode.length - 4) =
      putFixed32 (Crc32c.value m.body).toNat ++ [] := by
    rw [hlen, encode, List.drop_left' rfl, List.append_nil]
  have hshort : ¬ m.encode.length < 36 := by
    have := length_body m
    omega
  set es := (filesOf m.version).flatMap encodeFile with hes
  set n := (filesOf m.version).length with hn
  have hd8 : m.body.drop 8 = putFixed64 m.nextFileNumber ++ (putFixed64 m.lastSequence ++
      (putFixed64 m.logNumber ++ (putFixed32 n ++ es))) := drop_append_left (by simp) _
  have hd16 : m.body.drop 16 = putFixed64 m.lastSequence ++
      (putFixed64 m.logNumber ++ (putFixed32 n ++ es)) := by
    rw [show 16 = 8 + 8 from rfl, ← List.drop_drop, hd8, drop_append_left (by simp)]
  have hd24 : m.body.drop 24 = putFixed64 m.logNumber ++ (putFixed32 n ++ es) := by
    rw [show 24 = 16 + 8 from rfl, ← List.drop_drop, hd16, drop_append_left (by simp)]
  have hd32 : m.body.drop 32 = putFixed32 n ++ es := by
    rw [show 32 = 24 + 8 from rfl, ← List.drop_drop, hd24, drop_append_left (by simp)]
  have hd36 : m.body.drop 36 = es := by
    rw [show 36 = 32 + 4 from rfl, ← List.drop_drop, hd32, drop_append_left (by simp)]
  have hmagic : decodeFixed64 m.body = kManifestMagic := by
    rw [body, decodeFixed64_put]
    decide
  have hcrc : (Crc32c.value m.body).toNat % 2 ^ 32 = (Crc32c.value m.body).toNat :=
    Nat.mod_eq_of_lt (UInt32.toNat_lt _)
  have hparse : parseFiles openTable n es =
      .ok ((filesOf m.version).map fun e => (e.1, reopenFile openTable e.2)) := by
    rw [← List.append_nil es]
    refine parseFiles_encode openTable _ [] (fun e h => (mem_filesOf.1 h).1) (fun e h => ?_) hopen
    exact ⟨hfit.number e h, hfit.fileSize e h, hfit.smallest e h, hfit.largest e h⟩
  have hreopen : ∀ f, (reopenFile openTable f).number = f.number ∧
      (reopenFile openTable f).smallest = f.smallest := by
    intro f
    rw [reopenFile]
    split <;> exact ⟨rfl, rfl⟩
  have hsort := sortLevels_filesOf (reopenFile openTable) (fun f => (hreopen f).1)
    (fun f => (hreopen f).2) h0 hd he
  rw [load, if_neg hshort]
  simp only [htake, hdrop, decodeFixed32_put, hcrc, hmagic, hd8, hd16, hd24, hd32, hd36,
    decodeFixed64_put, Nat.mod_eq_of_lt hfit.logNumber, Nat.mod_eq_of_lt hfit.nextFileNumber,
    Nat.mod_eq_of_lt hfit.lastSequence, Nat.mod_eq_of_lt (show n < 2 ^ 32 from hfit.files),
    hparse, hsort, ne_eq, not_true_eq_false, if_false, reopenVersion]

end Manifest

end LsmKv
