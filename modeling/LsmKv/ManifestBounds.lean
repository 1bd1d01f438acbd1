import LsmKv.Manifest
import LsmKv.TableBounds

namespace LsmKv
set_option autoImplicit true

/-- A `string_view` on a buffer: where it starts, and how many bytes it says it has. -/
structure View where
  pos : Nat
  size : Nat

def View.removePrefix (v : View) (n : Nat) : View := ⟨v.pos + n, sizeSub v.size n⟩

/-- The view ends where the bytes do. -/
def View.Inside (v : View) (b : Bytes) : Prop := v.pos + v.size = b.length

theorem View.Inside.removePrefix {v : View} (h : v.Inside b) (hn : n ≤ v.size) :
    (v.removePrefix n).Inside b := by
  simp only [View.Inside, View.removePrefix, sizeSub_eq hn] at h ⊢
  omega

theorem View.Inside.length_drop {v : View} (h : v.Inside b) : (b.drop v.pos).length = v.size := by
  rw [List.length_drop, ← h, Nat.add_sub_cancel_left]

/-- Access to `n` bytes of `b`. -/
def readAt (b : Bytes) (pos n : Nat) : Outcome Bytes :=
  match slice b pos n with
  | none => .outOfRange
  | some bytes => .ok bytes

def fixed32At (b : Bytes) (pos : Nat) : Outcome Nat :=
  (readAt b pos 4).bind fun p => .ok (decodeFixed32 p)

def fixed64At (b : Bytes) (pos : Nat) : Outcome Nat :=
  (readAt b pos 8).bind fun p => .ok (decodeFixed64 p)

/-- `GetLengthPrefixed` on a view; the string is a view again. -/
def lengthPrefixedAt (b : Bytes) (input : View) : Outcome (Option (View × View)) :=
  if input.size < 4 then .ok none
  else
    (fixed32At b input.pos).bind fun len =>
      if input.size < 4 + len then .ok none
      else .ok (some (⟨input.pos + 4, len⟩, input.removePrefix (4 + len)))

section
variable {b : Bytes}

theorem readAt_eq (h : pos + n ≤ b.length) : readAt b pos n = .ok ((b.drop pos).take n) := by
  rw [readAt, slice_eq h]

theorem readAt_outside (h : b.length < pos + n) : readAt b pos n = .outOfRange := by
  rw [readAt, slice, if_neg (not_le.2 h)]

theorem fixed32At_eq (h : pos + 4 ≤ b.length) :
    fixed32At b pos = .ok (decodeFixed32 (b.drop pos)) := by
  rw [fixed32At, readAt_eq h, Outcome.bind, decodeFixed32, List.take_take, min_self, decodeFixed32]

theorem fixed64At_eq (h : pos + 8 ≤ b.length) :
    fixed64At b pos = .ok (decodeFixed64 (b.drop pos)) := by
  rw [fixed64At, readAt_eq h, Outcome.bind, decodeFixed64, List.take_take, min_self, decodeFixed64]

theorem fixed32At_outside (h : b.length < pos + 4) : fixed32At b pos = .outOfRange := by
  rw [fixed32At, readAt_outside h, Outcome.bind]

theorem lengthPrefixedAt_eq {v : View} (h : v.Inside b) :
    (lengthPrefixedAt b v = .ok none ∧ getLengthPrefixed (b.drop v.pos) = none) ∨
    ∃ s w, lengthPrefixedAt b v = .ok (some (s, w)) ∧ s.pos + s.size ≤ b.length ∧ w.Inside b ∧
      getLengthPrefixed (b.drop v.pos) = some ((b.drop s.pos).take s.size, b.drop w.pos) := by
  rw [lengthPrefixedAt, getLengthPrefixed, h.length_drop]
  by_cases h4 : v.size < 4
  · exact .inl ⟨if_pos h4, if_pos h4⟩
  have hpos : v.pos + 4 ≤ b.length := by
    rw [← h]
    omega
  rw [if_neg h4, if_neg h4, fixed32At_eq hpos, Outcome.bind]
  set len := decodeFixed32 (b.drop v.pos)
  by_cases hlen : v.size < 4 + len
  · exact .inl ⟨if_pos hlen, if_pos hlen⟩
  refine .inr ⟨⟨v.pos + 4, len⟩, _, if_neg hlen, ?_, h.removePrefix (not_lt.1 hlen), ?_⟩
  · rw [← h]
    simp only
    omega
  · rw [if_neg hlen, List.drop_drop, List.drop_drop]
    rfl

end

namespace Manifest

def parseFilesAt (openTable : Nat → Except Status Table) (b : Bytes) :
    Nat → View → Outcome (List (Nat × FileMetaData))
  | 0, _ => .ok []
  | n + 1, rest =>
    if rest.size < 20 then .error (.corruption "truncated manifest entry")
    else
      (fixed32At b rest.pos).bind fun level =>
      (fixed64At b (rest.pos + 4)).bind fun number =>
      (fixed64At b (rest.pos + 12)).bind fun fileSize =>
      (lengthPrefixedAt b (rest.removePrefix 20)).bind fun
        | none => .error (.corruption "truncated manifest key")
        | some (smallest, rest) => (lengthPrefixedAt b rest).bind fun
          | none => .error (.corruption "truncated manifest key")
          | some (largest, rest) =>
            (readAt b smallest.pos smallest.size).bind fun smallest =>
            (readAt b largest.pos largest.size).bind fun largest =>
            if kNumLevels ≤ level then .error (.corruption "manifest level out of range")
            else
              (Outcome.ofExcept (openTable number)).bind fun table =>
              (parseFilesAt openTable b n rest).bind fun files =>
              .ok ((level, ⟨number, fileSize, smallest, largest, table⟩) :: files)

/-- The files of a level, in the order of their entries. -/
def filesAt (files : List (Nat × FileMetaData)) (level : Nat) : List FileMetaData :=
  (files.filter fun e => e.1 == level).map Prod.snd

/-- `CompareInternalKey` of two smallest keys; a key without room for a tag is read outside. -/
def compareSmallestAt (f g : FileMetaData) : Outcome Ordering :=
  match compareInternalKey? f.smallest g.smallest with
  | none => .outOfRange
  | some c => .ok c

def insertAt (f : FileMetaData) : List FileMetaData → Outcome (List FileMetaData)
  | [] => .ok [f]
  | g :: rest =>
    (compareSmallestAt f g).bind fun c =>
    if c ≠ .gt then .ok (f :: g :: rest)
    else (insertAt f rest).bind fun rest => .ok (g :: rest)

/-- The sort of a level by smallest key. Like any sort by comparisons, it compares each file of two
or more. -/
def sortAt : List FileMetaData → Outcome (List FileMetaData)
  | [] => .ok []
  | f :: rest => (sortAt rest).bind (insertAt f)

/-- The loop over the deeper levels, on a version that has its files by level. -/
def sortLevelsAt : List Nat → Version → Outcome Version
  | [], v => .ok v
  | level :: rest, v =>
    (sortAt (v.levels level)).bind fun files => sortLevelsAt rest (v.setLevel level files)

/-- The version when the deeper levels are still to be sorted. -/
def collect (files : List (Nat × FileMetaData)) : Version where
  levels := fun level =>
    if level = 0 then (filesAt files 0).insertionSort fun a b => b.number ≤ a.number
    else filesAt files level

/-- `LoadManifest` with its accesses checked. The header and the entries are decoded from `seen`,
the bytes of the file that this may touch; `rest` is cut from the file without its checksum. -/
def loadAt (openTable : Nat → Except Status Table) (seen body : Bytes) : Outcome Manifest :=
  if body.length < 36 then .error (.corruption "manifest too short")
  else
    let bodyLen := body.length - 4
    (fixed32At body bodyLen).bind fun crc =>
    if (Crc32c.value (body.take bodyLen)).toNat ≠ crc then
      .error (.corruption "manifest checksum mismatch")
    else
      (fixed64At seen 0).bind fun magic =>
      if magic ≠ kManifestMagic then .error (.corruption "bad manifest magic")
      else
        (fixed64At seen 8).bind fun nextFileNumber =>
        (fixed64At seen 16).bind fun lastSequence =>
        (fixed64At seen 24).bind fun logNumber =>
        (fixed32At seen 32).bind fun numFiles =>
        (parseFilesAt openTable seen numFiles
          ((View.mk 0 bodyLen).removePrefix 36)).bind fun files =>
        (sortLevelsAt (List.range' 1 (kNumLevels - 1)) (collect files)).bind fun version =>
        .ok { version, logNumber, nextFileNumber, lastSequence }

/-- The bytes that the checksum covers. -/
def covered (body : Bytes) : Bytes := body.take (body.length - 4)

def ChecksumMatches (body : Bytes) : Prop :=
  (Crc32c.value (covered body)).toNat = decodeFixed32 (body.drop (body.length - 4))

/-- A header of 36 bytes and the entries that it announces, each in full and of a level that
exists. -/
def WellFormed (b : Bytes) : Prop :=
  ∃ (header rest : Bytes) (files : List (Nat × FileMetaData)),
    b = header ++ (files.flatMap encodeFile ++ rest) ∧ header.length = 36 ∧
    decodeFixed32 (header.drop 32) = files.length ∧
    ∀ e ∈ files, e.1 < kNumLevels ∧ e.2.smallest.length < 2 ^ 32 ∧ e.2.largest.length < 2 ^ 32

/-- `LoadManifest` returns without a read outside the checksummed bytes, and with OK only for a
manifest whose checksum matches and whose bytes are complete. -/
def LoadsInBounds (openTable : Nat → Except Status Table) (body : Bytes) : Prop :=
  (loadAt openTable (covered body) body).Returns ∧
    ∀ m, loadAt openTable (covered body) body = .ok m → ChecksumMatches body ∧
    WellFormed (covered body)

/-- The guard lets the file through, but the checksum covers less than a header. -/
def CutHeader (body : Bytes) : Prop :=
  36 ≤ body.length ∧ body.length < 40 ∧ ChecksumMatches body ∧
    decodeFixed64 (covered body) = kManifestMagic

/-- The entries that a manifest announces, each in full and with a table that opens. -/
def Lists (openTable : Nat → Except Status Table) (b : Bytes) (files : List (Nat × FileMetaData)) :
    Prop :=
  ∃ header rest : Bytes, b = header ++ (files.flatMap encodeFile ++ rest) ∧ header.length = 36 ∧
    decodeFixed32 (header.drop 32) = files.length ∧
    ∀ e ∈ files, e.1 < kNumLevels ∧ e.2.number < 2 ^ 64 ∧ e.2.fileSize < 2 ^ 64 ∧
      e.2.smallest.length < 2 ^ 32 ∧ e.2.largest.length < 2 ^ 32 ∧
      openTable e.2.number = .ok e.2.table

/-- Two files or more, one of them with a smallest key that has no room for a tag. -/
def HasShort (files : List FileMetaData) : Prop :=
  2 ≤ files.length ∧ ∃ f ∈ files, f.smallest.length < kTagSize

/-- A manifest that is taken up to the sort, where a key without a tag is compared. -/
def ShortKeys (openTable : Nat → Except Status Table) (body : Bytes) : Prop :=
  40 ≤ body.length ∧ ChecksumMatches body ∧ decodeFixed64 (covered body) = kManifestMagic ∧
    ∃ files level, Lists openTable (covered body) files ∧ level ≠ 0 ∧ HasShort (filesAt files level)

theorem length_covered (body : Bytes) : (covered body).length = body.length - 4 := by
  rw [covered, List.length_take, min_eq_left (Nat.sub_le ..)]

section Sorting
variable {f : FileMetaData} {files l : List FileMetaData} {v : Version}

theorem compareSmallestAt_eq {g : FileMetaData} (hf : kTagSize ≤ f.smallest.length)
    (hg : kTagSize ≤ g.smallest.length) :
    compareSmallestAt f g = .ok (compareInternalKey f.smallest g.smallest) := by
  rw [compareSmallestAt, compareInternalKey?_eq hf hg]

theorem compareSmallestAt_short {g : FileMetaData}
    (h : f.smallest.length < kTagSize ∨ g.smallest.length < kTagSize) :
    compareSmallestAt f g = .outOfRange := by
  rw [compareSmallestAt, compareInternalKey?, if_pos h]

theorem insertAt_eq (hf : kTagSize ≤ f.smallest.length)
    (hl : ∀ g ∈ l, kTagSize ≤ g.smallest.length) :
    insertAt f l =
      .ok (l.orderedInsert (fun a b => compareInternalKey a.smallest b.smallest ≠ .gt) f) := by
  induction l with
  | nil => rfl
  | cons g l ih =>
    rw [insertAt, compareSmallestAt_eq hf (hl g List.mem_cons_self), Outcome.bind,
      List.orderedInsert_cons, ih fun x hx => hl x (List.mem_cons_of_mem g hx)]
    split <;> rfl

/-- The sort comes back exactly if it has no short key to compare. -/
theorem sortAt_eq (files : List FileMetaData) :
    (¬ HasShort files ∧ sortAt files = .ok (files.insertionSort fun a b =>
      compareInternalKey a.smallest b.smallest ≠ .gt)) ∨
    HasShort files ∧ sortAt files = .outOfRange := by
  induction files with
  | nil => exact .inl ⟨fun h => absurd h.1 (by simp), rfl⟩
  | cons f files ih =>
    rcases files with _ | ⟨g, rest⟩
    · exact .inl ⟨fun h => absurd h.1 (by simp), rfl⟩
    rcases ih with ⟨hno, hsort⟩ | ⟨hshort, hsort⟩
    swap
    · obtain ⟨hlen, x, hx, hlt⟩ := hshort
      refine .inr ⟨⟨by simp, x, List.mem_cons_of_mem f hx, hlt⟩, ?_⟩
      rw [sortAt, hsort, Outcome.bind]
    set sorted := (g :: rest).insertionSort fun a b =>
      compareInternalKey a.smallest b.smallest ≠ .gt with hsorted
    have hperm : sorted.Perm (g :: rest) := List.perm_insertionSort _ _
    have hrest : sortAt (f :: g :: rest) = insertAt f sorted := by rw [sortAt, hsort, Outcome.bind]
    by_cases hall : ∀ x ∈ f :: g :: rest, kTagSize ≤ x.smallest.length
    · refine .inl ⟨?_, ?_⟩
      · rintro ⟨_, x, hx, hlt⟩
        exact absurd (hall x hx) (not_le.2 hlt)
      · rw [hrest, insertAt_eq (hall f List.mem_cons_self) fun x hx =>
          hall x (List.mem_cons_of_mem f (hperm.mem_iff.1 hx))]
        rfl
    -- A short key is the new one, or the only one that was sorted before it.
    · push Not at hall
      obtain ⟨x, hx, hlt⟩ := hall
      refine .inr ⟨⟨by simp, x, hx, hlt⟩, ?_⟩
      rw [hrest]
      rcases List.mem_cons.1 hx with rfl | hx
      · obtain ⟨y, tail, hy⟩ := List.exists_cons_of_ne_nil
          (fun hnil => List.cons_ne_nil g rest (hnil ▸ hperm).nil_eq.symm : sorted ≠ [])
        rw [hy, insertAt, compareSmallestAt_short (.inl hlt), Outcome.bind]
      · have hnil : rest = [] := by
          by_contra hne
          have := List.length_pos_iff.2 hne
          exact hno ⟨by rw [List.length_cons]; omega, x, hx, hlt⟩
        subst hnil
        obtain rfl := List.mem_singleton.1 hx
        rw [hsorted, List.insertionSort_cons, List.insertionSort_nil, List.orderedInsert_nil,
          insertAt, compareSmallestAt_short (.inr hlt), Outcome.bind]

theorem sortLevelsAt_eq {levels : List Nat} (hnd : levels.Nodup) :
    ((∀ l ∈ levels, ¬ HasShort (v.levels l)) ∧ sortLevelsAt levels v = .ok {
      levels := fun l => if l ∈ levels then (v.levels l).insertionSort fun a b =>
        compareInternalKey a.smallest b.smallest ≠ .gt else v.levels l }) ∨
    (∃ l ∈ levels, HasShort (v.levels l)) ∧ sortLevelsAt levels v = .outOfRange := by
  induction levels generalizing v with
  | nil => exact .inl ⟨fun l hl => absurd hl List.not_mem_nil, by simp [sortLevelsAt]⟩
  | cons level levels ih =>
    obtain ⟨hnot, hnd⟩ := List.nodup_cons.1 hnd
    rcases sortAt_eq (v.levels level) with ⟨hno, hsort⟩ | ⟨hshort, hsort⟩
    swap
    · refine .inr ⟨⟨level, List.mem_cons_self, hshort⟩, ?_⟩
      rw [sortLevelsAt, hsort, Outcome.bind]
    set sorted := (v.levels level).insertionSort fun a b =>
      compareInternalKey a.smallest b.smallest ≠ .gt
    have hother : ∀ l ∈ levels, (v.setLevel level sorted).levels l = v.levels l := by
      intro l hl
      have hne : l ≠ level := fun he => hnot (he ▸ hl)
      simp only [Version.setLevel, if_neg hne]
    have hrun : sortLevelsAt (level :: levels) v =
        sortLevelsAt levels (v.setLevel level sorted) := by
      rw [sortLevelsAt, hsort, Outcome.bind]
    rcases ih (v := v.setLevel level sorted) hnd with ⟨hall, hrest⟩ | ⟨⟨l, hl, hs⟩, hrest⟩
    · refine .inl ⟨?_, ?_⟩
      · intro l hl
        rcases List.mem_cons.1 hl with rfl | hl
        · exact hno
        · exact hother l hl ▸ hall l hl
      · rw [hrun, hrest]
        congr 2
        funext l
        by_cases hl : l ∈ levels
        · simp only [List.mem_cons, hl, or_true, if_true, hother l hl]
        · by_cases he : l = level
          · subst he
            simp [hl, Version.setLevel, sorted]
          · simp [hl, he, Version.setLevel]
    · refine .inr ⟨⟨l, List.mem_cons_of_mem level hl, hother l hl ▸ hs⟩, ?_⟩
      rw [hrun, hrest]

/-- The sorts come back, with the version that `LoadManifest` installs, or compare a short key. -/
theorem sortLevelsAt_collect {files : List (Nat × FileMetaData)}
    (h : ∀ e ∈ files, e.1 < kNumLevels) :
    ((∀ level, level ≠ 0 → ¬ HasShort (filesAt files level)) ∧
      sortLevelsAt (List.range' 1 (kNumLevels - 1)) (collect files) = .ok (sortLevels files)) ∨
    (∃ level, level ≠ 0 ∧ HasShort (filesAt files level)) ∧
      sortLevelsAt (List.range' 1 (kNumLevels - 1)) (collect files) = .outOfRange := by
  have hempty : ∀ level, kNumLevels ≤ level → filesAt files level = [] := by
    intro level hl
    rw [filesAt, List.map_eq_nil_iff, List.filter_eq_nil_iff]
    intro e he heq
    have := h e he
    rw [beq_iff_eq] at heq
    omega
  have hmem : ∀ level, level ∈ List.range' 1 (kNumLevels - 1) ↔ level ≠ 0 ∧ level < kNumLevels := by
    intro level
    rw [List.mem_range'_1, kNumLevels]
    omega
  have hlevels : ∀ level, level ≠ 0 → (collect files).levels level = filesAt files level :=
    fun level hl => if_neg hl
  rcases sortLevelsAt_eq (v := collect files) (List.nodup_range' (s := 1) (n := kNumLevels - 1))
    with ⟨hall, hok⟩ | ⟨⟨level, hl, hs⟩, hout⟩
  · refine .inl ⟨fun level hl hs => ?_, ?_⟩
    · by_cases hlt : level < kNumLevels
      · exact hall level ((hmem level).2 ⟨hl, hlt⟩) (hlevels level hl ▸ hs)
      · rw [hempty level (not_lt.1 hlt)] at hs
        exact absurd hs.1 (by simp)
    · rw [hok]
      refine congrArg Outcome.ok ?_
      rw [sortLevels, Version.mk.injEq]
      funext level
      by_cases hl : level = 0
      · subst hl
        have h0 : 0 ∉ List.range' 1 (kNumLevels - 1) := fun hm => ((hmem 0).1 hm).1 rfl
        rw [if_neg h0]
        rfl
      · rw [hlevels level hl]
        by_cases hlt : level < kNumLevels
        · rw [if_pos ((hmem level).2 ⟨hl, hlt⟩), if_neg hl]
          rfl
        · have he := hempty level (not_lt.1 hlt)
          rw [if_neg fun hm => hlt ((hmem level).1 hm).2, if_neg hl, he]
          rw [filesAt] at he
          rw [he]
          rfl
  · obtain ⟨hl, _⟩ := (hmem level).1 hl
    exact .inr ⟨⟨level, hl, hlevels level hl ▸ hs⟩, hout⟩

end Sorting

/-- On a view that ends with its bytes, the loop reads nothing else. -/
theorem parseFilesAt_eq (openTable : Nat → Except Status Table) (n : Nat) {v : View}
    (h : v.Inside b) :
    parseFilesAt openTable b n v = .ofExcept (parseFiles openTable n (b.drop v.pos)) := by
  induction n generalizing v with
  | zero => rfl
  | succ n ih =>
    rw [parseFilesAt, parseFiles, h.length_drop]
    by_cases h20 : v.size < 20
    · rw [if_pos h20, if_pos h20]
      rfl
    have hle : v.pos + 20 ≤ b.length := by
      rw [← h]
      omega
    have hin : (v.removePrefix 20).Inside b := h.removePrefix (not_lt.1 h20)
    have hpos : (v.removePrefix 20).pos = v.pos + 20 := rfl
    rw [if_neg h20, if_neg h20, fixed32At_eq (by omega), fixed64At_eq (by omega),
      fixed64At_eq (by omega)]
    simp only [Outcome.bind, List.drop_drop]
    obtain ⟨hat, hget⟩ | ⟨s, w, hat, hs, hw, hget⟩ := lengthPrefixedAt_eq hin
    · simp only [hat, ← hpos, hget]
      rfl
    obtain ⟨hat', hget'⟩ | ⟨l, z, hat', hl, hz, hget'⟩ := lengthPrefixedAt_eq hw
    · simp only [hat, ← hpos, hget, hat', hget']
      rfl
    simp only [hat, ← hpos, hget, hat', hget', readAt_eq hs, readAt_eq hl]
    split
    · rfl
    · cases openTable (decodeFixed64 (b.drop (v.pos + 4))) with
      | error s => rfl
      | ok table =>
        simp only [Outcome.ofExcept, ih hz]
        cases parseFiles openTable n (b.drop z.pos) <;> rfl

/-- What the loop accepts are the entries, one after the other. -/
theorem parseFiles_eq_ok (openTable : Nat → Except Status Table) {rest : Bytes}
    (h : parseFiles openTable n rest = .ok files) :
    files.length = n ∧ (∃ tail, rest = files.flatMap encodeFile ++ tail) ∧
      ∀ e ∈ files, e.1 < kNumLevels ∧ e.2.number < 2 ^ 64 ∧ e.2.fileSize < 2 ^ 64 ∧
        e.2.smallest.length < 2 ^ 32 ∧ e.2.largest.length < 2 ^ 32 ∧
        openTable e.2.number = .ok e.2.table := by
  induction n generalizing rest files with
  | zero =>
    cases h
    exact ⟨rfl, ⟨rest, rfl⟩, fun e he => (nomatch he)⟩
  | succ n ih =>
    rw [parseFiles] at h
    split at h
    · cases h
    rename_i h20
    simp only at h
    split at h
    · cases h
    rename_i smallest r hs
    split at h
    · cases h
    rename_i largest q hl
    split at h
    · cases h
    rename_i hlevel
    split at h
    · cases h
    rename_i table ht
    split at h
    · cases h
    rename_i fs hfs
    cases h
    obtain ⟨hlen, ⟨tail, rfl⟩, hall⟩ := ih hfs
    obtain ⟨hsb, hs32⟩ := of_getLengthPrefixed hs
    obtain ⟨rfl, hl32⟩ := of_getLengthPrefixed hl
    refine ⟨by rw [List.length_cons, hlen], ⟨tail, ?_⟩, ?_⟩
    · have h4 := putFixed32_decodeFixed32 (p := rest) (by omega)
      have h12 := putFixed64_decodeFixed64 (p := rest.drop 4) (by rw [List.length_drop]; omega)
      have h20' := putFixed64_decodeFixed64 (p := rest.drop 12) (by rw [List.length_drop]; omega)
      rw [List.drop_drop] at h12 h20'
      rw [hsb] at h20'
      simp only [List.flatMap_cons, encodeFile, List.append_assoc]
      rw [h20', h12, h4]
    · intro e he
      obtain rfl | he := List.mem_cons.1 he
      · exact ⟨not_le.1 hlevel, decodeFixed64_lt _, decodeFixed64_lt _, hs32, hl32, ht⟩
      · exact hall e he

/-- The entries that are announced are those that the loop yields. -/
theorem parseFiles_iff_lists (openTable : Nat → Except Status Table) {b : Bytes}
    (hlen : 36 ≤ b.length) :
    parseFiles openTable (decodeFixed32 (b.drop 32)) (b.drop 36) = .ok files ↔
      Lists openTable b files := by
  constructor
  · intro h
    obtain ⟨hn, ⟨tail, htail⟩, hall⟩ := parseFiles_eq_ok openTable h
    refine ⟨b.take 36, tail, ?_, by simpa using hlen, ?_, hall⟩
    · rw [← htail, List.take_append_drop]
    · rw [hn, List.drop_take, decodeFixed32, List.take_take]
      rfl
  · rintro ⟨header, rest, rfl, hheader, hn, hall⟩
    have h36 : (header ++ (files.flatMap encodeFile ++ rest)).drop 36 =
        files.flatMap encodeFile ++ rest :=
      List.drop_left' hheader
    have h32 : decodeFixed32 ((header ++ (files.flatMap encodeFile ++ rest)).drop 32) =
        files.length := by
      rw [← hn, List.drop_append_of_le_length (by omega), decodeFixed32, decodeFixed32,
        List.take_append_of_le_length (by rw [List.length_drop]; omega)]
    have hsame : (files.map fun e => (e.1, reopenFile openTable e.2)) = files := by
      conv_rhs => rw [← List.map_id files]
      apply List.map_congr_left
      intro e he
      rw [reopenFile, (hall e he).2.2.2.2.2]
      rfl
    rw [h32, h36, parseFiles_encode openTable files rest (fun e he => (hall e he).1)
      (fun e he => ?_) fun e he => ⟨_, (hall e he).2.2.2.2.2⟩, hsame]
    obtain ⟨_, h1, h2, h3, h4, _⟩ := hall e he
    exact ⟨h1, h2, h3, h4⟩

theorem Lists.wellFormed {openTable : Nat → Except Status Table} {b : Bytes}
    (h : Lists openTable b files) : WellFormed b := by
  obtain ⟨header, rest, hb, hheader, hn, hall⟩ := h
  refine ⟨header, rest, files, hb, hheader, hn, fun e he => ?_⟩
  obtain ⟨h1, _, _, h2, h3, _⟩ := hall e he
  exact ⟨h1, h2, h3⟩

section
variable {body : Bytes}

/-- Unless the checksum cuts the header, the checked reader does what the plain one does, or
compares a short key. -/
theorem loadAt_eq (openTable : Nat → Except Status Table) (h : ¬ CutHeader body) :
    (¬ ShortKeys openTable body ∧
      loadAt openTable (covered body) body = .ofExcept (load openTable body)) ∨
    ShortKeys openTable body ∧ loadAt openTable (covered body) body = .outOfRange := by
  rw [loadAt, load]
  by_cases h36 : body.length < 36
  · rw [if_pos h36, if_pos h36]
    exact .inl ⟨fun hs => absurd hs.1 (by omega), rfl⟩
  rw [if_neg h36, if_neg h36]
  simp only [fixed32At_eq (show body.length - 4 + 4 ≤ body.length by omega), Outcome.bind]
  by_cases hcrc : ChecksumMatches body
  swap
  · have hne := hcrc
    rw [ChecksumMatches, covered] at hne
    rw [if_pos hne, if_pos hne]
    exact .inl ⟨fun hs => hcrc hs.2.1, rfl⟩
  have hlen := length_covered body
  have heq := hcrc
  rw [ChecksumMatches, covered] at heq
  have hcov : body.take (body.length - 4) = covered body := rfl
  rw [if_neg (not_not.2 heq), if_neg (not_not.2 heq), fixed64At_eq (by omega)]
  simp only [List.drop_zero, hcov]
  by_cases hmagic : decodeFixed64 (covered body) = kManifestMagic
  swap
  · rw [if_pos hmagic, if_pos hmagic]
    exact .inl ⟨fun hs => hmagic hs.2.2.1, rfl⟩
  have h40 : 40 ≤ body.length := by
    by_contra hlt
    exact h ⟨not_lt.1 h36, not_le.1 hlt, hcrc, hmagic⟩
  have hin : ((View.mk 0 (body.length - 4)).removePrefix 36).Inside (covered body) := by
    refine View.Inside.removePrefix ?_ (by simp only; omega)
    rw [View.Inside, hlen, Nat.zero_add]
  rw [if_neg (not_not.2 hmagic), if_neg (not_not.2 hmagic), fixed64At_eq (by omega),
    fixed64At_eq (by omega), fixed64At_eq (by omega), fixed32At_eq (by omega)]
  have hparse := parseFilesAt_eq openTable (decodeFixed32 ((covered body).drop 32)) hin
  have hpos : ((View.mk 0 (body.length - 4)).removePrefix 36).pos = 36 := rfl
  simp only [hparse, hpos]
  have h36' : 36 ≤ (covered body).length := by omega
  have hlists (files : List (Nat × FileMetaData)) : parseFiles openTable
      (decodeFixed32 ((covered body).drop 32)) ((covered body).drop 36) = .ok files ↔
      Lists openTable (covered body) files := parseFiles_iff_lists openTable h36'
  cases hp : parseFiles openTable (decodeFixed32 ((covered body).drop 32))
    ((covered body).drop 36) with
  | error e =>
    refine .inl ⟨?_, rfl⟩
    rintro ⟨_, _, _, files, _, hfiles, _⟩
    rw [(hlists files).2 hfiles] at hp
    cases hp
  | ok files =>
    obtain ⟨_, _, _, _, _, hall⟩ := (hlists files).1 hp
    simp only [Outcome.ofExcept]
    rcases sortLevelsAt_collect fun e he => (hall e he).1 with ⟨hno, hok⟩ | ⟨⟨level, hl, hs⟩, hout⟩
    · rw [hok]
      refine .inl ⟨?_, rfl⟩
      rintro ⟨_, _, _, files', level, hfiles', hl, hs⟩
      have hsame := (hlists files').2 hfiles'
      rw [hp] at hsame
      cases hsame
      exact hno level hl hs
    · rw [hout]
      exact .inr ⟨⟨h40, hcrc, hmagic, files, level, (hlists files).1 hp, hl, hs⟩, rfl⟩

/-- The number of files is read from bytes that no checksum covers. -/
theorem loadAt_cutHeader (openTable : Nat → Except Status Table) (h : CutHeader body) :
    loadAt openTable (covered body) body = .outOfRange := by
  obtain ⟨h36, h40, hcrc, hmagic⟩ := h
  have hlen := length_covered body
  have heq := hcrc
  rw [ChecksumMatches, covered] at heq
  rw [loadAt, if_neg (not_lt.2 h36)]
  simp only [fixed32At_eq (show body.length - 4 + 4 ≤ body.length by omega), Outcome.bind]
  rw [if_neg (not_not.2 heq), fixed64At_eq (by omega)]
  simp only [List.drop_zero, hmagic]
  rw [if_neg (not_not.2 rfl), fixed64At_eq (by omega), fixed64At_eq (by omega),
    fixed64At_eq (by omega), fixed32At_outside (by omega)]

theorem loadAt_cutHeader_whole (openTable : Nat → Except Status Table) (h : CutHeader body)
    (hn : decodeFixed32 (body.drop 32) ≠ 0) : loadAt openTable body body = .outOfRange := by
  obtain ⟨h36, h40, hcrc, hmagic⟩ := h
  obtain ⟨n, hn⟩ := Nat.exists_eq_succ_of_ne_zero hn
  have hmagic' : decodeFixed64 body = kManifestMagic := by
    rw [← hmagic, covered, decodeFixed64, decodeFixed64, List.take_take, min_eq_left (by omega)]
  -- The view has lost 36 bytes of at most 35: its size is now almost `2 ^ 64`.
  have hsize : ¬ ((View.mk 0 (body.length - 4)).removePrefix 36).size < 20 := by
    simp only [View.removePrefix, sizeSub, if_neg (show ¬ 36 ≤ body.length - 4 by omega)]
    omega
  rw [ChecksumMatches, covered] at hcrc
  rw [loadAt, if_neg (not_lt.2 h36)]
  simp only [fixed32At_eq (show body.length - 4 + 4 ≤ body.length by omega), Outcome.bind]
  rw [if_neg (not_not.2 hcrc), fixed64At_eq (by omega)]
  simp only [List.drop_zero, hmagic']
  rw [if_neg (not_not.2 rfl), fixed64At_eq (by omega), fixed64At_eq (by omega),
    fixed64At_eq (by omega), fixed32At_eq (by omega)]
  simp only [hn, parseFilesAt, if_neg hsize]
  rw [fixed32At_outside (by simp only [View.removePrefix]; omega)]
  rfl

end

theorem load_eq_ok (openTable : Nat → Except Status Table) {body : Bytes} (h40 : ¬ CutHeader body)
    (h : load openTable body = .ok m) : ChecksumMatches body ∧ WellFormed (covered body) := by
  rw [load] at h
  split at h
  · cases h
  rename_i h36
  simp only at h
  split at h
  · cases h
  rename_i hcrc
  split at h
  · cases h
  rename_i hmagic
  split at h
  · cases h
  rename_i files hparse
  have hsum : ChecksumMatches body := not_not.1 hcrc
  refine ⟨hsum, ((parseFiles_iff_lists openTable ?_).1 hparse).wellFormed⟩
  rw [← covered, length_covered]
  by_contra hlt
  exact h40 ⟨not_lt.1 h36, by omega, hsum, not_not.1 hmagic⟩

/-- `LoadManifest` stays in bounds exactly if the checksummed bytes do not end inside a header that
it takes, and no level that it sorts has a key too short to compare. -/
theorem loadsInBounds_iff (openTable : Nat → Except Status Table) (body : Bytes) :
    LoadsInBounds openTable body ↔ ¬ CutHeader body ∧ ¬ ShortKeys openTable body := by
  constructor
  · rintro ⟨hret, _⟩
    have hcut : ¬ CutHeader body := by
      intro hcut
      rw [loadAt_cutHeader openTable hcut] at hret
      exact Outcome.not_returns_outOfRange hret
    refine ⟨hcut, fun hshort => ?_⟩
    obtain ⟨hno, _⟩ | ⟨_, hout⟩ := loadAt_eq openTable hcut
    · exact hno hshort
    · rw [hout] at hret
      exact Outcome.not_returns_outOfRange hret
  · rintro ⟨hcut, hno⟩
    obtain ⟨_, heq⟩ | ⟨hshort, _⟩ := loadAt_eq openTable hcut
    · rw [LoadsInBounds, heq]
      exact ⟨⟨_, rfl⟩, fun m hm => load_eq_ok openTable hcut (Outcome.ofExcept_eq_ok.1 hm)⟩
    · exact absurd hshort hno

/-- The magic number and zeros up to the number of files. -/
def cutBody : Bytes := putFixed64 kManifestMagic ++ List.replicate 24 0

def cutFile : Bytes := cutBody ++ putFixed32 (Crc32c.value cutBody).toNat

theorem cutHeader_cutFile : CutHeader cutFile := by
  have hlen : cutFile.length = 36 := by simp [cutFile, cutBody]
  have hcov : covered cutFile = cutBody := by
    rw [covered, hlen, cutFile, List.take_left' (by simp [cutBody])]
  refine ⟨hlen.ge, by omega, ?_, ?_⟩
  · rw [ChecksumMatches, hcov, hlen, cutFile, List.drop_left' (by simp [cutBody]),
      ← List.append_nil (putFixed32 _), decodeFixed32_put, Nat.mod_eq_of_lt (UInt32.toNat_lt _)]
  · rw [hcov, cutBody, decodeFixed64_put]
    decide

/-- A file of 36 bytes with a valid checksum: its last four bytes are the checksum and the number
of files as well, and the first entry is read behind the end of the file. -/
theorem cutFile_reads_outside : ¬ LoadsInBounds (fun n => .error (.ioError (toString n))) cutFile ∧
    loadAt (fun n => .error (.ioError (toString n))) cutFile cutFile = .outOfRange := by
  refine ⟨fun h => ?_, loadAt_cutHeader_whole _ cutHeader_cutFile ?_⟩
  · rw [LoadsInBounds, loadAt_cutHeader _ cutHeader_cutFile] at h
    exact Outcome.not_returns_outOfRange h.1
  rw [cutFile, List.drop_left' (by simp [cutBody])]
  decide +kernel

end Manifest

end LsmKv
