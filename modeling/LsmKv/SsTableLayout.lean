import LsmKv.SsTable
import LsmKv.BlockCursor

namespace LsmKv
set_option autoImplicit true

def firstKeyOf (l : List Rec) : Bytes := (l.head?.map Prod.fst).getD []
def lastKeyOf (l : List Rec) : Bytes := (l.getLast?.map Prod.fst).getD []

theorem lastKeyOf_append_singleton (l : List Rec) (e : Rec) : lastKeyOf (l ++ [e]) = e.1 := by
  simp [lastKeyOf]

theorem firstKeyOf_append (h : l ≠ []) (m : List Rec) : firstKeyOf (l ++ m) = firstKeyOf l := by
  cases l with
  | nil => exact absurd rfl h
  | cons a l => rfl

/-- Where `Add` cuts the data blocks, with `cur` already in the open block. -/
def cutBlocks (options : Options) : List Rec → List Rec → List (List Rec)
  | cur, [] => if cur = [] then [] else [cur]
  | cur, e :: es =>
    if options.blockSizeBytes ≤ ((BlockBuilder.new options.blockRestartInterval).addAll
        (cur ++ [e])).currentSizeEstimate
    then (cur ++ [e]) :: cutBlocks options [] es
    else cutBlocks options (cur ++ [e]) es

theorem flatten_cutBlocks (options : Options) (cur es : List Rec) :
    (cutBlocks options cur es).flatten = cur ++ es := by
  induction es generalizing cur with
  | nil =>
    rw [cutBlocks]
    split
    · rename_i h
      simp [h]
    · simp
  | cons e es ih =>
    rw [cutBlocks]
    split
    · rw [List.flatten_cons, ih]
      simp
    · rw [ih]
      simp

theorem cutBlocks_ne_nil (options : Options) (cur es : List Rec) :
    ∀ g ∈ cutBlocks options cur es, g ≠ [] := by
  induction es generalizing cur with
  | nil =>
    intro g hg
    rw [cutBlocks] at hg
    split at hg
    · cases hg
    · rename_i h
      rw [List.mem_singleton.1 hg]
      exact h
  | cons e es ih =>
    intro g hg
    rw [cutBlocks] at hg
    split at hg
    · rcases List.mem_cons.1 hg with rfl | hg
      · simp
      · exact ih _ g hg
    · exact ih _ g hg

namespace TableBuilder

/-- The index entries of data blocks that begin at `off`. -/
def handles (interval : Int) : Nat → List (List Rec) → List IndexEntry
  | _, [] => []
  | off, g :: gs => ⟨lastKeyOf g, off, (blockBytes interval g).length⟩ ::
      handles interval (off + (withTrailer (blockBytes interval g)).length) gs

def dataRegion (interval : Int) (gs : List (List Rec)) : Bytes :=
  gs.flatMap fun g => withTrailer (blockBytes interval g)

def encodeIndex (index : List IndexEntry) : Bytes :=
  index.flatMap fun e => encodeHandle e.lastKey e.offset e.size

theorem length_withTrailer (contents : Bytes) :
    (withTrailer contents).length = contents.length + kBlockTrailerSize := by
  simp [withTrailer, kBlockTrailerSize]

/-- The builder has written the blocks `gs` and holds `cur` in the open block. -/
structure Wrote (options : Options) (b : TableBuilder) (gs : List (List Rec)) (cur : List Rec) :
    Prop where
  options_eq : b.options = options
  file : b.file = dataRegion options.blockRestartInterval gs
  size : b.fileSize = b.file.length
  index : b.indexBlock = encodeIndex (handles options.blockRestartInterval 0 gs)
  block : b.block = (BlockBuilder.new options.blockRestartInterval).addAll cur
  lastKey : cur ≠ [] → b.lastKeyInBlock = lastKeyOf cur
  filterKeys : b.filterKeys = (gs.flatten ++ cur).map Rec.userKey
  numEntries : b.numEntries = (gs.flatten ++ cur).length
  smallest : b.smallestKey = firstKeyOf (gs.flatten ++ cur)
  largest : b.largestKey = lastKeyOf (gs.flatten ++ cur)

variable {options : Options} {b : TableBuilder} {gs : List (List Rec)} {cur es : List Rec}

theorem wrote_new (options : Options) : Wrote options (new options) [] [] :=
  ⟨rfl, rfl, rfl, rfl, rfl, fun h => absurd rfl h, rfl, rfl, rfl, rfl⟩

theorem handles_append (interval : Int) (off : Nat) (gs : List (List Rec)) (g : List Rec) :
    handles interval off (gs ++ [g]) = handles interval off gs ++
      [⟨lastKeyOf g, off + (dataRegion interval gs).length, (blockBytes interval g).length⟩] := by
  induction gs generalizing off with
  | nil => rfl
  | cons a gs ih =>
    rw [List.cons_append, handles, ih, handles, dataRegion, dataRegion, List.flatMap_cons,
      List.length_append, Nat.add_assoc]
    rfl

theorem Wrote.flushDataBlock (h : Wrote options b gs cur) (hc : cur ≠ []) :
    Wrote options b.flushDataBlock (gs ++ [cur]) [] := by
  have he : b.block.isEmpty = false := by
    rw [BlockBuilder.isEmpty, h.block, BlockBuilder.addAll_entries]
    simpa [BlockBuilder.new] using hc
  have hcont : b.block.finish = blockBytes options.blockRestartInterval cur := by
    rw [h.block, blockBytes]
  have hflat : (gs ++ [cur]).flatten ++ [] = gs.flatten ++ cur := by simp
  rw [TableBuilder.flushDataBlock, he]
  refine ⟨h.options_eq, ?_, ?_, ?_, ?_, fun hn => absurd rfl hn, ?_, ?_, ?_, ?_⟩
  · show b.file ++ withTrailer b.block.finish = _
    rw [hcont, h.file, dataRegion, dataRegion, List.flatMap_append]
    simp
  · show b.fileSize + (b.block.finish.length + kBlockTrailerSize) =
      (b.file ++ withTrailer b.block.finish).length
    rw [List.length_append, length_withTrailer, h.size]
  · show b.indexBlock ++ encodeHandle b.lastKeyInBlock b.fileSize b.block.finish.length = _
    rw [hcont, h.index, h.lastKey hc, h.size, h.file, handles_append, encodeIndex, encodeIndex,
      List.flatMap_append]
    simp
  · show b.block.reset = _
    rw [h.block, BlockBuilder.reset, BlockBuilder.addAll_interval]
    rfl
  · rw [hflat]; exact h.filterKeys
  · rw [hflat]; exact h.numEntries
  · rw [hflat]; exact h.smallest
  · rw [hflat]; exact h.largest

/-- The builder with one more entry in the open block, before the cut is decided. -/
theorem Wrote.append (h : Wrote options b gs cur) (e : Rec) :
    Wrote options { b with
      smallestKey := if b.numEntries = 0 then e.1 else b.smallestKey
      largestKey := e.1
      lastKeyInBlock := e.1
      numEntries := b.numEntries + 1
      filterKeys := b.filterKeys ++ [extractUserKey e.1]
      block := b.block.add e.1 e.2 } gs (cur ++ [e]) := by
  have hflat : gs.flatten ++ (cur ++ [e]) = (gs.flatten ++ cur) ++ [e] := by simp
  refine ⟨h.options_eq, h.file, h.size, h.index, ?_, ?_, ?_, ?_, ?_, ?_⟩
  · show b.block.add e.1 e.2 = _
    rw [h.block, BlockBuilder.addAll_append]
    rfl
  · intro _
    exact (lastKeyOf_append_singleton cur e).symm
  · rw [hflat, List.map_append, ← h.filterKeys]
    rfl
  · show b.numEntries + 1 = _
    rw [h.numEntries, hflat]
    simp only [List.length_append, List.length_singleton]
  · show (if b.numEntries = 0 then e.1 else b.smallestKey) = _
    rw [hflat, h.numEntries]
    split
    · rename_i hz
      rw [List.length_eq_zero_iff.1 hz]
      rfl
    · rename_i hz
      rw [firstKeyOf_append (fun hn => hz (by rw [hn]; rfl)), h.smallest]
  · rw [hflat, lastKeyOf_append_singleton]

theorem Wrote.add (h : Wrote options b gs cur) (e : Rec) :
    if options.blockSizeBytes ≤ ((BlockBuilder.new options.blockRestartInterval).addAll
        (cur ++ [e])).currentSizeEstimate
    then Wrote options (b.add e.1 e.2) (gs ++ [cur ++ [e]]) []
    else Wrote options (b.add e.1 e.2) gs (cur ++ [e]) := by
  obtain rfl := h.options_eq
  have ha := h.append e
  have hb := ha.block
  simp only at hb
  split
  · rename_i hc
    rw [TableBuilder.add]
    simp only [hb, hc, if_true]
    have hf := ha.flushDataBlock (by simp)
    rwa [hb] at hf
  · rename_i hc
    rw [TableBuilder.add]
    simp only [hb, hc, if_false]
    rwa [hb] at ha

def addAll (b : TableBuilder) (es : List Rec) : TableBuilder :=
  es.foldl (fun b e => b.add e.1 e.2) b

theorem addAll_append_singleton (b : TableBuilder) (es : List Rec) (e : Rec) :
    b.addAll (es ++ [e]) = (b.addAll es).add e.1 e.2 := by
  simp [addAll]

theorem Wrote.addAll (h : Wrote options b gs cur) (es : List Rec) :
    Wrote options (b.addAll es).flushDataBlock (gs ++ cutBlocks options cur es) [] := by
  induction es generalizing b gs cur with
  | nil =>
    rw [cutBlocks]
    split
    · rename_i hc
      subst hc
      have he : b.block.isEmpty = true := by rw [h.block]; rfl
      show Wrote options b.flushDataBlock _ _
      rwa [TableBuilder.flushDataBlock, he, if_pos rfl, List.append_nil]
    · rename_i hc
      exact h.flushDataBlock hc
  | cons e es ih =>
    have ha := h.add e
    rw [cutBlocks]
    split at ha
    · rename_i hc
      have hr := ih ha
      rw [List.append_assoc] at hr
      rw [if_pos hc]
      exact hr
    · rename_i hc
      rw [if_neg hc]
      exact ih ha

end TableBuilder

/-- The file `TableBuilder` leaves behind for the entries `es`. -/
def tableFile (options : Options) (es : List Rec) : Bytes :=
  ((TableBuilder.new options).addAll es).finish.file

/-- Every length of the table fits its field: block offsets are 32 bits wide, file
offsets are an `off_t`. -/
structure TableFits (options : Options) (es : List Rec) : Prop where
  keys : ∀ e ∈ es, e.1.length < 2 ^ 32
  blocks : ∀ g ∈ cutBlocks options [] es,
    (blockBytes options.blockRestartInterval g).length < 2 ^ 32
  file : (tableFile options es).length < 2 ^ 63

open TableBuilder in
theorem tableFile_eq (options : Options) (es : List Rec) :
    let gs := cutBlocks options [] es
    let region := dataRegion options.blockRestartInterval gs
    let bloom := BloomFilter.build (es.map Rec.userKey) options.bloomBitsPerKey
    let index := encodeIndex (handles options.blockRestartInterval 0 gs)
    tableFile options es = region ++ (withTrailer bloom ++ (withTrailer index ++
      footer (region ++ withTrailer bloom).length index.length region.length bloom.length)) := by
  have h := (wrote_new options).addAll es
  rw [List.nil_append] at h
  have hk := h.filterKeys
  rw [List.append_nil, flatten_cutBlocks, List.nil_append] at hk
  simp only [tableFile, finish, writeBlock, h.size, h.file, hk, h.index, h.options_eq,
    List.append_assoc, List.length_append, length_withTrailer]

theorem TableBuilder.finish_fileSize (options : Options) (es : List Rec) :
    ((TableBuilder.new options).addAll es).finish.fileSize = (tableFile options es).length := by
  have h := (wrote_new options).addAll es
  simp only [tableFile, finish, writeBlock, h.size, List.length_append, length_withTrailer]

theorem TableBuilder.finish_keys (options : Options) (es : List Rec) :
    ((TableBuilder.new options).addAll es).finish.smallestKey = firstKeyOf es ∧
      ((TableBuilder.new options).addAll es).finish.largestKey = lastKeyOf es := by
  have h := (wrote_new options).addAll es
  have hs := h.smallest
  have hl := h.largest
  simp only [List.nil_append, List.append_nil, flatten_cutBlocks] at hs hl
  exact ⟨hs, hl⟩

namespace Table
open TableBuilder

variable {t : Table} {options : Options} {es : List Rec}

theorem readFile_of_append {c : Bytes} (h : t.file = pre ++ (withTrailer c ++ post))
    (hlt : t.file.length < 2 ^ 63) (k : Bytes) :
    t.readFile ⟨k, pre.length, c.length⟩ = .ok c := by
  have hbuf : (t.file.drop pre.length).take (c.length + kBlockTrailerSize) = withTrailer c := by
    rw [h, List.drop_left' rfl, List.take_left']
    simp [withTrailer, kBlockTrailerSize]
  have hcrc : (Crc32c.value c).toNat < 2 ^ 32 := UInt32.toNat_lt _
  have hle : pre.length + (c.length + 4) ≤ t.file.length := by
    rw [h]
    simp [length_withTrailer, kBlockTrailerSize]
  have hn : (c.length + kBlockTrailerSize) % 2 ^ 64 = c.length + kBlockTrailerSize :=
    Nat.mod_eq_of_lt (by rw [kBlockTrailerSize]; omega)
  have hread : readFullyAt t.file pre.length (c.length + kBlockTrailerSize) =
      .ok (withTrailer c) := by
    rw [readFullyAt, if_neg (by simp [kBlockTrailerSize]), if_neg, if_neg, hbuf] <;>
      rw [kBlockTrailerSize] <;> omega
  have htake : (withTrailer c).take c.length = c := by rw [withTrailer, List.take_left' rfl]
  have hdec : decodeFixed32 ((withTrailer c).drop c.length) = (Crc32c.value c).toNat := by
    rw [withTrailer, List.drop_left' rfl, ← List.append_nil (putFixed32 _), decodeFixed32_put,
      Nat.mod_eq_of_lt hcrc]
  simp only [readFile, hn, hread, htake, hdec]
  simp

theorem forall₂_handles (interval : Int) (gs : List (List Rec))
    (h : t.file = pre ++ (dataRegion interval gs ++ post)) (hlt : t.file.length < 2 ^ 63) :
    List.Forall₂ (fun e g => t.readFile e = .ok (blockBytes interval g) ∧ e.lastKey = lastKeyOf g)
      (handles interval pre.length gs) gs := by
  induction gs generalizing pre with
  | nil => exact .nil
  | cons g gs ih =>
    have hf : t.file = pre ++ (withTrailer (blockBytes interval g) ++
        (dataRegion interval gs ++ post)) := by
      rw [h, dataRegion, List.flatMap_cons, List.append_assoc]
      rfl
    refine .cons ⟨readFile_of_append hf hlt _, rfl⟩ ?_
    rw [← List.append_assoc] at hf
    have hrec := ih hf
    rwa [List.length_append] at hrec

theorem handles_offset_ge (interval : Int) (off : Nat) (gs : List (List Rec)) :
    ∀ e ∈ handles interval off gs, off ≤ e.offset := by
  induction gs generalizing off with
  | nil => simp [handles]
  | cons g gs ih =>
    intro e he
    rcases List.mem_cons.1 he with rfl | he
    · exact le_refl _
    · exact (Nat.le_add_right _ _).trans (ih _ e he)

theorem handles_pairwise (interval : Int) (off : Nat) (gs : List (List Rec)) :
    (handles interval off gs).Pairwise fun a b => a.offset < b.offset := by
  induction gs generalizing off with
  | nil => exact .nil
  | cons g gs ih =>
    refine List.pairwise_cons.2 ⟨fun b hb => ?_, ih _⟩
    have := handles_offset_ge interval _ gs b hb
    have hl : 0 < (withTrailer (blockBytes interval g)).length := by simp [withTrailer]
    show off < b.offset
    omega

theorem parseIndex_encodeIndex (path : String) (index : List IndexEntry)
    (hfit : ∀ e ∈ index, e.lastKey.length < 2 ^ 32 ∧ e.offset < 2 ^ 64 ∧ e.size < 2 ^ 64)
    (hf : index.length ≤ fuel) : parseIndex path fuel (encodeIndex index) = .ok index := by
  induction index generalizing fuel with
  | nil => cases fuel <;> rfl
  | cons e index ih =>
    obtain ⟨h1, h2, h3⟩ := hfit e List.mem_cons_self
    obtain ⟨fuel, rfl⟩ : ∃ n, fuel = n + 1 := ⟨fuel - 1, by simp at hf; omega⟩
    have henc : encodeIndex (e :: index) = putLengthPrefixed e.lastKey ++
        (putFixed64 e.offset ++ (putFixed64 e.size ++ encodeIndex index)) := by
      simp [encodeIndex, encodeHandle]
    obtain ⟨a, l, hcons⟩ : ∃ a l, encodeIndex (e :: index) = a :: l := by
      cases hc : encodeIndex (e :: index) with
      | nil =>
        have := congrArg List.length (henc.symm.trans hc)
        simp [putLengthPrefixed] at this
      | cons a l => exact ⟨a, l, rfl⟩
    rw [hcons, parseIndex, ← hcons, henc, getLengthPrefixed_put h1]
    · have hd : (putFixed64 e.offset ++ (putFixed64 e.size ++ encodeIndex index)).drop 16 =
          encodeIndex index := by
        rw [← List.append_assoc, List.drop_left']
        simp
      have hd8 : (putFixed64 e.offset ++ (putFixed64 e.size ++ encodeIndex index)).drop 8 =
          putFixed64 e.size ++ encodeIndex index := List.drop_left' (by simp)
      simp only [hd, hd8, decodeFixed64_put, Nat.mod_eq_of_lt h2, Nat.mod_eq_of_lt h3]
      rw [if_neg (by simp; omega),
        ih (fun x hx => hfit x (List.mem_cons_of_mem e hx)) (by simpa using hf)]
    · simp

theorem drop_footer (a b c d : Nat) :
    (footer a b c d).drop 8 = putFixed64 b ++ (putFixed64 c ++ (putFixed64 d ++
      (putFixed64 kTableMagic ++ []))) ∧
    (footer a b c d).drop 16 = putFixed64 c ++ (putFixed64 d ++ (putFixed64 kTableMagic ++ [])) ∧
    (footer a b c d).drop 24 = putFixed64 d ++ (putFixed64 kTableMagic ++ []) ∧
    (footer a b c d).drop 32 = putFixed64 kTableMagic ++ [] := by
  have h1 : (footer a b c d).drop 8 = putFixed64 b ++ (putFixed64 c ++ (putFixed64 d ++
      (putFixed64 kTableMagic ++ []))) := by
    rw [footer, List.append_nil, List.drop_left' (by simp)]
  have h2 : (footer a b c d).drop 16 =
      putFixed64 c ++ (putFixed64 d ++ (putFixed64 kTableMagic ++ [])) := by
    rw [show (16 : Nat) = 8 + 8 from rfl, ← List.drop_drop, h1, List.drop_left' (by simp)]
  have h3 : (footer a b c d).drop 24 = putFixed64 d ++ (putFixed64 kTableMagic ++ []) := by
    rw [show (24 : Nat) = 16 + 8 from rfl, ← List.drop_drop, h2, List.drop_left' (by simp)]
  have h4 : (footer a b c d).drop 32 = putFixed64 kTableMagic ++ [] := by
    rw [show (32 : Nat) = 24 + 8 from rfl, ← List.drop_drop, h3, List.drop_left' (by simp)]
  exact ⟨h1, h2, h3, h4⟩

/-- An open table serves the blocks `gs`, and its filter knows all their keys. -/
structure Blocks (interval : Int) (t : Table) (gs : List (List Rec)) : Prop where
  index : List.Forall₂ (fun e g => t.readFile e = .ok (blockBytes interval g) ∧
    e.lastKey = lastKeyOf g) t.index gs
  offsets : t.index.Pairwise fun a b => a.offset < b.offset
  ne_nil : ∀ g ∈ gs, g ≠ []
  keys : ∀ g ∈ gs, ∀ e ∈ g, e.1.length < 2 ^ 32
  fits : ∀ g ∈ gs, (blockBytes interval g).length < 2 ^ 32
  filter : ∀ g ∈ gs, ∀ e ∈ g, BloomFilter.mayContain t.bloom e.userKey = true

theorem mem_handles_fit (interval : Int) (gs : List (List Rec)) (off : Nat)
    (h : e ∈ handles interval off gs) :
    (∃ g ∈ gs, e.lastKey = lastKeyOf g) ∧
      e.offset + e.size ≤ off + (dataRegion interval gs).length := by
  induction gs generalizing off with
  | nil => cases h
  | cons g gs ih =>
    have hl : (withTrailer (blockBytes interval g)).length =
        (blockBytes interval g).length + 4 := by
      simp [withTrailer]
    have hr : (dataRegion interval (g :: gs)).length =
        (withTrailer (blockBytes interval g)).length + (dataRegion interval gs).length := by
      simp [dataRegion]
    rcases List.mem_cons.1 h with rfl | h
    · exact ⟨⟨g, List.mem_cons_self, rfl⟩, by simp only; omega⟩
    · obtain ⟨⟨x, hx, hk⟩, hle⟩ := ih _ h
      exact ⟨⟨x, List.mem_cons_of_mem g hx, hk⟩, by omega⟩

theorem length_lastKeyOf (h : ∀ e ∈ l, e.1.length < n) (hn : 0 < n) : (lastKeyOf l).length < n := by
  rw [lastKeyOf]
  cases hl : l.getLast? with
  | none => simpa using hn
  | some e => exact h e (List.mem_of_getLast? hl)

theorem mem_of_mem_cutBlocks (hg : g ∈ cutBlocks options [] es) (he : e ∈ g) : e ∈ es := by
  have hm : e ∈ (cutBlocks options [] es).flatten := List.mem_flatten.2 ⟨g, hg, he⟩
  rwa [flatten_cutBlocks] at hm

theorem blocks_of_layout (hfit : TableFits options es)
    (hf : t.file = dataRegion options.blockRestartInterval (cutBlocks options [] es) ++ post)
    (hlt : t.file.length < 2 ^ 63)
    (hi : t.index = handles options.blockRestartInterval 0 (cutBlocks options [] es))
    (hb : t.bloom = BloomFilter.build (es.map Rec.userKey) options.bloomBitsPerKey) :
    Blocks options.blockRestartInterval t (cutBlocks options [] es) where
  index := by
    rw [hi]
    have hf' : t.file = [] ++
        (dataRegion options.blockRestartInterval (cutBlocks options [] es) ++ post) := hf
    exact forall₂_handles options.blockRestartInterval _ hf' hlt
  offsets := hi ▸ handles_pairwise _ 0 _
  ne_nil := cutBlocks_ne_nil options [] es
  keys := fun g hg e he => hfit.keys e (mem_of_mem_cutBlocks hg he)
  fits := hfit.blocks
  filter := fun g hg e he => hb ▸
    BloomFilter.mayContain_build (List.mem_map_of_mem (mem_of_mem_cutBlocks hg he)) _

/-- A table that fits its fields opens, under any options, and serves the blocks it was cut
into. -/
theorem openFile_tableFile (path : String) (number : Nat) (opts : Options)
    (hfit : TableFits options es) :
    ∃ t, openFile path (tableFile options es) opts number = .ok t ∧
      t.file = tableFile options es ∧ t.number = number ∧
      Blocks options.blockRestartInterval t (cutBlocks options [] es) := by
  set gs := cutBlocks options [] es with hgs
  set region := dataRegion options.blockRestartInterval gs with hregion
  set bloom := BloomFilter.build (es.map Rec.userKey) options.bloomBitsPerKey with hbloom
  set index := encodeIndex (handles options.blockRestartInterval 0 gs) with hindex
  set foot := footer (region ++ withTrailer bloom).length index.length region.length bloom.length
    with hfoot
  have hfile : tableFile options es =
      region ++ (withTrailer bloom ++ (withTrailer index ++ foot)) := tableFile_eq options es
  have hflen : foot.length = 40 := by simp [hfoot, footer]
  have hlen : (tableFile options es).length =
      region.length + (bloom.length + 4 + (index.length + 4 + 40)) := by
    rw [hfile]
    simp only [List.length_append, withTrailer, length_putFixed32, hflen]
  have hfits := hfit.file
  have hsplit : (tableFile options es).drop ((tableFile options es).length - kFooterSize) =
      foot := by
    rw [hfile, ← List.append_assoc, ← List.append_assoc, List.drop_left']
    simp [hflen, kFooterSize]
    omega
  have hbl : (region ++ withTrailer bloom).length = region.length + (bloom.length + 4) := by
    simp [withTrailer]
  obtain ⟨hd8, hd16, hd24, hd32⟩ := drop_footer (region ++ withTrailer bloom).length index.length
    region.length bloom.length
  rw [← hfoot] at hd8 hd16 hd24 hd32
  have hd0 : decodeFixed64 foot = (region ++ withTrailer bloom).length % 2 ^ 64 := by
    rw [hfoot, footer, decodeFixed64_put]
  have hm0 : (region ++ withTrailer bloom).length % 2 ^ 64 = (region ++ withTrailer bloom).length :=
    Nat.mod_eq_of_lt (by omega)
  have hm1 : index.length % 2 ^ 64 = index.length := Nat.mod_eq_of_lt (by omega)
  have hm2 : region.length % 2 ^ 64 = region.length := Nat.mod_eq_of_lt (by omega)
  have hm3 : bloom.length % 2 ^ 64 = bloom.length := Nat.mod_eq_of_lt (by omega)
  let t₀ : Table := ⟨path, tableFile options es, number, opts.verifyChecksums, [], []⟩
  have hreadBloom : t₀.readFile ⟨[], region.length, bloom.length⟩ = .ok bloom :=
    readFile_of_append hfile hfits []
  have hreadIndex : t₀.readFile ⟨[], (region ++ withTrailer bloom).length, index.length⟩ =
      .ok index := by
    have hf : t₀.file = (region ++ withTrailer bloom) ++ (withTrailer index ++ foot) := by
      rw [List.append_assoc]
      exact hfile
    exact readFile_of_append hf hfits []
  have hparse : parseIndex path index.length index =
      .ok (handles options.blockRestartInterval 0 gs) := by
    refine parseIndex_encodeIndex path _ (fun e he => ?_) ?_
    · obtain ⟨⟨g, hg, hk⟩, hle⟩ := mem_handles_fit _ gs 0 he
      rw [← hregion] at hle
      refine ⟨?_, by omega, by omega⟩
      rw [hk]
      exact length_lastKeyOf (fun x hx => hfit.keys x (mem_of_mem_cutBlocks hg hx)) (by norm_num)
    · rw [hindex, encodeIndex, List.length_flatMap]
      refine le_trans (le_of_eq ?_) (List.card_nsmul_le_sum _ 1 ?_)
      · simp
      · intro x hx
        obtain ⟨e, _, rfl⟩ := List.mem_map.1 hx
        simp [encodeHandle]
  refine ⟨⟨path, tableFile options es, number, opts.verifyChecksums,
    handles options.blockRestartInterval 0 gs, bloom⟩, ?_, rfl, rfl,
    blocks_of_layout hfit hfile hfits rfl rfl⟩
  have hfar : ¬ (tableFile options es).length < kFooterSize := by rw [hlen, kFooterSize]; omega
  have hpast : ¬ ((tableFile options es).length <
      ((region ++ withTrailer bloom).length + index.length + kBlockTrailerSize) % 2 ^ 64 ∨
      (tableFile options es).length <
        (region.length + bloom.length + kBlockTrailerSize) % 2 ^ 64) := by
    simp only [kBlockTrailerSize]
    rw [Nat.mod_eq_of_lt (by omega), Nat.mod_eq_of_lt (by omega)]
    omega
  have hmagic : kTableMagic % 2 ^ 64 = kTableMagic := by decide
  simp only [openFile, hfar, if_false, hsplit, hd0, hd8, hd16, hd24, hd32, decodeFixed64_put,
    hmagic, hm0, hm1, hm2, hm3, ne_eq, not_true_eq_false, hpast]
  rw [hreadBloom, hreadIndex]
  simp only [hparse]
end Table

end LsmKv
