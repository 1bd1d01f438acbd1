import LsmKv.BlockCursor
import LsmKv.Varint

namespace LsmKv
set_option autoImplicit true

namespace BlockReader

/-! The reader with every access checked: `none` is a read outside the contents, a key too short
to compare, or a loop that does not end. -/

def restartOffset? (r : BlockReader) (index : Nat) : Option Nat :=
  (slice r.contents (r.entriesSize + index * 4) 4).map decodeFixed32

def new? (contents : Bytes) : Option BlockReader :=
  let r := new contents
  if (List.range r.numRestarts).all fun i => (r.restartOffset? i).isSome then some r else none

def parseEntryAt? (r : BlockReader) (offset : Nat) : Option BlockReader :=
  if r.entriesSize ≤ offset then some { r with valid := false }
  else do
    let region ← slice r.contents offset (r.entriesSize - offset)
    match parseLengths region with
    | none => some { r with status := .corruption "truncated data block entry", valid := false }
    | some (shared, nonShared, valueLen, p) =>
      if p.length < (nonShared + valueLen) % 2 ^ 32 then
        some { r with status := .corruption "truncated data block entry", valid := false }
      else if r.key.length < shared then
        some { r with
          status := .corruption "data block entry shares more than it can", valid := false }
      else do
        let start := r.entriesSize - p.length
        let suffix ← slice r.contents start nonShared
        let value ← slice r.contents (start + nonShared) valueLen
        some { r with
          key := r.key.take shared ++ suffix
          value := value
          current := offset
          next := (start + nonShared + valueLen) % 2 ^ 32
          valid := true }

def seekToRestart? (r : BlockReader) (index : Nat) : Option BlockReader := do
  let offset ← r.restartOffset? index
  { r with key := [] }.parseEntryAt? offset

def seekToFirst? (r : BlockReader) : Option BlockReader :=
  if r.rejected then some r else r.seekToRestart? 0

def advance? (r : BlockReader) : Option BlockReader :=
  if r.valid then r.parseEntryAt? r.next else some r

def searchRestarts? (r : BlockReader) (target : Bytes) (left right : Nat) :
    Option (BlockReader × Option Nat) :=
  if left < right then do
    let mid := left + (right - left + 1) / 2
    let r ← r.seekToRestart? mid
    if r.valid then do
      let c ← compareInternalKey? r.key target
      if c = .lt then r.searchRestarts? target mid right
      else r.searchRestarts? target left (mid - 1)
    else some ({ r with valid := false }, none)
  else some (r, some left)
termination_by right - left

def walkTo? (target : Bytes) : Nat → BlockReader → Option BlockReader
  | 0, _ => none
  | fuel + 1, r =>
    if r.valid then do
      let c ← compareInternalKey? r.key target
      if c = .lt then do
        let r ← r.advance?
        walkTo? target fuel r
      else some r
    else some r

def seek? (r : BlockReader) (target : Bytes) : Option BlockReader :=
  if r.rejected then some r
  else do
    match ← r.searchRestarts? target 0 (r.numRestarts - 1) with
    | (r, none) => some r
    | (r, some left) =>
      let r ← r.seekToRestart? left
      walkTo? target (r.entriesSize + 1) r

def call? (r : BlockReader) : CursorCall → Option BlockReader
  | .seekToFirst => r.seekToFirst?
  | .seek target => r.seek? target
  | .next => r.advance?

def calls? (r : BlockReader) : List CursorCall → Option BlockReader
  | [] => some r
  | c :: cs => do
    let r ← r.call? c
    r.calls? cs

/-- `ParseEntryAt` takes the lengths it reads at `offset` when the key before them is `last`. -/
structure Accepts (r : BlockReader) (offset : Nat) (last : Bytes)
    (shared nonShared valueLen : Nat) (p : Bytes) : Prop where
  inside : offset < r.entriesSize
  lengths : parseLengths (r.region offset) = some (shared, nonShared, valueLen, p)
  fits : (nonShared + valueLen) % 2 ^ 32 ≤ p.length
  prior : shared ≤ last.length

/-- The entries met on the way forward from the restart points: where each begins, with the key
before it. -/
inductive Meets (r : BlockReader) : Nat → Bytes → Prop where
  | restart (h : i < r.numRestarts) : Meets r (r.restartOffset i) []
  | next {last p : Bytes} (h : Meets r offset last)
      (ha : r.Accepts offset last shared nonShared valueLen p) :
      Meets r ((r.entriesSize - p.length + nonShared + valueLen) % 2 ^ 32)
        (last.take shared ++ p.take nonShared)

/-- No entry that decoding forward from a restart point meets has lengths whose sum wraps around. -/
def Unwrapped (contents : Bytes) : Prop :=
  ∀ offset last shared nonShared valueLen p, Meets (new contents) offset last →
    (new contents).Accepts offset last shared nonShared valueLen p → nonShared + valueLen < 2 ^ 32

/-- The restart points that the binary search of `Seek` is down to. -/
inductive Narrows (r : BlockReader) (target : Bytes) : Nat → Nat → Prop where
  | start : Narrows r target 0 (r.numRestarts - 1)
  | right {p : Bytes} (h : Narrows r target left right) (hlt : left < right)
      (ha : r.Accepts (r.restartOffset (left + (right - left + 1) / 2)) [] shared nonShared
        valueLen p)
      (hc : compareInternalKey (p.take nonShared) target = .lt) :
      Narrows r target (left + (right - left + 1) / 2) right
  | left {p : Bytes} (h : Narrows r target left right) (hlt : left < right)
      (ha : r.Accepts (r.restartOffset (left + (right - left + 1) / 2)) [] shared nonShared
        valueLen p)
      (hc : compareInternalKey (p.take nonShared) target ≠ .lt) :
      Narrows r target left (left + (right - left + 1) / 2 - 1)

/-- The entries whose keys `Seek` compares: those it probes, and from the restart point it is left
with all up to the first that is not before the target. -/
inductive Compares (r : BlockReader) (target : Bytes) : Nat → Bytes → Bool → Prop where
  | probe (h : Narrows r target left right) (hlt : left < right) :
      Compares r target (r.restartOffset (left + (right - left + 1) / 2)) [] false
  | first (h : Narrows r target left left) : Compares r target (r.restartOffset left) [] true
  | next {last p : Bytes} (h : Compares r target offset last true)
      (ha : r.Accepts offset last shared nonShared valueLen p)
      (hc : compareInternalKey (last.take shared ++ p.take nonShared) target = .lt) :
      Compares r target ((r.entriesSize - p.length + nonShared + valueLen) % 2 ^ 32)
        (last.take shared ++ p.take nonShared) true

/-- Every key that `Seek` compares can hold a tag, and so can its target. -/
def Tagged (contents target : Bytes) : Prop :=
  kTagSize ≤ target.length ∧ ∀ offset last walking shared nonShared valueLen p,
    Compares (new contents) target offset last walking →
      (new contents).Accepts offset last shared nonShared valueLen p →
        kTagSize ≤ shared + nonShared

variable {c : Bytes} {r r₀ : BlockReader}

theorem parseLengths_suffix {p rest : Bytes}
    (h : parseLengths p = some (shared, nonShared, valueLen, rest)) :
    rest <:+ p ∧ rest.length < p.length := by
  rw [parseLengths] at h
  split at h
  · cases h
  · rename_i p₁ h₁
    split at h
    · cases h
    · rename_i p₂ h₂
      split at h
      · cases h
      · rename_i p₃ h₃
        cases h
        obtain ⟨hs₁, hl₁⟩ := getVarint32Loop_suffix h₁
        obtain ⟨hs₂, hl₂⟩ := getVarint32Loop_suffix h₂
        obtain ⟨hs₃, hl₃⟩ := getVarint32Loop_suffix h₃
        exact ⟨(hs₃.trans hs₂).trans hs₁, by omega⟩

/-- What no call changes. -/
structure Same (r₀ r : BlockReader) : Prop where
  contents : r.contents = r₀.contents
  rejected : r.rejected = r₀.rejected
  entriesSize : r.entriesSize = r₀.entriesSize
  numRestarts : r.numRestarts = r₀.numRestarts

/-- The cursor stands on an entry inside the entry region: the key suffix at `[a, b)`, the value
at `[b, next)`. -/
structure Spans (r : BlockReader) (a b : Nat) : Prop where
  current : r.current < a
  suffix : a ≤ b
  value : b ≤ r.next
  next : r.next ≤ r.entriesSize
  key_eq : ∃ l : Bytes, r.key = l ++ (r.contents.drop a).take (b - a)
  value_eq : r.value = (r.contents.drop b).take (r.next - b)

/-- What holds of the reader between two calls. -/
structure Inside (r₀ r : BlockReader) : Prop where
  same : Same r₀ r
  status : r.status = .ok ∨ ∃ m, r.status = .corruption m
  meets : r.valid = true → Meets r₀ r.next r.key
  spans : r.valid = true → ∃ a b, r.Spans a b

/-- The cursor stands on the entry at `offset`, decoded behind the key `last`. -/
structure StandsAt (r₀ r : BlockReader) (offset : Nat) (last : Bytes) : Prop where
  current : r.current = offset
  entry : ∃ shared nonShared valueLen p, r₀.Accepts offset last shared nonShared valueLen p ∧
    r.key = last.take shared ++ p.take nonShared ∧ r.key.length = shared + nonShared ∧
    r.next = (r₀.entriesSize - p.length + nonShared + valueLen) % 2 ^ 32

theorem StandsAt.length (h : StandsAt (new c) r offset last) (hT : Tagged c target)
    (hc : Compares (new c) target offset last walking) : kTagSize ≤ r.key.length := by
  obtain ⟨shared, nonShared, valueLen, p, ha, -, hlen, -⟩ := h.entry
  exact hlen ▸ hT.2 _ _ _ _ _ _ _ hc ha

theorem StandsAt.compares (h : StandsAt r₀ r offset last) (hc : Compares r₀ target offset last true)
    (hlt : compareInternalKey r.key target = .lt) : Compares r₀ target r.next r.key true := by
  obtain ⟨shared, nonShared, valueLen, p, ha, hkey, -, hnext⟩ := h.entry
  rw [hkey] at hlt
  rw [hkey, hnext]
  exact hc.next ha hlt

theorem StandsAt.meets (h : StandsAt r₀ r offset last) (hm : Meets r₀ offset last) :
    Meets r₀ r.next r.key := by
  obtain ⟨shared, nonShared, valueLen, p, ha, hkey, -, hnext⟩ := h.entry
  rw [hkey, hnext]
  exact hm.next ha

/-- The trailer of a block that was not rejected. -/
structure Framed (r : BlockReader) : Prop where
  length : r.entriesSize + (r.numRestarts + 1) * 4 = r.contents.length
  restarts : 0 < r.numRestarts
  small : r.contents.length < 2 ^ 32

theorem Same.refl (r : BlockReader) : Same r r := ⟨rfl, rfl, rfl, rfl⟩

theorem Same.region (h : Same r₀ r) (offset : Nat) : r.region offset = r₀.region offset := by
  rw [BlockReader.region, BlockReader.region, h.contents, h.entriesSize]

theorem Same.framed (h : Same r₀ r) (hf : r₀.Framed) : r.Framed :=
  ⟨by rw [h.entriesSize, h.numRestarts, h.contents]; exact hf.length,
    by rw [h.numRestarts]; exact hf.restarts, by rw [h.contents]; exact hf.small⟩

theorem Framed.restartOffset? (h : r.Framed) (hi : i < r.numRestarts) :
    r.restartOffset? i = some (r.restartOffset i) := by
  have hlen := h.length
  rw [BlockReader.restartOffset?, slice_eq (by omega), Option.map_some, restartOffset,
    decodeFixed32, decodeFixed32, List.take_take]
  rfl

theorem Framed.slice_region (h : r.Framed) (ho : offset ≤ r.entriesSize) :
    slice r.contents offset (r.entriesSize - offset) = some (r.region offset) := by
  have hlen := h.length
  rw [slice_eq (by omega), region, List.drop_take]

theorem Framed.suffix_eq (h : r.Framed) {p : Bytes} (hp : p <:+ r.region offset) :
    p = (r.contents.take r.entriesSize).drop (r.entriesSize - p.length) := by
  have hlen := h.length
  have hs : p <:+ r.contents.take r.entriesSize := hp.trans (List.drop_suffix _ _)
  have he := List.suffix_iff_eq_drop.1 hs
  rwa [List.length_take, Nat.min_eq_left (by omega)] at he

theorem take_drop_take (l : Bytes) (h : a + n ≤ m) :
    ((l.take m).drop a).take n = (l.drop a).take n := by
  rw [List.drop_take, List.take_take, Nat.min_eq_left (by omega)]

/-- Decoding an entry that a restart point leads to reads only the contents. -/
theorem Same.parse (hW : Unwrapped c) (hf : (new c).Framed) (h : Same (new c) r)
    (hst : r.status = .ok ∨ ∃ m, r.status = .corruption m)
    (hm : Meets (new c) offset r.key) :
    r.parseEntryAt? offset = some (r.parseEntryAt offset) ∧
      Inside (new c) (r.parseEntryAt offset) ∧
      ((r.parseEntryAt offset).valid = true →
        StandsAt (new c) (r.parseEntryAt offset) offset r.key) := by
  have hfr := h.framed hf
  have hinvalid : ∀ st, (st = .ok ∨ ∃ m, st = .corruption m) →
      Inside (new c) { r with status := st, valid := false } := by
    intro st hst
    exact ⟨⟨h.contents, h.rejected, h.entriesSize, h.numRestarts⟩, hst, fun hv => (by cases hv),
      fun hv => (by cases hv)⟩
  rw [parseEntryAt?, parseEntryAt]
  by_cases ho : r.entriesSize ≤ offset
  · rw [if_pos ho, if_pos ho]
    exact ⟨rfl, hinvalid r.status hst, fun hv => (by cases hv)⟩
  · rw [if_neg ho, if_neg ho, hfr.slice_region (by omega), Option.bind_eq_bind, Option.bind_some]
    cases hl : parseLengths (r.region offset) with
    | none => exact ⟨rfl, hinvalid _ (.inr ⟨_, rfl⟩), fun hv => (by cases hv)⟩
    | some x =>
      obtain ⟨shared, nonShared, valueLen, p⟩ := x
      dsimp only
      by_cases hlt : p.length < (nonShared + valueLen) % 2 ^ 32
      · rw [if_pos hlt, if_pos hlt]
        exact ⟨rfl, hinvalid _ (.inr ⟨_, rfl⟩), fun hv => (by cases hv)⟩
      rw [if_neg hlt, if_neg hlt]
      by_cases hk : r.key.length < shared
      · rw [if_pos hk, if_pos hk]
        exact ⟨rfl, hinvalid _ (.inr ⟨_, rfl⟩), fun hv => (by cases hv)⟩
      rw [if_neg hk, if_neg hk]
      have ha : (new c).Accepts offset r.key shared nonShared valueLen p :=
        ⟨by rw [← h.entriesSize]; omega, by rw [← h.region]; exact hl, not_lt.1 hlt, not_lt.1 hk⟩
      have hwrap := hW _ _ _ _ _ _ hm ha
      rw [Nat.mod_eq_of_lt hwrap] at hlt
      obtain ⟨hsuf, hshort⟩ := parseLengths_suffix hl
      have hlen := hfr.length
      have hsmall := hfr.small
      have hreg : (r.region offset).length = r.entriesSize - offset := by
        rw [BlockReader.region, List.length_drop, List.length_take, Nat.min_eq_left (by omega)]
      -- the three parts of the entry, as ranges of the contents
      have hp := hfr.suffix_eq hsuf
      set start := r.entriesSize - p.length with hstart
      have hkey : p.take nonShared = (r.contents.drop start).take nonShared := by
        conv_lhs => rw [hp]
        exact take_drop_take _ (by omega)
      have hval : (p.drop nonShared).take valueLen =
          (r.contents.drop (start + nonShared)).take valueLen := by
        conv_lhs => rw [hp, List.drop_drop]
        exact take_drop_take _ (by omega)
      have hnext : (start + nonShared + valueLen) % 2 ^ 32 = start + nonShared + valueLen :=
        Nat.mod_eq_of_lt (by omega)
      rw [slice_eq (by omega), slice_eq (by omega)]
      have hlength : (r.key.take shared ++ p.take nonShared).length = shared + nonShared := by
        rw [List.length_append, List.length_take, List.length_take, Nat.min_eq_left (by omega),
          Nat.min_eq_left (by omega)]
      refine ⟨by rw [hkey, hval]; rfl, ?_, fun _ => ⟨rfl, _, _, _, _, ha, rfl, hlength, ?_⟩⟩
      · refine ⟨⟨h.contents, h.rejected, h.entriesSize, h.numRestarts⟩, hst, fun _ => ?_,
          fun _ => ⟨start, start + nonShared, ?_⟩⟩
        · have hmn := Meets.next hm ha
          rwa [← h.entriesSize] at hmn
        refine ⟨?_, by omega, ?_, ?_, ⟨r.key.take shared, ?_⟩, ?_⟩
        · show offset < start
          omega
        · show start + nonShared ≤ (start + nonShared + valueLen) % 2 ^ 32
          omega
        · show (start + nonShared + valueLen) % 2 ^ 32 ≤ r.entriesSize
          omega
        · show r.key.take shared ++ p.take nonShared = _
          rw [hkey, Nat.add_sub_cancel_left]
        · show (p.drop nonShared).take valueLen =
            (r.contents.drop (start + nonShared)).take
              ((start + nonShared + valueLen) % 2 ^ 32 - (start + nonShared))
          rw [hval, hnext, Nat.add_sub_cancel_left]
      · show (start + nonShared + valueLen) % 2 ^ 32 = _
        rw [hstart, h.entriesSize]

theorem Same.seekToRestart (hW : Unwrapped c) (hf : (new c).Framed) (h : Same (new c) r)
    (hst : r.status = .ok ∨ ∃ m, r.status = .corruption m) (hi : i < (new c).numRestarts) :
    r.seekToRestart? i = some (r.seekToRestart i) ∧ Inside (new c) (r.seekToRestart i) ∧
      ((r.seekToRestart i).valid = true →
        StandsAt (new c) (r.seekToRestart i) ((new c).restartOffset i) []) := by
  have hoff : r.restartOffset i = (new c).restartOffset i := by
    rw [restartOffset, restartOffset, h.contents, h.entriesSize]
  have hm : Meets (new c) (r.restartOffset i) [] := hoff ▸ .restart hi
  have hsame : Same (new c) { r with key := [] } :=
    ⟨h.contents, h.rejected, h.entriesSize, h.numRestarts⟩
  obtain ⟨hp, hin, hat⟩ := hsame.parse hW hf hst hm
  rw [seekToRestart?, (h.framed hf).restartOffset? (by rw [h.numRestarts]; exact hi)]
  exact ⟨hp, hin, hoff ▸ hat⟩

theorem Inside.advance (hW : Unwrapped c) (hf : (new c).Framed) (h : Inside (new c) r) :
    r.advance? = some r.advance ∧ Inside (new c) r.advance ∧ (r.advance.valid = true →
      r.current < r.advance.current ∧ StandsAt (new c) r.advance r.next r.key) := by
  rw [advance?, BlockReader.advance]
  cases hv : r.valid with
  | false => exact ⟨rfl, h, fun hv' => absurd (hv.symm.trans hv') (by simp)⟩
  | true =>
    obtain ⟨hp, hin, hat⟩ := h.same.parse hW hf h.status (h.meets hv)
    obtain ⟨a, b, hs⟩ := h.spans hv
    have h1 := hs.current
    have h2 := hs.suffix
    have h3 := hs.value
    refine ⟨hp, hin, fun hv' => ?_⟩
    rw [if_pos rfl, (hat hv').current]
    exact ⟨by omega, hat hv'⟩

theorem Inside.searchRestarts (hW : Unwrapped c) (hf : (new c).Framed) (h : Inside (new c) r)
    (hT : Tagged c target) (hlr : left ≤ right) (hr : right < (new c).numRestarts)
    (hn : Narrows (new c) target left right) :
    r.searchRestarts? target left right = some (r.searchRestarts target left right) ∧
      Inside (new c) (r.searchRestarts target left right).1 ∧
      ∀ l, (r.searchRestarts target left right).2 = some l →
        l < (new c).numRestarts ∧ Narrows (new c) target l l := by
  induction hd : right - left using Nat.strong_induction_on generalizing r left right with
  | _ d ih =>
    rw [searchRestarts?, BlockReader.searchRestarts]
    by_cases hlt : left < right
    · rw [if_pos hlt, if_pos hlt]
      set mid := left + (right - left + 1) / 2 with hmid
      obtain ⟨hp, hin, hat⟩ := h.same.seekToRestart hW hf h.status (show mid < _ by omega)
      simp only [hp, Option.bind_eq_bind, Option.bind_some]
      cases hv : (r.seekToRestart mid).valid with
      | false =>
        simp only [Bool.false_eq_true, if_false]
        refine ⟨trivial, ?_, fun l hl => (by cases hl)⟩
        rw [← hv]
        exact hin
      | true =>
        have hlen := (hat hv).length hT (.probe hn hlt)
        obtain ⟨shared, nonShared, valueLen, p, ha, hkey, -, -⟩ := (hat hv).entry
        rw [List.take_nil, List.nil_append] at hkey
        simp only [if_true, compareInternalKey?_eq hlen hT.1, Option.bind_some]
        split
        · rename_i hc
          exact ih _ (by omega) hin (by omega) hr (hn.right hlt ha (hkey ▸ hc)) rfl
        · rename_i hc
          exact ih _ (by omega) hin (by omega) (by omega) (hn.left hlt ha (hkey ▸ hc)) rfl
    · rw [if_neg hlt, if_neg hlt]
      refine ⟨rfl, h, ?_⟩
      rintro l ⟨⟩
      obtain rfl : left = right := by omega
      exact ⟨hr, hn⟩

/-- The offsets grow along the walk, so it ends within the entry region. -/
theorem Inside.walkTo (hW : Unwrapped c) (hf : (new c).Framed) (h : Inside (new c) r)
    (hT : Tagged c target) (hfuel : r.valid = true → r.entriesSize ≤ r.current + fuel)
    (hat : r.valid = true → ∃ offset last, StandsAt (new c) r offset last ∧
      Compares (new c) target offset last true) :
    walkTo? target (fuel + 1) r = some (walkTo target fuel r) ∧
      Inside (new c) (walkTo target fuel r) := by
  induction fuel generalizing r with
  | zero =>
    have hv : r.valid = false := by
      cases hv : r.valid with
      | false => rfl
      | true =>
        obtain ⟨a, b, hs⟩ := h.spans hv
        have h1 := hs.current
        have h2 := hs.suffix
        have h3 := hs.value
        have h4 := hs.next
        have h5 := hfuel hv
        omega
    rw [walkTo?, BlockReader.walkTo, hv, if_neg (by simp)]
    exact ⟨rfl, h⟩
  | succ fuel ih =>
    rw [walkTo?, BlockReader.walkTo]
    cases hv : r.valid with
    | false =>
      simp only [Bool.false_eq_true, if_false, false_and]
      exact ⟨trivial, h⟩
    | true =>
      obtain ⟨offset, last, hst, hcmp⟩ := hat hv
      simp only [if_true, true_and, compareInternalKey?_eq (hst.length hT hcmp) hT.1,
        Option.bind_eq_bind, Option.bind_some]
      split
      · rename_i hlt
        obtain ⟨ha, hin, hc⟩ := h.advance hW hf
        rw [ha, Option.bind_some]
        have hsize : r.advance.entriesSize = r.entriesSize := by
          rw [hin.same.entriesSize, h.same.entriesSize]
        refine ih hin (fun hv' => ?_) fun hv' => ⟨_, _, (hc hv').2, hst.compares hcmp hlt⟩
        have h1 := (hc hv').1
        have h2 := hfuel hv
        omega
      · exact ⟨rfl, h⟩

theorem Inside.seek (hW : Unwrapped c) (hf : (new c).Framed) (h : Inside (new c) r)
    (hT : Tagged c target) :
    r.seek? target = some (r.seek target) ∧ Inside (new c) (r.seek target) := by
  rw [seek?, BlockReader.seek]
  cases hrej : r.rejected with
  | true => exact ⟨rfl, h⟩
  | false =>
    have hpos := hf.restarts
    have hnum := h.same.numRestarts
    obtain ⟨hsearch, hin, hleft⟩ := h.searchRestarts hW hf hT (Nat.zero_le (r.numRestarts - 1))
      (by omega) (hnum ▸ .start)
    simp only [Bool.false_eq_true, if_false, hsearch, Option.bind_eq_bind, Option.bind_some]
    generalize r.searchRestarts target 0 (r.numRestarts - 1) = x at hin hleft
    obtain ⟨r₁, o⟩ := x
    cases o with
    | none => exact ⟨rfl, hin⟩
    | some left =>
      obtain ⟨hlt, hn⟩ := hleft left rfl
      obtain ⟨hp, hin', hat⟩ := hin.same.seekToRestart hW hf hin.status hlt
      have hsize : (r₁.seekToRestart left).entriesSize = r₁.entriesSize := by
        rw [hin'.same.entriesSize, hin.same.entriesSize]
      simp only [hp, Option.bind_some]
      rw [← hsize]
      exact hin'.walkTo hW hf hT (fun _ => by omega) fun hv => ⟨_, _, hat hv, .first hn⟩

theorem Inside.call (hW : Unwrapped c) (hf : (new c).Framed) (h : Inside (new c) r)
    (a : CursorCall) (hT : ∀ target, a = .seek target → Tagged c target) :
    r.call? a = some (r.call a) ∧ Inside (new c) (r.call a) := by
  cases a with
  | seekToFirst =>
    rw [call?, BlockReader.call, seekToFirst?, seekToFirst]
    cases hrej : r.rejected with
    | true => exact ⟨rfl, h⟩
    | false =>
      obtain ⟨hs, hin, -⟩ := h.same.seekToRestart hW hf h.status hf.restarts
      exact ⟨hs, hin⟩
  | seek target => exact h.seek hW hf (hT target rfl)
  | next =>
    obtain ⟨ha, hin, -⟩ := h.advance hW hf
    exact ⟨ha, hin⟩

theorem Inside.calls (hW : Unwrapped c) (hf : (new c).Framed) (h : Inside (new c) r)
    (as : List CursorCall) (hT : ∀ target, .seek target ∈ as → Tagged c target) :
    r.calls? as = some (r.calls as) ∧ Inside (new c) (r.calls as) := by
  induction as generalizing r with
  | nil => exact ⟨rfl, h⟩
  | cons a as ih =>
    obtain ⟨hcall, hin⟩ := h.call hW hf a fun target he => hT target (he ▸ List.mem_cons_self)
    rw [calls?, hcall]
    exact ih hin fun target hm => hT target (List.mem_cons_of_mem a hm)

theorem Inside.advances_end (hW : Unwrapped c) (hf : (new c).Framed) (h : Inside (new c) r) :
    ∃ n, (BlockReader.advance^[n] r).valid = false := by
  induction hn : r.entriesSize - r.current using Nat.strong_induction_on generalizing r with
  | _ n ih =>
    cases hv : r.valid with
    | false => exact ⟨0, hv⟩
    | true =>
      obtain ⟨a, b, hs⟩ := h.spans hv
      have h1 := hs.current
      have h2 := hs.suffix
      have h3 := hs.value
      have h4 := hs.next
      obtain ⟨-, hin, hc⟩ := h.advance hW hf
      cases hv' : r.advance.valid with
      | false => exact ⟨1, hv'⟩
      | true =>
        have h5 := (hc hv').1
        have hsize : r.advance.entriesSize = r.entriesSize := by
          rw [hin.same.entriesSize, h.same.entriesSize]
        obtain ⟨k, hk⟩ := ih _ (by omega) hin rfl
        exact ⟨k + 1, by rwa [Function.iterate_succ_apply]⟩

theorem framed_new (hlen : c.length < 2 ^ 32) (h : (new c).rejected = false) : (new c).Framed := by
  rw [new] at h ⊢
  split
  · rename_i hs
    rw [if_pos hs] at h
    cases h
  · rename_i hs
    rw [if_neg hs] at h
    dsimp only at h ⊢
    split
    · rename_i hn
      rw [if_pos hn] at h
      cases h
    · rename_i hn
      rw [if_neg hn] at h
      rw [not_or, not_lt] at hn
      split
      · rename_i ha
        rw [if_pos ha] at h
        cases h
      · refine ⟨?_, Nat.pos_of_ne_zero hn.1, hlen⟩
        dsimp only
        rw [Nat.mod_eq_of_lt (by omega)]
        omega

theorem status_new (c : Bytes) : (new c).status = .ok ∨ ∃ m, (new c).status = .corruption m := by
  simp only [new]
  split
  · exact .inr ⟨_, rfl⟩
  · split
    · exact .inr ⟨_, rfl⟩
    · split
      · exact .inr ⟨_, rfl⟩
      · exact .inl rfl

theorem inside_new (c : Bytes) : Inside (new c) (new c) :=
  ⟨.refl _, status_new c, fun hv => absurd ((valid_new c).symm.trans hv) (by simp),
    fun hv => absurd ((valid_new c).symm.trans hv) (by simp)⟩

/-- The constructor reads the restart array inside the block. -/
theorem new?_eq (hlen : c.length < 2 ^ 32) : new? c = some (new c) := by
  rw [new?, if_pos]
  rw [List.all_eq_true]
  intro i hi
  rw [List.mem_range] at hi
  have hin : (new c).entriesSize + i * 4 + 4 ≤ (new c).contents.length := by
    revert hi
    simp only [new]
    split
    · intro hi
      cases hi
    · split
      · intro hi
        cases hi
      · rename_i hn
        rw [not_or, not_lt] at hn
        split
        all_goals
          intro hi
          dsimp only at hi ⊢
          rw [Nat.mod_eq_of_lt (by omega)]
          omega
  rw [restartOffset?, slice_eq hin]
  rfl

theorem calls_rejected (h : r.rejected = true) (hv : r.valid = false) (as : List CursorCall) :
    r.calls? as = some r ∧ r.calls as = r := by
  induction as with
  | nil => exact ⟨rfl, rfl⟩
  | cons a as ih =>
    have hcall : r.call? a = some r ∧ r.call a = r := by
      cases a with
      | seekToFirst => simp [call?, call, seekToFirst?, seekToFirst, h]
      | seek target => simp [call?, call, seek?, seek, h]
      | next => simp [call?, call, advance?, advance, hv]
    rw [calls?, hcall.1]
    refine ⟨ih.1, ?_⟩
    show (r.call a).calls as = r
    rw [hcall.2]
    exact ih.2

/-- On a block without wrapping lengths no call leaves the contents or fails to return, a `Seek` for
which the keys are `Tagged` compares none that is too short, and every cursor position is inside the
entry region. -/
theorem reads_inside (hlen : c.length < 2 ^ 32) (hW : Unwrapped c) (as : List CursorCall)
    (hT : ∀ target, .seek target ∈ as → Tagged c target) :
    new? c = some (new c) ∧ (new c).calls? as = some ((new c).calls as) ∧
      let r := (new c).calls as
      (r.valid = true → ∃ a b, r.Spans a b) ∧
        (∃ n, (BlockReader.advance^[n] r).valid = false) ∧
        (r.status = .ok ∨ ∃ m, r.status = .corruption m) := by
  refine ⟨new?_eq hlen, ?_⟩
  cases hrej : (new c).rejected with
  | true =>
    have hv := valid_new c
    obtain ⟨hs, he⟩ := calls_rejected hrej hv as
    rw [hs, he]
    exact ⟨rfl, fun hv' => absurd (hv.symm.trans hv') (by simp), ⟨0, hv⟩, status_new c⟩
  | false =>
    have hf := framed_new hlen hrej
    obtain ⟨hs, hin⟩ := (inside_new c).calls hW hf as hT
    exact ⟨hs, hin.spans, hin.advances_end hW hf, hin.status⟩

/-- One entry whose lengths `2 ^ 32 - 1` and `1` add up to zero: the key is read past the end. -/
theorem reads_outside_wrapped : (new? [0, 255, 255, 255, 255, 15, 1, 0, 0, 0, 0, 1, 0, 0, 0]).bind
    (·.calls? [.seekToFirst]) = none := by decide

/-- The lengths of the entry at `offset`, if they are taken. -/
def accepted (r : BlockReader) (offset : Nat) (last : Bytes) : Option (Nat × Nat × Nat × Bytes) :=
  (parseLengths (r.region offset)).filter fun x =>
    offset < r.entriesSize ∧ (x.2.1 + x.2.2.1) % 2 ^ 32 ≤ x.2.2.2.length ∧ x.1 ≤ last.length

theorem Accepts.accepted (h : r.Accepts offset last shared nonShared valueLen p) :
    r.accepted offset last = some (shared, nonShared, valueLen, p) := by
  rw [BlockReader.accepted, h.lengths, Option.filter_some, if_pos]
  exact decide_eq_true ⟨h.inside, h.fits, h.prior⟩

/-- `places` has the restart points and with each entry the next one, and none of them has lengths
that wrap around or a key that is too short. -/
def Covered (r : BlockReader) (places : List (Nat × Bytes)) : Prop :=
  (∀ i < r.numRestarts, (r.restartOffset i, []) ∈ places) ∧
    ∀ x ∈ places, ∀ y ∈ r.accepted x.1 x.2,
      ((r.entriesSize - y.2.2.2.length + y.2.1 + y.2.2.1) % 2 ^ 32,
        x.2.take y.1 ++ y.2.2.2.take y.2.1) ∈ places ∧
      y.2.1 + y.2.2.1 < 2 ^ 32 ∧ kTagSize ≤ y.1 + y.2.1

theorem Meets.mem_of_covered (h : Meets r offset last) (hc : r.Covered places) :
    (offset, last) ∈ places := by
  induction h with
  | restart hi => exact hc.1 _ hi
  | next _ ha ih => exact (hc.2 _ ih _ ha.accepted).1

theorem Narrows.lt (h : Narrows r target a b) (hpos : 0 < r.numRestarts) :
    a ≤ b ∧ b < r.numRestarts := by
  induction h with
  | start => omega
  | right _ hlt => omega
  | left _ hlt => omega

theorem Compares.meets (h : Compares r target offset last walking) (hpos : 0 < r.numRestarts) :
    Meets r offset last := by
  induction h with
  | probe h hlt =>
    have := h.lt hpos
    exact .restart (by omega)
  | first h => exact .restart (h.lt hpos).2
  | next _ ha _ ih => exact ih.next ha

theorem Covered.unwrapped (h : (new c).Covered places) : Unwrapped c :=
  fun _ _ _ _ _ _ hm ha => (h.2 _ (hm.mem_of_covered h) _ ha.accepted).2.1

theorem Covered.tagged (h : (new c).Covered places) (hpos : 0 < (new c).numRestarts)
    (ht : kTagSize ≤ target.length) : Tagged c target :=
  ⟨ht, fun _ _ _ _ _ _ _ hm ha => (h.2 _ ((hm.meets hpos).mem_of_covered h) _ ha.accepted).2.2⟩

/-- Two entries behind one restart point, the second with a shared prefix, and
one behind another. -/
def threeEntries : Bytes :=
  blockBytes 2 [Rec.encode [97] 3 .kValue [99], Rec.encode [97] 1 .kValue [98],
    Rec.encode [98] 2 .kDeletion []]

theorem covered_threeEntries : (new threeEntries).Covered
    [(0, []), (24, []), (13, encodeInternalKey [97] 3 .kValue),
      (24, encodeInternalKey [97] 1 .kValue), (36, encodeInternalKey [98] 2 .kDeletion)] :=
  ⟨by decide +kernel, by decide +kernel⟩

/-- `Seek` for a version between the second and the third entry probes the third, and walks to it
from the first. -/
theorem reads_inside_threeEntries :
    let calls : List CursorCall :=
      [.seekToFirst, .next, .seek (encodeInternalKey [97] 0 .kValue), .next]
    (new threeEntries).calls? calls = some ((new threeEntries).calls calls) ∧
      ((new threeEntries).calls calls.dropLast).key = encodeInternalKey [98] 2 .kDeletion ∧
      ((new threeEntries).calls calls).valid = false := by
  intro calls
  have hc := covered_threeEntries
  have h := reads_inside (by decide +kernel) hc.unwrapped calls fun target ht =>
    hc.tagged (by decide +kernel) (by
      simp only [calls, List.mem_cons, List.not_mem_nil, or_false, reduceCtorEq, false_or,
        CursorCall.seek.injEq] at ht
      rw [ht]
      decide)
  exact ⟨h.2.1, by decide +kernel, by decide +kernel⟩

end BlockReader

end LsmKv
