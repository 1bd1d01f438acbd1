import LsmKv.Coding

namespace LsmKv
set_option autoImplicit true

/-- One round of `BloomHash` per four bytes, then the tail. -/
def bloomMix (h : UInt32) : Bytes → UInt32
  | a :: b :: c :: d :: rest =>
    let h := (h + UInt32.ofNat (decodeFixed32 [a, b, c, d])) * 0xc6a4a793
    bloomMix (h ^^^ (h >>> 16)) rest
  | [a, b, c] =>
    let h := (h + (c.toUInt32 <<< 16) + (b.toUInt32 <<< 8) + a.toUInt32) * 0xc6a4a793
    h ^^^ (h >>> 24)
  | [a, b] =>
    let h := (h + (b.toUInt32 <<< 8) + a.toUInt32) * 0xc6a4a793
    h ^^^ (h >>> 24)
  | [a] =>
    let h := (h + a.toUInt32) * 0xc6a4a793
    h ^^^ (h >>> 24)
  | [] => h

def bloomHash (key : Bytes) : UInt32 :=
  bloomMix (0xbc9f1d34 ^^^ (UInt32.ofNat key.length * 0xc6a4a793)) key

namespace BloomFilter

/-- `static_cast<int>(bits_per_key * 0.69314718056)`, clamped. -/
def bitsPerKeyToProbes (bitsPerKey : Int) : Nat :=
  (max 1 (min 30 (Int.tdiv (bitsPerKey * 69314718056) 100000000000))).toNat

/-- The `k` bit positions of a key: one hash, rotated by `delta` from probe to probe. -/
def probesFrom (bits : Nat) (delta : UInt32) : Nat → UInt32 → List Nat
  | 0, _ => []
  | k + 1, h => h.toNat % bits :: probesFrom bits delta k (h + delta)

def probes (bits k : Nat) (key : Bytes) : List Nat :=
  let h := bloomHash key
  probesFrom bits ((h >>> 17) ||| (h <<< 15)) k h

def mask (bitpos : Nat) : UInt8 := UInt8.ofNat (2 ^ (bitpos % 8))

def setBit (filter : Bytes) (bitpos : Nat) : Bytes :=
  filter.modify (bitpos / 8) (· ||| mask bitpos)

def testBit (filter : Bytes) (bitpos : Nat) : Bool :=
  filter.getD (bitpos / 8) 0 &&& mask bitpos != 0

/-- The bits of the filter in bytes, at least 64 of them. Product and sum are `size_t`s, so a
negative `bits_per_key` asks for a huge filter or, where the sum wraps around, for none. -/
def filterBytes (numKeys : Nat) (bitsPerKey : Int) : Nat :=
  let bits := ((numKeys : Int) * bitsPerKey % 2 ^ 64).toNat
  (max bits 64 + 7) % 2 ^ 64 / 8

/-- `Build` with a given number of probes. -/
def buildWith (k : Nat) (keys : List Bytes) (bitsPerKey : Int) : Bytes :=
  let bytes := filterBytes keys.length bitsPerKey
  let filter := keys.foldl (fun f key => (probes (bytes * 8) k key).foldl setBit f)
    (List.replicate bytes 0)
  filter ++ [UInt8.ofNat k]

def build (keys : List Bytes) (bitsPerKey : Int) : Bytes :=
  buildWith (bitsPerKeyToProbes bitsPerKey) keys bitsPerKey

/-- `Build` comes back: the filter and its probe count are a string that can be had, of at most
`maxSize` bytes, and no key is hashed modulo a length of zero. -/
def builds (maxSize numKeys : Nat) (bitsPerKey : Int) : Bool :=
  filterBytes numKeys bitsPerKey < maxSize && (numKeys == 0 || 0 < filterBytes numKeys bitsPerKey)

def mayContain (data key : Bytes) : Bool :=
  if data.length < 2 then true
  else
    let bytes := data.length - 1
    let k := (data.getD bytes 0).toNat
    if 30 < k then true
    else (probes (bytes * 8) k key).all (testBit data)

/-- The probes of `MayContain` up to the first bit that is clear; `none` is a read outside. -/
def testProbes? (data : Bytes) : List Nat → Option Bool
  | [] => some true
  | bitpos :: rest => do
    let byte ← data[bitpos / 8]?
    if byte &&& mask bitpos = 0 then some false else testProbes? data rest

/-- `MayContain` with its accesses to the filter checked. -/
def mayContain? (data key : Bytes) : Option Bool :=
  if data.length < 2 then some true
  else do
    let bytes := data.length - 1
    let last ← data[bytes]?
    let k := last.toNat
    if 30 < k then some true else testProbes? data (probes (bytes * 8) k key)

variable {f key : Bytes} {keys : List Bytes} {ps : List Nat} {p q bits k : Nat}

theorem length_setBit (f : Bytes) (p : Nat) : (setBit f p).length = f.length :=
  List.length_modify _ _ _

theorem mask_ne_zero (p : Nat) : mask p ≠ 0 := by
  have hp : p % 8 < 8 := Nat.mod_lt p (by decide)
  rw [mask]
  generalize p % 8 = m at hp
  interval_cases m <;> decide

theorem getD_setBit (f : Bytes) (p i : Nat) : (setBit f p).getD i 0 =
    if p / 8 = i ∧ i < f.length then f.getD i 0 ||| mask p else f.getD i 0 := by
  simp only [setBit, List.getD_eq_getElem?_getD, List.getElem?_modify]
  by_cases hi : i < f.length
  · by_cases hp : p / 8 = i <;> simp [hi, hp]
  · simp [hi]

theorem and_or_ne_zero (h : x &&& m ≠ (0 : UInt8)) (y : UInt8) : (x ||| y) &&& m ≠ 0 := by
  intro hc
  apply h
  have hb : (x.toBitVec ||| y.toBitVec) &&& m.toBitVec = 0#8 := by
    have := congrArg UInt8.toBitVec hc
    simpa using this
  apply UInt8.toBitVec_inj.1
  simp only [UInt8.toBitVec_and, UInt8.toBitVec_zero]
  ext i hi
  have hi' := congrArg (fun v : BitVec 8 => v.getLsbD i) hb
  simp only [BitVec.getLsbD_and, BitVec.getLsbD_or, BitVec.getLsbD_zero] at hi'
  simp only [← BitVec.getLsbD_eq_getElem]
  cases hx : x.toBitVec.getLsbD i <;> simp_all

theorem testBit_setBit (h : p / 8 < f.length) : testBit (setBit f p) p = true := by
  rw [testBit, getD_setBit, if_pos ⟨rfl, h⟩, bne_iff_ne]
  rw [UInt8.or_comm]
  exact and_or_ne_zero (by rw [UInt8.and_self]; exact mask_ne_zero p) _

theorem testBit_setBit_of (h : testBit f q = true) (p : Nat) : testBit (setBit f p) q = true := by
  rw [testBit, bne_iff_ne] at h ⊢
  rw [getD_setBit]
  split
  · exact and_or_ne_zero h _
  · exact h

theorem length_setBits (ps : List Nat) (f : Bytes) : (ps.foldl setBit f).length = f.length := by
  induction ps generalizing f with
  | nil => rfl
  | cons p ps ih => rw [List.foldl_cons, ih, length_setBit]

theorem testBit_setBits_of (h : testBit f q = true) (ps : List Nat) :
    testBit (ps.foldl setBit f) q = true := by
  induction ps generalizing f with
  | nil => exact h
  | cons p ps ih => exact ih (testBit_setBit_of h p)

theorem testBit_setBits (hf : ∀ p ∈ ps, p / 8 < f.length) (hq : q ∈ ps) :
    testBit (ps.foldl setBit f) q = true := by
  induction ps generalizing f with
  | nil => cases hq
  | cons p ps ih =>
    rw [List.foldl_cons]
    rcases List.mem_cons.1 hq with rfl | hq
    · exact testBit_setBits_of (testBit_setBit (hf q List.mem_cons_self)) ps
    · refine ih (fun x hx => ?_) hq
      rw [length_setBit]
      exact hf x (List.mem_cons_of_mem p hx)

theorem probesFrom_lt (hb : 0 < bits) (k : Nat) (h : UInt32) :
    ∀ p ∈ probesFrom bits delta k h, p < bits := by
  induction k generalizing h with
  | zero => simp [probesFrom]
  | succ k ih =>
    intro p hp
    rcases List.mem_cons.1 hp with rfl | hp
    · exact Nat.mod_lt _ hb
    · exact ih _ p hp

theorem bitsPerKeyToProbes_le (b : Int) : bitsPerKeyToProbes b ≤ 30 := by
  rw [bitsPerKeyToProbes]
  omega

theorem length_setKeys (bits k : Nat) (keys : List Bytes) (f : Bytes) :
    (keys.foldl (fun f key => (probes bits k key).foldl setBit f) f).length = f.length := by
  induction keys generalizing f with
  | nil => rfl
  | cons key keys ih => rw [List.foldl_cons, ih, length_setBits]

theorem testBit_setKeys (hf : bits = f.length * 8) (hb : 0 < bits) (hk : key ∈ keys)
    (hq : q ∈ probes bits k key) :
    testBit (keys.foldl (fun f key => (probes bits k key).foldl setBit f) f) q = true := by
  have hof (keys : List Bytes) {f : Bytes} (h : testBit f q = true) :
      testBit (keys.foldl (fun f key => (probes bits k key).foldl setBit f) f) q = true := by
    induction keys generalizing f with
    | nil => exact h
    | cons a keys ih => exact ih (testBit_setBits_of h _)
  induction keys generalizing f with
  | nil => cases hk
  | cons a keys ih =>
    rw [List.foldl_cons]
    rcases List.mem_cons.1 hk with rfl | hk
    · refine hof keys (testBit_setBits (fun p hp => ?_) hq)
      have hlt := probesFrom_lt hb k _ p hp
      omega
    · exact ih (by rw [length_setBits]; exact hf) hk

/-- A filter never answers "absent" for a key it was built from. -/
theorem mayContain_buildWith (h : key ∈ keys) (hk : k ≤ 30) (bitsPerKey : Int) :
    mayContain (buildWith k keys bitsPerKey) key = true := by
  set bytes := filterBytes keys.length bitsPerKey with hbytes
  set filter := keys.foldl (fun f key => (probes (bytes * 8) k key).foldl setBit f)
    (List.replicate bytes 0) with hfilter
  have hlen : filter.length = bytes := by rw [hfilter, length_setKeys, List.length_replicate]
  have hbuild : buildWith k keys bitsPerKey = filter ++ [UInt8.ofNat k] := rfl
  have hlength : (buildWith k keys bitsPerKey).length = bytes + 1 := by
    rw [hbuild, List.length_append, hlen]
    rfl
  have hsize : (buildWith k keys bitsPerKey).length - 1 = bytes := by omega
  have hlast : ((buildWith k keys bitsPerKey).getD bytes 0).toNat = k := by
    rw [hbuild, List.getD_append_right _ _ _ _ (by omega), hlen, Nat.sub_self]
    show (UInt8.ofNat k).toNat = k
    rw [UInt8.toNat_ofNat']
    omega
  rw [mayContain]
  by_cases hpos : bytes = 0
  · rw [if_pos (by omega)]
  rw [if_neg (by omega)]
  simp only [hsize, hlast]
  rw [if_neg (by omega), List.all_eq_true]
  intro q hq
  have hlt : q / 8 < filter.length := by
    have := probesFrom_lt (by omega) k _ q hq
    omega
  have htest : testBit filter q = true :=
    testBit_setKeys (by rw [List.length_replicate]) (by omega) h hq
  rwa [testBit, hbuild, List.getD_append _ _ _ _ hlt]

theorem mayContain_build (h : key ∈ keys) (bitsPerKey : Int) :
    mayContain (build keys bitsPerKey) key = true :=
  mayContain_buildWith h (bitsPerKeyToProbes_le bitsPerKey) bitsPerKey

theorem testProbes?_eq {data : Bytes} (h : ∀ p ∈ ps, p / 8 < data.length) :
    testProbes? data ps = some (ps.all (testBit data)) := by
  induction ps with
  | nil => rfl
  | cons p ps ih =>
    have hp : p / 8 < data.length := h p List.mem_cons_self
    have hget : data.getD (p / 8) 0 = data[p / 8] := List.getD_eq_getElem _ _ hp
    rw [testProbes?, List.getElem?_eq_getElem hp, List.all_cons, testBit, hget]
    simp only [Option.bind_eq_bind, Option.bind_some]
    by_cases hb : data[p / 8] &&& mask p = 0
    · rw [if_pos hb, hb]
      rfl
    · rw [if_neg hb, ih fun q hq => h q (List.mem_cons_of_mem p hq), bne_iff_ne.2 hb]
      rfl

/-- Whatever the bytes, the filter is read inside only. -/
theorem mayContain?_eq (data key : Bytes) : mayContain? data key = some (mayContain data key) := by
  rw [mayContain?, mayContain]
  by_cases hd : data.length < 2
  · rw [if_pos hd, if_pos hd]
  · have hlt : data.length - 1 < data.length := by omega
    rw [if_neg hd, if_neg hd]
    simp only [List.getElem?_eq_getElem hlt, List.getD_eq_getElem _ _ hlt, Option.bind_eq_bind,
      Option.bind_some]
    split
    · rfl
    · apply testProbes?_eq
      intro p hp
      have := probesFrom_lt (by omega) _ _ p hp
      omega

/-- The bits of a filter over so many keys are not negative, count without wrapping around, and
make a string that can be had. -/
def Fits (maxSize numKeys : Nat) (bitsPerKey : Int) : Prop :=
  0 ≤ bitsPerKey ∧ numKeys * bitsPerKey.toNat + 71 < 2 ^ 64 ∧
    numKeys * bitsPerKey.toNat + 71 < 8 * maxSize

theorem Fits.mono {maxSize numKeys n : Nat} {bitsPerKey : Int} (h : Fits maxSize numKeys bitsPerKey)
    (hn : n ≤ numKeys) : Fits maxSize n bitsPerKey := by
  have hle := Nat.mul_le_mul_right bitsPerKey.toNat hn
  obtain ⟨h0, h64, hmax⟩ := h
  exact ⟨h0, by omega, by omega⟩

theorem Fits.builds {maxSize numKeys : Nat} {bitsPerKey : Int}
    (h : Fits maxSize numKeys bitsPerKey) : builds maxSize numKeys bitsPerKey = true := by
  obtain ⟨h0, h64, hmax⟩ := h
  obtain ⟨n, rfl⟩ := Int.eq_ofNat_of_zero_le h0
  rw [Int.toNat_natCast] at h64 hmax
  have hbits : ((numKeys : Int) * n % 2 ^ 64).toNat = numKeys * n := by
    have hlt : numKeys * n < 2 ^ 64 := by omega
    exact_mod_cast congrArg Int.toNat (Int.emod_eq_of_lt (by positivity)
      (by exact_mod_cast hlt : (numKeys : Int) * n < 2 ^ 64))
  have hbytes : filterBytes numKeys n = (max (numKeys * n) 64 + 7) / 8 := by
    rw [filterBytes, hbits, Nat.mod_eq_of_lt (by omega)]
  simp only [BloomFilter.builds, hbytes, Bool.and_eq_true, decide_eq_true_eq, Bool.or_eq_true]
  exact ⟨by omega, .inr (by omega)⟩

/-- With -1 bits per key and one to seven keys the length wraps around to zero. -/
theorem builds_neg {maxSize numKeys : Nat} (h : 1 ≤ numKeys ∧ numKeys ≤ 7) :
    builds maxSize numKeys (-1) = false := by
  obtain ⟨h1, h7⟩ := h
  have hbytes : filterBytes numKeys (-1) = 0 := by
    interval_cases numKeys <;> rfl
  have hne : (numKeys == 0) = false := beq_false_of_ne (by omega)
  rw [builds, hbytes, hne]
  simp

/-- No key of the filter is missed, for any number of probes that `BitsPerKeyToProbes` may yield. -/
theorem no_false_negatives (hk : 1 ≤ k ∧ k ≤ 30) (keys : List Bytes) (bitsPerKey : Int) :
    (∀ key ∈ keys, mayContain (buildWith k keys bitsPerKey) key = true) ∧
      ∀ data key, mayContain? data key = some (mayContain data key) :=
  ⟨fun _ hkey => mayContain_buildWith hkey hk.2 bitsPerKey, mayContain?_eq⟩

theorem no_false_negatives_ten :
    (1 ≤ bitsPerKeyToProbes 10 ∧ bitsPerKeyToProbes 10 ≤ 30) ∧
      mayContain (buildWith (bitsPerKeyToProbes 10) [[97], [98, 99]] 10) [98, 99] = true :=
  ⟨by decide, (no_false_negatives (by decide) [[97], [98, 99]] 10).1 [98, 99] (by simp)⟩

end BloomFilter

end LsmKv
