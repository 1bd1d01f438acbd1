import LsmKv.Library.Lfsr
import LsmKv.Crc32c

namespace LsmKv.Crc32c
set_option autoImplicit true

open Lfsr

/-- The register takes in one bit of the message. -/
def bitStep (c : UInt32) (b : Bool) : UInt32 := shiftBit (c ^^^ if b then 1 else 0)

/-- The bits of a message in the order in which a reflected CRC takes them. -/
def bits (data : Bytes) : List Bool := data.flatMap fun b => lowBits 8 b.toNat

/-- CRC-32C, a bit at a time, complemented in and out. -/
def extendBitwise (crc : UInt32) (data : Bytes) : UInt32 := ~~~ (bits data).foldl bitStep (~~~ crc)

/-- The two CRC instructions of a CPU: `__crc32cb` and `__crc32cd`, or `_mm_crc32_u8` and
`_mm_crc32_u64`. -/
structure Instructions where
  crc32cb : UInt32 → UInt8 → UInt32
  crc32cd : UInt32 → UInt64 → UInt32

/-- The instructions take in the bits of their operand, lowest first. -/
structure Instructions.Bitwise (cpu : Instructions) : Prop where
  crc32cb : ∀ c b, cpu.crc32cb c b = (lowBits 8 b.toNat).foldl bitStep c
  crc32cd : ∀ c v, cpu.crc32cd c v = (lowBits 64 v.toNat).foldl bitStep c

def loadLE64 (p : Bytes) : UInt64 := UInt64.ofNat (decodeFixed64 p)

/-- The two loops of `ExtendHardware`. -/
def hardwareLoop (cpu : Instructions) (c : UInt32) (p : Bytes) : UInt32 :=
  match p with
  | b0 :: b1 :: b2 :: b3 :: b4 :: b5 :: b6 :: b7 :: rest =>
    hardwareLoop cpu (cpu.crc32cd c (loadLE64 [b0, b1, b2, b3, b4, b5, b6, b7])) rest
  | p => p.foldl cpu.crc32cb c

def extendHardware (cpu : Instructions) (crc : UInt32) (data : Bytes) : UInt32 :=
  ~~~ hardwareLoop cpu (~~~ crc) data

/-- `Extend` of a build with or without the instructions. -/
def extend (cpu : Option Instructions) (crc : UInt32) (data : Bytes) : UInt32 :=
  match cpu with
  | some cpu => extendHardware cpu crc data
  | none => extendSoftware crc data

theorem low_bit (c : UInt32) : c &&& 1 ≠ 0 ↔ c.toBitVec.getLsbD 0 = true := by
  have h : (c &&& 1).toBitVec = (BitVec.ofBool (c.toBitVec.getLsbD 0)).setWidth 32 := by
    rw [UInt32.toBitVec_and]
    exact BitVec.and_one_eq_setWidth_ofBool_getLsbD
  rw [ne_eq, ← UInt32.toBitVec_inj, h]
  cases c.toBitVec.getLsbD 0 <;> decide

theorem toBitVec_shiftBit (c : UInt32) :
    (shiftBit c).toBitVec = shift kPoly.toBitVec c.toBitVec := by
  rw [shiftBit, shift]
  by_cases h : c &&& 1 ≠ 0
  · rw [if_pos h, if_pos ((low_bit c).1 h), UInt32.toBitVec_xor]
    rfl
  · rw [if_neg h, if_neg fun hc => h ((low_bit c).2 hc)]
    rfl

theorem toBitVec_shiftBits (n : Nat) (c : UInt32) :
    (shiftBit^[n] c).toBitVec = (shift kPoly.toBitVec)^[n] c.toBitVec :=
  (Function.Semiconj.iterate_right (f := UInt32.toBitVec) toBitVec_shiftBit n) c

theorem shiftBits_xor (n : Nat) (x y : UInt32) :
    shiftBit^[n] (x ^^^ y) = shiftBit^[n] x ^^^ shiftBit^[n] y := by
  apply UInt32.toBitVec_inj.1
  rw [UInt32.toBitVec_xor, toBitVec_shiftBits, UInt32.toBitVec_xor, shift_iterate_xor,
    toBitVec_shiftBits, toBitVec_shiftBits]

theorem shiftBits_injective (n : Nat) : Function.Injective shiftBit^[n] := by
  intro x y h
  have htap : kPoly.toBitVec.getMsbD 0 = true := by decide
  have hinj := (shift_injective htap).iterate n
  apply UInt32.toBitVec_inj.1
  apply hinj
  rw [← toBitVec_shiftBits, ← toBitVec_shiftBits, h]

theorem shiftBits_zero (n : Nat) : shiftBit^[n] 0 = 0 := by
  have h := shiftBits_xor n 0 0
  rwa [UInt32.xor_self, UInt32.xor_self] at h

theorem shiftBits_eight (x : UInt32) : shiftBit^[8] x = table0 (x &&& 0xff) ^^^ (x >>> 8) := by
  have hlow : (x &&& 0xff).toBitVec = (x.toBitVec.setWidth 8).setWidth 32 := by
    apply BitVec.eq_of_toNat_eq
    have h := Nat.and_two_pow_sub_one_eq_mod x.toNat 8
    norm_num at h
    simp only [UInt32.toBitVec_and, BitVec.toNat_and, BitVec.toNat_setWidth, UInt32.toNat_toBitVec]
    refine h.trans (Nat.mod_eq_of_lt ?_).symm
    omega
  apply UInt32.toBitVec_inj.1
  rw [toBitVec_shiftBits, shift_iterate_split, ← hlow, ← toBitVec_shiftBits, UInt32.toBitVec_xor]
  rfl

theorem table_eq (k : Nat) (i : UInt32) : table k i = shiftBit^[8 * (k + 1)] i := by
  induction k with
  | zero => rfl
  | succ k ih =>
    rw [table, ih, UInt32.xor_comm, ← shiftBits_eight, ← Function.iterate_add_apply]
    congr 1
    omega

theorem shiftBits_table (k : Nat) (x : UInt32) :
    shiftBit^[8 * (k + 1)] x = table k (x &&& 0xff) ^^^ shiftBit^[8 * k] (x >>> 8) := by
  rw [table_eq, show 8 * (k + 1) = 8 * k + 8 by omega, Function.iterate_add_apply, shiftBits_eight,
    shiftBits_xor, table0, ← Function.iterate_add_apply]

theorem toBitVec_bitStep (c : UInt32) (b : Bool) :
    (bitStep c b).toBitVec = feed kPoly.toBitVec c.toBitVec b := by
  rw [bitStep, toBitVec_shiftBit, UInt32.toBitVec_xor, feed]
  cases b <;> rfl

theorem foldl_bitStep (l : List Bool) (c : UInt32) :
    (l.foldl bitStep c).toBitVec = l.foldl (feed kPoly.toBitVec) c.toBitVec := by
  induction l generalizing c with
  | nil => rfl
  | cons b l ih => rw [List.foldl_cons, ih, toBitVec_bitStep, List.foldl_cons]

theorem foldl_lowBits (hv : v < 2 ^ n) (hn : n ≤ 32) (c : UInt32) :
    (lowBits n v).foldl bitStep c = shiftBit^[n] (c ^^^ UInt32.ofNat v) := by
  apply UInt32.toBitVec_inj.1
  rw [foldl_bitStep, feed_lowBits hv hn, toBitVec_shiftBits, UInt32.toBitVec_xor,
    UInt32.toBitVec_ofNat']

theorem bits_append (a b : Bytes) : bits (a ++ b) = bits a ++ bits b := List.flatMap_append

theorem lowBits_leNat (data : Bytes) : lowBits (8 * data.length) (leNat data) = bits data := by
  induction data with
  | nil => rfl
  | cons b data ih =>
    have hb := b.toNat_lt
    have hmod : (b.toNat + 256 * leNat data) % 2 ^ 8 = b.toNat := by omega
    have hdiv : (b.toNat + 256 * leNat data) / 2 ^ 8 = leNat data := by omega
    rw [List.length_cons, Nat.mul_succ, Nat.add_comm, lowBits_add, ← lowBits_mod, leNat,
      hmod, hdiv, ih]
    rfl

theorem byteStep_eq (c : UInt32) (p : UInt8) :
    byteStep c p = (lowBits 8 p.toNat).foldl bitStep c := by
  have hp := p.toNat_lt
  have hof : UInt32.ofNat p.toNat = p.toUInt32 := by simp
  have hhigh : (c ^^^ p.toUInt32) >>> 8 = c >>> 8 := by
    have hp8 : p.toNat >>> 8 = 0 := Nat.shiftRight_eq_zero _ _ hp
    apply UInt32.toNat_inj.1
    simp [UInt32.toNat_shiftRight, Nat.shiftRight_xor_distrib, hp8]
  rw [foldl_lowBits hp (by norm_num), shiftBits_eight, hof, hhigh]
  rfl

theorem foldl_byteStep (data : Bytes) (c : UInt32) :
    data.foldl byteStep c = (bits data).foldl bitStep c := by
  induction data generalizing c with
  | nil => rfl
  | cons b data ih =>
    rw [List.foldl_cons, ih, byteStep_eq, ← List.foldl_append]
    rfl

theorem ushiftRight_eight (x : UInt32) :
    x >>> 8 >>> 8 = x >>> 16 ∧ x >>> 16 >>> 8 = x >>> 24 ∧ x >>> 24 >>> 8 = 0 := by
  have hx := x.toNat_lt
  refine ⟨?_, ?_, ?_⟩ <;> apply UInt32.toNat_inj.1 <;>
    simp [UInt32.toNat_shiftRight, ← Nat.shiftRight_add]
  exact Nat.shiftRight_eq_zero _ _ hx

theorem shiftBits_word (k : Nat) (x : UInt32) :
    shiftBit^[8 * (k + 4)] x = table (k + 3) (x &&& 0xff) ^^^ table (k + 2) ((x >>> 8) &&& 0xff) ^^^
      table (k + 1) ((x >>> 16) &&& 0xff) ^^^ table k ((x >>> 24) &&& 0xff) := by
  obtain ⟨h16, h24, h32⟩ := ushiftRight_eight x
  rw [shiftBits_table (k + 3), shiftBits_table (k + 2), shiftBits_table (k + 1),
    shiftBits_table k, h16, h24,
    h32, shiftBits_zero, UInt32.xor_zero, UInt32.xor_assoc, UInt32.xor_assoc]

theorem loadLE32_eq {p : Bytes} (h : p.length = 4) (c : UInt32) :
    shiftBit^[32] (c ^^^ loadLE32 p) = (bits p).foldl bitStep c := by
  have hv : leNat p < 2 ^ 32 := by
    have := leNat_lt p
    rw [h] at this
    omega
  have hb := lowBits_leNat p
  rw [h] at hb
  rw [loadLE32, decodeFixed32, List.take_of_length_le h.le, ← foldl_lowBits hv le_rfl, hb]

theorem sliceStep_eq {p : Bytes} (h : p.length = 8) (c : UInt32) :
    sliceStep c p = (bits p).foldl bitStep c := by
  have hlow : (p.take 4).length = 4 := by simp [h]
  have hhigh : (p.drop 4).length = 4 := by simp [h]
  have hload : loadLE32 p = loadLE32 (p.take 4) := by
    rw [loadLE32, loadLE32, decodeFixed32, decodeFixed32, List.take_take, min_self]
  have hfold : (bits p).foldl bitStep c =
      shiftBit^[8 * 8] (c ^^^ loadLE32 p) ^^^ shiftBit^[8 * 4] (loadLE32 (p.drop 4)) := by
    rw [← List.take_append_drop 4 p, bits_append, List.foldl_append, ← loadLE32_eq hlow,
      ← loadLE32_eq hhigh, shiftBits_xor, ← Function.iterate_add_apply,
      List.take_append_drop, hload]
  rw [hfold, shiftBits_word 4, shiftBits_word 0, sliceStep]
  simp only [UInt32.xor_assoc]

theorem sliceLoop_eq (c : UInt32) (p : Bytes) : sliceLoop c p = (bits p).foldl bitStep c := by
  fun_induction sliceLoop c p with
  | case1 c b0 b1 b2 b3 b4 b5 b6 b7 rest ih =>
    rw [ih, sliceStep_eq rfl, ← List.foldl_append, ← bits_append]
    rfl
  | case2 c p _ => exact foldl_byteStep p c

theorem extendSoftware_eq (crc : UInt32) (data : Bytes) :
    extendSoftware crc data = extendBitwise crc data := by
  rw [extendSoftware, sliceLoop_eq, extendBitwise]

theorem Instructions.Bitwise.word (h : Bitwise cpu) {p : Bytes} (hp : p.length = 8) (c : UInt32) :
    cpu.crc32cd c (loadLE64 p) = (bits p).foldl bitStep c := by
  have hv : leNat p < 2 ^ 64 := by
    have := leNat_lt p
    rw [hp] at this
    omega
  have hb := lowBits_leNat p
  rw [hp] at hb
  rw [h.crc32cd, loadLE64, decodeFixed64, List.take_of_length_le hp.le, UInt64.toNat_ofNat',
    Nat.mod_eq_of_lt hv, hb]

theorem hardwareLoop_eq (h : cpu.Bitwise) (c : UInt32) (p : Bytes) :
    hardwareLoop cpu c p = (bits p).foldl bitStep c := by
  fun_induction hardwareLoop cpu c p with
  | case1 c b0 b1 b2 b3 b4 b5 b6 b7 rest ih =>
    rw [ih, h.word rfl, ← List.foldl_append, ← bits_append]
    rfl
  | case2 c p _ =>
    have hstep : cpu.crc32cb = byteStep := by
      funext c b
      rw [h.crc32cb, byteStep_eq]
    rw [hstep, foldl_byteStep]

theorem extendHardware_eq (h : cpu.Bitwise) (crc : UInt32) (data : Bytes) :
    extendHardware cpu crc data = extendBitwise crc data := by
  rw [extendHardware, hardwareLoop_eq h, extendBitwise]

theorem extend_eq {cpu : Option Instructions} (h : ∀ i, cpu = some i → i.Bitwise) (crc : UInt32)
    (data : Bytes) : extend cpu crc data = extendBitwise crc data := by
  cases cpu with
  | none => exact extendSoftware_eq crc data
  | some i => exact extendHardware_eq (h i rfl) crc data

theorem extendBitwise_append (crc : UInt32) (a b : Bytes) :
    extendBitwise (extendBitwise crc a) b = extendBitwise crc (a ++ b) := by
  rw [extendBitwise, extendBitwise, extendBitwise, UInt32.not_not, bits_append, List.foldl_append]

/-- The table path, the hardware path and the definition a bit at a time are one function, which can
be computed piece by piece. -/
theorem implementations_agree :
    (∀ crc data, extendSoftware crc data = extendBitwise crc data) ∧
    (∀ cpu : Instructions, cpu.Bitwise → ∀ crc data,
      extendHardware cpu crc data = extendSoftware crc data) ∧
    ∀ cpu : Option Instructions, (∀ i, cpu = some i → i.Bitwise) → ∀ crc a b,
      extend cpu (extend cpu crc a) b = extend cpu crc (a ++ b) := by
  refine ⟨extendSoftware_eq, fun cpu h crc data => ?_, fun cpu h crc a b => ?_⟩
  · rw [extendHardware_eq h, extendSoftware_eq]
  · rw [extend_eq h, extend_eq h, extend_eq h, extendBitwise_append]

/-- A CPU whose instructions do the steps one by one. -/
def Instructions.reference : Instructions where
  crc32cb c b := (lowBits 8 b.toNat).foldl bitStep c
  crc32cd c v := (lowBits 64 v.toNat).foldl bitStep c

theorem implementations_agree_check_value :
    let data : Bytes := [0x31, 0x32, 0x33, 0x34, 0x35, 0x36, 0x37, 0x38, 0x39]
    extendSoftware 0 data = 0xe3069283 ∧ extendHardware .reference 0 data = 0xe3069283 ∧
      extend (some .reference) (extend (some .reference) 0 (data.take 4)) (data.drop 4) =
      0xe3069283 := by
  intro data
  have href : Instructions.reference.Bitwise := ⟨fun _ _ => rfl, fun _ _ => rfl⟩
  have hvalue : extendBitwise 0 data = 0xe3069283 := by decide +kernel
  have hsoft := implementations_agree.1 0 data
  have hhard := implementations_agree.2.1 .reference href 0 data
  have hcat := implementations_agree.2.2 (some .reference) (fun i hi => Option.some.inj hi ▸ href) 0
    (data.take 4) (data.drop 4)
  refine ⟨hsoft.trans hvalue, hhard.trans (hsoft.trans hvalue), hcat.trans ?_⟩
  rw [List.take_append_drop]
  exact hhard.trans (hsoft.trans hvalue)

end LsmKv.Crc32c
