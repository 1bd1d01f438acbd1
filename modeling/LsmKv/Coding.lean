import LsmKv.Library.Bytes

namespace LsmKv
set_option autoImplicit true

def putFixed32 (value : Nat) : Bytes := leBytes 4 value
def putFixed64 (value : Nat) : Bytes := leBytes 8 value

def decodeFixed32 (ptr : Bytes) : Nat := leNat (ptr.take 4)
def decodeFixed64 (ptr : Bytes) : Nat := leNat (ptr.take 8)

@[simp] theorem length_putFixed32 (v : Nat) : (putFixed32 v).length = 4 := length_leBytes 4 v
@[simp] theorem length_putFixed64 (v : Nat) : (putFixed64 v).length = 8 := length_leBytes 8 v

@[simp] theorem decodeFixed32_put (v : Nat) (rest : Bytes) :
    decodeFixed32 (putFixed32 v ++ rest) = v % 2 ^ 32 := by
  have ht : (putFixed32 v ++ rest).take 4 = putFixed32 v := by
    rw [List.take_append_of_le_length (by simp), List.take_of_length_le (by simp)]
  rw [decodeFixed32, ht, putFixed32, leNat_leBytes]
  norm_num

@[simp] theorem decodeFixed64_put (v : Nat) (rest : Bytes) :
    decodeFixed64 (putFixed64 v ++ rest) = v % 2 ^ 64 := by
  have ht : (putFixed64 v ++ rest).take 8 = putFixed64 v := by
    rw [List.take_append_of_le_length (by simp), List.take_of_length_le (by simp)]
  rw [decodeFixed64, ht, putFixed64, leNat_leBytes]
  norm_num

theorem decodeFixed32_lt (p : Bytes) : decodeFixed32 p < 2 ^ 32 := by
  have h := leNat_lt (p.take 4)
  have hl : (p.take 4).length ≤ 4 := List.length_take_le 4 p
  calc decodeFixed32 p < 256 ^ (p.take 4).length := h
    _ ≤ 256 ^ 4 := Nat.pow_le_pow_right (by norm_num) hl
    _ = 2 ^ 32 := by norm_num

theorem decodeFixed64_lt (p : Bytes) : decodeFixed64 p < 2 ^ 64 := by
  have h := leNat_lt (p.take 8)
  have hl : (p.take 8).length ≤ 8 := List.length_take_le 8 p
  calc decodeFixed64 p < 256 ^ (p.take 8).length := h
    _ ≤ 256 ^ 8 := Nat.pow_le_pow_right (by norm_num) hl
    _ = 2 ^ 64 := by norm_num

theorem putFixed32_decodeFixed32 {p : Bytes} (h : 4 ≤ p.length) :
    putFixed32 (decodeFixed32 p) ++ p.drop 4 = p := by
  have hl : (p.take 4).length = 4 := List.length_take_of_le h
  have hb := leBytes_leNat (p.take 4)
  rw [hl] at hb
  rw [putFixed32, decodeFixed32, hb, List.take_append_drop]

theorem putFixed64_decodeFixed64 {p : Bytes} (h : 8 ≤ p.length) :
    putFixed64 (decodeFixed64 p) ++ p.drop 8 = p := by
  have hl : (p.take 8).length = 8 := List.length_take_of_le h
  have hb := leBytes_leNat (p.take 8)
  rw [hl] at hb
  rw [putFixed64, decodeFixed64, hb, List.take_append_drop]

/-- Subtraction of `size_t` values: it wraps around below zero. -/
def sizeSub (a b : Nat) : Nat := if b ≤ a then a - b else a + 2 ^ 64 - b

theorem sizeSub_eq (h : b ≤ a) : sizeSub a b = a - b := if_pos h

/-- The bytes `[offset, offset + n)`, if they lie inside `b`. -/
def slice (b : Bytes) (offset n : Nat) : Option Bytes :=
  if offset + n ≤ b.length then some ((b.drop offset).take n) else none

theorem slice_eq {b : Bytes} (h : offset + n ≤ b.length) :
    slice b offset n = some ((b.drop offset).take n) := if_pos h

/-- The length field is a `uint32_t`: longer strings lose their high length bits. -/
def putLengthPrefixed (value : Bytes) : Bytes := putFixed32 value.length ++ value

def getLengthPrefixed (input : Bytes) : Option (Bytes × Bytes) :=
  if input.length < 4 then none
  else
    let len := decodeFixed32 input
    if input.length < 4 + len then none
    else some ((input.drop 4).take len, input.drop (4 + len))

theorem getLengthPrefixed_put (h : value.length < 2 ^ 32) (rest : Bytes) :
    getLengthPrefixed (putLengthPrefixed value ++ rest) = some (value, rest) := by
  have hd : (putFixed32 value.length ++ (value ++ rest)).drop 4 = value ++ rest := by
    rw [List.drop_append_of_le_length (by simp), List.drop_of_length_le (by simp)]
    rfl
  simp only [getLengthPrefixed, putLengthPrefixed, List.append_assoc, decodeFixed32_put,
    Nat.mod_eq_of_lt h, List.length_append, length_putFixed32]
  rw [if_neg (by omega), if_neg (by omega), ← List.drop_drop, hd]
  simp

theorem of_getLengthPrefixed {b s rest : Bytes} (h : getLengthPrefixed b = some (s, rest)) :
    b = putLengthPrefixed s ++ rest ∧ s.length < 2 ^ 32 := by
  rw [getLengthPrefixed] at h
  split at h
  · cases h
  rename_i h4
  simp only at h
  split at h
  · cases h
  rename_i hlen
  cases h
  have hs : ((b.drop 4).take (decodeFixed32 b)).length = decodeFixed32 b := by
    rw [List.length_take, List.length_drop]
    omega
  rw [putLengthPrefixed, hs, List.append_assoc, ← List.drop_drop, List.take_append_drop,
    putFixed32_decodeFixed32 (not_lt.1 h4)]
  exact ⟨rfl, decodeFixed32_lt b⟩

def putVarint32 (value : Nat) : Bytes :=
  if 0x80 ≤ value then UInt8.ofNat (value ||| 0x80) :: putVarint32 (value >>> 7)
  else [UInt8.ofNat value]
termination_by value
decreasing_by
  rw [Nat.shiftRight_eq_div_pow]
  omega

/-- The loop of `GetVarint32Ptr`, with the number of rounds it has left; the pointer and its
limit are the bytes that remain. -/
def getVarint32Loop : Nat → Nat → Nat → Bytes → Option (Nat × Bytes)
  | 0, _, _, _ => none
  | _ + 1, _, _, [] => none
  | n + 1, shift, result, p :: rest =>
    let byte := p.toNat
    if 0x80 ≤ byte then
      getVarint32Loop n (shift + 7) (result ||| ((byte &&& 0x7f) <<< shift) % 2 ^ 32) rest
    else some (result ||| (byte <<< shift) % 2 ^ 32, rest)

def getVarint32Ptr (p : Bytes) : Option (Nat × Bytes) := getVarint32Loop 5 0 0 p

theorem putVarint32_small (h : v < 0x80) : putVarint32 v = [UInt8.ofNat v] := by
  rw [putVarint32, if_neg (by omega)]

theorem putVarint32_large (h : 0x80 ≤ v) :
    putVarint32 v = UInt8.ofNat (v % 128 + 128) :: putVarint32 (v / 128) := by
  rw [putVarint32, if_pos h, Nat.shiftRight_eq_div_pow]
  have hb : UInt8.ofNat (v ||| 0x80) = UInt8.ofNat (v % 128 + 128) := by
    apply UInt8.toNat_inj.mp
    rw [UInt8.toNat_ofNat', UInt8.toNat_ofNat']
    have he : (v ||| 0x80) % 256 = (v % 256) ||| 0x80 := by
      have := Nat.or_mod_two_pow (a := v) (b := 0x80) (n := 8)
      simpa using this
    have hm : (v % 128 + 128) % 256 = v % 128 + 128 := by omega
    have hor : v % 256 ||| 0x80 = v % 128 + 128 := by
      have hcases : v % 256 = v % 128 ∨ v % 256 = v % 128 + 128 := by omega
      have hlt : v % 128 < 128 := Nat.mod_lt _ (by norm_num)
      generalize v % 128 = x at *
      rcases hcases with hc | hc <;> rw [hc] <;> interval_cases x <;> rfl
    rw [he, hm, hor]
  rw [hb]

theorem putVarint32_ne_nil (v : Nat) : putVarint32 v ≠ [] := by
  rw [putVarint32]
  split <;> simp

theorem length_putVarint32_pos (v : Nat) : 0 < (putVarint32 v).length :=
  List.length_pos_of_ne_nil (putVarint32_ne_nil v)

theorem or_shiftLeft_mod (hr : result < 2 ^ shift) (hb : byte * 2 ^ shift < 2 ^ 32) :
    result ||| (byte <<< shift) % 2 ^ 32 = result + byte * 2 ^ shift := by
  rw [Nat.shiftLeft_eq, Nat.mod_eq_of_lt hb, Nat.or_comm, Nat.mul_comm,
    ← Nat.two_pow_add_eq_or_of_lt hr, Nat.add_comm]

/-- Decoding picks up, at any shift the loop has reached, the digits the encoder wrote. -/
theorem getVarint32Loop_put (n shift result v : Nat) (hr : result < 2 ^ shift)
    (hn : v < 128 ^ (n + 1)) (hv : v * 2 ^ shift < 2 ^ 32) (rest : Bytes) :
    getVarint32Loop (n + 1) shift result (putVarint32 v ++ rest) =
      some (result + v * 2 ^ shift, rest) := by
  have hsmall (n : Nat) {result shift v : Nat} (hr : result < 2 ^ shift)
      (hv : v * 2 ^ shift < 2 ^ 32) (hs : v < 0x80) :
      getVarint32Loop (n + 1) shift result (putVarint32 v ++ rest) =
        some (result + v * 2 ^ shift, rest) := by
    have hb : (UInt8.ofNat v).toNat = v := by
      rw [UInt8.toNat_ofNat']
      omega
    simp only [putVarint32_small hs, List.cons_append, List.nil_append, getVarint32Loop, hb]
    rw [if_neg (by omega), or_shiftLeft_mod hr hv]
  induction n generalizing shift result v with
  | zero => exact hsmall 0 hr hv (by simpa using hn)
  | succ n ih =>
    by_cases hs : v < 0x80
    · exact hsmall (n + 1) hr hv hs
    · have hb : (UInt8.ofNat (v % 128 + 128)).toNat = v % 128 + 128 := by
        rw [UInt8.toNat_ofNat']
        omega
      have hlow : (v % 128 + 128) &&& 0x7f = v % 128 := by
        have h := Nat.and_two_pow_sub_one_eq_mod (v % 128 + 128) 7
        norm_num at h
        rw [h]
      have hdm := Nat.div_add_mod v 128
      have hpow : 2 ^ (shift + 7) = 128 * 2 ^ shift := by rw [Nat.pow_add]; omega
      have hsplit : v * 2 ^ shift = v / 128 * (128 * 2 ^ shift) + v % 128 * 2 ^ shift := by
        conv_lhs => rw [← hdm]
        ring
      have hmod : v % 128 * 2 ^ shift < 2 ^ 32 := by omega
      have hlt : v % 128 * 2 ^ shift + 2 ^ shift ≤ 128 * 2 ^ shift := by
        have hm : v % 128 + 1 ≤ 128 := Nat.mod_lt _ (by norm_num)
        calc v % 128 * 2 ^ shift + 2 ^ shift = (v % 128 + 1) * 2 ^ shift := by ring
          _ ≤ 128 * 2 ^ shift := Nat.mul_le_mul_right _ hm
      rw [putVarint32_large (by omega), List.cons_append, getVarint32Loop]
      simp only [hb, hlow]
      rw [if_pos (by omega), or_shiftLeft_mod hr hmod, ih]
      · rw [hpow, hsplit]
        congr 2
        omega
      · rw [hpow]
        omega
      · rw [Nat.pow_succ] at hn
        omega
      · rw [hpow]
        omega

theorem getVarint32Ptr_put (h : v < 2 ^ 32) (rest : Bytes) :
    getVarint32Ptr (putVarint32 v ++ rest) = some (v, rest) := by
  have hl := getVarint32Loop_put 4 0 0 v (by norm_num)
    (lt_of_lt_of_le h (by norm_num)) (by simpa using h) rest
  simpa [getVarint32Ptr] using hl

end LsmKv
