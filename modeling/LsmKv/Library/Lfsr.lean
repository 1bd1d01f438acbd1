import Mathlib

namespace LsmKv.Lfsr
set_option autoImplicit true

/-- One step of a Galois shift register with taps `poly`, low bit first. -/
def shift (poly x : BitVec w) : BitVec w :=
  if x.getLsbD 0 then (x >>> 1) ^^^ poly else x >>> 1

/-- The register takes in one bit. -/
def feed (poly x : BitVec w) (b : Bool) : BitVec w :=
  shift poly (x ^^^ (BitVec.ofBool b).setWidth w)

/-- The low `n` bits of a number, lowest first. -/
def lowBits (n : Nat) (v : Nat) : List Bool := (List.range n).map v.testBit

section Linear
variable {w : Nat} {poly x y : BitVec w}

theorem shift_xor (poly x y : BitVec w) : shift poly (x ^^^ y) = shift poly x ^^^ shift poly y := by
  have hcancel : ∀ a b c : BitVec w, a ^^^ c ^^^ (b ^^^ c) = a ^^^ b := fun a b c => by
    rw [BitVec.xor_assoc, ← BitVec.xor_assoc c, BitVec.xor_comm c b, BitVec.xor_assoc b,
      BitVec.xor_self, BitVec.xor_zero]
  rw [shift, shift, shift, BitVec.getLsbD_xor, BitVec.ushiftRight_xor_distrib]
  cases x.getLsbD 0 <;> cases y.getLsbD 0
  · rfl
  · exact BitVec.xor_assoc _ _ _
  · simp only [Bool.xor_false, if_true, Bool.false_eq_true, if_false]
    rw [BitVec.xor_assoc, BitVec.xor_comm (y >>> 1), ← BitVec.xor_assoc]
  · simp only [Bool.bne_true, Bool.not_true, Bool.false_eq_true, if_false, if_true]
    exact (hcancel _ _ _).symm

theorem shift_iterate_xor (n : Nat) (poly x y : BitVec w) :
    (shift poly)^[n] (x ^^^ y) = (shift poly)^[n] x ^^^ (shift poly)^[n] y := by
  induction n generalizing x y with
  | zero => rfl
  | succ n ih => rw [Function.iterate_succ_apply, shift_xor, ih]; rfl

theorem shift_iterate_of_low (n : Nat) (h : ∀ i < n, x.getLsbD i = false) :
    (shift poly)^[n] x = x >>> n := by
  induction n with
  | zero => simp
  | succ n ih =>
    have hlow : (x >>> n).getLsbD 0 = false := by
      rw [BitVec.getLsbD_ushiftRight]
      exact h n (Nat.lt_succ_self n)
    rw [Function.iterate_succ_apply', ih fun i hi => h i (Nat.lt_succ_of_lt hi), shift, hlow,
      BitVec.shiftRight_add]
    rfl

theorem shift_iterate_split (n : Nat) (poly x : BitVec w) :
    (shift poly)^[n] x = (shift poly)^[n] ((x.setWidth n).setWidth w) ^^^ (x >>> n) := by
  have hsplit : x = (x.setWidth n).setWidth w ^^^ (x >>> n <<< n) := by
    apply BitVec.eq_of_getLsbD_eq
    intro i hi
    by_cases hin : i < n
    · simp [hi, hin]
    · simp [hi, hin, Nat.add_sub_cancel' (not_lt.1 hin)]
  have hlow : ∀ i < n, (x >>> n <<< n).getLsbD i = false := by
    intro i hi
    simp [hi]
  have hback : x >>> n <<< n >>> n = x >>> n := by
    apply BitVec.eq_of_getLsbD_eq
    intro i hi
    simp only [BitVec.getLsbD_ushiftRight, BitVec.getLsbD_shiftLeft]
    by_cases hin : n + i < w
    · simp [hin]
    · simp [hin, BitVec.getLsbD_of_ge x (n + i) (not_lt.1 hin)]
  conv_lhs => rw [hsplit]
  rw [shift_iterate_xor, shift_iterate_of_low n hlow, hback]

/-- A register whose last tap is set forgets nothing. -/
theorem shift_injective (hp : poly.getMsbD 0 = true) : Function.Injective (shift poly) := by
  have hzero : ∀ x, shift poly x = 0#w → x = 0#w := by
    intro x hx
    rw [shift] at hx
    cases hlow : x.getLsbD 0 with
    | true =>
      rw [hlow, if_pos rfl, BitVec.xor_eq_zero_iff] at hx
      have := congrArg (BitVec.getMsbD · 0) hx
      simp [hp] at this
    | false =>
      rw [hlow, if_neg (by simp)] at hx
      apply BitVec.eq_of_getLsbD_eq
      intro i hi
      rw [BitVec.getLsbD_zero]
      cases i with
      | zero => exact hlow
      | succ i =>
        have := congrArg (BitVec.getLsbD · i) hx
        simpa [Nat.add_comm] using this
  intro x y hxy
  have h := hzero (x ^^^ y) (by rw [shift_xor, hxy, BitVec.xor_self])
  exact BitVec.xor_eq_zero_iff.1 h

theorem lowBits_succ (n v : Nat) : lowBits (n + 1) v = v.testBit 0 :: lowBits n (v / 2) := by
  simp [lowBits, List.range_succ_eq_map, Nat.testBit_succ, Function.comp_def]

theorem lowBits_mod (n v : Nat) : lowBits n (v % 2 ^ n) = lowBits n v := by
  apply List.map_congr_left
  intro i hi
  rw [Nat.testBit_mod_two_pow, decide_eq_true (List.mem_range.1 hi), Bool.true_and]

theorem lowBits_add (m n v : Nat) : lowBits (m + n) v = lowBits m v ++ lowBits n (v / 2 ^ m) := by
  induction m generalizing v with
  | zero => simp [lowBits]
  | succ m ih =>
    rw [show m + 1 + n = m + n + 1 by omega, lowBits_succ, lowBits_succ, ih, Nat.div_div_eq_div_mul,
      Nat.pow_succ, Nat.mul_comm (2 ^ m)]
    rfl

theorem ofNat_eq_low_xor (w v : Nat) :
    BitVec.ofNat w v = (BitVec.ofBool (v.testBit 0)).setWidth w ^^^ BitVec.ofNat w
      (2 * (v / 2)) := by
  apply BitVec.eq_of_getLsbD_eq
  intro i hi
  rw [BitVec.getLsbD_xor, BitVec.getLsbD_ofNat, BitVec.getLsbD_ofNat, BitVec.getLsbD_setWidth]
  cases i with
  | zero => simp [hi]
  | succ i => simp [hi, Nat.testBit_succ]

theorem shift_even (h : 2 * v < 2 ^ w) :
    shift poly (BitVec.ofNat w (2 * v)) = BitVec.ofNat w v := by
  have hlow : (BitVec.ofNat w (2 * v)).getLsbD 0 = false := by
    rw [BitVec.getLsbD_ofNat, Nat.testBit_zero]
    simp
  rw [shift, hlow, if_neg (by simp)]
  apply BitVec.eq_of_toNat_eq
  rw [BitVec.toNat_ushiftRight, BitVec.toNat_ofNat, BitVec.toNat_ofNat, Nat.mod_eq_of_lt h,
    Nat.mod_eq_of_lt (by omega), Nat.shiftRight_eq_div_pow]
  omega

/-- Feeding `n` bits is the same as adding them to the register before `n` steps. -/
theorem feed_lowBits (hv : v < 2 ^ n) (hn : n ≤ w) :
    (lowBits n v).foldl (feed poly) x = (shift poly)^[n] (x ^^^ BitVec.ofNat w v) := by
  induction n generalizing x v with
  | zero =>
    obtain rfl : v = 0 := by simpa using hv
    simp [lowBits]
  | succ n ih =>
    have hw : 2 ^ (n + 1) ≤ 2 ^ w := Nat.pow_le_pow_right (by norm_num) hn
    have hpow : 2 ^ (n + 1) = 2 * 2 ^ n := Nat.pow_succ'
    have hstep : shift poly (x ^^^ BitVec.ofNat w v) =
        feed poly x (v.testBit 0) ^^^ BitVec.ofNat w (v / 2) := by
      rw [ofNat_eq_low_xor, ← BitVec.xor_assoc, shift_xor, shift_even (by omega)]
      rfl
    rw [lowBits_succ, List.foldl_cons, ih (by omega) (by omega), Function.iterate_succ_apply, hstep]

end Linear

end LsmKv.Lfsr
