import LsmKv.Coding

namespace LsmKv
set_option autoImplicit true

/-- What one call of `GetVarint32Ptr` does: the value and the pointer it returns, if not null, and
for every round of its loop the address it read and the distance it shifted by. -/
structure VarintCall where
  result : Option (Nat × Nat) := none
  rounds : List (Nat × Nat) := []

/-- The loop of `GetVarint32Ptr` over a memory that answers at every address. -/
def varintLoop (mem : Nat → UInt8) (limit shift result p : Nat) : VarintCall :=
  if shift ≤ 28 ∧ p < limit then
    let byte := (mem p).toNat
    if byte &&& 0x80 ≠ 0 then
      let call := varintLoop mem limit (shift + 7) (result ||| ((byte &&& 0x7f) <<< shift) % 2 ^ 32)
        (p + 1)
      { call with rounds := (p, shift) :: call.rounds }
    else { result := some (result ||| (byte <<< shift) % 2 ^ 32, p + 1), rounds := [(p, shift)] }
  else {}
termination_by 35 - shift

def varintCall (mem : Nat → UInt8) (p limit : Nat) : VarintCall := varintLoop mem limit 0 0 p

/-- `b` stands in memory from address `p` on. -/
def InMemory (mem : Nat → UInt8) (p : Nat) (b : Bytes) : Prop :=
  ∀ i, (h : i < b.length) → mem (p + i) = b[i]

theorem InMemory.head (h : InMemory mem p (x :: b)) : mem p = x := h 0 (Nat.succ_pos _)

theorem InMemory.tail (h : InMemory mem p (x :: b)) : InMemory mem (p + 1) b := by
  intro i hi
  have := h (i + 1) (Nat.succ_lt_succ hi)
  rw [show p + 1 + i = p + (i + 1) by omega, this]
  rfl

theorem high_bit_iff (b : UInt8) : b.toNat &&& 0x80 ≠ 0 ↔ 0x80 ≤ b.toNat := by
  have h : ∀ n : Fin 256, n.1 &&& 0x80 ≠ 0 ↔ 0x80 ≤ n.1 := by decide +kernel
  exact h ⟨b.toNat, b.toNat_lt⟩

theorem varintLoop_rounds (mem : Nat → UInt8) (limit shift result p : Nat) :
    ∀ r ∈ (varintLoop mem limit shift result p).rounds, p ≤ r.1 ∧ r.1 < limit ∧ r.2 < 32 := by
  fun_induction varintLoop mem limit shift result p with
  | case1 shift result p hin byte hmore call ih =>
    intro r hr
    rcases List.mem_cons.1 hr with rfl | hr
    · exact ⟨le_refl p, hin.2, by omega⟩
    · obtain ⟨hp, hlim, hs⟩ := ih r hr
      exact ⟨by omega, hlim, hs⟩
  | case2 shift result p hin byte hlast =>
    intro r hr
    obtain rfl := List.mem_singleton.1 hr
    exact ⟨le_refl p, hin.2, by omega⟩
  | case3 shift result p hout => simp

theorem length_varintLoop_rounds (mem : Nat → UInt8) (limit shift result p : Nat) :
    (varintLoop mem limit shift result p).rounds.length ≤ (35 - shift) / 7 := by
  fun_induction varintLoop mem limit shift result p with
  | case1 shift result p hin byte hmore call ih =>
    have hcall : call.rounds.length ≤ (35 - (shift + 7)) / 7 := ih
    rw [List.length_cons]
    omega
  | case2 shift result p hin byte hlast =>
    rw [List.length_singleton]
    omega
  | case3 shift result p hout => exact Nat.zero_le _

theorem getVarint32Loop_suffix {p rest : Bytes}
    (h : getVarint32Loop n shift result p = some (v, rest)) :
    rest <:+ p ∧ rest.length < p.length := by
  induction n generalizing shift result p with
  | zero => cases h
  | succ n ih =>
    cases p with
    | nil => cases h
    | cons b p =>
      rw [getVarint32Loop] at h
      split at h
      · obtain ⟨hs, hl⟩ := ih h
        exact ⟨hs.trans (List.suffix_cons b p), by rw [List.length_cons]; omega⟩
      · cases h
        exact ⟨List.suffix_cons b rest, by simp⟩

/-- Over the bytes between the pointer and the limit the call computes what
`getVarint32Ptr` does. -/
theorem varintLoop_result (n : Nat) {b : Bytes} (h : InMemory mem p b) (hn : shift + 7 * n = 35) :
    (varintLoop mem (p + b.length) shift result p).result =
      (getVarint32Loop n shift result b).map fun r => (r.1, p + (b.length - r.2.length)) := by
  induction n generalizing shift result p b with
  | zero =>
    rw [varintLoop, if_neg (by omega)]
    rfl
  | succ n ih =>
    cases b with
    | nil =>
      rw [varintLoop, if_neg (by simp)]
      rfl
    | cons x b =>
      have hlen : p + (x :: b).length = p + 1 + b.length := by
        rw [List.length_cons]
        omega
      rw [varintLoop, getVarint32Loop, if_pos ⟨by omega, by simp⟩]
      simp only [h.head, high_bit_iff]
      split
      · rw [hlen]
        refine (ih h.tail (by omega)).trans ?_
        cases hr : getVarint32Loop n (shift + 7)
          (result ||| ((x.toNat &&& 0x7f) <<< shift) % 2 ^ 32) b with
        | none => rfl
        | some r =>
          have hlt := (getVarint32Loop_suffix hr).2
          simp only [Option.map_some, List.length_cons]
          congr 2
          omega
      · simp

/-- A proper prefix of an encoding ends where its last byte still announces another. -/
theorem getVarint32Loop_prefix {q : Bytes} (h : q <+: putVarint32 v) (hne : q ≠ putVarint32 v) :
    getVarint32Loop n shift result q = none := by
  induction v using Nat.strongRecOn generalizing q n shift result with
  | ind v ih =>
    cases n with
    | zero => rfl
    | succ n =>
      cases q with
      | nil => rfl
      | cons x q =>
        by_cases hv : v < 0x80
        · rw [putVarint32_small hv] at h hne
          obtain ⟨rfl, hq⟩ := List.cons_prefix_cons.1 h
          rw [List.prefix_nil.1 hq] at hne
          exact absurd rfl hne
        · rw [putVarint32_large (not_lt.1 hv)] at h hne
          obtain ⟨rfl, hq⟩ := List.cons_prefix_cons.1 h
          have hb : (UInt8.ofNat (v % 128 + 128)).toNat = v % 128 + 128 := by
            rw [UInt8.toNat_ofNat']
            omega
          rw [getVarint32Loop, hb, if_pos (by omega)]
          exact ih (v / 128) (by omega) hq fun he => hne (by rw [he])

/-- `GetVarint32Ptr` reads back what `PutVarint32` wrote and refuses what is cut off, and on any
bytes stays below its limit, its five rounds and the width of its result. -/
theorem varint32_codec :
    (∀ v < 2 ^ 32, ∀ rest mem p, InMemory mem p (putVarint32 v ++ rest) →
      (varintCall mem p (p + (putVarint32 v ++ rest).length)).result =
        some (v, p + (putVarint32 v).length)) ∧
    (∀ v < 2 ^ 32, ∀ q, q <+: putVarint32 v → q ≠ putVarint32 v → ∀ mem p, InMemory mem p q →
      (varintCall mem p (p + q.length)).result = none) ∧
    ∀ mem p limit, (varintCall mem p limit).rounds.length ≤ 5 ∧
      ∀ r ∈ (varintCall mem p limit).rounds, p ≤ r.1 ∧ r.1 < limit ∧ r.2 < 32 := by
  refine ⟨fun v hv rest mem p h => ?_, fun v _ q hq hne mem p h => ?_, fun mem p limit => ⟨?_, ?_⟩⟩
  · rw [varintCall, varintLoop_result 5 h rfl, ← getVarint32Ptr, getVarint32Ptr_put hv]
    simp
  · rw [varintCall, varintLoop_result 5 h rfl, getVarint32Loop_prefix hq hne]
    rfl
  · exact length_varintLoop_rounds mem limit 0 0 p
  · exact varintLoop_rounds mem limit 0 0 p

theorem varint32_codec_three_hundred :
    let mem : Nat → UInt8 := fun p => ([0, 0xac, 2, 7] : Bytes).getD p 0
    (varintCall mem 1 4).result = some (300, 3) ∧ (varintCall mem 1 2).result = none ∧
      (varintCall mem 1 4).rounds.length ≤ 5 := by
  intro mem
  have hput : putVarint32 300 = [0xac, 2] := by simp [putVarint32]
  have hholds : InMemory mem 1 (putVarint32 300 ++ [7]) := by
    rw [hput, InMemory]
    decide
  have hcut : InMemory mem 1 [0xac] := by
    rw [InMemory]
    decide
  have hread := varint32_codec.1 300 (by norm_num) [7] mem 1 hholds
  have hnull := varint32_codec.2.1 300 (by norm_num) [0xac] (by rw [hput]; decide)
    (by rw [hput]; decide) mem 1 hcut
  rw [hput] at hread
  exact ⟨hread, hnull, (varint32_codec.2.2 mem 1 4).1⟩

end LsmKv
