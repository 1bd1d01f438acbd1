import LsmKv.Coding

namespace LsmKv
set_option autoImplicit true

def kMaxSequenceNumber : Nat := 2 ^ 56 - 1

inductive ValueType where
  | kDeletion
  | kValue
deriving DecidableEq, Repr

/-- The `uint8_t` behind the enumeration. -/
def ValueType.code : ValueType → Nat
  | .kDeletion => 0
  | .kValue => 1

def kTagSize : Nat := 8

def packTag (seq : Nat) (type : ValueType) : Nat := (seq <<< 8 ||| type.code) % 2 ^ 64

def encodeInternalKey (userKey : Bytes) (seq : Nat) (type : ValueType) : Bytes :=
  userKey ++ putFixed64 (packTag seq type)

def extractUserKey (internalKey : Bytes) : Bytes :=
  internalKey.take (internalKey.length - kTagSize)

def extractTag (internalKey : Bytes) : Nat :=
  decodeFixed64 (internalKey.drop (internalKey.length - kTagSize))

def extractSequence (internalKey : Bytes) : Nat := extractTag internalKey >>> 8

/-- The type byte of the tag; only a comparison with a `ValueType` code is ever made of it. -/
def extractValueType (internalKey : Bytes) : Nat := extractTag internalKey &&& 0xff

/-- User key ascending, then tag descending, so that the newest version of a key sorts first. -/
def compareInternalKey (a b : Bytes) : Ordering :=
  if extractUserKey a < extractUserKey b then .lt
  else if extractUserKey b < extractUserKey a then .gt
  else if extractTag b < extractTag a then .lt
  else if extractTag a < extractTag b then .gt
  else .eq

/-- `CompareInternalKey` with the assertions of `ExtractUserKey` and `ExtractTag`. -/
def compareInternalKey? (a b : Bytes) : Option Ordering :=
  if a.length < kTagSize ∨ b.length < kTagSize then none else some (compareInternalKey a b)

def lookupKey (userKey : Bytes) (seq : Nat) : Bytes := encodeInternalKey userKey seq .kValue

theorem ValueType.code_lt (t : ValueType) : t.code < 2 := by
  cases t <;> decide

theorem compareInternalKey?_eq {a b : Bytes} (ha : kTagSize ≤ a.length) (hb : kTagSize ≤ b.length) :
    compareInternalKey? a b = some (compareInternalKey a b) := by
  rw [compareInternalKey?, if_neg (by omega)]

theorem packTag_eq (h : seq ≤ kMaxSequenceNumber) (t : ValueType) :
    packTag seq t = seq * 256 + t.code := by
  have ht := t.code_lt
  have hlt : t.code < 2 ^ 8 := by omega
  have hor : seq <<< 8 ||| t.code = seq * 256 + t.code := by
    rw [Nat.shiftLeft_eq, Nat.mul_comm, ← Nat.two_pow_add_eq_or_of_lt hlt]
  rw [packTag, hor, Nat.mod_eq_of_lt]
  simp only [kMaxSequenceNumber] at h
  omega

theorem packTag_lt (seq : Nat) (t : ValueType) : packTag seq t < 2 ^ 64 :=
  Nat.mod_lt _ (by norm_num)

@[simp] theorem length_encodeInternalKey (k : Bytes) (seq : Nat) (t : ValueType) :
    (encodeInternalKey k seq t).length = k.length + 8 := by
  simp [encodeInternalKey]

@[simp] theorem extractUserKey_encode (k : Bytes) (seq : Nat) (t : ValueType) :
    extractUserKey (encodeInternalKey k seq t) = k := by
  simp [extractUserKey, kTagSize, encodeInternalKey]

@[simp] theorem extractTag_encode (k : Bytes) (seq : Nat) (t : ValueType) :
    extractTag (encodeInternalKey k seq t) = packTag seq t := by
  have h := decodeFixed64_put (packTag seq t) []
  rw [List.append_nil, Nat.mod_eq_of_lt (packTag_lt seq t)] at h
  simp [extractTag, kTagSize, encodeInternalKey, h]

theorem extractSequence_encode (h : seq ≤ kMaxSequenceNumber) (k : Bytes) (t : ValueType) :
    extractSequence (encodeInternalKey k seq t) = seq := by
  have ht := t.code_lt
  rw [extractSequence, extractTag_encode, packTag_eq h, Nat.shiftRight_eq_div_pow]
  omega

theorem extractValueType_encode (h : seq ≤ kMaxSequenceNumber) (k : Bytes) (t : ValueType) :
    extractValueType (encodeInternalKey k seq t) = t.code := by
  have ht := t.code_lt
  have hm := Nat.and_two_pow_sub_one_eq_mod (seq * 256 + t.code) 8
  norm_num at hm
  rw [extractValueType, extractTag_encode, packTag_eq h, hm]
  omega

/-- The position of an internal key in the order of the store. -/
def sortKey (internalKey : Bytes) : Bytes ×ₗ ℕᵒᵈ :=
  toLex (extractUserKey internalKey, OrderDual.toDual (extractTag internalKey))

theorem sortKey_lt_iff : sortKey a < sortKey b ↔
    extractUserKey a < extractUserKey b ∨
      extractUserKey a = extractUserKey b ∧ extractTag b < extractTag a := by
  simp [sortKey, Prod.Lex.toLex_lt_toLex]

theorem sortKey_eq_iff : sortKey a = sortKey b ↔
    extractUserKey a = extractUserKey b ∧ extractTag a = extractTag b := by
  simp [sortKey]

theorem compareInternalKey_lt : compareInternalKey a b = .lt ↔ sortKey a < sortKey b := by
  rw [sortKey_lt_iff, compareInternalKey]
  rcases lt_trichotomy (extractUserKey a) (extractUserKey b) with h | h | h
  · simp [h]
  · rw [h]
    simp only [lt_irrefl, if_false, true_and, false_or]
    split <;> simp_all
  · simp [h, not_lt_of_gt h, h.ne']

theorem compareInternalKey_gt : compareInternalKey a b = .gt ↔ sortKey b < sortKey a := by
  rw [sortKey_lt_iff, compareInternalKey]
  rcases lt_trichotomy (extractUserKey a) (extractUserKey b) with h | h | h
  · simp [h, not_lt_of_gt h, h.ne']
  · rw [h]
    simp only [lt_irrefl, if_false, true_and, false_or]
    split
    · rename_i hl
      simp [not_lt_of_gt hl]
    · split <;> simp_all
  · simp [h, not_lt_of_gt h]

theorem compareInternalKey_eq : compareInternalKey a b = .eq ↔ sortKey a = sortKey b := by
  constructor
  · intro h
    apply le_antisymm
    · rw [← not_lt, ← compareInternalKey_gt, h]
      simp
    · rw [← not_lt, ← compareInternalKey_lt, h]
      simp
  · intro h
    cases hc : compareInternalKey a b with
    | lt => exact absurd (compareInternalKey_lt.1 hc) (by rw [h]; exact lt_irrefl _)
    | gt => exact absurd (compareInternalKey_gt.1 hc) (by rw [h]; exact lt_irrefl _)
    | eq => rfl

theorem compareInternalKey_swap (a b : Bytes) :
    compareInternalKey b a = (compareInternalKey a b).swap := by
  cases h : compareInternalKey a b with
  | lt => exact compareInternalKey_gt.2 (compareInternalKey_lt.1 h)
  | eq => exact compareInternalKey_eq.2 (compareInternalKey_eq.1 h).symm
  | gt => exact compareInternalKey_lt.2 (compareInternalKey_gt.1 h)

theorem sortKey_inj (ha : 8 ≤ a.length) (hb : 8 ≤ b.length) (h : sortKey a = sortKey b) :
    a = b := by
  obtain ⟨hu, ht⟩ := sortKey_eq_iff.1 h
  have hla : (a.drop (a.length - 8)).length = 8 := by simp; omega
  have hlb : (b.drop (b.length - 8)).length = 8 := by simp; omega
  have hd : a.drop (a.length - 8) = b.drop (b.length - 8) := by
    apply leNat_inj (hla.trans hlb.symm)
    have h1 := List.take_of_length_le hla.le
    have h2 := List.take_of_length_le hlb.le
    simpa only [extractTag, kTagSize, decodeFixed64, h1, h2] using ht
  have ht' : a.take (a.length - 8) = b.take (b.length - 8) := hu
  rw [← List.take_append_drop (a.length - 8) a, ht', hd, List.take_append_drop]

theorem sortKey_encode_lt (ha : s ≤ kMaxSequenceNumber) (hb : s' ≤ kMaxSequenceNumber) :
    sortKey (encodeInternalKey k s t) < sortKey (encodeInternalKey k' s' t') ↔
      k < k' ∨ k = k' ∧ (s' < s ∨ s' = s ∧ t'.code < t.code) := by
  have h1 := t.code_lt
  have h2 := t'.code_lt
  simp only [sortKey_lt_iff, extractUserKey_encode, extractTag_encode, packTag_eq ha,
    packTag_eq hb]
  constructor <;> rintro (h | ⟨h, h'⟩)
  · exact .inl h
  · exact .inr ⟨h, by omega⟩
  · exact .inl h
  · exact .inr ⟨h, by omega⟩

end LsmKv
