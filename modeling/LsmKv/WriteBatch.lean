import LsmKv.Status
import LsmKv.InternalKey

namespace LsmKv
set_option autoImplicit true

/-- One entry of a batch, as a decoder hands it to its handler. -/
structure BatchEntry where
  type : ValueType
  key : Bytes
  value : Bytes
deriving DecidableEq

structure WriteBatch where
  rep : Bytes := []
  count : Nat := 0
deriving DecidableEq

namespace WriteBatch

def encodeEntry (e : BatchEntry) : Bytes :=
  UInt8.ofNat e.type.code :: (putVarint32 (e.key.length % 2 ^ 32) ++ e.key ++
    (putVarint32 (e.value.length % 2 ^ 32) ++ e.value))

def add (b : WriteBatch) (e : BatchEntry) : WriteBatch :=
  { rep := b.rep ++ encodeEntry e, count := (b.count + 1) % 2 ^ 32 }

def put (b : WriteBatch) (key value : Bytes) : WriteBatch := b.add ⟨.kValue, key, value⟩

/-- A tombstone carries no value; the empty string keeps the encoding uniform. -/
def delete (b : WriteBatch) (key : Bytes) : WriteBatch := b.add ⟨.kDeletion, key, []⟩

def append (b other : WriteBatch) : WriteBatch :=
  { rep := b.rep ++ other.rep, count := (b.count + other.count) % 2 ^ 32 }

def clear (_ : WriteBatch) : WriteBatch := {}

def empty (b : WriteBatch) : Bool := b.count == 0

def approximateSize (b : WriteBatch) : Nat := b.rep.length

def typeOf (b : UInt8) : Option ValueType :=
  if b.toNat = ValueType.kValue.code then some .kValue
  else if b.toNat = ValueType.kDeletion.code then some .kDeletion
  else none

/-- A varint length and that many bytes. -/
def decodeString (p : Bytes) : Option (Bytes × Bytes) :=
  match getVarint32Ptr p with
  | none => none
  | some (len, p) => if p.length < len then none else some (p.take len, p.drop len)

/-- The entries handed to the handler, in order, and the status `Decode` returns. -/
def decode : Bytes → Nat → List BatchEntry × Status
  | p, 0 => ([], if p.isEmpty then .ok else .corruption "write batch has trailing bytes")
  | [], _ + 1 => ([], .corruption "write batch ended early")
  | t :: p, n + 1 =>
    match typeOf t with
    | none => ([], .corruption "write batch has an unknown entry type")
    | some type =>
      match decodeString p with
      | none => ([], .corruption "write batch has a truncated key")
      | some (key, p) =>
        match decodeString p with
        | none => ([], .corruption "write batch has a truncated value")
        | some (value, p) =>
          let rest := decode p n
          (⟨type, key, value⟩ :: rest.1, rest.2)

def forEach (b : WriteBatch) : List BatchEntry × Status := decode b.rep b.count

/-- The batch that a caller's sequence of `Put` and `Delete` calls builds. -/
def ofEntries (es : List BatchEntry) : WriteBatch := es.foldl add {}

/-- The lengths of an entry fit their 32-bit fields, in the batch and in the memtable. -/
def Fits (e : BatchEntry) : Prop := e.key.length + e.value.length + 16 < 2 ^ 32

/-- The lengths of an entry fit their 32-bit fields in the batch. -/
def Short (e : BatchEntry) : Prop := e.key.length < 2 ^ 32 ∧ e.value.length < 2 ^ 32

theorem Fits.short (h : Fits e) : Short e := by
  simp only [Fits] at h
  constructor <;> omega

@[simp] theorem typeOf_code (t : ValueType) : typeOf (UInt8.ofNat t.code) = some t := by
  cases t <;> rfl

theorem decodeString_put (h : s.length < 2 ^ 32) (rest : Bytes) :
    decodeString (putVarint32 (s.length % 2 ^ 32) ++ s ++ rest) = some (s, rest) := by
  rw [Nat.mod_eq_of_lt h, List.append_assoc, decodeString, getVarint32Ptr_put h]
  simp

theorem decode_encodeEntry (h : Short e) (rest : Bytes) (n : Nat) :
    decode (encodeEntry e ++ rest) (n + 1) =
      (e :: (decode rest n).1, (decode rest n).2) := by
  rw [encodeEntry, List.cons_append, List.append_assoc, decode]
  simp only [typeOf_code, decodeString_put h.1, decodeString_put h.2]

theorem decode_flatMap (h : ∀ e ∈ es, Short e) :
    decode (es.flatMap encodeEntry) es.length = (es, .ok) := by
  induction es with
  | nil => rfl
  | cons e es ih =>
    rw [List.flatMap_cons, List.length_cons, decode_encodeEntry (h e List.mem_cons_self),
      ih fun x hx => h x (List.mem_cons_of_mem e hx)]

theorem foldl_add_rep (es : List BatchEntry) (b : WriteBatch) :
    (es.foldl add b).rep = b.rep ++ es.flatMap encodeEntry := by
  induction es generalizing b with
  | nil => simp
  | cons e es ih => simp [ih, add]

theorem foldl_add_count (es : List BatchEntry) (b : WriteBatch) :
    (es.foldl add b).count % 2 ^ 32 = (b.count + es.length) % 2 ^ 32 := by
  induction es generalizing b with
  | nil => rfl
  | cons e es ih =>
    simp only [List.foldl_cons, ih, add, List.length_cons]
    omega

theorem foldl_add_count_lt (hb : b.count < 2 ^ 32) (es : List BatchEntry) :
    (es.foldl add b).count < 2 ^ 32 := by
  induction es generalizing b with
  | nil => exact hb
  | cons e es ih => exact ih (Nat.mod_lt _ (by norm_num))

@[simp] theorem ofEntries_rep (es : List BatchEntry) :
    (ofEntries es).rep = es.flatMap encodeEntry := foldl_add_rep es {}

theorem ofEntries_count (es : List BatchEntry) : (ofEntries es).count = es.length % 2 ^ 32 := by
  have h := foldl_add_count es {}
  rw [Nat.mod_eq_of_lt (foldl_add_count_lt (by norm_num) es)] at h
  simpa [ofEntries] using h

theorem forEach_ofEntries (h : ∀ e ∈ es, Short e) (hn : es.length < 2 ^ 32) :
    (ofEntries es).forEach = (es, .ok) := by
  rw [forEach, ofEntries_rep, ofEntries_count, Nat.mod_eq_of_lt hn, decode_flatMap h]

theorem append_ofEntries (es fs : List BatchEntry) :
    (ofEntries es).append (ofEntries fs) = ofEntries (es ++ fs) := by
  have hr : (ofEntries es).rep ++ (ofEntries fs).rep = (ofEntries (es ++ fs)).rep := by simp
  have hc : ((ofEntries es).count + (ofEntries fs).count) % 2 ^ 32 =
      (ofEntries (es ++ fs)).count := by
    simp only [ofEntries_count, List.length_append]
    omega
  simp only [append, hr, hc]

end WriteBatch

end LsmKv
