import LsmKv.Record
import LsmKv.WriteBatch

namespace LsmKv
set_option autoImplicit true

/-- The memtable's records in the order of its skip list, each one buffer: length-prefixed
internal key, then length-prefixed value. -/
structure MemTable where
  entries : List Bytes := []

namespace MemTable

def decodeEntryKey (entry : Bytes) : Bytes :=
  match getLengthPrefixed entry with
  | some (key, _) => key
  | none => []

def decodeEntryValue (entry : Bytes) : Bytes :=
  match getLengthPrefixed entry with
  | some (_, rest) =>
    match getLengthPrefixed rest with
    | some (value, _) => value
    | none => []
  | none => []

def compareEntry (a b : Bytes) : Ordering :=
  compareInternalKey (decodeEntryKey a) (decodeEntryKey b)

/-- `SkipList::Insert`: the new node goes before the first one that is not smaller. Its length field
has 32 bits, and its key is as long as that field says. -/
def insert (t : MemTable) (entry : Bytes) : MemTable where
  entries := t.entries.takeWhile (fun e => compareEntry e entry == .lt) ++
    entry.take (entry.length % 2 ^ 32) :: t.entries.dropWhile fun e => compareEntry e entry == .lt

def add (t : MemTable) (seq : Nat) (type : ValueType) (key value : Bytes) : MemTable :=
  t.insert (putLengthPrefixed (encodeInternalKey key seq type) ++ putLengthPrefixed value)

/-- The entries from the first one at or after an internal key. -/
def seek (t : MemTable) (target : Bytes) : List Bytes :=
  let seekBuf := putLengthPrefixed target ++ putFixed32 0
  t.entries.dropWhile fun e => compareEntry e seekBuf == .lt

def isEmpty (t : MemTable) : Bool := t.entries.isEmpty

def get (t : MemTable) (key : Bytes) (seq : Nat) : Option (Except Status Bytes) :=
  match t.seek (lookupKey key seq) with
  | [] => none
  | e :: _ =>
    let found := decodeEntryKey e
    if extractUserKey found ≠ key then none
    else if extractValueType found = ValueType.kDeletion.code then some (.error .notFound)
    else some (.ok (decodeEntryValue e))

/-- The records a `MemTable::Iterator` walks over. -/
def recs (t : MemTable) : List Rec :=
  t.entries.map fun e => (decodeEntryKey e, decodeEntryValue e)

theorem decodeEntryKey_put (h : k.length < 2 ^ 32) (rest : Bytes) :
    decodeEntryKey (putLengthPrefixed k ++ rest) = k := by
  rw [decodeEntryKey, getLengthPrefixed_put h]

theorem decodeEntryValue_put (h : k.length < 2 ^ 32) (hv : v.length < 2 ^ 32) :
    decodeEntryValue (putLengthPrefixed k ++ putLengthPrefixed v) = v := by
  have hn := getLengthPrefixed_put hv []
  rw [List.append_nil] at hn
  rw [decodeEntryValue, getLengthPrefixed_put h]
  simp only [hn]

theorem compareEntry_lt (e : Bytes) (h : k.length < 2 ^ 32) (rest : Bytes) :
    (compareEntry e (putLengthPrefixed k ++ rest) == .lt) =
      decide (sortKey (decodeEntryKey e) < sortKey k) := by
  rw [compareEntry, decodeEntryKey_put h, Bool.eq_iff_iff, beq_iff_eq, compareInternalKey_lt,
    decide_eq_true_iff]

@[simp] theorem recs_empty : recs {} = [] := rfl

theorem recs_eq_nil (t : MemTable) : t.recs = [] ↔ t.isEmpty = true := by
  simp [recs, isEmpty]

theorem take_of_fits {entry : Bytes} (h : entry.length < 2 ^ 32) :
    entry.take (entry.length % 2 ^ 32) = entry := by
  rw [Nat.mod_eq_of_lt h, List.take_length]

/-- The new node goes between the smaller ones and the others. -/
theorem entries_add (t : MemTable) (s : Nat) (ty : ValueType)
    (h : k.length + v.length + 16 < 2 ^ 32) :
    ∃ entry, (decodeEntryKey entry, decodeEntryValue entry) = Rec.encode k s ty v ∧
      (t.add s ty k v).entries =
        t.entries.takeWhile (fun e => decide (Rec.pos (decodeEntryKey e, decodeEntryValue e) <
          Rec.pos (Rec.encode k s ty v))) ++
        entry :: t.entries.dropWhile
        fun e => decide (Rec.pos (decodeEntryKey e, decodeEntryValue e) <
          Rec.pos (Rec.encode k s ty v)) := by
  have hk' : (encodeInternalKey k s ty).length < 2 ^ 32 := by
    rw [length_encodeInternalKey]
    omega
  have hv : v.length < 2 ^ 32 := by omega
  have hlen : (putLengthPrefixed (encodeInternalKey k s ty) ++ putLengthPrefixed v).length <
      2 ^ 32 := by
    simp only [putLengthPrefixed, List.length_append, length_putFixed32, length_encodeInternalKey]
    omega
  have hp : ∀ e, (compareEntry e (putLengthPrefixed (encodeInternalKey k s ty) ++
      putLengthPrefixed v) == .lt) =
      decide (Rec.pos (decodeEntryKey e, decodeEntryValue e) < Rec.pos (Rec.encode k s ty v)) :=
    fun e => compareEntry_lt e hk' _
  refine ⟨putLengthPrefixed (encodeInternalKey k s ty) ++ putLengthPrefixed v, ?_, ?_⟩
  · rw [decodeEntryKey_put hk', decodeEntryValue_put hk' hv]
    rfl
  · simp only [add, insert, take_of_fits hlen, hp]

theorem recs_add (t : MemTable) (s : Nat) (ty : ValueType) (h : k.length + v.length + 16 < 2 ^ 32) :
    (t.add s ty k v).recs = insertRun Rec.pos (Rec.encode k s ty v) t.recs := by
  obtain ⟨entry, hr, he⟩ := t.entries_add s ty h
  simp only [recs, he, insertRun, List.map_append, List.map_cons, hr, List.takeWhile_map,
    List.dropWhile_map, Function.comp_def]

theorem get_eq (t : MemTable) (hk : k.length + 8 < 2 ^ 32) (s : Nat) :
    t.get k s = (findVersion t.recs k s).map Rec.answer := by
  have hk' : (lookupKey k s).length < 2 ^ 32 := by simpa [lookupKey] using hk
  have hseek : seekTo Rec.pos (sortKey (lookupKey k s)) t.recs =
      (t.seek (lookupKey k s)).map fun e => (decodeEntryKey e, decodeEntryValue e) := by
    have hp : ∀ e, (compareEntry e (putLengthPrefixed (lookupKey k s) ++ putFixed32 0) == .lt) =
        decide (Rec.pos (decodeEntryKey e, decodeEntryValue e) < sortKey (lookupKey k s)) :=
      fun e => compareEntry_lt e hk' _
    simp only [seek, seekTo, recs, List.dropWhile_map, Function.comp_def, hp]
  rw [get, findVersion, hseek]
  cases t.seek (lookupKey k s) with
  | nil => rfl
  | cons e rest =>
    simp only [List.map_cons, Rec.userKey]
    by_cases hu : extractUserKey (decodeEntryKey e) = k
    · simp only [hu, ne_eq, not_true_eq_false, if_false, if_true, Option.map_some, Rec.answer,
        Rec.isDeletion, beq_iff_eq]
      split <;> rfl
    · simp [hu]

end MemTable

end LsmKv
