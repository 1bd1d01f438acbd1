import LsmKv.Block

namespace LsmKv
set_option autoImplicit true

namespace BlockBuilder

theorem sharedLength_le_left (a b : Bytes) : sharedLength a b ≤ a.length := by
  induction a, b using sharedLength.induct with
  | case1 a as bs ih => simpa [sharedLength] using ih
  | case2 a as b bs h => simp [sharedLength, h]
  | case3 a b h => simp [sharedLength]

theorem sharedLength_le_right (a b : Bytes) : sharedLength a b ≤ b.length := by
  induction a, b using sharedLength.induct with
  | case1 a as bs ih => simpa [sharedLength] using ih
  | case2 a as b bs h => simp [sharedLength, h]
  | case3 a b h => simp [sharedLength]

theorem take_sharedLength (a b : Bytes) :
    a.take (sharedLength a b) = b.take (sharedLength a b) := by
  induction a, b using sharedLength.induct with
  | case1 a as bs ih => simpa [sharedLength] using ih
  | case2 a as b bs h => simp [sharedLength, h]
  | case3 a b h => simp [sharedLength]

/-- The prefix an entry leaves out, `since` entries after a restart. -/
def sharedAt (n since : Nat) (last key : Bytes) : Nat :=
  if since < n then sharedLength last key else 0

/-- Entries since the last restart, once one more is added. -/
def sinceNext (n since : Nat) : Nat := (if since < n then since else 0) + 1

/-- The entry region that entries `es` add to a block with restart interval `n`. -/
def body (n : Nat) : Nat → Bytes → List Rec → Bytes
  | _, _, [] => []
  | since, last, e :: es =>
    encodeEntry (sharedAt n since last e.1) e.1 e.2 ++
      body n (sinceNext n since) e.1 es

/-- The restart points that those entries add: where each begins, and what follows it. -/
def points (n : Nat) : Nat → Nat → Bytes → List Rec → List (Nat × List Rec)
  | _, _, _, [] => []
  | since, off, last, e :: es =>
    let rest := points n (sinceNext n since)
      (off + (encodeEntry (sharedAt n since last e.1) e.1 e.2).length) e.1 es
    if since < n then rest else (off, e :: es) :: rest

def addAll (b : BlockBuilder) (es : List Rec) : BlockBuilder :=
  es.foldl (fun b e => b.add e.1 e.2) b

theorem addAll_cons (b : BlockBuilder) (e : Rec) (es : List Rec) :
    b.addAll (e :: es) = (b.add e.1 e.2).addAll es := rfl

theorem addAll_append (b : BlockBuilder) (es fs : List Rec) :
    b.addAll (es ++ fs) = (b.addAll es).addAll fs := List.foldl_append

theorem addAll_interval (b : BlockBuilder) (es : List Rec) :
    (b.addAll es).restartInterval = b.restartInterval := by
  induction es generalizing b with
  | nil => rfl
  | cons e es ih => rw [addAll_cons, ih]; rfl

theorem addAll_entries (b : BlockBuilder) (es : List Rec) :
    (b.addAll es).entries = b.entries + es.length := by
  induction es generalizing b with
  | nil => rfl
  | cons e es ih =>
    rw [addAll_cons, ih, List.length_cons]
    show b.entries + 1 + es.length = b.entries + (es.length + 1)
    omega

theorem addAll_buffer (b : BlockBuilder) (es : List Rec) :
    (b.addAll es).buffer = b.buffer ++ body b.restartInterval b.sinceRestart b.lastKey es := by
  induction es generalizing b with
  | nil => simp [addAll, body]
  | cons e es ih =>
    rw [addAll_cons, ih, body, ← List.append_assoc]
    rfl

theorem addAll_restarts (b : BlockBuilder) (es : List Rec) :
    (b.addAll es).restarts = b.restarts ++
      (points b.restartInterval b.sinceRestart b.buffer.length b.lastKey es).map
        fun p => p.1 % 2 ^ 32 := by
  induction es generalizing b with
  | nil => simp [addAll, points]
  | cons e es ih =>
    have hl : (b.add e.1 e.2).buffer.length = b.buffer.length +
        (encodeEntry (sharedAt b.restartInterval b.sinceRestart b.lastKey e.1) e.1 e.2).length := by
      rw [← List.length_append]
      rfl
    rw [addAll_cons, ih, hl, points]
    simp only [add, sinceNext]
    split <;> simp

/-- Nothing of the entry before it is needed to read an entry that begins a restart run. -/
theorem body_restart (h : n ≤ since) (last : Bytes) (es : List Rec) :
    body n since last es = body n n [] es := by
  cases es with
  | nil => rfl
  | cons e es => simp [body, sharedAt, sinceNext, Nat.not_lt.2 h]

theorem body_start (h : 0 < n) (es : List Rec) : body n 0 [] es = body n n [] es := by
  cases es with
  | nil => rfl
  | cons e es => simp [body, sharedAt, sinceNext, sharedLength, h]

theorem points_spec (h : p ∈ points n since off last es) :
    off ≤ p.1 ∧ p.2 ≠ [] ∧ p.2 <:+ es ∧
      (body n since last es).drop (p.1 - off) = body n n [] p.2 := by
  induction es generalizing since off last with
  | nil => cases h
  | cons e es ih =>
    rw [points] at h
    have hrec (hq : p ∈ points n (sinceNext n since)
        (off + (encodeEntry (sharedAt n since last e.1) e.1 e.2).length) e.1 es) :
        off ≤ p.1 ∧ p.2 ≠ [] ∧ p.2 <:+ e :: es ∧
          (body n since last (e :: es)).drop (p.1 - off) = body n n [] p.2 := by
      obtain ⟨h1, h2, h3, h4⟩ := ih hq
      refine ⟨by omega, h2, h3.trans (List.suffix_cons e es), ?_⟩
      rw [body, ← h4, List.drop_append, List.drop_of_length_le (by omega), List.nil_append]
      congr 1
      omega
    split at h
    · exact hrec h
    · rename_i hs
      rcases List.mem_cons.1 h with rfl | h
      · exact ⟨le_refl _, by simp, List.suffix_refl _, by
          rw [Nat.sub_self, List.drop_zero, body_restart (Nat.not_lt.1 hs)]⟩
      · exact hrec h

end BlockBuilder

/-- The contents of the block built from `es`. -/
def blockBytes (interval : Int) (es : List Rec) : Bytes :=
  ((BlockBuilder.new interval).addAll es).finish

theorem BlockBuilder.new_interval_pos (interval : Int) :
    0 < (BlockBuilder.new interval).restartInterval := by
  simp only [new]
  split
  · exact Nat.one_pos
  · omega

namespace BlockReader
open BlockBuilder

theorem parseLengths_encodeEntry {k v : Bytes} (hs : shared < 2 ^ 32) (hk : k.length < 2 ^ 32)
    (hv : v.length < 2 ^ 32) (rest : Bytes) :
    parseLengths (encodeEntry shared k v ++ rest) =
      some (shared, k.length - shared, v.length, k.drop shared ++ (v ++ rest)) := by
  have hn : k.length - shared < 2 ^ 32 := lt_of_le_of_lt (Nat.sub_le k.length shared) hk
  simp only [parseLengths, encodeEntry, List.append_assoc, Nat.mod_eq_of_lt hs,
    Nat.mod_eq_of_lt hv, Nat.mod_eq_of_lt hn, getVarint32Ptr_put hs, getVarint32Ptr_put hv,
    getVarint32Ptr_put hn]

theorem encodeEntry_length_pos (shared : Nat) (k v : Bytes) :
    0 < (encodeEntry shared k v).length := by
  have h := length_putVarint32_pos (shared % 2 ^ 32)
  simp only [encodeEntry, List.length_append]
  omega

theorem length_le_encodeEntry (shared : Nat) (k v : Bytes) :
    k.length - shared + v.length ≤ (encodeEntry shared k v).length := by
  simp only [encodeEntry, List.length_append, List.length_drop]
  omega

/-- Parsing at the start of an entry, with a key that agrees with the shared prefix. -/
theorem parseEntryAt_entry {r : BlockReader} {e : Rec}
    (hreg : r.region offset = encodeEntry shared e.1 e.2 ++ rest)
    (hsize : offset + (encodeEntry shared e.1 e.2 ++ rest).length = r.entriesSize)
    (hlt : r.entriesSize < 2 ^ 32) (hle : shared ≤ e.1.length) (hkey : shared ≤ r.key.length)
    (htake : r.key.take shared = e.1.take shared) (hk : e.1.length < 2 ^ 32) :
    r.parseEntryAt offset = { r with
      key := e.1, value := e.2, current := offset,
      next := offset + (encodeEntry shared e.1 e.2).length, valid := true } := by
  have hpos := encodeEntry_length_pos shared e.1 e.2
  have hlen := length_le_encodeEntry shared e.1 e.2
  rw [List.length_append] at hsize
  have hv : e.2.length < 2 ^ 32 := by omega
  have hp := parseLengths_encodeEntry (by omega : shared < 2 ^ 32) hk hv rest
  have hplen : (e.1.drop shared ++ (e.2 ++ rest)).length =
      e.1.length - shared + e.2.length + rest.length := by
    simp
    omega
  have hsum : (e.1.length - shared + e.2.length) % 2 ^ 32 = e.1.length - shared + e.2.length :=
    Nat.mod_eq_of_lt (by omega)
  rw [parseEntryAt, if_neg (by omega), hreg, hp]
  simp only [hplen, hsum]
  rw [if_neg (by omega), if_neg (by omega)]
  congr 1
  · rw [Nat.mod_eq_of_lt (by omega)]
    omega
  · rw [htake, List.take_left' (by simp), List.take_append_drop]
  · rw [List.drop_left' (by simp), List.take_left' rfl]

end BlockReader

end LsmKv
