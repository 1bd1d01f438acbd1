import LsmKv.WriteBatch

namespace LsmKv
set_option autoImplicit true

/-- The base-128 digits of a number, least significant first; all but the last byte have their
high bit set. -/
inductive Digits : Bytes → Nat → Prop where
  | last (h : b.toNat < 128) : Digits [b] b.toNat
  | more (h : 128 ≤ b.toNat) (hd : Digits bs v) : Digits (b :: bs) (b.toNat % 128 + 128 * v)

/-- A varint of at most five bytes. The bits above the 32nd are lost. -/
def Varint32 (bytes : Bytes) (value : Nat) : Prop :=
  ∃ v, Digits bytes v ∧ bytes.length ≤ 5 ∧ value = v % 2 ^ 32

/-- One entry as it stands in a batch. -/
def EntryBytes (e : BatchEntry) (bytes : Bytes) : Prop :=
  ∃ k v, Varint32 k e.key.length ∧ Varint32 v e.value.length ∧
    bytes = UInt8.ofNat e.type.code :: (k ++ (e.key ++ (v ++ e.value)))

/-- The bytes are those of the entries, one after the other. -/
def BatchBytes (es : List BatchEntry) (bytes : Bytes) : Prop :=
  ∃ parts, List.Forall₂ EntryBytes es parts ∧ bytes = parts.flatten

theorem or_shift_digit (result byte v shift : Nat) :
    result ||| ((byte &&& 0x7f) <<< shift) % 2 ^ 32 ||| (v <<< (shift + 7)) % 2 ^ 32 =
      result ||| ((byte % 128 + 128 * v) <<< shift) % 2 ^ 32 := by
  have hand : byte &&& 0x7f = byte % 128 := Nat.and_two_pow_sub_one_eq_mod byte 7
  have hlow : byte % 128 < 2 ^ 7 := Nat.mod_lt _ (by norm_num)
  have hor : byte % 128 + 128 * v = (v <<< 7) ||| (byte % 128) := by
    rw [Nat.shiftLeft_eq, Nat.mul_comm v, ← Nat.two_pow_add_eq_or_of_lt hlow]
    omega
  rw [hand, hor, Nat.or_assoc, ← Nat.or_mod_two_pow, Nat.shiftLeft_or_distrib,
    ← Nat.shiftLeft_add, Nat.add_comm shift 7, Nat.or_comm (_ <<< shift)]

/-- The loop reads one varint, of as many bytes as it has rounds left. -/
theorem getVarint32Loop_eq_some {p rest : Bytes} :
    getVarint32Loop n shift result p = some (value, rest) ↔
      ∃ b v, p = b ++ rest ∧ Digits b v ∧ b.length ≤ n ∧
        value = result ||| (v <<< shift) % 2 ^ 32 := by
  induction n generalizing shift result p with
  | zero =>
    rw [getVarint32Loop]
    refine ⟨fun h => (by cases h), ?_⟩
    rintro ⟨b, v, _, hd, hl, _⟩
    cases hd <;> cases hl
  | succ n ih =>
    cases p with
    | nil =>
      rw [getVarint32Loop]
      refine ⟨fun h => (by cases h), ?_⟩
      rintro ⟨b, v, hp, hd, _⟩
      cases hd <;> cases hp
    | cons byte p =>
      rw [getVarint32Loop]
      by_cases hb : 0x80 ≤ byte.toNat
      · simp only [hb, if_true]
        rw [ih]
        constructor
        · rintro ⟨b, v, rfl, hd, hl, rfl⟩
          exact ⟨byte :: b, _, rfl, .more hb hd, Nat.succ_le_succ hl, or_shift_digit ..⟩
        · rintro ⟨b, v, hp, hd, hl, rfl⟩
          cases hd with
          | last h =>
            cases hp
            omega
          | more h hd =>
            cases hp
            exact ⟨_, _, rfl, hd, Nat.le_of_succ_le_succ hl, (or_shift_digit ..).symm⟩
      · simp only [hb, if_false, Option.some.injEq, Prod.mk.injEq]
        constructor
        · rintro ⟨rfl, rfl⟩
          exact ⟨[byte], _, rfl, .last (by omega), by simp, rfl⟩
        · rintro ⟨b, v, hp, hd, hl, rfl⟩
          cases hd with
          | last h =>
            cases hp
            exact ⟨rfl, rfl⟩
          | more h hd =>
            cases hp
            exact absurd h hb

theorem getVarint32Ptr_eq_some {p rest : Bytes} :
    getVarint32Ptr p = some (value, rest) ↔ ∃ b, p = b ++ rest ∧ Varint32 b value := by
  rw [getVarint32Ptr, getVarint32Loop_eq_some]
  constructor
  · rintro ⟨b, v, hp, hd, hl, rfl⟩
    exact ⟨b, hp, v, hd, hl, by simp⟩
  · rintro ⟨b, hp, v, hd, hl, rfl⟩
    exact ⟨b, v, hp, hd, hl, by simp⟩

namespace WriteBatch

theorem decodeString_eq_some {p s rest : Bytes} :
    decodeString p = some (s, rest) ↔ ∃ b, p = b ++ (s ++ rest) ∧ Varint32 b s.length := by
  rw [decodeString]
  constructor
  · intro h
    split at h
    · cases h
    · rename_i len q hv
      obtain ⟨b, rfl, hb⟩ := getVarint32Ptr_eq_some.1 hv
      split at h
      · cases h
      · rename_i hlen
        cases h
        refine ⟨b, by rw [List.take_append_drop], ?_⟩
        rwa [List.length_take, min_eq_left (not_lt.1 hlen)]
  · rintro ⟨b, rfl, hb⟩
    have hv : getVarint32Ptr (b ++ (s ++ rest)) = some (s.length, s ++ rest) :=
      getVarint32Ptr_eq_some.2 ⟨b, rfl, hb⟩
    rw [hv]
    simp

theorem typeOf_eq_some : typeOf b = some t ↔ b = UInt8.ofNat t.code := by
  constructor
  · intro h
    apply UInt8.toNat_inj.1
    rw [typeOf] at h
    split at h
    · rename_i hb
      cases h
      exact hb
    · split at h
      · rename_i hb
        cases h
        exact hb
      · cases h
  · rintro rfl
    exact typeOf_code t

theorem decode_zero_ok {p : Bytes} : decode p 0 = (es, .ok) ↔ es = [] ∧ p = [] := by
  have hbad : Status.corruption "write batch has trailing bytes" ≠ .ok := by decide
  cases p with
  | nil => simp [decode, eq_comm]
  | cons b p => simp [decode, hbad]

theorem refused {m : String} : ¬ (([], .corruption m) : List BatchEntry × Status) = (es, .ok) := by
  intro h
  cases h

/-- A round of the loop that succeeds takes the bytes of one entry. -/
theorem decode_succ_ok {p : Bytes} : decode p (n + 1) = (es, .ok) ↔
    ∃ e b rest fs, es = e :: fs ∧ p = b ++ rest ∧ EntryBytes e b ∧ decode rest n = (fs, .ok) := by
  constructor
  · intro h
    cases p with
    | nil => exact absurd h refused
    | cons t p =>
      rw [decode] at h
      split at h
      · exact absurd h refused
      · rename_i type ht
        split at h
        · exact absurd h refused
        · rename_i key q hk
          split at h
          · exact absurd h refused
          · rename_i value r hv
            rw [Prod.mk.injEq] at h
            obtain ⟨rfl, hok⟩ := h
            obtain ⟨kb, rfl, hkb⟩ := decodeString_eq_some.1 hk
            obtain ⟨vb, rfl, hvb⟩ := decodeString_eq_some.1 hv
            refine ⟨⟨type, key, value⟩, _, r, _, rfl, ?_, ⟨kb, vb, hkb, hvb, rfl⟩,
              Prod.ext rfl hok⟩
            simp [typeOf_eq_some.1 ht]
  · rintro ⟨e, b, rest, fs, rfl, rfl, ⟨kb, vb, hkb, hvb, rfl⟩, hrest⟩
    have hk : decodeString (kb ++ (e.key ++ (vb ++ (e.value ++ rest)))) =
        some (e.key, vb ++ (e.value ++ rest)) := decodeString_eq_some.2 ⟨kb, rfl, hkb⟩
    have hv : decodeString (vb ++ (e.value ++ rest)) = some (e.value, rest) :=
      decodeString_eq_some.2 ⟨vb, rfl, hvb⟩
    simp only [List.cons_append, List.append_assoc, decode, typeOf_code, hk, hv, hrest]

/-- `Decode` accepts exactly the bytes of `count` entries, and delivers those. -/
theorem decode_eq_ok {p : Bytes} :
    decode p n = (es, .ok) ↔ es.length = n ∧ BatchBytes es p := by
  induction n generalizing p es with
  | zero =>
    rw [decode_zero_ok, List.length_eq_zero_iff]
    constructor
    · rintro ⟨rfl, rfl⟩
      exact ⟨rfl, [], .nil, rfl⟩
    · rintro ⟨rfl, parts, hparts, rfl⟩
      cases hparts
      exact ⟨rfl, rfl⟩
  | succ n ih =>
    rw [decode_succ_ok]
    constructor
    · rintro ⟨e, b, rest, fs, rfl, rfl, he, hrest⟩
      obtain ⟨hlen, parts, hparts, rfl⟩ := ih.1 hrest
      exact ⟨by rw [List.length_cons, hlen], b :: parts, .cons he hparts, rfl⟩
    · rintro ⟨hlen, parts, hparts, rfl⟩
      cases hparts with
      | nil => cases hlen
      | cons he hparts =>
        rw [List.length_cons, Nat.succ_inj] at hlen
        exact ⟨_, _, _, _, rfl, rfl, he, ih.2 ⟨hlen, _, hparts, rfl⟩⟩

theorem decode_status (p : Bytes) (n : Nat) :
    (decode p n).2 = .ok ∨ ∃ m, (decode p n).2 = .corruption m := by
  induction n generalizing p with
  | zero =>
    cases p with
    | nil => exact .inl rfl
    | cons b p => exact .inr ⟨_, rfl⟩
  | succ n ih =>
    cases p with
    | nil => exact .inr ⟨_, rfl⟩
    | cons t p =>
      rw [decode]
      split
      · exact .inr ⟨_, rfl⟩
      · split
        · exact .inr ⟨_, rfl⟩
        · split
          · exact .inr ⟨_, rfl⟩
          · exact ih _

end WriteBatch

/-- The loop of `GetVarint32Ptr` at position `p` of `b`, below `limit`. The outer `none` is a read
outside `b`, the inner one the null pointer. -/
def getVarint32Loop? (b : Bytes) (limit : Nat) :
    Nat → Nat → Nat → Nat → Option (Option (Nat × Nat))
  | 0, _, _, _ => some none
  | n + 1, shift, result, p =>
    if p < limit then do
      let byte ← b[p]?
      if 0x80 ≤ byte.toNat then
        getVarint32Loop? b limit n (shift + 7)
          (result ||| ((byte.toNat &&& 0x7f) <<< shift) % 2 ^ 32) (p + 1)
      else some (some (result ||| (byte.toNat <<< shift) % 2 ^ 32, p + 1))
    else some none

namespace WriteBatch

/-- A length and the view of that many bytes behind it. -/
def decodeString? (b : Bytes) (p : Nat) : Option (Option (Bytes × Nat)) := do
  match ← getVarint32Loop? b b.length 5 0 0 p with
  | none => some none
  | some (len, p) =>
    if b.length - p < len then some none
    else do
      let view ← slice b p len
      some (some (view, p + len))

/-- `Decode` with its accesses checked: `p` is the position of its pointer. -/
def decode? (b : Bytes) : Nat → Nat → Option (List BatchEntry × Status)
  | 0, p =>
    some ([], if p ≠ b.length then .corruption "write batch has trailing bytes" else .ok)
  | n + 1, p =>
    if b.length ≤ p then some ([], .corruption "write batch ended early")
    else do
      let t ← b[p]?
      match typeOf t with
      | none => some ([], .corruption "write batch has an unknown entry type")
      | some type =>
        match ← decodeString? b (p + 1) with
        | none => some ([], .corruption "write batch has a truncated key")
        | some (key, p) =>
          match ← decodeString? b p with
          | none => some ([], .corruption "write batch has a truncated value")
          | some (value, p) => do
            let rest ← decode? b n p
            some (⟨type, key, value⟩ :: rest.1, rest.2)

end WriteBatch

section Inside
variable {b : Bytes}

/-- A position in `b` for what is left of it. -/
def placeIn (b : Bytes) (r : α × Bytes) : α × Nat := (r.1, b.length - r.2.length)

theorem getVarint32Loop?_eq (n shift result p : Nat) (hp : p ≤ b.length) :
    getVarint32Loop? b b.length n shift result p =
      some ((getVarint32Loop n shift result (b.drop p)).map (placeIn b)) := by
  induction n generalizing shift result p with
  | zero => rfl
  | succ n ih =>
    rw [getVarint32Loop?]
    by_cases hlt : p < b.length
    · rw [if_pos hlt, List.getElem?_eq_getElem hlt, List.drop_eq_getElem_cons hlt, getVarint32Loop]
      simp only [Option.bind_eq_bind, Option.bind_some]
      split
      · exact ih _ _ _ hlt
      · simp only [Option.map_some, placeIn, List.length_drop]
        congr 3
        omega
    · have hnil : b.drop p = [] := List.drop_eq_nil_iff.2 (not_lt.1 hlt)
      rw [if_neg hlt, hnil]
      rfl

theorem eq_drop_of_append {used rest : Bytes} (h : b.drop p = used ++ rest) :
    rest = b.drop (b.length - rest.length) ∧ rest.length ≤ b.length := by
  have hsuf : rest <:+ b := ⟨b.take p ++ used, by
    rw [List.append_assoc, ← h, List.take_append_drop]⟩
  exact ⟨List.suffix_iff_eq_drop.1 hsuf, hsuf.length_le⟩

namespace WriteBatch

theorem decodeString?_eq (hp : p ≤ b.length) :
    decodeString? b p = some ((decodeString (b.drop p)).map (placeIn b)) := by
  rw [decodeString?, getVarint32Loop?_eq _ _ _ _ hp, decodeString, getVarint32Ptr]
  cases hv : getVarint32Loop 5 0 0 (b.drop p) with
  | none => rfl
  | some r =>
    obtain ⟨len, q⟩ := r
    obtain ⟨used, _, hb, _⟩ := getVarint32Loop_eq_some.1 hv
    obtain ⟨hq, hle⟩ := eq_drop_of_append hb
    have hleft : b.length - (b.length - q.length) = q.length := by omega
    simp only [Option.map_some, placeIn, Option.bind_eq_bind, Option.bind_some, hleft]
    by_cases hlen : q.length < len
    · simp only [hlen, if_true, Option.map_none]
    · have hview : slice b (b.length - q.length) len = some (q.take len) := by
        rw [slice_eq (by omega), ← hq]
      simp only [hlen, if_false, hview, Option.bind_some, Option.map_some, placeIn,
        List.length_drop]
      congr 3
      omega

theorem decodeString_suffix {q : Bytes} (h : decodeString (b.drop p) = some (s, q)) :
    q = b.drop (b.length - q.length) ∧ b.length - q.length ≤ b.length := by
  obtain ⟨used, hb, _⟩ := decodeString_eq_some.1 h
  rw [← List.append_assoc] at hb
  exact ⟨(eq_drop_of_append hb).1, Nat.sub_le ..⟩

/-- `Decode` reads inside its string only. -/
theorem decode?_eq (n : Nat) (hp : p ≤ b.length) : decode? b n p = some (decode (b.drop p) n) := by
  induction n generalizing p with
  | zero =>
    by_cases hend : p = b.length
    · simp [decode?, decode, hend]
    · have hne : b.drop p ≠ [] := by
        rw [Ne, List.drop_eq_nil_iff]
        omega
      simp [decode?, decode, hend, hne]
  | succ n ih =>
    rw [decode?]
    by_cases hlt : p < b.length
    · rw [if_neg (not_le.2 hlt), List.getElem?_eq_getElem hlt,
        List.drop_eq_getElem_cons hlt, decode]
      simp only [Option.bind_eq_bind, Option.bind_some]
      cases typeOf b[p] with
      | none => rfl
      | some type =>
        simp only [decodeString?_eq (Nat.succ_le_of_lt hlt), Option.bind_some]
        cases hk : decodeString (b.drop (p + 1)) with
        | none => rfl
        | some r =>
          obtain ⟨key, q⟩ := r
          obtain ⟨hq, hqle⟩ := decodeString_suffix hk
          simp only [Option.map_some, placeIn, decodeString?_eq hqle, Option.bind_some, ← hq]
          cases hv : decodeString q with
          | none => rfl
          | some r =>
            obtain ⟨value, r⟩ := r
            rw [hq] at hv
            obtain ⟨hr, hrle⟩ := decodeString_suffix hv
            simp only [Option.map_some, placeIn, ih hrle, Option.bind_some, ← hr]
    · have hnil : b.drop p = [] := List.drop_eq_nil_iff.2 (not_lt.1 hlt)
      rw [if_pos (not_lt.1 hlt), hnil]
      rfl

end WriteBatch

end Inside

namespace WriteBatch

/-- The batches that `Put`, `Delete`, `Append` and `Clear` calls build, with the entries they
stand for. -/
inductive Built : WriteBatch → List BatchEntry → Prop where
  | new : Built {} []
  | put (h : Built b es) (key value : Bytes) :
    Built (b.put key value) (es ++ [⟨.kValue, key, value⟩])
  | delete (h : Built b es) (key : Bytes) : Built (b.delete key) (es ++ [⟨.kDeletion, key, []⟩])
  | append (h : Built b es) (h' : Built other fs) : Built (b.append other) (es ++ fs)
  | clear (h : Built b es) : Built b.clear []

theorem ofEntries_concat (es : List BatchEntry) (e : BatchEntry) :
    ofEntries (es ++ [e]) = (ofEntries es).add e := by
  rw [ofEntries, List.foldl_append]
  rfl

/-- Only the entries count, not the calls that brought them there. -/
theorem Built.eq_ofEntries (h : Built b es) : b = ofEntries es := by
  induction h with
  | new => rfl
  | put h key value ih => rw [ofEntries_concat, ← ih, WriteBatch.put]
  | delete h key ih => rw [ofEntries_concat, ← ih, WriteBatch.delete]
  | append h h' ih ih' => rw [← append_ofEntries, ← ih, ← ih']
  | clear h ih => rfl

/-- `Decode` accepts the bytes of `count` entries and delivers those, calls everything else corrupt
and reads inside its string only; it accepts every batch that its callers can build. -/
theorem decode_grammar :
    (∀ (entries : Bytes) (count : Nat),
      (∀ es, decode entries count = (es, .ok) ↔ es.length = count ∧ BatchBytes es entries) ∧
      ((¬ ∃ es, es.length = count ∧ BatchBytes es entries) →
        ∃ m, (decode entries count).2 = .corruption m) ∧
      decode? entries count 0 = some (decode entries count)) ∧
    ∀ b es, Built b es → es.length < 2 ^ 32 → (∀ e ∈ es, Short e) → b.forEach = (es, .ok) := by
  refine ⟨fun entries count => ⟨fun es => decode_eq_ok, fun hnone => ?_, ?_⟩,
    fun b es hb hlen hshort => ?_⟩
  · refine (decode_status entries count).resolve_left fun hok => hnone ?_
    exact ⟨_, decode_eq_ok.1 (Prod.ext rfl hok)⟩
  · exact decode?_eq count (Nat.zero_le _)
  · rw [hb.eq_ofEntries, forEach_ofEntries hshort hlen]

end WriteBatch

end LsmKv
