import LsmKv.Library.SortedList
import LsmKv.Library.Versions
import LsmKv.InternalKey
import LsmKv.Status

namespace LsmKv
set_option autoImplicit true

/-- An internal key with its value, as memtables, tables and iterators hold it. -/
abbrev Rec := Bytes × Bytes

namespace Rec

def userKey (r : Rec) : Bytes := extractUserKey r.1
def seq (r : Rec) : Nat := extractSequence r.1
def isDeletion (r : Rec) : Bool := extractValueType r.1 == ValueType.kDeletion.code
def pos (r : Rec) : Bytes ×ₗ ℕᵒᵈ := sortKey r.1

def encode (k : Bytes) (seq : Nat) (t : ValueType) (v : Bytes) : Rec :=
  (encodeInternalKey k seq t, v)

/-- The key was made by `encodeInternalKey` with a sequence number that fits the tag. -/
def Ok (r : Rec) : Prop :=
  ∃ k s t, s ≤ kMaxSequenceNumber ∧ r.1 = encodeInternalKey k s t

instance : Versioned Rec Bytes where
  key := userKey
  seq := seq
  dead := isDeletion

theorem key_def (r : Rec) : Versioned.key r = r.userKey := rfl
theorem seq_def (r : Rec) : Versioned.seq r = r.seq := rfl
theorem dead_def (r : Rec) : Versioned.dead r = r.isDeletion := rfl

theorem encode_ok (h : s ≤ kMaxSequenceNumber) : (encode k s t v).Ok := ⟨k, s, t, h, rfl⟩

@[simp] theorem encode_userKey : (encode k s t v).userKey = k := extractUserKey_encode k s t

theorem encode_seq (h : s ≤ kMaxSequenceNumber) : (encode k s t v).seq = s :=
  extractSequence_encode h k t

theorem encode_isDeletion (h : s ≤ kMaxSequenceNumber) :
    (encode k s t v).isDeletion = decide (t = .kDeletion) := by
  rw [isDeletion, encode, extractValueType_encode h]
  cases t <;> rfl

theorem Ok.length {r : Rec} (h : r.Ok) : 8 ≤ r.1.length := by
  obtain ⟨k, s, t, _, he⟩ := h
  simp [he]

theorem Ok.tag {r : Rec} (h : r.Ok) : ∃ t : ValueType,
    extractTag r.1 = r.seq * 256 + t.code ∧ r.seq ≤ kMaxSequenceNumber := by
  obtain ⟨k, s, t, hs, he⟩ := h
  have hseq : r.seq = s := by rw [seq, he, extractSequence_encode hs]
  exact ⟨t, by rw [he, extractTag_encode, packTag_eq hs, hseq], by rw [hseq]; exact hs⟩

theorem Ok.seq_le {r : Rec} (h : r.Ok) : r.seq ≤ kMaxSequenceNumber := h.tag.choose_spec.2

theorem seq_le_of_pos_le {a b : Rec} (ha : a.Ok) (hb : b.Ok) (hk : a.userKey = b.userKey)
    (h : a.pos ≤ b.pos) : b.seq ≤ a.seq := by
  obtain ⟨ta, hta, _⟩ := ha.tag
  obtain ⟨tb, htb, _⟩ := hb.tag
  have h1 := ta.code_lt
  have h2 := tb.code_lt
  by_contra hc
  have hlt : b.pos < a.pos := by
    rw [pos, pos, sortKey_lt_iff]
    exact .inr ⟨hk.symm, by omega⟩
  exact absurd hlt (not_lt_of_ge h)

/-- The lookup key of `(k, s)` separates the versions of `k` a reader at `s` may see. -/
theorem lookupKey_le_pos {r : Rec} (h : r.Ok) (hs : s ≤ kMaxSequenceNumber)
    (hk : r.userKey = k) : sortKey (lookupKey k s) ≤ r.pos ↔ r.seq ≤ s := by
  obtain ⟨t, ht, _⟩ := h.tag
  have h1 := t.code_lt
  have hk' : extractUserKey r.1 = k := hk
  rw [← not_lt, pos, sortKey_lt_iff, lookupKey, extractUserKey_encode, extractTag_encode,
    packTag_eq hs, hk', ht]
  have hv : ValueType.kValue.code = 1 := rfl
  simp only [lt_irrefl, true_and, false_or, hv]
  omega

theorem userKey_le_of_lookupKey_le {r : Rec} (h : sortKey (lookupKey k s) ≤ r.pos) :
    k ≤ r.userKey := by
  by_contra hc
  have hlt : r.pos < sortKey (lookupKey k s) := by
    rw [pos, sortKey_lt_iff, lookupKey, extractUserKey_encode]
    exact .inl (not_le.1 hc)
  exact absurd hlt (not_lt_of_ge h)

end Rec

theorem ascending_of_compare {es : List Rec}
    (h : es.Pairwise fun a b => compareInternalKey a.1 b.1 = .lt) : Ascending Rec.pos es :=
  h.imp compareInternalKey_lt.1

theorem seekTo_eq_filter_compare {es : List Rec} (h : Sorted Rec.pos es) (target : Bytes) :
    seekTo Rec.pos (sortKey target) es =
      es.filter fun e => compareInternalKey e.1 target != .lt := by
  rw [h.seekTo_eq_filter]
  apply List.filter_congr
  intro e _
  rw [Bool.eq_iff_iff, decide_eq_true_iff, bne_iff_ne, ne_eq, compareInternalKey_lt, not_lt]
  rfl

/-- The first key of `l` at or after `LookupKey(k, s)`. -/
def firstAtLookup (l : List Bytes) (k : Bytes) (s : Nat) : Option Bytes :=
  l.find? fun e => compareInternalKey e (lookupKey k s) != .lt

theorem lookupKey_le_of_firstAtLookup (h : firstAtLookup l k s = some e) :
    sortKey (lookupKey k s) ≤ sortKey e := by
  have hp := List.find?_some h
  rw [bne_iff_ne, ne_eq, compareInternalKey_lt, not_lt] at hp
  exact hp

/-- A version of `k` that is visible at `s` does not stand before the first key found. -/
theorem firstAtLookup_le {l : List Bytes} (hl : ∀ e ∈ l, Rec.Ok (e, []))
    (hsort : l.Pairwise fun a b => compareInternalKey a b ≠ .gt) (hs : s ≤ kMaxSequenceNumber)
    (hx : x ∈ l) (hk : extractUserKey x = k) (hseq : extractSequence x ≤ s) :
    ∃ e ∈ l, firstAtLookup l k s = some e ∧ sortKey e ≤ sortKey x := by
  have hle : sortKey (lookupKey k s) ≤ sortKey x :=
    (Rec.lookupKey_le_pos (r := (x, [])) (hl x hx) hs hk).2 hseq
  induction l with
  | nil => cases hx
  | cons a l ih =>
    rw [List.pairwise_cons] at hsort
    by_cases ha : compareInternalKey a (lookupKey k s) = .lt
    · have hne : x ≠ a := by
        rintro rfl
        exact absurd (compareInternalKey_lt.1 ha) (not_lt_of_ge hle)
      obtain ⟨e, he, hfind, hex⟩ := ih (fun e he => hl e (List.mem_cons_of_mem a he)) hsort.2
        ((List.mem_cons.1 hx).resolve_left hne)
      refine ⟨e, List.mem_cons_of_mem a he, ?_, hex⟩
      rw [firstAtLookup, List.find?_cons_of_neg (by simp [ha])]
      exact hfind
    · refine ⟨a, List.mem_cons_self, List.find?_cons_of_pos (by simp [ha]), ?_⟩
      rcases List.mem_cons.1 hx with rfl | hx
      · exact le_refl _
      · exact not_lt.1 fun hlt => hsort.1 x hx (compareInternalKey_gt.2 hlt)

/-- The order of internal keys, and where a lookup lands in it. -/
theorem internal_key_order :
    (∀ a b : Bytes, 8 ≤ a.length → 8 ≤ b.length → (compareInternalKey a b = .eq ↔ a = b)) ∧
    (∀ a b, compareInternalKey b a = (compareInternalKey a b).swap) ∧
    (∀ a b c, compareInternalKey a b = .lt → compareInternalKey b c = .lt →
      compareInternalKey a c = .lt) ∧
    (∀ k s t k' s' t', s ≤ kMaxSequenceNumber → s' ≤ kMaxSequenceNumber →
      (compareInternalKey (encodeInternalKey k s t) (encodeInternalKey k' s' t') = .lt ↔
        k < k' ∨ k = k' ∧ (s' < s ∨ s' = s ∧ t'.code < t.code))) ∧
    ∀ l : List Bytes,
      (∀ e ∈ l, ∃ k s t, s ≤ kMaxSequenceNumber ∧ e = encodeInternalKey k s t) →
      (l.Pairwise fun a b => compareInternalKey a b ≠ .gt) → ∀ k s, s ≤ kMaxSequenceNumber →
      (∀ e, firstAtLookup l k s = some e → extractUserKey e = k →
        extractSequence e ≤ s ∧ ∀ x ∈ l, extractUserKey x = k → extractSequence x ≤ s →
          extractSequence x ≤ extractSequence e) ∧
      ((∀ e, firstAtLookup l k s = some e → extractUserKey e ≠ k) →
        ∀ x ∈ l, extractUserKey x = k → ¬ extractSequence x ≤ s) := by
  refine ⟨fun a b ha hb => ?_, compareInternalKey_swap, fun a b c hab hbc => ?_,
    fun k s t k' s' t' hs hs' => ?_,
    fun l hl hsort k s hs => ⟨fun e he hk => ?_, fun hno x hx hk hseq => ?_⟩⟩
  · rw [compareInternalKey_eq]
    exact ⟨sortKey_inj ha hb, congrArg sortKey⟩
  · rw [compareInternalKey_lt] at hab hbc ⊢
    exact hab.trans hbc
  · rw [compareInternalKey_lt, sortKey_encode_lt hs hs']
  · have hok : Rec.Ok (e, []) := hl e (List.mem_of_find?_eq_some he)
    refine ⟨(Rec.lookupKey_le_pos hok hs hk).1 (lookupKey_le_of_firstAtLookup he), ?_⟩
    intro x hx hxk hseq
    obtain ⟨e', _, he', hle⟩ := firstAtLookup_le hl hsort hs hx hxk hseq
    obtain rfl := Option.some.inj (he.symm.trans he')
    exact Rec.seq_le_of_pos_le (a := (e, [])) (b := (x, [])) hok (hl x hx) (hk.trans hxk.symm) hle
  · obtain ⟨e, _, he, hle⟩ := firstAtLookup_le hl hsort hs hx hk hseq
    -- the first key lies between the lookup key and `x`, both of which have user key `k`
    have hlo := Rec.userKey_le_of_lookupKey_le (r := (e, [])) (lookupKey_le_of_firstAtLookup he)
    refine hno e he (le_antisymm ?_ hlo)
    by_contra hgt
    have hlt : sortKey x < sortKey e := sortKey_lt_iff.2 (.inl (hk ▸ not_le.1 hgt))
    exact absurd hle (not_le_of_gt hlt)

theorem internal_key_order_three_versions :
    let l := [encodeInternalKey [97] 5 .kValue, encodeInternalKey [97] 3 .kDeletion,
      encodeInternalKey [97, 0] 9 .kValue]
    firstAtLookup l [97] 4 = some (encodeInternalKey [97] 3 .kDeletion) ∧
    (∀ x ∈ l, extractUserKey x = [97] → extractSequence x ≤ 4 → extractSequence x ≤ 3) ∧
    ∀ x ∈ l, extractUserKey x = [97] → ¬ extractSequence x ≤ 2 := by
  intro l
  have hmax : 9 ≤ kMaxSequenceNumber := by decide
  have hl : ∀ e ∈ l, ∃ k s t, s ≤ kMaxSequenceNumber ∧ e = encodeInternalKey k s t := by
    simp only [l, List.forall_mem_cons, List.not_mem_nil, false_implies, implies_true, and_true]
    exact ⟨⟨_, 5, _, by omega, rfl⟩, ⟨_, 3, _, by omega, rfl⟩, ⟨_, 9, _, hmax, rfl⟩⟩
  have hsort : l.Pairwise fun a b => compareInternalKey a b ≠ .gt := by decide
  have hfind := internal_key_order.2.2.2.2 l hl hsort [97]
  have hat : firstAtLookup l [97] 4 = some (encodeInternalKey [97] 3 .kDeletion) := by decide
  refine ⟨hat, ((hfind 4 (by omega)).1 _ hat (by decide)).2, ?_⟩
  exact (hfind 2 (by omega)).2 (by decide)

/-- What a source of the read path answers for a key it holds a version of. -/
def Rec.answer (r : Rec) : Except Status Bytes :=
  if r.isDeletion then .error .notFound else .ok r.2

/-- The lookup every source makes: seek to the lookup key, and accept the entry there if it is
a version of the key. -/
def findVersion (l : List Rec) (k : Bytes) (s : Nat) : Option Rec :=
  match seekTo Rec.pos (sortKey (lookupKey k s)) l with
  | [] => none
  | r :: _ => if r.userKey = k then some r else none

theorem findVersion_mem (h : findVersion l k s = some x) : x ∈ l ∧ x.userKey = k := by
  rw [findVersion] at h
  split at h
  · cases h
  · rename_i r rest hr
    split at h
    · rename_i hk
      cases h
      have hm : x ∈ seekTo Rec.pos (sortKey (lookupKey k s)) l := by
        rw [hr]
        exact List.mem_cons_self
      exact ⟨(seekTo_suffix _ l).subset hm, hk⟩
    · cases h

theorem findVersion_newest (hl : Ascending Rec.pos l) (hok : ∀ r ∈ l, r.Ok)
    (hs : s ≤ kMaxSequenceNumber) (h : findVersion l k s = some x) :
    Newest {r | r ∈ l} k s x := by
  rw [findVersion] at h
  split at h
  · cases h
  · rename_i r rest hr
    split at h
    · rename_i hk
      cases h
      obtain ⟨hm, ht, hmin⟩ := hl.seekTo_cons hr
      refine ⟨hm, hk, (Rec.lookupKey_le_pos (hok _ hm) hs hk).1 ht, ?_⟩
      intro y hy hyk hys
      have hyt := (Rec.lookupKey_le_pos (hok y hy) hs hyk).2 hys
      exact Rec.seq_le_of_pos_le (hok _ hm) (hok y hy) (hk.trans hyk.symm) (hmin y hy hyt)
    · cases h

/-- Seeking misses only when no version is visible. -/
theorem findVersion_none (hl : Ascending Rec.pos l) (hok : ∀ r ∈ l, r.Ok)
    (hs : s ≤ kMaxSequenceNumber) (h : findVersion l k s = none) :
    ∀ r ∈ l, r.userKey = k → ¬ r.seq ≤ s := by
  intro y hy hyk hys
  have hyt := (Rec.lookupKey_le_pos (hok y hy) hs hyk).2 hys
  have hys' := hl.mem_seekTo.2 ⟨hy, hyt⟩
  rw [findVersion] at h
  split at h
  · rename_i hr
    rw [hr] at hys'
    cases hys'
  · rename_i r rest hr
    split at h
    · cases h
    · rename_i hk
      obtain ⟨hm, ht, hmin⟩ := hl.seekTo_cons hr
      have hle : r.userKey ≤ y.userKey := by
        have hp := hmin y hy hyt
        by_contra hc
        have hlt : y.pos < r.pos := by
          rw [Rec.pos, Rec.pos, sortKey_lt_iff]
          exact .inl (not_le.1 hc)
        exact absurd hlt (not_lt_of_ge hp)
      exact hk (le_antisymm (hyk ▸ hle) (Rec.userKey_le_of_lookupKey_le ht))

theorem findVersion_eq_none_iff (hl : Ascending Rec.pos l) (hok : ∀ r ∈ l, r.Ok)
    (hs : s ≤ kMaxSequenceNumber) :
    findVersion l k s = none ↔ ∀ r ∈ l, r.userKey = k → ¬ r.seq ≤ s := by
  refine ⟨findVersion_none hl hok hs, ?_⟩
  intro h
  cases hf : findVersion l k s with
  | none => rfl
  | some x =>
    have hn := findVersion_newest hl hok hs hf
    exact absurd hn.seq_le (h x hn.mem hn.key_eq)

theorem findVersion_eq_some_iff (hl : Ascending Rec.pos l) (hok : ∀ r ∈ l, r.Ok)
    (hd : Distinct {r | r ∈ l}) (hs : s ≤ kMaxSequenceNumber) :
    findVersion l k s = some x ↔ Newest {r | r ∈ l} k s x := by
  refine ⟨findVersion_newest hl hok hs, ?_⟩
  intro h
  cases hf : findVersion l k s with
  | none => exact absurd h.seq_le (findVersion_none hl hok hs hf x h.mem h.key_eq)
  | some y => rw [(findVersion_newest hl hok hs hf).unique hd h]

end LsmKv
