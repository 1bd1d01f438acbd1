import LsmKv.Lookups
import LsmKv.Recovery

namespace LsmKv
set_option autoImplicit true

open Wal (Group)

/-- What a `Write` changes, between two calls: the log, the memtable that goes with it, the last
sequence number and `bg_error_`. -/
structure Journal where
  log : Bytes := Wal.fileHeader
  mem : MemTable := {}
  lastSequence : Nat := 0
  bgError : Status := .ok

namespace Journal

/-- `Write` of a leader whose group is `members`, with room in the memtable and
without I/O errors. -/
def write (j : Journal) (members : List WriteBatch) : Status × Journal :=
  if !j.bgError.isOk then (j.bgError, j)
  else
    let merged := members.foldl WriteBatch.append {}
    let base := j.lastSequence + 1
    let (entries, status) := merged.forEach
    (status, {
      log := Wal.addRecord j.log base merged
      mem := j.mem.addAll (Wal.number base entries)
      lastSequence := j.lastSequence + merged.count
      bgError := if status.isOk then j.bgError else status })

/-- `Write` of a caller that is alone. -/
def call (j : Journal) (batch : WriteBatch) : Status × Journal :=
  if batch.empty then (.ok, j) else j.write [batch]

/-- One group after the other. -/
def writes (j : Journal) : List (List WriteBatch) → List Status × Journal
  | [] => ([], j)
  | members :: rest =>
    let (status, j) := j.write members
    let (statuses, j) := j.writes rest
    (status :: statuses, j)

/-- The groups of these batches, numbered from `last + 1` on. -/
def groups : Nat → List (List (List BatchEntry)) → List Group
  | _, [] => []
  | last, w :: ws => ⟨last + 1, w.flatten⟩ :: groups (last + w.flatten.length) ws

/-- No group is empty, the payload of its record is below 4 GiB, and its sequence numbers are. -/
structure Sized (last : Nat) (ws : List (List (List BatchEntry))) : Prop where
  nonempty : ∀ w ∈ ws, w.flatten ≠ []
  payload : ∀ w ∈ ws, 12 + (WriteBatch.ofEntries w.flatten).rep.length < 2 ^ 32
  seq : last + (ws.map fun w => w.flatten.length).sum ≤ kMaxSequenceNumber

theorem foldl_append_ofEntries (bs : List (List BatchEntry)) (es : List BatchEntry) :
    (bs.map WriteBatch.ofEntries).foldl WriteBatch.append (.ofEntries es) =
      .ofEntries (es ++ bs.flatten) := by
  induction bs generalizing es with
  | nil => simp
  | cons b bs ih =>
    rw [List.map_cons, List.foldl_cons, WriteBatch.append_ofEntries, ih, List.flatten_cons,
      List.append_assoc]

theorem merged_eq (bs : List (List BatchEntry)) :
    (bs.map WriteBatch.ofEntries).foldl WriteBatch.append {} = .ofEntries bs.flatten :=
  foldl_append_ofEntries bs []

namespace Sized

theorem tail (h : Sized last (w :: ws)) : Sized (last + w.flatten.length) ws where
  nonempty := fun x hx => h.nonempty x (List.mem_cons_of_mem w hx)
  payload := fun x hx => h.payload x (List.mem_cons_of_mem w hx)
  seq := by
    have := h.seq
    rw [List.map_cons, List.sum_cons] at this
    omega

theorem head_le (h : Sized last (w :: ws)) : last + w.flatten.length ≤ kMaxSequenceNumber := by
  have := h.seq
  rw [List.map_cons, List.sum_cons] at this
  omega

theorem fits (h : Sized last (w :: ws)) : Group.Fits ⟨last + 1, w.flatten⟩ := by
  have hseq := h.head_le
  have hpos := List.length_pos_iff.2 (h.nonempty w List.mem_cons_self)
  refine Group.fits_of_payload (h.nonempty w List.mem_cons_self) ?_ ?_
  · rw [Wal.length_payload]
    exact h.payload w List.mem_cons_self
  · show last + 1 < 2 ^ 64
    simp only [kMaxSequenceNumber] at hseq
    omega

theorem base_gt (h : Sized last ws) (hg : g ∈ groups last ws) : last < g.base := by
  induction ws generalizing last with
  | nil => cases hg
  | cons w ws ih =>
    rcases List.mem_cons.1 hg with rfl | hg
    · exact Nat.lt_succ_self last
    · have := ih h.tail hg
      omega

theorem histOk (h : Sized last ws) : HistOk (groups last ws) := by
  induction ws generalizing last with
  | nil => exact .nil
  | cons w ws ih =>
    have ht := ih h.tail
    have hle := h.head_le
    refine ⟨List.forall_mem_cons.2 ⟨h.fits, ht.fits⟩, List.forall_mem_cons.2 ⟨?_, ht.bound⟩,
      List.pairwise_cons.2 ⟨fun g hg => ?_, ht.order⟩⟩
    · show last + 1 + w.flatten.length ≤ kMaxSequenceNumber + 1
      omega
    · have := h.tail.base_gt hg
      show last + 1 + w.flatten.length ≤ g.base
      omega

end Sized

theorem entriesOk {gs : List Group} (h : HistOk gs) : EntriesOk (gs.flatMap Group.numbered) where
  fits := fun e he => by
    obtain ⟨g, hg, he⟩ := List.mem_flatMap.1 he
    exact (h.fits g hg).numbered_fits he
  seq := fun _ he => h.seq_numbered he
  distinct := by
    have hasc : ((gs.flatMap Group.numbered).map Wal.Entry.toRec).Pairwise
        fun a b => a.seq < b.seq := by
      rw [h.numbered_recs]
      exact h.seqAsc
    apply (List.pairwise_map.1 hasc).imp_of_mem
    intro a b ha hb hlt he
    rw [Wal.Entry.toRec_seq (h.seq_numbered ha), Wal.Entry.toRec_seq (h.seq_numbered hb)] at hlt
    exact hlt.ne (Prod.ext_iff.1 he).2

section Fitting
variable {j : Journal} {w : List (List BatchEntry)} {ws : List (List (List BatchEntry))}

theorem write_fits (hb : j.bgError.isOk = true) (h : Group.Fits ⟨j.lastSequence + 1, w.flatten⟩) :
    j.write (w.map .ofEntries) = (.ok, {
      log := j.log ++ Group.record ⟨j.lastSequence + 1, w.flatten⟩
      mem := j.mem.addAll (Group.numbered ⟨j.lastSequence + 1, w.flatten⟩)
      lastSequence := j.lastSequence + w.flatten.length
      bgError := j.bgError }) := by
  have hcount : (WriteBatch.ofEntries w.flatten).count = w.flatten.length := by
    rw [WriteBatch.ofEntries_count, Nat.mod_eq_of_lt h.count_lt]
  have hne : (WriteBatch.ofEntries w.flatten).empty = false := by
    rw [WriteBatch.empty, hcount, beq_eq_false_iff_ne]
    exact (List.length_pos_iff.2 h.nonempty).ne'
  have hlog : Wal.addRecord j.log (j.lastSequence + 1) (.ofEntries w.flatten) =
      j.log ++ Group.record ⟨j.lastSequence + 1, w.flatten⟩ := by
    rw [Wal.addRecord, hne]
    rfl
  have heach : (WriteBatch.ofEntries w.flatten).forEach = (w.flatten, .ok) := h.forEach
  rw [write, hb, merged_eq]
  simp only [heach, hlog, hcount]
  rfl

theorem writes_sized (hb : j.bgError.isOk = true) (h : Sized j.lastSequence ws) :
    (j.writes (ws.map (List.map .ofEntries))).1 = List.replicate ws.length .ok ∧
    (j.writes (ws.map (List.map .ofEntries))).2.log =
      j.log ++ (groups j.lastSequence ws).flatMap Group.record ∧
    (j.writes (ws.map (List.map .ofEntries))).2.mem =
      j.mem.addAll ((groups j.lastSequence ws).flatMap Group.numbered) := by
  induction ws generalizing j with
  | nil => simp [writes, groups, MemTable.addAll]
  | cons w ws ih =>
    obtain ⟨hst, hlog, hmem⟩ := @ih ⟨j.log ++ Group.record ⟨j.lastSequence + 1, w.flatten⟩,
      j.mem.addAll (Group.numbered ⟨j.lastSequence + 1, w.flatten⟩),
      j.lastSequence + w.flatten.length, j.bgError⟩ hb h.tail
    simp only [List.map_cons, writes, write_fits hb h.fits, groups, List.flatMap_cons]
    refine ⟨by rw [hst]; rfl, by rw [hlog, List.append_assoc], ?_⟩
    rw [hmem, MemTable.addAll, MemTable.addAll, MemTable.addAll, List.foldl_append]

end Fitting

/-- Batches that fit are all acknowledged, a replay of the log delivers them in order and unchanged,
and every lookup answers as they say. -/
theorem batches_acknowledged (last : Nat) (ws : List (List (List BatchEntry))) (h : Sized last ws)
    (path : String) :
    let r := writes { lastSequence := last } (ws.map (List.map .ofEntries))
    r.1 = List.replicate ws.length .ok ∧
    Wal.replay path r.2.log = { entries := (groups last ws).flatMap Group.numbered } ∧
    ∀ k s, s ≤ kMaxSequenceNumber →
      Answers ((groups last ws).flatMap Group.numbered) k s (r.2.mem.get k s) := by
  obtain ⟨hst, hlog, hmem⟩ := @writes_sized { lastSequence := last } ws rfl h
  have hes := entriesOk h.histOk
  refine ⟨hst, ?_, fun k s hs => ?_⟩
  · have hreplay := Wal.replay_records h.histOk.fits (.inl rfl) path
    rw [List.append_nil] at hreplay
    rw [hlog]
    exact hreplay
  · rw [hmem, MemTable.get_eq_findVersion fun r hr => (hes.rec_ok hr).2]
    exact hes.answers hs

theorem batches_acknowledged_two :
    let ws : List (List (List BatchEntry)) :=
      [[[⟨.kValue, [97], [1]⟩], [⟨.kValue, [98], [2]⟩]], [[⟨.kDeletion, [97], []⟩]]]
    let r := writes { lastSequence := 6 } (ws.map (List.map .ofEntries))
    Sized 6 ws ∧ r.1 = List.replicate ws.length .ok ∧
    Wal.replay "000001.log" r.2.log = { entries := (groups 6 ws).flatMap Group.numbered } ∧
    ∀ k s, s ≤ kMaxSequenceNumber →
      Answers ((groups 6 ws).flatMap Group.numbered) k s (r.2.mem.get k s) := by
  intro ws r
  have h : Sized 6 ws := ⟨by decide, by decide +kernel, by decide⟩
  exact ⟨h, batches_acknowledged 6 ws h "000001.log"⟩

section Oversized

theorem decodeString_narrowed (s rest : Bytes) :
    WriteBatch.decodeString (putVarint32 (s.length % 2 ^ 32) ++ (s ++ rest)) =
      some (s.take (s.length % 2 ^ 32), s.drop (s.length % 2 ^ 32) ++ rest) := by
  have hle : s.length % 2 ^ 32 ≤ s.length := Nat.mod_le _ _
  rw [WriteBatch.decodeString, getVarint32Ptr_put (Nat.mod_lt _ (by decide))]
  simp only
  rw [if_neg (by rw [List.length_append]; omega), List.take_append_of_le_length hle,
    List.drop_append_of_le_length hle]

/-- What `ForEach` makes of one `Put`, whatever the length of its value: the first bytes of it, as
many as the length field says, and an error unless these are all. -/
theorem forEach_put (hk : k.length < 2 ^ 32) (v : Bytes) :
    (WriteBatch.ofEntries [⟨.kValue, k, v⟩]).forEach = ([⟨.kValue, k, v.take (v.length % 2 ^ 32)⟩],
      if v.length < 2 ^ 32 then .ok else .corruption "write batch has trailing bytes") := by
  have hvalue := decodeString_narrowed v []
  rw [List.append_nil, List.append_nil] at hvalue
  have hkey := WriteBatch.decodeString_put hk (putVarint32 (v.length % 2 ^ 32) ++ v)
  have hempty : (v.drop (v.length % 2 ^ 32)).isEmpty = decide (v.length < 2 ^ 32) := by
    rw [Bool.eq_iff_iff, List.isEmpty_iff, List.drop_eq_nil_iff, decide_eq_true_iff]
    omega
  have hcount : (WriteBatch.ofEntries [⟨.kValue, k, v⟩]).count = 0 + 1 :=
    WriteBatch.ofEntries_count _
  rw [WriteBatch.forEach, WriteBatch.ofEntries_rep, hcount, List.flatMap_singleton,
    WriteBatch.encodeEntry, WriteBatch.decode]
  simp only [WriteBatch.typeOf_code, hkey, hvalue, WriteBatch.decode, hempty, decide_eq_true_eq]

/-- A value of 4 GiB: the call fails, and a reader finds its key with an empty value. A batch of
`2 ^ 32` entries: the call returns OK and does nothing. -/
theorem oversized_batches :
    (∃ v : Bytes, v.length = 2 ^ 32 ∧
      let r := call {} (.ofEntries [⟨.kValue, [97], v⟩])
      r.1 = .corruption "write batch has trailing bytes" ∧ r.2.lastSequence = 1 ∧
        r.2.mem.get [97] r.2.lastSequence = some (.ok [])) ∧
    ∃ es : List BatchEntry, es.length = 2 ^ 32 ∧ call {} (.ofEntries es) = (.ok, {}) := by
  constructor
  · obtain ⟨v, hv⟩ : ∃ v : Bytes, v.length = 2 ^ 32 :=
      ⟨List.replicate (2 ^ 32) 0, List.length_replicate⟩
    have heach := forEach_put (k := [97]) (by decide) v
    rw [hv, if_neg (lt_irrefl _), Nat.mod_self, List.take_zero] at heach
    have hcount : (WriteBatch.ofEntries [⟨.kValue, [97], v⟩]).count = 1 := by
      rw [WriteBatch.ofEntries_count]
      rfl
    have hmerged : [WriteBatch.ofEntries [⟨.kValue, [97], v⟩]].foldl WriteBatch.append {} =
        .ofEntries [⟨.kValue, [97], v⟩] := merged_eq [[⟨.kValue, [97], v⟩]]
    have hempty : (WriteBatch.ofEntries [⟨.kValue, [97], v⟩]).empty = false := by
      rw [WriteBatch.empty, hcount]
      rfl
    have hget : (MemTable.addAll {} (Wal.number 1 [⟨.kValue, [97], []⟩])).get [97] 1 =
        some (.ok []) := by
      decide +kernel
    refine ⟨v, hv, ?_⟩
    rw [call, hempty, write, hmerged]
    simp only [heach, hcount]
    exact ⟨rfl, rfl, hget⟩
  · obtain ⟨es, hes⟩ : ∃ es : List BatchEntry, es.length = 2 ^ 32 :=
      ⟨List.replicate (2 ^ 32) ⟨.kDeletion, [], []⟩, List.length_replicate⟩
    refine ⟨es, hes, ?_⟩
    rw [call, WriteBatch.empty, WriteBatch.ofEntries_count, hes, Nat.mod_self]
    rfl

end Oversized

end Journal

end LsmKv
