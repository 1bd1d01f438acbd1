import LsmKv.History
import LsmKv.Outputs
import LsmKv.Walks

namespace LsmKv
set_option autoImplicit true

open Versioned

/-- What a lookup of `k` at `s` returns in a store that holds `es`: nothing, or what the newest
version says. -/
structure Answers (es : List Wal.Entry) (k : Bytes) (s : Nat) (r : Option (Except Status Bytes)) :
    Prop where
  missing : (∀ e ∈ es, e.key = k → s < e.seq) → r = none
  newest : ∀ e ∈ es, e.key = k → e.seq ≤ s →
    (∀ e' ∈ es, e'.key = k → e'.seq ≤ s → e'.seq ≤ e.seq) →
    r = some (match e.type with
      | .kValue => .ok e.value
      | .kDeletion => .error .notFound)

/-- Entries a memtable can hold: their lengths and sequence numbers fit, and no two are the same
version. -/
structure EntriesOk (es : List Wal.Entry) : Prop where
  fits : ∀ e ∈ es, e.key.length + e.value.length + 16 < 2 ^ 32
  seq : ∀ e ∈ es, e.seq ≤ kMaxSequenceNumber
  distinct : es.Pairwise fun a b => (a.key, a.seq) ≠ (b.key, b.seq)

section Entries
variable {es : List Wal.Entry} {e : Wal.Entry} {k : Bytes} {s : Nat}

theorem Wal.Entry.toRec_seq (h : e.seq ≤ kMaxSequenceNumber) : e.toRec.seq = e.seq :=
  Rec.encode_seq h

theorem Wal.Entry.toRec_userKey (e : Wal.Entry) : e.toRec.userKey = e.key := Rec.encode_userKey

theorem Wal.Entry.toRec_answer (h : e.seq ≤ kMaxSequenceNumber) : e.toRec.answer =
    match e.type with
    | .kValue => .ok e.value
    | .kDeletion => .error .notFound := by
  have hd : e.toRec.isDeletion = decide (e.type = .kDeletion) := Rec.encode_isDeletion h
  rw [Rec.answer, hd]
  cases e.type <;> rfl

theorem EntriesOk.recs (h : EntriesOk es) :
    Ascending Rec.pos (MemTable.addAll {} es).recs ∧
      ∀ r, r ∈ (MemTable.addAll {} es).recs ↔ r ∈ es.map Wal.Entry.toRec := by
  have hd : es.Pairwise fun a b => a.toRec.pos ≠ b.toRec.pos := by
    apply h.distinct.imp_of_mem
    intro a b ha hb hne he
    apply hne
    have hk : a.toRec.userKey = b.toRec.userKey := (sortKey_eq_iff.1 he).1
    have hs := Rec.seq_eq_of_pos he
    rw [a.toRec_userKey, b.toRec_userKey] at hk
    rw [Wal.Entry.toRec_seq (h.seq a ha), Wal.Entry.toRec_seq (h.seq b hb)] at hs
    rw [hk, hs]
  have hnil : Ascending Rec.pos (MemTable.recs {}) := .nil
  obtain ⟨h1, h2⟩ := MemTable.recs_addAll hnil h.fits hd fun x hx => by cases hx
  exact ⟨h1, fun r => (h2 r).trans (by simp)⟩

theorem EntriesOk.rec_ok (h : EntriesOk es) (hr : r ∈ (MemTable.addAll {} es).recs) :
    r.Ok ∧ r.userKey.length + 8 < 2 ^ 32 := by
  obtain ⟨e, he, rfl⟩ := List.mem_map.1 ((h.recs.2 r).1 hr)
  refine ⟨Rec.encode_ok (h.seq e he), ?_⟩
  rw [e.toRec_userKey]
  have := h.fits e he
  omega

/-- A memtable whose keys fit answers for any key, those that do not fit included: what the seek
finds is never a version of such a key. -/
theorem MemTable.get_eq_findVersion {t : MemTable} (h : ∀ r ∈ t.recs, r.userKey.length + 8 < 2 ^ 32)
    (k : Bytes) (s : Nat) : t.get k s = (findVersion t.recs k s).map Rec.answer := by
  by_cases hk : k.length + 8 < 2 ^ 32
  · exact t.get_eq hk s
  · have hno : ∀ r ∈ t.recs, r.userKey ≠ k := fun r hr he => hk (he ▸ h r hr)
    have hfind : findVersion t.recs k s = none := by
      by_contra hne
      obtain ⟨r, hr⟩ := Option.ne_none_iff_exists'.1 hne
      exact hno r (findVersion_mem hr).1 (findVersion_mem hr).2
    rw [hfind, Option.map_none, get]
    split
    · rfl
    · rename_i e rest hseek
      have he : e ∈ t.entries := by
        have hsuf : t.seek (lookupKey k s) <:+ t.entries := List.dropWhile_suffix _
        rw [hseek] at hsuf
        exact hsuf.subset List.mem_cons_self
      exact if_pos (hno _ (List.mem_map_of_mem he))

theorem EntriesOk.distinct_recs (h : EntriesOk es) :
    Distinct {r | r ∈ (MemTable.addAll {} es).recs} := by
  intro x hx y hy hk hs
  obtain ⟨a, ha, rfl⟩ := List.mem_map.1 ((h.recs.2 x).1 hx)
  obtain ⟨b, hb, rfl⟩ := List.mem_map.1 ((h.recs.2 y).1 hy)
  rw [Rec.key_def, Rec.key_def, a.toRec_userKey, b.toRec_userKey] at hk
  rw [Rec.seq_def, Rec.seq_def, Wal.Entry.toRec_seq (h.seq a ha),
    Wal.Entry.toRec_seq (h.seq b hb)] at hs
  have hnodup : (es.map fun e => (e.key, e.seq)).Nodup := List.pairwise_map.2 h.distinct
  rw [List.inj_on_of_nodup_map hnodup ha hb (Prod.ext hk hs)]

/-- The version found by a seek is the newest one that is visible. -/
theorem EntriesOk.answers (h : EntriesOk es) (hs : s ≤ kMaxSequenceNumber) :
    Answers es k s ((findVersion (MemTable.addAll {} es).recs k s).map Rec.answer) := by
  obtain ⟨hasc, hmem⟩ := h.recs
  have hok : ∀ r ∈ (MemTable.addAll {} es).recs, r.Ok := fun r hr => (h.rec_ok hr).1
  refine ⟨fun hnone => ?_, fun e he hk hle hmax => ?_⟩
  · have hfind : findVersion (MemTable.addAll {} es).recs k s = none := by
      rw [findVersion_eq_none_iff hasc hok hs]
      intro r hr hk hle
      obtain ⟨e, he, rfl⟩ := List.mem_map.1 ((hmem r).1 hr)
      rw [Wal.Entry.toRec_seq (h.seq e he)] at hle
      have := hnone e he (e.toRec_userKey ▸ hk)
      omega
    rw [hfind]
    rfl
  · have hnew : Newest {r | r ∈ (MemTable.addAll {} es).recs} k s e.toRec := by
      refine ⟨(hmem _).2 (List.mem_map_of_mem he), e.toRec_userKey.trans hk, ?_, ?_⟩
      · rw [Rec.seq_def, Wal.Entry.toRec_seq (h.seq e he)]
        exact hle
      · intro r hr hkr hsr
        obtain ⟨e', he', rfl⟩ := List.mem_map.1 ((hmem r).1 hr)
        rw [Rec.seq_def, Wal.Entry.toRec_seq (h.seq e' he')] at hsr ⊢
        rw [Rec.seq_def, Wal.Entry.toRec_seq (h.seq e he)]
        exact hmax e' he' (e'.toRec_userKey ▸ hkr) hsr
    rw [(findVersion_eq_some_iff hasc hok h.distinct_recs hs).2 hnew, Option.map_some,
      Wal.Entry.toRec_answer (h.seq e he)]

end Entries

/-- A memtable and the table written from it answer every lookup alike, and as the entries say. -/
theorem lookups_agree (options readOptions : Options) (path : String) (number : Nat)
    (es : List Wal.Entry) (hes : EntriesOk es)
    (hblocks : ∀ g ∈ cutBlocks options [] (MemTable.addAll {} es).recs,
      (blockBytes options.blockRestartInterval g).length < 2 ^ 32)
    (hfile : (tableFile options (MemTable.addAll {} es).recs).length < 2 ^ 63) :
    ∃ t, Table.openFile path (tableFile options (MemTable.addAll {} es).recs) readOptions number =
        .ok t ∧
      TablesOk (· = t) ∧ ∀ k s, s ≤ kMaxSequenceNumber →
        Answers es k s ((MemTable.addAll {} es).get k s) ∧
          ∀ T M, TablesOk T → T t →
            Ensures (Store.Serves T M) (t.get k s) (· = (MemTable.addAll {} es).get k s) := by
  obtain ⟨t, hopen, _, hgood, hrecs⟩ := openFile_good path number readOptions
    (tableFits_of_lengths hblocks hfile) hes.recs.1
  have honly : TablesOk (· = t) := by
    have h := @tablesOk_of_good [t] (by simpa using hgood) (by simp)
    simpa using h
  refine ⟨t, hopen, honly, fun k s hs => ?_⟩
  rw [MemTable.get_eq_findVersion fun r hr => (hes.rec_ok hr).2]
  refine ⟨hes.answers hs, fun T M hT ht => ?_⟩
  rw [← hrecs]
  exact hgood.get_ensures hT ht k s

/-- Two versions of a key and the deletion of another, each in a block of its own. -/
theorem lookups_agree_threeBlocks :
    let mem := MemTable.addAll {}
      [⟨1, .kValue, [97], [98]⟩, ⟨2, .kDeletion, [98], []⟩, ⟨3, .kValue, [97], [99]⟩]
    ∃ t, Table.openFile "000001.sst" (tableFile smallBlocks mem.recs) {} 1 = .ok t ∧
      (∀ k s, s ≤ kMaxSequenceNumber → ((t.get k s).run {}).1 = mem.get k s) ∧
      mem.get [97] 3 = some (.ok [99]) ∧ mem.get [97] 2 = some (.ok [98]) ∧
      mem.get [97] 0 = none ∧ mem.get [98] 2 = some (.error .notFound) ∧ mem.get [98] 1 = none := by
  intro mem
  have hrecs : mem.recs = threeRecs := by decide +kernel
  have hfit := tableFits_smallBlocks
  obtain ⟨t, hopen, honly, hall⟩ := lookups_agree smallBlocks {} "000001.sst" 1
    [⟨1, .kValue, [97], [98]⟩, ⟨2, .kDeletion, [98], []⟩, ⟨3, .kValue, [97], [99]⟩]
    ⟨by decide, by decide, by decide⟩ (by rw [hrecs]; exact hfit.blocks)
    (by rw [hrecs]; exact hfit.file)
  have hs : Store.Serves (· = t) (fun _ => {}) {} := ⟨rfl, fun _ h => (by cases h), rfl⟩
  refine ⟨t, hopen, fun k s hk => ((hall k s hk).2 _ _ honly rfl {} hs).1, ?_⟩
  decide +kernel

end LsmKv
