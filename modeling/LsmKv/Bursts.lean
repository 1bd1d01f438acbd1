import LsmKv.CrcBits
import LsmKv.Store
import LsmKv.Wal

namespace LsmKv
set_option autoImplicit true

/-- The strings differ, and only within four consecutive bytes. -/
structure Burst (p q : Bytes) : Prop where
  length : q.length = p.length
  ne : p ≠ q
  near : ∃ i, ∀ j, j < i ∨ i + 4 ≤ j → p[j]? = q[j]?

theorem Burst.split {p q : Bytes} (h : Burst p q) : ∃ pre u v post, p = pre ++ (u ++ post) ∧
    q = pre ++ (v ++ post) ∧ u.length = v.length ∧ u.length ≤ 4 ∧ u ≠ v := by
  obtain ⟨i, hi⟩ := h.near
  have hpre : p.take i = q.take i := by
    apply List.ext_getElem?
    intro j
    rw [List.getElem?_take, List.getElem?_take]
    split
    · exact hi j (.inl ‹_›)
    · rfl
  have hpost : p.drop (i + 4) = q.drop (i + 4) := by
    apply List.ext_getElem?
    intro j
    rw [List.getElem?_drop, List.getElem?_drop]
    exact hi _ (.inr (Nat.le_add_right _ _))
  have hcut : ∀ l : Bytes, l = l.take i ++ ((l.drop i).take 4 ++ l.drop (i + 4)) := fun l => by
    rw [← List.drop_drop, List.take_append_drop, List.take_append_drop]
  refine ⟨p.take i, (p.drop i).take 4, (q.drop i).take 4, p.drop (i + 4), hcut p, ?_, ?_, ?_, ?_⟩
  · rw [hpre, hpost]
    exact hcut q
  · simp [h.length]
  · exact List.length_take_le _ _
  · intro he
    apply h.ne
    rw [hcut p, hpre, he, hpost]
    exact (hcut q).symm

namespace Crc32c

theorem bitStep_injective (b : Bool) : Function.Injective fun c => bitStep c b := by
  intro c d h
  have hx := shiftBits_injective 1 h
  exact (UInt32.xor_left_inj _).1 hx

theorem foldl_bitStep_injective (l : List Bool) :
    Function.Injective fun c => l.foldl bitStep c := by
  induction l with
  | nil => exact fun _ _ h => h
  | cons b l ih => exact ih.comp (bitStep_injective b)

theorem foldl_bits_inj {u v : Bytes} (hl : u.length = v.length) (h4 : u.length ≤ 4)
    (h : (bits u).foldl bitStep c = (bits v).foldl bitStep c) : u = v := by
  have hword : ∀ w : Bytes, w.length ≤ 4 →
      leNat w < 2 ^ 32 ∧ (bits w).foldl bitStep c =
        shiftBit^[8 * w.length] (c ^^^ UInt32.ofNat (leNat w)) := by
    intro w hw
    have hlt := leNat_lt w
    have hpow : 256 ^ w.length = 2 ^ (8 * w.length) := by rw [pow_mul]; norm_num
    have hle : 2 ^ (8 * w.length) ≤ 2 ^ 32 := Nat.pow_le_pow_right (by norm_num) (by omega)
    rw [hpow] at hlt
    exact ⟨by omega, by rw [← foldl_lowBits hlt (by omega), lowBits_leNat]⟩
  obtain ⟨hu, hfu⟩ := hword u h4
  obtain ⟨hv, hfv⟩ := hword v (hl ▸ h4)
  rw [hfu, hfv, ← hl] at h
  have hx := (UInt32.xor_right_inj _).1 (shiftBits_injective _ h)
  have hn := congrArg UInt32.toNat hx
  rw [UInt32.toNat_ofNat', UInt32.toNat_ofNat', Nat.mod_eq_of_lt hu, Nat.mod_eq_of_lt hv] at hn
  exact leNat_inj hl hn

theorem value_ne (h : Burst p q) : value p ≠ value q := by
  obtain ⟨pre, u, v, post, rfl, rfl, hl, h4, hne⟩ := h.split
  intro he
  rw [value, value, extendSoftware_eq, extendSoftware_eq, extendBitwise, extendBitwise] at he
  have hf := UInt32.not_inj.1 he
  simp only [bits_append, List.foldl_append] at hf
  exact hne (foldl_bits_inj hl h4 (foldl_bitStep_injective _ hf))

end Crc32c

namespace Wal

/-- The record of payload `p` with `q` in the place of its payload. -/
def damaged (p q : Bytes) : Bytes := putFixed32 (Crc32c.value p).toNat ++ (putFixed32 p.length ++ q)

/-- The loop stops at the damaged record, whatever follows it. -/
theorem replayLoop_damaged (hp : p.length < 2 ^ 32) (h : Burst p q) (fuel : Nat) (rest : Bytes) :
    replayLoop (fuel + 1) (damaged p q ++ rest) = { sawTruncatedTail := true } := by
  have hcrc : decodeFixed32 (damaged p q ++ rest) = (Crc32c.value p).toNat := by
    rw [damaged, List.append_assoc, decodeFixed32_put, Nat.mod_eq_of_lt (UInt32.toNat_lt _)]
  have hd4 : (damaged p q ++ rest).drop 4 = putFixed32 p.length ++ (q ++ rest) := by
    rw [damaged, List.append_assoc, List.drop_append_of_le_length (by simp),
      List.drop_of_length_le (by simp), List.nil_append, List.append_assoc]
  have hd8 : (damaged p q ++ rest).drop 8 = q ++ rest := by
    rw [show 8 = 4 + 4 from rfl, ← List.drop_drop, hd4,
      List.drop_append_of_le_length (by simp), List.drop_of_length_le (by simp), List.nil_append]
  have hlength : decodeFixed32 ((damaged p q ++ rest).drop 4) = p.length := by
    rw [hd4, decodeFixed32_put, Nat.mod_eq_of_lt hp]
  have hpay : ((damaged p q ++ rest).drop 8).take p.length = q := by
    rw [hd8, List.take_left' h.length]
  have hlen : (damaged p q ++ rest).length = 8 + p.length + rest.length := by
    simp only [damaged, List.length_append, length_putFixed32, h.length]
    omega
  have hne : (damaged p q ++ rest).isEmpty = false := by
    rw [List.isEmpty_eq_false_iff, ← List.length_pos_iff]
    omega
  have hbad : (Crc32c.value q).toNat ≠ (Crc32c.value p).toNat := fun he =>
    Crc32c.value_ne h (UInt32.toNat_inj.1 he).symm
  rw [replayLoop]
  simp only [hne, kHeaderSize, hcrc, hlength, hpay]
  rw [if_neg (by simp), if_neg (by omega), if_neg (by omega), if_pos hbad]

theorem replay_damaged {rs : List (Bytes × List Entry)} (hr : ∀ r ∈ rs, Complete r.1 r.2)
    (hp : p.length < 2 ^ 32) (h : Burst p q) (path : String) (rest : Bytes) :
    replay path (fileHeader ++ (rs.flatMap Prod.fst ++ (damaged p q ++ rest))) =
      { entries := rs.flatMap Prod.snd, sawTruncatedTail := true } := by
  have hle := length_le_flatMap_complete hr
  obtain ⟨fuel, hfuel⟩ : ∃ fuel,
      (fileHeader ++ (rs.flatMap Prod.fst ++ (damaged p q ++ rest))).length = rs.length +
      (fuel + 1) := by
    have h8 : fileHeader.length = 8 := rfl
    rw [List.length_append, List.length_append, h8]
    exact ⟨7 + ((rs.flatMap Prod.fst).length - rs.length) + (damaged p q ++ rest).length, by omega⟩
  rw [replay_header, hfuel, replayLoop_completes hr, replayLoop_damaged hp h]
  simp

end Wal

namespace Table

/-- `ReadBlock` does not accept the damaged block. -/
theorem readFile_damaged {t : Table} (hv : t.verifyChecksums = true) (h : Burst c q)
    (hfile : t.file = pre ++ (q ++ (putFixed32 (Crc32c.value c).toNat ++ post)))
    (hlt : t.file.length < 2 ^ 63) (k : Bytes) : t.readFile ⟨k, pre.length, c.length⟩ =
      .error (.corruption (t.path ++ ": block checksum mismatch")) := by
  have hbuf : (t.file.drop pre.length).take (c.length + kBlockTrailerSize) =
      q ++ putFixed32 (Crc32c.value c).toNat := by
    rw [hfile, List.drop_left' rfl, ← List.append_assoc, List.take_left']
    simp [kBlockTrailerSize, h.length]
  have hle : pre.length + (c.length + 4) ≤ t.file.length := by
    rw [hfile]
    simp only [List.length_append, length_putFixed32, h.length]
    omega
  have hn : (c.length + kBlockTrailerSize) % 2 ^ 64 = c.length + kBlockTrailerSize :=
    Nat.mod_eq_of_lt (by rw [kBlockTrailerSize]; omega)
  have hread : readFullyAt t.file pre.length (c.length + kBlockTrailerSize) =
      .ok (q ++ putFixed32 (Crc32c.value c).toNat) := by
    rw [readFullyAt, if_neg (by simp [kBlockTrailerSize]), if_neg, if_neg, hbuf] <;>
      rw [kBlockTrailerSize] <;> omega
  have hdec : decodeFixed32 ((q ++ putFixed32 (Crc32c.value c).toNat).drop c.length) =
      (Crc32c.value c).toNat := by
    rw [List.drop_left' h.length, ← List.append_nil (putFixed32 _), decodeFixed32_put,
      Nat.mod_eq_of_lt (UInt32.toNat_lt _)]
  have hbad : (Crc32c.value q).toNat ≠ (Crc32c.value c).toNat := fun he =>
    Crc32c.value_ne h (UInt32.toNat_inj.1 he).symm
  simp only [readFile, hn, hread, List.take_left' h.length, hdec]
  rw [if_pos ⟨hv, hbad⟩]

theorem fetch_error {t : Table} (h : t.readFile e = .error status) (s : Store) :
    ∃ status s', (t.fetch e).run s = (.error status, s') := by
  cases hf : s.faults with
  | nil =>
    refine ⟨status, s, ?_⟩
    simp only [fetch, StateT.run_bind, StateT.run_get, pure_bind, hf, h]
    rfl
  | cons fault rest =>
    cases fault with
    | none =>
      refine ⟨status, { s with faults := rest }, ?_⟩
      simp only [fetch, StateT.run_bind, StateT.run_get, pure_bind, hf, h]
      rfl
    | some fault =>
      refine ⟨fault.status t.path, { s with faults := rest }, ?_⟩
      simp only [fetch, StateT.run_bind, StateT.run_get, pure_bind, hf]
      rfl

theorem readBlock_error {t : Table} (h : t.readFile e = .error status) (s : Store)
    (hc : ∀ c, s.cache = some c → (c.lookup t.number e.offset).1 = none) :
    ∃ status, ((t.readBlock e).run s).1 = .error status := by
  obtain ⟨status, s', hf⟩ := fetch_error h s
  refine ⟨status, ?_⟩
  cases hcache : s.cache with
  | none =>
    simp only [readBlock, StateT.run_bind, StateT.run_get, pure_bind, hcache, hf]
  | some c =>
    have hmiss := hc c hcache
    generalize hl : c.lookup t.number e.offset = p at hmiss
    obtain ⟨found, c'⟩ := p
    cases hmiss
    simp only [readBlock, StateT.run_bind, StateT.run_get, pure_bind, hcache, hl, hf]
    rfl

end Table

/-- Damage within four consecutive bytes never goes unnoticed: the checksum changes, replay ends
before the damaged record, and the damaged block is refused. -/
theorem bursts_detected :
    (∀ p q, Burst p q → Crc32c.value p ≠ Crc32c.value q) ∧
    (∀ path (rs : List (Bytes × List Wal.Entry)) p q rest, (∀ r ∈ rs, Wal.Complete r.1 r.2) →
      p.length < 2 ^ 32 → Burst p q →
      Wal.replay path (Wal.fileHeader ++ (rs.flatMap Prod.fst ++ (Wal.damaged p q ++ rest))) =
        { entries := rs.flatMap Prod.snd, sawTruncatedTail := true }) ∧
    ∀ (t : Table) c q pre post k, t.verifyChecksums = true → Burst c q →
      t.file = pre ++ (q ++ (putFixed32 (Crc32c.value c).toNat ++ post)) → t.file.length < 2 ^ 63 →
      t.readFile ⟨k, pre.length, c.length⟩ =
        .error (.corruption (t.path ++ ": block checksum mismatch")) ∧
      ∀ s : Store, (∀ cache, s.cache = some cache → (cache.lookup t.number pre.length).1 = none) →
        ∃ status, ((t.readBlock ⟨k, pre.length, c.length⟩).run s).1 = .error status := by
  refine ⟨fun p q => Crc32c.value_ne, fun path rs p q rest hr hp h => Wal.replay_damaged hr
    hp h path rest, fun t c q pre post k hv h hfile hlt => ?_⟩
  have hread := Table.readFile_damaged hv h hfile hlt k
  exact ⟨hread, fun s hs => Table.readBlock_error hread s hs⟩

theorem bursts_detected_one_byte :
    Crc32c.value [1, 2, 3] ≠ Crc32c.value [1, 9, 3] ∧
    (Wal.replay "" (Wal.fileHeader ++
      (Wal.oneGroup.record ++ (Wal.damaged [1, 2, 3] [1, 9, 3] ++ [])))).entries =
      Wal.oneGroup.numbered ∧
    (Table.readFile ⟨"t", [1, 9, 3] ++ putFixed32 (Crc32c.value [1, 2, 3]).toNat, 1, true, [], []⟩
      ⟨[], 0, 3⟩) = .error (.corruption "t: block checksum mismatch") := by
  have hb : Burst [1, 2, 3] [1, 9, 3] := by
    refine ⟨rfl, by decide, 1, fun j hj => ?_⟩
    rcases hj with hj | hj
    · obtain rfl : j = 0 := by omega
      rfl
    · rw [List.getElem?_eq_none (by simp; omega), List.getElem?_eq_none (by simp; omega)]
  refine ⟨bursts_detected.1 _ _ hb, ?_, ?_⟩
  · have h := bursts_detected.2.1 "" [(Wal.oneGroup.record, Wal.oneGroup.numbered)] _ _ [] (by
      simpa using Wal.oneGroup_fits.complete) (by decide) hb
    simpa using congrArg Wal.ReplayResult.entries h
  · exact (bursts_detected.2.2
      ⟨"t", [1, 9, 3] ++ putFixed32 (Crc32c.value [1, 2, 3]).toNat, 1, true, [], []⟩
      [1, 2, 3] [1, 9, 3] [] [] [] rfl hb (by simp) (by simp)).1

end LsmKv
