import LsmKv.Wal

namespace LsmKv.Wal
set_option autoImplicit true

/-- Where a record ends can be read off its bytes, and so can the group. -/
theorem Group.record_append_inj {g g' : Group} (h : g.Fits) (h' : g'.Fits)
    (he : g.record ++ a = g'.record ++ b) : g = g' ∧ a = b := by
  rw [record, record, Wal.record, Wal.record] at he
  simp only [List.append_assoc] at he
  obtain ⟨_, he⟩ := List.append_inj he (by simp)
  have hlen : (payload g.base (.ofEntries g.entries)).length =
      (payload g'.base (.ofEntries g'.entries)).length := by
    have hd := congrArg decodeFixed32 he
    rw [decodeFixed32_put, decodeFixed32_put] at hd
    have hs := h.size
    have hs' := h'.size
    rw [length_payload, length_payload] at hd ⊢
    rwa [Nat.mod_eq_of_lt hs, Nat.mod_eq_of_lt hs'] at hd
  obtain ⟨_, he⟩ := List.append_inj he (by simp)
  obtain ⟨hp, rfl⟩ := List.append_inj he hlen
  refine ⟨?_, rfl⟩
  rw [payload, payload] at hp
  have hbase : g.base = g'.base := by
    have hd := congrArg decodeFixed64 hp
    rwa [decodeFixed64_put, decodeFixed64_put, Nat.mod_eq_of_lt h.base_lt,
      Nat.mod_eq_of_lt h'.base_lt] at hd
  obtain ⟨_, hp⟩ := List.append_inj hp (by simp)
  obtain ⟨hc, hr⟩ := List.append_inj hp (by simp)
  have hcount : (WriteBatch.ofEntries g.entries).count =
      (WriteBatch.ofEntries g'.entries).count := by
    have hd := congrArg (fun p => decodeFixed32 (p ++ [])) hc
    rw [decodeFixed32_put, decodeFixed32_put] at hd
    simpa [WriteBatch.ofEntries_count] using hd
  have hbatch : WriteBatch.ofEntries g.entries = WriteBatch.ofEntries g'.entries := by
    cases hb : WriteBatch.ofEntries g.entries
    cases hb' : WriteBatch.ofEntries g'.entries
    rw [hb, hb'] at hr hcount
    cases hr
    cases hcount
    rfl
  have hentries : g.entries = g'.entries := by
    have hf := h.forEach
    rw [hbatch, h'.forEach] at hf
    exact (congrArg Prod.fst hf).symm
  cases g
  cases g'
  cases hbase
  cases hentries
  rfl

theorem Group.record_ne_nil (g : Group) : g.record ≠ [] := by
  intro h
  have hl := length_record g.base (.ofEntries g.entries)
  rw [Group.record] at h
  rw [h, List.length_nil] at hl
  omega

theorem Torn.not_record (h : Torn tail) {g : Group} (hg : g.Fits) : tail ≠ g.record ++ rest := by
  rintro rfl
  rcases h with he | ⟨g', hg', ⟨c, hc⟩, hlt⟩
  · exact g.record_ne_nil (List.append_eq_nil_iff.1 he).1
  · have he : g.record ++ (rest ++ c) = g'.record ++ [] := by simpa using hc
    obtain ⟨rfl, hnil⟩ := Group.record_append_inj hg hg' he
    rw [(List.append_eq_nil_iff.1 hnil).1, List.append_nil] at hlt
    exact lt_irrefl _ hlt

theorem Torn.take (h : Torn tail) (n : Nat) : Torn (tail.take n) := by
  rcases h with rfl | ⟨g, hg, hp, hlt⟩
  · exact .inl List.take_nil
  · refine .inr ⟨g, hg, (List.take_prefix n tail).trans hp, ?_⟩
    exact (List.take_prefix n tail).length_le.trans_lt hlt

theorem records_compare {xs ys : List Group} (hx : ∀ g ∈ xs, g.Fits) (hy : ∀ g ∈ ys, g.Fits)
    (he : xs.flatMap Group.record ++ a = ys.flatMap Group.record ++ b) :
    (∃ zs, ys = xs ++ zs ∧ a = zs.flatMap Group.record ++ b) ∨
      ∃ z zs, xs = ys ++ z :: zs ∧ b = (z :: zs).flatMap Group.record ++ a := by
  induction xs generalizing ys with
  | nil => exact .inl ⟨ys, rfl, he⟩
  | cons x xs ih =>
    cases ys with
    | nil => exact .inr ⟨x, xs, rfl, he.symm⟩
    | cons y ys =>
      rw [List.flatMap_cons, List.flatMap_cons, List.append_assoc, List.append_assoc] at he
      obtain ⟨rfl, hrest⟩ :=
        Group.record_append_inj (hx x List.mem_cons_self) (hy y List.mem_cons_self) he
      rcases ih (fun g hg => hx g (List.mem_cons_of_mem x hg))
        (fun g hg => hy g (List.mem_cons_of_mem x hg)) hrest with ⟨zs, rfl, ha⟩ | ⟨z, zs, rfl, hb⟩
      · exact .inl ⟨zs, rfl, ha⟩
      · exact .inr ⟨z, zs, rfl, hb⟩

theorem Image.covers {xs gs : List Group} (h : Image gs bytes) (hg : ∀ g ∈ gs, g.Fits)
    (hx : ∀ g ∈ xs, g.Fits) (he : bytes = fileHeader ++ (xs.flatMap Group.record ++ rest)) :
    ∃ zs, gs = xs ++ zs := by
  cases h with
  | header hp =>
    obtain ⟨c, hc⟩ := hp
    rw [he, List.append_assoc] at hc
    have hnil := List.append_cancel_left (hc.trans (List.append_nil _).symm)
    cases xs with
    | nil => exact ⟨[], rfl⟩
    | cons x xs =>
      rw [List.flatMap_cons] at hnil
      simp only [List.append_eq_nil_iff] at hnil
      exact absurd hnil.1.1.1 x.record_ne_nil
  | records _ ht =>
    rcases records_compare hx hg (List.append_cancel_left he).symm with ⟨zs, hz, _⟩
      | ⟨z, zs, rfl, hz⟩
    · exact ⟨zs, hz⟩
    · rw [List.flatMap_cons, List.append_assoc] at hz
      exact absurd hz (ht.not_record (hx z (by simp)))

theorem eq_nil_of_header {xs : List Group}
    (h : fileHeader = fileHeader ++ (xs.flatMap Group.record ++ rest)) :
    xs = [] := by
  have hle := congrArg List.length h
  have hlen := length_flatMap_record xs
  rw [List.length_append, List.length_append] at hle
  exact List.length_eq_zero_iff.1 (by omega)

theorem Image.eq_nil {gs : List Group} (h : Image [] bytes) (h' : Image gs bytes)
    (hg : ∀ g ∈ gs, g.Fits) : gs = [] := by
  cases h' with
  | header _ => rfl
  | records _ _ =>
    obtain ⟨zs, hz⟩ := h.covers (fun _ hx => (by cases hx)) hg rfl
    exact (List.append_eq_nil_iff.1 hz.symm).1

/-- What is left of a log that is cut: its first groups, and every group before the cut. -/
theorem Image.take {gs : List Group} (h : Image gs bytes) (hg : ∀ g ∈ gs, g.Fits) (c : Nat) :
    ∃ k ≤ gs.length, Image (gs.take k) (bytes.take c) ∧
      ∀ j ≤ gs.length, endOf (gs.take j) ≤ c → j ≤ k := by
  cases h with
  | header hp =>
    refine ⟨0, Nat.zero_le _, .header ((List.take_prefix c bytes).trans hp), ?_⟩
    intro j hj _
    exact hj
  | @records tail _ ht =>
    have hh : fileHeader.length = 8 := rfl
    have hend : ∀ j, endOf (gs.take j) = 8 + ((gs.take j).flatMap Group.record).length :=
      fun _ => rfl
    by_cases hc : c ≤ 8
    · refine ⟨0, Nat.zero_le _, ?_, fun j hj hle => ?_⟩
      · rw [List.take_append_of_le_length (hh ▸ hc)]
        exact .header (List.take_prefix c _)
      · have hlen := length_flatMap_record (gs.take j)
        rw [List.length_take, min_eq_left hj] at hlen
        rw [hend] at hle
        omega
    · have hcut : ∀ b : Bytes, (fileHeader ++ b).take c = fileHeader ++ b.take (c - 8) := by
        intro b
        rw [List.take_append, List.take_of_length_le (by omega), hh]
      rw [hcut]
      by_cases hall : (gs.flatMap Group.record).length ≤ c - 8
      · refine ⟨gs.length, le_rfl, ?_, fun j hj _ => hj⟩
        rw [List.take_length, List.take_append, List.take_of_length_le hall]
        exact .records gs (ht.take _)
      · obtain ⟨k, hk, tail', ht', he, hj⟩ := take_records hg (n := c - 8) (not_le.1 hall).le
        refine ⟨k, hk, ?_, fun j hjl hle => (hj j hjl).1 ?_⟩
        · rw [List.take_append_of_le_length (not_le.1 hall).le, he]
          exact .records _ ht'
        · rw [hend] at hle
          omega

end LsmKv.Wal
