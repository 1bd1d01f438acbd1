import LsmKv.ReadPath

namespace LsmKv
set_option autoImplicit true

open Versioned

/-- The loop variables by which a flush and a compaction recognise shadowed versions. -/
structure KeyScan where
  lastUserKey : Option Bytes := none
  lastSequenceForKey : Nat := kMaxSequenceNumber

namespace KeyScan

def isNewKey (c : KeyScan) (r : Rec) : Bool := c.lastUserKey != some r.userKey

/-- On a new user key `last_sequence_for_key` starts over. -/
def enter (c : KeyScan) (r : Rec) : KeyScan :=
  if c.isNewKey r then ⟨some r.userKey, kMaxSequenceNumber⟩ else c

def hidden (c : KeyScan) (smallestSnapshot : Nat) (r : Rec) : Bool :=
  decide ((c.enter r).lastSequenceForKey ≤ smallestSnapshot)

def visit (c : KeyScan) (r : Rec) : KeyScan := { c.enter r with lastSequenceForKey := r.seq }

end KeyScan

/-- The loop of `FlushImmutableMemTable` over the memtable's records. -/
def flushLoop (smallestSnapshot : Nat) : KeyScan → TableBuilder → List Rec → TableBuilder
  | _, b, [] => b
  | c, b, r :: rest =>
    if c.hidden smallestSnapshot r then flushLoop smallestSnapshot (c.visit r) b rest
    else flushLoop smallestSnapshot (c.visit r) (b.add r.1 r.2) rest

def dropsTombstone (bottomMost : Bool) (smallestSnapshot : Nat) (r : Rec) : Bool :=
  r.isDeletion && bottomMost && decide (r.seq ≤ smallestSnapshot)

/-- The loop of `DoCompaction` over the merged records, with the open builder if there is one:
the builders it finishes, in order. -/
def compactLoop (options : Options) (bottomMost : Bool) (smallestSnapshot : Nat) :
    KeyScan → Option TableBuilder → List Rec → List TableBuilder
  | _, b, [] => (b.map TableBuilder.finish).toList
  | c, b, r :: rest =>
    if c.hidden smallestSnapshot r then
      compactLoop options bottomMost smallestSnapshot (c.visit r) b rest
    else if dropsTombstone bottomMost smallestSnapshot r then
      compactLoop options bottomMost smallestSnapshot (c.visit r) b rest
    else
      match b with
      | none =>
        compactLoop options bottomMost smallestSnapshot (c.visit r)
          (some ((TableBuilder.new options).add r.1 r.2)) rest
      | some b =>
        if c.isNewKey r ∧ options.targetFileSize ≤ b.fileSize then
          b.finish :: compactLoop options bottomMost smallestSnapshot (c.visit r)
            (some ((TableBuilder.new options).add r.1 r.2)) rest
        else
          compactLoop options bottomMost smallestSnapshot (c.visit r) (some (b.add r.1 r.2)) rest

/-- The records the two loops keep. -/
def keepFrom (gc : Bool) (S : Nat) : KeyScan → List Rec → List Rec
  | _, [] => []
  | c, r :: rest =>
    if c.hidden S r || dropsTombstone gc S r then keepFrom gc S (c.visit r) rest
    else r :: keepFrom gc S (c.visit r) rest

theorem flushLoop_eq (S : Nat) (c : KeyScan) (b : TableBuilder) (l : List Rec) :
    flushLoop S c b l = b.addAll (keepFrom false S c l) := by
  induction l generalizing c b with
  | nil => rfl
  | cons r l ih =>
    have hd : dropsTombstone false S r = false := by simp [dropsTombstone]
    rw [flushLoop, keepFrom, hd, Bool.or_false]
    split
    · exact ih _ _
    · rw [ih]
      rfl

theorem keepFrom_sublist (gc : Bool) (S : Nat) (c : KeyScan) (l : List Rec) :
    List.Sublist (keepFrom gc S c l) l := by
  induction l generalizing c with
  | nil => exact .slnil
  | cons r l ih =>
    rw [keepFrom]
    split
    · exact (ih _).cons r
    · exact (ih _).cons_cons r

/-- With `S` at the largest sequence number the start value of `last_sequence_for_key` already
counts as visible, and nothing is kept. -/
theorem keepFrom_eq_nil (hS : kMaxSequenceNumber ≤ S) (hl : ∀ r ∈ l, r.Ok) {c : KeyScan}
    (hc : c.lastSequenceForKey ≤ S) : keepFrom gc S c l = [] := by
  induction l generalizing c with
  | nil => rfl
  | cons r l ih =>
    have hh : c.hidden S r = true := by
      rw [KeyScan.hidden, KeyScan.enter, decide_eq_true_iff]
      split
      · exact hS
      · exact hc
    rw [keepFrom, hh, Bool.true_or, if_pos rfl]
    exact ih (fun x hx => hl x (List.mem_cons_of_mem r hx))
      ((hl r List.mem_cons_self).seq_le.trans hS)

/-- What the loop variables say about the records still to come. -/
def KeyScan.Before (c : KeyScan) (l : List Rec) : Prop :=
  ∀ k, c.lastUserKey = some k → ∀ x ∈ l, k ≤ x.userKey ∧
    (x.userKey = k → x.seq ≤ c.lastSequenceForKey)

theorem KeyScan.before_start (l : List Rec) : ({} : KeyScan).Before l := fun _ h => nomatch h

theorem KeyScan.lastUserKey_visit (c : KeyScan) (r : Rec) :
    (c.visit r).lastUserKey = some r.userKey := by
  rw [visit, enter]
  cases h : c.isNewKey r with
  | true => rfl
  | false => simpa [isNewKey] using h

theorem SortedRecs.seq_le (h : SortedRecs (r :: l)) (hx : x ∈ l) (hk : x.userKey = r.userKey) :
    x.seq ≤ r.seq :=
  Rec.seq_le_of_pos_le (h.ok r List.mem_cons_self) (h.ok x (List.mem_cons_of_mem r hx)) hk.symm
    ((List.pairwise_cons.1 h.sorted).1 x hx)

theorem KeyScan.before_visit (h : SortedRecs (r :: l)) (c : KeyScan) : (c.visit r).Before l := by
  intro k hk x hx
  rw [lastUserKey_visit] at hk
  cases hk
  exact ⟨userKey_le_of_pos_le ((List.pairwise_cons.1 h.sorted).1 x hx), fun hxk => h.seq_le hx hxk⟩

theorem KeyScan.hidden_iff (hS : S < kMaxSequenceNumber) (c : KeyScan) (r : Rec) :
    c.hidden S r = true ↔ c.lastUserKey = some r.userKey ∧ c.lastSequenceForKey ≤ S := by
  rw [hidden, enter, decide_eq_true_iff, isNewKey]
  by_cases h : c.lastUserKey = some r.userKey
  · simp [h]
  · simp [h, hS]

theorem dropsTombstone_iff : dropsTombstone gc S r = true ↔
    gc = true ∧ r.isDeletion = true ∧ r.seq ≤ S := by
  simp [dropsTombstone]
  tauto

/-- Which records are kept, in terms of the versions still to come. -/
theorem mem_keepFrom (hS : S < kMaxSequenceNumber) (h : SortedRecs l) {c : KeyScan}
    (hc : c.Before l) : x ∈ keepFrom gc S c l ↔ x ∈ l ∧
      (S < x.seq ∨ Pinned {r | r ∈ l} S x ∧
        ¬ (c.lastUserKey = some x.userKey ∧ c.lastSequenceForKey ≤ S)) ∧
      dropsTombstone gc S x = false := by
  induction l generalizing c with
  | nil => simp [keepFrom]
  | cons r l ih =>
    have hrest := ih h.tail (KeyScan.before_visit h c)
    have hlast := KeyScan.lastUserKey_visit c r
    have hseq : (c.visit r).lastSequenceForKey = r.seq := rfl
    rw [hlast, hseq] at hrest
    have hkeep : x ∈ keepFrom gc S c (r :: l) ↔
        (x = r ∧ c.hidden S r = false ∧ dropsTombstone gc S r = false) ∨
          x ∈ keepFrom gc S (c.visit r) l := by
      rw [keepFrom]
      cases c.hidden S r <;> cases dropsTombstone gc S r <;> simp
    have hhid := KeyScan.hidden_iff hS c r
    rw [hkeep, hrest, List.mem_cons]
    by_cases hxr : x = r
    · subst hxr
      have hpin : x.seq ≤ S → Pinned {y | y ∈ x :: l} S x := by
        intro hx
        refine ⟨hx, fun y hy hyk _ => ?_⟩
        rcases List.mem_cons.1 hy with rfl | hy
        · exact le_refl _
        · exact h.seq_le hy hyk
      have hle := fun he => (hc x.userKey he x List.mem_cons_self).2 rfl
      by_cases hxS : S < x.seq
      · have hh : c.hidden S x = false := by
          rw [← Bool.not_eq_true, hhid]
          rintro ⟨he, hs⟩
          exact absurd (hle he) (by omega)
        simp [hh, hxS]
      · rw [← Bool.not_eq_true (c.hidden S x), hhid]
        have hp := hpin (not_lt.1 hxS)
        have hnot : ¬ S < x.seq := hxS
        have hxs : x.seq ≤ S := not_lt.1 hxS
        simp only [true_and, true_or, hnot, false_or, hp, hxs, and_true, not_true_eq_false,
          and_false, false_and, or_false]
    · simp only [hxr, false_and, false_or]
      refine and_congr_right fun hx => and_congr_left fun _ => ?_
      by_cases hxS : S < x.seq
      · simp [hxS]
      · simp only [hxS, false_or]
        have hxs : x.seq ≤ S := not_lt.1 hxS
        by_cases hk : x.userKey = r.userKey
        · have hxle := h.seq_le hx hk
          by_cases hrS : r.seq ≤ S
          · -- the head shadows `x`, which only a copy of the head could survive
            simp only [hk, hrS, and_self, not_true_eq_false, and_false, false_iff, not_and]
            intro hp
            have hrx := hp.2 r List.mem_cons_self hk.symm hrS
            exact absurd (h.distinct x (List.mem_cons_of_mem r hx) r List.mem_cons_self hk
              (le_antisymm hxle hrx)) hxr
          · have hcS : ¬ (c.lastUserKey = some x.userKey ∧ c.lastSequenceForKey ≤ S) := by
              rintro ⟨he, hs⟩
              have := (hc x.userKey he r List.mem_cons_self).2 hk.symm
              omega
            simp only [hk, hrS, and_false, not_false_eq_true, and_true]
            rw [hk] at hcS
            simp only [hcS, not_false_eq_true, and_true]
            refine ⟨fun hp => ⟨hp.1, fun y hy hyk hys => ?_⟩, fun hp => ⟨hp.1, fun y hy => ?_⟩⟩
            · rcases List.mem_cons.1 hy with rfl | hy
              · exact absurd hys hrS
              · exact hp.2 y hy hyk hys
            · exact hp.2 y (List.mem_cons_of_mem r hy)
        · have hlt : r.userKey < x.userKey := lt_of_le_of_ne
            (userKey_le_of_pos_le ((List.pairwise_cons.1 h.sorted).1 x hx)) (Ne.symm hk)
          have hcS : c.lastUserKey ≠ some x.userKey := by
            intro he
            exact absurd hlt (not_lt_of_ge (hc x.userKey he r List.mem_cons_self).1)
          have hrk : some r.userKey ≠ some x.userKey := fun he => hk (Option.some.inj he).symm
          simp only [hcS, hrk, false_and, not_false_eq_true, and_true]
          refine ⟨fun hp => ⟨hp.1, fun y hy hyk hys => ?_⟩, fun hp => ⟨hp.1, fun y hy => ?_⟩⟩
          · rcases List.mem_cons.1 hy with rfl | hy
            · exact absurd hyk.symm hk
            · exact hp.2 y hy hyk hys
          · exact hp.2 y (List.mem_cons_of_mem r hy)

/-- The loops keep what the rule for rewrites keeps. -/
theorem keepFrom_eq_retained (hS : S < kMaxSequenceNumber) (h : SortedRecs l) :
    {x | x ∈ keepFrom gc S {} l} = Retained (gc = true) S {x | x ∈ l} := by
  ext x
  have hm : x ∈ keepFrom gc S {} l ↔ _ := mem_keepFrom hS h (KeyScan.before_start l)
  rw [← Bool.not_eq_true (dropsTombstone gc S x), dropsTombstone_iff] at hm
  simp only [Set.mem_ofPred_eq, Retained, hm, Rec.seq_def, Rec.dead_def]
  refine and_congr_right fun _ => ?_
  constructor
  · rintro ⟨hx | ⟨hp, _⟩, hd⟩
    · exact .inl hx
    · exact .inr ⟨hp, fun hg => hd ⟨hg.1, hg.2, hp.1⟩⟩
  · rintro (hx | ⟨hp, hd⟩)
    · exact ⟨.inl hx, fun hg => absurd hg.2.2 (by omega)⟩
    · exact ⟨.inr ⟨hp, by simp⟩, fun hg => hd ⟨hg.1, hg.2.1⟩⟩

theorem keepFrom_ascending (h : SortedRecs l)
    (hdup : l.Pairwise fun a b => a.pos = b.pos → a.seq ≤ S) {c : KeyScan} (hc : c.Before l)
    (hS : S < kMaxSequenceNumber) : Ascending Rec.pos (keepFrom gc S c l) := by
  induction l generalizing c with
  | nil => exact .nil
  | cons r l ih =>
    have hrest := ih h.tail (List.pairwise_cons.1 hdup).2 (KeyScan.before_visit h c)
    rw [keepFrom]
    split
    · exact hrest
    · refine ascending_cons.2 ⟨fun x hx => ?_, hrest⟩
      have hm := (mem_keepFrom hS h.tail (KeyScan.before_visit h c)).1 hx
      refine lt_of_le_of_ne ((List.pairwise_cons.1 h.sorted).1 x hm.1) fun he => ?_
      have hrS := (List.pairwise_cons.1 hdup).1 x hm.1 he
      have hk : r.userKey = x.userKey := (sortKey_eq_iff.1 he).1
      rcases hm.2.1 with hx | ⟨_, hn⟩
      · exact absurd (h.seq_le hm.1 hk.symm) (by omega)
      · exact hn ⟨by rw [KeyScan.lastUserKey_visit, hk], hrS⟩

/-- The builder that holds the records `cur`, if there are any. -/
def openBuilder (options : Options) (cur : List Rec) : Option TableBuilder :=
  if cur = [] then none else some ((TableBuilder.new options).addAll cur)

theorem openBuilder_nil (options : Options) : openBuilder options [] = none := rfl

theorem openBuilder_append_singleton (options : Options) (cur : List Rec) (r : Rec) :
    openBuilder options (cur ++ [r]) =
      some (((TableBuilder.new options).addAll cur).add r.1 r.2) := by
  rw [openBuilder, if_neg (by simp), TableBuilder.addAll_append_singleton]

theorem openBuilder_singleton (options : Options) (r : Rec) :
    openBuilder options [r] = some ((TableBuilder.new options).add r.1 r.2) :=
  openBuilder_append_singleton options [] r

/-- The records that the loop of `DoCompaction` passes to `Add`, output by output; `cur` are those
of the open builder. -/
def compactAdds (options : Options) (gc : Bool) (S : Nat) :
    KeyScan → List Rec → List Rec → List (List Rec)
  | _, cur, [] => if cur = [] then [] else [cur]
  | c, cur, r :: rest =>
    if c.hidden S r then compactAdds options gc S (c.visit r) cur rest
    else if dropsTombstone gc S r then compactAdds options gc S (c.visit r) cur rest
    else if cur ≠ [] ∧ c.isNewKey r ∧
        options.targetFileSize ≤ ((TableBuilder.new options).addAll cur).fileSize then
      cur :: compactAdds options gc S (c.visit r) [r] rest
    else compactAdds options gc S (c.visit r) (cur ++ [r]) rest

theorem compactLoop_adds (options : Options) (gc : Bool) (S : Nat) (c : KeyScan)
    (cur l : List Rec) :
    compactLoop options gc S c (openBuilder options cur) l =
      (compactAdds options gc S c cur l).map
      fun es => ((TableBuilder.new options).addAll es).finish := by
  induction l generalizing c cur with
  | nil =>
    rw [compactLoop, compactAdds, openBuilder]
    split <;> rfl
  | cons r l ih =>
    rw [compactLoop.eq_def, compactAdds]
    dsimp only
    split
    · exact ih _ _
    split
    · exact ih _ _
    by_cases he : cur = []
    · subst he
      have hone := ih (c.visit r) [r]
      rw [openBuilder_singleton] at hone
      rw [if_neg (by simp)]
      exact hone
    · rw [openBuilder, if_neg he]
      by_cases hcut : c.isNewKey r = true ∧
          options.targetFileSize ≤ ((TableBuilder.new options).addAll cur).fileSize
      · have hone := ih (c.visit r) [r]
        rw [openBuilder_singleton] at hone
        simp only [if_pos hcut, if_pos (And.intro he hcut), List.map_cons, hone]
      · simp only [if_neg hcut, if_neg fun h : cur ≠ [] ∧ _ => hcut h.2]
        rw [← openBuilder_append_singleton]
        exact ih _ _

theorem flatten_compactAdds (options : Options) (gc : Bool) (S : Nat) (c : KeyScan)
    (cur l : List Rec) :
    (compactAdds options gc S c cur l).flatten = cur ++ keepFrom gc S c l := by
  induction l generalizing c cur with
  | nil =>
    rw [compactAdds, keepFrom]
    split
    · rename_i he
      rw [he]
      rfl
    · simp
  | cons r l ih =>
    rw [compactAdds, keepFrom]
    by_cases hd : c.hidden S r = true
    · simp only [hd, if_true, Bool.true_or]
      exact ih _ _
    · rw [Bool.not_eq_true] at hd
      by_cases ht : dropsTombstone gc S r = true
      · simp only [hd, ht, if_true, Bool.or_true, Bool.false_eq_true, if_false]
        exact ih _ _
      · rw [Bool.not_eq_true] at ht
        simp only [hd, ht, Bool.or_false, Bool.false_eq_true, if_false]
        split
        · rw [List.flatten_cons, ih, List.singleton_append]
        · rw [ih, List.append_assoc, List.singleton_append]

theorem compactAdds_ne_nil (h : es ∈ compactAdds options gc S c cur l) : es ≠ [] := by
  induction l generalizing c cur with
  | nil =>
    rw [compactAdds] at h
    split at h
    · cases h
    · rename_i he
      exact List.mem_singleton.1 h ▸ he
  | cons r l ih =>
    rw [compactAdds] at h
    split at h
    · exact ih h
    split at h
    · exact ih h
    split at h
    · rename_i hcut
      rcases List.mem_cons.1 h with rfl | h
      · exact hcut.1
      · exact ih h
    · exact ih h

/-- An output ends where a user key begins. -/
theorem compactAdds_order (h : SortedRecs l) {c : KeyScan} (hc : c.Before l)
    (hcur : ∀ a ∈ cur, ∃ k, c.lastUserKey = some k ∧ a.userKey ≤ k) :
    (compactAdds options gc S c cur l).Pairwise fun es fs => ∀ a ∈ es, ∀ b ∈ fs,
    a.userKey < b.userKey := by
  induction l generalizing c cur with
  | nil =>
    rw [compactAdds]
    split
    · exact .nil
    · exact List.pairwise_singleton _ _
  | cons r l ih =>
    have hle : ∀ a ∈ cur, a.userKey ≤ r.userKey := by
      intro a ha
      obtain ⟨k, hk, hak⟩ := hcur a ha
      exact hak.trans (hc k hk r List.mem_cons_self).1
    have hnext := fun cur (hcur' : ∀ a ∈ cur, a.userKey ≤ r.userKey) =>
      ih h.tail (KeyScan.before_visit h c) fun a (ha : a ∈ cur) =>
        ⟨r.userKey, KeyScan.lastUserKey_visit c r, hcur' a ha⟩
    have hsingle : ∀ a ∈ [r], a.userKey ≤ r.userKey := by simp
    rw [compactAdds]
    split
    · exact hnext cur hle
    split
    · exact hnext cur hle
    split
    · rename_i hcut
      refine List.pairwise_cons.2 ⟨fun es hes a ha b hb => ?_, hnext [r] hsingle⟩
      have hb' := List.mem_flatten.2 ⟨es, hes, hb⟩
      rw [flatten_compactAdds, List.singleton_append] at hb'
      have hrb : r.userKey ≤ b.userKey := by
        rcases List.mem_cons.1 hb' with rfl | hb'
        · exact le_refl _
        · exact userKey_le_of_pos_le ((List.pairwise_cons.1 h.sorted).1 b
            ((keepFrom_sublist gc S _ l).subset hb'))
      refine lt_of_lt_of_le (lt_of_le_of_ne (hle a ha) fun hk => ?_) hrb
      obtain ⟨k, hck, hak⟩ := hcur a ha
      have hkr : k = r.userKey := le_antisymm (hc k hck r List.mem_cons_self).1 (hk ▸ hak)
      have hnew := hcut.2.1
      rw [KeyScan.isNewKey, hck, hkr] at hnew
      simp at hnew
    · refine hnext (cur ++ [r]) fun a ha => ?_
      rcases List.mem_append.1 ha with ha | ha
      · exact hle a ha
      · exact hsingle a ha

theorem compactLoop_eq (options : Options) (h : SortedRecs l) {c : KeyScan} (hc : c.Before l)
    (hcur : ∀ a ∈ cur, ∃ k, c.lastUserKey = some k ∧ a.userKey ≤ k) :
    ∃ outs : List (List Rec),
      compactLoop options gc S c (openBuilder options cur) l =
        outs.map (fun es => ((TableBuilder.new options).addAll es).finish) ∧
      outs.flatten = cur ++ keepFrom gc S c l ∧ (∀ es ∈ outs, es ≠ []) ∧
      outs.Pairwise fun es fs => ∀ a ∈ es, ∀ b ∈ fs, a.userKey < b.userKey :=
  ⟨_, compactLoop_adds options gc S c cur l, flatten_compactAdds options gc S c cur l,
    fun _ => compactAdds_ne_nil, compactAdds_order h hc hcur⟩

/-- `x` is newer than `S`, or no version of its key in `l` at or below `S` is newer than it. -/
def keptBy (S : Nat) (l : List Rec) (x : Rec) : Bool :=
  decide (S < x.seq ∨ ∀ y ∈ l, y.userKey = x.userKey → y.seq ≤ S → y.seq ≤ x.seq)

theorem keptBy_iff : keptBy S l x = true ↔
    S < x.seq ∨ ∀ y ∈ l, y.userKey = x.userKey → y.seq ≤ S → y.seq ≤ x.seq := by
  rw [keptBy, decide_eq_true_iff]

theorem sortedRecs_of_ascending (hok : ∀ r ∈ l, r.Ok) (hasc : Ascending Rec.pos l)
    (hd : l.Pairwise fun a b => a.userKey = b.userKey → a.seq ≠ b.seq) : SortedRecs l where
  sorted := hasc.imp le_of_lt
  ok := hok
  distinct := by
    intro a ha b hb hk hs
    by_contra hne
    have hsymm : Std.Symm fun a b : Rec => a.userKey = b.userKey → a.seq ≠ b.seq :=
      ⟨fun _ _ h hk hs => h hk.symm hs.symm⟩
    exact hd.forall ha hb hne hk hs

theorem keepFrom_eq_filter (hS : S < kMaxSequenceNumber) (h : SortedRecs l)
    (hasc : Ascending Rec.pos l) : keepFrom gc S {} l =
      (l.filter (keptBy S l)).filter fun x => !dropsTombstone gc S x := by
  apply (hasc.sublist (keepFrom_sublist gc S {} l)).ext ((hasc.filter _).filter _)
  intro x
  rw [mem_keepFrom hS h (KeyScan.before_start l), List.mem_filter, List.mem_filter, keptBy_iff]
  simp only [reduceCtorEq, false_and, not_false_eq_true, and_true, Bool.not_eq_true', and_assoc]
  refine and_congr_right fun _ => and_congr_left fun _ => ?_
  constructor
  · rintro (hx | hx)
    · exact .inl hx
    · exact .inr hx.2
  · rintro (hx | hx)
    · exact .inl hx
    · by_cases hxS : S < x.seq
      · exact .inl hxS
      · exact .inr ⟨not_lt.1 hxS, hx⟩

theorem existsUnique_kept (h : SortedRecs l) (hl : ∀ x ∈ l, x.seq ≤ S) (hx : x ∈ l) :
    ∃! y, y ∈ l.filter (keptBy S l) ∧ y.userKey = x.userKey := by
  obtain ⟨z, hz, hk, _, hp⟩ := exists_pinned (I := {r | r ∈ l}) hx (hl x hx)
  have hmax := hp.2
  refine ⟨z, ⟨List.mem_filter.2 ⟨hz, keptBy_iff.2 (.inr hmax)⟩, hk⟩, ?_⟩
  rintro y ⟨hy, hyk⟩
  obtain ⟨hyl, hkept⟩ := List.mem_filter.1 hy
  have hkz : y.userKey = z.userKey := hyk.trans hk.symm
  have hzy : z.seq ≤ y.seq := by
    rcases keptBy_iff.1 hkept with hlt | hmaxy
    · exact absurd (hl y hyl) (not_le_of_gt hlt)
    · exact hmaxy z hz hkz.symm (hl z hz)
  exact h.distinct y hyl z hz hkz (le_antisymm (hmax y hyl hkz (hl y hyl)) hzy)

/-- What a flush and a compaction write of a strictly ordered run of records. -/
theorem loops_write_kept (options : Options) (bottomMost : Bool) (hS : S < kMaxSequenceNumber)
    (hok : ∀ r ∈ l, r.Ok) (hasc : Ascending Rec.pos l)
    (hd : l.Pairwise fun a b => a.userKey = b.userKey → a.seq ≠ b.seq) :
    flushLoop S {} (TableBuilder.new options) l =
        (TableBuilder.new options).addAll (l.filter (keptBy S l)) ∧
      (∃ outs : List (List Rec),
        compactLoop options bottomMost S {} none l =
          outs.map (fun es => ((TableBuilder.new options).addAll es).finish) ∧
        outs.flatten = (l.filter (keptBy S l)).filter
          (fun x => !(bottomMost && x.isDeletion && decide (x.seq ≤ S))) ∧
        (bottomMost = true → ∀ x ∈ outs.flatten, x.isDeletion = true → S < x.seq)) ∧
      ((∀ x ∈ l, x.seq ≤ S) → ∀ x ∈ l, ∃! y, y ∈ l.filter (keptBy S l) ∧
        y.userKey = x.userKey) := by
  have hs := sortedRecs_of_ascending hok hasc hd
  refine ⟨?_, ?_, fun hl x hx => existsUnique_kept hs hl hx⟩
  · rw [flushLoop_eq, keepFrom_eq_filter hS hs hasc]
    simp [dropsTombstone]
  · have hnil : ∀ a ∈ ([] : List Rec), ∃ k, KeyScan.lastUserKey {} = some k ∧ a.userKey ≤ k := by
      simp
    obtain ⟨outs, hm, hf, _⟩ :
        ∃ outs, compactLoop options bottomMost S {} (openBuilder options []) l = _ ∧ _ :=
      compactLoop_eq options hs (KeyScan.before_start l) hnil
    rw [openBuilder_nil] at hm
    rw [List.nil_append, keepFrom_eq_filter hS hs hasc] at hf
    have hdrop : ∀ x, dropsTombstone bottomMost S x =
        (bottomMost && x.isDeletion && decide (x.seq ≤ S)) := by
      intro x
      rw [dropsTombstone, Bool.and_comm x.isDeletion]
    simp only [hdrop] at hf
    refine ⟨outs, hm, hf, fun hb x hx ht => ?_⟩
    rw [hf, hb] at hx
    have hkeep := (List.mem_filter.1 hx).2
    rw [ht] at hkeep
    simpa using hkeep

/-- Of two versions of one key with nothing pinned a flush writes the newer one alone. -/
theorem loops_write_kept_deleted :
    let l := [Rec.encode [97] 2 .kDeletion [], Rec.encode [97] 1 .kValue [98]]
    l.filter (keptBy 5 l) = [Rec.encode [97] 2 .kDeletion []] ∧
      flushLoop 5 {} (TableBuilder.new {}) l =
        (TableBuilder.new {}).addAll [Rec.encode [97] 2 .kDeletion []] := by
  intro l
  have hkept : l.filter (keptBy 5 l) = [Rec.encode [97] 2 .kDeletion []] := by decide
  have hok : ∀ r ∈ l, r.Ok := by
    intro r hr
    rcases List.mem_pair.1 hr with rfl | rfl
    · exact Rec.encode_ok (by decide)
    · exact Rec.encode_ok (by decide)
  have hlt : Rec.pos (Rec.encode [97] 2 .kDeletion []) < Rec.pos (Rec.encode [97] 1 .kValue [98]) :=
    (sortKey_encode_lt (by decide) (by decide)).2 (.inr ⟨rfl, .inl (by decide)⟩)
  have hflush := (loops_write_kept (S := 5) {} true (by decide) hok (List.pairwise_pair.2 hlt)
    (List.pairwise_pair.2 fun _ => by decide)).1
  rw [hkept] at hflush
  exact ⟨hkept, hflush⟩

end LsmKv
