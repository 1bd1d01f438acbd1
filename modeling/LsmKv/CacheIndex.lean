import LsmKv.Cache
import LsmKv.Library.Recency

namespace LsmKv
set_option autoImplicit true

/-- A node of the list `order`; an iterator is the name of a node. -/
structure CacheNode where
  id : Nat
  entry : CacheEntry
deriving DecidableEq

def CacheNode.key (n : CacheNode) : Nat × Nat := n.entry.key

/-- A shard with its hash index. `fresh` is the name of the next node. The sizes add up without
wrapping around, as the blocks are in memory at the same time; a difference may wrap around. -/
structure IndexedShard where
  order : List CacheNode := []
  index : Nat × Nat → Option Nat := fun _ => none
  charge : Nat := 0
  capacity : Nat := 0
  fresh : Nat := 0

namespace IndexedShard

def keys (s : IndexedShard) : List (Nat × Nat) := s.order.map CacheNode.key

/-- The keys and their blocks, in the order of the list. -/
def entries (s : IndexedShard) : List ((Nat × Nat) × Bytes) :=
  s.order.map fun n => (n.key, n.entry.value)

/-- A hit moves to the front. The outer `none` is the use of an iterator that points to no node. -/
def touch (s : IndexedShard) (key : Nat × Nat) : Option (Option (CacheEntry × IndexedShard)) :=
  match s.index key with
  | none => some none
  | some it =>
    match s.order.find? (·.id == it) with
    | none => none
    | some n => some (some (n.entry, { s with order := n :: s.order.eraseP (·.id == it) }))

/-- What the eviction loop and `EraseFile` do with a node. -/
def remove (s : IndexedShard) (victim : CacheNode) : IndexedShard :=
  { s with
    charge := sizeSub s.charge victim.entry.charge
    index := Function.update s.index victim.key none
    order := s.order.eraseP (·.id == victim.id) }

def evict : Nat → IndexedShard → IndexedShard
  | 0, s => s
  | fuel + 1, s =>
    if s.capacity < s.charge then
      match s.order.getLast? with
      | none => s
      | some victim => if s.order.length = 1 then s else evict fuel (s.remove victim)
    else s

def pushFront (s : IndexedShard) (e : CacheEntry) : IndexedShard :=
  { s with
    order := ⟨s.fresh, e⟩ :: s.order
    index := Function.update s.index e.key (some ((s.index e.key).getD s.fresh))
    charge := s.charge + e.charge
    fresh := s.fresh + 1 }

def insert (s : IndexedShard) (e : CacheEntry) : Option (CacheEntry × IndexedShard) := do
  match ← s.touch e.key with
  | some hit => some hit
  | none => some (e, evict (s.order.length + 1) (s.pushFront e))

/-- The loop of `EraseFile` over the nodes from its iterator on. -/
def eraseLoop (fileNumber : Nat) : List CacheNode → IndexedShard → IndexedShard
  | [], s => s
  | n :: rest, s =>
    if n.entry.fileNumber = fileNumber then eraseLoop fileNumber rest (s.remove n)
    else eraseLoop fileNumber rest s

def eraseFile (s : IndexedShard) (fileNumber : Nat) : IndexedShard :=
  eraseLoop fileNumber s.order s

/-- List, index and byte count agree. -/
structure Ok (s : IndexedShard) : Prop where
  nodes : (s.order.map CacheNode.id).Nodup
  keys : s.keys.Nodup
  index : ∀ key it, s.index key = some it ↔ ∃ n ∈ s.order, n.key = key ∧ n.id = it
  charge : s.charge = (s.order.map fun n => n.entry.value.length).sum
  entry : ∀ n ∈ s.order, n.entry.charge = n.entry.value.length
  fresh : ∀ n ∈ s.order, n.id < s.fresh

/-- What the eviction loop is there for. -/
def WithinBudget (s : IndexedShard) : Prop := s.charge ≤ s.capacity ∨ s.order.length = 1

variable {s s' : IndexedShard} {n : CacheNode} {a b : List CacheNode} {key : Nat × Nat}

theorem ok_empty (capacity : Nat) : Ok { capacity := capacity } where
  nodes := List.nodup_nil
  keys := List.nodup_nil
  index := by simp
  charge := rfl
  entry := fun n h => (nomatch h)
  fresh := fun n h => (nomatch h)

theorem Ok.perm (h : s.Ok) {l : List CacheNode} (hl : l.Perm s.order) :
    Ok { s with order := l } where
  nodes := (hl.map _).nodup_iff.2 h.nodes
  keys := (hl.map _).nodup_iff.2 h.keys
  index := fun key it => by simp only [h.index, hl.mem_iff]
  charge := h.charge.trans (hl.map _).sum_eq.symm
  entry := fun n hn => h.entry n (hl.mem_iff.1 hn)
  fresh := fun n hn => h.fresh n (hl.mem_iff.1 hn)

theorem Ok.eraseP (h : s.Ok) (ho : s.order = a ++ n :: b) :
    s.order.eraseP (·.id == n.id) = a ++ b := by
  have hnd := h.nodes
  rw [ho, List.map_append, List.map_cons] at hnd
  have ha : ∀ m ∈ a, ¬ (m.id == n.id) = true := by
    intro m hm he
    refine (List.nodup_append.1 hnd).2.2 m.id (List.mem_map_of_mem hm) n.id List.mem_cons_self ?_
    exact beq_iff_eq.1 he
  rw [ho, List.eraseP_append_right _ ha, List.eraseP_cons_of_pos (by simp)]

theorem Ok.keys_ne (h : s.Ok) (ho : s.order = a ++ n :: b) : ∀ m ∈ a ++ b, m.key ≠ n.key := by
  have hnd := h.keys
  rw [IndexedShard.keys, ho, List.map_append, List.map_cons] at hnd
  have hn := (List.nodup_middle.1 hnd)
  rw [List.nodup_cons, ← List.map_append] at hn
  intro m hm he
  exact hn.1 (he ▸ List.mem_map_of_mem hm)

theorem Ok.remove (h : s.Ok) (ho : s.order = a ++ n :: b) :
    (s.remove n).Ok ∧ (s.remove n).order = a ++ b := by
  have horder : (s.remove n).order = a ++ b := h.eraseP ho
  have hsub : (a ++ b).Sublist s.order := by
    rw [ho]
    exact List.Sublist.append_left (List.sublist_cons_self n b) a
  have hmem : ∀ m, m ∈ s.order ↔ m ∈ a ++ b ∨ m = n := by
    intro m
    rw [ho]
    simp only [List.mem_append, List.mem_cons]
    tauto
  have hcharge : s.charge = n.entry.charge + ((a ++ b).map fun m => m.entry.value.length).sum := by
    rw [h.charge, ho, h.entry n ((hmem n).2 (.inr rfl))]
    simp only [List.map_append, List.map_cons, List.sum_append, List.sum_cons]
    omega
  refine ⟨⟨?_, ?_, ?_, ?_, ?_, ?_⟩, horder⟩
  · rw [horder]
    exact h.nodes.sublist (hsub.map _)
  · rw [IndexedShard.keys, horder]
    exact h.keys.sublist (hsub.map _)
  · intro key it
    rw [horder]
    by_cases hk : key = n.key
    · subst hk
      simp only [IndexedShard.remove, Function.update_self]
      refine ⟨fun hh => (nomatch hh), ?_⟩
      rintro ⟨m, hm, hmk, _⟩
      exact absurd hmk (h.keys_ne ho m hm)
    · simp only [IndexedShard.remove, Function.update_of_ne hk, h.index, hmem]
      constructor
      · rintro ⟨m, hm | rfl, hmk, hid⟩
        · exact ⟨m, hm, hmk, hid⟩
        · exact absurd hmk.symm hk
      · rintro ⟨m, hm, hmk, hid⟩
        exact ⟨m, .inl hm, hmk, hid⟩
  · rw [horder, IndexedShard.remove]
    simp only
    rw [sizeSub_eq (by omega), hcharge, Nat.add_sub_cancel_left]
  · intro m hm
    rw [horder] at hm
    exact h.entry m (hsub.subset hm)
  · intro m hm
    rw [horder] at hm
    exact h.fresh m (hsub.subset hm)

theorem Ok.pushFront (h : s.Ok) {e : CacheEntry} (he : e.charge = e.value.length)
    (hk : e.key ∉ s.keys) : (s.pushFront e).Ok := by
  have hnone : s.index e.key = none := by
    rw [Option.eq_none_iff_forall_ne_some]
    intro it hit
    obtain ⟨n, hn, hkey, _⟩ := (h.index _ _).1 hit
    exact hk (hkey ▸ List.mem_map_of_mem hn)
  refine ⟨?_, ?_, ?_, ?_, ?_, ?_⟩
  · simp only [IndexedShard.pushFront, List.map_cons, List.nodup_cons]
    refine ⟨fun hm => ?_, h.nodes⟩
    obtain ⟨n, hn, hid⟩ := List.mem_map.1 hm
    exact (h.fresh n hn).ne hid
  · simp only [IndexedShard.pushFront, IndexedShard.keys, List.map_cons, List.nodup_cons]
    exact ⟨hk, h.keys⟩
  · intro key it
    simp only [IndexedShard.pushFront, hnone, Option.getD_none, List.mem_cons]
    by_cases hkey : key = e.key
    · subst hkey
      simp only [Function.update_self, Option.some.injEq]
      constructor
      · rintro rfl
        exact ⟨⟨s.fresh, e⟩, .inl rfl, rfl, rfl⟩
      · rintro ⟨n, rfl | hn, hnk, rfl⟩
        · rfl
        · exact absurd (hnk ▸ List.mem_map_of_mem hn) hk
    · simp only [Function.update_of_ne hkey, h.index]
      constructor
      · rintro ⟨n, hn, hnk, hid⟩
        exact ⟨n, .inr hn, hnk, hid⟩
      · rintro ⟨n, rfl | hn, hnk, hid⟩
        · exact absurd hnk.symm hkey
        · exact ⟨n, hn, hnk, hid⟩
  · simp only [IndexedShard.pushFront, List.map_cons, List.sum_cons, ← h.charge, he]
    omega
  · intro n hn
    obtain rfl | hn := List.mem_cons.1 hn
    · exact he
    · exact h.entry n hn
  · intro n hn
    obtain rfl | hn := List.mem_cons.1 hn
    · exact Nat.lt_succ_self _
    · exact Nat.lt_succ_of_lt (h.fresh n hn)

/-- A touch misses a key that is not there, and moves the node of one that is. -/
theorem Ok.touch (h : s.Ok) (key : Nat × Nat) :
    (key ∉ s.keys ∧ s.touch key = some none) ∨
    ∃ a n b, s.order = a ++ n :: b ∧ n.key = key ∧
      s.touch key = some (some (n.entry, { s with order := n :: (a ++ b) })) := by
  rw [IndexedShard.touch]
  cases hi : s.index key with
  | none =>
    refine .inl ⟨fun hm => ?_, rfl⟩
    obtain ⟨n, hn, hk⟩ := List.mem_map.1 hm
    have := (h.index key n.id).2 ⟨n, hn, hk, rfl⟩
    rw [hi] at this
    cases this
  | some it =>
    obtain ⟨n, hn, hk, rfl⟩ := (h.index _ _).1 hi
    obtain ⟨a, b, ho⟩ := List.append_of_mem hn
    have hfind : s.order.find? (·.id == n.id) = some n := by
      rw [List.find?_eq_some_iff_append]
      refine ⟨by simp, a, b, ho, fun m hm => ?_⟩
      have hnd := h.nodes
      rw [ho, List.map_append, List.map_cons] at hnd
      have hne := (List.nodup_append.1 hnd).2.2 m.id (List.mem_map_of_mem hm) n.id
        List.mem_cons_self
      simpa using hne
    refine .inr ⟨a, n, b, ho, hk, ?_⟩
    simp only [hfind, h.eraseP ho]

theorem Ok.keys_front (h : s.Ok) (ho : s.order = a ++ n :: b) :
    IndexedShard.keys { s with order := n :: (a ++ b) } = toFront n.key s.keys := by
  have hne : n.key ∉ (a ++ b).map CacheNode.key := by
    intro hm
    obtain ⟨m, hm, hk⟩ := List.mem_map.1 hm
    exact h.keys_ne ho m hm hk
  have hkeys : s.keys = a.map CacheNode.key ++ n.key :: b.map CacheNode.key := by
    rw [IndexedShard.keys, ho, List.map_append, List.map_cons]
  have hdrop : s.keys.filter (· ≠ n.key) = ((a ++ b).map CacheNode.key).filter (· ≠ n.key) := by
    rw [hkeys, List.map_append, List.filter_append, List.filter_append,
      List.filter_cons_of_neg (by simp)]
  rw [toFront, hdrop, ← toFront, toFront_of_notMem hne]
  rfl

theorem Ok.withinBudget (h : s.Ok) (h' : s'.Ok) (hsub : s'.order.Sublist s.order)
    (hcap : s'.capacity = s.capacity) (hb : s.WithinBudget) : s'.WithinBudget := by
  have hle : s'.charge ≤ s.charge := by
    rw [h.charge, h'.charge]
    exact (hsub.map _).sum_le_sum fun _ _ => Nat.zero_le _
  obtain hb | hone := hb
  · left
    omega
  · obtain hnil | hpos := Nat.eq_zero_or_pos s'.order.length
    · left
      rw [h'.charge, List.length_eq_zero_iff.1 hnil]
      exact Nat.zero_le _
    · right
      have := hsub.length_le
      omega

/-- The loop drops from the back, until the shard is within its budget. -/
theorem Ok.evict (h : s.Ok) (hl : s.order.length ≤ fuel) :
    (evict fuel s).Ok ∧ (evict fuel s).WithinBudget ∧ (evict fuel s).capacity = s.capacity ∧
      (evict fuel s).order = trim (fun n => n.entry.value.length) s.capacity s.order := by
  induction fuel generalizing s with
  | zero =>
    have hnil : s.order = [] := List.length_eq_zero_iff.1 (Nat.le_zero.1 hl)
    refine ⟨h, .inl ?_, rfl, ?_⟩
    · rw [IndexedShard.evict, h.charge, hnil]
      exact Nat.zero_le _
    · rw [IndexedShard.evict, hnil]
      rfl
  | succ fuel ih =>
    rw [IndexedShard.evict]
    by_cases hc : s.capacity < s.charge
    · rw [if_pos hc]
      obtain hnil | ⟨a, n, ho⟩ := s.order.eq_nil_or_concat
      · rw [h.charge, hnil] at hc
        cases hc
      rw [List.concat_eq_append] at ho
      rw [ho, List.getLast?_concat]
      simp only
      split
      · rename_i hone
        have ha : a = [] := by simpa using hone
        refine ⟨h, .inr (ho ▸ hone), rfl, ?_⟩
        rw [ho, ha]
        exact (trim_singleton n).symm
      · rename_i hone
        obtain ⟨hok, horder⟩ := h.remove ho
        rw [List.append_nil] at horder
        have hlen : (s.remove n).order.length ≤ fuel := by
          rw [horder]
          rw [ho, List.length_append] at hl
          exact Nat.le_of_succ_le_succ hl
        obtain ⟨h1, h2, h3, h4⟩ := ih hok hlen
        refine ⟨h1, h2, h3, h4.trans ?_⟩
        rw [h.charge, ho] at hc
        rw [horder, trim_concat hc fun ha => hone (by rw [ha]; rfl)]
        rfl
    · rw [if_neg hc]
      refine ⟨h, .inl (not_lt.1 hc), rfl, (trim_eq_self ?_).symm⟩
      rw [← h.charge]
      exact not_lt.1 hc

theorem Ok.hit (h : s.Ok) (hb : s.WithinBudget) (ho : s.order = a ++ n :: b) :
    Ok { s with order := n :: (a ++ b) } ∧ WithinBudget { s with order := n :: (a ++ b) } := by
  have hperm : (n :: (a ++ b)).Perm s.order := by
    rw [ho]
    exact List.perm_middle.symm
  refine ⟨h.perm hperm, hb.imp id fun hone => ?_⟩
  exact hperm.length_eq.trans hone

theorem map_fst_entries (s : IndexedShard) : s.entries.map Prod.fst = s.keys := List.map_map ..

theorem Ok.entries_front (h : s.Ok) (ho : s.order = a ++ n :: b) :
    IndexedShard.entries { s with order := n :: (a ++ b) } = lruTouch n.key s.entries := by
  have hentries : s.entries = (a.map fun n => (n.key, n.entry.value)) ++ (n.key, n.entry.value) ::
      b.map fun n => (n.key, n.entry.value) := by
    rw [IndexedShard.entries, ho, List.map_append, List.map_cons]
  rw [hentries, lruTouch_of_split (e := (n.key, n.entry.value))]
  · rw [IndexedShard.entries, List.map_cons, List.map_append]
  · rw [← List.map_append]
    intro x hx
    obtain ⟨m, hm, rfl⟩ := List.mem_map.1 hx
    exact h.keys_ne ho m hm

theorem Ok.insert (h : s.Ok) (hb : s.WithinBudget) {e : CacheEntry}
    (he : e.charge = e.value.length) :
    ∃ x s', s.insert e = some (x, s') ∧ s'.Ok ∧ s'.WithinBudget ∧
      s'.keys <+: toFront e.key s.keys ∧ s'.capacity = s.capacity ∧
      s'.entries = lruInsert List.length s.capacity e.key e.value s.entries := by
  have hany : (s.entries.any fun x => x.1 = e.key) = true ↔ e.key ∈ s.keys := by
    rw [← map_fst_entries, List.any_eq_true, List.mem_map]
    simp only [decide_eq_true_eq]
  rw [IndexedShard.insert]
  obtain ⟨hk, ht⟩ | ⟨a, n, b, ho, hk, ht⟩ := h.touch e.key
  · rw [ht]
    have hlen : (s.pushFront e).order.length ≤ s.order.length + 1 := le_refl _
    obtain ⟨h1, h2, h3, h4⟩ := (h.pushFront he hk).evict hlen
    refine ⟨_, _, rfl, h1, h2, ?_, h3, ?_⟩
    · rw [toFront_of_notMem hk, IndexedShard.keys, h4]
      exact (trim_isPrefix _ _ _).map CacheNode.key
    · rw [lruInsert, if_neg fun hm => hk (hany.1 hm), IndexedShard.entries, h4]
      exact trim_map (fun x => List.length x.2) (fun n : CacheNode => (n.key, n.entry.value)) _ _
  · rw [ht]
    obtain ⟨h1, h2⟩ := h.hit hb ho
    refine ⟨_, _, rfl, h1, h2, ?_, rfl, ?_⟩
    · rw [h.keys_front ho, hk]
    · have hm : e.key ∈ s.keys := hk ▸ List.mem_map_of_mem (ho ▸ by simp)
      rw [lruInsert, if_pos (hany.2 hm), h.entries_front ho, hk]

theorem Ok.eraseLoop (h : s.Ok) (ho : s.order = a ++ b) (number : Nat) :
    (eraseLoop number b s).Ok ∧ (eraseLoop number b s).capacity = s.capacity ∧
      (eraseLoop number b s).order = a ++ b.filter fun n => n.entry.fileNumber ≠ number := by
  induction b generalizing s a with
  | nil => exact ⟨h, rfl, ho⟩
  | cons n b ih =>
    rw [IndexedShard.eraseLoop]
    split
    · rename_i hn
      obtain ⟨hok, horder⟩ := h.remove ho
      rw [List.filter_cons_of_neg (by simpa using hn)]
      exact ih hok horder
    · rename_i hn
      have hsplit : s.order = (a ++ [n]) ++ b := by rw [ho, List.append_assoc]; rfl
      rw [List.filter_cons_of_pos (by simpa using hn)]
      obtain ⟨h1, h2, h3⟩ := ih h hsplit
      refine ⟨h1, h2, ?_⟩
      rw [h3, List.append_assoc]
      rfl

theorem Ok.eraseFile (h : s.Ok) (hb : s.WithinBudget) (number : Nat) :
    (s.eraseFile number).Ok ∧ (s.eraseFile number).WithinBudget ∧
      (s.eraseFile number).capacity = s.capacity ∧
      (s.eraseFile number).entries = s.entries.filter fun e => e.1.1 ≠ number := by
  obtain ⟨h1, h2, h3⟩ := h.eraseLoop (List.nil_append _).symm number
  rw [List.nil_append] at h3
  refine ⟨h1, h.withinBudget h1 (h3 ▸ List.filter_sublist) h2 hb, h2, ?_⟩
  rw [IndexedShard.entries, IndexedShard.eraseFile, h3, IndexedShard.entries, List.filter_map]
  rfl

/-- The shard without its index and the names of its nodes. -/
def toShard (s : IndexedShard) : CacheShard :=
  ⟨s.order.map CacheNode.entry, s.charge, s.capacity⟩

theorem isKey_eq (key : Nat × Nat) (n : CacheNode) :
    CacheShard.isKey key.1 key.2 n.entry = true ↔ n.key = key := by
  rw [CacheShard.isKey, Bool.and_eq_true, beq_iff_eq, beq_iff_eq, CacheNode.key, CacheEntry.key,
    Prod.ext_iff]

theorem Ok.toShard_touch (h : s.Ok) (ht : s.touch key = some r) :
    s.toShard.touch key.1 key.2 = r.map fun p => (p.1, p.2.toShard) := by
  rw [CacheShard.touch]
  obtain ⟨hk, hm⟩ | ⟨a, n, b, ho, rfl, hm⟩ := h.touch key
  · rw [hm] at ht
    cases ht
    have hnone : s.toShard.order.find? (CacheShard.isKey key.1 key.2) = none := by
      rw [List.find?_eq_none]
      intro e he hkey
      obtain ⟨n, hn, rfl⟩ := List.mem_map.1 he
      exact hk ((isKey_eq key n).1 hkey ▸ List.mem_map_of_mem hn)
    rw [hnone]
    rfl
  · rw [hm] at ht
    cases ht
    have horder : s.toShard.order = a.map CacheNode.entry ++ n.entry :: b.map CacheNode.entry := by
      rw [IndexedShard.toShard, ho, List.map_append, List.map_cons]
    have ha : ∀ e ∈ a.map CacheNode.entry, ¬ CacheShard.isKey n.key.1 n.key.2 e = true := by
      intro e he hkey
      obtain ⟨m, hm, rfl⟩ := List.mem_map.1 he
      exact h.keys_ne ho m (List.mem_append_left b hm) ((isKey_eq n.key m).1 hkey)
    have hn : CacheShard.isKey n.key.1 n.key.2 n.entry = true := (isKey_eq n.key n).2 rfl
    have hfind : s.toShard.order.find? (CacheShard.isKey n.key.1 n.key.2) = some n.entry := by
      rw [List.find?_eq_some_iff_append]
      exact ⟨hn, _, _, horder, fun e he => by simpa using ha e he⟩
    have herase : s.toShard.order.eraseP (CacheShard.isKey n.key.1 n.key.2) =
        (a ++ b).map CacheNode.entry := by
      rw [horder, List.eraseP_append_right _ ha, List.eraseP_cons_of_pos hn, List.map_append]
    simp only [hfind, herase]
    rfl

theorem Ok.toShard_evict (h : s.Ok) (fuel : Nat) :
    (IndexedShard.evict fuel s).toShard = CacheShard.evict fuel s.toShard := by
  induction fuel generalizing s with
  | zero => rfl
  | succ fuel ih =>
    rw [IndexedShard.evict, CacheShard.evict]
    by_cases hc : s.capacity < s.charge
    · rw [if_pos hc, if_pos (show s.toShard.capacity < s.toShard.charge from hc)]
      obtain hnil | ⟨a, n, ho⟩ := s.order.eq_nil_or_concat
      · have : s.toShard.order = [] := by rw [IndexedShard.toShard, hnil, List.map_nil]
        simp [this, hnil]
      rw [List.concat_eq_append] at ho
      have horder : s.toShard.order = a.map CacheNode.entry ++ [n.entry] := by
        rw [IndexedShard.toShard, ho, List.map_append, List.map_singleton]
      obtain ⟨hok, hrem⟩ := h.remove ho
      rw [horder, ho, List.getLast?_concat, List.getLast?_concat]
      simp only [List.length_append, List.length_map, List.length_singleton]
      split
      · rfl
      · rw [ih hok]
        congr 1
        rw [IndexedShard.toShard, hrem, List.append_nil, List.dropLast_concat]
        rfl
    · rw [if_neg hc, if_neg (show ¬ s.toShard.capacity < s.toShard.charge from hc)]

theorem Ok.toShard_insert (h : s.Ok) {e : CacheEntry} (he : e.charge = e.value.length)
    (hi : s.insert e = some (x, s')) : s.toShard.insert e = (x, s'.toShard) := by
  rw [IndexedShard.insert] at hi
  obtain ⟨hk, hm⟩ | ⟨a, n, b, ho, hk, hm⟩ := h.touch e.key
  · have ht : s.toShard.touch e.fileNumber e.offset = none := h.toShard_touch hm
    rw [hm] at hi
    cases hi
    have hlen : s.toShard.order.length = s.order.length := List.length_map ..
    rw [CacheShard.insert, ht, (h.pushFront he hk).toShard_evict, hlen]
    rfl
  · have ht : s.toShard.touch e.fileNumber e.offset = _ := h.toShard_touch hm
    rw [hm] at hi
    cases hi
    rw [CacheShard.insert, ht]
    rfl

theorem Ok.toShard_eraseLoop (h : s.Ok) (ho : s.order = a ++ b) (number : Nat) :
    let r := CacheShard.eraseLoop number (b.map CacheNode.entry) s.charge
    (IndexedShard.eraseLoop number b s).toShard =
      { s.toShard with order := a.map CacheNode.entry ++ r.1, charge := r.2 } := by
  induction b generalizing s a with
  | nil =>
    simp only [IndexedShard.eraseLoop, IndexedShard.toShard, ho, CacheShard.eraseLoop, List.map_nil,
      List.append_nil]
  | cons n b ih =>
    rw [IndexedShard.eraseLoop, List.map_cons, CacheShard.eraseLoop]
    split
    · obtain ⟨hok, horder⟩ := h.remove ho
      rw [ih hok horder]
      rfl
    · have hsplit : s.order = (a ++ [n]) ++ b := by rw [ho, List.append_assoc]; rfl
      rw [ih h hsplit]
      simp

theorem Ok.toShard_eraseFile (h : s.Ok) (number : Nat) :
    (s.eraseFile number).toShard = s.toShard.eraseFile number :=
  h.toShard_eraseLoop (List.nil_append _).symm number

end IndexedShard

structure IndexedCache where
  shards : List IndexedShard

inductive CacheOp where
  | lookup (key : Nat × Nat)
  | insert (key : Nat × Nat) (block : Bytes)
  | eraseFile (fileNumber : Nat)

/-- What the order of a shard depends on: hits and insertions, and the erasing of a file. -/
inductive CacheEvent where
  | used (key : Nat × Nat)
  | erased (fileNumber : Nat)

/-- The keys that were used and not erased since, by their last use. The last event comes first. -/
def recency : List CacheEvent → List (Nat × Nat)
  | [] => []
  | .used key :: events => toFront key (recency events)
  | .erased number :: events => (recency events).filter fun key => key.1 ≠ number

namespace CacheOp

/-- The call reaches the shard at this index of so many. -/
def concerns (count i : Nat) : CacheOp → Bool
  | lookup key => (BlockCache.keyHash key.1 key.2).toNat % count == i
  | insert key _ => (BlockCache.keyHash key.1 key.2).toNat % count == i
  | eraseFile _ => true

/-- What the call makes of the keys and blocks of a shard that it reaches. -/
def lruStep (capacity : Nat) (l : List ((Nat × Nat) × Bytes)) :
    CacheOp → List ((Nat × Nat) × Bytes)
  | lookup key => lruTouch key l
  | insert key block => lruInsert List.length capacity key block l
  | eraseFile number => l.filter fun e => e.1.1 ≠ number

end CacheOp

namespace IndexedCache

def new (capacityBytes : Nat) (numShards : Int) : IndexedCache :=
  let count := (max 1 numShards).toNat
  ⟨List.replicate count { capacity := capacityBytes / count }⟩

def shardFor (c : IndexedCache) (key : Nat × Nat) : Nat :=
  (BlockCache.keyHash key.1 key.2).toNat % c.shards.length

def lookup (c : IndexedCache) (key : Nat × Nat) : Option (Option Bytes × IndexedCache) := do
  let i := c.shardFor key
  match ← (c.shards.getD i {}).touch key with
  | none => some (none, c)
  | some (e, s) => some (some e.value, { c with shards := c.shards.set i s })

def insert (c : IndexedCache) (key : Nat × Nat) (block : Bytes) :
    Option (Bytes × IndexedCache) := do
  let i := c.shardFor key
  let (e, s) ← (c.shards.getD i {}).insert ⟨key.1, key.2, block, block.length⟩
  some (e.value, { c with shards := c.shards.set i s })

def eraseFile (c : IndexedCache) (fileNumber : Nat) : IndexedCache :=
  ⟨c.shards.map (·.eraseFile fileNumber)⟩

/-- One call, with the events so far; `none` is the use of a dangling iterator. -/
def step (st : List CacheEvent × IndexedCache) : CacheOp → Option (List CacheEvent × IndexedCache)
  | .lookup key => do
    match ← st.2.lookup key with
    | (none, c) => some (st.1, c)
    | (some _, c) => some (.used key :: st.1, c)
  | .insert key block => do
    let (_, c) ← st.2.insert key block
    some (.used key :: st.1, c)
  | .eraseFile number => some (.erased number :: st.1, st.2.eraseFile number)

def run (st : List CacheEvent × IndexedCache) (ops : List CacheOp) :
    Option (List CacheEvent × IndexedCache) := ops.foldlM step st

/-- Every shard is in order, and lists the most recently used of its keys, the last used first:
what is missing has been evicted, and was used before all that is there. -/
def Sound (st : List CacheEvent × IndexedCache) : Prop :=
  st.2.shards ≠ [] ∧ ∀ i s, st.2.shards[i]? = some s → s.Ok ∧ s.WithinBudget ∧
    s.keys <+: (recency st.1).filter fun key => st.2.shardFor key = i

/-- Each shard has its part of the capacity and the keys and blocks that the calls leave
there: a hit or an insertion comes to the front, and only what is over the budget or of an
erased file goes. -/
def Follows (capacity count : Nat) (ops : List CacheOp) (c : IndexedCache) : Prop :=
  c.shards.length = count ∧ ∀ i s, c.shards[i]? = some s → s.capacity = capacity ∧
    s.entries = (ops.filter (CacheOp.concerns count i)).foldl (CacheOp.lruStep capacity) []

variable {st st' : List CacheEvent × IndexedCache}

theorem sound_new (capacityBytes : Nat) (numShards : Int) :
    Sound ([], new capacityBytes numShards) := by
  constructor
  · have : (max 1 numShards).toNat ≠ 0 := by omega
    simp [new, this]
  · intro i s hs
    have hm := List.mem_of_getElem? hs
    obtain ⟨_, rfl⟩ := List.mem_replicate.1 hm
    exact ⟨IndexedShard.ok_empty _, .inl (Nat.zero_le _), List.nil_prefix⟩

theorem follows_new (capacityBytes : Nat) (numShards : Int) :
    Follows (capacityBytes / (max 1 numShards).toNat) (max 1 numShards).toNat []
      (new capacityBytes numShards) := by
  refine ⟨List.length_replicate, fun i s hs => ?_⟩
  obtain ⟨_, rfl⟩ := List.mem_replicate.1 (List.mem_of_getElem? hs)
  exact ⟨rfl, rfl⟩

theorem Sound.shard (h : Sound st) (key : Nat × Nat) :
    st.2.shards[st.2.shardFor key]? = some (st.2.shards.getD (st.2.shardFor key) {}) := by
  have hlt : st.2.shardFor key < st.2.shards.length :=
    Nat.mod_lt _ (List.length_pos_of_ne_nil h.1)
  rw [List.getD_eq_getElem?_getD, List.getElem?_eq_getElem hlt, Option.getD_some]

/-- A use of `key` only changes its own shard. -/
theorem Sound.use (h : Sound st) (key : Nat × Nat) (hok : s'.Ok) (hb : s'.WithinBudget)
    (hp : s'.keys <+: toFront key (st.2.shards.getD (st.2.shardFor key) {}).keys) :
    Sound (.used key :: st.1, { st.2 with shards := st.2.shards.set (st.2.shardFor key) s' }) := by
  have hfor : ∀ k, shardFor { st.2 with shards := st.2.shards.set (st.2.shardFor key) s' } k =
      st.2.shardFor k := by
    intro k
    simp only [shardFor, List.length_set]
  refine ⟨by simpa using h.1, fun i s hs => ?_⟩
  simp only [hfor, recency]
  by_cases hi : st.2.shardFor key = i
  · subst hi
    have hs' : s = s' := by
      have hlt : st.2.shardFor key < st.2.shards.length :=
        Nat.mod_lt _ (List.length_pos_of_ne_nil h.1)
      rw [List.getElem?_set_self hlt] at hs
      exact (Option.some.inj hs).symm
    subst hs'
    refine ⟨hok, hb, hp.trans ?_⟩
    rw [filter_toFront_of_pos (by simp)]
    exact toFront_prefix (h.2 _ _ (h.shard key)).2.2 key
  · rw [List.getElem?_set_ne hi] at hs
    rw [filter_toFront_of_neg (by simpa using hi)]
    exact h.2 i s hs

/-- What one call does to each shard. -/
def Moves (c : IndexedCache) (op : CacheOp) (c' : IndexedCache) : Prop :=
  c'.shards.length = c.shards.length ∧ ∀ i s', c'.shards[i]? = some s' → ∃ s,
    c.shards[i]? = some s ∧ s'.capacity = s.capacity ∧
    s'.entries =
      if op.concerns c.shards.length i then op.lruStep s.capacity s.entries else s.entries

theorem Sound.moves_set (h : Sound st) (key : Nat × Nat) {op : CacheOp}
    (hop : ∀ i, op.concerns st.2.shards.length i = (st.2.shardFor key == i))
    (hcap : s'.capacity = (st.2.shards.getD (st.2.shardFor key) {}).capacity)
    (he : s'.entries = op.lruStep (st.2.shards.getD (st.2.shardFor key) {}).capacity
      (st.2.shards.getD (st.2.shardFor key) {}).entries) :
    Moves st.2 op { st.2 with shards := st.2.shards.set (st.2.shardFor key) s' } := by
  refine ⟨List.length_set, fun i t ht => ?_⟩
  by_cases hi : st.2.shardFor key = i
  · subst hi
    have hlt : st.2.shardFor key < st.2.shards.length :=
      Nat.mod_lt _ (List.length_pos_of_ne_nil h.1)
    rw [List.getElem?_set_self hlt] at ht
    obtain rfl := Option.some.inj ht
    refine ⟨_, h.shard key, hcap, ?_⟩
    rw [hop, beq_self_eq_true, if_pos rfl]
    exact he
  · rw [List.getElem?_set_ne hi] at ht
    refine ⟨t, ht, rfl, ?_⟩
    rw [hop, beq_false_of_ne hi]
    rfl

theorem Sound.moves_lookup_miss (h : Sound st)
    (hk : key ∉ (st.2.shards.getD (st.2.shardFor key) {}).keys) :
    Moves st.2 (.lookup key) st.2 := by
  refine ⟨rfl, fun i s hs => ⟨s, hs, rfl, ?_⟩⟩
  by_cases hi : st.2.shardFor key = i
  · subst hi
    obtain rfl := Option.some.inj (hs.symm.trans (h.shard key))
    rw [CacheOp.lruStep, lruTouch_of_notMem, ite_self]
    rwa [IndexedShard.map_fst_entries]
  · have hc : CacheOp.concerns st.2.shards.length i (.lookup key) = false := beq_false_of_ne hi
    rw [hc]
    rfl

theorem Sound.step (h : Sound st) (op : CacheOp) :
    ∃ st', step st op = some st' ∧ Sound st' ∧ Moves st.2 op st'.2 := by
  cases op with
  | lookup key =>
    obtain ⟨hok, hb, _⟩ := h.2 _ _ (h.shard key)
    obtain ⟨hk, ht⟩ | ⟨a, n, b, ho, rfl, ht⟩ := hok.touch key
    · refine ⟨st, ?_, h, h.moves_lookup_miss hk⟩
      simp only [IndexedCache.step, IndexedCache.lookup, ht]
      rfl
    · obtain ⟨h1, h2⟩ := hok.hit hb ho
      refine ⟨_, by simp only [IndexedCache.step, IndexedCache.lookup, ht]; rfl,
        h.use n.key h1 h2 ?_, h.moves_set n.key (fun _ => rfl) rfl (hok.entries_front ho)⟩
      rw [hok.keys_front ho]
  | insert key block =>
    obtain ⟨hok, hb, _⟩ := h.2 _ _ (h.shard key)
    obtain ⟨x, s', hins, h1, h2, h3, h4, h5⟩ :=
      hok.insert hb (e := ⟨key.1, key.2, block, block.length⟩) rfl
    exact ⟨_, by simp only [IndexedCache.step, IndexedCache.insert, hins]; rfl, h.use key h1 h2 h3,
      h.moves_set key (fun _ => rfl) h4 h5⟩
  | eraseFile number =>
    refine ⟨_, rfl, ⟨by simpa [IndexedCache.eraseFile] using h.1, fun i s hs => ?_⟩,
      List.length_map .., fun i s hs => ?_⟩
    · simp only [IndexedCache.eraseFile, List.getElem?_map, Option.map_eq_some_iff] at hs
      obtain ⟨t, ht, rfl⟩ := hs
      obtain ⟨hok, hb, hp⟩ := h.2 i t ht
      obtain ⟨h1, h2, _, h4⟩ := hok.eraseFile hb number
      have hkeys : (t.eraseFile number).keys = t.keys.filter fun key => key.1 ≠ number := by
        rw [← IndexedShard.map_fst_entries, h4, ← IndexedShard.map_fst_entries, List.filter_map]
        rfl
      refine ⟨h1, h2, ?_⟩
      rw [hkeys, recency, List.filter_comm]
      simp only [IndexedCache.eraseFile, shardFor, List.length_map]
      exact hp.filter _
    · simp only [IndexedCache.eraseFile, List.getElem?_map, Option.map_eq_some_iff] at hs
      obtain ⟨t, ht, rfl⟩ := hs
      obtain ⟨hok, hb, _⟩ := h.2 i t ht
      obtain ⟨_, _, h3, h4⟩ := hok.eraseFile hb number
      exact ⟨t, ht, h3, h4⟩

theorem Follows.moves {c c' : IndexedCache} (h : Follows capacity count ops c)
    (hm : Moves c op c') :
    Follows capacity count (ops ++ [op]) c' := by
  obtain ⟨rfl, hall⟩ := h
  refine ⟨hm.1, fun i s' hs' => ?_⟩
  obtain ⟨s, hs, hcap, he⟩ := hm.2 i s' hs'
  obtain ⟨rfl, hent⟩ := hall i s hs
  refine ⟨hcap, ?_⟩
  rw [he, List.filter_append, List.foldl_append, ← hent, List.filter_singleton]
  cases op.concerns c.shards.length i <;> rfl

/-- After any calls, in each shard the index leads to exactly the entries of the list, the charge
is the sum of their sizes and within the budget, and the list has its keys by their last use; it is
what the calls leave of a list that only drops what is over the budget, from its end. -/
theorem run_sound (capacityBytes : Nat) (numShards : Int) (ops : List CacheOp) :
    ∃ st, run ([], new capacityBytes numShards) ops = some st ∧ Sound st ∧
      Follows (capacityBytes / (max 1 numShards).toNat) (max 1 numShards).toNat ops st.2 := by
  suffices h : ∀ done st, Sound st →
      Follows (capacityBytes / (max 1 numShards).toNat) (max 1 numShards).toNat done st.2 →
      ∃ st', run st ops = some st' ∧ Sound st' ∧ Follows (capacityBytes / (max 1 numShards).toNat)
        (max 1 numShards).toNat (done ++ ops) st'.2 from
    h [] _ (sound_new capacityBytes numShards) (follows_new capacityBytes numShards)
  induction ops with
  | nil => exact fun done st h hf => ⟨st, rfl, h, by rwa [List.append_nil]⟩
  | cons op ops ih =>
    intro done st h hf
    obtain ⟨st', hstep, h', hm⟩ := h.step op
    obtain ⟨st'', hrun, h'', hf''⟩ := ih (done ++ [op]) st' h' (hf.moves hm)
    refine ⟨st'', ?_, h'', by simpa using hf''⟩
    rw [run, List.foldlM_cons, hstep]
    exact hrun

def toCache (c : IndexedCache) : BlockCache := ⟨c.shards.map IndexedShard.toShard⟩

theorem toCache_shardFor (c : IndexedCache) (key : Nat × Nat) :
    c.toCache.shardFor key.1 key.2 = c.shardFor key := by
  rw [BlockCache.shardFor, toCache, List.length_map, shardFor]

theorem toCache_getD (c : IndexedCache) (i : Nat) :
    c.toCache.shards.getD i {} = (c.shards.getD i {}).toShard :=
  List.getD_map c.shards {} IndexedShard.toShard

theorem toCache_set (c : IndexedCache) (i : Nat) (s : IndexedShard) :
    toCache ⟨c.shards.set i s⟩ = ⟨c.toCache.shards.set i s.toShard⟩ := by
  rw [toCache, toCache, List.map_set]

theorem Sound.toCache_lookup (h : Sound st) (hl : st.2.lookup key = some (v, c)) :
    st.2.toCache.lookup key.1 key.2 = (v, c.toCache) := by
  have hok := (h.2 _ _ (h.shard key)).1
  rw [IndexedCache.lookup] at hl
  rw [BlockCache.lookup]
  simp only [toCache_shardFor, toCache_getD]
  obtain ⟨_, ht⟩ | ⟨a, n, b, _, _, ht⟩ := hok.touch key
  all_goals
    rw [hok.toShard_touch ht]
    simp only [ht] at hl
    cases hl
  · rfl
  · rw [toCache_set]
    rfl

theorem Sound.toCache_insert (h : Sound st) (hi : st.2.insert key block = some (v, c)) :
    st.2.toCache.insert key.1 key.2 block = (v, c.toCache) := by
  obtain ⟨hok, hb, _⟩ := h.2 _ _ (h.shard key)
  obtain ⟨x, s', hins, _⟩ := hok.insert hb (e := ⟨key.1, key.2, block, block.length⟩) rfl
  have hr := hok.toShard_insert rfl hins
  simp only [IndexedCache.insert, hins] at hi
  cases hi
  simp only [BlockCache.insert, toCache_shardFor, toCache_getD, hr, toCache_set]

theorem Sound.toCache_eraseFile (h : Sound st) (number : Nat) :
    (st.2.eraseFile number).toCache = st.2.toCache.eraseFile number := by
  simp only [toCache, IndexedCache.eraseFile, BlockCache.eraseFile, List.map_map,
    BlockCache.mk.injEq]
  refine List.map_congr_left fun s hs => ?_
  obtain ⟨i, hi⟩ := List.mem_iff_getElem?.1 hs
  exact (h.2 i s hi).1.toShard_eraseFile number

end IndexedCache

end LsmKv
