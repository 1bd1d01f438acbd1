import LsmKv.Coding

namespace LsmKv
set_option autoImplicit true

structure CacheEntry where
  fileNumber : Nat
  offset : Nat
  value : Bytes
  charge : Nat
deriving DecidableEq

def CacheEntry.key (e : CacheEntry) : Nat × Nat := (e.fileNumber, e.offset)

/-- One shard, most recently used first. The hash index of the source maps each key to its place
in this list and is left implicit. -/
structure CacheShard where
  order : List CacheEntry := []
  charge : Nat := 0
  capacity : Nat := 0

structure BlockCache where
  shards : List CacheShard

namespace BlockCache

def keyHash (fileNumber offset : Nat) : UInt64 :=
  let golden : UInt64 := 0x9e3779b97f4a7c15
  let h : UInt64 := UInt64.ofNat fileNumber * golden
  h ^^^ (UInt64.ofNat offset + golden + (h <<< 6) + (h >>> 2))

def new (capacityBytes numShards : Nat) : BlockCache where
  shards := List.replicate (max 1 numShards) { capacity := capacityBytes / max 1 numShards }

def shardFor (c : BlockCache) (fileNumber offset : Nat) : Nat :=
  (keyHash fileNumber offset).toNat % c.shards.length

end BlockCache

namespace CacheShard

def isKey (fileNumber offset : Nat) (e : CacheEntry) : Bool :=
  e.fileNumber == fileNumber && e.offset == offset

/-- A hit moves to the front. -/
def touch (s : CacheShard) (fileNumber offset : Nat) : Option (CacheEntry × CacheShard) :=
  match s.order.find? (isKey fileNumber offset) with
  | none => none
  | some e => some (e, { s with order := e :: s.order.eraseP (isKey fileNumber offset) })

/-- Drops entries from the back while the shard is over budget, never the one at the front. -/
def evict : Nat → CacheShard → CacheShard
  | 0, s => s
  | fuel + 1, s =>
    if s.capacity < s.charge then
      match s.order.getLast? with
      | none => s
      | some victim =>
        if s.order.length = 1 then s
        else
          evict fuel { s with
            order := s.order.dropLast
            charge := sizeSub s.charge victim.charge }
    else s

def insert (s : CacheShard) (e : CacheEntry) : CacheEntry × CacheShard :=
  match s.touch e.fileNumber e.offset with
  | some hit => hit
  | none =>
    (e, evict (s.order.length + 1) { s with order := e :: s.order, charge := s.charge + e.charge })

/-- The walk of `EraseFile` over the list: the entries it keeps, and the charge it leaves. -/
def eraseLoop (fileNumber : Nat) : List CacheEntry → Nat → List CacheEntry × Nat
  | [], charge => ([], charge)
  | e :: rest, charge =>
    if e.fileNumber = fileNumber then eraseLoop fileNumber rest (sizeSub charge e.charge)
    else
      let r := eraseLoop fileNumber rest charge
      (e :: r.1, r.2)

def eraseFile (s : CacheShard) (fileNumber : Nat) : CacheShard :=
  let r := eraseLoop fileNumber s.order s.charge
  { s with order := r.1, charge := r.2 }

end CacheShard

namespace BlockCache

def lookup (c : BlockCache) (fileNumber offset : Nat) : Option Bytes × BlockCache :=
  let i := c.shardFor fileNumber offset
  match (c.shards.getD i {}).touch fileNumber offset with
  | none => (none, c)
  | some (e, s) => (some e.value, { c with shards := c.shards.set i s })

def insert (c : BlockCache) (fileNumber offset : Nat) (block : Bytes) : Bytes × BlockCache :=
  let i := c.shardFor fileNumber offset
  let r := (c.shards.getD i {}).insert ⟨fileNumber, offset, block, block.length⟩
  (r.1.value, { c with shards := c.shards.set i r.2 })

def eraseFile (c : BlockCache) (fileNumber : Nat) : BlockCache where
  shards := c.shards.map (·.eraseFile fileNumber)

/-- Every cached block is what `P` says stands at that place. -/
def Caches (P : Nat → Nat → Bytes → Prop) (c : BlockCache) : Prop :=
  ∀ s ∈ c.shards, ∀ e ∈ s.order, P e.fileNumber e.offset e.value

end BlockCache

variable {P Q : Nat → Nat → Bytes → Prop} {c : BlockCache} {s : CacheShard} {n off : Nat}

namespace CacheShard

theorem touch_some (h : s.touch n off = some r) :
    (∀ e ∈ r.2.order, e ∈ s.order) ∧ r.1 ∈ s.order ∧ r.1.fileNumber = n ∧ r.1.offset = off := by
  rw [touch] at h
  split at h
  · cases h
  · rename_i e he
    cases h
    have hm := List.mem_of_find?_eq_some he
    have hk : isKey n off e = true := List.find?_some he
    simp only [isKey, Bool.and_eq_true, beq_iff_eq] at hk
    refine ⟨fun x hx => ?_, hm, hk⟩
    rcases List.mem_cons.1 hx with rfl | hx
    · exact hm
    · exact List.mem_of_mem_eraseP hx

theorem mem_evict (fuel : Nat) (s : CacheShard) : ∀ e ∈ (evict fuel s).order, e ∈ s.order := by
  induction fuel generalizing s with
  | zero => exact fun e he => he
  | succ fuel ih =>
    intro e he
    rw [evict] at he
    split at he
    · split at he
      · exact he
      · split at he
        · exact he
        · exact List.mem_of_mem_dropLast (ih _ e he)
    · exact he

theorem eraseLoop_order (n : Nat) (l : List CacheEntry) (charge : Nat) :
    (eraseLoop n l charge).1 = l.filter fun e => e.fileNumber ≠ n := by
  induction l generalizing charge with
  | nil => rfl
  | cons e l ih =>
    rw [eraseLoop]
    split <;> simp [*]

theorem mem_eraseFile (s : CacheShard) (n : Nat) : ∀ e ∈ (s.eraseFile n).order, e ∈ s.order := by
  intro e he
  rw [eraseFile] at he
  simp only [eraseLoop_order] at he
  exact List.mem_of_mem_filter he

theorem mem_insert (x : CacheEntry) (s : CacheShard) :
    (∀ e ∈ (s.insert x).2.order, e = x ∨ e ∈ s.order) ∧
      ((s.insert x).1 = x ∨ (s.insert x).1 ∈ s.order ∧
        (s.insert x).1.fileNumber = x.fileNumber ∧ (s.insert x).1.offset = x.offset) := by
  rw [insert]
  split
  · rename_i hit hh
    obtain ⟨h1, h2, h3, h4⟩ := touch_some hh
    exact ⟨fun e he => .inr (h1 e he), .inr ⟨h2, h3, h4⟩⟩
  · refine ⟨fun e he => ?_, .inl rfl⟩
    exact List.mem_cons.1 (mem_evict _ _ e he)

end CacheShard

namespace BlockCache

theorem Caches.imp (h : c.Caches P) (hp : ∀ n o v, P n o v → Q n o v) : c.Caches Q :=
  fun s hs e he => hp _ _ _ (h s hs e he)

theorem caches_new (capacity shards : Nat) : (new capacity shards).Caches P := by
  intro s hs e he
  obtain ⟨_, rfl⟩ := List.mem_replicate.1 hs
  cases he

theorem Caches.getD (h : c.Caches P) (i : Nat) :
    ∀ e ∈ (c.shards.getD i {}).order, P e.fileNumber e.offset e.value := by
  by_cases hi : i < c.shards.length
  · rw [List.getD_eq_getElem _ _ hi]
    exact h _ (List.getElem_mem hi)
  · rw [List.getD_eq_default _ _ (Nat.not_lt.1 hi)]
    exact fun e he => nomatch he

theorem Caches.set (h : c.Caches P) (i : Nat)
    (hs : ∀ e ∈ s.order, P e.fileNumber e.offset e.value) :
    Caches P { c with shards := c.shards.set i s } := by
  intro t ht
  rcases List.mem_or_eq_of_mem_set ht with ht | rfl
  · exact h t ht
  · exact hs

theorem Caches.lookup (h : c.Caches P) (n off : Nat) :
    (∀ v, (c.lookup n off).1 = some v → P n off v) ∧ (c.lookup n off).2.Caches P := by
  rw [BlockCache.lookup]
  split
  · exact ⟨fun v hv => (nomatch hv), h⟩
  · rename_i e s hh
    obtain ⟨h1, h2, h3, h4⟩ := CacheShard.touch_some hh
    have hP := h.getD _ e h2
    refine ⟨fun v hv => ?_, h.set _ fun x hx => h.getD _ x (h1 x hx)⟩
    cases hv
    rw [← h3, ← h4]
    exact hP

theorem Caches.insert (h : c.Caches P) (hv : P n off v) :
    P n off (c.insert n off v).1 ∧ (c.insert n off v).2.Caches P := by
  have hm := CacheShard.mem_insert ⟨n, off, v, v.length⟩ (c.shards.getD (c.shardFor n off) {})
  constructor
  · rcases hm.2 with he | ⟨he, h1, h2⟩
    · rw [BlockCache.insert, he]
      exact hv
    · have hP := h.getD _ _ he
      rw [h1, h2] at hP
      exact hP
  · refine h.set _ fun e he => ?_
    rcases hm.1 e he with rfl | he
    · exact hv
    · exact h.getD _ e he

end BlockCache

end LsmKv
