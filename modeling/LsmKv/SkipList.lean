import LsmKv.Library.Chain
import LsmKv.Library.Comparator
import LsmKv.MemTable

namespace LsmKv
set_option autoImplicit true

/-- A node: the length field, the height, the `next` pointers and the bytes behind them. -/
structure SkipNode where
  keyLength : Nat
  height : Nat
  next : List (Option Nat)
  data : Bytes
deriving DecidableEq

/-- `key()`: as many bytes behind the pointers as the length field says. -/
def SkipNode.key (n : SkipNode) : Bytes := n.data.take n.keyLength

/-- The nodes in the order of their allocation, the head first. A pointer is the place of a node in
this list. -/
structure SkipList where
  nodes : List SkipNode
  maxHeight : Nat := 1
  size : Nat := 0

/-- What a round of the search comes to: a step to the right, a step down, or the result. -/
inductive Round where
  | right (node : Nat)
  | down (level : Nat)
  | found (next : Option Nat)
deriving DecidableEq

namespace SkipList

def kMaxHeight : Nat := 12

def head : Nat := 0

/-- The length field has 32 bits; the pointers are null. -/
def newNode (key : Bytes) (height : Nat) : SkipNode :=
  ⟨key.length % 2 ^ 32, height, List.replicate height none, key⟩

def new : SkipList := { nodes := [newNode [] kMaxHeight] }

/-- `Next(level)`. The outer `none` is a node or a pointer that does not exist. -/
def next? (s : SkipList) (x level : Nat) : Option (Option Nat) := do
  let n ← s.nodes[x]?
  n.next[level]?

def setNext (s : SkipList) (x level : Nat) (v : Option Nat) : Option SkipList := do
  let n ← s.nodes[x]?
  if level < n.next.length then
    some { s with nodes := s.nodes.set x { n with next := n.next.set level v } }
  else none

section Search
variable (cmp : Bytes → Bytes → Ordering) (s : SkipList) (key : Bytes)

/-- The level is done: the search goes on below, or ends. -/
def turn (next : Option Nat) : Nat → Round
  | 0 => .found next
  | level + 1 => .down level

/-- One round of the loop of `FindGreaterOrEqual`: a load, and a look at the key of the node. -/
def advance (x level : Nat) : Option Round := do
  match ← s.next? x level with
  | none => some (turn none level)
  | some n => do
    let node ← s.nodes[n]?
    if cmp node.key key = .lt then some (.right n) else some (turn (some n) level)

/-- The loop of `FindGreaterOrEqual`; `prev` is the array of its caller. -/
def findLoop : Nat → List (Option Nat) → Nat → Nat → Option (Option Nat × List (Option Nat))
  | 0, _, _, _ => none
  | fuel + 1, prev, x, level => do
    match ← s.advance cmp key x level with
    | .right n => findLoop fuel prev n level
    | .down l => findLoop fuel (prev.set level (some x)) x l
    | .found next => some (next, prev.set level (some x))

/-- Every round steps to the right or down, and the search passes no node twice. -/
def findGreaterOrEqual (prev : List (Option Nat)) : Option (Option Nat × List (Option Nat)) :=
  s.findLoop cmp key (s.nodes.length + s.maxHeight) prev head (s.maxHeight - 1)

end Search

/-- An array that nothing has been written to yet. -/
def noPrev : List (Option Nat) := List.replicate kMaxHeight none

/-- The levels that are new are searched from the head. -/
def fillPrev (prev : List (Option Nat)) (curMax height : Nat) : List (Option Nat) :=
  (List.range' curMax (height - curMax)).foldl (fun p i => p.set i (some head)) prev

def addNode (s : SkipList) (key : Bytes) (height : Nat) : SkipList :=
  { s with nodes := s.nodes ++ [newNode key height] }

/-- The body of the loop that links the new node, bottom up. -/
def linkLevel (s : SkipList) (prev : List (Option Nat)) (node i : Nat) : Option SkipList := do
  let x ← (prev[i]?).join
  let v ← s.next? x i
  let s ← s.setNext node i v
  s.setNext x i (some node)

def linkLoop (prev : List (Option Nat)) (node : Nat) : Nat → Nat → SkipList → Option SkipList
  | 0, _, s => some s
  | n + 1, i, s => do
    let s ← s.linkLevel prev node i
    linkLoop prev node n (i + 1) s

/-- `Insert`, with the height that `RandomHeight` yields. -/
def insert (cmp : Bytes → Bytes → Ordering) (s : SkipList) (key : Bytes) (height : Nat) :
    Option SkipList := do
  let (_, prev) ← s.findGreaterOrEqual cmp key noPrev
  let curMax := s.maxHeight
  let prev := if curMax < height then fillPrev prev curMax height else prev
  let s := if curMax < height then { s with maxHeight := height } else s
  let node := s.nodes.length
  let s ← linkLoop prev node height 0 (s.addNode key height)
  some { s with size := s.size + 1 }

def contains (cmp : Bytes → Bytes → Ordering) (s : SkipList) (key : Bytes) : Option Bool := do
  match ← s.findGreaterOrEqual cmp key noPrev with
  | (none, _) => some false
  | (some n, _) => do
    let node ← s.nodes[n]?
    some (cmp node.key key = .eq)

/-- `SeekToFirst` of the iterator: the node it stands on. -/
def seekToFirst (s : SkipList) : Option (Option Nat) := s.next? head 0

def seek (cmp : Bytes → Bytes → Ordering) (s : SkipList) (target : Bytes) : Option (Option Nat) :=
  (s.findGreaterOrEqual cmp target noPrev).map Prod.fst

/-- The keys that `key()` yields from a node on, with a `Next()` after each. -/
def keysFrom (s : SkipList) : Nat → Option Nat → Option (List Bytes)
  | _, none => some []
  | 0, some _ => none
  | fuel + 1, some x => do
    let n ← s.nodes[x]?
    let next ← s.next? x 0
    let keys ← keysFrom s fuel next
    some (n.key :: keys)

/-- The walk of an iterator from `SeekToFirst()` to the end. -/
def enumerate (s : SkipList) : Option (List Bytes) := do
  let first ← s.seekToFirst
  s.keysFrom s.nodes.length first

def key (s : SkipList) (x : Nat) : Bytes := ((s.nodes[x]?).map SkipNode.key).getD []

def height (s : SkipList) (x : Nat) : Nat := ((s.nodes[x]?).map SkipNode.height).getD 0

/-- How many pointers a node has. -/
def slots (s : SkipList) (x : Nat) : Nat := ((s.nodes[x]?).map fun n => n.next.length).getD 0

variable {cmp : Bytes → Bytes → Ordering} {s s' : SkipList} {ns : List Nat} {linked : Nat → Nat}

/-- The lists differ in their pointers only. -/
structure SameNodes (s s' : SkipList) : Prop where
  key : s'.key = s.key
  height : s'.height = s.height
  slots : s'.slots = s.slots
  length : s'.nodes.length = s.nodes.length
  maxHeight : s'.maxHeight = s.maxHeight

/-- A store changes one pointer. -/
theorem exists_setNext (h : l < s.slots x) (v : Option Nat) : ∃ s', s.setNext x l v = some s' ∧
    SameNodes s s' ∧ ∀ y j, s'.next? y j = if y = x ∧ j = l then some v else s.next? y j := by
  rw [slots] at h
  cases hn : s.nodes[x]? with
  | none => simp [hn] at h
  | some n =>
    simp only [hn, Option.map_some, Option.getD_some] at h
    have hx : x < s.nodes.length := (List.getElem?_eq_some_iff.1 hn).1
    refine ⟨{ s with nodes := s.nodes.set x { n with next := n.next.set l v } }, ?_, ?_, ?_⟩
    · simp only [setNext, hn, Option.bind_eq_bind, Option.bind_some]
      exact if_pos h
    · refine ⟨?_, ?_, ?_, List.length_set, rfl⟩
      all_goals
        funext y
        by_cases hy : y = x
        · subst hy
          simp only [SkipList.key, SkipList.height, SkipList.slots, List.getElem?_set_self hx, hn,
            Option.map_some, SkipNode.key, List.length_set]
        · simp only [SkipList.key, SkipList.height, SkipList.slots,
            List.getElem?_set_ne (Ne.symm hy)]
    · intro y j
      by_cases hy : y = x
      · subst hy
        by_cases hj : l = j
        · subst hj
          simp [next?, hx, h]
        · rw [if_neg fun he => hj he.2.symm]
          simp only [next?, List.getElem?_set_self hx, hn, Option.bind_eq_bind, Option.bind_some,
            List.getElem?_set_ne hj]
      · rw [if_neg fun he => hy he.1]
        simp only [next?, List.getElem?_set_ne (Ne.symm hy)]

theorem addNode_of_lt (k : Bytes) (h : Nat) (hx : x < s.nodes.length) :
    (s.addNode k h).key x = s.key x ∧ (s.addNode k h).height x = s.height x ∧
      (s.addNode k h).slots x = s.slots x ∧ ∀ j, (s.addNode k h).next? x j = s.next? x j := by
  simp only [addNode, key, height, slots, next?, List.getElem?_append_left hx,
    and_self, implies_true]

theorem addNode_self (hk : k.length < 2 ^ 32) (h : Nat) :
    (s.addNode k h).key s.nodes.length = k ∧ (s.addNode k h).height s.nodes.length = h ∧
      (s.addNode k h).slots s.nodes.length = h := by
  have hget : (s.nodes ++ [newNode k h])[s.nodes.length]? = some (newNode k h) := by simp
  simp only [addNode, key, height, slots, hget, Option.map_some, Option.getD_some]
  simp only [newNode, SkipNode.key, Nat.mod_eq_of_lt hk, List.take_length, List.length_replicate,
    and_self]

/-- The nodes linked on a level, in the order of `ns`, if each node is linked on its lowest
`linked` levels. -/
def level (ns : List Nat) (linked : Nat → Nat) (j : Nat) : List Nat :=
  ns.filter fun m => j < linked m

section Order
variable {β : Type} [LinearOrder β] {rank : Bytes → β}

/-- `ns` are the nodes in the order of their keys, and each level is the list of those that are
linked on it. -/
structure Levels (rank : Bytes → β) (s : SkipList) (ns : List Nat) (linked : Nat → Nat) : Prop where
  head_height : s.height head = kMaxHeight
  slots : ∀ m < s.nodes.length, s.slots m = s.height m
  node : ∀ m ∈ ns, m ≠ head ∧ m < s.nodes.length ∧ linked m ≤ s.height m
  sorted : Ascending (fun m => rank (s.key m)) ns
  chain : ∀ j < kMaxHeight, Chain (s.next? · j) head (level ns linked j)
  tall : ∀ m ∈ ns, linked m ≤ s.maxHeight
  low : 1 ≤ s.maxHeight
  high : s.maxHeight ≤ kMaxHeight

/-- Where a search for `t` can be on level `j`: at the head, or at a node on that level whose key is
before `t`. -/
def At (rank : Bytes → β) (s : SkipList) (ns : List Nat) (linked : Nat → Nat) (t : Bytes)
    (x j : Nat) : Prop :=
  x = head ∨ x ∈ ns ∧ j < linked x ∧ rank (s.key x) < rank t

/-- The last node of a level whose key is before `t`. -/
def pred (rank : Bytes → β) (s : SkipList) (ns : List Nat) (linked : Nat → Nat) (t : Bytes)
    (j : Nat) : Nat :=
  ((level ns linked j).takeWhile fun m => rank (s.key m) < rank t).getLastD head

theorem mem_level : m ∈ level ns linked j ↔ m ∈ ns ∧ j < linked m := by
  rw [level, List.mem_filter, decide_eq_true_iff]

theorem Levels.level_sorted (h : Levels rank s ns linked) (j : Nat) :
    Ascending (fun m => rank (s.key m)) (level ns linked j) := h.sorted.filter _

theorem Levels.head_lt (h : Levels rank s ns linked) : head < s.nodes.length := by
  by_contra hle
  have hh := h.head_height
  rw [height, List.getElem?_eq_none (not_lt.1 hle)] at hh
  cases hh

theorem Levels.nodup (h : Levels rank s ns linked) (j : Nat) :
    (head :: level ns linked j).Nodup := by
  rw [List.nodup_cons]
  refine ⟨fun hm => ?_, (h.level_sorted j).nodup⟩
  exact (h.node head (mem_level.1 hm).1).1 rfl

theorem Levels.split (h : Levels rank s ns linked) (hj : j < kMaxHeight)
    (hx : At rank s ns linked t x j) : ∃ a b, level ns linked j = a ++ b ∧ x = a.getLastD head ∧
      (∀ m ∈ a, rank (s.key m) < rank t) ∧ s.next? x j = some b.head? := by
  obtain ⟨a, b, hl, hxa, ha⟩ : ∃ a b, level ns linked j = a ++ b ∧ x = a.getLastD head ∧
      ∀ m ∈ a, rank (s.key m) < rank t := by
    obtain rfl | ⟨hm, hlt, hkey⟩ := hx
    · exact ⟨[], _, rfl, rfl, fun m hm => (nomatch hm)⟩
    · obtain ⟨a, b, hl⟩ := List.append_of_mem (mem_level.2 ⟨hm, hlt⟩)
      refine ⟨a ++ [x], b, by simp [hl], by simp, fun m hma => ?_⟩
      obtain hma | hma := List.mem_append.1 hma
      · have hs := h.level_sorted j
        rw [hl] at hs
        exact ((ascending_append.1 hs).2.2 m hma x List.mem_cons_self).trans hkey
      · rw [List.mem_singleton.1 hma]
        exact hkey
  refine ⟨a, b, hl, hxa, ha, ?_⟩
  have hc := h.chain j hj
  rw [hl] at hc
  rw [hxa]
  exact hc.getLastD

/-- A round steps to a node of the level, behind the one it stands on and before its key; or the
search stands on the last such node, and turns. -/
theorem Levels.advance (hcmp : RanksBy cmp rank)
    (h : Levels rank s ns linked) (hj : j < kMaxHeight) (hx : At rank s ns linked t x j) :
    (∃ n, s.advance cmp t x j = some (.right n) ∧ At rank s ns linked t n j ∧ n ∈ ns ∧
      (x = head ∨ rank (s.key x) < rank (s.key n))) ∨
    s.advance cmp t x j =
        some (turn (seekTo (fun m => rank (s.key m)) (rank t) (level ns linked j)).head? j) ∧
      x = pred rank s ns linked t j := by
  obtain ⟨a, b, hl, hxa, ha, hnext⟩ := h.split hj hx
  have htake : ∀ {p : Nat → Bool}, (∀ m ∈ a, p m = true) →
      (level ns linked j).takeWhile p = a ++ b.takeWhile p := by
    intro p hp
    rw [hl, List.takeWhile_append_of_pos hp]
  rw [SkipList.advance, hnext]
  cases b with
  | nil =>
    right
    have hseek : seekTo (fun m => rank (s.key m)) (rank t) (level ns linked j) = [] :=
      seekTo_eq_nil_of_lt (by rw [hl, List.append_nil]; exact ha)
    refine ⟨by rw [hseek]; rfl, ?_⟩
    rw [pred, htake fun m hm => decide_eq_true (ha m hm), hxa]
    simp
  | cons n b =>
    have hn : n ∈ ns ∧ j < linked n := mem_level.1 (by rw [hl]; simp)
    obtain ⟨node, hget⟩ : ∃ node, s.nodes[n]? = some node :=
      ⟨_, List.getElem?_eq_getElem (h.node n hn.1).2.1⟩
    have hkey : node.key = s.key n := by
      rw [SkipList.key, hget]
      rfl
    simp only [Option.bind_eq_bind, Option.bind_some, List.head?_cons, hget, hkey, hcmp,
      compare_lt_iff_lt]
    by_cases hlt : rank (s.key n) < rank t
    · left
      refine ⟨n, if_pos hlt, .inr ⟨hn.1, hn.2, hlt⟩, hn.1, ?_⟩
      obtain rfl | ⟨hm, hjx, _⟩ := hx
      · exact .inl rfl
      · right
        have hs := h.level_sorted j
        rw [hl] at hs
        refine (ascending_append.1 hs).2.2 x ?_ n List.mem_cons_self
        rw [hxa]
        refine (List.mem_cons.1 (List.getLastD_mem_cons (l := a) (a := head))).resolve_left ?_
        rw [← hxa]
        exact (h.node x hm).1
    · right
      have hseek : seekTo (fun m => rank (s.key m)) (rank t) (level ns linked j) = n :: b := by
        rw [hl, seekTo_append_of_lt ha, seekTo, List.dropWhile_cons_of_neg (by simpa using hlt)]
      refine ⟨by rw [if_neg hlt, hseek]; rfl, ?_⟩
      rw [pred, htake fun m hm => decide_eq_true (ha m hm), hxa,
        List.takeWhile_cons_of_neg (by simpa using hlt), List.append_nil]

theorem At.down (h : At rank s ns linked t x j) (hl : l ≤ j) : At rank s ns linked t x l :=
  h.imp id fun h => ⟨h.1, lt_of_le_of_lt hl h.2.1, h.2.2⟩

/-- The nodes a search has stepped to, the last one first. -/
structure Path (rank : Bytes → β) (s : SkipList) (ns path : List Nat) (x : Nat) : Prop where
  last : x = path.headD head
  mem : ∀ m ∈ path, m ∈ ns
  sorted : path.Pairwise fun a b => rank (s.key b) < rank (s.key a)

theorem Path.length_le (h : Path rank s ns path x) : path.length ≤ ns.length := by
  have hnd : path.Nodup := h.sorted.imp fun hab he => (he ▸ hab).false
  exact (List.subperm_of_subset hnd h.mem).length_le

theorem Path.right (h : Path rank s ns path x) (hn : n ∈ ns) (hh : head ∉ ns)
    (hx : x = head ∨ rank (s.key x) < rank (s.key n)) : Path rank s ns (n :: path) n := by
  refine ⟨rfl, List.forall_mem_cons.2 ⟨hn, h.mem⟩, List.pairwise_cons.2 ⟨fun m hm => ?_, h.sorted⟩⟩
  obtain ⟨hlast, hmem, hsorted⟩ := h
  cases path with
  | nil => cases hm
  | cons y path =>
    obtain rfl : x = y := hlast
    have hlt : rank (s.key x) < rank (s.key n) := by
      refine hx.resolve_left ?_
      rintro rfl
      exact hh (hmem _ List.mem_cons_self)
    obtain rfl | hm := List.mem_cons.1 hm
    · exact hlt
    · exact ((List.pairwise_cons.1 hsorted).1 m hm).trans hlt

theorem Levels.head_notMem (h : Levels rank s ns linked) : head ∉ ns :=
  fun hm => (h.node _ hm).1 rfl

/-- The search ends at the first node that is not before its key, and leaves in `prev` the last
node before it on every level it has passed. -/
theorem Levels.findLoop (hcmp : RanksBy cmp rank)
    (h : Levels rank s ns linked) (fuel : Nat) (path : List Nat) (prev : List (Option Nat))
    (hj : j < kMaxHeight) (hx : At rank s ns linked t x j) (hp : Path rank s ns path x)
    (hfuel : ns.length + j + 1 ≤ fuel + path.length) (hprev : prev.length = kMaxHeight) :
    ∃ prev', s.findLoop cmp t fuel prev x j =
        some ((seekTo (fun m => rank (s.key m)) (rank t) (level ns linked 0)).head?, prev') ∧
      prev'.length = kMaxHeight ∧
      (∀ l ≤ j, prev'[l]? = some (some (pred rank s ns linked t l))) ∧
      ∀ l, j < l → prev'[l]? = prev[l]? := by
  -- Each round uses up a level, or a node that the path does not have yet.
  induction fuel generalizing x j path prev with
  | zero =>
    have := hp.length_le
    omega
  | succ fuel ih =>
    rw [SkipList.findLoop]
    obtain ⟨n, hadv, hn, hmem, hlt⟩ | ⟨hadv, hpred⟩ := h.advance hcmp hj hx
    · rw [hadv]
      refine ih _ _ hj hn (hp.right hmem h.head_notMem hlt) ?_ hprev
      rw [List.length_cons]
      omega
    · rw [hadv]
      have hself : (prev.set j (some x))[j]? = some (some (pred rank s ns linked t j)) := by
        rw [List.getElem?_set_self (by omega), hpred]
      cases j with
      | zero =>
        refine ⟨prev.set 0 (some x), rfl, by rw [List.length_set, hprev], fun l hl => ?_, ?_⟩
        · rw [Nat.le_zero.1 hl]
          exact hself
        · intro l hl
          rw [List.getElem?_set_ne (by omega)]
      | succ j =>
        obtain ⟨prev', hloop, hlen, hlow, hhigh⟩ := ih path (prev.set (j + 1) (some x)) (by omega)
          (hx.down (Nat.le_succ j)) hp (by omega) (by rw [List.length_set, hprev])
        refine ⟨prev', hloop, hlen, fun l hl => ?_, fun l hl => ?_⟩
        · obtain rfl | hl := Nat.eq_or_lt_of_le hl
          · rw [hhigh _ (Nat.lt_succ_self j)]
            exact hself
          · exact hlow l (Nat.le_of_lt_succ hl)
        · rw [hhigh l (by omega), List.getElem?_set_ne (by omega)]

theorem Levels.length_le (h : Levels rank s ns linked) : ns.length ≤ s.nodes.length := by
  have hsub : ns ⊆ List.range s.nodes.length := fun m hm => List.mem_range.2 (h.node m hm).2.1
  have hle := (List.subperm_of_subset h.sorted.nodup hsub).length_le
  rwa [List.length_range] at hle

theorem Levels.findGreaterOrEqual (hcmp : RanksBy cmp rank)
    (h : Levels rank s ns linked) (t : Bytes) :
    ∃ prev, s.findGreaterOrEqual cmp t noPrev =
        some ((seekTo (fun m => rank (s.key m)) (rank t) (level ns linked 0)).head?, prev) ∧
      prev.length = kMaxHeight ∧
      ∀ l < s.maxHeight, prev[l]? = some (some (pred rank s ns linked t l)) := by
  have hlow := h.low
  have hhigh := h.high
  have hlen := h.length_le
  obtain ⟨prev, hloop, hl, hprev, _⟩ := h.findLoop hcmp (j := s.maxHeight - 1) (x := head) (t := t)
    (s.nodes.length + s.maxHeight) [] noPrev (by omega) (.inl rfl)
    ⟨rfl, fun m hm => (nomatch hm), .nil⟩ (by simp only [List.length_nil]; omega)
    List.length_replicate
  exact ⟨prev, hloop, hl, fun l hl => hprev l (by omega)⟩

theorem Levels.same (h : Levels rank s ns linked) (hs : SameNodes s s')
    (hlink : ∀ m ∈ ns, linked' m ≤ s.height m ∧ linked' m ≤ s.maxHeight)
    (hchain : ∀ j < kMaxHeight, Chain (s'.next? · j) head (level ns linked' j)) :
    Levels rank s' ns linked' where
  head_height := by rw [hs.height]; exact h.head_height
  slots := by rw [hs.slots, hs.height, hs.length]; exact h.slots
  node := fun m hm => by
    obtain ⟨h1, h2, _⟩ := h.node m hm
    rw [hs.length, hs.height]
    exact ⟨h1, h2, (hlink m hm).1⟩
  sorted := by rw [hs.key]; exact h.sorted
  chain := hchain
  tall := fun m hm => by rw [hs.maxHeight]; exact (hlink m hm).2
  low := by rw [hs.maxHeight]; exact h.low
  high := by rw [hs.maxHeight]; exact h.high

theorem SameNodes.refl (s : SkipList) : SameNodes s s := ⟨rfl, rfl, rfl, rfl, rfl⟩

theorem SameNodes.trans (h : SameNodes s s') (h' : SameNodes s' s'') : SameNodes s s'' :=
  ⟨h'.key.trans h.key, h'.height.trans h.height, h'.slots.trans h.slots, h'.length.trans h.length,
    h'.maxHeight.trans h.maxHeight⟩

theorem level_congr (h : ∀ m ∈ ns, j < linked m ↔ j < linked' m) :
    level ns linked j = level ns linked' j :=
  List.filter_congr fun m hm => decide_eq_decide.2 (h m hm)

theorem Levels.congr (h : Levels rank s ns linked) (hl : ∀ m ∈ ns, linked' m = linked m) :
    Levels rank s ns linked' := by
  refine h.same (SameNodes.refl s) (fun m hm => ?_) fun j hj => ?_
  · rw [hl m hm]
    exact ⟨(h.node m hm).2.2, h.tall m hm⟩
  · have hlevel : level ns linked' j = level ns linked j := level_congr fun m hm => by rw [hl m hm]
    rw [hlevel]
    exact h.chain j hj

theorem Levels.raise {height : Nat} (h : Levels rank s ns linked) (hle : s.maxHeight ≤ height)
    (hh : height ≤ kMaxHeight) : Levels rank { s with maxHeight := height } ns linked :=
  ⟨h.head_height, h.slots, h.node, h.sorted, h.chain, fun m hm => (h.tall m hm).trans hle,
    h.low.trans hle, hh⟩

theorem level_insertRun (hp : p ∉ ns) (f : Nat → β) :
    level (insertRun f p ns) (Function.update linked p 0) j = level ns linked j := by
  rw [level, insertRun, List.filter_append, List.filter_cons_of_neg (by simp),
    ← List.filter_append, List.takeWhile_append_dropWhile]
  refine level_congr fun m hm => ?_
  rw [Function.update_of_ne (ne_of_mem_of_not_mem hm hp)]

/-- A new node has its place among the others, and is on no level yet. -/
theorem Levels.addNode (h : Levels rank s ns linked) (hk : k.length < 2 ^ 32)
    (hne : ∀ m ∈ ns, rank (s.key m) ≠ rank k) (height : Nat) :
    Levels rank (s.addNode k height)
      (insertRun (fun m => rank ((s.addNode k height).key m)) s.nodes.length ns)
      (Function.update linked s.nodes.length 0) := by
  obtain ⟨hpk, hph, hps⟩ := addNode_self (s := s) hk height
  have hlt : ∀ m ∈ ns, m < s.nodes.length := fun m hm => (h.node m hm).2.1
  have hkey : ∀ m ∈ ns, (s.addNode k height).key m = s.key m :=
    fun m hm => (addNode_of_lt k height (hlt m hm)).1
  have hup : ∀ m ∈ ns, Function.update linked s.nodes.length 0 m = linked m :=
    fun m hm => Function.update_of_ne (hlt m hm).ne _ _
  have hnew : s.nodes.length ∉ ns := fun hm => (hlt _ hm).false
  have hlen : (s.addNode k height).nodes.length = s.nodes.length + 1 := by simp [SkipList.addNode]
  refine ⟨?_, fun m hm => ?_, fun m hm => ?_, ?_, fun j hj => ?_, fun m hm => ?_, h.low, h.high⟩
  · rw [(addNode_of_lt k height h.head_lt).2.1]
    exact h.head_height
  · rw [hlen] at hm
    obtain hm | rfl := Nat.lt_succ_iff_lt_or_eq.1 hm
    · obtain ⟨_, h1, h2, _⟩ := addNode_of_lt k height hm
      rw [h1, h2, h.slots m hm]
    · rw [hph, hps]
  · obtain rfl | hm := mem_insertRun.1 hm
    · rw [hlen, Function.update_self]
      exact ⟨(Nat.ne_of_lt h.head_lt).symm, Nat.lt_succ_self _, Nat.zero_le _⟩
    · obtain ⟨h1, h2, h3⟩ := h.node m hm
      rw [hlen, hup m hm, (addNode_of_lt k height h2).2.1]
      exact ⟨h1, h2.trans (Nat.lt_succ_self _), h3⟩
  · refine Ascending.insertRun ?_ fun m hm => ?_
    · refine List.Pairwise.imp_of_mem (fun {a b} ha hb hab => ?_) h.sorted
      simp only [hkey a ha, hkey b hb]
      exact hab
    · rw [hkey m hm, hpk]
      exact hne m hm
  · rw [level_insertRun hnew]
    refine (h.chain j hj).congr fun y hy => ?_
    have hy' : y < s.nodes.length := by
      obtain rfl | hy := List.mem_cons.1 hy
      · exact h.head_lt
      · exact hlt y (mem_level.1 hy).1
    exact (addNode_of_lt k height hy').2.2.2 j
  · obtain rfl | hm := mem_insertRun.1 hm
    · rw [Function.update_self]
      exact Nat.zero_le _
    · rw [hup m hm]
      exact h.tall m hm

theorem Levels.fill (h : Levels rank s ns linked) (hp : p ≠ head) (hi : linked p ≤ i)
    (hs : SameNodes s s')
    (hnext : ∀ y j, s'.next? y j = if y = p ∧ j = i then some v else s.next? y j) :
    Levels rank s' ns linked := by
  refine h.same hs (fun m hm => ⟨(h.node m hm).2.2, h.tall m hm⟩) fun j hj => ?_
  refine (h.chain j hj).congr fun y hy => ?_
  rw [hnext, if_neg]
  rintro ⟨rfl, rfl⟩
  obtain hy | hy := List.mem_cons.1 hy
  · exact hp hy
  · exact absurd (mem_level.1 hy).2 (not_lt.2 hi)

theorem Levels.next_pred (h : Levels rank s ns linked) (t : Bytes) (hj : j < kMaxHeight) :
    s.next? (pred rank s ns linked t j) j =
      some (seekTo (fun m => rank (s.key m)) (rank t) (level ns linked j)).head? := by
  have hc := h.chain j hj
  rw [← List.takeWhile_append_dropWhile (p := fun m => decide (rank (s.key m) < rank t))
    (l := level ns linked j)] at hc
  exact hc.getLastD

theorem level_update_of_ne (hj : j ≠ i) (hi : linked p = i) :
    level ns (Function.update linked p (i + 1)) j = level ns linked j := by
  refine level_congr fun m _ => ?_
  by_cases hm : m = p
  · subst hm
    rw [Function.update_self]
    omega
  · rw [Function.update_of_ne hm]

/-- Linking a node that points to its successor splices it into the level. -/
theorem Levels.publish (h : Levels rank s ns linked) (hp : p ∈ ns) (hi : linked p = i)
    (hh : i < s.height p) (hm : i < s.maxHeight)
    (hv : s.next? p i =
      some (seekTo (fun m => rank (s.key m)) (rank (s.key p)) (level ns linked i)).head?)
    (hs : SameNodes s s')
    (hnext : ∀ y j, s'.next? y j =
      if y = pred rank s ns linked (s.key p) i ∧ j = i then some (some p) else s.next? y j) :
    Levels rank s' ns (Function.update linked p (i + 1)) := by
  have hnotin : p ∉ head :: level ns linked i := by
    intro hmem
    obtain he | hmem := List.mem_cons.1 hmem
    · exact (h.node p hp).1 he
    · exact absurd (mem_level.1 hmem).2 (by omega)
  refine h.same hs (fun m hmem => ?_) fun j hj => ?_
  · by_cases he : m = p
    · subst he
      rw [Function.update_self]
      exact ⟨hh, hm⟩
    · rw [Function.update_of_ne he]
      exact ⟨(h.node m hmem).2.2, h.tall m hmem⟩
  · by_cases hji : j = i
    · subst hji
      have hins : level ns (Function.update linked p (j + 1)) j =
          insertRun (fun m => rank (s.key m)) p (level ns linked j) := by
        refine Ascending.ext (h.sorted.filter _) ((h.level_sorted j).insertRun fun b hb he => ?_) ?_
        · exact hnotin (List.mem_cons_of_mem _ (h.sorted.inj (mem_level.1 hb).1 hp he ▸ hb))
        · intro m
          rw [mem_insertRun, mem_level, mem_level]
          by_cases he : m = p
          · subst he
            simp [hp]
          · simp [he]
      have hc := h.chain j hj
      have hnd := h.nodup j
      rw [← List.takeWhile_append_dropWhile
        (p := fun m => decide (rank (s.key m) < rank (s.key p))) (l := level ns linked j)] at hc hnd
      rw [hins, insertRun]
      refine hc.splice hnd ?_ ?_ fun y _ hy => ?_
      · rw [hnext]
        exact if_pos ⟨rfl, rfl⟩
      · rw [hnext, if_neg, hv]
        · rfl
        · rintro ⟨he, -⟩
          refine hnotin ?_
          rw [he, pred]
          have := List.getLastD_mem_cons (a := head)
            (l := (level ns linked j).takeWhile fun m => rank (s.key m) < rank (s.key p))
          exact List.cons_subset_cons _ (List.takeWhile_subset _) this
      · rw [hnext, if_neg fun he => hy he.1]
    · rw [level_update_of_ne hji hi]
      refine (h.chain j hj).congr fun y _ => ?_
      rw [hnext, if_neg fun he => hji he.2]

theorem pred_congr (hk : ∀ m ∈ ns, s'.key m = s.key m)
    (hl : level ns' linked' j = level ns linked j) :
    pred rank s' ns' linked' t j = pred rank s ns linked t j := by
  rw [pred, pred, hl]
  congr 1
  exact takeWhile_congr fun m hm => by rw [hk m (mem_level.1 hm).1]

theorem Levels.pred_slots (h : Levels rank s ns linked) (t : Bytes) (hj : j < kMaxHeight) :
    j < s.slots (pred rank s ns linked t j) := by
  obtain he | hm := List.mem_cons.1 (List.getLastD_mem_cons (a := head)
    (l := (level ns linked j).takeWhile fun m => rank (s.key m) < rank t))
  · rw [pred, he, h.slots _ h.head_lt, h.head_height]
    exact hj
  · obtain ⟨hns, hlt⟩ := mem_level.1 (List.takeWhile_subset _ hm)
    obtain ⟨_, hlen, hle⟩ := h.node _ hns
    rw [pred, h.slots _ hlen]
    exact lt_of_lt_of_le hlt hle

/-- From level `i` on the loop links the node on `n` more levels. -/
theorem Levels.linkLoop (h : Levels rank s ns linked) (hp : p ∈ ns) (hi : linked p = i)
    (hh : s.height p = i + n) (hm : i + n ≤ s.maxHeight)
    (hprev : ∀ j, i ≤ j → j < i + n →
      prev[j]? = some (some (pred rank s ns linked (s.key p) j))) :
    ∃ s', linkLoop prev p n i s = some s' ∧ SameNodes s s' ∧
      Levels rank s' ns (Function.update linked p (i + n)) := by
  induction n generalizing s linked i with
  | zero =>
    refine ⟨s, rfl, SameNodes.refl s, ?_⟩
    rw [Nat.add_zero, ← hi, Function.update_eq_self]
    exact h
  | succ n ih =>
    have hlt := (h.node p hp).2.1
    have hmax := h.high
    have hslot : i < s.slots p := by rw [h.slots p hlt]; omega
    have hnext := h.next_pred (s.key p) (j := i) (by omega)
    obtain ⟨s₁, hs₁, hsame₁, hnext₁⟩ := exists_setNext hslot
      (seekTo (fun m => rank (s.key m)) (rank (s.key p)) (level ns linked i)).head?
    have h₁ := h.fill (h.node p hp).1 hi.le hsame₁ hnext₁
    have hslot₁ : i < s₁.slots (pred rank s ns linked (s.key p) i) := by
      rw [hsame₁.slots]
      exact h.pred_slots _ (by omega)
    obtain ⟨s₂, hs₂, hsame₂, hnext₂⟩ := exists_setNext hslot₁ (some p)
    have h₂ : Levels rank s₂ ns (Function.update linked p (i + 1)) := by
      refine h₁.publish hp hi ?_ ?_ ?_ hsame₂ ?_
      · rw [hsame₁.height]
        omega
      · rw [hsame₁.maxHeight]
        omega
      · rw [hnext₁, if_pos ⟨rfl, rfl⟩, hsame₁.key]
      · have hpred : pred rank s₁ ns linked (s.key p) i = pred rank s ns linked (s.key p) i :=
          pred_congr (fun m _ => by rw [hsame₁.key]) rfl
        rw [hsame₁.key, hpred]
        exact hnext₂
    have hsame := hsame₁.trans hsame₂
    obtain ⟨s₃, hs₃, hsame₃, h₃⟩ := ih h₂ (Function.update_self ..) (by rw [hsame.height]; omega)
      (by rw [hsame.maxHeight]; omega) fun j hj hjn => by
        have hpred : pred rank s₂ ns (Function.update linked p (i + 1)) (s.key p) j =
            pred rank s ns linked (s.key p) j :=
          pred_congr (fun m _ => by rw [hsame.key]) (level_update_of_ne (by omega) hi)
        rw [hsame.key, hpred]
        exact hprev j (by omega) (by omega)
    refine ⟨s₃, ?_, hsame.trans hsame₃, ?_⟩
    · have hlink : s.linkLevel prev p i = some s₂ := by
        simp only [linkLevel, hprev i le_rfl (by omega), Option.join_some, Option.bind_eq_bind,
          Option.bind_some, hnext, hs₁, hs₂]
      rw [SkipList.linkLoop, hlink]
      exact hs₃
    · rw [Function.update_idem] at h₃
      rw [show i + (n + 1) = i + 1 + n by omega]
      exact h₃

theorem getElem?_fillPrev (prev : List (Option Nat)) (curMax height j : Nat)
    (hj : j < prev.length) : (fillPrev prev curMax height)[j]? =
      if curMax ≤ j ∧ j < height then some (some head) else prev[j]? := by
  have hfold : ∀ (n i : Nat) (p : List (Option Nat)), j < p.length →
      ((List.range' i n).foldl (fun p i => p.set i (some head)) p)[j]? =
        if i ≤ j ∧ j < i + n then some (some head) else p[j]? := by
    intro n
    induction n with
    | zero =>
      intro i p _
      rw [if_neg (by omega)]
      rfl
    | succ n ih =>
      intro i p hp
      rw [List.range'_succ, List.foldl_cons, ih (i + 1) _ (by rwa [List.length_set])]
      by_cases hij : i = j
      · subst hij
        rw [if_neg (by omega), if_pos (by omega), List.getElem?_set_self hp]
      · rw [List.getElem?_set_ne hij]
        exact if_congr (by omega) rfl rfl
  rw [fillPrev, hfold _ _ _ hj]
  exact if_congr (by omega) rfl rfl

theorem Levels.pred_above (h : Levels rank s ns linked) (t : Bytes) (hj : s.maxHeight ≤ j) :
    pred rank s ns linked t j = head := by
  have hnil : level ns linked j = [] := by
    rw [level, List.filter_eq_nil_iff]
    intro m hm
    have := h.tall m hm
    simp only [decide_eq_true_eq]
    omega
  rw [pred, hnil]
  rfl

/-- `Insert` of a key that is not there yet puts a node of the height it is given among the
others. -/
theorem Levels.insert (hcmp : RanksBy cmp rank)
    (h : Levels rank s ns s.height) (hk : k.length < 2 ^ 32)
    (hne : ∀ m ∈ ns, rank (s.key m) ≠ rank k) (hn : n ≤ kMaxHeight) :
    ∃ s', s.insert cmp k n = some s' ∧
      Levels rank s' (insertRun (fun m => rank (s'.key m)) s.nodes.length ns) s'.height ∧
      s'.key s.nodes.length = k ∧ s'.height s.nodes.length = n ∧
      ∀ m ∈ ns, s'.key m = s.key m ∧ s'.height m = s.height m := by
  obtain ⟨prev, hfind, hlen, hprev⟩ := h.findGreaterOrEqual hcmp k
  set s₁ := if s.maxHeight < n then { s with maxHeight := n } else s with hs₁
  set prev₁ := if s.maxHeight < n then fillPrev prev s.maxHeight n else prev with hprev₁
  have hmax : s₁.maxHeight = max s.maxHeight n := by
    rw [hs₁]
    split
    · rename_i hlt
      exact (max_eq_right hlt.le).symm
    · rename_i hle
      exact (max_eq_left (not_lt.1 hle)).symm
  have hnodes : s₁.nodes = s.nodes := by
    rw [hs₁]
    split <;> rfl
  have h₁ : Levels rank s₁ ns s.height := by
    rw [hs₁]
    split
    · exact h.raise (by omega) hn
    · exact h
  have hkey₁ : s₁.key = s.key := by
    funext m
    rw [SkipList.key, hnodes, SkipList.key]
  have hpred : ∀ j < n, prev₁[j]? = some (some (pred rank s₁ ns s.height k j)) := by
    intro j hj
    have hp : pred rank s₁ ns s.height k j = pred rank s ns s.height k j :=
      pred_congr (fun m _ => by rw [hkey₁]) rfl
    rw [hp, hprev₁]
    by_cases hjm : j < s.maxHeight
    · split
      · rw [getElem?_fillPrev _ _ _ _ (by omega), if_neg (by omega), hprev j hjm]
      · rw [hprev j hjm]
    · rw [if_pos (by omega), getElem?_fillPrev _ _ _ _ (by omega), if_pos (by omega),
        h.pred_above k (by omega)]
  have hne₁ : ∀ m ∈ ns, rank (s₁.key m) ≠ rank k := by rw [hkey₁]; exact hne
  have h₂ := h₁.addNode hk hne₁ n
  obtain ⟨hpk, hph, _⟩ := addNode_self (s := s₁) hk n
  have hold : ∀ m ∈ ns, m < s₁.nodes.length := fun m hm => (h₁.node m hm).2.1
  have hnew : s₁.nodes.length ∉ ns := fun hm => (hold _ hm).false
  have hpred₂ : ∀ j, 0 ≤ j → j < 0 + n → prev₁[j]? = some (some (pred rank (s₁.addNode k n)
      (insertRun (fun m => rank ((s₁.addNode k n).key m)) s₁.nodes.length ns)
      (Function.update s.height s₁.nodes.length 0) ((s₁.addNode k n).key s₁.nodes.length) j)) := by
    intro j _ hj
    rw [hpk, pred_congr (s := s₁) (fun m hm => (addNode_of_lt k n (hold m hm)).1)
      (level_insertRun hnew _)]
    exact hpred j (by omega)
  obtain ⟨s₃, hlink, hsame, h₃⟩ := h₂.linkLoop (mem_insertRun.2 (.inl rfl))
    (Function.update_self ..) (by rw [hph, Nat.zero_add])
    (show 0 + n ≤ s₁.maxHeight by omega) hpred₂
  have hp₁ : s₁.nodes.length = s.nodes.length := by rw [hnodes]
  have hkey₃ : ∀ m ∈ ns, s₃.key m = s.key m ∧ s₃.height m = s.height m := by
    intro m hm
    obtain ⟨hk', hh', _⟩ := addNode_of_lt k n (hold m hm)
    rw [hsame.key, hsame.height, hk', hh', hkey₁, SkipList.height, hnodes, SkipList.height]
    exact ⟨rfl, rfl⟩
  rw [hsame.key.symm, Nat.zero_add, Function.update_idem] at h₃
  rw [← hsame.key] at hpk
  rw [← hsame.height] at hph
  rw [hp₁] at h₃ hpk hph
  refine ⟨{ s₃ with size := s₃.size + 1 }, ?_, ?_, hpk, hph, hkey₃⟩
  · simp only [SkipList.insert, hfind, Option.bind_eq_bind, Option.bind_some, ← hs₁,
      ← hprev₁, hlink]
  · have h₄ : Levels rank s₃ _ s₃.height := h₃.congr fun m hm => by
      obtain rfl | hm := mem_insertRun.1 hm
      · rw [Function.update_self, hph]
      · rw [Function.update_of_ne (ne_of_mem_of_not_mem hm (hp₁ ▸ hnew)), (hkey₃ m hm).2]
    exact h₄.same ⟨rfl, rfl, rfl, rfl, rfl⟩ (fun m hm => ⟨le_rfl, h₄.tall m hm⟩) h₄.chain

theorem levels_new (rank : Bytes → β) : Levels rank new [] new.height where
  head_height := rfl
  slots := fun m hm => by
    obtain rfl : m = 0 := by simpa [new] using hm
    rfl
  node := fun m hm => (nomatch hm)
  sorted := .nil
  chain := fun j hj => by
    change (List.replicate kMaxHeight none)[j]? = some none
    rw [List.getElem?_replicate, if_pos hj]
  tall := fun m hm => (nomatch hm)
  low := le_rfl
  high := by decide

theorem perm_insertRun (f : Nat → β) (p : Nat) (ns : List Nat) :
    (insertRun f p ns).Perm (p :: ns) := by
  rw [insertRun]
  refine List.perm_middle.trans ?_
  rw [List.takeWhile_append_dropWhile]

theorem map_key_insertRun (hp : s'.key p = k) (hk : ∀ m ∈ ns, s'.key m = s.key m) :
    (insertRun (fun m => rank (s'.key m)) p ns).map s'.key = insertRun rank k (ns.map s.key) := by
  have hmap : ns.map s.key = ns.map s'.key := List.map_congr_left fun m hm => (hk m hm).symm
  rw [hmap, insertRun, insertRun, List.map_append, List.map_cons, List.takeWhile_map,
    List.dropWhile_map, hp]
  rfl

theorem keysFrom_eq (hc : Chain (s.next? · 0) x l) (hl : ∀ m ∈ l, m < s.nodes.length)
    (hf : l.length ≤ fuel) : s.keysFrom fuel l.head? = some (l.map s.key) := by
  induction l generalizing x fuel with
  | nil => cases fuel <;> rfl
  | cons y l ih =>
    obtain ⟨fuel, rfl⟩ : ∃ f, fuel = f + 1 := Nat.exists_eq_succ_of_ne_zero (by
      rintro rfl
      cases hf)
    obtain ⟨node, hget⟩ : ∃ node, s.nodes[y]? = some node :=
      ⟨_, List.getElem?_eq_getElem (hl y List.mem_cons_self)⟩
    have hnext : s.next? y 0 = some l.head? := Chain.getLastD (f := (s.next? · 0)) (a := []) hc.2
    have hkey : s.key y = node.key := by
      rw [key, hget]
      rfl
    rw [List.head?_cons, keysFrom, hget]
    simp only [Option.bind_eq_bind, Option.bind_some, hnext,
      ih hc.2 (fun m hm => hl m (List.mem_cons_of_mem y hm)) (Nat.le_of_succ_le_succ hf),
      List.map_cons, hkey]

end Order

def insertAll (cmp : Bytes → Bytes → Ordering) (s : SkipList) (ops : List (Bytes × Nat)) :
    Option SkipList := ops.foldlM (fun s op => s.insert cmp op.1 op.2) s

/-- The nodes `ns`, in ascending order of their keys, are those of the insertions `ops`; level 0
lists them, each level lists those of the level below that are high enough, and the levels from
`max_height_` on are empty. -/
structure Holds (cmp : Bytes → Bytes → Ordering) (s : SkipList) (ops : List (Bytes × Nat))
    (ns : List Nat) : Prop where
  entries : (ns.map fun m => (s.key m, s.height m)).Perm ops
  ascending : (ns.map s.key).Pairwise fun a b => cmp a b = .lt
  levels : ∃ lists : Nat → List Nat, (∀ i < kMaxHeight, Chain (s.next? · i) head (lists i)) ∧
    lists 0 = ns ∧ (∀ i, lists (i + 1) = (lists i).filter fun m => i + 1 < s.height m) ∧
    ∀ i, s.maxHeight ≤ i → lists i = []

section Order
variable {β : Type} [LinearOrder β] {rank : Bytes → β}

theorem level_zero (h1 : ∀ m ∈ ns, 1 ≤ s.height m) : level ns s.height 0 = ns :=
  List.filter_eq_self.2 fun m hm => decide_eq_true (h1 m hm)

theorem Levels.holds (hcmp : RanksBy cmp rank)
    (h : Levels rank s ns s.height) (h1 : ∀ m ∈ ns, 1 ≤ s.height m)
    (hops : (ns.map fun m => (s.key m, s.height m)).Perm ops) : Holds cmp s ops ns where
  entries := hops
  ascending := by
    rw [List.pairwise_map]
    exact h.sorted.imp fun hab => by rw [hcmp, compare_lt_iff_lt]; exact hab
  levels := by
    refine ⟨level ns s.height, h.chain, level_zero h1, fun i => ?_, fun i hi => ?_⟩
    · rw [level, level, List.filter_filter]
      refine List.filter_congr fun m _ => ?_
      rw [← Bool.decide_and]
      exact decide_eq_decide.2 (by omega)
    · rw [level, List.filter_eq_nil_iff]
      intro m hm
      have := h.tall m hm
      simp only [decide_eq_true_eq]
      omega

theorem Levels.enumerate (h : Levels rank s ns s.height) (h1 : ∀ m ∈ ns, 1 ≤ s.height m) :
    s.enumerate = some (ns.map s.key) := by
  have hc := h.chain 0 (by decide)
  rw [level_zero h1] at hc
  have hfirst : s.next? head 0 = some ns.head? := Chain.getLastD (f := (s.next? · 0)) (a := []) hc
  rw [SkipList.enumerate, seekToFirst, hfirst]
  exact keysFrom_eq hc (fun m hm => (h.node m hm).2.1) h.length_le

theorem Levels.find (hcmp : RanksBy cmp rank)
    (h : Levels rank s ns s.height) (h1 : ∀ m ∈ ns, 1 ≤ s.height m) (t : Bytes) :
    ∃ prev, s.findGreaterOrEqual cmp t noPrev =
      some (ns.find? fun m => cmp (s.key m) t ≠ .lt, prev) := by
  obtain ⟨prev, hfind, _⟩ := h.findGreaterOrEqual hcmp t
  refine ⟨prev, ?_⟩
  rw [hfind, level_zero h1, seekTo, ← List.find?_not_eq_head?_dropWhile]
  congr 3
  funext m
  rw [hcmp, ← decide_not]
  exact decide_eq_decide.2 (not_congr compare_lt_iff_lt.symm)

theorem Levels.contains (hcmp : RanksBy cmp rank)
    (h : Levels rank s ns s.height) (h1 : ∀ m ∈ ns, 1 ≤ s.height m) (t : Bytes) :
    s.contains cmp t = some (ns.any fun m => cmp (s.key m) t = .eq) := by
  obtain ⟨prev, hfind, _⟩ := h.findGreaterOrEqual hcmp t
  rw [level_zero h1] at hfind
  rw [SkipList.contains, hfind]
  cases hs : seekTo (fun m => rank (s.key m)) (rank t) ns with
  | nil =>
    have hnone : (ns.any fun m => cmp (s.key m) t = .eq) = false := by
      rw [List.any_eq_false]
      intro m hm he
      rw [decide_eq_true_iff, hcmp, compare_eq_iff_eq] at he
      have : m ∈ seekTo (fun m => rank (s.key m)) (rank t) ns :=
        h.sorted.mem_seekTo.2 ⟨hm, he.ge⟩
      rw [hs] at this
      cases this
    rw [hnone]
    rfl
  | cons n l =>
    obtain ⟨hn, hle, hfirst⟩ := h.sorted.seekTo_cons hs
    obtain ⟨node, hget⟩ : ∃ node, s.nodes[n]? = some node :=
      ⟨_, List.getElem?_eq_getElem (h.node n hn).2.1⟩
    have hkey : s.key n = node.key := by
      rw [key, hget]
      rfl
    simp only [List.head?_cons, Option.bind_eq_bind, Option.bind_some, hget, ← hkey,
      Option.some.injEq]
    rw [Bool.eq_iff_iff, List.any_eq_true, decide_eq_true_iff]
    constructor
    · exact fun he => ⟨n, hn, decide_eq_true he⟩
    · rintro ⟨m, hm, he⟩
      rw [decide_eq_true_iff, hcmp, compare_eq_iff_eq] at he
      rw [hcmp, compare_eq_iff_eq]
      exact le_antisymm ((hfirst m hm he.ge).trans he.le) hle

/-- Insertions of new keys into a list that holds `done`. -/
theorem Levels.insertAll (hcmp : RanksBy cmp rank)
    (h : Levels rank s ns s.height) (h1 : ∀ m ∈ ns, 1 ≤ s.height m)
    (hdone : (ns.map fun m => (s.key m, s.height m)).Perm done)
    (hlen : ∀ op ∈ ops, op.1.length < 2 ^ 32) (hh : ∀ op ∈ ops, 1 ≤ op.2 ∧ op.2 ≤ kMaxHeight)
    (hne : (done ++ ops).Pairwise fun a b => cmp a.1 b.1 ≠ .eq) :
    ∃ s' ns', insertAll cmp s ops = some s' ∧ Levels rank s' ns' s'.height ∧
      (∀ m ∈ ns', 1 ≤ s'.height m) ∧
      (ns'.map fun m => (s'.key m, s'.height m)).Perm (done ++ ops) ∧
      ns'.map s'.key = ops.foldl (fun l op => insertRun rank op.1 l) (ns.map s.key) := by
  induction ops generalizing s ns done with
  | nil => exact ⟨s, ns, rfl, h, h1, by rwa [List.append_nil], rfl⟩
  | cons op ops ih =>
    have hmem : op ∈ op :: ops := List.mem_cons_self
    have hfresh : ∀ m ∈ ns, rank (s.key m) ≠ rank op.1 := by
      intro m hm he
      have hin : (s.key m, s.height m) ∈ done := hdone.subset (List.mem_map_of_mem hm)
      refine (List.pairwise_append.1 hne).2.2 _ hin op hmem ?_
      rw [hcmp, compare_eq_iff_eq]
      exact he
    obtain ⟨s₁, hins, h₁, hk, hhe, hold⟩ := h.insert hcmp (hlen op hmem) hfresh (hh op hmem).2
    have h1₁ : ∀ m ∈ insertRun (fun m => rank (s₁.key m)) s.nodes.length ns, 1 ≤ s₁.height m := by
      intro m hm
      obtain rfl | hm := mem_insertRun.1 hm
      · rw [hhe]
        exact (hh op hmem).1
      · rw [(hold m hm).2]
        exact h1 m hm
    have hdone₁ : ((insertRun (fun m => rank (s₁.key m)) s.nodes.length ns).map
        fun m => (s₁.key m, s₁.height m)).Perm (done ++ [op]) := by
      have hmap : (ns.map fun m => (s₁.key m, s₁.height m)) =
          ns.map fun m => (s.key m, s.height m) :=
        List.map_congr_left fun m hm => by rw [(hold m hm).1, (hold m hm).2]
      refine ((perm_insertRun _ _ _).map _).trans ?_
      rw [List.map_cons, hk, hhe, hmap]
      exact (hdone.cons op).trans (List.perm_append_singleton op done).symm
    obtain ⟨s', ns', hrun, h', h1', hperm, hkeys⟩ := ih h₁ h1₁ hdone₁
      (fun o ho => hlen o (List.mem_cons_of_mem op ho))
      (fun o ho => hh o (List.mem_cons_of_mem op ho)) (by rwa [List.append_assoc])
    refine ⟨s', ns', ?_, h', h1', by rwa [List.append_assoc] at hperm, ?_⟩
    · rw [SkipList.insertAll, List.foldlM_cons, hins]
      exact hrun
    · rw [hkeys, map_key_insertRun hk fun m hm => (hold m hm).1, List.foldl_cons]

end Order

/-- The list is a sorted set, whatever the order of its insertions and the heights of its nodes. -/
theorem sorted_set (cmp : Bytes → Bytes → Ordering) [Std.TransCmp cmp] (ops : List (Bytes × Nat))
    (hlen : ∀ op ∈ ops, op.1.length < 2 ^ 32) (hh : ∀ op ∈ ops, 1 ≤ op.2 ∧ op.2 ≤ kMaxHeight)
    (hne : ops.Pairwise fun a b => cmp a.1 b.1 ≠ .eq) :
    ∃ s ns, insertAll cmp new ops = some s ∧ Holds cmp s ops ns ∧
      s.enumerate = some (ns.map s.key) ∧
      ∀ target,
        (∃ prev, s.findGreaterOrEqual cmp target noPrev =
          some (ns.find? fun m => cmp (s.key m) target ≠ .lt, prev)) ∧
        s.seek cmp target = some (ns.find? fun m => cmp (s.key m) target ≠ .lt) ∧
        s.contains cmp target = some (ns.any fun m => cmp (s.key m) target = .eq) := by
  obtain ⟨β, _, rank, hcmp⟩ := exists_ranksBy cmp
  obtain ⟨s, ns, hrun, h, h1, hperm, _⟩ := (levels_new rank).insertAll hcmp
    (fun m hm => (nomatch hm)) (.refl []) hlen hh hne
  refine ⟨s, ns, hrun, h.holds hcmp h1 hperm, h.enumerate h1, fun target => ?_⟩
  obtain ⟨prev, hfind⟩ := h.find hcmp h1 target
  exact ⟨⟨prev, hfind⟩, by rw [seek, hfind]; rfl, h.contains hcmp h1 target⟩

end SkipList

namespace MemTable

theorem compareEntry_ranksBy : RanksBy compareEntry fun e => sortKey (decodeEntryKey e) :=
  ranksBy_of_iff (fun _ _ => compareInternalKey_lt) fun _ _ => compareInternalKey_gt

instance : Std.TransCmp compareEntry := compareEntry_ranksBy.transCmp _

theorem insert_entries (t : MemTable) {e : Bytes} (hlen : e.length < 2 ^ 32) :
    (t.insert e).entries = insertRun (fun e => sortKey (decodeEntryKey e)) e t.entries := by
  have hp : ∀ a, (compareEntry a e == .lt) =
      decide (sortKey (decodeEntryKey a) < sortKey (decodeEntryKey e)) := by
    intro a
    rw [Bool.eq_iff_iff, beq_iff_eq, decide_eq_true_iff, compareEntry, compareInternalKey_lt]
  simp only [insert, take_of_fits hlen, insertRun, hp]

/-- The nodes of the skip list are the entries of the memtable, in their order. -/
theorem entries_skipList (ops : List (Bytes × Nat)) (hlen : ∀ op ∈ ops, op.1.length < 2 ^ 32)
    (hh : ∀ op ∈ ops, 1 ≤ op.2 ∧ op.2 ≤ SkipList.kMaxHeight)
    (hne : ops.Pairwise fun a b => compareEntry a.1 b.1 ≠ .eq) :
    ∃ s, SkipList.insertAll compareEntry .new ops = some s ∧
      s.enumerate = some (ops.foldl (fun t op => t.insert op.1) ({} : MemTable)).entries := by
  obtain ⟨s, ns, hrun, h, h1, _, hkeys⟩ := (SkipList.levels_new _).insertAll compareEntry_ranksBy
    (fun m hm => (nomatch hm)) (.refl []) hlen hh hne
  have hfold : ∀ (ops : List (Bytes × Nat)) (t : MemTable), (∀ op ∈ ops, op.1.length < 2 ^ 32) →
      (ops.foldl (fun t op => t.insert op.1) t).entries = ops.foldl
        (fun l op => insertRun (fun e => sortKey (decodeEntryKey e)) op.1 l) t.entries := by
    intro ops
    induction ops with
    | nil => exact fun t _ => rfl
    | cons op ops ih =>
      intro t hlen
      rw [List.foldl_cons, List.foldl_cons, ih _ fun op' h => hlen op' (List.mem_cons_of_mem op h),
        insert_entries t (hlen op List.mem_cons_self)]
  exact ⟨s, hrun, by rw [h.enumerate h1, hkeys, hfold ops _ hlen]; rfl⟩

end MemTable

namespace SkipList

/-- Two entries, the smaller one later and three levels high. -/
theorem sorted_set_two :
    let ops : List (Bytes × Nat) :=
      [(putLengthPrefixed (encodeInternalKey [98] 1 .kValue), 1),
        (putLengthPrefixed (encodeInternalKey [97] 2 .kValue), 3)]
    ∃ s ns, insertAll MemTable.compareEntry new ops = some s ∧
      Holds MemTable.compareEntry s ops ns := by
  intro ops
  obtain ⟨s, ns, hrun, hholds, _⟩ := sorted_set MemTable.compareEntry ops (by decide) (by decide)
    (by decide)
  exact ⟨s, ns, hrun, hholds⟩

end SkipList

end LsmKv
