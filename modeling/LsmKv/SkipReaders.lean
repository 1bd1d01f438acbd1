import LsmKv.SkipList

namespace LsmKv
set_option autoImplicit true

/-- A reader between two loads: in `FindGreaterOrEqual`, or with an iterator on a node. -/
inductive ReaderPhase where
  | idle
  | searching (x level : Nat)
  | standing (node : Option Nat)
deriving DecidableEq

/-- A reader and the key it seeks, none for `SeekToFirst`. The other fields say what happened: the
nodes that were inserted when it began, those that its search stepped to, the number of its loads,
and the nodes that the iterator has stood on, the last one first. -/
structure SkipReader where
  phase : ReaderPhase := .idle
  target : Option Bytes := none
  before : List Nat := []
  path : List Nat := []
  loads : Nat := 0
  shown : List Nat := []

/-- The writer between two loads or stores of `Insert`. -/
inductive SkipWriter where
  | idle
  | searching (key : Bytes) (height : Nat) (prev : List (Option Nat)) (x level : Nat)
  | comparing (key : Bytes) (height : Nat) (prev : List (Option Nat))
  | raising (key : Bytes) (height : Nat) (prev : List (Option Nat))
  | loading (node height : Nat) (prev : List (Option Nat)) (i : Nat)
  | filling (node height : Nat) (prev : List (Option Nat)) (i : Nat) (v : Option Nat)
  | publishing (node height : Nat) (prev : List (Option Nat)) (i : Nat)

/-- The node that is being linked, and on how many levels it is. -/
def SkipWriter.linking : SkipWriter → Option (Nat × Nat)
  | loading node _ _ i => some (node, i)
  | filling node _ _ i _ => some (node, i)
  | publishing node _ _ i => some (node, i)
  | _ => none

/-- One writer and its readers; `inserted` are the nodes whose `Insert` has returned. -/
structure SkipSys where
  list : SkipList := .new
  writer : SkipWriter := .idle
  readers : Nat → SkipReader := fun _ => {}
  inserted : List Nat := []

/-- The atomic steps. -/
inductive SkipAct where
  | seek (reader : Nat) (target : Bytes)
  | load (reader : Nat)
  | seekToFirst (reader : Nat)
  | next (reader : Nat)
  | insert (key : Bytes) (height : Nat)
  | write

namespace SkipSys
open SkipList

section Steps
variable (cmp : Bytes → Bytes → Ordering) (s : SkipSys)

def setReader (i : Nat) (r : SkipReader) : SkipSys :=
  { s with readers := Function.update s.readers i r }

/-- `FindGreaterOrEqual` loads `max_height_`. -/
def seekStep (i : Nat) (target : Bytes) : SkipSys :=
  s.setReader i {
    phase := .searching head (s.list.maxHeight - 1)
    target := some target
    before := s.inserted }

/-- `FindGreaterOrEqual` loads a pointer. -/
def loadStep (i : Nat) : Option SkipSys :=
  let r := s.readers i
  match r.phase, r.target with
  | .searching x level, some target => do
    match ← s.list.advance cmp target x level with
    | .right n => some (s.setReader i
        { r with phase := .searching n level, path := n :: r.path, loads := r.loads + 1 })
    | .down l => some (s.setReader i { r with phase := .searching x l, loads := r.loads + 1 })
    | .found next => some (s.setReader i
        { r with phase := .standing next, loads := r.loads + 1, shown := next.toList })
  | _, _ => none

def seekToFirstStep (i : Nat) : Option SkipSys := do
  let first ← s.list.next? head 0
  some (s.setReader i { phase := .standing first, before := s.inserted, shown := first.toList })

def nextStep (i : Nat) : Option SkipSys :=
  let r := s.readers i
  match r.phase with
  | .standing (some n) => do
    let next ← s.list.next? n 0
    some (s.setReader i { r with phase := .standing next, shown := next.toList ++ r.shown })
  | _ => none

/-- A call of `Insert`, which loads `max_height_` for its search. There must be no other call, and
no equal key; `height` is what `RandomHeight` will yield. -/
def insertStep (key : Bytes) (height : Nat) : Option SkipSys :=
  match s.writer with
  | .idle =>
    if 1 ≤ height ∧ height ≤ kMaxHeight ∧ key.length < 2 ^ 32 ∧
        ∀ n ∈ s.list.nodes.tail, cmp n.key key ≠ .eq then
      some { s with writer := .searching key height noPrev head (s.list.maxHeight - 1) }
    else none
  | _ => none

/-- The new node is ready to be linked. -/
def allocate (key : Bytes) (height : Nat) (prev : List (Option Nat)) : SkipSys :=
  { s with
    list := s.list.addNode key height
    writer := .loading s.list.nodes.length height prev 0 }

/-- `Insert` has linked the node on all its levels. -/
def finish (list : SkipList) (node : Nat) : SkipSys :=
  { s with
    list := { list with size := list.size + 1 }
    writer := .idle
    inserted := node :: s.inserted }

def writeStep : Option SkipSys :=
  match s.writer with
  | .idle => none
  | .searching key height prev x level => do
    match ← s.list.advance cmp key x level with
    | .right n => some { s with writer := .searching key height prev n level }
    | .down l => some { s with writer := .searching key height (prev.set level (some x)) x l }
    | .found _ => some { s with writer := .comparing key height (prev.set level (some x)) }
  | .comparing key height prev =>
    if s.list.maxHeight < height then
      some { s with writer := .raising key height (fillPrev prev s.list.maxHeight height) }
    else some (s.allocate key height prev)
  | .raising key height prev =>
    some ({ s with list := { s.list with maxHeight := height } }.allocate key height prev)
  | .loading node height prev i => do
    let x ← (prev[i]?).join
    let v ← s.list.next? x i
    some { s with writer := .filling node height prev i v }
  | .filling node height prev i v => do
    let list ← s.list.setNext node i v
    some { s with list, writer := .publishing node height prev i }
  | .publishing node height prev i => do
    let x ← (prev[i]?).join
    let list ← s.list.setNext x i (some node)
    if i + 1 < height then some { s with list, writer := .loading node height prev (i + 1) }
    else some (s.finish list node)

def step : SkipAct → Option SkipSys
  | .seek i target =>
    match (s.readers i).phase with
    | .searching _ _ => none
    | _ => some (s.seekStep i target)
  | .load i => s.loadStep cmp i
  | .seekToFirst i =>
    match (s.readers i).phase with
    | .searching _ _ => none
    | _ => s.seekToFirstStep i
  | .next i => s.nextStep i
  | .insert key height => s.insertStep cmp key height
  | .write => s.writeStep cmp

def run (acts : List SkipAct) : Option SkipSys := acts.foldlM (step cmp) s

end Steps

section Alone
variable {cmp : Bytes → Bytes → Ordering} {s s' : SkipSys} {l l' : SkipList}

/-- The writer gets from `s` to `s'` with no reader in between. -/
def Writes (cmp : Bytes → Bytes → Ordering) (s s' : SkipSys) : Prop :=
  ∃ n, s.run cmp (List.replicate n .write) = some s'

theorem Writes.refl (cmp : Bytes → Bytes → Ordering) (s : SkipSys) : Writes cmp s s := ⟨0, rfl⟩

theorem Writes.step (hs : s.writeStep cmp = some s') (h : Writes cmp s' s'') :
    Writes cmp s s'' := by
  obtain ⟨n, hn⟩ := h
  refine ⟨n + 1, ?_⟩
  rw [run, List.replicate_succ, List.foldlM_cons]
  simp only [SkipSys.step, hs, Option.bind_eq_bind, Option.bind_some]
  exact hn

theorem Writes.trans (h : Writes cmp s s') (h' : Writes cmp s' s'') : Writes cmp s s'' := by
  obtain ⟨n, hn⟩ := h
  obtain ⟨m, hm⟩ := h'
  refine ⟨n + m, ?_⟩
  rw [run, ← List.replicate_append_replicate, List.foldlM_append]
  rw [run] at hn
  rw [hn]
  exact hm

/-- The search of `Insert` is `FindGreaterOrEqual`. -/
theorem writes_findLoop {prev prev' : List (Option Nat)} {fuel : Nat}
    (h : s.list.findLoop cmp k fuel prev x j = some (v, prev')) :
    Writes cmp { s with writer := .searching k n prev x j }
      { s with writer := .comparing k n prev' } := by
  induction fuel generalizing prev x j with
  | zero => cases h
  | succ fuel ih =>
    rw [findLoop, Option.bind_eq_bind, Option.bind_eq_some_iff] at h
    obtain ⟨round, hadv, h⟩ := h
    cases round with
    | right m =>
      refine Writes.step ?_ (ih h)
      simp only [writeStep, hadv, Option.bind_eq_bind, Option.bind_some]
    | down l =>
      refine Writes.step ?_ (ih h)
      simp only [writeStep, hadv, Option.bind_eq_bind, Option.bind_some]
    | found next =>
      cases h
      refine Writes.step ?_ (.refl cmp _)
      simp only [writeStep, hadv, Option.bind_eq_bind, Option.bind_some]

theorem writes_linkLevel (cmp : Bytes → Bytes → Ordering) (s : SkipSys) (n : Nat)
    {prev : List (Option Nat)} (h : l.linkLevel prev p i = some l') :
    Writes cmp { s with list := l, writer := .loading p n prev i }
      (if i + 1 < n then { s with list := l', writer := .loading p n prev (i + 1) }
        else s.finish l' p) := by
  simp only [linkLevel, Option.bind_eq_bind, Option.bind_eq_some_iff] at h
  obtain ⟨x, hx, v, hv, l₁, hl₁, hl'⟩ := h
  have hload : writeStep cmp { s with list := l, writer := .loading p n prev i } =
      some { s with list := l, writer := .filling p n prev i v } := by
    simp only [writeStep, hx, hv, Option.bind_eq_bind, Option.bind_some]
  have hfill : writeStep cmp { s with list := l, writer := .filling p n prev i v } =
      some { s with list := l₁, writer := .publishing p n prev i } := by
    simp only [writeStep, hl₁, Option.bind_eq_bind, Option.bind_some]
  refine .step hload (.step hfill (.step ?_ (.refl cmp _)))
  simp only [writeStep, hx, hl', Option.bind_eq_bind, Option.bind_some]
  split <;> rfl

theorem writes_linkLoop (cmp : Bytes → Bytes → Ordering) (s : SkipSys) {prev : List (Option Nat)}
    (h : linkLoop prev p (n + 1) i l = some l') :
    Writes cmp { s with list := l, writer := .loading p (i + (n + 1)) prev i } (s.finish l' p) := by
  induction n generalizing i l with
  | zero =>
    rw [linkLoop, Option.bind_eq_bind, Option.bind_eq_some_iff] at h
    obtain ⟨l₁, hl₁, h⟩ := h
    cases h
    have hlevel := writes_linkLevel cmp s (i + 1) hl₁
    rwa [if_neg (lt_irrefl _)] at hlevel
  | succ n ih =>
    rw [linkLoop, Option.bind_eq_bind, Option.bind_eq_some_iff] at h
    obtain ⟨l₁, hl₁, h⟩ := h
    have hlevel := writes_linkLevel cmp s (i + (n + 2)) hl₁
    rw [if_pos (by omega)] at hlevel
    have hrest := ih h
    rw [show i + 1 + (n + 1) = i + (n + 2) by omega] at hrest
    exact hlevel.trans hrest

/-- With no reader in between, the steps of the writer are those of `Insert`. -/
theorem writes_insert (hs : s.insertStep cmp k n = some s') (h : s.list.insert cmp k n = some l) :
    Writes cmp s'
      { s with list := l, writer := .idle, inserted := s.list.nodes.length :: s.inserted } := by
  rw [insertStep] at hs
  split at hs
  · rw [Option.ite_none_right_eq_some] at hs
    obtain ⟨⟨hlow, -⟩, hs⟩ := hs
    cases hs
    obtain ⟨m, rfl⟩ := Nat.exists_eq_succ_of_ne_zero (Nat.one_le_iff_ne_zero.1 hlow)
    simp only [SkipList.insert, Option.bind_eq_bind, Option.bind_eq_some_iff] at h
    obtain ⟨⟨v, prev⟩, hfind, l', hlink, hl⟩ := h
    cases hl
    refine (writes_findLoop hfind).trans ?_
    by_cases hlt : s.list.maxHeight < m + 1
    · simp only [if_pos hlt] at hlink
      have hcompare : writeStep cmp { s with writer := .comparing k (m + 1) prev } = some { s with
          writer := .raising k (m + 1) (fillPrev prev s.list.maxHeight (m + 1)) } := by
        simp only [writeStep, if_pos hlt]
      refine .step hcompare (.step rfl ?_)
      have hlinked := writes_linkLoop cmp s hlink
      rw [Nat.zero_add] at hlinked
      exact hlinked
    · simp only [if_neg hlt] at hlink
      have hcompare : writeStep cmp { s with writer := .comparing k (m + 1) prev } =
          some (s.allocate k (m + 1) prev) := by
        simp only [writeStep, if_neg hlt]
        rfl
      refine .step hcompare ?_
      have hlinked := writes_linkLoop cmp s hlink
      rw [Nat.zero_add] at hlinked
      exact hlinked
  · cases hs

end Alone

/-- On how many levels a node is linked. -/
def linked (s : SkipSys) : Nat → Nat :=
  match s.writer.linking with
  | some (p, i) => Function.update s.list.height p i
  | none => s.list.height

section Invariant
variable {β : Type} [LinearOrder β] {rank : Bytes → β} {cmp : Bytes → Bytes → Ordering}
  {s s' : SkipSys} {l l' : SkipList} {ns ns' : List Nat} {lk lk' : Nat → Nat} {r : SkipReader}
  {prev : List (Option Nat)}

/-- The key of a node is not before the one that the reader seeks. -/
def From (rank : Bytes → β) (l : SkipList) (r : SkipReader) (m : Nat) : Prop :=
  ∀ t, r.target = some t → rank t ≤ rank (l.key m)

/-- Loads that did not step to a node stepped down. -/
structure Searching (rank : Bytes → β) (l : SkipList) (ns : List Nat) (lk : Nat → Nat)
    (r : SkipReader) (x level : Nat) : Prop where
  place : ∃ t, r.target = some t ∧ At rank l ns lk t x level
  level_lt : level < kMaxHeight
  path : Path rank l ns r.path x
  loads : r.loads + level < r.path.length + kMaxHeight

/-- What was inserted before the reader began has been shown, or is still ahead. -/
structure Standing (rank : Bytes → β) (l : SkipList) (ns : List Nat) (lk : Nat → Nat)
    (r : SkipReader) (v : Option Nat) : Prop where
  last : ∀ n, v = some n → ∃ rest, r.shown = n :: rest
  sorted : r.shown.Pairwise fun a b => rank (l.key b) < rank (l.key a)
  mem : ∀ m ∈ r.shown, m ∈ level ns lk 0 ∧ From rank l r m
  covered : ∀ m ∈ r.before, From rank l r m →
    m ∈ r.shown ∨ ∃ n, v = some n ∧ rank (l.key n) < rank (l.key m)

def ReaderOk (rank : Bytes → β) (l : SkipList) (ns : List Nat) (lk : Nat → Nat)
    (r : SkipReader) : Prop :=
  match r.phase with
  | .idle => True
  | .searching x level => Searching rank l ns lk r x level
  | .standing v => Standing rank l ns lk r v

/-- Nodes are added, and linked on more levels. -/
structure Grows (l : SkipList) (ns : List Nat) (lk : Nat → Nat) (l' : SkipList) (ns' : List Nat)
    (lk' : Nat → Nat) : Prop where
  key : ∀ m ∈ ns, l'.key m = l.key m
  mem : ∀ m ∈ ns, m ∈ ns'
  linked : ∀ m ∈ ns, lk m ≤ lk' m

theorem Grows.level (h : Grows l ns lk l' ns' lk') (hm : m ∈ level ns lk j) :
    m ∈ level ns' lk' j := by
  obtain ⟨hns, hlt⟩ := mem_level.1 hm
  exact mem_level.2 ⟨h.mem m hns, lt_of_lt_of_le hlt (h.linked m hns)⟩

theorem Searching.grow (h : Searching rank l ns lk r x j) (hg : Grows l ns lk l' ns' lk') :
    Searching rank l' ns' lk' r x j := by
  obtain ⟨⟨t, ht, hat⟩, hlt, ⟨hlast, hmem, hsorted⟩, hloads⟩ := h
  refine ⟨⟨t, ht, ?_⟩, hlt, ⟨hlast, fun m hm => hg.mem m (hmem m hm), ?_⟩, hloads⟩
  · refine hat.imp id fun ⟨hm, hj, hk⟩ => ?_
    rw [hg.key x hm]
    exact ⟨hg.mem x hm, lt_of_lt_of_le hj (hg.linked x hm), hk⟩
  · refine hsorted.imp_of_mem fun {a b} ha hb hab => ?_
    rwa [hg.key a (hmem a ha), hg.key b (hmem b hb)]

theorem Standing.grow (h : Standing rank l ns lk r v) (hb : ∀ m ∈ r.before, m ∈ ns)
    (hg : Grows l ns lk l' ns' lk') : Standing rank l' ns' lk' r v := by
  have hin : ∀ m ∈ r.shown, m ∈ ns := fun m hm => (mem_level.1 (h.mem m hm).1).1
  refine ⟨h.last, ?_, fun m hm => ⟨hg.level (h.mem m hm).1, fun t ht => ?_⟩, fun m hm hf => ?_⟩
  · refine h.sorted.imp_of_mem fun {a b} ha hb hab => ?_
    rwa [hg.key a (hin a ha), hg.key b (hin b hb)]
  · rw [hg.key m (hin m hm)]
    exact (h.mem m hm).2 t ht
  · refine (h.covered m hm fun t ht => hg.key m (hb m hm) ▸ hf t ht).imp id ?_
    rintro ⟨n, rfl, hlt⟩
    obtain ⟨rest, hr⟩ := h.last n rfl
    refine ⟨n, rfl, ?_⟩
    rwa [hg.key n (hin n (by rw [hr]; exact List.mem_cons_self)), hg.key m (hb m hm)]

theorem ReaderOk.grow (h : ReaderOk rank l ns lk r) (hb : ∀ m ∈ r.before, m ∈ ns)
    (hg : Grows l ns lk l' ns' lk') : ReaderOk rank l' ns' lk' r := by
  rw [ReaderOk] at h ⊢
  split at h
  · trivial
  · exact h.grow hg
  · exact h.grow hb hg

/-- The key can be inserted with the height. -/
structure Fresh (rank : Bytes → β) (l : SkipList) (ns : List Nat) (key : Bytes) (height : Nat) :
    Prop where
  low : 1 ≤ height
  high : height ≤ kMaxHeight
  length : key.length < 2 ^ 32
  rank_ne : ∀ m ∈ ns, rank (l.key m) ≠ rank key

/-- The node is linked below level `i`, and `prev` has its predecessors from there on. -/
structure Linking (rank : Bytes → β) (l : SkipList) (ns : List Nat) (lk : Nat → Nat)
    (p height : Nat) (prev : List (Option Nat)) (i : Nat) : Prop where
  mem : p ∈ ns
  linked : lk p = i
  lt : i < height
  tall : height ≤ l.maxHeight
  height_eq : l.height p = height
  prev : ∀ j, i ≤ j → j < height → prev[j]? = some (some (pred rank l ns lk (l.key p) j))

/-- The node behind `p` on level `i`. -/
def succ (rank : Bytes → β) (l : SkipList) (ns : List Nat) (lk : Nat → Nat) (p i : Nat) :
    Option Nat :=
  (seekTo (fun m => rank (l.key m)) (rank (l.key p)) (level ns lk i)).head?

def WriterOk (rank : Bytes → β) (l : SkipList) (ns : List Nat) (lk : Nat → Nat) :
    SkipWriter → Prop
  | .idle => True
  | .searching key height prev x j => Fresh rank l ns key height ∧ prev.length = kMaxHeight ∧
      j < l.maxHeight ∧ At rank l ns lk key x j ∧
      ∀ i, j < i → i < l.maxHeight → prev[i]? = some (some (pred rank l ns lk key i))
  | .comparing key height prev => Fresh rank l ns key height ∧ prev.length = kMaxHeight ∧
      ∀ i < l.maxHeight, prev[i]? = some (some (pred rank l ns lk key i))
  | .raising key height prev => Fresh rank l ns key height ∧ l.maxHeight < height ∧
      ∀ i < height, prev[i]? = some (some (pred rank l ns lk key i))
  | .loading p height prev i => Linking rank l ns lk p height prev i
  | .filling p height prev i v => Linking rank l ns lk p height prev i ∧ v = succ rank l ns lk p i
  | .publishing p height prev i => Linking rank l ns lk p height prev i ∧
      l.next? p i = some (succ rank l ns lk p i)

/-- What holds between any two steps; `ns` are the nodes in the order of their keys. -/
structure Sound (rank : Bytes → β) (s : SkipSys) (ns : List Nat) : Prop where
  levels : Levels rank s.list ns s.linked
  all : ∀ m, m ≠ head → m < s.list.nodes.length → m ∈ ns
  inserted : ∀ m ∈ s.inserted, m ∈ level ns s.linked 0
  others : ∀ m ∈ ns, m ∈ s.inserted ∨ ∃ i, s.writer.linking = some (m, i)
  writer : WriterOk rank s.list ns s.linked s.writer
  before : ∀ i, ∀ m ∈ (s.readers i).before, m ∈ s.inserted
  reader : ∀ i, ReaderOk rank s.list ns s.linked (s.readers i)

theorem sound_new (rank : Bytes → β) : Sound rank {} [] where
  levels := levels_new rank
  all := fun _ hm hlt => absurd (Nat.lt_one_iff.1 hlt) hm
  inserted := fun _ hm => (nomatch hm)
  others := fun _ hm => (nomatch hm)
  writer := trivial
  before := fun _ _ hm => (nomatch hm)
  reader := fun _ => trivial

theorem Sound.setReader (h : Sound rank s ns) (i : Nat) (hb : ∀ m ∈ r.before, m ∈ s.inserted)
    (hr : ReaderOk rank s.list ns s.linked r) : Sound rank (s.setReader i r) ns where
  levels := h.levels
  all := h.all
  inserted := h.inserted
  others := h.others
  writer := h.writer
  before := fun j => by
    by_cases hj : j = i
    · subst hj
      simp only [SkipSys.setReader, Function.update_self]
      exact hb
    · simp only [SkipSys.setReader, Function.update_of_ne hj]
      exact h.before j
  reader := fun j => by
    by_cases hj : j = i
    · subst hj
      simp only [SkipSys.setReader, Function.update_self]
      exact hr
    · simp only [SkipSys.setReader, Function.update_of_ne hj]
      exact h.reader j

theorem Sound.seekStep (h : Sound rank s ns) (i : Nat) (t : Bytes) :
    Sound rank (s.seekStep i t) ns := by
  have hlow := h.levels.low
  have hhigh := h.levels.high
  refine h.setReader i (fun m hm => hm) ⟨⟨t, rfl, .inl rfl⟩, by omega, ?_, ?_⟩
  · exact ⟨rfl, fun _ hm => (nomatch hm), .nil⟩
  · simp only [List.length_nil]
    omega

/-- An iterator starts on the first node that is not before the target. -/
theorem standing_of_first {rest : List Nat}
    (hsorted : Ascending (fun m => rank (l.key m)) rest)
    (hrest : ∀ m, m ∈ rest ↔ m ∈ level ns lk 0 ∧ From rank l r m)
    (hb : ∀ m ∈ r.before, m ∈ level ns lk 0) (hshown : r.shown = rest.head?.toList) :
    Standing rank l ns lk r rest.head? := by
  cases rest with
  | nil =>
    rw [List.head?_nil, Option.toList_none] at hshown
    refine ⟨fun n hn => (nomatch hn), hshown ▸ .nil, fun m hm => ?_, fun m hm hf => ?_⟩
    · rw [hshown] at hm
      exact (nomatch hm)
    · exact (nomatch (hrest m).2 ⟨hb m hm, hf⟩)
  | cons n rest =>
    rw [List.head?_cons, Option.toList_some] at hshown
    rw [List.head?_cons]
    refine ⟨fun _ hn => ⟨[], Option.some.inj hn ▸ hshown⟩, ?_, fun m hm => ?_, fun m hm hf => ?_⟩
    · rw [hshown]
      exact List.pairwise_singleton _ _
    · rw [hshown, List.mem_singleton] at hm
      exact (hrest m).1 (hm ▸ List.mem_cons_self)
    · rw [hshown]
      rcases List.mem_cons.1 ((hrest m).2 ⟨hb m hm, hf⟩) with rfl | hm
      · exact .inl List.mem_cons_self
      · exact .inr ⟨n, rfl, (ascending_cons.1 hsorted).1 m hm⟩

/-- An iterator moves to the node behind its own. -/
theorem Standing.next (h : Standing rank l ns lk r (some n)) (hl : Levels rank l ns lk)
    (hb : ∀ m ∈ r.before, m ∈ level ns lk 0) : ∃ v, l.next? n 0 = some v ∧
      Standing rank l ns lk { r with phase := .standing v, shown := v.toList ++ r.shown } v := by
  obtain ⟨shown, hshown⟩ := h.last n rfl
  obtain ⟨hn, hfrom⟩ := h.mem n (hshown ▸ List.mem_cons_self)
  obtain ⟨a, b, hab⟩ := List.append_of_mem hn
  have hchain := hl.chain 0 (by decide)
  have hsorted := hl.level_sorted 0
  rw [hab] at hsorted
  rw [hab, List.append_cons] at hchain
  have hnext : l.next? n 0 = some b.head? := by
    have := hchain.getLastD
    rwa [List.getLastD_concat] at this
  obtain ⟨-, hnb, hlt⟩ := ascending_append.1 hsorted
  rw [ascending_cons] at hnb
  -- a node of the list with a greater key is behind this one
  have hbehind : ∀ m ∈ level ns lk 0, rank (l.key n) < rank (l.key m) → m ∈ b := by
    intro m hm hgt
    rw [hab, List.mem_append, List.mem_cons] at hm
    rcases hm with hm | rfl | hm
    · exact absurd (hlt m hm n List.mem_cons_self) (not_lt_of_gt hgt)
    · exact absurd hgt (lt_irrefl _)
    · exact hm
  refine ⟨_, hnext, ?_⟩
  cases b with
  | nil =>
    refine ⟨fun _ hn => (nomatch hn), h.sorted, h.mem, fun m hm hf => ?_⟩
    refine (h.covered m hm hf).imp id fun ⟨n', hn', hgt⟩ => ?_
    cases hn'
    exact (nomatch hbehind m (hb m hm) hgt)
  | cons c b =>
    have hnc : rank (l.key n) < rank (l.key c) := hnb.1 c List.mem_cons_self
    refine ⟨fun c' hc' => ⟨r.shown, Option.some.inj hc' ▸ rfl⟩, ?_, ?_, fun m hm hf => ?_⟩
    · refine List.pairwise_cons.2 ⟨fun m hm => ?_, h.sorted⟩
      have hs := h.sorted
      rw [hshown] at hs hm
      rcases List.mem_cons.1 hm with rfl | hm
      · exact hnc
      · exact ((List.pairwise_cons.1 hs).1 m hm).trans hnc
    · intro m hm
      rcases List.mem_cons.1 hm with rfl | hm
      · refine ⟨hab ▸ by simp, fun t ht => (hfrom t ht).trans hnc.le⟩
      · exact h.mem m hm
    · rcases h.covered m hm hf with hm | ⟨n', hn', hgt⟩
      · exact .inl (List.mem_cons_of_mem _ hm)
      · cases hn'
        rcases List.mem_cons.1 (hbehind m (hb m hm) hgt) with rfl | hm
        · exact .inl List.mem_cons_self
        · exact .inr ⟨c, rfl, (ascending_cons.1 hnb.2).1 m hm⟩

theorem Sound.before_mem (h : Sound rank s ns) (i : Nat) :
    ∀ m ∈ (s.readers i).before, m ∈ level ns s.linked 0 :=
  fun m hm => h.inserted m (h.before i m hm)

theorem Sound.seekToFirstStep (h : Sound rank s ns) (i : Nat) :
    ∃ first s', s.list.next? head 0 = some first ∧ s.seekToFirstStep i = some s' ∧
      Sound rank s' ns ∧ s'.readers i =
        { phase := .standing first, before := s.inserted, shown := first.toList } := by
  have hchain := h.levels.chain 0 (by decide)
  have hfirst : s.list.next? head 0 = some (level ns s.linked 0).head? := hchain.getLastD (a := [])
  rw [SkipSys.seekToFirstStep, hfirst]
  refine ⟨_, _, rfl, rfl, h.setReader i (fun m hm => hm) ?_, ?_⟩
  · exact standing_of_first (h.levels.level_sorted 0)
      (fun m => ⟨fun hm => ⟨hm, fun _ ht => (nomatch ht)⟩, And.left⟩) h.inserted rfl
  · simp only [SkipSys.setReader, Function.update_self]

theorem Sound.nextStep (h : Sound rank s ns) (hr : (s.readers i).phase = .standing (some n)) :
    ∃ v s', s.list.next? n 0 = some v ∧ s.nextStep i = some s' ∧ Sound rank s' ns ∧
      s'.readers i =
        { s.readers i with phase := .standing v, shown := v.toList ++ (s.readers i).shown } := by
  have hst := h.reader i
  rw [ReaderOk, hr] at hst
  obtain ⟨v, hv, hst'⟩ := Standing.next hst h.levels (h.before_mem i)
  simp only [SkipSys.nextStep, hr, hv]
  refine ⟨v, _, rfl, rfl, h.setReader i (h.before i) hst', ?_⟩
  simp only [SkipSys.setReader, Function.update_self]

theorem Sound.loadStep (hcmp : RanksBy cmp rank) (h : Sound rank s ns)
    (hr : (s.readers i).phase = .searching x j) :
    ∃ s', s.loadStep cmp i = some s' ∧ Sound rank s' ns := by
  have hst := h.reader i
  rw [ReaderOk, hr] at hst
  obtain ⟨⟨t, ht, hat⟩, hlt, hpath, hloads⟩ := hst
  rcases h.levels.advance hcmp hlt hat with ⟨n, hadv, hn, hmem, hx⟩ | ⟨hadv, -⟩
  · simp only [SkipSys.loadStep, hr, ht, hadv]
    refine ⟨_, rfl, h.setReader i (h.before i) ⟨⟨t, rfl, hn⟩, hlt, ?_, ?_⟩⟩
    · exact hpath.right hmem h.levels.head_notMem hx
    · simp only [List.length_cons]
      omega
  · cases j with
    | zero =>
      simp only [SkipSys.loadStep, hr, ht, hadv, turn]
      refine ⟨_, rfl, h.setReader i (h.before i) ?_⟩
      refine standing_of_first ((h.levels.level_sorted 0).seekTo _) (fun m => ?_)
        (h.before_mem i) rfl
      rw [(h.levels.level_sorted 0).mem_seekTo]
      exact and_congr_right
        fun _ => ⟨fun hle _ ht' => Option.some.inj ht' ▸ hle, fun hf => hf t rfl⟩
    | succ j =>
      simp only [SkipSys.loadStep, hr, ht, hadv, turn]
      refine ⟨_, rfl,
        h.setReader i (h.before i) ⟨⟨t, rfl, hat.down (by omega)⟩, by omega, hpath, ?_⟩⟩
      simp only
      omega

theorem linked_of_none (h : s.writer.linking = none) : s.linked = s.list.height := by
  rw [SkipSys.linked, h]

theorem linked_of_some (h : s.writer.linking = some (p, i)) :
    s.linked = Function.update s.list.height p i := by
  rw [SkipSys.linked, h]

theorem Sound.write (h : Sound rank s ns) (hr : s'.readers = s.readers)
    (hg : Grows s.list ns s.linked s'.list ns' s'.linked) (hl : Levels rank s'.list ns' s'.linked)
    (hall : ∀ m, m ≠ head → m < s'.list.nodes.length → m ∈ ns')
    (hold : ∀ m ∈ s.inserted, m ∈ s'.inserted)
    (hnew : ∀ m ∈ s'.inserted, m ∈ s.inserted ∨ m ∈ level ns' s'.linked 0)
    (hoth : ∀ m ∈ ns', m ∈ s'.inserted ∨ ∃ i, s'.writer.linking = some (m, i))
    (hw : WriterOk rank s'.list ns' s'.linked s'.writer) : Sound rank s' ns' where
  levels := hl
  all := hall
  inserted := fun m hm => (hnew m hm).elim (fun hm => hg.level (h.inserted m hm)) id
  others := hoth
  writer := hw
  before := fun i m hm => hold m (h.before i m (by rwa [← hr]))
  reader := fun i => by
    rw [hr]
    exact (h.reader i).grow (fun m hm => (mem_level.1 (h.before_mem i m hm)).1) hg

theorem Sound.setWriter (h : Sound rank s ns) {w : SkipWriter}
    (hlink : w.linking = s.writer.linking)
    (hw : WriterOk rank s.list ns s.linked w) : Sound rank { s with writer := w } ns := by
  have hl : SkipSys.linked { s with writer := w } = s.linked := by
    simp only [SkipSys.linked, hlink]
  refine h.write rfl ?_ ?_ h.all (fun _ hm => hm) (fun _ hm => .inl hm) ?_ ?_
  · rw [hl]
    exact ⟨fun _ _ => rfl, fun _ hm => hm, fun _ _ => le_rfl⟩
  · rw [hl]
    exact h.levels
  · simp only [hlink]
    exact h.others
  · rw [hl]
    exact hw

theorem Sound.insertStep (hcmp : RanksBy cmp rank) (h : Sound rank s ns)
    (hs : s.insertStep cmp k n = some s') : Sound rank s' ns := by
  rw [SkipSys.insertStep] at hs
  split at hs
  · rename_i hidle
    rw [Option.ite_none_right_eq_some] at hs
    obtain ⟨⟨hlow, hhigh, hlen, hne⟩, hs⟩ := hs
    cases hs
    have hmax := h.levels.low
    refine h.setWriter (by rw [hidle]; rfl) ⟨⟨hlow, hhigh, hlen, fun m hm he => ?_⟩,
      List.length_replicate, by omega, .inl rfl, fun i hi hi' => by omega⟩
    obtain ⟨hm0, hmlt, -⟩ := h.levels.node m hm
    obtain ⟨m, rfl⟩ := Nat.exists_eq_succ_of_ne_zero hm0
    have hkey : s.list.key (m + 1) = (s.list.nodes[m + 1]).key := by
      rw [SkipList.key, List.getElem?_eq_getElem hmlt]
      rfl
    refine hne (s.list.nodes[m + 1]) ?_ ?_
    · rw [List.mem_iff_getElem]
      exact ⟨m, by rw [List.length_tail]; omega, List.getElem_tail _⟩
    · rw [hcmp, ← hkey, he]
      exact compare_eq_iff_eq.2 rfl
  · cases hs

theorem getElem?_set_of_le {prev : List (Option Nat)} {f : Nat → Nat} (hj : j < prev.length)
    (h : ∀ i, j < i → i < n → prev[i]? = some (some (f i))) (hji : j ≤ i) (hi : i < n) :
    (prev.set j (some (f j)))[i]? = some (some (f i)) := by
  rcases hji.eq_or_lt with rfl | hlt
  · rw [List.getElem?_set_self hj]
  · rw [List.getElem?_set_ne hlt.ne]
    exact h i hlt hi

theorem Sound.writeStep_searching (hcmp : RanksBy cmp rank) (h : Sound rank s ns)
    (hw : s.writer = .searching k n prev x j) :
    ∃ s', s.writeStep cmp = some s' ∧ Sound rank s' ns := by
  have hok := h.writer
  rw [hw] at hok
  obtain ⟨hfresh, hlen, hj, hat, hprev⟩ := hok
  have hmax := h.levels.high
  rcases h.levels.advance hcmp (by omega) hat with ⟨m, hadv, hm, -, -⟩ | ⟨hadv, hx⟩
  · simp only [SkipSys.writeStep, hw, hadv]
    exact ⟨_, rfl, h.setWriter (by rw [hw]; rfl) ⟨hfresh, hlen, hj, hm, hprev⟩⟩
  · have hset : ∀ i, j ≤ i → i < s.list.maxHeight →
        (prev.set j (some x))[i]? = some (some (pred rank s.list ns s.linked k i)) := by
      intro i hji hi
      rw [hx]
      exact getElem?_set_of_le (by omega) hprev hji hi
    cases j with
    | zero =>
      simp only [SkipSys.writeStep, hw, hadv, turn]
      exact ⟨_, rfl, h.setWriter (by rw [hw]; rfl)
        ⟨hfresh, by rw [List.length_set, hlen], fun i hi => hset i (Nat.zero_le i) hi⟩⟩
    | succ j =>
      simp only [SkipSys.writeStep, hw, hadv, turn]
      exact ⟨_, rfl, h.setWriter (by rw [hw]; rfl) ⟨hfresh, by rw [List.length_set, hlen],
        by omega, hat.down (by omega), fun i hi hi' => hset i hi hi'⟩⟩

/-- The new node is linked on no level, and is the only one that is not inserted. -/
theorem Sound.allocate (h : Sound rank s ns) (hlink : s.writer.linking = none)
    (hfresh : Fresh rank s.list ns k n) (hle : s.list.maxHeight ≤ b) (hb : b ≤ kMaxHeight)
    (hn : n ≤ b) (hprev : ∀ i < n, prev[i]? = some (some (pred rank s.list ns s.linked k i))) :
    ∃ ns', Sound rank
      ({ s with list := { s.list with maxHeight := b } }.allocate k n prev) ns' := by
  set l : SkipList := { s.list with maxHeight := b } with hldef
  have hlk := linked_of_none hlink
  have hlev : Levels rank l ns s.list.height := by
    have := h.levels.raise hle hb
    rwa [hlk] at this
  obtain ⟨hpk, hph, -⟩ := addNode_self (s := l) hfresh.length n
  have hold : ∀ m ∈ ns, m < l.nodes.length := fun m hm => (hlev.node m hm).2.1
  have hnew : l.nodes.length ∉ ns := fun hm => (hold _ hm).false
  have hadd := hlev.addNode hfresh.length hfresh.rank_ne n
  set ns' := insertRun (fun m => rank ((l.addNode k n).key m)) l.nodes.length ns
  have hsys : SkipSys.linked ({ s with list := l }.allocate k n prev) =
      Function.update (l.addNode k n).height l.nodes.length 0 := linked_of_some rfl
  have hlk' : ∀ m ∈ ns', Function.update (l.addNode k n).height l.nodes.length 0 m =
      Function.update s.list.height l.nodes.length 0 m := by
    intro m hm
    rcases mem_insertRun.1 hm with rfl | hm
    · rw [Function.update_self, Function.update_self]
    · rw [Function.update_of_ne (hold m hm).ne, Function.update_of_ne (hold m hm).ne,
        (addNode_of_lt k n (hold m hm)).2.1]
      rfl
  refine ⟨ns', h.write rfl ?_ ?_ ?_ (fun _ hm => hm) (fun _ hm => .inl hm) ?_ ?_⟩
  · refine ⟨fun m hm => (addNode_of_lt k n (hold m hm)).1, fun m hm => mem_insertRun.2 (.inr hm),
      fun m hm => ?_⟩
    rw [hsys, hlk' m (mem_insertRun.2 (.inr hm)), Function.update_of_ne (hold m hm).ne, hlk]
  · rw [hsys]
    exact hadd.congr hlk'
  · intro m hm hlt
    have hlt : m < (l.nodes ++ [newNode k n]).length := hlt
    rw [List.length_append, List.length_singleton] at hlt
    rcases Nat.lt_succ_iff_lt_or_eq.1 hlt with hlt | rfl
    · exact mem_insertRun.2 (.inr (h.all m hm hlt))
    · exact mem_insertRun.2 (.inl rfl)
  · intro m hm
    rcases mem_insertRun.1 hm with rfl | hm
    · exact .inr ⟨0, rfl⟩
    · refine .inl ((h.others m hm).resolve_right fun ⟨i, hi⟩ => ?_)
      rw [hlink] at hi
      exact (nomatch hi)
  · rw [hsys]
    change Linking rank (l.addNode k n) ns' _ l.nodes.length n prev 0
    refine ⟨mem_insertRun.2 (.inl rfl), Function.update_self .., hfresh.low, hn, hph, ?_⟩
    intro j _ hj
    have hlevel : level ns' (Function.update (l.addNode k n).height l.nodes.length 0) j =
        level ns s.list.height j := by
      rw [level_congr fun m hm => by rw [hlk' m hm]]
      exact level_insertRun hnew _
    have hpred : pred rank (l.addNode k n) ns'
        (Function.update (l.addNode k n).height l.nodes.length 0) k j =
          pred rank s.list ns s.list.height k j :=
      pred_congr (fun m hm => (addNode_of_lt k n (hold m hm)).1) hlevel
    rw [hpk, hpred, ← hlk]
    exact hprev j hj

theorem Sound.writeStep_comparing (h : Sound rank s ns) (hw : s.writer = .comparing k n prev) :
    ∃ s', s.writeStep cmp = some s' ∧ ∃ ns', Sound rank s' ns' := by
  have hok := h.writer
  rw [hw] at hok
  obtain ⟨hfresh, hlen, hprev⟩ := hok
  have hhigh := hfresh.high
  simp only [SkipSys.writeStep, hw]
  split
  · rename_i hlt
    refine ⟨_, rfl, ns, h.setWriter (by rw [hw]; rfl) ⟨hfresh, hlt, fun i hi => ?_⟩⟩
    rw [getElem?_fillPrev _ _ _ _ (by omega)]
    split
    · rename_i hi'
      rw [h.levels.pred_above k hi'.1]
    · exact hprev i (by omega)
  · rename_i hle
    exact ⟨_, rfl, h.allocate (by rw [hw]; rfl) hfresh le_rfl h.levels.high (not_lt.1 hle)
      fun i hi => hprev i (hi.trans_le (not_lt.1 hle))⟩

theorem Sound.writeStep_raising (h : Sound rank s ns) (hw : s.writer = .raising k n prev) :
    ∃ s', s.writeStep cmp = some s' ∧ ∃ ns', Sound rank s' ns' := by
  have hok := h.writer
  rw [hw] at hok
  obtain ⟨hfresh, hlt, hprev⟩ := hok
  simp only [SkipSys.writeStep, hw]
  exact ⟨_, rfl, h.allocate (by rw [hw]; rfl) hfresh hlt.le hfresh.high le_rfl hprev⟩

theorem Sound.writeStep_loading (h : Sound rank s ns) (hw : s.writer = .loading p n prev i) :
    ∃ s', s.writeStep cmp = some s' ∧ Sound rank s' ns := by
  have hok := h.writer
  rw [hw] at hok
  have hlink : Linking rank s.list ns s.linked p n prev i := hok
  have hlt := hlink.lt
  have htall := hlink.tall
  have hmax := h.levels.high
  simp only [SkipSys.writeStep, hw, hlink.prev i le_rfl hlt, Option.join_some, Option.bind_eq_bind,
    Option.bind_some, h.levels.next_pred (s.list.key p) (j := i) (by omega)]
  exact ⟨_, rfl, h.setWriter (by rw [hw]; rfl) ⟨hlink, rfl⟩⟩

theorem Linking.congr (h : Linking rank l ns lk p n prev i) (hs : SameNodes l l') :
    Linking rank l' ns lk p n prev i where
  mem := h.mem
  linked := h.linked
  lt := h.lt
  tall := hs.maxHeight ▸ h.tall
  height_eq := hs.height ▸ h.height_eq
  prev := fun j hj hjn => by
    have hpred : pred rank l' ns lk (l.key p) j = pred rank l ns lk (l.key p) j :=
      pred_congr (fun m _ => by rw [hs.key]) rfl
    rw [hs.key, hpred]
    exact h.prev j hj hjn

theorem Linking.succ (h : Linking rank l ns lk p n prev i) (hs : SameNodes l l') (hi : i + 1 < n) :
    Linking rank l' ns (Function.update lk p (i + 1)) p n prev (i + 1) where
  mem := h.mem
  linked := Function.update_self ..
  lt := hi
  tall := hs.maxHeight ▸ h.tall
  height_eq := hs.height ▸ h.height_eq
  prev := fun j hj hjn => by
    have hpred : pred rank l' ns (Function.update lk p (i + 1)) (l.key p) j =
        pred rank l ns lk (l.key p) j :=
      pred_congr (fun m _ => by rw [hs.key]) (level_update_of_ne (by omega) h.linked)
    rw [hs.key, hpred]
    exact h.prev j (by omega) hjn

theorem Sound.writeStep_filling (h : Sound rank s ns) (hw : s.writer = .filling p n prev i v) :
    ∃ s', s.writeStep cmp = some s' ∧ Sound rank s' ns := by
  have hok := h.writer
  rw [hw] at hok
  obtain ⟨hlink, hv⟩ := hok
  obtain ⟨hp, hplt, -⟩ := h.levels.node p hlink.mem
  have hslot : i < s.list.slots p := by
    rw [h.levels.slots p hplt, hlink.height_eq]
    exact hlink.lt
  obtain ⟨l, hl, hsame, hnext⟩ := exists_setNext hslot v
  simp only [SkipSys.writeStep, hw, hl, Option.bind_eq_bind, Option.bind_some]
  have hlk : SkipSys.linked { s with list := l, writer := .publishing p n prev i } = s.linked := by
    rw [linked_of_some (s := { s with list := l, writer := .publishing p n prev i }) rfl,
      linked_of_some (s := s) (p := p) (i := i) (by rw [hw]; rfl), hsame.height]
  refine ⟨_, rfl, h.write rfl ?_ ?_ (hsame.length ▸ h.all) (fun _ hm => hm)
    (fun _ hm => .inl hm) ?_ ?_⟩
  · rw [hlk]
    exact ⟨fun m _ => by rw [hsame.key], fun _ hm => hm, fun _ _ => le_rfl⟩
  · rw [hlk]
    exact h.levels.fill hp hlink.linked.le hsame hnext
  · have := h.others
    rw [hw] at this
    exact this
  · rw [hlk]
    refine ⟨hlink.congr hsame, ?_⟩
    rw [hnext, if_pos ⟨rfl, rfl⟩, hv, SkipSys.succ, SkipSys.succ, hsame.key]

theorem Sound.writeStep_publishing (h : Sound rank s ns) (hw : s.writer = .publishing p n prev i) :
    ∃ s', s.writeStep cmp = some s' ∧ Sound rank s' ns := by
  have hok := h.writer
  rw [hw] at hok
  obtain ⟨hlink, hv⟩ := hok
  have hlt := hlink.lt
  have htall := hlink.tall
  have hmax := h.levels.high
  have hslot := h.levels.pred_slots (s.list.key p) (j := i) (by omega)
  obtain ⟨l, hl, hsame, hnext⟩ := exists_setNext hslot (some p)
  have hlev := h.levels.publish hlink.mem hlink.linked (hlink.height_eq ▸ hlt) (by omega)
    hv hsame hnext
  have hlk : Function.update s.linked p (i + 1) = Function.update l.height p (i + 1) := by
    rw [linked_of_some (s := s) (p := p) (i := i) (by rw [hw]; rfl), Function.update_idem,
      hsame.height]
  have hg : Grows s.list ns s.linked l ns (Function.update s.linked p (i + 1)) := by
    refine ⟨fun m _ => by rw [hsame.key], fun _ hm => hm, fun m _ => ?_⟩
    rcases eq_or_ne m p with rfl | hne
    · rw [Function.update_self, hlink.linked]
      exact Nat.le_succ i
    · rw [Function.update_of_ne hne]
  have hoth : ∀ m ∈ ns, m ∈ s.inserted ∨ m = p := by
    intro m hm
    refine (h.others m hm).imp id fun ⟨j, hj⟩ => ?_
    rw [hw] at hj
    cases hj
    rfl
  simp only [SkipSys.writeStep, hw, hlink.prev i le_rfl hlt, hl, Option.join_some,
    Option.bind_eq_bind, Option.bind_some]
  split
  · rename_i hi
    have hlk' : SkipSys.linked { s with list := l, writer := .loading p n prev (i + 1) } =
        Function.update s.linked p (i + 1) := (linked_of_some rfl).trans hlk.symm
    refine ⟨_, rfl, h.write rfl ?_ ?_ (hsame.length ▸ h.all) (fun _ hm => hm)
      (fun _ hm => .inl hm) ?_ ?_⟩
    · rw [hlk']
      exact hg
    · rw [hlk']
      exact hlev
    · intro m hm
      exact (hoth m hm).imp id fun hm => ⟨i + 1, by rw [hm]; rfl⟩
    · rw [hlk']
      exact hlink.succ hsame hi
  · rename_i hi
    -- the node is linked on all its levels
    have hfull : Function.update s.linked p (i + 1) = l.height := by
      have hp : l.height p = i + 1 := by
        rw [hsame.height, hlink.height_eq]
        omega
      rw [hlk, ← hp, Function.update_eq_self]
    have hlk' : (s.finish l p).linked = Function.update s.linked p (i + 1) :=
      (linked_of_none rfl).trans hfull.symm
    refine ⟨_, rfl, h.write rfl ?_ ?_ (hsame.length ▸ h.all)
      (fun _ hm => List.mem_cons_of_mem _ hm) ?_ ?_ trivial⟩
    · rw [hlk']
      exact ⟨hg.key, hg.mem, hg.linked⟩
    · rw [hlk']
      exact ⟨hlev.head_height, hlev.slots, hlev.node, hlev.sorted, hlev.chain, hlev.tall, hlev.low,
        hlev.high⟩
    · intro m hm
      rcases List.mem_cons.1 hm with rfl | hm
      · refine .inr (mem_level.2 ⟨hlink.mem, ?_⟩)
        rw [hlk', Function.update_self]
        exact Nat.succ_pos i
      · exact .inl hm
    · intro m hm
      exact .inl (List.mem_cons.2 (hoth m hm).symm)

theorem Sound.writeStep (hcmp : RanksBy cmp rank) (h : Sound rank s ns) (hw : s.writer ≠ .idle) :
    ∃ s', s.writeStep cmp = some s' ∧ ∃ ns', Sound rank s' ns' := by
  have keep : (∃ s', s.writeStep cmp = some s' ∧ Sound rank s' ns) →
      ∃ s', s.writeStep cmp = some s' ∧ ∃ ns', Sound rank s' ns' :=
    fun ⟨s', hs', h'⟩ => ⟨s', hs', ns, h'⟩
  cases hcase : s.writer with
  | idle => exact absurd hcase hw
  | searching => exact keep (h.writeStep_searching hcmp hcase)
  | comparing => exact h.writeStep_comparing hcase
  | raising => exact h.writeStep_raising hcase
  | loading => exact keep (h.writeStep_loading hcase)
  | filling => exact keep (h.writeStep_filling hcase)
  | publishing => exact keep (h.writeStep_publishing hcase)

theorem Sound.step (hcmp : RanksBy cmp rank) (h : Sound rank s ns) (a : SkipAct)
    (hs : s.step cmp a = some s') : ∃ ns', Sound rank s' ns' := by
  cases a with
  | seek i t =>
    rw [SkipSys.step] at hs
    split at hs
    · cases hs
    · cases hs
      exact ⟨ns, h.seekStep i t⟩
  | load i =>
    cases hph : (s.readers i).phase with
    | searching x j =>
      obtain ⟨s'', hs'', h''⟩ := h.loadStep hcmp hph
      cases hs.symm.trans hs''
      exact ⟨ns, h''⟩
    | idle => simp [SkipSys.step, SkipSys.loadStep, hph] at hs
    | standing v => simp [SkipSys.step, SkipSys.loadStep, hph] at hs
  | seekToFirst i =>
    rw [SkipSys.step] at hs
    split at hs
    · cases hs
    · obtain ⟨-, s'', -, hs'', h'', -⟩ := h.seekToFirstStep i
      cases hs.symm.trans hs''
      exact ⟨ns, h''⟩
  | next i =>
    cases hph : (s.readers i).phase with
    | standing v =>
      cases v with
      | none => simp [SkipSys.step, SkipSys.nextStep, hph] at hs
      | some n =>
        obtain ⟨-, s'', -, hs'', h'', -⟩ := h.nextStep hph
        cases hs.symm.trans hs''
        exact ⟨ns, h''⟩
    | idle => simp [SkipSys.step, SkipSys.nextStep, hph] at hs
    | searching x j => simp [SkipSys.step, SkipSys.nextStep, hph] at hs
  | insert k n => exact ⟨ns, h.insertStep hcmp hs⟩
  | write =>
    have hw : s.writer ≠ .idle := by
      rintro hw
      simp [SkipSys.step, SkipSys.writeStep, hw] at hs
    obtain ⟨s'', hs'', h''⟩ := h.writeStep hcmp hw
    cases hs.symm.trans hs''
    exact h''

theorem Sound.run (hcmp : RanksBy cmp rank) (h : Sound rank s ns) (acts : List SkipAct)
    (hs : s.run cmp acts = some s') : ∃ ns', Sound rank s' ns' := by
  induction acts generalizing s ns with
  | nil =>
    cases hs
    exact ⟨ns, h⟩
  | cons a acts ih =>
    rw [SkipSys.run, List.foldlM_cons, Option.bind_eq_bind, Option.bind_eq_some_iff] at hs
    obtain ⟨s₁, hs₁, hs⟩ := hs
    obtain ⟨ns₁, h₁⟩ := h.step hcmp a hs₁
    exact ih h₁ hs

end Invariant

/-- The node is in the list: inserted, or linked on level 0 by an `Insert` that goes on. -/
def Present (s : SkipSys) (m : Nat) : Prop :=
  m ∈ s.inserted ∨ ∃ i, s.writer.linking = some (m, i) ∧ 0 < i

/-- The node is not before the target. -/
def AtOrAfter (cmp : Bytes → Bytes → Ordering) (s : SkipSys) (target : Option Bytes) (m : Nat) :
    Prop := ∀ t, target = some t → cmp t (s.list.key m) ≠ .gt

/-- The pointer that the search loads next is one of a node that is linked on this level. -/
structure Descends (cmp : Bytes → Bytes → Ordering) (s : SkipSys) (i x level : Nat) : Prop where
  below : level < s.list.height x
  reached : x = head ∨ s.Present x ∧ level < s.linked x
  leads : ∃ next, s.list.next? x level = some next ∧
    ∀ n, next = some n → s.Present n ∧ level < s.linked n
  bounded : (s.readers i).loads < s.list.nodes.length + kMaxHeight
  goes_on : ∃ s', s.step cmp (.load i) = some s' ∧ match (s'.readers i).phase with
    | .idle => False
    | .searching y l => y = x ∧ l + 1 = level ∨ s.list.next? x level = some (some y) ∧ l = level
    | .standing v => level = 0 ∧ (s'.readers i).shown = v.toList
  ends : ∃ n v s', n ≤ s.list.nodes.length + kMaxHeight ∧
    s.run cmp (List.replicate n (.load i)) = some s' ∧ (s'.readers i).phase = .standing v

/-- `shown` has no two equal keys, and leaves out nothing that was inserted before; `Next` goes on
to what the pointer of level 0 leads to, until the walk ends. -/
structure Iterates (cmp : Bytes → Bytes → Ordering) (s : SkipSys) (i : Nat) (v : Option Nat) :
    Prop where
  last : ∀ n, v = some n → (s.readers i).shown.head? = some n
  increasing : (s.readers i).shown.Pairwise fun a b => cmp (s.list.key b) (s.list.key a) = .lt
  present : ∀ m ∈ (s.readers i).shown, s.Present m ∧ AtOrAfter cmp s (s.readers i).target m
  covers : ∀ m ∈ (s.readers i).before, AtOrAfter cmp s (s.readers i).target m →
    m ∈ (s.readers i).shown ∨ ∃ n, v = some n ∧ cmp (s.list.key n) (s.list.key m) = .lt
  goes_on : ∀ n, v = some n → ∃ next s', s.list.next? n 0 = some next ∧
    s.step cmp (.next i) = some s' ∧ (s'.readers i).phase = .standing next ∧
    (s'.readers i).shown = next.toList ++ (s.readers i).shown ∧
    (s'.readers i).target = (s.readers i).target ∧ (s'.readers i).before = (s.readers i).before
  ends : ∃ n s', n ≤ s.list.nodes.length ∧ s.run cmp (List.replicate n (.next i)) = some s' ∧
    (s'.readers i).phase = .standing none

/-- A reader that is not in a search can begin one, or a walk from the first node. -/
structure Begins (cmp : Bytes → Bytes → Ordering) (s : SkipSys) (i : Nat) : Prop where
  seek : ∀ t, ∃ s', s.step cmp (.seek i t) = some s' ∧
    (s'.readers i).phase = .searching head (s.list.maxHeight - 1) ∧
    (s'.readers i).target = some t ∧ (s'.readers i).before = s.inserted
  seekToFirst : ∃ first s', s.list.next? head 0 = some first ∧
    s.step cmp (.seekToFirst i) = some s' ∧ (s'.readers i).phase = .standing first ∧
    (s'.readers i).target = none ∧ (s'.readers i).before = s.inserted ∧
    (s'.readers i).shown = first.toList

/-- No `Insert` is stuck, and a node is inserted once its `Insert` has returned. -/
structure Inserts (cmp : Bytes → Bytes → Ordering) (s : SkipSys) : Prop where
  goes_on : s.writer ≠ .idle → ∃ s', s.step cmp .write = some s'
  inserted : ∀ m, m ≠ head → m < s.list.nodes.length →
    m ∈ s.inserted ∨ ∃ i, s.writer.linking = some (m, i)

section Results
variable {β : Type} [LinearOrder β] {rank : Bytes → β} {cmp : Bytes → Bytes → Ordering}
  {s : SkipSys} {ns : List Nat}

theorem Sound.present (h : Sound rank s ns) (hm : m ∈ level ns s.linked j) : s.Present m := by
  obtain ⟨hm, hj⟩ := mem_level.1 hm
  refine (h.others m hm).imp id fun ⟨i, hi⟩ => ⟨i, hi, ?_⟩
  rw [linked_of_some hi, Function.update_self] at hj
  omega

theorem from_iff (hcmp : RanksBy cmp rank) (r : SkipReader) (m : Nat) :
    From rank s.list r m ↔ AtOrAfter cmp s r.target m := by
  refine forall_congr' fun t => imp_congr_right fun _ => ?_
  rw [hcmp, ne_eq, compare_gt_iff_gt, not_lt]

theorem next?_of_right {l : SkipList} (h : l.advance cmp t x j = some (.right n)) :
    l.next? x j = some (some n) := by
  rw [SkipList.advance, Option.bind_eq_bind, Option.bind_eq_some_iff] at h
  obtain ⟨v, hv, h⟩ := h
  cases v with
  | none =>
    cases j <;> cases h
  | some m =>
    simp only [Option.bind_eq_bind, Option.bind_eq_some_iff] at h
    obtain ⟨node, -, h⟩ := h
    split at h
    · cases h
      exact hv
    · cases j <;> cases h

theorem Sound.bounded (h : Sound rank s ns) (hr : (s.readers i).phase = .searching x j) :
    (s.readers i).loads < s.list.nodes.length + kMaxHeight := by
  have hst := h.reader i
  rw [ReaderOk, hr] at hst
  have hlen := hst.path.length_le.trans h.levels.length_le
  have hloads := hst.loads
  omega

theorem Sound.load (hcmp : RanksBy cmp rank) (h : Sound rank s ns)
    (hr : (s.readers i).phase = .searching x j) : ∃ s', s.step cmp (.load i) = some s' ∧
      s'.list = s.list ∧ (s'.readers i).loads = (s.readers i).loads + 1 ∧
      match (s'.readers i).phase with
      | .idle => False
      | .searching y l => y = x ∧ l + 1 = j ∨ s.list.next? x j = some (some y) ∧ l = j
      | .standing v => j = 0 ∧ (s'.readers i).shown = v.toList := by
  have hst := h.reader i
  rw [ReaderOk, hr] at hst
  obtain ⟨⟨t, ht, hat⟩, hlt, -⟩ := hst
  simp only [SkipSys.step, SkipSys.loadStep, hr, ht]
  rcases h.levels.advance hcmp hlt hat with ⟨n, hadv, -⟩ | ⟨hadv, -⟩
  · rw [hadv]
    refine ⟨_, rfl, rfl, ?_⟩
    simp only [SkipSys.setReader, Function.update_self]
    exact ⟨trivial, .inr ⟨next?_of_right hadv, trivial⟩⟩
  · rw [hadv]
    cases j with
    | zero =>
      refine ⟨_, rfl, rfl, ?_⟩
      simp only [SkipSys.setReader, Function.update_self]
      exact ⟨trivial, trivial, trivial⟩
    | succ j =>
      refine ⟨_, rfl, rfl, ?_⟩
      simp only [SkipSys.setReader, Function.update_self]
      exact ⟨trivial, .inl ⟨trivial, trivial⟩⟩

/-- Left alone, a search ends. -/
theorem Sound.ends (hcmp : RanksBy cmp rank) (h : Sound rank s ns)
    (hr : (s.readers i).phase = .searching x j)
    (hfuel : s.list.nodes.length + kMaxHeight ≤ (s.readers i).loads + fuel) :
    ∃ n v s', n ≤ fuel ∧ s.run cmp (List.replicate n (.load i)) = some s' ∧
      (s'.readers i).phase = .standing v := by
  induction fuel generalizing s ns x j with
  | zero => exact absurd (h.bounded hr) (by omega)
  | succ fuel ih =>
    obtain ⟨s₁, hs₁, hlist, hloads, hphase⟩ := h.load hcmp hr
    obtain ⟨ns₁, h₁⟩ := h.step hcmp _ hs₁
    split at hphase
    · exact hphase.elim
    · rename_i hr₁
      obtain ⟨n, v, s', hn, hrun, hv⟩ := ih h₁ hr₁ (by rw [hlist, hloads]; omega)
      refine ⟨n + 1, v, s', by omega, ?_, hv⟩
      rw [SkipSys.run, List.replicate_succ, List.foldlM_cons, hs₁]
      exact hrun
    · rename_i v hv
      refine ⟨1, v, s₁, by omega, ?_, hv⟩
      rw [SkipSys.run, List.replicate_one, List.foldlM_cons, hs₁]
      rfl

theorem Sound.descends (hcmp : RanksBy cmp rank) (h : Sound rank s ns)
    (hr : (s.readers i).phase = .searching x j) : Descends cmp s i x j := by
  have hst := h.reader i
  rw [ReaderOk, hr] at hst
  obtain ⟨⟨t, -, hat⟩, hlt, -⟩ := hst
  obtain ⟨a, b, hab, -, -, hnext⟩ := h.levels.split hlt hat
  obtain ⟨s', hs', -, -, hphase⟩ := h.load hcmp hr
  refine ⟨?_, ?_, ⟨b.head?, hnext, fun n hn => ?_⟩, h.bounded hr, ⟨s', hs', hphase⟩,
    h.ends hcmp hr (Nat.le_add_left _ _)⟩
  · rcases hat with rfl | ⟨hm, hj, -⟩
    · rw [h.levels.head_height]
      exact hlt
    · exact hj.trans_le (h.levels.node x hm).2.2
  · exact hat.imp id fun ⟨hm, hj, _⟩ => ⟨h.present (mem_level.2 ⟨hm, hj⟩), hj⟩
  · have hn : n ∈ level ns s.linked j := by
      rw [hab]
      exact List.mem_append_right a (List.mem_of_mem_head? hn)
    exact ⟨h.present hn, (mem_level.1 hn).2⟩

theorem Sound.begins (h : Sound rank s ns) (cmp : Bytes → Bytes → Ordering)
    (hr : ∀ x j, (s.readers i).phase ≠ .searching x j) : Begins cmp s i := by
  obtain ⟨first, s', hfirst, hs', -, hr'⟩ := h.seekToFirstStep i
  refine ⟨fun t => ⟨s.seekStep i t, ?_, ?_⟩, first, s', hfirst, ?_, ?_⟩
  · rw [SkipSys.step]
    split
    · exact absurd ‹_› (hr _ _)
    · rfl
  · simp only [SkipSys.seekStep, SkipSys.setReader, Function.update_self, and_self]
  · rw [SkipSys.step]
    split
    · exact absurd ‹_› (hr _ _)
    · exact hs'
  · simp only [hr', and_self]

theorem Sound.length_shown (h : Sound rank s ns) (hr : (s.readers i).phase = .standing v) :
    (s.readers i).shown.length ≤ ns.length := by
  have hst := h.reader i
  rw [ReaderOk, hr] at hst
  have hnd : (s.readers i).shown.Nodup := hst.sorted.imp fun {a b} hab he => by
    rw [he] at hab
    exact hab.false
  exact (List.subperm_of_subset hnd fun m hm => (mem_level.1 (hst.mem m hm).1).1).length_le

/-- Left alone, a walk ends. -/
theorem Sound.walk_ends (h : Sound rank s ns) (cmp : Bytes → Bytes → Ordering)
    (hr : (s.readers i).phase = .standing (some n))
    (hfuel : ns.length < (s.readers i).shown.length + fuel) :
    ∃ k s', k ≤ fuel ∧ s.run cmp (List.replicate k (.next i)) = some s' ∧
      (s'.readers i).phase = .standing none := by
  induction fuel generalizing s n with
  | zero => exact absurd (h.length_shown hr) (by omega)
  | succ fuel ih =>
    obtain ⟨v, s₁, -, hs₁, h₁, hr₁⟩ := h.nextStep hr
    cases v with
    | none =>
      refine ⟨1, s₁, by omega, ?_, by rw [hr₁]⟩
      rw [SkipSys.run, List.replicate_one, List.foldlM_cons, SkipSys.step, hs₁]
      rfl
    | some m =>
      have hlen : (s₁.readers i).shown.length = (s.readers i).shown.length + 1 := by
        rw [hr₁]
        rfl
      obtain ⟨k, s', hk, hrun, hs'⟩ := ih h₁ (by rw [hr₁]) (by omega)
      refine ⟨k + 1, s', by omega, ?_, hs'⟩
      rw [SkipSys.run, List.replicate_succ, List.foldlM_cons, SkipSys.step, hs₁]
      exact hrun

theorem Sound.iterates (hcmp : RanksBy cmp rank) (h : Sound rank s ns)
    (hr : (s.readers i).phase = .standing v) : Iterates cmp s i v := by
  have hst := h.reader i
  rw [ReaderOk, hr] at hst
  have hlt : ∀ a b, cmp (s.list.key a) (s.list.key b) = .lt ↔
      rank (s.list.key a) < rank (s.list.key b) := fun a b => by rw [hcmp, compare_lt_iff_lt]
  refine ⟨fun n hn => ?_, hst.sorted.imp fun hab => (hlt _ _).2 hab, fun m hm => ?_,
    fun m hm hf => ?_, fun n hn => ?_, ?_⟩
  · obtain ⟨rest, hrest⟩ := hst.last n hn
    rw [hrest, List.head?_cons]
  · exact ⟨h.present (hst.mem m hm).1, (from_iff hcmp _ m).1 (hst.mem m hm).2⟩
  · exact (hst.covered m hm ((from_iff hcmp _ m).2 hf)).imp id
      fun ⟨n, hn, hnm⟩ => ⟨n, hn, (hlt n m).2 hnm⟩
  · obtain ⟨next, s', hnext, hs', -, hr'⟩ := h.nextStep (hn ▸ hr)
    exact ⟨next, s', hnext, hs', by simp only [hr', and_self]⟩
  · cases v with
    | none => exact ⟨0, s, Nat.zero_le _, rfl, hr⟩
    | some n =>
      obtain ⟨rest, hrest⟩ := hst.last n rfl
      refine h.walk_ends cmp hr ?_
      have := h.levels.length_le
      rw [hrest, List.length_cons]
      omega

theorem Sound.inserts (hcmp : RanksBy cmp rank) (h : Sound rank s ns) : Inserts cmp s where
  goes_on := fun hw => (h.writeStep hcmp hw).imp fun _ => And.left
  inserted := fun m hm hlt => h.others m (h.all m hm hlt)

end Results

/-- Whatever the interleaving, a search descends over linked nodes until it ends on level 0, and an
iterator walks over what was inserted before it began. -/
theorem reads_consistent (cmp : Bytes → Bytes → Ordering) [Std.TransCmp cmp] (acts : List SkipAct)
    (s : SkipSys) (hrun : SkipSys.run cmp {} acts = some s) (i : Nat) :
    Inserts cmp s ∧ match (s.readers i).phase with
      | .idle => Begins cmp s i
      | .searching x level => Descends cmp s i x level
      | .standing v => Begins cmp s i ∧ Iterates cmp s i v := by
  obtain ⟨β, _, rank, hcmp⟩ := exists_ranksBy cmp
  obtain ⟨ns, h⟩ := (sound_new rank).run hcmp acts hrun
  refine ⟨h.inserts hcmp, ?_⟩
  split
  · rename_i hr
    exact h.begins cmp (by simp [hr])
  · rename_i hr
    exact h.descends hcmp hr
  · rename_i hr
    exact ⟨h.begins cmp (by simp [hr]), h.iterates hcmp hr⟩

/-- A search for the first entry begins while it is being linked before another, and finds it; from
there the iterator walks on to the other. -/
theorem reads_consistent_overtaken :
    let a : Bytes := putLengthPrefixed (encodeInternalKey [97] 2 .kValue)
    let b : Bytes := putLengthPrefixed (encodeInternalKey [98] 1 .kValue)
    let acts : List SkipAct := .insert b 1 :: List.replicate 5 .write ++
      .insert a 2 :: List.replicate 6 .write ++ .seek 0 a :: List.replicate 2 (.load 0) ++ [.next 0]
    ∃ s, SkipSys.run MemTable.compareEntry {} acts = some s ∧
      (s.readers 0).shown = [1, 2] ∧ s.inserted = [1] ∧
      Iterates MemTable.compareEntry s 0 (some 1) := by
  intro a b acts
  have hrun : (SkipSys.run MemTable.compareEntry {} acts).map
      (fun s => ((s.readers 0).phase, (s.readers 0).shown, s.inserted)) =
        some (.standing (some 1), [1, 2], [1]) := by
    decide +kernel
  obtain ⟨s, hs, hp⟩ := Option.map_eq_some_iff.1 hrun
  obtain ⟨hphase, hshown, hins⟩ : (s.readers 0).phase = .standing (some 1) ∧
      (s.readers 0).shown = [1, 2] ∧ s.inserted = [1] := by simpa using hp
  have h := (reads_consistent MemTable.compareEntry acts s hs 0).2
  rw [hphase] at h
  exact ⟨s, hs, hshown, hins, h.2⟩

end SkipSys

end LsmKv
