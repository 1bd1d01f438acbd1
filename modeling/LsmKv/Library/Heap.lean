import Mathlib

namespace LsmKv
set_option autoImplicit true

/-- Moves `slot` down from the hole at `pos`: each smaller child moves up into the hole. -/
def siftLoop (gt : α → α → Bool) (slot : α) : Nat → Nat → List α → List α
  | 0, pos, heap => heap.set pos slot
  | fuel + 1, pos, heap =>
    let left := 2 * pos + 1
    if heap.length ≤ left then heap.set pos slot
    else
      let right := left + 1
      let smallest := if right < heap.length ∧ gt (heap.getD left slot) (heap.getD right slot)
        then right else left
      if !gt slot (heap.getD smallest slot) then heap.set pos slot
      else siftLoop gt slot fuel smallest (heap.set pos (heap.getD smallest slot))

def siftDown (gt : α → α → Bool) (heap : List α) (pos : Nat) : List α :=
  match heap[pos]? with
  | none => heap
  | some slot => siftLoop gt slot heap.length pos heap

/-- Floyd's construction: sift every inner node, the last one first. -/
def buildHeap (gt : α → α → Bool) (heap : List α) : List α :=
  (List.range (heap.length / 2)).reverse.foldl (siftDown gt) heap

section Order
variable {α β : Type} [LinearOrder β] (f : α → β)

def Child (i j : Nat) : Prop := j = 2 * i + 1 ∨ j = 2 * i + 2

/-- The order holds along every edge below a node from `lo` on. -/
def HeapFrom (lo : Nat) (a : List α) : Prop :=
  ∀ i j x y, Child i j → lo ≤ i → a[i]? = some x → a[j]? = some y → f x ≤ f y

/-- The order may fail only along the edges below `pos`, and holds across it. -/
structure HeapBut (lo pos : Nat) (a : List α) : Prop where
  edge : ∀ i j x y, Child i j → lo ≤ i → i ≠ pos → a[i]? = some x → a[j]? = some y → f x ≤ f y
  across : ∀ i j x y, Child i pos → Child pos j → lo ≤ i → a[i]? = some x → a[j]? = some y →
    f x ≤ f y

variable {f} {gt : α → α → Bool}

/-- Swapping the node at `pos` with its smallest child moves the failure down to that child. -/
theorem HeapBut.swap (h : HeapBut f lo pos a) (hp : a[pos]? = some x) (hc : Child pos s)
    (hs : a[s]? = some y) (hxy : f y ≤ f x)
    (hmin : ∀ j z, Child pos j → a[j]? = some z → f y ≤ f z) :
    HeapBut f lo s ((a.set pos y).set s x) := by
  have hps : pos ≠ s := by rcases hc with rfl | rfl <;> omega
  have hpl : pos < a.length := (List.getElem?_eq_some_iff.1 hp).1
  have hsl : s < a.length := (List.getElem?_eq_some_iff.1 hs).1
  have hget : ∀ i, ((a.set pos y).set s x)[i]? =
      if i = s then some x else if i = pos then some y else a[i]? := by
    intro i
    rw [List.getElem?_set, List.getElem?_set, List.length_set]
    by_cases h1 : i = s
    · simp [h1, hsl]
    · by_cases h2 : i = pos
      · simp [h2, hpl, hps, hps.symm]
      · simp [h1, h2, Ne.symm h1, Ne.symm h2]
  constructor
  · intro i j u v hij hlo his hu hv
    rw [hget] at hu hv
    rw [if_neg his] at hu
    by_cases hip : i = pos
    · subst hip
      rw [if_pos rfl, Option.some.injEq] at hu
      subst hu
      by_cases hjs : j = s
      · rw [if_pos hjs, Option.some.injEq] at hv
        exact hv ▸ hxy
      · have hjp : j ≠ i := by rcases hij with rfl | rfl <;> omega
        rw [if_neg hjs, if_neg hjp] at hv
        exact hmin j v hij hv
    · rw [if_neg hip] at hu
      have hjs : j ≠ s := by
        rintro rfl
        rcases hij with h1 | h1 <;> rcases hc with h2 | h2 <;> omega
      rw [if_neg hjs] at hv
      by_cases hjp : j = pos
      · subst hjp
        rw [if_pos rfl, Option.some.injEq] at hv
        exact hv ▸ h.across i s u y hij hc hlo hu hs
      · rw [if_neg hjp] at hv
        exact h.edge i j u v hij hlo hip hu hv
  · intro i j u v his hsj hlo hu hv
    have hip : i = pos := by
      rcases his with h1 | h1 <;> rcases hc with h2 | h2 <;> omega
    have hjs : j ≠ s := by rcases hsj with rfl | rfl <;> omega
    have hjp : j ≠ pos := by
      rcases hsj with rfl | rfl <;> rcases hc with h2 | h2 <;> omega
    subst hip
    rw [hget, if_neg hps, if_pos rfl, Option.some.injEq] at hu
    rw [hget, if_neg hjs, if_neg hjp] at hv
    exact hu ▸ h.edge s j y v hsj (by rcases hc with rfl | rfl <;> omega) hps.symm hs hv

theorem siftLoop_spec (hgt : ∀ a b, gt a b = decide (f b < f a)) (hpos : pos < heap.length)
    (hfuel : heap.length ≤ pos + fuel) (h : HeapBut f lo pos (heap.set pos slot)) :
    HeapFrom f lo (siftLoop gt slot fuel pos heap) ∧
      (siftLoop gt slot fuel pos heap).Perm (heap.set pos slot) := by
  induction fuel generalizing pos heap with
  | zero => omega
  | succ fuel ih =>
    have hslot : (heap.set pos slot)[pos]? = some slot := by simp [hpos]
    have hother : ∀ j, j ≠ pos → (heap.set pos slot)[j]? = heap[j]? :=
      fun j hj => by simp [hj.symm]
    -- the order holds at `pos` too once `slot` is not above its children
    have hdone : (∀ j z, Child pos j → heap[j]? = some z → f slot ≤ f z) →
        HeapFrom f lo (heap.set pos slot) := by
      intro hle i j x y hij hlo hx hy
      by_cases hip : i = pos
      · subst hip
        have hji : j ≠ i := by rcases hij with rfl | rfl <;> omega
        rw [hslot, Option.some.injEq] at hx
        rw [hother j hji] at hy
        exact hx ▸ hle j y hij hy
      · exact h.edge i j x y hij hlo hip hx hy
    rw [siftLoop]
    by_cases hleaf : heap.length ≤ 2 * pos + 1
    · simp only [hleaf, if_true]
      refine ⟨hdone fun j z hj hz => ?_, .refl _⟩
      have := (List.getElem?_eq_some_iff.1 hz).1
      rcases hj with rfl | rfl <;> omega
    · simp only [hleaf, if_false]
      generalize hsm : (if 2 * pos + 1 + 1 < heap.length ∧
        gt (heap.getD (2 * pos + 1) slot) (heap.getD (2 * pos + 1 + 1) slot) = true
        then 2 * pos + 1 + 1 else 2 * pos + 1) = s
      have hleft : 2 * pos + 1 < heap.length := by omega
      -- `s` is a child, and the smaller one where there are two
      obtain ⟨hc, hsl, hmin⟩ : Child pos s ∧ s < heap.length ∧
          ∀ j z, Child pos j → heap[j]? = some z → f (heap.getD s slot) ≤ f z := by
        have hval : ∀ j z, heap[j]? = some z → heap.getD j slot = z := by
          intro j z hz
          rw [List.getD_eq_getElem?_getD, hz, Option.getD_some]
        split at hsm
        · rename_i hr
          subst hsm
          refine ⟨.inr rfl, hr.1, fun j z hj hz => ?_⟩
          have hlt := hr.2
          rw [hgt, decide_eq_true_iff] at hlt
          rcases hj with rfl | rfl
          · exact (hval _ z hz) ▸ hlt.le
          · exact (hval _ z hz) ▸ le_refl _
        · rename_i hr
          subst hsm
          refine ⟨.inl rfl, hleft, fun j z hj hz => ?_⟩
          rcases hj with rfl | rfl
          · exact (hval _ z hz) ▸ le_refl _
          · have hrl := (List.getElem?_eq_some_iff.1 hz).1
            have hle :
                ¬ gt (heap.getD (2 * pos + 1) slot) (heap.getD (2 * pos + 1 + 1) slot) = true :=
              fun hc => hr ⟨hrl, hc⟩
            rw [hgt, decide_eq_true_iff, not_lt] at hle
            exact (hval _ z hz) ▸ hle
      have hps : s ≠ pos := by rcases hc with rfl | rfl <;> omega
      have hsv : heap[s]? = some (heap.getD s slot) := by
        rw [List.getD_eq_getElem _ _ hsl, List.getElem?_eq_getElem hsl]
      by_cases hstop : gt slot (heap.getD s slot) = true
      · simp only [hstop, Bool.not_true, Bool.false_eq_true, if_false]
        have hlt : f (heap.getD s slot) < f slot := by rwa [hgt, decide_eq_true_iff] at hstop
        have hswap := h.swap hslot hc (by rw [hother s hps]; exact hsv) hlt.le
          (fun j z hj hz => by
            have hjp : j ≠ pos := by rcases hj with rfl | rfl <;> omega
            rw [hother j hjp] at hz
            exact hmin j z hj hz)
        rw [List.set_set] at hswap
        have hsl' : s < (heap.set pos (heap.getD s slot)).length := by simpa using hsl
        have hrec := ih hsl' (by rw [List.length_set]; rcases hc with rfl | rfl <;> omega) hswap
        refine ⟨hrec.1, hrec.2.trans ?_⟩
        have hl1 : pos < (heap.set pos slot).length := by simpa using hpos
        have hl2 : s < (heap.set pos slot).length := by simpa using hsl
        have hperm := List.set_set_perm hl1 hl2
        have h1 : (heap.set pos slot)[pos] = slot := by simp
        have h2 : (heap.set pos slot)[s] = heap.getD s slot := by
          rw [List.getElem_set_ne hps.symm, List.getD_eq_getElem _ _ hsl]
        rw [h1, h2, List.set_set] at hperm
        exact hperm
      · have hle : f slot ≤ f (heap.getD s slot) := by
          rw [hgt, decide_eq_true_iff, not_lt] at hstop
          exact hstop
        simp only [Bool.not_eq_true] at hstop
        simp only [hstop, Bool.not_false, if_true]
        exact ⟨hdone fun j z hj hz => hle.trans (hmin j z hj hz), .refl _⟩

theorem siftDown_spec (hgt : ∀ a b, gt a b = decide (f b < f a)) (h : HeapFrom f (pos + 1) heap) :
    HeapFrom f pos (siftDown gt heap pos) ∧ (siftDown gt heap pos).Perm heap := by
  rw [siftDown]
  cases hp : heap[pos]? with
  | none =>
    refine ⟨fun i j x y hij hlo hx hy => ?_, .refl _⟩
    have h1 := List.getElem?_eq_none_iff.1 hp
    have h2 : i < heap.length := (List.getElem?_eq_some_iff.1 hx).1
    omega
  | some slot =>
    have hpl : pos < heap.length := (List.getElem?_eq_some_iff.1 hp).1
    have hself : heap.set pos slot = heap := by
      rw [← (List.getElem?_eq_some_iff.1 hp).2]
      exact List.set_getElem_self hpl
    have hbut : HeapBut f pos pos (heap.set pos slot) := by
      rw [hself]
      refine ⟨fun i j x y hij hlo hne hx hy => h i j x y hij (by omega) hx hy, ?_⟩
      intro i j x y hi _ hlo
      rcases hi with h1 | h1 <;> omega
    have hs := siftLoop_spec hgt hpl (Nat.le_add_left heap.length pos) hbut
    rwa [hself] at hs

theorem buildHeap_spec (hgt : ∀ a b, gt a b = decide (f b < f a)) (heap : List α) :
    HeapFrom f 0 (buildHeap gt heap) ∧ (buildHeap gt heap).Perm heap := by
  -- after the nodes from `n` on are sifted, the order holds below them
  have hloop : ∀ n (a : List α), HeapFrom f n a →
      HeapFrom f 0 ((List.range n).reverse.foldl (siftDown gt) a) ∧
        ((List.range n).reverse.foldl (siftDown gt) a).Perm a := by
    intro n
    induction n with
    | zero => exact fun a h => ⟨h, .refl _⟩
    | succ n ih =>
      intro a h
      obtain ⟨hheap, hperm⟩ := siftDown_spec hgt h
      rw [List.range_succ, List.reverse_append, List.reverse_singleton, List.singleton_append,
        List.foldl_cons]
      exact ⟨(ih _ hheap).1, (ih _ hheap).2.trans hperm⟩
  refine hloop _ _ fun i j x y hij hlo hx hy => ?_
  have h1 := (List.getElem?_eq_some_iff.1 hy).1
  rcases hij with rfl | rfl <;> omega

theorem HeapFrom.root_le (h : HeapFrom f 0 a) (hx : a[0]? = some x) (hy : y ∈ a) : f x ≤ f y := by
  obtain ⟨j, hj, rfl⟩ := List.mem_iff_getElem.1 hy
  induction j using Nat.strongRecOn with
  | ind j ih =>
    by_cases hz : j = 0
    · subst hz
      rw [List.getElem?_eq_getElem hj, Option.some.injEq] at hx
      rw [hx]
    · have hparent : Child ((j - 1) / 2) j := by
        rcases Nat.even_or_odd j with he | ho
        · obtain ⟨m, rfl⟩ := he
          exact .inr (by omega)
        · obtain ⟨m, rfl⟩ := ho
          exact .inl (by omega)
      have hpl : (j - 1) / 2 < a.length := by omega
      exact (ih _ (by omega) hpl (List.getElem_mem hpl)).trans
        (h _ j _ _ hparent (Nat.zero_le _) (List.getElem?_eq_getElem hpl)
          (List.getElem?_eq_getElem hj))

end Order

end LsmKv
