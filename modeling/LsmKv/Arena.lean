import Mathlib

namespace LsmKv
set_option autoImplicit true

/-- The addresses `[base, base + size)`. -/
structure Range where
  base : Nat
  size : Nat
deriving DecidableEq, Repr

namespace Range

def Disjoint (r s : Range) : Prop := r.base + r.size ≤ s.base ∨ s.base + s.size ≤ r.base

def Inside (r s : Range) : Prop := s.base ≤ r.base ∧ r.base + r.size ≤ s.base + s.size

theorem Disjoint.symm {r s : Range} (h : r.Disjoint s) : s.Disjoint r := Or.symm h

theorem Inside.disjoint {r r' s s' : Range} (h : s.Disjoint s') (hr : r.Inside s)
    (hr' : r'.Inside s') :
    r.Disjoint r' := by
  simp only [Disjoint, Inside] at *
  omega

theorem Inside.refl (r : Range) : r.Inside r := ⟨le_refl _, le_refl _⟩

theorem Inside.trans {r s t : Range} (h : r.Inside s) (h' : s.Inside t) : r.Inside t :=
  ⟨h'.1.trans h.1, h.2.trans h'.2⟩

end Range

/-- The members of `Arena`, and `current`, the block that `alloc_ptr_` points into: of it the source
keeps only the pointer. -/
structure Arena where
  allocPtr : Nat := 0
  allocBytesRemaining : Nat := 0
  blocks : List Range := []
  memoryUsage : Nat := 0
  current : Option Range := none
deriving DecidableEq, Repr

namespace Arena

def kBlockSize : Nat := 4096
/-- `alignof(std::max_align_t)` -/
def kAlign : Nat := 16

/-- `base` is what `new char[block_bytes]` returns. -/
def allocateNewBlock (a : Arena) (blockBytes base : Nat) : Arena :=
  { a with
    blocks := a.blocks ++ [⟨base, blockBytes⟩]
    memoryUsage := (a.memoryUsage + (blockBytes + 8)) % 2 ^ 64 }

def allocateFallback (a : Arena) (bytes base : Nat) : Arena × Nat :=
  if kBlockSize / 4 < bytes then (a.allocateNewBlock bytes base, base)
  else
    ({ a.allocateNewBlock kBlockSize base with
        allocPtr := base + bytes
        allocBytesRemaining := kBlockSize - bytes
        current := some ⟨base, kBlockSize⟩ }, base)

def bump (a : Arena) (bytes : Nat) : Arena :=
  { a with
    allocPtr := a.allocPtr + bytes
    allocBytesRemaining := a.allocBytesRemaining - bytes }

def allocate (a : Arena) (bytes base : Nat) : Arena × Nat :=
  if bytes ≤ a.allocBytesRemaining then (a.bump bytes, a.allocPtr)
  else a.allocateFallback bytes base

/-- The distance to the next multiple of the alignment. -/
def slop (a : Arena) : Nat :=
  if a.allocPtr &&& (kAlign - 1) = 0 then 0 else kAlign - (a.allocPtr &&& (kAlign - 1))

def allocateAligned (a : Arena) (bytes base : Nat) : Arena × Nat :=
  if (bytes + a.slop) % 2 ^ 64 ≤ a.allocBytesRemaining then
    (a.bump ((bytes + a.slop) % 2 ^ 64), a.allocPtr + a.slop)
  else a.allocateFallback bytes base

/-- A call of `Allocate` or of `AllocateAligned`. -/
structure Call where
  aligned : Bool
  bytes : Nat
deriving DecidableEq, Repr

def call (a : Arena) (c : Call) (base : Nat) : Arena × Nat :=
  if c.aligned then a.allocateAligned c.bytes base else a.allocate c.bytes base

/-- What `new char[]` promises of a block: an aligned range that no other block meets. -/
structure Fresh (a : Arena) (b : Range) : Prop where
  aligned : kAlign ∣ b.base
  disjoint : ∀ b' ∈ a.blocks, b.Disjoint b'

/-- The arenas a sequence of calls leads to, with the calls made and the ranges they returned, in
order. -/
inductive Run : Arena → List (Call × Range) → Prop where
  | new : Run {} []
  | call (h : Run a given) (hn : 1 ≤ c.bytes) (hfit : c.bytes + 16 < 2 ^ 64)
      (hfresh : ∀ n, (a.call c base).1.blocks = a.blocks ++ [⟨base, n⟩] → a.Fresh ⟨base, n⟩) :
      Run (a.call c base).1 (given ++ [(c, ⟨(a.call c base).2, c.bytes⟩)])

/-- What is left of the current block. -/
def free (a : Arena) : Range := ⟨a.allocPtr, a.allocBytesRemaining⟩

/-- The invariant of an arena that has given out the ranges `given`. -/
structure Ok (a : Arena) (given : List Range) : Prop where
  blocks : a.blocks.Pairwise Range.Disjoint
  inside : ∀ r ∈ given, ∃ b ∈ a.blocks, r.Inside b
  apart : given.Pairwise Range.Disjoint
  unused : ∀ r ∈ given, r.Disjoint a.free
  no_block : a.current = none → a.free = ⟨0, 0⟩
  at_end : ∀ b, a.current = some b → b ∈ a.blocks ∧ a.free.Inside b ∧
    a.allocPtr + a.allocBytesRemaining = b.base + b.size

variable {a : Arena} {given : List Range}

theorem slop_spec (a : Arena) : kAlign ∣ a.allocPtr + a.slop ∧ a.slop < 16 := by
  have h := Nat.and_two_pow_sub_one_eq_mod a.allocPtr 4
  have he : a.allocPtr &&& (kAlign - 1) = a.allocPtr % 16 := h
  rw [slop, he, kAlign]
  split <;> omega

theorem slop_mod (a : Arena) (h : n + 16 < 2 ^ 64) : (n + a.slop) % 2 ^ 64 = n + a.slop :=
  Nat.mod_eq_of_lt (by have := a.slop_spec.2; omega)

namespace Ok

/-- Bumping the pointer over `n` bytes gives out any range among them. -/
theorem bump (h : a.Ok given) (hn : n ≤ a.allocBytesRemaining) (h0 : 0 < n)
    (hr : r.Inside ⟨a.allocPtr, n⟩) : (a.bump n).Ok (given ++ [r]) := by
  have hfree : r.Inside a.free := hr.trans ⟨le_refl _, Nat.add_le_add_left hn _⟩
  obtain ⟨b, hb⟩ : ∃ b, a.current = some b := by
    cases hc : a.current with
    | some b => exact ⟨b, rfl⟩
    | none =>
      have := congrArg Range.size (h.no_block hc)
      simp only [free] at this
      omega
  obtain ⟨hmem, hin, hend⟩ := h.at_end b hb
  refine ⟨h.blocks, fun x hx => ?_, ?_, fun x hx => ?_, fun hc => ?_, fun b' hb' => ?_⟩
  · rcases List.mem_append.1 hx with hx | hx
    · exact h.inside x hx
    · obtain rfl := List.mem_singleton.1 hx
      exact ⟨b, hmem, hfree.trans hin⟩
  · refine List.pairwise_append.2 ⟨h.apart, List.pairwise_singleton _ _, fun x hx y hy => ?_⟩
    obtain rfl := List.mem_singleton.1 hy
    exact Range.Inside.disjoint (h.unused x hx) (.refl x) hfree
  · rcases List.mem_append.1 hx with hx | hx
    · have hun := h.unused x hx
      simp only [Range.Disjoint, free, Arena.bump] at hun ⊢
      omega
    · obtain rfl := List.mem_singleton.1 hx
      exact .inl hr.2
  · exact absurd (hb.symm.trans hc) (by simp)
  · obtain rfl := Option.some.inj (hb.symm.trans hb')
    simp only [Range.Inside, free, Arena.bump] at hin ⊢
    exact ⟨hmem, by omega, by omega⟩

theorem fresh_disjoint (h : a.Ok given) (hf : a.Fresh b) (hx : x ∈ given) : x.Disjoint b := by
  obtain ⟨b', hb', hin⟩ := h.inside x hx
  exact Range.Inside.disjoint (hf.disjoint b' hb').symm hin (.refl b)

theorem fresh_free (h : a.Ok given) (hf : a.Fresh b) : b.Disjoint a.free := by
  cases hc : a.current with
  | none => exact .inr (by rw [h.no_block hc]; exact Nat.zero_le _)
  | some c =>
    obtain ⟨hmem, hin, _⟩ := h.at_end c hc
    exact Range.Inside.disjoint (hf.disjoint c hmem) (.refl b) hin

theorem newBlock (h : a.Ok given) (hf : a.Fresh ⟨base, n⟩) :
    (a.allocateNewBlock n base).Ok given := by
  refine { h with blocks := ?_, inside := fun x hx => ?_, at_end := fun b hb => ?_ }
  · refine List.pairwise_append.2 ⟨h.blocks, List.pairwise_singleton _ _, fun b hb c hc => ?_⟩
    obtain rfl := List.mem_singleton.1 hc
    exact (hf.disjoint b hb).symm
  · obtain ⟨b, hb, hin⟩ := h.inside x hx
    exact ⟨b, List.mem_append_left _ hb, hin⟩
  · obtain ⟨hmem, hin⟩ := h.at_end b hb
    exact ⟨List.mem_append_left _ hmem, hin⟩

theorem give (h : a.Ok given) (hb : b ∈ a.blocks) (hr : r.Inside b) (hd : ∀ x ∈ given, x.Disjoint b)
    (hfree : r.Disjoint a.free) : a.Ok (given ++ [r]) := by
  refine { h with inside := fun x hx => ?_, apart := ?_, unused := fun x hx => ?_ }
  · rcases List.mem_append.1 hx with hx | hx
    · exact h.inside x hx
    · obtain rfl := List.mem_singleton.1 hx
      exact ⟨b, hb, hr⟩
  · refine List.pairwise_append.2 ⟨h.apart, List.pairwise_singleton _ _, fun x hx y hy => ?_⟩
    obtain rfl := List.mem_singleton.1 hy
    exact Range.Inside.disjoint (hd x hx) (.refl x) hr
  · rcases List.mem_append.1 hx with hx | hx
    · exact h.unused x hx
    · obtain rfl := List.mem_singleton.1 hx
      exact hfree

theorem renew (h : a.Ok given) (hb : b ∈ a.blocks) (hn : n ≤ b.size)
    (hd : ∀ x ∈ given, x.Disjoint b) :
    Ok { a with
      allocPtr := b.base + n
      allocBytesRemaining := b.size - n
      current := some b } given := by
  have hin : Range.Inside ⟨b.base + n, b.size - n⟩ b := by
    simp only [Range.Inside]
    omega
  refine { h with
    unused := fun x hx => ?_
    no_block := fun hc => (nomatch hc)
    at_end := fun c hc => ?_ }
  · exact Range.Inside.disjoint (hd x hx) (.refl x) hin
  · cases hc
    exact ⟨hb, hin, by simp only; omega⟩

theorem fallback (h : a.Ok given) (hfresh : ∀ n, (a.allocateFallback bytes base).1.blocks =
      a.blocks ++ [⟨base, n⟩] → a.Fresh ⟨base, n⟩) :
    (a.allocateFallback bytes base).1.Ok (given ++ [⟨base, bytes⟩]) ∧
      (a.allocateFallback bytes base).2 = base ∧ kAlign ∣ base := by
  rw [allocateFallback] at hfresh ⊢
  split at hfresh
  · rename_i hbig
    have hf := hfresh bytes rfl
    rw [if_pos hbig]
    refine ⟨(h.newBlock hf).give (b := ⟨base, bytes⟩) ?_ (.refl _)
      (fun x hx => h.fresh_disjoint hf hx) (h.fresh_free hf), rfl, hf.aligned⟩
    exact List.mem_append_right _ List.mem_cons_self
  · rename_i hsmall
    have hf := hfresh kBlockSize rfl
    have hle : bytes ≤ kBlockSize := by
      simp only [kBlockSize] at hsmall ⊢
      omega
    have hmem : ⟨base, kBlockSize⟩ ∈ (a.allocateNewBlock kBlockSize base).blocks :=
      List.mem_append_right _ List.mem_cons_self
    have hd : ∀ x ∈ given, x.Disjoint ⟨base, kBlockSize⟩ := fun x hx => h.fresh_disjoint hf hx
    rw [if_neg hsmall]
    refine ⟨((h.newBlock hf).renew hmem hle hd).give hmem ⟨le_refl _, ?_⟩ hd (.inl (le_refl _)),
      rfl, hf.aligned⟩
    exact Nat.add_le_add_left hle _

theorem call (h : a.Ok given) (hn : 1 ≤ c.bytes) (hfit : c.bytes + 16 < 2 ^ 64)
    (hfresh : ∀ n, (a.call c base).1.blocks = a.blocks ++ [⟨base, n⟩] → a.Fresh ⟨base, n⟩) :
    (a.call c base).1.Ok (given ++ [⟨(a.call c base).2, c.bytes⟩]) ∧
      (c.aligned = true → kAlign ∣ (a.call c base).2) := by
  rw [Arena.call] at hfresh ⊢
  cases hc : c.aligned with
  | false =>
    simp only [hc, Bool.false_eq_true, if_false, allocate] at hfresh ⊢
    split at hfresh
    · rename_i hle
      rw [if_pos hle]
      exact ⟨h.bump hle hn (.refl _), nofun⟩
    · rename_i hgt
      obtain ⟨hok, hp, _⟩ := h.fallback hfresh
      rw [if_neg hgt, hp]
      exact ⟨hok, nofun⟩
  | true =>
    simp only [hc, if_true, allocateAligned, a.slop_mod hfit] at hfresh ⊢
    split at hfresh
    · rename_i hle
      rw [if_pos hle]
      refine ⟨h.bump hle (by omega) ?_, fun _ => a.slop_spec.1⟩
      simp only [Range.Inside]
      omega
    · rename_i hgt
      obtain ⟨hok, hp, hal⟩ := h.fallback hfresh
      rw [if_neg hgt, hp]
      exact ⟨hok, fun _ => hal⟩

end Ok

theorem Run.ok (h : Run a calls) : a.Ok (calls.map Prod.snd) ∧
    ∀ c ∈ calls, c.1.aligned = true → kAlign ∣ c.2.base := by
  induction h with
  | new => exact ⟨⟨.nil, nofun, .nil, nofun, fun _ => rfl, nofun⟩, nofun⟩
  | call h hn hfit hfresh ih =>
    obtain ⟨hok, hal⟩ := ih.1.call hn hfit hfresh
    refine ⟨by simpa using hok, fun c hc => ?_⟩
    rcases List.mem_append.1 hc with hc | hc
    · exact ih.2 c hc
    · obtain rfl := List.mem_singleton.1 hc
      exact hal

/-- Whatever the calls, and wherever the blocks are, the ranges returned lie in blocks, apart from
each other and aligned where that was asked for, and the count of remaining bytes is exact. -/
theorem allocations_disjoint (h : Run a calls) :
    (∀ c ∈ calls, ∃ b ∈ a.blocks, c.2.Inside b) ∧
    calls.Pairwise (fun c d => c.2.Disjoint d.2) ∧
    (∀ c ∈ calls, c.1.aligned = true → 16 ∣ c.2.base) ∧
    (a.current = none → a.allocBytesRemaining = 0) ∧
    ∀ b, a.current = some b → b ∈ a.blocks ∧
      a.allocPtr + a.allocBytesRemaining = b.base + b.size := by
  obtain ⟨hok, hal⟩ := h.ok
  refine ⟨fun c hc => hok.inside c.2 (List.mem_map_of_mem hc), List.pairwise_map.1 hok.apart, hal,
    fun hc => ?_, fun b hb => ?_⟩
  · exact congrArg Range.size (hok.no_block hc)
  · obtain ⟨hmem, _, hend⟩ := hok.at_end b hb
    exact ⟨hmem, hend⟩

theorem allocations_disjoint_three_calls : ∃ a calls, Run a calls ∧
    calls.map (fun c => (c.2.base, c.2.size)) = [(4096, 3), (4112, 104), (16384, 5000)] ∧
    calls.Pairwise (fun c d => c.2.Disjoint d.2) ∧
    a.allocPtr + a.allocBytesRemaining = 8192 ∧ a.current = some ⟨4096, 4096⟩ := by
  have h₁ := @Run.call _ _ ⟨false, 3⟩ 4096 Run.new (by decide) (by decide) fun n hn => by
    cases (show [(⟨4096, 4096⟩ : Range)] = [⟨4096, n⟩] from hn)
    exact ⟨by decide, nofun⟩
  have h₂ := @Run.call _ _ ⟨true, 104⟩ 0 h₁ (by decide) (by decide) fun n hn => by
    cases (show [(⟨4096, 4096⟩ : Range)] = [⟨4096, 4096⟩, ⟨0, n⟩] from hn)
  have h₃ := @Run.call _ _ ⟨false, 5000⟩ 16384 h₂ (by decide) (by decide) fun n hn => by
    cases (show [(⟨4096, 4096⟩ : Range), ⟨16384, 5000⟩] = [⟨4096, 4096⟩, ⟨16384, n⟩] from hn)
    refine ⟨by decide, fun b hb => ?_⟩
    obtain rfl : b = ⟨4096, 4096⟩ := List.mem_singleton.1 hb
    exact .inr (by decide)
  obtain ⟨_, hd, _, _, hend⟩ := allocations_disjoint h₃
  exact ⟨_, _, h₃, by decide, hd, (hend ⟨4096, 4096⟩ (by decide)).2, by decide⟩

end Arena

end LsmKv
