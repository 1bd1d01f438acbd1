import Mathlib

namespace LsmKv
set_option autoImplicit true

/-- A stored version of a key: its place in the order of writes, and whether it deletes. -/
class Versioned (V : Type) (K : outParam Type) where
  key : V → K
  seq : V → ℕ
  dead : V → Bool

open Versioned

section Newest
variable {V K : Type} [Versioned V K] {U U' I O R N : Set V} {k : K} {r S : ℕ} {x y : V}

/-- The version of `k` that a reader at point `r` finds among `U`. -/
structure Newest (U : Set V) (k : K) (r : ℕ) (x : V) : Prop where
  mem : x ∈ U
  key_eq : key x = k
  seq_le : seq x ≤ r
  max : ∀ y ∈ U, key y = k → seq y ≤ r → seq y ≤ seq x

/-- The version a reader at point `r` gets an answer from: the newest one, not a deletion. -/
def Live (U : Set V) (k : K) (r : ℕ) (x : V) : Prop := Newest U k r x ∧ dead x = false

/-- No reader at point `S` or later can tell the two sets apart. -/
def Agree (S : ℕ) (U U' : Set V) : Prop :=
  ∀ r, S ≤ r → ∀ k x, Live U k r x ↔ Live U' k r x

/-- A key and a sequence number name one version. -/
def Distinct (U : Set V) : Prop :=
  ∀ x ∈ U, ∀ y ∈ U, key x = key y → seq x = seq y → x = y

theorem Distinct.mono (h : Distinct U) (hs : U' ⊆ U) : Distinct U' :=
  fun x hx y hy => h x (hs hx) y (hs hy)

theorem Newest.unique (hd : Distinct U) (hx : Newest U k r x) (hy : Newest U k r y) : x = y :=
  hd x hx.mem y hy.mem (hx.key_eq.trans hy.key_eq.symm)
    (le_antisymm (hy.max x hx.mem hx.key_eq hx.seq_le) (hx.max y hy.mem hy.key_eq hy.seq_le))

theorem Live.unique (hd : Distinct U) (hx : Live U k r x) (hy : Live U k r y) : x = y :=
  hx.1.unique hd hy.1

theorem exists_newest (hf : U.Finite) (hx : x ∈ U) (hr : seq x ≤ r) :
    ∃ y, Newest U (key x) r y := by
  have hne : {y ∈ U | key y = key x ∧ seq y ≤ r}.Nonempty := ⟨x, hx, rfl, hr⟩
  obtain ⟨y, hy, hmax⟩ := Set.exists_max_image _ seq (hf.subset (Set.sep_subset U _)) hne
  exact ⟨y, hy.1, hy.2.1, hy.2.2, fun z hz hk hzr => hmax z ⟨hz, hk, hzr⟩⟩

theorem Agree.refl (S : ℕ) (U : Set V) : Agree S U U := fun _ _ _ _ => Iff.rfl

theorem Agree.symm (h : Agree S U U') : Agree S U' U := fun r hr k x => (h r hr k x).symm

theorem Agree.trans (h : Agree S U U') (h' : Agree S U' O) : Agree S U O :=
  fun r hr k x => (h r hr k x).trans (h' r hr k x)

theorem Agree.mono (h : Agree S U U') (hS : S ≤ r) : Agree r U U' :=
  fun r' hr => h r' (hS.trans hr)

/-- Every version of `N` is written after every version of `U`. -/
def Above (N U : Set V) : Prop := ∀ x ∈ N, ∀ y ∈ U, seq y < seq x

/-- No version of `U` is newer than one of the same key in `N`. -/
def Shadows (N U : Set V) : Prop := ∀ x ∈ N, ∀ y ∈ U, key y = key x → seq y ≤ seq x

theorem Above.shadows (h : Above N U) : Shadows N U := fun x hx y hy _ => (h x hx y hy).le

theorem Shadows.mono (h : Shadows N U) (hN : I ⊆ N) (hU : U' ⊆ U) : Shadows I U' :=
  fun x hx y hy => h x (hN hx) y (hU hy)

theorem Newest.union_left (h : Newest N k r x) (hs : Shadows N U) : Newest (N ∪ U) k r x where
  mem := .inl h.mem
  key_eq := h.key_eq
  seq_le := h.seq_le
  max y hy hk hr := by
    rcases hy with hy | hy
    · exact h.max y hy hk hr
    · exact hs x h.mem y hy (hk.trans h.key_eq.symm)

theorem newest_union_right (hn : ∀ y ∈ N, key y = k → ¬ seq y ≤ r) :
    Newest (N ∪ U) k r x ↔ Newest U k r x := by
  constructor
  · intro h
    refine ⟨h.mem.resolve_left fun hm => hn x hm h.key_eq h.seq_le, h.key_eq, h.seq_le, ?_⟩
    exact fun y hy => h.max y (.inr hy)
  · intro h
    refine ⟨.inr h.mem, h.key_eq, h.seq_le, ?_⟩
    rintro y (hy | hy) hk hr
    · exact absurd hr (hn y hy hk)
    · exact h.max y hy hk hr

theorem newest_union_iff (ha : Above N U) :
    Newest (N ∪ U) k r x ↔
      Newest N k r x ∨ Newest U k r x ∧ ∀ y ∈ N, key y = k → ¬ seq y ≤ r := by
  constructor
  · intro h
    rcases h.mem with hm | hm
    · exact .inl ⟨hm, h.key_eq, h.seq_le, fun y hy => h.max y (.inl hy)⟩
    · refine .inr ⟨⟨hm, h.key_eq, h.seq_le, fun y hy => h.max y (.inr hy)⟩, ?_⟩
      intro y hy hk hr
      exact absurd (h.max y (.inl hy) hk hr) (not_le_of_gt (ha y hy x hm))
  · rintro (h | ⟨h, hn⟩)
    · exact h.union_left ha.shadows
    · exact (newest_union_right hn).2 h

/-- A reader at point `r` cannot tell the two sets apart. -/
def AgreeAt (r : ℕ) (U U' : Set V) : Prop := ∀ k x, Live U k r x ↔ Live U' k r x

theorem AgreeAt.trans (h : AgreeAt r U U') (h' : AgreeAt r U' O) : AgreeAt r U O :=
  fun k x => (h k x).trans (h' k x)

theorem AgreeAt.symm (h : AgreeAt r U U') : AgreeAt r U' U := fun k x => (h k x).symm

theorem AgreeAt.union_above (h : AgreeAt r U U') (ha : Above N U) (ha' : Above N U') :
    AgreeAt r (N ∪ U) (N ∪ U') := by
  intro k x
  simp only [Live, newest_union_iff ha, newest_union_iff ha', or_and_right]
  have hx := h k x
  simp only [Live] at hx
  tauto

theorem agreeAt_union_later (hN : ∀ x ∈ N, r < seq x) : AgreeAt r (N ∪ U) U := by
  intro k x
  have hn : ∀ y ∈ N, key y = k → ¬ seq y ≤ r := fun y hy _ => not_le_of_gt (hN y hy)
  simp only [Live, newest_union_right hn]

theorem Agree.union_above (h : Agree S U U') (ha : Above N U) (ha' : Above N U') :
    Agree S (N ∪ U) (N ∪ U') :=
  fun r hr => AgreeAt.union_above (h r hr) ha ha'

theorem Agree.lower (h : Agree r U U') (hU : ∀ x ∈ U, seq x ≤ S) (hU' : ∀ x ∈ U', seq x ≤ S) :
    Agree S U U' := by
  have hup : ∀ {W : Set V} {r' : ℕ} {k x}, (∀ x ∈ W, seq x ≤ S) → S ≤ r' →
      (Live W k r' x ↔ Live W k (max r r') x) := by
    intro W r' k x hW hr'
    constructor
    · rintro ⟨h, hl⟩
      exact ⟨⟨h.mem, h.key_eq, h.seq_le.trans (le_max_right _ _),
        fun y hy hk _ => h.max y hy hk ((hW y hy).trans hr')⟩, hl⟩
    · rintro ⟨h, hl⟩
      exact ⟨⟨h.mem, h.key_eq, (hW x h.mem).trans hr',
        fun y hy hk _ => h.max y hy hk (((hW y hy).trans hr').trans (le_max_right _ _))⟩, hl⟩
  intro r' hr' k x
  rw [hup hU hr', hup hU' hr']
  exact h _ (le_max_left _ _) k x

theorem Agree.union_tail (h : Agree S U U') (hs : U' ⊆ U)
    (ha : ∀ x ∈ N, ∀ y ∈ U, y ∉ N → seq y < seq x) : Agree S (N ∪ U) (N ∪ U') := by
  intro r hr k x
  constructor
  · rintro ⟨hx, hl⟩
    refine ⟨⟨?_, hx.key_eq, hx.seq_le, fun y hy => hx.max y (hy.imp_right fun hm => hs hm)⟩, hl⟩
    rcases hx.mem with hm | hm
    · exact .inl hm
    · have hU : Live U k r x := ⟨⟨hm, hx.key_eq, hx.seq_le, fun y hy => hx.max y (.inr hy)⟩, hl⟩
      exact .inr ((h r hr k x).1 hU).1.mem
  · rintro ⟨hx, hl⟩
    refine ⟨⟨hx.mem.imp_right fun hm => hs hm, hx.key_eq, hx.seq_le, ?_⟩, hl⟩
    rintro y (hy | hy) hk hyr
    · exact hx.max y (.inl hy) hk hyr
    · rcases hx.mem with hm | hm
      · by_cases hyN : y ∈ N
        · exact hx.max y (.inl hyN) hk hyr
        · exact (ha x hm y hy hyN).le
      · have hU' : Live U' k r x :=
          ⟨⟨hm, hx.key_eq, hx.seq_le, fun y hy => hx.max y (.inr hy)⟩, hl⟩
        exact ((h r hr k x).2 hU').1.max y hy hk hyr

/-- The newest version of its key at or below `S`. -/
def Pinned (I : Set V) (S : ℕ) (x : V) : Prop :=
  seq x ≤ S ∧ ∀ y ∈ I, key y = key x → seq y ≤ S → seq y ≤ seq x

/-- What a rewrite of `I` keeps when nothing below `S` is read: all versions above `S`, and
of the others the newest of each key, unless it is a deletion that may go. -/
def Retained (gc : Prop) (S : ℕ) (I : Set V) : Set V :=
  {x ∈ I | S < seq x ∨ Pinned I S x ∧ ¬ (gc ∧ dead x = true)}

theorem exists_pinned (hx : x ∈ I) (hS : seq x ≤ S) :
    ∃ z ∈ I, key z = key x ∧ seq x ≤ seq z ∧ Pinned I S z := by
  let A : Set ℕ := {n | ∃ w ∈ I, key w = key x ∧ seq w ≤ S ∧ seq w = n}
  have hb : BddAbove A := ⟨S, by rintro n ⟨w, _, _, hw, rfl⟩; exact hw⟩
  obtain ⟨z, hz, hk, hzS, he⟩ := Nat.sSup_mem (s := A) ⟨seq x, x, hx, rfl, hS, rfl⟩ hb
  refine ⟨z, hz, hk, ?_, hzS, ?_⟩
  · rw [he]
    exact le_csSup hb ⟨x, hx, rfl, hS, rfl⟩
  · intro y hy hky hyS
    rw [he]
    exact le_csSup hb ⟨y, hy, hky.trans hk, hyS, rfl⟩

/-- A rewrite by that rule is invisible from `S` on, if the versions outside it are not older
than the deletions it drops. -/
theorem agree_retained {gc : Prop}
    (hg : gc → ∀ x ∈ I, ∀ y ∈ R, key y = key x → seq x ≤ seq y) :
    Agree S (I ∪ R) (Retained gc S I ∪ R) := by
  intro r hr k x
  constructor
  · rintro ⟨h, hl⟩
    refine ⟨⟨?_, h.key_eq, h.seq_le, ?_⟩, hl⟩
    · rcases h.mem with hm | hm
      · left
        refine ⟨hm, ?_⟩
        by_cases hs : S < seq x
        · exact .inl hs
        · refine .inr ⟨⟨not_lt.1 hs, ?_⟩, by simp [hl]⟩
          intro y hy hk hyS
          exact h.max y (.inl hy) (hk.trans h.key_eq) (hyS.trans hr)
      · exact .inr hm
    · rintro y (hy | hy) hk hyr
      · exact h.max y (.inl hy.1) hk hyr
      · exact h.max y (.inr hy) hk hyr
  · rintro ⟨h, hl⟩
    refine ⟨⟨?_, h.key_eq, h.seq_le, ?_⟩, hl⟩
    · exact h.mem.imp (fun hm => hm.1) id
    · rintro y (hy | hy) hk hyr
      · by_cases hyO : y ∈ Retained gc S I
        · exact h.max y (.inl hyO) hk hyr
        · have hyS : seq y ≤ S := not_lt.1 fun hc => hyO ⟨hy, .inl hc⟩
          obtain ⟨z, hz, hkz, hyz, hp⟩ := exists_pinned hy hyS
          apply hyz.trans
          by_cases hzO : z ∈ Retained gc S I
          · exact h.max z (.inl hzO) (hkz.trans hk) (hp.1.trans hr)
          · -- the dropped version is a deletion, and what is left of its key is not older
            have hgd : gc ∧ dead z = true := by
              by_contra hc
              exact hzO ⟨hz, .inr ⟨hp, hc⟩⟩
            have hxz : key x = key z := h.key_eq.trans (hkz.trans hk).symm
            rcases h.mem with hm | hm
            · rcases hm.2 with hs | ⟨hpx, _⟩
              · exact hp.1.trans hs.le
              · exact hpx.2 z hz hxz.symm hp.1
            · exact hg hgd.1 z hz x hm hxz
      · exact h.max y (.inr hy) hk hyr

end Newest

end LsmKv
