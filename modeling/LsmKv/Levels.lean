import LsmKv.Capture

namespace LsmKv
set_option autoImplicit true

open Versioned

/-- A record of an earlier run against one of a later run: not older, and a copy only of a record
with a number up to `R`. -/
def Newer (R : Nat) (x y : Rec) : Prop :=
  (y.userKey = x.userKey → y.seq ≤ x.seq) ∧ (x = y → x.seq ≤ R)

theorem newer_of_userKey_ne (h : x.userKey ≠ y.userKey) : Newer R x y :=
  ⟨fun he => absurd he.symm h, fun he => absurd (he ▸ rfl) h⟩

theorem newer_of_seq_lt (h : y.seq < x.seq) : Newer R x y :=
  ⟨fun _ => h.le, fun he => absurd (he ▸ rfl) h.ne⟩

/-- A version whose levels are in order, with copies of a record only up to `R`. -/
structure Version.Wf (R : Nat) (v : Version) : Prop where
  ok : v.Ok
  recOk : ∀ l, ∀ x ∈ levelRecs (v.levels l), x.Ok
  level0 : (v.levels 0).Pairwise fun f g => g.number < f.number ∧
    ∀ x ∈ f.recs, ∀ y ∈ g.recs, Newer R x y
  deeper : ∀ l l', l < l' → ∀ x ∈ levelRecs (v.levels l), ∀ y ∈ levelRecs (v.levels l'), Newer R x y
  numbers : ∀ l l', ∀ f ∈ v.levels l, ∀ g ∈ v.levels l', f.number = g.number → l = l'
  nodup : ∀ l, ((v.levels l).map FileMetaData.number).Nodup

namespace Version

variable {v : Version} {R : Nat}

theorem mem_levelRecs {fs : List FileMetaData} : x ∈ levelRecs fs ↔ ∃ f ∈ fs, x ∈ f.recs :=
  List.mem_flatMap

theorem mem_runs (h0 : ∀ l, kNumLevels ≤ l → v.levels l = []) :
    x ∈ v.runs.flatten ↔ ∃ l, x ∈ levelRecs (v.levels l) := by
  simp only [runs, List.flatten_append, List.mem_append, List.mem_flatten, List.mem_map,
    mem_levelRecs]
  constructor
  · rintro (⟨_, ⟨f, hf, rfl⟩, hx⟩ | ⟨_, ⟨l, _, rfl⟩, hx⟩)
    · exact ⟨0, f, hf, hx⟩
    · exact ⟨l, mem_levelRecs.1 hx⟩
  · rintro ⟨l, f, hf, hx⟩
    rcases Nat.eq_zero_or_pos l with rfl | hl
    · exact .inl ⟨_, ⟨f, hf, rfl⟩, hx⟩
    · have hlt : l < kNumLevels := by
        by_contra hc
        rw [h0 l (not_lt.1 hc)] at hf
        cases hf
      refine .inr ⟨_, ⟨l, ?_, rfl⟩, mem_levelRecs.2 ⟨f, hf, hx⟩⟩
      rw [List.mem_range'_1]
      omega

theorem Wf.newer_runs (h : v.Wf R) :
    v.runs.Pairwise fun l m => ∀ x ∈ l, ∀ y ∈ m, Newer R x y := by
  rw [runs, List.pairwise_append]
  refine ⟨?_, ?_, ?_⟩
  · exact List.pairwise_map.2 (h.level0.imp fun hfg => hfg.2)
  · rw [List.pairwise_map]
    have hlt : (List.range' 1 (kNumLevels - 1)).Pairwise (· < ·) := List.pairwise_lt_range'
    exact hlt.imp fun hl => h.deeper _ _ hl
  · intro l hl m hm
    obtain ⟨f, hf, rfl⟩ := List.mem_map.1 hl
    obtain ⟨i, hi, rfl⟩ := List.mem_map.1 hm
    intro x hx
    exact h.deeper 0 i (List.mem_range'_1.1 hi).1 x (mem_levelRecs.2 ⟨f, hf, hx⟩)

theorem Wf.runsOk (h : v.Wf R) : RunsOk v.runs where
  ascending l hl := by
    rcases List.mem_append.1 hl with hl | hl
    · obtain ⟨f, hf, rfl⟩ := List.mem_map.1 hl
      exact (h.ok.level0 f hf).good.ascending
    · obtain ⟨i, hi, rfl⟩ := List.mem_map.1 hl
      exact (h.ok.deeper i (List.mem_range'_1.1 hi).1).ascending
  ok l hl r hr := by
    rcases List.mem_append.1 hl with hl | hl
    · obtain ⟨f, hf, rfl⟩ := List.mem_map.1 hl
      exact h.recOk 0 r (mem_levelRecs.2 ⟨f, hf, hr⟩)
    · obtain ⟨i, _, rfl⟩ := List.mem_map.1 hl
      exact h.recOk i r hr
  shadows := h.newer_runs.imp fun hlm x hx y hy => (hlm x hx y hy).1

theorem Wf.file_ok (h : v.Wf R) (hf : f ∈ v.levels l) : f.Ok := by
  rcases Nat.eq_zero_or_pos l with rfl | hl
  · exact h.ok.level0 f hf
  · exact (h.ok.deeper l hl).file f hf

theorem Wf.files_nodup (h : v.Wf R) : (v.files.map FileMetaData.number).Nodup := by
  rw [Version.files, List.map_flatMap, List.nodup_flatMap]
  refine ⟨fun l _ => h.nodup l, ?_⟩
  refine List.nodup_range.imp fun {l l'} hne => ?_
  intro n hn hn'
  obtain ⟨f, hf, rfl⟩ := List.mem_map.1 hn
  obtain ⟨g, hg, he⟩ := List.mem_map.1 hn'
  exact hne (h.numbers l l' f hf g hg he.symm)

theorem mem_files (h : f ∈ v.files) : ∃ l, f ∈ v.levels l := by
  obtain ⟨l, _, hf⟩ := List.mem_flatMap.1 h
  exact ⟨l, hf⟩

theorem Wf.mem_files (h : v.Wf R) (hf : f ∈ v.levels l) : f ∈ v.files := by
  refine List.mem_flatMap.2 ⟨l, List.mem_range.2 ?_, hf⟩
  by_contra hl
  rw [h.ok.empty l (not_lt.1 hl)] at hf
  cases hf

theorem wf_empty (R : Nat) : ({} : Version).Wf R where
  ok := ⟨by simp, fun _ _ => ⟨by simp, by simp, .nil⟩, fun _ _ => rfl⟩
  recOk := by simp [levelRecs]
  level0 := .nil
  deeper := by simp [levelRecs]
  numbers := by simp
  nodup := by simp

@[simp] theorem levels_setLevel (v : Version) (l : Nat) (fs : List FileMetaData) (i : Nat) :
    (v.setLevel l fs).levels i = if i = l then fs else v.levels i := rfl

theorem Wf.mono (h : v.Wf R) (hR : R ≤ R') : v.Wf R' where
  ok := h.ok
  recOk := h.recOk
  level0 := h.level0.imp fun hfg => ⟨hfg.1, fun x hx y hy =>
    ⟨(hfg.2 x hx y hy).1, fun he => ((hfg.2 x hx y hy).2 he).trans hR⟩⟩
  deeper := fun l l' hl x hx y hy =>
    ⟨(h.deeper l l' hl x hx y hy).1, fun he => ((h.deeper l l' hl x hx y hy).2 he).trans hR⟩
  numbers := h.numbers
  nodup := h.nodup

/-- A flushed table goes in front of L0. -/
theorem Wf.addFile (h : v.Wf R) (hf : f.Ok) (hr : ∀ x ∈ f.recs, x.Ok)
    (hnew : ∀ x ∈ f.recs, ∀ l, ∀ y ∈ levelRecs (v.levels l), Newer R x y)
    (hn : ∀ l, ∀ g ∈ v.levels l, g.number < f.number) :
    (v.setLevel 0 (f :: v.levels 0)).Wf R := by
  have hlev : ∀ l, 0 < l → (v.setLevel 0 (f :: v.levels 0)).levels l = v.levels l := by
    intro l hl
    rw [levels_setLevel, if_neg (by omega)]
  have hrec : ∀ l, ∀ x ∈ levelRecs ((v.setLevel 0 (f :: v.levels 0)).levels l),
      x ∈ f.recs ∧ l = 0 ∨ x ∈ levelRecs (v.levels l) := by
    intro l x hx
    rcases Nat.eq_zero_or_pos l with rfl | hl
    · obtain ⟨g, hg, hxg⟩ := mem_levelRecs.1 hx
      rcases List.mem_cons.1 hg with rfl | hg
      · exact .inl ⟨hxg, rfl⟩
      · exact .inr (mem_levelRecs.2 ⟨g, hg, hxg⟩)
    · rw [hlev l hl] at hx
      exact .inr hx
  have hfile : ∀ l, ∀ g ∈ (v.setLevel 0 (f :: v.levels 0)).levels l, g = f ∧ l = 0 ∨
      g ∈ v.levels l := by
    intro l g hg
    rcases Nat.eq_zero_or_pos l with rfl | hl
    · rcases List.mem_cons.1 hg with rfl | hg
      · exact .inl ⟨rfl, rfl⟩
      · exact .inr hg
    · rw [hlev l hl] at hg
      exact .inr hg
  refine ⟨⟨?_, ?_, ?_⟩, ?_, ?_, ?_, ?_, ?_⟩
  · intro g hg
    rcases List.mem_cons.1 hg with rfl | hg
    · exact hf
    · exact h.ok.level0 g hg
  · intro l hl
    rw [hlev l hl]
    exact h.ok.deeper l hl
  · intro l hl
    rw [hlev l (by simp only [kNumLevels] at hl; omega)]
    exact h.ok.empty l hl
  · intro l x hx
    rcases hrec l x hx with ⟨hx, _⟩ | hx
    · exact hr x hx
    · exact h.recOk l x hx
  · refine List.pairwise_cons.2 ⟨fun g hg => ⟨hn 0 g hg, fun x hx y hy => ?_⟩, h.level0⟩
    exact hnew x hx 0 y (mem_levelRecs.2 ⟨g, hg, hy⟩)
  · intro l l' hl x hx y hy
    rw [hlev l' (by omega)] at hy
    rcases hrec l x hx with ⟨hx, _⟩ | hx
    · exact hnew x hx l' y hy
    · exact h.deeper l l' hl x hx y hy
  · intro l l' a ha b hb hab
    rcases hfile l a ha with ⟨rfl, rfl⟩ | hav <;> rcases hfile l' b hb with ⟨rfl, rfl⟩ | hbv
    · rfl
    · exact absurd hab (hn l' b hbv).ne'
    · exact absurd hab (hn l a hav).ne
    · exact h.numbers l l' a hav b hbv hab
  · intro l
    rcases Nat.eq_zero_or_pos l with rfl | hl
    · refine List.nodup_cons.2 ⟨?_, h.nodup 0⟩
      intro hm
      obtain ⟨g, hg, he⟩ := List.mem_map.1 hm
      exact absurd he (hn 0 g hg).ne
    · rw [hlev l hl]
      exact h.nodup l

end Version

def Version.content (v : Version) : Set Rec := {x | ∃ l, x ∈ levelRecs (v.levels l)}

theorem Version.Wf.of_le {v : Version} (h : v.Wf R) (hle : ∀ x ∈ v.content, x.seq ≤ R') :
    v.Wf R' where
  ok := h.ok
  recOk := h.recOk
  level0 := h.level0.imp_of_mem fun {f _} hf _ hfg => ⟨hfg.1, fun x hx y hy =>
    ⟨(hfg.2 x hx y hy).1, fun _ => hle x ⟨0, Version.mem_levelRecs.2 ⟨f, hf, hx⟩⟩⟩⟩
  deeper := fun l l' hl x hx y hy => ⟨(h.deeper l l' hl x hx y hy).1, fun _ => hle x ⟨l, hx⟩⟩
  numbers := h.numbers
  nodup := h.nodup

/-- Every key of `f` comes before every key of `g`. -/
def Before (f g : FileMetaData) : Prop := ∀ a ∈ f.recs, ∀ b ∈ g.recs, a.userKey < b.userKey

namespace Compaction

variable {v : Version} {R : Nat} {c : Compaction}

/-- What `DoCompaction` has chosen from a version. -/
structure Picked (v : Version) (c : Compaction) : Prop where
  level_lt : c.level + 1 < kNumLevels
  inputs0 : c.inputs0 ⊆ v.levels c.level
  oldest0 : c.level = 0 → c.inputs0 <:+ v.levels 0
  inputs1 : c.inputs1 ⊆ v.levels (c.level + 1)
  nodup0 : (c.inputs0.map FileMetaData.number).Nodup
  sorted1 : List.Sublist c.inputs1 (v.levels (c.level + 1))
  sorted0 : List.Sublist c.inputs0 (v.levels c.level)
  apart : ∀ g ∈ v.levels (c.level + 1), g ∉ c.inputs1 →
    (∀ f ∈ c.inputs, Before g f) ∨ ∀ f ∈ c.inputs, Before f g
  bottom : c.bottomMost = true → ∀ l, c.level + 2 ≤ l → v.levels l = []

theorem smallestUserKey_le (f : FileMetaData) (fs : List FileMetaData) :
    smallestUserKey f fs ≤ extractUserKey f.smallest ∧
      ∀ g ∈ fs, smallestUserKey f fs ≤ extractUserKey g.smallest := by
  have key : ∀ (fs : List FileMetaData) (k : Bytes),
      let r := fs.foldl (fun k g => if extractUserKey g.smallest < k then
        extractUserKey g.smallest else k) k
      r ≤ k ∧ ∀ g ∈ fs, r ≤ extractUserKey g.smallest := by
    intro fs
    induction fs with
    | nil => exact fun k => ⟨le_refl k, by simp⟩
    | cons g fs ih =>
      intro k
      rw [List.foldl_cons]
      obtain ⟨h1, h2⟩ := ih (if extractUserKey g.smallest < k then extractUserKey g.smallest else k)
      have hk : (if extractUserKey g.smallest < k then extractUserKey g.smallest else k) ≤ k ∧
          (if extractUserKey g.smallest < k then extractUserKey g.smallest else k) ≤
            extractUserKey g.smallest := by
        split
        · rename_i h
          exact ⟨h.le, le_refl _⟩
        · rename_i h
          exact ⟨le_refl _, not_lt.1 h⟩
      refine ⟨h1.trans hk.1, fun x hx => ?_⟩
      rcases List.mem_cons.1 hx with rfl | hx
      · exact h1.trans hk.2
      · exact h2 x hx
  exact key fs _

theorem le_largestUserKey (f : FileMetaData) (fs : List FileMetaData) :
    ∀ g ∈ fs, extractUserKey g.largest ≤ largestUserKey f fs := by
  have key : ∀ (fs : List FileMetaData) (k : Bytes),
      let r := fs.foldl (fun k g => if k < extractUserKey g.largest then
        extractUserKey g.largest else k) k
      k ≤ r ∧ ∀ g ∈ fs, extractUserKey g.largest ≤ r := by
    intro fs
    induction fs with
    | nil => exact fun k => ⟨le_refl k, by simp⟩
    | cons g fs ih =>
      intro k
      rw [List.foldl_cons]
      obtain ⟨h1, h2⟩ := ih (if k < extractUserKey g.largest then extractUserKey g.largest else k)
      have hk : k ≤ (if k < extractUserKey g.largest then extractUserKey g.largest else k) ∧
          extractUserKey g.largest ≤
            (if k < extractUserKey g.largest then extractUserKey g.largest else k) := by
        split
        · rename_i h
          exact ⟨h.le, le_refl _⟩
        · rename_i h
          exact ⟨le_refl _, not_lt.1 h⟩
      refine ⟨hk.1.trans h1, fun x hx => ?_⟩
      rcases List.mem_cons.1 hx with rfl | hx
      · exact hk.2.trans h1
      · exact h2 x hx
  exact (key fs _).2

theorem recs_between {f : FileMetaData} (hf : f.Ok) (hx : x ∈ f.recs) :
    extractUserKey f.smallest ≤ x.userKey ∧ x.userKey ≤ extractUserKey f.largest := by
  rw [hf.smallest, hf.largest]
  exact ⟨firstKey_le hf.good.ascending hx, le_lastKey hf.good.ascending hx⟩

theorem before_or_before {fs : List FileMetaData} (h : LevelOk fs) (hf : f ∈ fs) (hg : g ∈ fs)
    (hne : f ≠ g) : Before f g ∨ Before g f := by
  have hp := h.disjoint
  obtain ⟨i, hi, rfl⟩ := List.getElem_of_mem hf
  obtain ⟨j, hj, rfl⟩ := List.getElem_of_mem hg
  rw [List.pairwise_iff_getElem] at hp
  rcases Nat.lt_trichotomy i j with h | rfl | h
  · exact .inl (hp i j hi hj h)
  · exact absurd rfl hne
  · exact .inr (hp j i hj hi h)

theorem picked_of_ranges (hv : v.Wf R) (hl : c.level + 1 < kNumLevels) {f₀ : FileMetaData}
    (hs0 : List.Sublist c.inputs0 (v.levels c.level))
    (hall : c.level = 0 → c.inputs0 <:+ v.levels 0)
    (h1 : c.inputs1 = (v.levels (c.level + 1)).filter fun g =>
      rangesOverlap g (smallestUserKey f₀ c.inputs0) (largestUserKey f₀ c.inputs0))
    (hb : c.bottomMost = (List.range' (c.level + 2) (kNumLevels - (c.level + 2))).all fun l =>
      (v.levels l).isEmpty) : c.Picked v where
  level_lt := hl
  inputs0 := hs0.subset
  oldest0 := hall
  inputs1 := fun g hg => (List.mem_filter.1 (h1 ▸ hg)).1
  nodup0 := (hv.nodup c.level).sublist (hs0.map _)
  sorted1 := h1 ▸ List.filter_sublist
  sorted0 := hs0
  apart := by
    intro g hg hng
    have hlev := hv.ok.deeper (c.level + 1) (by omega)
    have hout :
        rangesOverlap g (smallestUserKey f₀ c.inputs0) (largestUserKey f₀ c.inputs0) = false := by
      rw [← Bool.not_eq_true]
      intro ho
      exact hng (h1 ▸ List.mem_filter.2 ⟨hg, ho⟩)
    have hgok := hlev.file g hg
    rw [rangesOverlap] at hout
    split at hout
    · -- the file ends before the range begins
      rename_i hlt
      left
      intro f hf a ha b hb
      have hag := (recs_between hgok ha).2
      rcases List.mem_append.1 hf with hf | hf
      · have hfok := hv.file_ok (hs0.subset hf)
        have hsm := (smallestUserKey_le f₀ c.inputs0).2 f hf
        exact lt_of_le_of_lt hag (lt_of_lt_of_le hlt (hsm.trans (recs_between hfok hb).1))
      · have hf1 := (List.mem_filter.1 (h1 ▸ hf))
        have hne : g ≠ f := by
          rintro rfl
          exact hng hf
        rcases before_or_before hlev hg hf1.1 hne with hgf | hfg
        · exact hgf a ha b hb
        · exfalso
          have hin := hf1.2
          rw [rangesOverlap] at hin
          split at hin
          · cases hin
          · rename_i hnlt
            obtain ⟨y, hy, hye⟩ := (hlev.file f hf1.1).largest_mem (hlev.ne_nil f hf1.1)
            have hya := hfg y hy a ha
            rw [← hye] at hnlt
            exact hnlt (lt_of_lt_of_le hya (hag.trans hlt.le))
    · split at hout
      · rename_i hgt
        right
        intro f hf b hb a ha
        have hag := (recs_between hgok ha).1
        rcases List.mem_append.1 hf with hf | hf
        · have hfok := hv.file_ok (hs0.subset hf)
          have hla := le_largestUserKey f₀ c.inputs0 f hf
          exact lt_of_le_of_lt ((recs_between hfok hb).2.trans hla) (lt_of_lt_of_le hgt hag)
        · have hf1 := (List.mem_filter.1 (h1 ▸ hf))
          have hne : g ≠ f := by
            rintro rfl
            exact hng hf
          rcases before_or_before hlev hg hf1.1 hne with hgf | hfg
          · exfalso
            have hin := hf1.2
            rw [rangesOverlap] at hin
            split at hin
            · cases hin
            · split at hin
              · cases hin
              · rename_i hngt
                obtain ⟨y, hy, hye⟩ := (hlev.file f hf1.1).smallest_mem (hlev.ne_nil f hf1.1)
                have hay := hgf a ha y hy
                rw [← hye] at hngt
                exact hngt (lt_of_lt_of_le hgt (hag.trans hay.le))
          · exact hfg b hb a ha
      · cases hout
  bottom := by
    intro hbm l hl'
    by_cases hlt : l < kNumLevels
    · rw [hb, List.all_eq_true] at hbm
      have := hbm l (List.mem_range'_1.2 ⟨hl', by omega⟩)
      simpa using this
    · exact hv.ok.empty l (not_lt.1 hlt)

/-- What a compaction has written: files in key order, with records of the inputs. -/
structure OutputsOk (v : Version) (c : Compaction) (outputs : List FileMetaData) : Prop where
  file : ∀ f ∈ outputs, f.Ok
  ne_nil : ∀ f ∈ outputs, f.recs ≠ []
  order : outputs.Pairwise Before
  mem_inputs : ∀ f ∈ outputs, ∀ x ∈ f.recs, ∃ g ∈ c.inputs, x ∈ g.recs
  number_ne : ∀ f ∈ outputs, ∀ l, ∀ g ∈ v.levels l, g.number ≠ f.number
  nodup : (outputs.map FileMetaData.number).Nodup

/-- Files that come to L0 while a compaction runs leave its choice as good as it was. -/
theorem Picked.add_level0 (hp : c.Picked v) (added : List FileMetaData) :
    c.Picked (v.setLevel 0 (added ++ v.levels 0)) where
  level_lt := hp.level_lt
  inputs0 f hf := by
    rw [Version.levels_setLevel]
    split_ifs with h
    · exact List.mem_append_right _ (h ▸ hp.inputs0 hf)
    · exact hp.inputs0 hf
  oldest0 h := (hp.oldest0 h).trans (List.suffix_append _ _)
  inputs1 := hp.inputs1
  nodup0 := hp.nodup0
  sorted1 := hp.sorted1
  sorted0 := by
    rw [Version.levels_setLevel]
    split_ifs with h
    · exact (h ▸ hp.sorted0).trans (List.sublist_append_right _ _)
    · exact hp.sorted0
  apart := hp.apart
  bottom hb l hl := by
    rw [Version.levels_setLevel, if_neg (by omega)]
    exact hp.bottom hb l hl

theorem Picked.mem_inputs (hp : c.Picked v) (hf : f ∈ c.inputs) :
    f ∈ v.levels c.level ∨ f ∈ v.levels (c.level + 1) :=
  (List.mem_append.1 hf).imp (fun h => hp.inputs0 h) fun h => hp.inputs1 h

theorem eq_of_number_eq (hv : v.Wf R) (hf : f ∈ v.levels l) (hg : g ∈ v.levels l')
    (h : f.number = g.number) : f = g := by
  obtain rfl := hv.numbers l l' f hf g hg h
  exact List.inj_on_of_nodup_map (hv.nodup l) hf hg h

/-- The files of a level that are not inputs. -/
def keepFiles (c : Compaction) (fs : List FileMetaData) : List FileMetaData :=
  fs.filter fun f => !(c.inputs.map (·.number)).contains f.number

theorem Picked.mem_keepFiles (hp : c.Picked v) (hv : v.Wf R) :
    f ∈ c.keepFiles (v.levels l) ↔ f ∈ v.levels l ∧ f ∉ c.inputs := by
  rw [keepFiles, List.mem_filter]
  refine and_congr_right fun hf => ?_
  rw [Bool.not_eq_true', ← Bool.not_eq_true, List.contains_iff_mem, not_iff_not, List.mem_map]
  constructor
  · rintro ⟨g, hg, hn⟩
    rcases hp.mem_inputs hg with hgl | hgl
    · exact eq_of_number_eq hv hgl hf hn ▸ hg
    · exact eq_of_number_eq hv hgl hf hn ▸ hg
  · exact fun hf => ⟨f, hf, rfl⟩

/-- The level the outputs go to. -/
def targetLevel (c : Compaction) (v : Version) (outputs : List FileMetaData) : List FileMetaData :=
  (c.keepFiles (v.levels (c.level + 1)) ++ outputs).insertionSort fun a b =>
    compareInternalKey a.smallest b.smallest ≠ .gt

theorem levels_install (c : Compaction) (v : Version) (outputs : List FileMetaData) (l : Nat) :
    (c.install v outputs).levels l =
      if l = c.level + 1 then c.targetLevel v outputs
      else if l = c.level then c.keepFiles (v.levels c.level) else v.levels l := rfl

theorem mem_targetLevel : f ∈ c.targetLevel v outputs ↔
    f ∈ c.keepFiles (v.levels (c.level + 1)) ∨ f ∈ outputs := by
  rw [targetLevel, List.mem_insertionSort, List.mem_append]

/-- Sorting by smallest key puts files that lie apart in key order. -/
theorem sort_before {fs : List FileMetaData} (hok : ∀ f ∈ fs, f.Ok) (hne : ∀ f ∈ fs, f.recs ≠ [])
    (hap : fs.Pairwise fun f g => Before f g ∨ Before g f) :
    (fs.insertionSort fun a b => compareInternalKey a.smallest b.smallest ≠ .gt).Pairwise
      Before := by
  have hle : ∀ a b : FileMetaData, compareInternalKey a.smallest b.smallest ≠ .gt ↔
      sortKey a.smallest ≤ sortKey b.smallest := by
    intro a b
    rw [Ne, compareInternalKey_gt, not_lt]
  have : Std.Total fun a b : FileMetaData => compareInternalKey a.smallest b.smallest ≠ .gt :=
    ⟨fun a b => by rw [hle, hle]; exact le_total _ _⟩
  have : IsTrans FileMetaData fun a b => compareInternalKey a.smallest b.smallest ≠ .gt :=
    ⟨fun a b c => by rw [hle, hle, hle]; exact le_trans⟩
  have hs := List.pairwise_insertionSort
    (fun a b : FileMetaData => compareInternalKey a.smallest b.smallest ≠ .gt) fs
  have hperm := List.perm_insertionSort
    (fun a b : FileMetaData => compareInternalKey a.smallest b.smallest ≠ .gt) fs
  have hap' := (hperm.pairwise_iff fun {a b} h => h.symm).2 hap
  refine List.Pairwise.imp_of_mem (fun {f g} hf hg ⟨hfg, hd⟩ => ?_) (hs.and hap')
  refine hd.resolve_right fun hgf => ?_
  have hf' := hperm.subset hf
  have hg' := hperm.subset hg
  obtain ⟨x, hx, hxe⟩ := (hok f hf').smallest_mem (hne f hf')
  obtain ⟨y, hy, hye⟩ := (hok g hg').smallest_mem (hne g hg')
  rw [hle, ← hxe, ← hye] at hfg
  exact absurd (Rec.pos_lt_of_userKey_lt (hgf y hy x hx)) (not_lt_of_ge hfg)

theorem Picked.output_apart (hp : c.Picked v) (hv : v.Wf R) (ho : c.OutputsOk v outputs)
    (hg : g ∈ c.keepFiles (v.levels (c.level + 1))) (hf : f ∈ outputs) :
    Before g f ∨ Before f g := by
  obtain ⟨hgl, hgi⟩ := (hp.mem_keepFiles hv).1 hg
  have hn1 : g ∉ c.inputs1 := fun h => hgi (List.mem_append.2 (.inr h))
  rcases hp.apart g hgl hn1 with h | h
  · left
    intro a ha b hb
    obtain ⟨i, hi, hbi⟩ := ho.mem_inputs f hf b hb
    exact h i hi a ha b hbi
  · right
    intro b hb a ha
    obtain ⟨i, hi, hbi⟩ := ho.mem_inputs f hf b hb
    exact h i hi b hbi a ha

theorem Picked.targetLevel_ok (hp : c.Picked v) (hv : v.Wf R) (ho : c.OutputsOk v outputs) :
    LevelOk (c.targetLevel v outputs) := by
  have hlev := hv.ok.deeper (c.level + 1) (by omega)
  have hkeep : ∀ f ∈ c.keepFiles (v.levels (c.level + 1)), f ∈ v.levels (c.level + 1) :=
    fun f hf => ((hp.mem_keepFiles hv).1 hf).1
  have hfile : ∀ f ∈ c.targetLevel v outputs, f.Ok ∧ f.recs ≠ [] := by
    intro f hf
    rcases mem_targetLevel.1 hf with hf | hf
    · exact ⟨hlev.file f (hkeep f hf), hlev.ne_nil f (hkeep f hf)⟩
    · exact ⟨ho.file f hf, ho.ne_nil f hf⟩
  have hall : ∀ f ∈ c.keepFiles (v.levels (c.level + 1)) ++ outputs, f ∈ c.targetLevel v outputs :=
    fun f hf => mem_targetLevel.2 (List.mem_append.1 hf)
  refine ⟨fun f hf => (hfile f hf).1, fun f hf => (hfile f hf).2, ?_⟩
  refine sort_before (fun f hf => (hfile f (hall f hf)).1) (fun f hf => (hfile f (hall f hf)).2) ?_
  rw [List.pairwise_append]
  refine ⟨?_, ho.order.imp .inl, fun g hg f hf => hp.output_apart hv ho hg hf⟩
  exact (hlev.disjoint.sublist List.filter_sublist).imp .inl

theorem Picked.mem_install (hp : c.Picked v) (hv : v.Wf R)
    (hf : f ∈ (c.install v outputs).levels l) :
    f ∈ v.levels l ∧ f ∉ c.inputs ∨ l = c.level + 1 ∧ f ∈ outputs := by
  rw [levels_install] at hf
  split at hf
  · rename_i hl
    rcases mem_targetLevel.1 hf with hf | hf
    · obtain ⟨h1, h2⟩ := (hp.mem_keepFiles hv).1 hf
      exact .inl ⟨hl ▸ h1, h2⟩
    · exact .inr ⟨hl, hf⟩
  · rename_i hl
    split at hf
    · rename_i hl'
      obtain ⟨h1, h2⟩ := (hp.mem_keepFiles hv).1 hf
      exact .inl ⟨hl' ▸ h1, h2⟩
    · rename_i hl'
      refine .inl ⟨hf, fun hi => ?_⟩
      rcases hp.mem_inputs hi with hi | hi
      · exact hl' (hv.numbers _ _ f hf f hi rfl)
      · exact hl (hv.numbers _ _ f hf f hi rfl)

theorem Picked.mem_install_level (hp : c.Picked v) (hv : v.Wf R)
    (hx : x ∈ levelRecs ((c.install v outputs).levels l)) :
    (∃ f ∈ v.levels l, f ∉ c.inputs ∧ x ∈ f.recs) ∨
      l = c.level + 1 ∧ ∃ f ∈ outputs, x ∈ f.recs := by
  obtain ⟨f, hf, hxf⟩ := Version.mem_levelRecs.1 hx
  rcases hp.mem_install hv hf with ⟨hf, hn⟩ | ⟨hl, hf⟩
  · exact .inl ⟨f, hf, hn, hxf⟩
  · exact .inr ⟨hl, f, hf, hxf⟩

theorem mem_install_of_keep (hv : v.Wf R) (hp : c.Picked v) (hf : f ∈ v.levels l)
    (hn : f ∉ c.inputs) :
    f ∈ (c.install v outputs).levels l := by
  rw [levels_install]
  split
  · rename_i hl
    exact mem_targetLevel.2 (.inl ((hp.mem_keepFiles hv).2 ⟨hl ▸ hf, hn⟩))
  · split
    · rename_i hl
      exact (hp.mem_keepFiles hv).2 ⟨hl ▸ hf, hn⟩
    · exact hf

/-- The records a version has outside the inputs of a compaction. -/
def restOf (v : Version) (c : Compaction) : Set Rec :=
  {x | ∃ l, ∃ f ∈ v.levels l, f ∉ c.inputs ∧ x ∈ f.recs}

def inputRecs (c : Compaction) : Set Rec := {x | ∃ f ∈ c.inputs, x ∈ f.recs}

theorem Picked.recs_eq (hp : c.Picked v) :
    {x | ∃ l, x ∈ levelRecs (v.levels l)} = c.inputRecs ∪ restOf v c := by
  ext x
  constructor
  · rintro ⟨l, hx⟩
    obtain ⟨f, hf, hxf⟩ := Version.mem_levelRecs.1 hx
    by_cases hi : f ∈ c.inputs
    · exact .inl ⟨f, hi, hxf⟩
    · exact .inr ⟨l, f, hf, hi, hxf⟩
  · rintro (⟨f, hf, hx⟩ | ⟨l, f, hf, _, hx⟩)
    · rcases hp.mem_inputs hf with hf | hf
      · exact ⟨_, Version.mem_levelRecs.2 ⟨f, hf, hx⟩⟩
      · exact ⟨_, Version.mem_levelRecs.2 ⟨f, hf, hx⟩⟩
    · exact ⟨l, Version.mem_levelRecs.2 ⟨f, hf, hx⟩⟩

theorem Picked.install_recs (hp : c.Picked v) (hv : v.Wf R) :
    {x | ∃ l, x ∈ levelRecs ((c.install v outputs).levels l)} =
      {x | ∃ f ∈ outputs, x ∈ f.recs} ∪ restOf v c := by
  ext x
  constructor
  · rintro ⟨l, hx⟩
    rcases hp.mem_install_level hv hx with ⟨f, hf, hn, hxf⟩ | ⟨_, f, hf, hxf⟩
    · exact .inr ⟨l, f, hf, hn, hxf⟩
    · exact .inl ⟨f, hf, hxf⟩
  · rintro (⟨f, hf, hx⟩ | ⟨l, f, hf, hn, hx⟩)
    · refine ⟨c.level + 1, Version.mem_levelRecs.2 ⟨f, ?_, hx⟩⟩
      rw [levels_install, if_pos rfl]
      exact mem_targetLevel.2 (.inr hf)
    · exact ⟨l, Version.mem_levelRecs.2 ⟨f, mem_install_of_keep hv hp hf hn, hx⟩⟩

theorem Picked.input_level (hp : c.Picked v) (hf : f ∈ c.inputs) (hx : x ∈ f.recs) :
    x ∈ levelRecs (v.levels c.level) ∨ x ∈ levelRecs (v.levels (c.level + 1)) :=
  (hp.mem_inputs hf).imp (fun h => Version.mem_levelRecs.2 ⟨f, h, hx⟩)
    fun h => Version.mem_levelRecs.2 ⟨f, h, hx⟩

theorem Picked.newer_rest (hp : c.Picked v) (hv : v.Wf R) (hf : f ∈ v.levels c.level)
    (hn : f ∉ c.inputs) (hx : x ∈ f.recs) (hg : g ∈ c.inputs) (hy : y ∈ g.recs) : Newer R x y := by
  rcases List.mem_append.1 hg with hg | hg
  · rcases Nat.eq_zero_or_pos c.level with h0 | hpos
    · -- files that came to L0 after the inputs were picked stand before them
      obtain ⟨later, hlater⟩ := hp.oldest0 h0
      have hlevel := hv.level0
      rw [h0, ← hlater] at hf
      rw [← hlater, List.pairwise_append] at hlevel
      have hf := (List.mem_append.1 hf).resolve_right fun h => hn (List.mem_append.2 (.inl h))
      exact (hlevel.2.2 f hf g hg).2 x hx y hy
    · have hne : f ≠ g := by
        rintro rfl
        exact hn (List.mem_append.2 (.inl hg))
      refine newer_of_userKey_ne ?_
      rcases before_or_before (hv.ok.deeper _ hpos) hf (hp.inputs0 hg) hne with h | h
      · exact (h x hx y hy).ne
      · exact (h y hy x hx).ne'
  · exact hv.deeper _ _ (Nat.lt_succ_self _) x (Version.mem_levelRecs.2 ⟨f, hf, hx⟩) y
      (Version.mem_levelRecs.2 ⟨g, hp.inputs1 hg, hy⟩)

theorem Picked.install_deeper (hp : c.Picked v) (hv : v.Wf R) (ho : c.OutputsOk v outputs)
    (hl : l < l') (hx : x ∈ levelRecs ((c.install v outputs).levels l))
    (hy : y ∈ levelRecs ((c.install v outputs).levels l')) : Newer R x y := by
  rcases hp.mem_install_level hv hx with ⟨f, hf, hfn, hxf⟩ | ⟨rfl, f, hf, hxf⟩
  · have hxl := Version.mem_levelRecs.2 ⟨f, hf, hxf⟩
    rcases hp.mem_install_level hv hy with ⟨g, hg, _, hyg⟩ | ⟨rfl, g, hg, hyg⟩
    · exact hv.deeper l l' hl x hxl y (Version.mem_levelRecs.2 ⟨g, hg, hyg⟩)
    · obtain ⟨i, hi, hyi⟩ := ho.mem_inputs g hg y hyg
      by_cases hle : l = c.level
      · subst hle
        exact hp.newer_rest hv hf hfn hxf hi hyi
      · rcases hp.input_level hi hyi with hyl | hyl
        · exact hv.deeper l c.level (by omega) x hxl y hyl
        · exact hv.deeper l _ hl x hxl y hyl
  · rcases hp.mem_install_level hv hy with ⟨g, hg, _, hyg⟩ | ⟨rfl, _⟩
    · have hyl := Version.mem_levelRecs.2 ⟨g, hg, hyg⟩
      obtain ⟨i, hi, hxi⟩ := ho.mem_inputs f hf x hxf
      rcases hp.input_level hi hxi with hxl | hxl
      · exact hv.deeper c.level l' (by omega) x hxl y hyl
      · exact hv.deeper _ l' hl x hxl y hyl
    · omega

theorem Picked.mem_install_file (hp : c.Picked v) (hv : v.Wf R)
    (hf : f ∈ (c.install v outputs).levels l) : f ∈ v.levels l ∨ l = c.level + 1 ∧ f ∈ outputs := by
  rw [levels_install] at hf
  split at hf
  · rename_i hl
    rcases mem_targetLevel.1 hf with hf | hf
    · exact .inl (hl ▸ ((hp.mem_keepFiles hv).1 hf).1)
    · exact .inr ⟨hl, hf⟩
  · split at hf
    · rename_i hl
      exact .inl (hl ▸ ((hp.mem_keepFiles hv).1 hf).1)
    · exact .inl hf

/-- Installing the outputs keeps the version in order. -/
theorem Picked.install_wf (hp : c.Picked v) (hv : v.Wf R) (ho : c.OutputsOk v outputs) :
    (c.install v outputs).Wf R where
  ok := by
    refine ⟨fun f hf => ?_, fun l hl => ?_, fun l hl => ?_⟩
    · rcases hp.mem_install_file hv hf with hf | ⟨h, _⟩
      · exact hv.ok.level0 f hf
      · omega
    · rw [levels_install]
      split
      · exact hp.targetLevel_ok hv ho
      · split
        · rename_i hle
          have hlev := hv.ok.deeper l hl
          rw [← hle]
          refine ⟨fun f hf => ?_, fun f hf => ?_, hlev.disjoint.sublist List.filter_sublist⟩
          · exact hlev.file f (List.mem_filter.1 hf).1
          · exact hlev.ne_nil f (List.mem_filter.1 hf).1
        · exact hv.ok.deeper l hl
    · have hlt := hp.level_lt
      rw [levels_install, if_neg (by omega), if_neg (by omega)]
      exact hv.ok.empty l hl
  recOk l x hx := by
    rcases hp.mem_install_level hv hx with ⟨f, hf, _, hxf⟩ | ⟨_, f, hf, hxf⟩
    · exact hv.recOk l x (Version.mem_levelRecs.2 ⟨f, hf, hxf⟩)
    · obtain ⟨i, hi, hxi⟩ := ho.mem_inputs f hf x hxf
      rcases hp.input_level hi hxi with h | h
      · exact hv.recOk _ x h
      · exact hv.recOk _ x h
  level0 := by
    rw [levels_install, if_neg (by omega)]
    split
    · rename_i h0
      rw [← h0]
      exact hv.level0.sublist List.filter_sublist
    · exact hv.level0
  deeper := fun l l' hl x hx y hy => hp.install_deeper hv ho hl hx hy
  numbers l l' f hf g hg hfg := by
    rcases hp.mem_install_file hv hf with hfl | ⟨rfl, hfo⟩ <;>
      rcases hp.mem_install_file hv hg with hgl | ⟨rfl, hgo⟩
    · exact hv.numbers l l' f hfl g hgl hfg
    · exact absurd hfg (ho.number_ne g hgo l f hfl)
    · exact absurd hfg.symm (ho.number_ne f hfo l' g hgl)
    · rfl
  nodup l := by
    rw [levels_install]
    split
    · have hperm := (List.perm_insertionSort (fun a b : FileMetaData =>
        compareInternalKey a.smallest b.smallest ≠ .gt)
        (c.keepFiles (v.levels (c.level + 1)) ++ outputs)).map FileMetaData.number
      rw [targetLevel, hperm.nodup_iff, List.map_append, List.nodup_append]
      refine ⟨(hv.nodup _).sublist (List.filter_sublist.map _), ho.nodup, ?_⟩
      intro a ha b hb hab
      obtain ⟨g, hg, rfl⟩ := List.mem_map.1 ha
      obtain ⟨f, hf, rfl⟩ := List.mem_map.1 hb
      exact ho.number_ne f hf _ g (List.mem_filter.1 hg).1 hab
    · split
      · exact (hv.nodup _).sublist (List.filter_sublist.map _)
      · exact hv.nodup l

theorem Picked.rest_newer (hp : c.Picked v) (hv : v.Wf R) (hb : c.bottomMost = true)
    (hx : x ∈ c.inputRecs) (hy : y ∈ restOf v c) (hk : y.userKey = x.userKey) : x.seq ≤ y.seq := by
  obtain ⟨f, hf, hxf⟩ := hx
  obtain ⟨l, g, hg, hgn, hyg⟩ := hy
  have hyl := Version.mem_levelRecs.2 ⟨g, hg, hyg⟩
  have hlt : l < c.level + 2 := by
    by_contra hc
    rw [hp.bottom hb l (not_lt.1 hc)] at hg
    cases hg
  by_cases h1 : l = c.level + 1
  · subst h1
    have hn1 : g ∉ c.inputs1 := fun h => hgn (List.mem_append.2 (.inr h))
    rcases hp.apart g hg hn1 with h | h
    · exact absurd hk (h f hf y hyg x hxf).ne
    · exact absurd hk (h f hf x hxf y hyg).ne'
  · by_cases h0 : l = c.level
    · subst h0
      exact (hp.newer_rest hv hg hgn hyg hf hxf).1 hk.symm
    · rcases hp.input_level hf hxf with hxl | hxl
      · exact (hv.deeper l c.level (by omega) y hyl x hxl).1 hk.symm
      · exact (hv.deeper l _ (by omega) y hyl x hxl).1 hk.symm

end Compaction

theorem Db.inputs0_sublist (db : Db) (level : Nat) :
    List.Sublist (if level = 0 then db.current.levels 0 else (db.chooseFile level).toList)
      (db.current.levels level) := by
  split
  · rename_i h0
    rw [h0]
  · cases hc : db.chooseFile level with
    | none => exact List.nil_sublist _
    | some f =>
      refine List.singleton_sublist.2 ?_
      rw [chooseFile] at hc
      rcases Option.or_eq_some_iff.1 hc with hf | ⟨_, hf⟩
      · exact List.mem_of_find?_eq_some hf
      · exact List.mem_of_mem_head? hf

theorem Db.beginCompaction_picked {db db' : Db} (hv : db.current.Wf R)
    (hl : level + 1 < kNumLevels) (h : db.beginCompaction level = some (db', c)) :
    c.Picked db.current ∧ c.smallestSnapshot = db.smallestSnapshot ∧
      db' = { db with compactPointer := db'.compactPointer } := by
  rw [beginCompaction] at h
  have hsub := db.inputs0_sublist level
  have hall : level = 0 →
      (if level = 0 then db.current.levels 0 else (db.chooseFile level).toList) <:+
        db.current.levels 0 := by
    intro h0
    rw [if_pos h0]
  simp only at h
  split at h
  · cases h
  · rename_i f rest hf
    cases h
    exact ⟨Compaction.picked_of_ranges hv hl hsub hall rfl rfl, rfl, rfl⟩

end LsmKv
