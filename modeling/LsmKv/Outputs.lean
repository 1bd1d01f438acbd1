import LsmKv.History
import LsmKv.Levels
import LsmKv.Machine

namespace LsmKv
set_option autoImplicit true

open Versioned

variable {T : Table → Prop} {M : Nat → MemTable}

/-- The finished builder of a table that holds `es`. -/
def built (options : Options) (es : List Rec) : TableBuilder :=
  ((TableBuilder.new options).addAll es).finish

theorem built_file (options : Options) (es : List Rec) :
    (built options es).file = tableFile options es := rfl

/-- The file of a table that holds `es` is there. -/
def SstHolds (fs : DbFs) (number : Nat) (es : List Rec) : Prop :=
  ∃ options, TableFits options es ∧ fs.read (.sst number) = some (tableFile options es)

theorem SstHolds.openTable (h : SstHolds fs number es) (ha : Ascending Rec.pos es) (dir : String)
    (options : Options) : ∃ t, openTable dir options fs number = .ok t ∧ t.number = number ∧
      t.Good ∧ t.recs = es := by
  obtain ⟨o, hfit, hr⟩ := h
  rw [LsmKv.openTable, hr]
  exact openFile_good (tablePath dir number) number options hfit ha

theorem metaOf_ok (options : Options) {t : Table} (hn : t.number = number) (hg : t.Good)
    (hr : t.recs = es) : (Sys.metaOf number (built options es) t).Ok := by
  obtain ⟨hs, hl⟩ := TableBuilder.finish_keys options es
  refine ⟨hg, hn, ?_, ?_⟩
  · rw [show (Sys.metaOf number (built options es) t).table.recs = es from hr]
    exact hs
  · rw [show (Sys.metaOf number (built options es) t).table.recs = es from hr]
    exact hl

namespace Compaction

/-- The records a compaction goes through, in order. -/
def merged (c : Compaction) : List Rec :=
  mergeRuns Rec.pos (c.inputs.map FileMetaData.recs)

theorem mem_merged {c : Compaction} : x ∈ c.merged ↔ x ∈ c.inputRecs := by
  rw [merged, (mergeRuns_perm Rec.pos _).mem_iff, List.mem_flatten]
  constructor
  · rintro ⟨_, hl, hx⟩
    obtain ⟨f, hf, rfl⟩ := List.mem_map.1 hl
    exact ⟨f, hf, hx⟩
  · rintro ⟨f, hf, hx⟩
    exact ⟨_, List.mem_map_of_mem hf, hx⟩

theorem drainMerged_ensures (hT : TablesOk T) {it : MergingIterator Iter}
    (h : it.Rest (Iter.Stands T M) l) (hf : l.length < fuel) :
    Ensures (Store.Serves T M) (drainMerged fuel it) (· = (l, .ok)) := by
  induction fuel generalizing it l with
  | zero => omega
  | succ fuel ih =>
    rw [drainMerged]
    cases l with
    | nil =>
      have hv : it.valid = false := by
        rw [← Bool.not_eq_true, h.valid_iff (Iter.walks hT)]
        simp
      rw [hv, h.status (Iter.walks hT)]
      exact Ensures.pure rfl
    | cons r l =>
      have hv : it.valid = true := (h.valid_iff (Iter.walks hT)).2 (by simp)
      obtain ⟨hk, hval⟩ := h.head (Iter.walks hT)
      rw [hv, if_pos rfl, hk, hval]
      refine (h.next (Iter.walks hT)).bind fun it' ⟨_, hr⟩ => ?_
      refine (ih hr (by simp only [List.length_cons] at hf; omega)).bind fun p hp => ?_
      subst hp
      exact Ensures.pure rfl

/-- The merge yields the records of the inputs in order, without an error. -/
theorem merge_ensures {c : Compaction} (hT : TablesOk T) (ht : ∀ f ∈ c.inputs, T f.table)
    (hg : ∀ f ∈ c.inputs, f.table.Good) :
    Ensures (Store.Serves T M) c.merge (· = (c.merged, .ok)) := by
  set it : MergingIterator Iter :=
    { children := c.inputs.map fun f => Iter.table { table := f.table } } with hit
  have hall : it.all M = c.merged := by
    simp only [MergingIterator.all, hit, merged, List.map_map, Function.comp_def, Iter.source,
      Source.recs]
    rfl
  have hgood : ∀ i ∈ it.children, i.source.Good T M := by
    intro i hi
    obtain ⟨f, hf, rfl⟩ := List.mem_map.1 hi
    exact ⟨ht f hf, hg f hf⟩
  have hready : ∀ i ∈ it.children, i.Ready := by
    intro i hi
    obtain ⟨f, _, rfl⟩ := List.mem_map.1 hi
    exact ⟨rfl, fun _ he => (by cases he)⟩
  have hseek := MergingIterator.rest_seekToFirst (Iter.walks hT) fun i hi =>
    ⟨hgood i hi, hready i hi⟩
  refine hseek.bind fun it' hit' => ?_
  obtain ⟨_, hr⟩ := hit'
  refine Ensures.get_bind fun s hs => ?_
  have hr : it'.Rest (Iter.Stands T M) c.merged := hall ▸ hr
  exact drainMerged_ensures hT hr (Nat.lt_succ_of_le (hr.length_le_bound hs))

theorem sortedRecs_merged {c : Compaction} (hok : ∀ x ∈ c.inputRecs, x.Ok)
    (hd : Distinct c.inputRecs) : SortedRecs c.merged where
  sorted := sorted_mergeRuns _ _
  ok := fun x hx => hok x (mem_merged.1 hx)
  distinct := hd.mono fun _ hx => mem_merged.1 hx

variable {v : Version} {R : Nat} {c : Compaction}

theorem newer_of_before (h : Before f g) : ∀ x ∈ f.recs, ∀ y ∈ g.recs, Newer R x y :=
  fun x hx y hy => newer_of_userKey_ne (h x hx y hy).ne

theorem Picked.newer_inputs (hp : c.Picked v) (hv : v.Wf R) :
    c.inputs.Pairwise fun f g => ∀ x ∈ f.recs, ∀ y ∈ g.recs, Newer R x y := by
  rw [inputs, List.pairwise_append]
  refine ⟨?_, ?_, fun f hf g hg x hx y hy => ?_⟩
  · rcases Nat.eq_zero_or_pos c.level with h0 | hpos
    · have hs := hp.sorted0
      rw [h0] at hs
      exact (hv.level0.sublist hs).imp fun h => h.2
    · exact ((hv.ok.deeper _ hpos).disjoint.sublist hp.sorted0).imp newer_of_before
  · exact ((hv.ok.deeper _ (by omega)).disjoint.sublist hp.sorted1).imp newer_of_before
  · exact hv.deeper _ _ (Nat.lt_succ_self _) x (Version.mem_levelRecs.2 ⟨f, hp.inputs0 hf, hx⟩) y
      (Version.mem_levelRecs.2 ⟨g, hp.inputs1 hg, hy⟩)

theorem Picked.input_ok (hp : c.Picked v) (hv : v.Wf R) (hf : f ∈ c.inputs) : f.Ok := by
  rcases hp.mem_inputs hf with h | h
  · exact hv.file_ok h
  · exact hv.file_ok h

theorem Picked.inputRecs_ok (hp : c.Picked v) (hv : v.Wf R) : ∀ x ∈ c.inputRecs, x.Ok := by
  rintro x ⟨f, hf, hx⟩
  rcases hp.input_level hf hx with h | h
  · exact hv.recOk _ x h
  · exact hv.recOk _ x h

theorem Picked.merged_copies (hp : c.Picked v) (hv : v.Wf R) (hd : Distinct c.inputRecs)
    (hR : R ≤ S) : c.merged.Pairwise fun a b => a.pos = b.pos → a.seq ≤ S := by
  have hsymm : ∀ {a b : Rec}, (a.pos = b.pos → a.seq ≤ S) → b.pos = a.pos → b.seq ≤ S := by
    intro a b h he
    have hs : b.seq = a.seq := by
      show extractTag b.1 >>> 8 = extractTag a.1 >>> 8
      rw [(sortKey_eq_iff.1 he).2]
    rw [hs]
    exact h he.symm
  rw [merged, (mergeRuns_perm Rec.pos _).pairwise_iff hsymm, List.pairwise_flatten]
  constructor
  · intro l hl
    obtain ⟨f, hf, rfl⟩ := List.mem_map.1 hl
    exact (hp.input_ok hv hf).good.ascending.imp fun h he => absurd he h.ne
  · rw [List.pairwise_map]
    refine List.Pairwise.imp_of_mem (fun {f g} hf hg h x hx y hy he => ?_) (hp.newer_inputs hv)
    have hxy := Db.Capture.eq_of_pos_eq hd ⟨f, hf, hx⟩ ⟨g, hg, hy⟩ he
    exact ((h x hx y hy).2 hxy).trans hR

theorem Picked.kept_ascending (hp : c.Picked v) (hv : v.Wf R) (hd : Distinct c.inputRecs)
    (hR : R ≤ S) (gc : Bool) : Ascending Rec.pos (keepFrom gc S {} c.merged) := by
  have hs := sortedRecs_merged (hp.inputRecs_ok hv) hd
  by_cases hS : S < kMaxSequenceNumber
  · exact keepFrom_ascending hs (hp.merged_copies hv hd hR) (KeyScan.before_start _) hS
  · rw [keepFrom_eq_nil (not_lt.1 hS) hs.ok (not_lt.1 hS)]
    exact .nil

theorem Picked.exists_outputs (hp : c.Picked v) (hv : v.Wf R) (hd : Distinct c.inputRecs)
    (hR : R ≤ S) (options : Options) (gc : Bool) :
    ∃ outs : List (List Rec), compactLoop options gc S {} none c.merged = outs.map (built options) ∧
      outs.flatten = keepFrom gc S {} c.merged ∧ (∀ es ∈ outs, es ≠ [] ∧ Ascending Rec.pos es) ∧
      outs.Pairwise fun es fs => ∀ a ∈ es, ∀ b ∈ fs, a.userKey < b.userKey := by
  have hs := sortedRecs_merged (hp.inputRecs_ok hv) hd
  have hnil : ∀ a ∈ ([] : List Rec), ∃ k, KeyScan.lastUserKey {} = some k ∧ a.userKey ≤ k := by
    simp
  obtain ⟨outs, hm, hf, hne, hpair⟩ :
      ∃ outs, compactLoop options gc S {} (openBuilder options []) c.merged = _ ∧ _ :=
    compactLoop_eq options hs (KeyScan.before_start _) hnil
  have hasc := hp.kept_ascending hv hd hR gc
  rw [openBuilder_nil] at hm
  rw [List.nil_append] at hf
  refine ⟨outs, hm, hf, fun es hes => ⟨hne es hes, ?_⟩, hpair⟩
  exact (hf ▸ hasc).sublist (List.sublist_flatten_of_mem hes)

end Compaction

/-- `outs` are the runs of the tables a compaction writes. -/
structure Planned (c : Compaction) (outs : List (List Rec)) : Prop where
  flatten : outs.flatten = keepFrom c.bottomMost c.smallestSnapshot {} c.merged
  run : ∀ es ∈ outs, es ≠ [] ∧ Ascending Rec.pos es
  order : outs.Pairwise fun es fs => ∀ a ∈ es, ∀ b ∈ fs, a.userKey < b.userKey

section Planned
variable {v : Version} {R : Nat} {c : Compaction} {outputs : List FileMetaData}

theorem Planned.mem_inputs (hp : Planned c outs) (hx : x ∈ outs.flatten) : x ∈ c.inputRecs := by
  rw [hp.flatten] at hx
  exact Compaction.mem_merged.1 ((keepFrom_sublist _ _ _ _).subset hx)

theorem mem_flatten_recs :
    x ∈ (outputs.map FileMetaData.recs).flatten ↔ ∃ f ∈ outputs, x ∈ f.recs := by
  simp only [List.mem_flatten, List.mem_map, exists_exists_and_eq_and]

theorem Planned.outputsOk (hp : Planned c (outputs.map FileMetaData.recs))
    (hok : ∀ f ∈ outputs, f.Ok) (hne : ∀ f ∈ outputs, ∀ l, ∀ g ∈ v.levels l, g.number ≠ f.number)
    (hd : (outputs.map FileMetaData.number).Nodup) : c.OutputsOk v outputs where
  file := hok
  ne_nil f hf := (hp.run f.recs (List.mem_map_of_mem hf)).1
  order := by
    have h := hp.order
    rw [List.pairwise_map] at h
    exact h
  mem_inputs f hf x hx := hp.mem_inputs (mem_flatten_recs.2 ⟨f, hf, hx⟩)
  number_ne := hne
  nodup := hd

/-- What the compaction dropped is invisible. -/
theorem Planned.install_agree (hp : Planned c (outputs.map FileMetaData.recs)) (hc : c.Picked v)
    (hv : v.Wf R) (hd : Distinct c.inputRecs) (hS : c.smallestSnapshot < kMaxSequenceNumber) :
    Agree c.smallestSnapshot v.content (c.install v outputs).content := by
  have hsorted := Compaction.sortedRecs_merged (hc.inputRecs_ok hv) hd
  have hmerged : {x | x ∈ c.merged} = c.inputRecs := Set.ext fun x => Compaction.mem_merged
  have hout : {x | ∃ f ∈ outputs, x ∈ f.recs} =
      Retained (c.bottomMost = true) c.smallestSnapshot c.inputRecs := by
    rw [← hmerged, ← keepFrom_eq_retained hS hsorted, ← hp.flatten]
    exact Set.ext fun x => mem_flatten_recs.symm
  have hnew : (c.install v outputs).content =
      Retained (c.bottomMost = true) c.smallestSnapshot c.inputRecs ∪ Compaction.restOf v c := by
    rw [← hout]
    exact hc.install_recs hv
  have hold : v.content = c.inputRecs ∪ Compaction.restOf v c := hc.recs_eq
  rw [hnew, hold]
  apply agree_retained
  intro hb x hx y hy hk
  exact hc.rest_newer hv hb hx hy hk

end Planned

end LsmKv
