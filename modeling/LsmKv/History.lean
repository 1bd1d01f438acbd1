import LsmKv.MemTable
import LsmKv.Wal

namespace LsmKv
set_option autoImplicit true

open Versioned
open Wal (Group)

/-- The records of a batch whose first entry has sequence number `seq`. -/
def numberRecs (seq : Nat) : List BatchEntry → List Rec
  | [] => []
  | e :: es => Rec.encode e.key seq e.type e.value :: numberRecs (seq + 1) es

def Wal.Entry.toRec (e : Wal.Entry) : Rec := Rec.encode e.key e.seq e.type e.value

def Wal.Group.recs (g : Group) : List Rec := numberRecs g.base g.entries

def recsOf (gs : List Group) : List Rec := gs.flatMap Group.recs

/-- A later record has a larger sequence number. -/
def SeqAsc (l : List Rec) : Prop := l.Pairwise fun a b => a.seq < b.seq

theorem SeqAsc.distinct (h : SeqAsc l) : Distinct {r | r ∈ l} := by
  intro x hx y hy _ hs
  have hasc : Ascending Rec.seq l := h
  exact hasc.inj hx hy hs

theorem seqAsc_append : SeqAsc (l ++ m) ↔ SeqAsc l ∧ SeqAsc m ∧ ∀ a ∈ l, ∀ b ∈ m, a.seq < b.seq :=
  List.pairwise_append

theorem SeqAsc.above (h : SeqAsc (l ++ m)) : Above {r | r ∈ m} {r | r ∈ l} :=
  fun x hx y hy => (seqAsc_append.1 h).2.2 y hy x hx

@[simp] theorem length_numberRecs (seq : Nat) (es : List BatchEntry) :
    (numberRecs seq es).length = es.length := by
  induction es generalizing seq with
  | nil => rfl
  | cons e es ih => simp [numberRecs, ih]

theorem numberRecs_append (seq : Nat) (es fs : List BatchEntry) :
    numberRecs seq (es ++ fs) = numberRecs seq es ++ numberRecs (seq + es.length) fs := by
  induction es generalizing seq with
  | nil => rfl
  | cons e es ih =>
    rw [List.cons_append, numberRecs, ih, numberRecs, List.cons_append, List.length_cons,
      Nat.add_right_comm, Nat.add_assoc]

theorem take_numberRecs (n seq : Nat) (es : List BatchEntry) :
    (numberRecs seq es).take n = numberRecs seq (es.take n) := by
  induction es generalizing n seq with
  | nil => simp [numberRecs]
  | cons e es ih =>
    cases n with
    | zero => rfl
    | succ n => simp [numberRecs, ih]

theorem mem_numberRecs (hb : n + es.length ≤ kMaxSequenceNumber + 1) (hr : r ∈ numberRecs n es) :
    r.Ok ∧ n ≤ r.seq ∧ r.seq < n + es.length := by
  induction es generalizing n with
  | nil => cases hr
  | cons e es ih =>
    rw [List.length_cons] at hb ⊢
    rcases List.mem_cons.1 hr with rfl | hr
    · have hs : n ≤ kMaxSequenceNumber := by omega
      refine ⟨Rec.encode_ok hs, ?_⟩
      rw [Rec.encode_seq hs]
      omega
    · obtain ⟨h1, h2, h3⟩ := ih (by omega) hr
      exact ⟨h1, by omega, by omega⟩

theorem seqAsc_numberRecs (hb : n + es.length ≤ kMaxSequenceNumber + 1) :
    SeqAsc (numberRecs n es) := by
  induction es generalizing n with
  | nil => exact .nil
  | cons e es ih =>
    rw [List.length_cons] at hb
    refine List.pairwise_cons.2 ⟨fun r hr => ?_, ih (by omega)⟩
    rw [Rec.encode_seq (by omega)]
    have := (mem_numberRecs (by omega) hr).2.1
    omega

theorem map_toRec_number (hb : n + es.length ≤ kMaxSequenceNumber + 1) :
    (Wal.number n es).map Wal.Entry.toRec = numberRecs n es := by
  induction es generalizing n with
  | nil => rfl
  | cons e es ih =>
    rw [List.length_cons] at hb
    have hm : n % 2 ^ 64 = n := Nat.mod_eq_of_lt (by simp only [kMaxSequenceNumber] at hb; omega)
    rw [Wal.number, List.map_cons, ih (by omega), numberRecs, hm]
    rfl

/-- Groups that fit their fields, with increasing sequence numbers. -/
structure HistOk (gs : List Group) : Prop where
  fits : ∀ g ∈ gs, g.Fits
  bound : ∀ g ∈ gs, g.base + g.entries.length ≤ kMaxSequenceNumber + 1
  order : gs.Pairwise fun g h => g.base + g.entries.length ≤ h.base

theorem HistOk.nil : HistOk [] := ⟨by simp, by simp, .nil⟩

theorem HistOk.sublist (h : HistOk gs) (hs : List.Sublist hs' gs) : HistOk hs' :=
  ⟨fun g hg => h.fits g (hs.subset hg), fun g hg => h.bound g (hs.subset hg), h.order.sublist hs⟩

theorem HistOk.mem_recsOf (h : HistOk gs) (hr : r ∈ recsOf gs) :
    ∃ g ∈ gs, r.Ok ∧ g.base ≤ r.seq ∧ r.seq < g.base + g.entries.length := by
  obtain ⟨g, hg, hrg⟩ := List.mem_flatMap.1 hr
  exact ⟨g, hg, mem_numberRecs (h.bound g hg) hrg⟩

theorem HistOk.ok (h : HistOk gs) (hr : r ∈ recsOf gs) : r.Ok := by
  obtain ⟨_, _, hok, _⟩ := h.mem_recsOf hr
  exact hok

theorem HistOk.seqAsc (h : HistOk gs) : SeqAsc (recsOf gs) := by
  induction gs with
  | nil => exact .nil
  | cons g gs ih =>
    have ht := h.sublist (List.sublist_cons_self g gs)
    rw [recsOf, List.flatMap_cons]
    refine seqAsc_append.2 ⟨seqAsc_numberRecs (h.bound g List.mem_cons_self), ih ht, ?_⟩
    intro a ha b hb
    have h1 := (mem_numberRecs (h.bound g List.mem_cons_self) ha).2.2
    obtain ⟨g', hg', _, h2, _⟩ := ht.mem_recsOf hb
    have h3 := (List.pairwise_cons.1 h.order).1 g' hg'
    omega

theorem recsOf_append (gs hs : List Group) : recsOf (gs ++ hs) = recsOf gs ++ recsOf hs :=
  List.flatMap_append

@[simp] theorem recsOf_nil : recsOf [] = [] := rfl

@[simp] theorem recsOf_singleton (g : Group) : recsOf [g] = g.recs := by simp [recsOf]

theorem HistOk.snoc (h : HistOk gs) (hg : g.Fits)
    (hb : g.base + g.entries.length ≤ kMaxSequenceNumber + 1)
    (ha : ∀ x ∈ gs, x.base + x.entries.length ≤ g.base) : HistOk (gs ++ [g]) where
  fits x hx := by
    rcases List.mem_append.1 hx with hx | hx
    · exact h.fits x hx
    · exact List.mem_singleton.1 hx ▸ hg
  bound x hx := by
    rcases List.mem_append.1 hx with hx | hx
    · exact h.bound x hx
    · exact List.mem_singleton.1 hx ▸ hb
  order := List.pairwise_append.2 ⟨h.order, List.pairwise_singleton _ _, fun x hx y hy =>
    List.mem_singleton.1 hy ▸ ha x hx⟩

theorem HistOk.numbered_recs (h : HistOk gs) :
    (gs.flatMap Group.numbered).map Wal.Entry.toRec = recsOf gs := by
  rw [List.map_flatMap, recsOf]
  refine List.flatMap_congr fun g hg => ?_
  exact map_toRec_number (h.bound g hg)

/-- Adds entries in the order of a list. -/
def MemTable.addAll (m : MemTable) (es : List Wal.Entry) : MemTable :=
  es.foldl (fun m e => m.add e.seq e.type e.key e.value) m

theorem Rec.seq_eq_of_pos {x y : Rec} (h : x.pos = y.pos) : x.seq = y.seq := by
  show extractTag x.1 >>> 8 = extractTag y.1 >>> 8
  rw [(sortKey_eq_iff.1 h).2]

/-- A memtable lists what was added to it, in the order of the store. -/
theorem MemTable.recs_addAll {m : MemTable} {es : List Wal.Entry} (ha : Ascending Rec.pos m.recs)
    (hfit : ∀ e ∈ es, e.key.length + e.value.length + 16 < 2 ^ 32)
    (hd : es.Pairwise fun a b => a.toRec.pos ≠ b.toRec.pos)
    (hne : ∀ x ∈ m.recs, ∀ e ∈ es, x.pos ≠ e.toRec.pos) :
    Ascending Rec.pos (m.addAll es).recs ∧
      ∀ r, r ∈ (m.addAll es).recs ↔ r ∈ m.recs ∨ r ∈ es.map Wal.Entry.toRec := by
  induction es generalizing m with
  | nil => exact ⟨ha, by simp [addAll]⟩
  | cons e es ih =>
    have hrecs : (m.add e.seq e.type e.key e.value).recs = insertRun Rec.pos e.toRec m.recs :=
      recs_add m e.seq e.type (hfit e List.mem_cons_self)
    obtain ⟨hhead, htail⟩ := List.pairwise_cons.1 hd
    have hasc : Ascending Rec.pos (m.add e.seq e.type e.key e.value).recs := by
      rw [hrecs]
      exact ha.insertRun fun x hx => hne x hx e List.mem_cons_self
    have hrest : ∀ x ∈ (m.add e.seq e.type e.key e.value).recs, ∀ e' ∈ es,
        x.pos ≠ e'.toRec.pos := by
      intro x hx e' he'
      rw [hrecs, mem_insertRun] at hx
      rcases hx with rfl | hx
      · exact hhead e' he'
      · exact hne x hx e' (List.mem_cons_of_mem e he')
    obtain ⟨h1, h2⟩ := ih hasc (fun e' he' => hfit e' (List.mem_cons_of_mem e he')) htail hrest
    refine ⟨h1, fun r => ?_⟩
    rw [addAll, List.foldl_cons, ← addAll, h2, hrecs, mem_insertRun, List.map_cons, List.mem_cons]
    tauto

end LsmKv
