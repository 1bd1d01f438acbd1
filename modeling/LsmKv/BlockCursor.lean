import LsmKv.BlockLayout

namespace LsmKv
set_option autoImplicit true

/-- The calls that move a cursor. -/
inductive CursorCall where
  | seekToFirst
  | seek (target : Bytes)
  | next

namespace BlockReader
open BlockBuilder

/-- The restart array of a block: the first entry, then the points where a run begins. -/
def restartPoints (n : Nat) (es : List Rec) : List (Nat × List Rec) :=
  (0, es) :: points n 0 0 [] es

/-- `r` reads, from wherever it stands, the block built from `es` at restart interval `n`. -/
structure Reads (n : Nat) (es : List Rec) (r : BlockReader) : Prop where
  interval : 0 < n
  live : r.rejected = false
  ok : r.status = .ok
  size : r.entriesSize = (body n n [] es).length
  size_lt : r.entriesSize < 2 ^ 32
  entries : r.contents.take r.entriesSize = body n n [] es
  keys : ∀ e ∈ es, e.1.length < 2 ^ 32
  numRestarts : r.numRestarts = (restartPoints n es).length
  offset : ∀ j p, (restartPoints n es)[j]? = some p → r.restartOffset j = p.1

/-- The reader stands on the first of the entries `l`, or past the end when there is none. -/
def At (n : Nat) (r : BlockReader) : List Rec → Prop
  | [] => r.valid = false
  | e :: rest => r.valid = true ∧ r.key = e.1 ∧ r.value = e.2 ∧
      ∃ since, r.region r.next = body n since e.1 rest ∧
        r.next + (body n since e.1 rest).length = r.entriesSize

variable {n : Nat} {es l : List Rec} {r : BlockReader}

theorem restartPoints_spec (hn : 0 < n) (h : p ∈ restartPoints n es) :
    p.2 <:+ es ∧ (body n n [] es).drop p.1 = body n n [] p.2 := by
  rcases List.mem_cons.1 h with rfl | h
  · exact ⟨List.suffix_refl es, by simp⟩
  · obtain ⟨_, _, hs, hb⟩ := points_spec h
    rw [body_start hn, Nat.sub_zero] at hb
    exact ⟨hs, hb⟩

theorem points_le (hn : 0 < n) (h : p ∈ points n 0 0 [] es) : p.1 ≤ (body n n [] es).length := by
  obtain ⟨_, hne, _, hd⟩ := points_spec h
  rw [body_start hn, Nat.sub_zero] at hd
  by_contra hc
  rw [List.drop_of_length_le (by omega)] at hd
  cases hp2 : p.2 with
  | nil => exact hne hp2
  | cons e rest =>
    have hpos := encodeEntry_length_pos (sharedAt n n [] e.1) e.1 e.2
    rw [hp2, body] at hd
    have hz := congrArg List.length hd
    rw [List.length_append, List.length_nil] at hz
    omega

theorem Reads.parse (h : Reads n es r) (hl : ∀ e ∈ l, e ∈ es)
    (hreg : r.region off = body n since last l)
    (hoff : off + (body n since last l).length = r.entriesSize)
    (hkey : r.key = last ∨ n ≤ since) :
    Reads n es (r.parseEntryAt off) ∧ At n (r.parseEntryAt off) l := by
  cases l with
  | nil =>
    have he : r.parseEntryAt off = { r with valid := false } := by
      rw [parseEntryAt, if_pos]
      simp only [body, List.length_nil] at hoff
      omega
    rw [he]
    exact ⟨⟨h.interval, h.live, h.ok, h.size, h.size_lt, h.entries, h.keys, h.numRestarts,
      h.offset⟩, rfl⟩
  | cons e rest =>
    rw [body] at hreg hoff
    have hkl := h.keys e (hl e List.mem_cons_self)
    have hshared : sharedAt n since last e.1 ≤ e.1.length ∧
        sharedAt n since last e.1 ≤ r.key.length ∧
        r.key.take (sharedAt n since last e.1) = e.1.take (sharedAt n since last e.1) := by
      rw [sharedAt]
      split
      · rename_i hs
        have hk : r.key = last := hkey.resolve_right (by omega)
        rw [hk]
        exact ⟨sharedLength_le_right _ _, sharedLength_le_left _ _, take_sharedLength _ _⟩
      · exact ⟨Nat.zero_le _, Nat.zero_le _, by simp⟩
    have he := parseEntryAt_entry hreg hoff h.size_lt hshared.1 hshared.2.1 hshared.2.2 hkl
    rw [he]
    refine ⟨⟨h.interval, h.live, h.ok, h.size, h.size_lt, h.entries, h.keys, h.numRestarts,
      h.offset⟩, rfl, rfl, rfl, sinceNext n since, ?_, ?_⟩
    · show r.region (off + _) = _
      have hd : r.region (off + (encodeEntry (sharedAt n since last e.1) e.1 e.2).length) =
          (r.region off).drop (encodeEntry (sharedAt n since last e.1) e.1 e.2).length := by
        simp only [region, List.drop_drop]
      rw [hd, hreg, List.drop_left']
      rfl
    · rw [List.length_append] at hoff
      show off + _ + _ = r.entriesSize
      omega

theorem Reads.seekToRestart (h : Reads n es r) (hp : (restartPoints n es)[j]? = some p) :
    Reads n es (r.seekToRestart j) ∧ At n (r.seekToRestart j) p.2 := by
  obtain ⟨hs, hb⟩ := restartPoints_spec h.interval (List.mem_of_getElem? hp)
  have hclear : Reads n es { r with key := [] } :=
    ⟨h.interval, h.live, h.ok, h.size, h.size_lt, h.entries, h.keys, h.numRestarts, h.offset⟩
  have hreg : r.region p.1 = body n n [] p.2 := by rw [region, h.entries, hb]
  rw [BlockReader.seekToRestart, h.offset j p hp]
  refine hclear.parse (fun e he => hs.subset he) hreg ?_ (.inr (le_refl n))
  have hlen := congrArg List.length hb
  rw [List.length_drop, ← h.size] at hlen
  show p.1 + _ = r.entriesSize
  have hle : p.1 ≤ r.entriesSize := by
    rcases List.mem_cons.1 (List.mem_of_getElem? hp) with rfl | hm
    · exact Nat.zero_le _
    · rw [h.size]
      exact points_le h.interval hm
  omega

theorem Reads.seekToFirst (h : Reads n es r) :
    Reads n es r.seekToFirst ∧ At n r.seekToFirst es := by
  rw [BlockReader.seekToFirst, h.live]
  exact h.seekToRestart (j := 0) rfl

theorem Reads.advance (h : Reads n es r) (hl : ∀ e ∈ l, e ∈ es) (ha : At n r l) :
    Reads n es r.advance ∧ At n r.advance l.tail := by
  cases l with
  | nil =>
    have hv : r.valid = false := ha
    rw [BlockReader.advance, hv]
    exact ⟨h, hv⟩
  | cons e rest =>
    obtain ⟨hv, hk, _, since, hreg, hoff⟩ := ha
    rw [BlockReader.advance, hv]
    exact h.parse (fun x hx => hl x (List.mem_cons_of_mem e hx)) hreg hoff (.inl hk)

theorem Reads.walkTo (h : Reads n es r) (hl : ∀ e ∈ l, e ∈ es) (ha : At n r l)
    (hf : l.length ≤ fuel) (target : Bytes) :
    Reads n es (walkTo target fuel r) ∧
      At n (walkTo target fuel r) (seekTo Rec.pos (sortKey target) l) := by
  induction fuel generalizing r l with
  | zero =>
    have he : l = [] := List.length_eq_zero_iff.1 (Nat.le_zero.1 hf)
    subst he
    exact ⟨h, ha⟩
  | succ fuel ih =>
    cases l with
    | nil =>
      have hv : r.valid = false := ha
      rw [BlockReader.walkTo, if_neg (by simp [hv])]
      exact ⟨h, ha⟩
    | cons e rest =>
      have hv : r.valid = true := ha.1
      have hk : r.key = e.1 := ha.2.1
      by_cases hlt : e.pos < sortKey target
      · rw [BlockReader.walkTo, if_pos ⟨hv, by rw [hk]; exact compareInternalKey_lt.2 hlt⟩,
          seekTo, List.dropWhile_cons_of_pos (by simpa only [decide_eq_true_eq] using hlt)]
        obtain ⟨h', ha'⟩ := h.advance hl ha
        exact ih h' (fun x hx => hl x (List.mem_cons_of_mem e hx)) ha'
          (Nat.le_of_succ_le_succ hf)
      · rw [BlockReader.walkTo,
          if_neg (by rw [hk, compareInternalKey_lt]; exact fun hc => hlt hc.2),
          seekTo, List.dropWhile_cons_of_neg (by simpa only [decide_eq_true_eq] using hlt)]
        exact ⟨h, ha⟩

/-- The search ends at the first point, or at one whose first entry is before the target. -/
theorem Reads.searchRestarts (h : Reads n es r) (target : Bytes) (hlr : left ≤ right)
    (hr : right < (restartPoints n es).length)
    (hleft : left = 0 ∨ ∃ o e rest, (restartPoints n es)[left]? = some (o, e :: rest) ∧
      sortKey e.1 < sortKey target) :
    ∃ r' left', r.searchRestarts target left right = (r', some left') ∧ Reads n es r' ∧
      left' < (restartPoints n es).length ∧
      (left' = 0 ∨ ∃ o e rest, (restartPoints n es)[left']? = some (o, e :: rest) ∧
        sortKey e.1 < sortKey target) := by
  induction hd : right - left using Nat.strongRecOn generalizing r left right with
  | ind d ih =>
    by_cases hlt : left < right
    · have hmid : left + (right - left + 1) / 2 < (restartPoints n es).length := by omega
      obtain ⟨p, hp⟩ : ∃ p, (restartPoints n es)[left + (right - left + 1) / 2]? = some p :=
        ⟨_, List.getElem?_eq_getElem hmid⟩
      obtain ⟨hr', ha⟩ := h.seekToRestart hp
      have hpoint : p.2 ≠ [] := by
        have hpos : 0 < left + (right - left + 1) / 2 := by omega
        obtain ⟨m, hm⟩ : ∃ m, left + (right - left + 1) / 2 = m + 1 :=
          ⟨_, (Nat.succ_pred_eq_of_pos hpos).symm⟩
        rw [hm, restartPoints, List.getElem?_cons_succ] at hp
        exact (points_spec (List.mem_of_getElem? hp)).2.1
      obtain ⟨o, l⟩ := p
      cases l with
      | nil => exact absurd rfl hpoint
      | cons e rest =>
        have hv := ha.1
        have hk := ha.2.1
        rw [BlockReader.searchRestarts, if_pos hlt]
        simp only [hv, hk, if_true]
        by_cases hc : compareInternalKey e.1 target = .lt
        · rw [if_pos hc]
          exact ih _ (by omega) hr' (by omega) hr
            (.inr ⟨o, e, rest, hp, compareInternalKey_lt.1 hc⟩) rfl
        · rw [if_neg hc]
          exact ih _ (by omega) hr' (by omega) (by omega) hleft rfl
    · rw [BlockReader.searchRestarts, if_neg hlt]
      exact ⟨r, left, rfl, h, by omega, hleft⟩

theorem seekTo_of_suffix {e : Rec} {rest : List Rec} (hs : e :: rest <:+ es)
    (hasc : Ascending Rec.pos es) (hlt : e.pos < t) :
    seekTo Rec.pos t (e :: rest) = seekTo Rec.pos t es := by
  obtain ⟨pre, rfl⟩ := hs
  have hpre : ∀ a ∈ pre, a.pos < t := fun a ha =>
    lt_trans ((ascending_append.1 hasc).2.2 a ha e List.mem_cons_self) hlt
  rw [seekTo, seekTo, List.dropWhile_append_of_pos (by simpa using hpre)]

theorem length_le_body (m since : Nat) (last : Bytes) (l : List Rec) :
    l.length ≤ (body m since last l).length := by
  induction l generalizing since last with
  | nil => simp
  | cons e l ih =>
    have h := encodeEntry_length_pos (sharedAt m since last e.1) e.1 e.2
    have h' := ih (sinceNext m since) e.1
    simp only [body, List.length_append, List.length_cons]
    omega

/-- `Seek` stands on the first entry at or after the target, from any earlier position. -/
theorem Reads.seek (h : Reads n es r) (hasc : Ascending Rec.pos es) (target : Bytes) :
    Reads n es (r.seek target) ∧ At n (r.seek target) (seekTo Rec.pos (sortKey target) es) := by
  have hlen : r.numRestarts - 1 < (restartPoints n es).length := by
    rw [h.numRestarts]
    simp [restartPoints]
  obtain ⟨r', left, hsearch, hr', hleft, hbefore⟩ :=
    h.searchRestarts target (Nat.zero_le _) hlen (.inl rfl)
  obtain ⟨p, hp⟩ : ∃ p, (restartPoints n es)[left]? = some p := ⟨_, List.getElem?_eq_getElem hleft⟩
  obtain ⟨hrs, ha⟩ := hr'.seekToRestart hp
  obtain ⟨hsuf, _⟩ := restartPoints_spec h.interval (List.mem_of_getElem? hp)
  have hl : ∀ e ∈ p.2, e ∈ es := fun e he => hsuf.subset he
  have hfuel : p.2.length ≤ r'.entriesSize := by
    rw [hr'.size]
    exact (hsuf.length_le).trans (length_le_body n n [] es)
  rw [BlockReader.seek, h.live]
  simp only [Bool.false_eq_true, if_false, hsearch]
  have hw := hrs.walkTo hl ha hfuel target
  have he : seekTo Rec.pos (sortKey target) p.2 = seekTo Rec.pos (sortKey target) es := by
    rcases hbefore with rfl | ⟨o, e, rest, hq, hlt⟩
    · rw [restartPoints, List.getElem?_cons_zero, Option.some.injEq] at hp
      rw [← hp]
    · rw [hp, Option.some.injEq] at hq
      subst hq
      exact seekTo_of_suffix hsuf hasc hlt
  rwa [he] at hw

theorem flatMap_putFixed32_drop (l : List Nat) (h : l[j]? = some v) :
    (l.flatMap putFixed32).drop (j * 4) =
      putFixed32 v ++ (l.drop (j + 1)).flatMap putFixed32 := by
  induction l generalizing j with
  | nil => simp at h
  | cons a l ih =>
    cases j with
    | zero =>
      rw [List.getElem?_cons_zero, Option.some.injEq] at h
      subst h
      simp
    | succ j =>
      rw [List.getElem?_cons_succ] at h
      rw [List.flatMap_cons, List.drop_succ_cons, ← ih h, List.drop_append,
        List.drop_of_length_le (by rw [length_putFixed32]; omega), List.nil_append,
        length_putFixed32]
      congr 1
      omega

/-- A block that fits 32-bit offsets opens, with its entries and restart points in place. -/
theorem reads_new (interval : Int) (es : List Rec)
    (hfit : (blockBytes interval es).length < 2 ^ 32) (hkeys : ∀ e ∈ es, e.1.length < 2 ^ 32) :
    Reads (BlockBuilder.new interval).restartInterval es
      (BlockReader.new (blockBytes interval es)) := by
  set n := (BlockBuilder.new interval).restartInterval with hn
  have hpos : 0 < n := new_interval_pos interval
  set offsets := (restartPoints n es).map fun p => p.1 % 2 ^ 32 with hoffs
  have hbytes : blockBytes interval es =
      body n n [] es ++ (offsets.flatMap putFixed32 ++ putFixed32 offsets.length) := by
    rw [blockBytes, finish, addAll_buffer, addAll_restarts]
    simp only [hoffs, restartPoints, List.map_cons, Nat.zero_mod]
    rw [← body_start hpos]
    rfl
  have hlen : (blockBytes interval es).length =
      (body n n [] es).length + (offsets.length * 4 + 4) := by
    rw [hbytes]
    simp [List.length_flatMap]
  have hne : 0 < offsets.length := by simp [hoffs, restartPoints]
  have hcount : decodeFixed32 ((blockBytes interval es).drop
      ((blockBytes interval es).length - 4)) = offsets.length := by
    have hd : (blockBytes interval es).drop ((blockBytes interval es).length - 4) =
        putFixed32 offsets.length ++ [] := by
      rw [hlen, hbytes, ← List.append_assoc, List.append_nil, List.drop_left']
      simp [List.length_flatMap]
      omega
    rw [hd, decodeFixed32_put, Nat.mod_eq_of_lt (by omega)]
  have hsize : ((blockBytes interval es).length - (offsets.length + 1) * 4) % 2 ^ 32 =
      (body n n [] es).length := by
    rw [Nat.mod_eq_of_lt (by omega)]
    omega
  have hoffset (j : Nat) (v : Nat) (hj : offsets[j]? = some v) (hv : v < 2 ^ 32) :
      decodeFixed32 ((blockBytes interval es).drop ((body n n [] es).length + j * 4)) = v := by
    have hjl : j < offsets.length := (List.getElem?_eq_some_iff.1 hj).1
    rw [hbytes, List.drop_append, List.drop_of_length_le (by omega), List.nil_append,
      Nat.add_sub_cancel_left, List.drop_append_of_le_length
        (by simp [List.length_flatMap]; omega),
      flatMap_putFixed32_drop offsets hj, List.append_assoc, decodeFixed32_put, Nat.mod_eq_of_lt hv]
  have hple : ∀ p ∈ restartPoints n es, p.1 ≤ (body n n [] es).length := by
    intro p hp
    rcases List.mem_cons.1 hp with rfl | hm
    · exact Nat.zero_le _
    · exact points_le hpos hm
  have hall : ∀ j p, (restartPoints n es)[j]? = some p →
      decodeFixed32 ((blockBytes interval es).drop ((body n n [] es).length + j * 4)) = p.1 := by
    intro j p hp
    have hle := hple p (List.mem_of_getElem? hp)
    refine hoffset j p.1 ?_ (by omega)
    rw [hoffs, List.getElem?_map, hp, Option.map_some, Nat.mod_eq_of_lt (by omega)]
  rw [BlockReader.new, if_neg (by omega)]
  simp only [hcount, hsize]
  rw [if_neg (by omega), if_neg]
  · exact ⟨hpos, rfl, rfl, rfl, by simp only; omega, by simp only; rw [hbytes, List.take_left' rfl],
      hkeys, by simp [hoffs], hall⟩
  · simp only [List.any_eq_true, List.mem_range, decide_eq_true_eq, not_exists, not_and, not_lt]
    intro j hj
    obtain ⟨p, hp⟩ : ∃ p, (restartPoints n es)[j]? = some p :=
      ⟨_, List.getElem?_eq_getElem (by simpa [hoffs] using hj)⟩
    exact (hall j p hp).trans_le (hple p (List.mem_of_getElem? hp))

theorem length_key_le_body (n since : Nat) (last : Bytes) (l : List Rec) (h : e ∈ l) :
    e.1.length ≤ last.length + (body n since last l).length := by
  induction l generalizing since last with
  | nil => cases h
  | cons a l ih =>
    have hshared : sharedAt n since last a.1 ≤ last.length := by
      rw [sharedAt]
      split
      · exact sharedLength_le_left last a.1
      · exact Nat.zero_le _
    have hentry := length_le_encodeEntry (sharedAt n since last a.1) a.1 a.2
    rw [body, List.length_append]
    rcases List.mem_cons.1 h with rfl | h
    · omega
    · have hrest := ih (sinceNext n since) a.1 h
      omega

theorem length_key_le_blockBytes (interval : Int) (h : e ∈ es) :
    e.1.length ≤ (blockBytes interval es).length := by
  have hle := length_key_le_body (BlockBuilder.new interval).restartInterval 0 [] es h
  rw [blockBytes, finish, addAll_buffer]
  simp only [List.length_append]
  exact hle.trans (by simp [BlockBuilder.new])

def call (r : BlockReader) : CursorCall → BlockReader
  | .seekToFirst => r.seekToFirst
  | .seek target => r.seek target
  | .next => r.advance

def calls (r : BlockReader) (cs : List CursorCall) : BlockReader := cs.foldl call r

/-- The entry a cursor hands out: `key()` and `value()` while it is `Valid()`. -/
def shown (r : BlockReader) : Option Rec := if r.valid then some (r.key, r.value) else none

theorem At.shown (h : At n r l) : r.shown = l.head? := by
  cases l with
  | nil =>
    have hv : r.valid = false := h
    simp [BlockReader.shown, hv]
  | cons e l =>
    obtain ⟨hv, hk, hx, _⟩ := h
    simp [BlockReader.shown, hv, hk, hx]

theorem valid_new (contents : Bytes) : (BlockReader.new contents).valid = false := by
  simp only [BlockReader.new]
  split
  · rfl
  · split
    · rfl
    · split <;> rfl

theorem Reads.calls (h : Reads n es r) (hasc : Ascending Rec.pos es) (hs : l <:+ es)
    (ha : At n r l) (cs : List CursorCall) :
    Reads n es (r.calls cs) ∧ ∃ m, m <:+ es ∧ At n (r.calls cs) m := by
  induction cs generalizing r l with
  | nil => exact ⟨h, l, hs, ha⟩
  | cons c cs ih =>
    cases c with
    | seekToFirst =>
      obtain ⟨h', ha'⟩ := h.seekToFirst
      exact ih h' (List.suffix_refl es) ha'
    | seek target =>
      obtain ⟨h', ha'⟩ := h.seek hasc target
      exact ih h' (seekTo_suffix _ es) ha'
    | next =>
      obtain ⟨h', ha'⟩ := h.advance (fun e he => hs.subset he) ha
      exact ih h' ((List.tail_suffix l).trans hs) ha'

theorem Reads.iterate_advance (h : Reads n es r) (hl : ∀ e ∈ l, e ∈ es) (ha : At n r l) (k : Nat) :
    (BlockReader.advance^[k] r).shown = l[k]? ∧ (BlockReader.advance^[k] r).status = .ok := by
  induction k generalizing r l with
  | zero => exact ⟨by rw [Function.iterate_zero, id, ha.shown, List.head?_eq_getElem?], h.ok⟩
  | succ k ih =>
    obtain ⟨h', ha'⟩ := h.advance hl ha
    have hrec := ih h' (fun e he => hl e (List.mem_of_mem_tail he)) ha'
    rw [Function.iterate_succ_apply, ← List.getElem?_tail]
    exact hrec

/-- A block is read back as it was built, from wherever earlier calls left the cursor, and
`Finish` leaves the builder as a new one. -/
theorem block_round_trip (interval : Int) (es : List Rec)
    (hasc : es.Pairwise fun a b => compareInternalKey a.1 b.1 = .lt)
    (hfit : (blockBytes interval es).length < 2 ^ 32) :
    (BlockReader.new (blockBytes interval es)).status = .ok ∧
      (∀ cs k, let r := ((BlockReader.new (blockBytes interval es)).calls cs).seekToFirst
        (BlockReader.advance^[k] r).shown = es[k]? ∧ (BlockReader.advance^[k] r).status = .ok) ∧
      (∀ cs target k, let r := ((BlockReader.new (blockBytes interval es)).calls cs).seek target
        (BlockReader.advance^[k] r).shown =
            (es.filter fun e => compareInternalKey e.1 target != .lt)[k]? ∧
          (BlockReader.advance^[k] r).status = .ok) ∧
      ((BlockBuilder.new interval).addAll es).reset = BlockBuilder.new interval := by
  have hpos := ascending_of_compare hasc
  have hreads := reads_new interval es hfit fun e he =>
    lt_of_le_of_lt (length_key_le_blockBytes interval he) hfit
  have hcalls := fun cs => hreads.calls hpos List.nil_suffix (valid_new _) cs
  refine ⟨hreads.ok, ?_, ?_, ?_⟩
  · intro cs k
    obtain ⟨hr, ha⟩ := (hcalls cs).1.seekToFirst
    exact hr.iterate_advance (fun e he => he) ha k
  · intro cs target k
    obtain ⟨hr, ha⟩ := (hcalls cs).1.seek hpos target
    rw [seekTo_eq_filter_compare hpos.sorted] at ha
    exact hr.iterate_advance (fun e he => (List.mem_filter.1 he).1) ha k
  · rw [BlockBuilder.reset, BlockBuilder.addAll_interval]
    rfl

/-- Two entries with a shared prefix, read after a seek past the end. -/
theorem block_round_trip_pair :
    let a := Rec.encode [97, 98] 2 .kValue [1]
    let b := Rec.encode [97, 99] 1 .kValue []
    (((BlockReader.new (blockBytes 16 [a, b])).calls [.seek (lookupKey [98] 5)]).seek
      (lookupKey [97, 99] 5)).shown = some b := by
  intro a b
  have hasc : [a, b].Pairwise fun a b => compareInternalKey a.1 b.1 = .lt := by decide
  have hfit : (blockBytes 16 [a, b]).length < 2 ^ 32 := by
    simp [blockBytes, BlockBuilder.addAll, BlockBuilder.finish, BlockBuilder.add, a, b,
      BlockBuilder.new, BlockBuilder.encodeEntry, putVarint32_small, BlockBuilder.sharedFor,
      Rec.encode, encodeInternalKey, sharedLength]
  have hseek := (block_round_trip 16 [a, b] hasc hfit).2.2.1 [.seek (lookupKey [98] 5)]
    (lookupKey [97, 99] 5) 0
  have hfilter : [a, b].filter (fun e => compareInternalKey e.1 (lookupKey [97, 99] 5) != .lt) =
      [b] := by decide
  rw [hfilter] at hseek
  exact hseek.1

end BlockReader

end LsmKv
