import LsmKv.WriteBatch
import LsmKv.Crc32c

namespace LsmKv.Wal
set_option autoImplicit true

def kHeaderSize : Nat := 8
def kFileHeaderSize : Nat := 8
def kFileMagic : Bytes := [0x4c, 0x53, 0x4d, 0x57, 0x41, 0x4c, 0]
def kFormatVersion : UInt8 := 2

/-- What `WalWriter::Open` writes into a log that is empty. -/
def fileHeader : Bytes := kFileMagic ++ [kFormatVersion]

def payload (seq : Nat) (batch : WriteBatch) : Bytes :=
  putFixed64 seq ++ (putFixed32 batch.count ++ batch.rep)

/-- The bytes `WalWriter::AddRecord` hands to `write`. -/
def record (seq : Nat) (batch : WriteBatch) : Bytes :=
  let payload := payload seq batch
  putFixed32 (Crc32c.value payload).toNat ++ (putFixed32 payload.length ++ payload)

/-- An entry with the sequence number it was assigned. -/
structure Entry where
  seq : Nat
  type : ValueType
  key : Bytes
  value : Bytes
deriving DecidableEq

/-- Consecutive sequence numbers from `seq`, as the replay handler counts them. -/
def number (seq : Nat) : List BatchEntry → List Entry
  | [] => []
  | e :: es => ⟨seq % 2 ^ 64, e.type, e.key, e.value⟩ :: number (seq + 1) es

structure ReplayResult where
  entries : List Entry := []
  status : Status := .ok
  sawTruncatedTail : Bool := false
deriving DecidableEq

/-- The record loop of `WalReader::Replay` over the bytes after `offset`. Every round consumes
at least a record header, so the length of the log bounds the rounds. -/
def replayLoop : Nat → Bytes → ReplayResult
  | 0, _ => {}
  | fuel + 1, buf =>
    if buf.isEmpty then {}
    else if buf.length < kHeaderSize then { sawTruncatedTail := true }
    else
      let expectedCrc := decodeFixed32 buf
      let length := decodeFixed32 (buf.drop 4)
      if buf.length - kHeaderSize < length then { sawTruncatedTail := true }
      else
        let payload := (buf.drop kHeaderSize).take length
        if (Crc32c.value payload).toNat ≠ expectedCrc then { sawTruncatedTail := true }
        else if length < 12 then { status := .corruption "WAL record too short" }
        else
          let base := decodeFixed64 payload
          let count := decodeFixed32 (payload.drop 8)
          let decoded := WriteBatch.decode (payload.drop 12) count
          if decoded.2.isOk then
            let rest := replayLoop fuel (buf.drop (kHeaderSize + length))
            { rest with entries := number base decoded.1 ++ rest.entries }
          else { entries := number base decoded.1, status := decoded.2 }

def replay (path : String) (buf : Bytes) : ReplayResult :=
  if buf.isEmpty then {}
  else if buf.length < kFileHeaderSize then { sawTruncatedTail := true }
  else if buf.take 7 ≠ kFileMagic then { status := .corruption (path ++ ": not a WAL file") }
  else if buf[7]? ≠ some kFormatVersion then
    { status := .corruption (path ++ ": unsupported WAL format version") }
  else replayLoop buf.length (buf.drop kFileHeaderSize)

/-- A write group as it is logged: its first sequence number and its entries. -/
structure Group where
  base : Nat
  entries : List BatchEntry

namespace Group

def record (g : Group) : Bytes := Wal.record g.base (.ofEntries g.entries)

def numbered (g : Group) : List Entry := number g.base g.entries

/-- The group is not empty and its record's fields can hold its sizes. -/
structure Fits (g : Group) : Prop where
  nonempty : g.entries ≠ []
  entry : ∀ e ∈ g.entries, WriteBatch.Fits e
  size : 12 + (WriteBatch.ofEntries g.entries).rep.length < 2 ^ 32
  base_lt : g.base < 2 ^ 64

theorem length_le_rep (es : List BatchEntry) :
    es.length ≤ (WriteBatch.ofEntries es).rep.length := by
  rw [WriteBatch.ofEntries_rep]
  induction es with
  | nil => simp
  | cons e es ih =>
    simp only [List.flatMap_cons, List.length_append, List.length_cons, WriteBatch.encodeEntry]
    omega

theorem Fits.count_lt {g : Group} (h : g.Fits) : g.entries.length < 2 ^ 32 := by
  have hl := length_le_rep g.entries
  have hs := h.size
  omega

theorem Fits.forEach {g : Group} (h : g.Fits) :
    (WriteBatch.ofEntries g.entries).forEach = (g.entries, .ok) :=
  WriteBatch.forEach_ofEntries (fun e he => (h.entry e he).short) h.count_lt

end Group

theorem length_payload (seq : Nat) (b : WriteBatch) :
    (payload seq b).length = 12 + b.rep.length := by
  simp [payload]
  omega

theorem length_record (seq : Nat) (b : WriteBatch) :
    (record seq b).length = 20 + b.rep.length := by
  simp [record, length_payload]
  omega

/-- A record as the reader accepts it: its checksum and length fit its payload, and the payload
holds a batch. -/
def Complete (record : Bytes) (entries : List Entry) : Prop :=
  ∃ p decoded, 12 ≤ p.length ∧ p.length < 2 ^ 32 ∧
    record = putFixed32 (Crc32c.value p).toNat ++ (putFixed32 p.length ++ p) ∧
    WriteBatch.decode (p.drop 12) (decodeFixed32 (p.drop 8)) = (decoded, .ok) ∧
    entries = number (decodeFixed64 p) decoded

theorem Complete.length {r : Bytes} {es : List Entry} (h : Complete r es) : 20 ≤ r.length := by
  obtain ⟨p, _, hp, _, rfl, _⟩ := h
  simp only [List.length_append, length_putFixed32]
  omega

/-- One round of the loop on a complete record. -/
theorem replayLoop_complete {r : Bytes} {es : List Entry} (h : Complete r es) (fuel : Nat)
    (rest : Bytes) :
    replayLoop (fuel + 1) (r ++ rest) =
      { replayLoop fuel rest with entries := es ++ (replayLoop fuel rest).entries } := by
  have hlen := h.length
  obtain ⟨p, decoded, hp, hlt, hrec, hdec, rfl⟩ := h
  have hcrc : decodeFixed32 (r ++ rest) = (Crc32c.value p).toNat := by
    rw [hrec, List.append_assoc, decodeFixed32_put, Nat.mod_eq_of_lt (UInt32.toNat_lt _)]
  have hd4 : (r ++ rest).drop 4 = putFixed32 p.length ++ (p ++ rest) := by
    rw [hrec, List.append_assoc, List.drop_append_of_le_length (by simp),
      List.drop_of_length_le (by simp), List.nil_append, List.append_assoc]
  have hd8 : (r ++ rest).drop 8 = p ++ rest := by
    rw [show 8 = 4 + 4 from rfl, ← List.drop_drop, hd4,
      List.drop_append_of_le_length (by simp), List.drop_of_length_le (by simp), List.nil_append]
  have hlength : decodeFixed32 ((r ++ rest).drop 4) = p.length := by
    rw [hd4, decodeFixed32_put, Nat.mod_eq_of_lt hlt]
  have hpay : ((r ++ rest).drop 8).take p.length = p := by
    rw [hd8, List.take_left']
    rfl
  have hrest : (r ++ rest).drop (8 + p.length) = rest := by
    rw [← List.drop_drop, hd8, List.drop_left']
    rfl
  have hrl : r.length = 8 + p.length := by
    rw [hrec]
    simp only [List.length_append, length_putFixed32]
    omega
  have hne : (r ++ rest).isEmpty = false := by
    rw [List.isEmpty_eq_false_iff]
    intro he
    have hz := congrArg List.length he
    rw [List.length_append, List.length_nil] at hz
    omega
  have hbuf : (r ++ rest).length = 8 + p.length + rest.length := by rw [List.length_append, hrl]
  rw [replayLoop]
  simp only [hne, kHeaderSize, hcrc, hlength, hpay, hrest, hdec]
  rw [if_neg (by simp), if_neg (by omega), if_neg (by omega), if_neg (by simp),
    if_neg (by omega), if_pos (by rfl)]

theorem Group.Fits.complete {g : Group} (h : g.Fits) : Complete g.record g.numbered := by
  have hs := h.size
  set b := WriteBatch.ofEntries g.entries with hbdef
  have hpl : (payload g.base b).length = 12 + b.rep.length := length_payload g.base b
  have hp8 : (payload g.base b).drop 8 = putFixed32 b.count ++ b.rep := by
    rw [payload, List.drop_append_of_le_length (by simp), List.drop_of_length_le (by simp),
      List.nil_append]
  have hp12 : (payload g.base b).drop 12 = b.rep := by
    rw [show 12 = 8 + 4 from rfl, ← List.drop_drop, hp8,
      List.drop_append_of_le_length (by simp), List.drop_of_length_le (by simp), List.nil_append]
  have hcount : decodeFixed32 ((payload g.base b).drop 8) = b.count := by
    rw [hp8, decodeFixed32_put, hbdef, WriteBatch.ofEntries_count, Nat.mod_mod]
  have hbase : decodeFixed64 (payload g.base b) = g.base := by
    rw [payload, decodeFixed64_put, Nat.mod_eq_of_lt h.base_lt]
  refine ⟨payload g.base b, g.entries, by omega, by omega, rfl, ?_, ?_⟩
  · rw [hp12, hcount]
    exact h.forEach
  · rw [hbase]
    rfl

theorem replayLoop_record {g : Group} (h : g.Fits) (fuel : Nat) (rest : Bytes) :
    replayLoop (fuel + 1) (g.record ++ rest) =
      { replayLoop fuel rest with entries := g.numbered ++ (replayLoop fuel rest).entries } :=
  replayLoop_complete h.complete fuel rest

/-- What an append in progress has added to a log: part of a record, but not all of it. -/
def Torn (tail : Bytes) : Prop :=
  tail = [] ∨ ∃ g : Group, g.Fits ∧ tail <+: g.record ∧ tail.length < g.record.length

theorem replayLoop_torn (h : Torn tail) (hf : tail.length ≤ fuel) :
    replayLoop fuel tail = { sawTruncatedTail := !tail.isEmpty } := by
  rcases h with rfl | ⟨g, hg, hpre, hlen⟩
  · cases fuel <;> rfl
  · cases fuel with
    | zero =>
      have hnil : tail = [] := List.length_eq_zero_iff.1 (Nat.le_zero.1 hf)
      rw [hnil]
      rfl
    | succ fuel =>
      rw [replayLoop]
      split
      · rename_i he
        rw [he]
        rfl
      · rename_i hne
        rw [Bool.not_eq_true] at hne
        rw [hne]
        split
        · rfl
        · rename_i h8
          simp only [kHeaderSize, not_lt] at h8
          have hs := hg.size
          set p := payload g.base (.ofEntries g.entries) with hp
          have hpl : p.length = 12 + (WriteBatch.ofEntries g.entries).rep.length :=
            length_payload _ _
          have hrl : g.record.length = 20 + (WriteBatch.ofEntries g.entries).rep.length :=
            length_record _ _
          obtain ⟨rest, hrest⟩ := hpre
          have hrec : g.record.drop 4 = putFixed32 p.length ++ p := by
            rw [show g.record = putFixed32 (Crc32c.value p).toNat ++ (putFixed32 p.length ++ p)
              from rfl, List.drop_append_of_le_length (by simp), List.drop_of_length_le (by simp),
              List.nil_append]
          have hfield : decodeFixed32 (tail.drop 4) = p.length := by
            have ht : (tail.drop 4).take 4 = (g.record.drop 4).take 4 := by
              rw [← hrest, List.drop_append_of_le_length (by omega),
                List.take_append_of_le_length (by simp; omega)]
            rw [decodeFixed32, ht, ← decodeFixed32, hrec, decodeFixed32_put,
              Nat.mod_eq_of_lt (by omega)]
          rw [hfield, if_pos (by simp only [kHeaderSize]; omega)]
          rfl

theorem replayLoop_records {gs : List Group} (hg : ∀ g ∈ gs, g.Fits) (ht : Torn tail)
    (hf : gs.length + tail.length ≤ fuel) :
    replayLoop fuel (gs.flatMap Group.record ++ tail) =
      { entries := gs.flatMap Group.numbered, sawTruncatedTail := !tail.isEmpty } := by
  induction gs generalizing fuel with
  | nil => exact replayLoop_torn ht (by simpa using hf)
  | cons g gs ih =>
    rw [List.length_cons] at hf
    obtain ⟨fuel, rfl⟩ : ∃ m, fuel = m + 1 := ⟨fuel - 1, by omega⟩
    rw [List.flatMap_cons, List.append_assoc, replayLoop_record (hg g List.mem_cons_self),
      ih (fun x hx => hg x (List.mem_cons_of_mem g hx)) (by omega), List.flatMap_cons]

/-- A log file while its writer lives, or after the writer was killed at any point: part of the
file header, or the header, complete records and part of the next one. -/
inductive Image : List Group → Bytes → Prop where
  | header (h : b <+: fileHeader) : Image [] b
  | records (gs : List Group) (h : Torn tail) :
      Image gs (fileHeader ++ (gs.flatMap Group.record ++ tail))

theorem length_flatMap_record (gs : List Group) : gs.length ≤ (gs.flatMap Group.record).length := by
  induction gs with
  | nil => simp
  | cons g gs ih =>
    have hl : g.record.length = 20 + (WriteBatch.ofEntries g.entries).rep.length :=
      length_record _ _
    simp only [List.flatMap_cons, List.length_append, List.length_cons]
    omega

theorem replay_header (path : String) (rest : Bytes) :
    replay path (fileHeader ++ rest) = replayLoop (fileHeader ++ rest).length rest := by
  rw [replay, if_neg (by simp [fileHeader, kFileMagic]),
    if_neg (by simp [fileHeader, kFileMagic, kFileHeaderSize]),
    if_neg (by simp [fileHeader, kFileMagic]),
    if_neg (by simp [fileHeader, kFileMagic])]
  rfl

theorem replayLoop_completes {rs : List (Bytes × List Entry)} (h : ∀ r ∈ rs, Complete r.1 r.2)
    (fuel : Nat) (tail : Bytes) :
    replayLoop (rs.length + fuel) (rs.flatMap Prod.fst ++ tail) =
      { replayLoop fuel tail with
        entries := rs.flatMap Prod.snd ++ (replayLoop fuel tail).entries } := by
  induction rs with
  | nil => simp
  | cons r rs ih =>
    rw [List.length_cons, Nat.add_right_comm, List.flatMap_cons, List.append_assoc,
      replayLoop_complete (h r List.mem_cons_self), ih fun x hx => h x (List.mem_cons_of_mem r hx),
      List.flatMap_cons]
    simp

/-- Eight zero bytes are the header of an empty payload, whose checksum is zero; what is shorter
is a torn header. -/
theorem replayLoop_zeros (fuel n : Nat) :
    replayLoop (fuel + 1) (List.replicate n 0) =
      if n < 8 then { sawTruncatedTail := decide (0 < n) }
      else { status := .corruption "WAL record too short" } := by
  rw [replayLoop]
  cases n with
  | zero => rfl
  | succ n =>
    rw [if_neg (by simp [List.replicate_succ]), kHeaderSize]
    by_cases hn : n + 1 < 8
    · rw [if_pos (by simpa using hn), if_pos hn]
      simp
    · have hcrc : decodeFixed32 (List.replicate (n + 1) 0) = 0 := by
        rw [decodeFixed32, List.take_replicate, min_eq_left (by omega)]
        rfl
      have hlen : decodeFixed32 ((List.replicate (n + 1) 0).drop 4) = 0 := by
        rw [decodeFixed32, List.drop_replicate, List.take_replicate, min_eq_left (by omega)]
        rfl
      have hvalue : (Crc32c.value []).toNat = 0 := by decide
      rw [if_neg (by simpa using hn), if_neg hn]
      simp only [hcrc, hlen, List.take_zero, hvalue]
      simp

theorem length_le_flatMap_complete {rs : List (Bytes × List Entry)}
    (h : ∀ r ∈ rs, Complete r.1 r.2) : rs.length ≤ (rs.flatMap Prod.fst).length := by
  induction rs with
  | nil => simp
  | cons r rs ih =>
    have hr := (h r List.mem_cons_self).length
    have := ih fun x hx => h x (List.mem_cons_of_mem r hx)
    rw [List.length_cons, List.flatMap_cons, List.length_append]
    omega

/-- A zero-filled tail is a torn tail as long as it cannot hold a record header. -/
theorem zero_tail_iff {rs : List (Bytes × List Entry)} (h : ∀ r ∈ rs, Complete r.1 r.2)
    (path : String) (n : Nat) :
    ((replay path (fileHeader ++ (rs.flatMap Prod.fst ++ List.replicate n 0))).status = .ok ∧
      (replay path (fileHeader ++ (rs.flatMap Prod.fst ++ List.replicate n 0))).entries =
        rs.flatMap Prod.snd ∧
      (0 < n → (replay path (fileHeader ++ (rs.flatMap Prod.fst ++
        List.replicate n 0))).sawTruncatedTail = true)) ↔ n < 8 := by
  have hlen := length_le_flatMap_complete h
  have hfuel : ∃ fuel, (fileHeader ++ (rs.flatMap Prod.fst ++ List.replicate n 0)).length =
      rs.length + (fuel + 1) := by
    refine ⟨(rs.flatMap Prod.fst).length - rs.length + n + 7, ?_⟩
    rw [List.length_append, List.length_append, List.length_replicate]
    have : fileHeader.length = 8 := rfl
    omega
  obtain ⟨fuel, hfuel⟩ := hfuel
  rw [replay_header, hfuel, replayLoop_completes h, replayLoop_zeros]
  by_cases hn : n < 8
  · simp [hn]
  · have hbad : Status.corruption "WAL record too short" ≠ .ok := by decide
    simp [hn, hbad]

def oneGroup : Group := ⟨1, [⟨.kValue, [97], [98]⟩]⟩

theorem oneGroup_fits : oneGroup.Fits := by
  refine ⟨by simp [oneGroup], by simp [oneGroup, WriteBatch.Fits], ?_, by simp [oneGroup]⟩
  simp [oneGroup, WriteBatch.encodeEntry, putVarint32_small]

theorem zero_tail_seven :
    (replay "" (fileHeader ++ (oneGroup.record ++ List.replicate 7 0))).status = .ok ∧
      (replay "" (fileHeader ++ (oneGroup.record ++ List.replicate 7 0))).entries =
        oneGroup.numbered := by
  have hr : ∀ r ∈ [(oneGroup.record, oneGroup.numbered)], Complete r.1 r.2 := by
    simpa using oneGroup_fits.complete
  obtain ⟨hs, he, _⟩ := (zero_tail_iff hr "" 7).2 (by decide)
  simp only [List.flatMap_cons, List.flatMap_nil, List.append_nil] at hs he
  exact ⟨hs, he⟩

/-- Eight zero bytes behind the header of a new log: the database does not open any more. -/
theorem zero_tail_eight :
    (replay "" (fileHeader ++ List.replicate 8 0)).status = .corruption "WAL record too short" := by
  decide

theorem replay_records {gs : List Group} (hg : ∀ g ∈ gs, g.Fits) (ht : Torn tail) (path : String) :
    replay path (fileHeader ++ (gs.flatMap Group.record ++ tail)) =
      { entries := gs.flatMap Group.numbered, sawTruncatedTail := !tail.isEmpty } := by
  have hlen := length_flatMap_record gs
  rw [replay_header]
  exact replayLoop_records hg ht (by simp only [List.length_append]; omega)

theorem replay_short (hb : buf.length < kFileHeaderSize) (path : String) :
    replay path buf = { sawTruncatedTail := !buf.isEmpty } := by
  cases buf with
  | nil => rfl
  | cons b rest =>
    rw [replay, if_neg (by simp), if_pos hb]
    rfl

theorem replay_image (h : Image gs buf) (hg : ∀ g ∈ gs, g.Fits) (path : String) :
    (replay path buf).entries = gs.flatMap Group.numbered ∧ (replay path buf).status = .ok := by
  cases h with
  | records gs ht =>
    rw [replay_records hg ht]
    exact ⟨rfl, rfl⟩
  | header hb =>
    by_cases hl : buf.length < kFileHeaderSize
    · rw [replay_short hl]
      exact ⟨rfl, rfl⟩
    · have he : buf = fileHeader ++ (([] : List Group).flatMap Group.record ++ []) := by
        rw [hb.eq_of_length_le (by
          simp only [kFileHeaderSize, not_lt] at hl
          simpa [fileHeader, kFileMagic] using hl)]
        rfl
      rw [he, replay_records (by simp) (.inl rfl)]
      exact ⟨rfl, rfl⟩

/-- `WalWriter::Open`: a file that is empty gets its header. -/
def openLogFile (file : Bytes) : Bytes := if file.length = 0 then file ++ fileHeader else file

def addRecord (file : Bytes) (seq : Nat) (batch : WriteBatch) : Bytes :=
  if batch.empty then file else file ++ record seq batch

/-- One writer, from its `Open` to its `Close`. -/
def session (file : Bytes) (gs : List Group) : Bytes :=
  gs.foldl (fun file g => addRecord file g.base (.ofEntries g.entries)) (openLogFile file)

/-- A log that starts as a new file and has one writer after the other. -/
def sessions (ws : List (List Group)) : Bytes := ws.foldl session []

/-- Where the records of `gs` end in a log that starts with them. -/
def endOf (gs : List Group) : Nat := kFileHeaderSize + (gs.flatMap Group.record).length

theorem putVarint32_length_pos (v : Nat) : 0 < (putVarint32 v).length := by
  rw [putVarint32]
  split <;> simp

theorem putVarint32_length_large (h : 0x80 ≤ v) : 2 ≤ (putVarint32 v).length := by
  rw [putVarint32, if_pos h, List.length_cons]
  exact Nat.succ_le_succ (putVarint32_length_pos _)

theorem fits_of_length (h : 12 + (WriteBatch.encodeEntry e).length < 2 ^ 32) :
    WriteBatch.Fits e := by
  simp only [WriteBatch.encodeEntry, List.length_cons, List.length_append] at h
  have h1 := putVarint32_length_pos (e.key.length % 2 ^ 32)
  have h2 := putVarint32_length_pos (e.value.length % 2 ^ 32)
  have hk : e.key.length % 2 ^ 32 = e.key.length := Nat.mod_eq_of_lt (by omega)
  have hv : e.value.length % 2 ^ 32 = e.value.length := Nat.mod_eq_of_lt (by omega)
  rw [hk] at h h1
  rw [hv] at h h2
  rw [WriteBatch.Fits]
  by_cases hk' : 0x80 ≤ e.key.length
  · have := putVarint32_length_large hk'
    omega
  · by_cases hv' : 0x80 ≤ e.value.length
    · have := putVarint32_length_large hv'
      omega
    · omega

theorem Group.fits_of_payload {g : Group} (hne : g.entries ≠ [])
    (hp : (payload g.base (.ofEntries g.entries)).length < 2 ^ 32) (hb : g.base < 2 ^ 64) :
    g.Fits where
  nonempty := hne
  size := by rwa [length_payload] at hp
  base_lt := hb
  entry e he := by
    rw [length_payload, WriteBatch.ofEntries_rep] at hp
    have hle : (WriteBatch.encodeEntry e).length ≤
        (g.entries.flatMap WriteBatch.encodeEntry).length :=
      (List.sublist_flatten_of_mem (List.mem_map_of_mem he)).length_le
    exact fits_of_length (by omega)

theorem foldl_addRecord {gs : List Group} (hg : ∀ g ∈ gs, g.Fits) (file : Bytes) :
    gs.foldl (fun file g => addRecord file g.base (.ofEntries g.entries)) file =
      file ++ gs.flatMap Group.record := by
  induction gs generalizing file with
  | nil => simp
  | cons g gs ih =>
    have hfit := hg g List.mem_cons_self
    have hne : (WriteBatch.ofEntries g.entries).empty = false := by
      rw [WriteBatch.empty, WriteBatch.ofEntries_count, Nat.mod_eq_of_lt hfit.count_lt]
      simpa using hfit.nonempty
    rw [List.foldl_cons, ih (fun x hx => hg x (List.mem_cons_of_mem g hx)), addRecord, hne,
      if_neg (by simp), List.append_assoc, List.flatMap_cons]
    rfl

theorem foldl_session {ws : List (List Group)} (hg : ∀ g ∈ ws.flatten, g.Fits) {file : Bytes}
    (hne : file ≠ []) : ws.foldl session file = file ++ ws.flatten.flatMap Group.record := by
  induction ws generalizing file with
  | nil => simp
  | cons w ws ih =>
    have hw : session file w = file ++ w.flatMap Group.record := by
      rw [session, foldl_addRecord fun g h => hg g (by simp [h]), openLogFile,
        if_neg (by simpa using hne)]
    rw [List.foldl_cons, hw, ih (fun g h => hg g (by rw [List.flatten_cons]; simp [h]))
      (by simp [hne])]
    simp

/-- However many writers there were, the log is the header and the records. -/
theorem sessions_eq (hne : ws ≠ []) (hg : ∀ g ∈ ws.flatten, g.Fits) :
    sessions ws = fileHeader ++ ws.flatten.flatMap Group.record := by
  cases ws with
  | nil => exact absurd rfl hne
  | cons w ws =>
    have hw : session [] w = fileHeader ++ w.flatMap Group.record := by
      rw [session, foldl_addRecord fun g h => hg g (by simp [h])]
      rfl
    rw [sessions, List.foldl_cons, hw,
      foldl_session (fun g h => hg g (by rw [List.flatten_cons]; simp [h])) (by simp [fileHeader])]
    simp

/-- A cut through records leaves whole ones and part of the next. -/
theorem take_records {gs : List Group} (hg : ∀ g ∈ gs, g.Fits)
    (hn : n ≤ (gs.flatMap Group.record).length) :
    ∃ k ≤ gs.length, ∃ tail, Torn tail ∧
      (gs.flatMap Group.record).take n = (gs.take k).flatMap Group.record ++ tail ∧
      (∀ j ≤ gs.length, ((gs.take j).flatMap Group.record).length ≤ n ↔ j ≤ k) := by
  induction gs generalizing n with
  | nil => exact ⟨0, le_rfl, [], .inl rfl, by simp, fun j hj => by simpa using hj⟩
  | cons g gs ih =>
    rw [List.flatMap_cons, List.length_append] at hn
    have hpos : 0 < g.record.length := by
      have := length_record g.base (.ofEntries g.entries)
      rw [Group.record]
      omega
    by_cases hlt : n < g.record.length
    · refine ⟨0, Nat.zero_le _, g.record.take n, .inr ⟨g, hg g List.mem_cons_self,
        List.take_prefix _ _, by rw [List.length_take]; omega⟩, ?_, fun j _ => ?_⟩
      · rw [List.flatMap_cons, List.take_append_of_le_length hlt.le]
        rfl
      · cases j with
        | zero => simp
        | succ j =>
          rw [List.take_succ_cons, List.flatMap_cons, List.length_append]
          omega
    · obtain ⟨k, hk, tail, ht, he, hj⟩ :=
        @ih (n - g.record.length) (fun x hx => hg x (List.mem_cons_of_mem g hx)) (by omega)
      refine ⟨k + 1, Nat.succ_le_succ hk, tail, ht, ?_, fun j hjl => ?_⟩
      · rw [List.flatMap_cons, List.take_append, List.take_of_length_le (not_lt.1 hlt), he,
          List.take_succ_cons, List.flatMap_cons, List.append_assoc]
      · cases j with
        | zero => simp
        | succ j =>
          have := hj j (Nat.le_of_succ_le_succ hjl)
          rw [List.take_succ_cons, List.flatMap_cons, List.length_append]
          omega

theorem number_eq_mapIdx (seq : Nat) (es : List BatchEntry) :
    number seq es = es.mapIdx fun i e => ⟨(seq + i) % 2 ^ 64, e.type, e.key, e.value⟩ := by
  induction es generalizing seq with
  | nil => rfl
  | cons e es ih =>
    rw [number, ih, List.mapIdx_cons]
    congr 2
    funext i e
    rw [Nat.add_right_comm, Nat.add_assoc]

/-- The log ends where its last record does. Cut anywhere, it replays without an error, to the
batches whose records lie wholly before the cut, and reports a torn tail exactly when the cut is not
at the end of the header or of a record. -/
theorem replay_take_sessions (path : String) (ws : List (List Group)) (hne : ws ≠ [])
    (hg : ∀ g ∈ ws.flatten, g.entries ≠ [] ∧
      (payload g.base (.ofEntries g.entries)).length < 2 ^ 32 ∧ g.base < 2 ^ 64) :
    (sessions ws).length = endOf ws.flatten ∧
    ∀ n ≤ (sessions ws).length, ∃ k ≤ ws.flatten.length,
      (∀ j < ws.flatten.length, j < k ↔ endOf (ws.flatten.take (j + 1)) ≤ n) ∧
      replay path ((sessions ws).take n) = {
        entries := (ws.flatten.take k).flatMap fun g =>
          g.entries.mapIdx fun i e => ⟨(g.base + i) % 2 ^ 64, e.type, e.key, e.value⟩
        status := .ok
        sawTruncatedTail :=
          decide (0 < n ∧ ∀ j ≤ ws.flatten.length, n ≠ endOf (ws.flatten.take j)) } := by
  have hfit : ∀ g ∈ ws.flatten, g.Fits := fun g h =>
    Group.fits_of_payload (hg g h).1 (hg g h).2.1 (hg g h).2.2
  have hh : fileHeader.length = 8 := rfl
  rw [sessions_eq hne hfit]
  refine ⟨by rw [List.length_append, hh]; rfl, fun n hn => ?_⟩
  generalize ws.flatten = gs at hfit hn
  rw [List.length_append, hh] at hn
  have hend : ∀ j, endOf (gs.take j) = 8 + ((gs.take j).flatMap Group.record).length := fun _ => rfl
  by_cases hlt : n < 8
  · have hshort : ((fileHeader ++ gs.flatMap Group.record).take n).length < kFileHeaderSize := by
      rw [List.length_take]
      exact lt_of_le_of_lt (min_le_left _ _) hlt
    refine ⟨0, Nat.zero_le _, fun j _ => ?_, ?_⟩
    · rw [hend]
      omega
    · rw [replay_short hshort]
      have htail : (!((fileHeader ++ gs.flatMap Group.record).take n).isEmpty) =
          decide (0 < n ∧ ∀ j ≤ gs.length, n ≠ endOf (gs.take j)) := by
        have hne : ∀ j ≤ gs.length, n ≠ endOf (gs.take j) := by
          intro j _
          rw [hend]
          omega
        cases n with
        | zero => simp
        | succ n =>
          rw [decide_eq_true ⟨Nat.succ_pos n, hne⟩]
          rfl
      rw [htail]
      rfl
  · obtain ⟨k, hk, tail, ht, he, hj⟩ := take_records hfit (n := n - 8) (by omega)
    have hcut : (fileHeader ++ gs.flatMap Group.record).take n =
        fileHeader ++ ((gs.take k).flatMap Group.record ++ tail) := by
      rw [List.take_append, List.take_of_length_le (by omega), hh, he]
    have hlen := congrArg List.length he
    rw [List.length_take, List.length_append] at hlen
    refine ⟨k, hk, fun j hjl => ?_, ?_⟩
    · have := hj (j + 1) hjl
      rw [hend]
      omega
    · rw [hcut, replay_records (fun g h => hfit g (List.mem_of_mem_take h)) ht]
      have htail : (!tail.isEmpty) = decide (0 < n ∧ ∀ j ≤ gs.length, n ≠ endOf (gs.take j)) := by
        rw [Bool.eq_iff_iff, decide_eq_true_iff, Bool.not_eq_true', List.isEmpty_eq_false_iff,
          ← List.length_pos_iff]
        constructor
        · intro hpos
          refine ⟨by omega, fun j hjl hc => ?_⟩
          rw [hend] at hc
          have hjk := (hj j hjl).1 (by omega)
          have hmono : ((gs.take j).flatMap Group.record).length ≤
              ((gs.take k).flatMap Group.record).length :=
            ((List.take_sublist_take_left hjk).flatMap Group.record).length_le
          omega
        · rintro ⟨_, hall⟩
          have := hall k hk
          rw [hend] at this
          omega
      rw [htail, show Group.numbered = fun g => g.entries.mapIdx fun i e =>
        ⟨(g.base + i) % 2 ^ 64, e.type, e.key, e.value⟩ from
        funext fun g => number_eq_mapIdx g.base g.entries]

/-- Two writers: one `Put`, then a batch that overwrites it and deletes another key. -/
def twoWriters : List (List Group) :=
  [[⟨7, [⟨.kValue, [97], [98]⟩]⟩], [⟨8, [⟨.kValue, [97], [99]⟩, ⟨.kDeletion, [98], []⟩]⟩]]

theorem length_twoWriters : endOf (twoWriters.flatten.take 0) = 8 ∧
    endOf (twoWriters.flatten.take 1) = 33 ∧ endOf (twoWriters.flatten.take 2) = 62 := by
  simp [twoWriters, endOf, kFileHeaderSize, Group.record, length_record, WriteBatch.encodeEntry,
    putVarint32_small]

/-- A cut inside the second record leaves the first batch, and one at the end both. -/
theorem replay_take_sessions_twoWriters : (sessions twoWriters).length = 62 ∧
    replay "000001.log" ((sessions twoWriters).take 40) = {
      entries := [⟨7, .kValue, [97], [98]⟩], status := .ok, sawTruncatedTail := true } ∧
    replay "000001.log" ((sessions twoWriters).take 62) = {
      entries := [⟨7, .kValue, [97], [98]⟩, ⟨8, .kValue, [97], [99]⟩, ⟨9, .kDeletion, [98], []⟩]
      status := .ok, sawTruncatedTail := false } := by
  obtain ⟨h0, h1, h2⟩ := length_twoWriters
  have hg : ∀ g ∈ twoWriters.flatten, g.entries ≠ [] ∧
      (payload g.base (.ofEntries g.entries)).length < 2 ^ 32 ∧ g.base < 2 ^ 64 := by
    simp [twoWriters, length_payload, WriteBatch.encodeEntry, putVarint32_small]
  obtain ⟨hlen, hcut⟩ := replay_take_sessions "000001.log" twoWriters (by simp [twoWriters]) hg
  have hlen : (sessions twoWriters).length = 62 := hlen.trans h2
  have hcount : twoWriters.flatten.length = 2 := rfl
  refine ⟨hlen, ?_, ?_⟩
  · obtain ⟨k, hk, hj, hr⟩ := hcut 40 (by omega)
    have hk0 : 0 < k ↔ 33 ≤ 40 := h1 ▸ hj 0 (by omega)
    have hk1 : 1 < k ↔ 62 ≤ 40 := h2 ▸ hj 1 (by omega)
    have htail : 0 < 40 ∧ ∀ j ≤ twoWriters.flatten.length,
        40 ≠ endOf (twoWriters.flatten.take j) := by
      refine ⟨by omega, fun j hj => ?_⟩
      rw [hcount] at hj
      interval_cases j <;> omega
    obtain rfl : k = 1 := by omega
    rw [hr, decide_eq_true htail]
    rfl
  · obtain ⟨k, hk, hj, hr⟩ := hcut 62 (by omega)
    have hk1 : 1 < k ↔ 62 ≤ 62 := h2 ▸ hj 1 (by omega)
    have htail : ¬ (0 < 62 ∧ ∀ j ≤ twoWriters.flatten.length,
        62 ≠ endOf (twoWriters.flatten.take j)) :=
      fun h => h.2 2 hcount.ge h2.symm
    obtain rfl : k = 2 := by omega
    rw [hr, decide_eq_false htail]
    rfl

end LsmKv.Wal
