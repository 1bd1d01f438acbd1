import LsmKv.SsTable

namespace LsmKv
set_option autoImplicit true

/-- How a call ends: with a result, with a status, by an exception of the string library, or in
an access outside a buffer. -/
inductive Outcome (α : Type) where
  | ok (a : α)
  | error (s : Status)
  | throws
  | outOfRange

namespace Outcome

def bind (x : Outcome α) (f : α → Outcome β) : Outcome β :=
  match x with
  | ok a => f a
  | error s => error s
  | throws => throws
  | outOfRange => outOfRange

def ofExcept : Except Status α → Outcome α
  | .ok a => ok a
  | .error s => error s

/-- The call comes back, with a result or with a status. -/
def Returns (x : Outcome α) : Prop := ∃ r, x = ofExcept r

theorem not_returns_throws : ¬ (throws : Outcome α).Returns := by
  rintro ⟨_ | _, h⟩ <;> cases h

theorem not_returns_outOfRange : ¬ (outOfRange : Outcome α).Returns := by
  rintro ⟨_ | _, h⟩ <;> cases h

theorem returns_bind {x : Outcome α} {f : α → Outcome β} :
    (x.bind f).Returns ↔ x.Returns ∧ ∀ a, x = ok a → (f a).Returns := by
  cases x with
  | ok a =>
    refine ⟨fun h => ⟨⟨.ok a, rfl⟩, ?_⟩, fun h => h.2 a rfl⟩
    rintro _ ⟨⟩
    exact h
  | error s => exact ⟨fun _ => ⟨⟨.error s, rfl⟩, nofun⟩, fun _ => ⟨.error s, rfl⟩⟩
  | throws => exact ⟨fun h => absurd h not_returns_throws, fun h => absurd h.1 not_returns_throws⟩
  | outOfRange =>
    exact ⟨fun h => absurd h not_returns_outOfRange, fun h => absurd h.1 not_returns_outOfRange⟩

theorem bind_ofExcept {x : Except Status α} {f : α → Outcome β} {g : α → Except Status β}
    (h : ∀ a, x = .ok a → f a = ofExcept (g a)) :
    (ofExcept x).bind f = ofExcept (x.bind g) := by
  cases x with
  | error s => rfl
  | ok a => exact h a rfl

theorem ofExcept_eq_ok {x : Except Status α} : ofExcept x = ok a ↔ x = .ok a := by
  cases x <;> simp [ofExcept]

end Outcome

namespace Table

/-- `ReadBlock` past the cache, with its accesses checked: `resize` throws above
`maxSize`, the largest string that can be had, and the checksum is read at `entry.size`,
however short the buffer. -/
def readBlockOutcome (maxSize : Nat) (t : Table) (entry : IndexEntry) : Outcome Bytes :=
  let n := (entry.size + kBlockTrailerSize) % 2 ^ 64
  if maxSize < n then .throws
  else
    (Outcome.ofExcept (readFullyAt t.file entry.offset n)).bind fun buf =>
      if buf.length < entry.size + kBlockTrailerSize then .outOfRange
      else if t.verifyChecksums ∧
          (Crc32c.value (buf.take entry.size)).toNat ≠ decodeFixed32 (buf.drop entry.size) then
        .error (.corruption (t.path ++ ": block checksum mismatch"))
      else .ok (buf.take entry.size)

def footerOf (file : Bytes) : Bytes := file.drop (file.length - kFooterSize)

def indexHandle (file : Bytes) : IndexEntry :=
  ⟨[], decodeFixed64 (footerOf file), decodeFixed64 ((footerOf file).drop 8)⟩

def bloomHandle (file : Bytes) : IndexEntry :=
  ⟨[], decodeFixed64 ((footerOf file).drop 16), decodeFixed64 ((footerOf file).drop 24)⟩

/-- The table before its blocks have been read. -/
def unread (path : String) (file : Bytes) (options : Options) (number : Nat) : Table :=
  ⟨path, file, number, options.verifyChecksums, [], []⟩

/-- `Table::Open` with its accesses checked. -/
def openOutcome (maxSize : Nat) (path : String) (file : Bytes) (options : Options) (number : Nat) :
    Outcome Table :=
  if file.length < kFooterSize then .error (.corruption (path ++ ": file shorter than footer"))
  else if decodeFixed64 ((footerOf file).drop 32) ≠ kTableMagic then
    .error (.corruption (path ++ ": bad table magic"))
  else if file.length <
        ((indexHandle file).offset + (indexHandle file).size + kBlockTrailerSize) % 2 ^ 64 ∨
      file.length <
        ((bloomHandle file).offset + (bloomHandle file).size + kBlockTrailerSize) % 2 ^ 64 then
    .error (.corruption (path ++ ": footer points past end of file"))
  else
    let t := unread path file options number
    (t.readBlockOutcome maxSize (bloomHandle file)).bind fun bloom =>
      (t.readBlockOutcome maxSize (indexHandle file)).bind fun contents =>
        (Outcome.ofExcept (parseIndex path contents.length contents)).bind fun es =>
          .ok { t with index := es, bloom := bloom }

/-- The block and its checksum lie inside the file, as numbers without a width. -/
def InBounds (file : Bytes) (e : IndexEntry) : Prop :=
  e.offset + e.size + kBlockTrailerSize ≤ file.length

/-- The file holds `contents` as the block of a handle, where `pread` reads it and with its checksum
if that is looked at. -/
def Holds (file : Bytes) (verify : Bool) (e : IndexEntry) (contents : Bytes) : Prop :=
  e.offset + e.size + kBlockTrailerSize < 2 ^ 63 ∧ InBounds file e ∧
    contents = (file.drop e.offset).take e.size ∧
    (verify → (Crc32c.value contents).toNat = decodeFixed32 (file.drop (e.offset + e.size)))

/-- `ReadBlock` comes back: the buffer can be had, and either `size + 4` does not wrap around or
the read of the wrapped length fails. -/
def Safe (maxSize : Nat) (file : Bytes) (e : IndexEntry) : Prop :=
  let n := (e.size + kBlockTrailerSize) % 2 ^ 64
  n ≤ maxSize ∧ (e.size + kBlockTrailerSize < 2 ^ 64 ∨
    n ≠ 0 ∧ (2 ^ 63 ≤ e.offset + n ∨ file.length < e.offset + n))

/-- What `Open` asks of a footer. -/
def FooterAccepted (file : Bytes) : Prop :=
  kFooterSize ≤ file.length ∧ decodeFixed64 ((footerOf file).drop 32) = kTableMagic ∧
  ((indexHandle file).offset + (indexHandle file).size + kBlockTrailerSize) % 2 ^ 64 ≤ file.length ∧
  ((bloomHandle file).offset + (bloomHandle file).size + kBlockTrailerSize) % 2 ^ 64 ≤ file.length

theorem length_of_readFullyAt {file : Bytes} (h : readFullyAt file offset n = .ok buf) :
    buf.length = n := by
  unfold readFullyAt at h
  split at h
  · rename_i hn
    cases h
    exact hn.symm
  · split at h
    · cases h
    · split at h
      · cases h
      · cases h
        rw [List.length_take, List.length_drop]
        omega

theorem Safe.read {file : Bytes} (h : Safe maxSize file e) :
    (∃ s, readFullyAt file e.offset ((e.size + kBlockTrailerSize) % 2 ^ 64) = .error s) ∨
      e.size + kBlockTrailerSize < 2 ^ 64 := by
  obtain ⟨_, hlt | ⟨hn, ho⟩⟩ := h
  · exact .inr hlt
  · left
    unfold readFullyAt
    rw [if_neg hn]
    by_cases hoff : 2 ^ 63 ≤ e.offset + (e.size + kBlockTrailerSize) % 2 ^ 64
    · exact ⟨_, if_pos hoff⟩
    · rw [if_neg hoff, if_pos (ho.resolve_left hoff)]
      exact ⟨_, rfl⟩

theorem Safe.readBlockOutcome {t : Table} (h : Safe maxSize t.file e) :
    t.readBlockOutcome maxSize e = .ofExcept (t.readFile e) := by
  have hmax : ¬ maxSize < (e.size + kBlockTrailerSize) % 2 ^ 64 := not_lt.mpr h.1
  simp only [Table.readBlockOutcome, readFile, if_neg hmax]
  cases hr : readFullyAt t.file e.offset ((e.size + kBlockTrailerSize) % 2 ^ 64) with
  | error s => rfl
  | ok buf =>
    have hlt : e.size + kBlockTrailerSize < 2 ^ 64 := by
      refine h.read.resolve_left ?_
      rintro ⟨s, hs⟩
      rw [hr] at hs
      cases hs
    have hlen := length_of_readFullyAt hr
    rw [Nat.mod_eq_of_lt hlt] at hlen
    simp only [Outcome.ofExcept, Outcome.bind]
    rw [if_neg (by omega)]
    split <;> rfl

theorem safe_of_returns {t : Table} (h : (t.readBlockOutcome maxSize e).Returns) :
    Safe maxSize t.file e := by
  unfold Table.readBlockOutcome at h
  by_cases hmax : maxSize < (e.size + kBlockTrailerSize) % 2 ^ 64
  · simp only [if_pos hmax] at h
    exact absurd h Outcome.not_returns_throws
  refine ⟨not_lt.mp hmax, ?_⟩
  by_contra hc
  obtain ⟨hbig, hread⟩ := not_or.mp hc
  have hshort : (e.size + kBlockTrailerSize) % 2 ^ 64 < e.size + kBlockTrailerSize := by omega
  -- the read of the wrapped length succeeds, and the checksum is looked for behind it
  obtain ⟨buf, hbuf⟩ : ∃ buf,
      readFullyAt t.file e.offset ((e.size + kBlockTrailerSize) % 2 ^ 64) = .ok buf := by
    unfold readFullyAt
    by_cases hn : (e.size + kBlockTrailerSize) % 2 ^ 64 = 0
    · exact ⟨_, if_pos hn⟩
    · rw [if_neg hn, if_neg fun ho => hread ⟨hn, .inl ho⟩, if_neg fun ho => hread ⟨hn, .inr ho⟩]
      exact ⟨_, rfl⟩
  have hlen := length_of_readFullyAt hbuf
  simp only [if_neg hmax, hbuf, Outcome.ofExcept, Outcome.bind] at h
  rw [if_pos (by omega)] at h
  exact Outcome.not_returns_outOfRange h

theorem openOutcome_of_not_accepted {path : String} {file : Bytes} (h : ¬ FooterAccepted file) :
    ∃ s, openOutcome maxSize path file options n = .error s ∧
      openFile path file options n = .error s := by
  unfold openOutcome openFile
  by_cases hlen : file.length < kFooterSize
  · exact ⟨_, if_pos hlen, if_pos hlen⟩
  rw [if_neg hlen, if_neg hlen]
  by_cases hmagic : decodeFixed64 ((footerOf file).drop 32) ≠ kTableMagic
  · exact ⟨_, if_pos hmagic, if_pos hmagic⟩
  rw [if_neg hmagic]
  have hpast := not_and_or.mp fun hin => h ⟨not_lt.mp hlen, not_not.mp hmagic, hin⟩
  rw [not_le, not_le] at hpast
  exact ⟨_, if_pos hpast, (if_neg hmagic).trans (if_pos hpast)⟩

theorem openOutcome_of_accepted {path : String} {file : Bytes} (h : FooterAccepted file) :
    openOutcome maxSize path file options n =
      ((unread path file options n).readBlockOutcome maxSize (bloomHandle file)).bind fun bl =>
        ((unread path file options n).readBlockOutcome maxSize (indexHandle file)).bind fun c =>
          (Outcome.ofExcept (parseIndex path c.length c)).bind fun es =>
            .ok { unread path file options n with index := es, bloom := bl } := by
  obtain ⟨hlen, hmagic, hi, hb⟩ := h
  unfold openOutcome
  rw [if_neg (not_lt.mpr hlen), if_neg (not_not.mpr hmagic),
    if_neg (not_or.mpr ⟨not_lt.mpr hi, not_lt.mpr hb⟩)]

theorem openFile_of_accepted {path : String} {file : Bytes} (h : FooterAccepted file) :
    openFile path file options n =
      ((unread path file options n).readFile (bloomHandle file)).bind fun bl =>
        ((unread path file options n).readFile (indexHandle file)).bind fun c =>
          (parseIndex path c.length c).bind fun es =>
            .ok { unread path file options n with index := es, bloom := bl } := by
  obtain ⟨hlen, hmagic, hi, hb⟩ := h
  unfold openFile
  rw [if_neg (not_lt.mpr hlen)]
  refine (if_neg (not_not.mpr hmagic)).trans ?_
  refine (if_neg (not_or.mpr ⟨not_lt.mpr hi, not_lt.mpr hb⟩)).trans ?_
  dsimp only
  split
  · rename_i s hs
    have hbloom : (unread path file options n).readFile (bloomHandle file) = .error s := hs
    rw [hbloom]
    rfl
  · rename_i bl hbl
    have hbloom : (unread path file options n).readFile (bloomHandle file) = .ok bl := hbl
    rw [hbloom]
    split
    · rename_i s hs
      have hindex : (unread path file options n).readFile (indexHandle file) = .error s := hs
      rw [hindex]
      rfl
    · rename_i c hc
      have hindex : (unread path file options n).readFile (indexHandle file) = .ok c := hc
      rw [hindex]
      split
      · rename_i s hs
        show _ = (parseIndex path c.length c).bind _
        rw [hs]
        rfl
      · rename_i es hes
        show _ = (parseIndex path c.length c).bind _
        rw [hes]
        rfl

/-- Where the checked `Open` comes back, it is `Open`. -/
theorem openOutcome_eq_openFile {path : String} {file : Bytes}
    (h : (openOutcome maxSize path file options n).Returns) :
    openOutcome maxSize path file options n = .ofExcept (openFile path file options n) := by
  by_cases hacc : FooterAccepted file
  · rw [openOutcome_of_accepted hacc] at h ⊢
    obtain ⟨hbloom, hnext⟩ := Outcome.returns_bind.mp h
    have hb := (safe_of_returns hbloom).readBlockOutcome
    rw [openFile_of_accepted hacc, hb]
    apply Outcome.bind_ofExcept
    intro bloom hread
    rw [hread] at hb
    have hi := (safe_of_returns (Outcome.returns_bind.mp (hnext bloom hb)).1).readBlockOutcome
    rw [hi]
    apply Outcome.bind_ofExcept
    intro contents _
    apply Outcome.bind_ofExcept
    intro es _
    rfl
  · obtain ⟨s, ho, hf⟩ := openOutcome_of_not_accepted hacc
    rw [ho, hf]
    rfl

end Table

end LsmKv
