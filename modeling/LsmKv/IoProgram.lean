import LsmKv.Machine

namespace LsmKv
set_option autoImplicit true

/-- The names a system call may change the file of. -/
def Io.names : Io → List FileName
  | openFile name _ => [name]
  | append name _ => [name]
  | fsync name => [name]
  | rename old new => [old, new]
  | syncDir => []
  | unlink name => [name]

variable {fs fs' : DbFs} {io io' : List Io} {name : FileName} {bytes : Bytes}

theorem Io.read_run (op : Io) (fs : DbFs) (h : name ∉ op.names) :
    (op.run fs).read name = fs.read name := by
  cases op with
  | openFile n t =>
    rw [run, Fs.read_openFile, if_neg (by simpa [names] using h)]
  | append n bs => rw [run, Fs.read_append, if_neg (by simpa [names] using h)]
  | fsync n => rw [run, Fs.read_fsync]
  | rename a b =>
    simp only [names, List.mem_cons, List.not_mem_nil, or_false, not_or] at h
    by_cases hr : fs.read a = none
    · rw [run, Fs.rename]
      split
      · rfl
      · rename_i i hi
        rw [Fs.read, hi] at hr
        cases hr
    · by_cases hab : a = b
      · subst hab
        rw [run, Fs.rename]
        split
        · rfl
        · rw [Fs.read, Fs.read, AList.lookup_insert_ne h.1, AList.lookup_erase_ne h.1]
      · rw [run, Fs.read_rename fs hab hr, if_neg h.2, if_neg h.1]
  | syncDir => rfl
  | unlink n => rw [run, Fs.read_unlink, if_neg (by simpa [names] using h)]

theorem ioStep_cases (h : ioStep n fs io = some (fs', io')) :
    (∃ op, io = op :: io' ∧ fs' = op.run fs) ∨
      ∃ name bytes rest, io = .append name bytes :: rest ∧ 0 < n ∧ n < bytes.length ∧
        fs' = fs.append name (bytes.take n) ∧ io' = .append name (bytes.drop n) :: rest := by
  rcases io with - | ⟨op, rest⟩
  · cases h
  · cases op with
    | append name bytes =>
      rw [ioStep] at h
      split at h
      · rename_i hn
        cases h
        exact .inr ⟨name, bytes, rest, rfl, hn.1, hn.2, rfl, rfl⟩
      · cases h
        exact .inl ⟨_, rfl, rfl⟩
    | _ =>
      cases h
      exact .inl ⟨_, rfl, rfl⟩

theorem read_ioStep (h : ioStep n fs io = some (fs', io')) (hn : ∀ op ∈ io, name ∉ op.names) :
    fs'.read name = fs.read name := by
  rcases ioStep_cases h with ⟨op, rfl, rfl⟩ | ⟨nm, bs, rest, rfl, _, _, rfl, rfl⟩
  · exact op.read_run fs (hn op List.mem_cons_self)
  · exact Io.read_run (.append nm _) fs (hn (.append nm bs) List.mem_cons_self)

theorem ioStep_names (h : ioStep n fs io = some (fs', io')) (hn : ∀ op ∈ io, name ∉ op.names) :
    ∀ op ∈ io', name ∉ op.names := by
  rcases ioStep_cases h with ⟨op, rfl, rfl⟩ | ⟨nm, bs, rest, rfl, _, _, rfl, rfl⟩
  · exact fun o ho => hn o (List.mem_cons_of_mem op ho)
  · intro o ho
    rcases List.mem_cons.1 ho with rfl | ho
    · exact hn (.append nm bs) List.mem_cons_self
    · exact hn o (List.mem_cons_of_mem _ ho)

/-- The program that puts `bytes` into a new file, at some point of it. -/
def Writing (fs : DbFs) (name : FileName) (bytes : Bytes) (io : List Io) : Prop :=
  (fs.read name = none ∧ io = [.openFile name true, .append name bytes, .fsync name]) ∨
    (∃ written rest, fs.read name = some written ∧ written ++ rest = bytes ∧
      io = [.append name rest, .fsync name]) ∨
    fs.read name = some bytes ∧ (io = [.fsync name] ∨ io = [])

theorem Writing.names (h : Writing fs name bytes io) (hne : other ≠ name) :
    ∀ op ∈ io, other ∉ op.names := by
  rcases h with ⟨_, rfl⟩ | ⟨w, rest, _, _, rfl⟩ | ⟨_, rfl | rfl⟩ <;> simp [Io.names, hne]

theorem Writing.frame (h : Writing fs name bytes io) (hr : fs'.read name = fs.read name) :
    Writing fs' name bytes io := by
  rcases h with ⟨h1, h2⟩ | ⟨w, rest, h1, h2, h3⟩ | ⟨h1, h2⟩
  · exact .inl ⟨hr.trans h1, h2⟩
  · exact .inr (.inl ⟨w, rest, hr.trans h1, h2, h3⟩)
  · exact .inr (.inr ⟨hr.trans h1, h2⟩)

theorem Writing.step (h : Writing fs name bytes io) (hs : ioStep n fs io = some (fs', io')) :
    Writing fs' name bytes io' := by
  rcases h with ⟨_, rfl⟩ | ⟨w, rest, hr, hw, rfl⟩ | ⟨hr, rfl | rfl⟩
  · cases hs
    exact .inr (.inl ⟨[], bytes, by simp [Io.run, Fs.read_openFile], rfl, rfl⟩)
  · rcases ioStep_cases hs with ⟨op, he, rfl⟩ | ⟨nm, bs, rest', he, _, _, rfl, rfl⟩
    · cases he
      refine .inr (.inr ⟨?_, .inl rfl⟩)
      simp [Io.run, Fs.read_append, hr, hw]
    · cases he
      refine .inr (.inl ⟨w ++ rest.take n, rest.drop n, ?_, ?_, rfl⟩)
      · simp [Fs.read_append, hr]
      · rw [List.append_assoc, List.take_append_drop, hw]
  · cases hs
    exact .inr (.inr ⟨by simp [Io.run, hr], .inr rfl⟩)
  · cases hs

theorem writing_writeTable (h : fs.read (.sst number) = none) (file : Bytes) :
    Writing fs (.sst number) file (writeTable number file) := .inl ⟨h, rfl⟩

theorem Writing.done (h : Writing fs name bytes []) : fs.read name = some bytes := by
  rcases h with ⟨_, h⟩ | ⟨_, _, _, _, h⟩ | ⟨h, _⟩
  · cases h
  · cases h
  · exact h

theorem names_writeManifest (m : Manifest) (h1 : name ≠ .manifest) (h2 : name ≠ .manifestTmp) :
    ∀ op ∈ writeManifest m, name ∉ op.names := by
  simp [writeManifest, Io.names, h1, h2]

/-- The program that makes a new log, at some point of it. -/
def OpeningLog (fs : DbFs) (number : Nat) (io : List Io) : Prop :=
  (fs.read (.log number) = none ∧
      io = [.openFile (.log number) false, .append (.log number) Wal.fileHeader]) ∨
    (∃ written rest, fs.read (.log number) = some written ∧ written ++ rest = Wal.fileHeader ∧
      io = [.append (.log number) rest]) ∨
    fs.read (.log number) = some Wal.fileHeader ∧ io = []

theorem openingLog_openLog (h : fs.read (.log number) = none) :
    OpeningLog fs number (openLog fs number) := by
  rw [openLog, h]
  exact .inl ⟨h, rfl⟩

theorem OpeningLog.names (h : OpeningLog fs number io) (hne : name ≠ .log number) :
    ∀ op ∈ io, name ∉ op.names := by
  rcases h with ⟨_, rfl⟩ | ⟨_, _, _, _, rfl⟩ | ⟨_, rfl⟩ <;> simp [Io.names, hne]

theorem OpeningLog.frame (h : OpeningLog fs number io)
    (hr : fs'.read (.log number) = fs.read (.log number)) : OpeningLog fs' number io := by
  rcases h with ⟨h1, h2⟩ | ⟨w, rest, h1, h2, h3⟩ | ⟨h1, h2⟩
  · exact .inl ⟨hr.trans h1, h2⟩
  · exact .inr (.inl ⟨w, rest, hr.trans h1, h2, h3⟩)
  · exact .inr (.inr ⟨hr.trans h1, h2⟩)

theorem OpeningLog.step (h : OpeningLog fs number io) (hs : ioStep n fs io = some (fs', io')) :
    OpeningLog fs' number io' := by
  rcases h with ⟨hr, rfl⟩ | ⟨w, rest, hr, hw, rfl⟩ | ⟨hr, rfl⟩
  · cases hs
    exact .inr (.inl ⟨[], Wal.fileHeader, by simp [Io.run, Fs.read_openFile, hr], rfl, rfl⟩)
  · rcases ioStep_cases hs with ⟨op, he, rfl⟩ | ⟨nm, bs, rest', he, _, _, rfl, rfl⟩
    · cases he
      exact .inr (.inr ⟨by simp [Io.run, Fs.read_append, hr, hw], rfl⟩)
    · cases he
      refine .inr (.inl ⟨w ++ rest.take n, rest.drop n, ?_, ?_, rfl⟩)
      · simp [Fs.read_append, hr]
      · rw [List.append_assoc, List.take_append_drop, hw]
  · cases hs

theorem OpeningLog.done (h : OpeningLog fs number []) :
    fs.read (.log number) = some Wal.fileHeader := by
  rcases h with ⟨_, h⟩ | ⟨_, _, _, _, h⟩ | ⟨hr, _⟩
  · cases h
  · cases h
  · exact hr

theorem OpeningLog.header (h : OpeningLog fs number io) (hb : fs.read (.log number) = some bytes) :
    bytes <+: Wal.fileHeader := by
  rcases h with ⟨hr, _⟩ | ⟨w, rest, hr, hw, _⟩ | ⟨hr, _⟩ <;> rw [hr] at hb <;> cases hb
  · exact ⟨rest, hw⟩
  · exact List.prefix_rfl

theorem OpeningLog.failIo (h : OpeningLog fs number io) (hs : Sys.failIo n fs io = some fs')
    (hb : fs'.read (.log number) = some bytes) : bytes <+: Wal.fileHeader := by
  rcases h with ⟨hr, rfl⟩ | ⟨w, rest, hr, hw, rfl⟩ | ⟨hr, rfl⟩
  · cases hs
    rw [hr] at hb
    cases hb
  · rw [Sys.failIo] at hs
    split at hs <;> cases hs
    rw [Fs.read_append, if_pos rfl, hr] at hb
    cases hb
    rw [← hw]
    exact (List.prefix_append_right_inj w).2 (List.take_prefix n rest)
  · cases hs

theorem read_failIo (h : Sys.failIo n fs io = some fs') (hn : ∀ op ∈ io, name ∉ op.names) :
    fs'.read name = fs.read name := by
  rcases io with - | ⟨op, rest⟩
  · cases h
  · cases op with
    | append nm bytes =>
      rw [Sys.failIo] at h
      split at h
      · cases h
        exact Io.read_run (.append nm _) fs (hn (.append nm bytes) List.mem_cons_self)
      · cases h
    | unlink nm => cases h
    | _ =>
      cases h
      rfl

end LsmKv
