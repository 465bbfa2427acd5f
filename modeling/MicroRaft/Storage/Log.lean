import MicroRaft.Core.Encoding
import MicroRaft.Node.Log
import MicroRaft.Storage.Checksum
import MicroRaft.Store.Basic

/-!
# The log file

One line for each entry, with the checksum of its text.  Entries are appended behind the
ones that survive a truncation, which is a rewrite of the whole file under another name.
A crash leaves the file before the rewrite, the rewritten one, or it with a part of the
appended bytes; recovery cuts off an unterminated line and refuses everything else that
is not the next entry.
-/

namespace MicroRaft.Storage

open Store (IoError invalid)

/-- `serde_json` for entries and for frames, with the text of its errors. -/
structure FrameFormat where
  text : Entry → List UInt8
  parse : List UInt8 → Except String (BitVec 32 × Entry)

namespace FrameFormat

variable (f : FrameFormat)

/-- A frame without the end of its line. -/
def body (e : Entry) : List UInt8 :=
  Json.ascii "\x7b\"crc\":" ++ Json.ascii (toString (crc32 (f.text e)).toNat) ++
    Json.ascii ",\"entry\":" ++ f.text e ++ Json.ascii "\x7d"

def frameLine (e : Entry) : List UInt8 := f.body e ++ [10]

/-- The bytes of some entries. -/
def frames (entries : List Entry) : List UInt8 := entries.flatMap f.frameLine

def parseFrame (line : List UInt8) (previous : Nat) : Except String Entry := do
  let (crc, entry) ← (f.parse line).mapError ("unparseable frame: " ++ ·)
  let computed := crc32 (f.text entry)
  if computed ≠ crc then
    throw s!"crc mismatch: stored {crc.toNat}, computed {computed.toNat}"
  if some entry.index ≠ checkedAdd previous 1 then
    throw s!"index gap: {entry.index} follows {previous}"
  return entry

/-- The entry is read back from its line, which has no line end inside. -/
structure Reads (e : Entry) : Prop where
  parse : f.parse (f.body e) = .ok (crc32 (f.text e), e)
  line : 10 ∉ f.body e

end FrameFormat

/-- The selected log: its format, the index in front of it, and whether it must exist. -/
structure LogFile where
  format : FrameFormat
  base : Nat
  required : Bool

/-- A file that may be missing. -/
abbrev File := Option (List UInt8)

namespace LogFile

variable (s : LogFile)

/-- The loop of `recover_log_at`: `line` has been read of the line that starts at `offset`.
Gives the entries and the offset at which the file is cut. -/
def recoverLoop :
    List UInt8 → List UInt8 → Nat → List Entry → Except IoError (List Entry × Nat)
  | [], _, offset, entries => .ok (entries, offset)
  | b :: rest, line, offset, entries =>
      if b = 10 then
        match s.format.parseFrame line ((entries.getLast?.map Entry.index).getD s.base) with
        | .ok entry => recoverLoop rest [] (offset + line.length + 1) (entries ++ [entry])
        | .error why => .error (invalid (s!"log.jsonl corrupt at byte offset {offset}: {why}; " ++
            "refusing to modify newline-terminated data"))
      else recoverLoop rest (line ++ [b]) offset entries

/-- The entries of a file, and the file without its torn tail. -/
def recoverLogAt : File → Except IoError (List Entry × File)
  | none => if s.required then .error ⟨.notFound, "log file is missing"⟩ else .ok ([], none)
  | some bytes => (s.recoverLoop bytes [] 0 []).map fun r => (r.1, some (bytes.take r.2))

/-- The file after `truncate_by_rewrite`, if there is something to truncate. -/
def rewritten (file : File) : Option Nat → Except IoError File
  | none => .ok file
  | some start => (s.recoverLogAt file).map fun r =>
      some (s.format.frames (r.1.filter fun e => e.index < start))

def appendInner (file : File) (start : Option Nat) (entries : List Entry) :
    Except IoError File := do
  let file ← s.rewritten file start
  if entries = [] then return file
  if file = none ∧ s.required then throw ⟨.notFound, "selected generation WAL is missing"⟩
  return some (file.getD [] ++ s.format.frames entries)

def appendEntries (file : File) (start : Option Nat) (entries : List Entry) :
    Except IoError File :=
  if (∃ i ∈ start, i ≤ s.base) ∨ ∃ e ∈ entries.head?, e.index ≤ s.base then
    .error (invalid "cannot rewrite compacted snapshot prefix")
  else s.appendInner file start entries

/-- What a crash during `append_entries` may leave. -/
def MayLeave (file : File) (start : Option Nat) (entries : List Entry) (left : File) : Prop :=
  left = file ∨ ∃ kept, s.rewritten file start = .ok kept ∧
    (left = kept ∨ ∃ k, left = some (kept.getD [] ++ (s.format.frames entries).take k))

/-! ## Reading what was written -/

variable {s} {entries log : List Entry} {file left : File} {start : Option Nat}

/-- Bytes without a line end only make the line longer. -/
theorem recoverLoop_line {part : List UInt8} (h : 10 ∉ part) (rest line : List UInt8)
    (offset : Nat) :
    s.recoverLoop (part ++ rest) line offset entries =
      s.recoverLoop rest (line ++ part) offset entries := by
  induction part generalizing line with
  | nil => simp
  | cons b part ih =>
    rw [List.mem_cons, not_or] at h
    rw [List.cons_append, recoverLoop, if_neg (Ne.symm h.1), ih h.2]
    simp

theorem lastIndex_eq {base : Nat} (h : Numbered base log) :
    (log.getLast?.map Entry.index).getD base = base + log.length := by
  rcases List.eq_nil_or_concat' log with rfl | ⟨init, e, rfl⟩
  · rfl
  · have := h init.length e (by simp)
    simp [this]
    omega

/-- Entries that continue a log. -/
structure Continues (s : LogFile) (log entries : List Entry) : Prop where
  numbered : Numbered (s.base + log.length) entries
  bound : s.base + log.length + entries.length ≤ u64Max
  reads : ∀ e ∈ entries, s.format.Reads e

/-- **Written entries** are read one by one. -/
theorem Continues.recoverLoop (hlog : Numbered s.base log) (h : s.Continues log entries)
    (rest : List UInt8) (offset : Nat) :
    s.recoverLoop (s.format.frames entries ++ rest) [] offset log =
      s.recoverLoop rest [] (offset + (s.format.frames entries).length) (log ++ entries) := by
  induction entries generalizing log offset with
  | nil => simp [FrameFormat.frames]
  | cons e entries ih =>
    obtain ⟨hnumbered, hbound, hreads⟩ := h
    have hindex : e.index = s.base + log.length + 1 := hnumbered 0 e rfl
    obtain ⟨hread, hreads⟩ := List.forall_mem_cons.1 hreads
    rw [List.length_cons] at hbound
    have hparse : s.format.parseFrame (s.format.body e)
        ((log.getLast?.map Entry.index).getD s.base) = .ok e := by
      rw [lastIndex_eq hlog, FrameFormat.parseFrame, hread.parse]
      simp [Except.mapError, Store.ok_bind, checkedAdd, hindex,
        show s.base + log.length + 1 ≤ u64Max by omega]
      rfl
    have hsplit : s.format.frames (e :: entries) ++ rest =
        s.format.body e ++ 10 :: (s.format.frames entries ++ rest) := by
      simp [FrameFormat.frames, FrameFormat.frameLine]
    have hlength : (s.format.frames (e :: entries)).length =
        (s.format.body e).length + 1 + (s.format.frames entries).length := by
      simp [FrameFormat.frames, FrameFormat.frameLine]
      omega
    have hnext : s.Continues (log ++ [e]) entries :=
      ⟨by simpa [Nat.add_assoc] using hnumbered.drop 1, by simp; omega, hreads⟩
    rw [hsplit, recoverLoop_line hread.line, LogFile.recoverLoop, if_pos rfl, List.nil_append,
      hparse]
    dsimp only
    rw [ih (hlog.append (by simpa using hnumbered.take 1)) hnext, hlength, List.append_assoc,
      Nat.add_assoc, Nat.add_assoc, Nat.add_assoc]
    rfl

/-- A cut of written entries is some of them and a part of a line. -/
theorem take_frames {f : FrameFormat} (hreads : ∀ e ∈ entries, f.Reads e) (k : Nat) :
    ∃ j tail, (f.frames entries).take k = f.frames (entries.take j) ++ tail ∧ 10 ∉ tail := by
  induction entries generalizing k with
  | nil => exact ⟨0, [], by simp [FrameFormat.frames], by simp⟩
  | cons e entries ih =>
    obtain ⟨hread, hreads⟩ := List.forall_mem_cons.1 hreads
    have hsplit : f.frames (e :: entries) = f.frameLine e ++ f.frames entries := by
      simp [FrameFormat.frames]
    by_cases hk : k ≤ (f.body e).length
    · refine ⟨0, (f.body e).take k, ?_, fun hmem => hread.line (List.mem_of_mem_take hmem)⟩
      rw [hsplit, FrameFormat.frameLine, List.append_assoc, List.take_append_of_le_length hk]
      simp [FrameFormat.frames]
    · obtain ⟨j, tail, htake, htail⟩ := ih hreads (k - (f.frameLine e).length)
      have hle : (f.frameLine e).length ≤ k := by
        rw [FrameFormat.frameLine, List.length_append, List.length_singleton]
        omega
      refine ⟨j + 1, tail, ?_, htail⟩
      rw [hsplit, List.take_append, List.take_of_length_le hle, htake]
      simp [FrameFormat.frames]

/-! ## Appends and crashes -/

/-- The file holds exactly the lines of a log. -/
structure Holds (s : LogFile) (file : File) (log : List Entry) : Prop where
  file : file = some (s.format.frames log) ∨ file = none ∧ s.required = false ∧ log = []
  log : s.Continues [] log

/-- The lines of a log with a part of a line behind them are recovered as the log. -/
theorem Holds.recover {tail : List UInt8} (h : s.Holds (some (s.format.frames log)) log)
    (htail : 10 ∉ tail) : s.recoverLogAt (some (s.format.frames log ++ tail)) =
      .ok (log, some (s.format.frames log)) := by
  have hend : s.recoverLoop (tail ++ []) [] (s.format.frames log).length log = _ :=
    recoverLoop_line htail [] [] _
  rw [List.append_nil] at hend
  rw [recoverLogAt, h.log.recoverLoop .nil, Nat.zero_add, List.nil_append, hend]
  simp [LogFile.recoverLoop, Except.map]

theorem Holds.recovered (h : s.Holds file log) : s.recoverLogAt file = .ok (log, file) := by
  rcases h.file with rfl | ⟨rfl, hrequired, rfl⟩
  · simpa using h.recover List.not_mem_nil
  · rw [recoverLogAt, hrequired]
    rfl

theorem Holds.append (h : s.Holds file log) (hnew : s.Continues log entries) :
    s.Holds (some (file.getD [] ++ s.format.frames entries)) (log ++ entries) where
  file := by
    rcases h.file with rfl | ⟨rfl, -, rfl⟩ <;> simp [FrameFormat.frames]
  log := by
    have hbound := hnew.bound
    refine ⟨h.log.numbered.append (by simpa using hnew.numbered), by simp; omega, fun e he => ?_⟩
    exact (List.mem_append.1 he).elim (h.log.reads e) (hnew.reads e)

/-- The entries that survive a truncation. -/
def surviving (log : List Entry) : Option Nat → List Entry
  | none => log
  | some start => log.filter fun e => e.index < start

/-- A truncation behind the boundary and entries that continue what it leaves. -/
structure Fits (s : LogFile) (log : List Entry) (start : Option Nat) (entries : List Entry) :
    Prop where
  base : ∀ i ∈ start, s.base < i
  continues : s.Continues (surviving log start) entries

theorem Holds.rewritten (h : s.Holds file log) (hfits : s.Fits log start entries) :
    ∃ kept, s.rewritten file start = .ok kept ∧ s.Holds kept (surviving log start) := by
  cases start with
  | none => exact ⟨file, rfl, h⟩
  | some i =>
    rw [LogFile.rewritten, h.recovered]
    have hbound := (List.length_filter_le (fun e : Entry => e.index < i) log).trans_eq rfl
    have hlog := h.log.bound
    refine ⟨_, rfl, .inl rfl, ?_, ?_, fun e he => h.log.reads e (List.mem_of_mem_filter he)⟩
    · rw [surviving, Numbered.filter_lt h.log.numbered (hfits.base i rfl)]
      exact h.log.numbered.take _
    · rw [surviving]
      omega

theorem Holds.appended (h : s.Holds file log) (hfits : s.Fits log start entries) :
    ∃ file', s.appendEntries file start entries = .ok file' ∧
      s.Holds file' (surviving log start ++ entries) := by
  obtain ⟨kept, hkept, hholds⟩ := h.rewritten hfits
  have hfine : ¬ ((∃ i ∈ start, i ≤ s.base) ∨ ∃ e ∈ entries.head?, e.index ≤ s.base) := by
    rintro (⟨i, hi, hle⟩ | ⟨e, he, hle⟩)
    · exact absurd (hfits.base i hi) (not_lt.2 hle)
    · have := (hfits.continues.numbered.mem_bounds (List.mem_of_mem_head? he)).1
      omega
  rw [appendEntries, if_neg hfine, appendInner, hkept, Store.ok_bind]
  by_cases hnil : entries = []
  · subst hnil
    exact ⟨kept, by simp; rfl, by rwa [List.append_nil]⟩
  · have hpresent : ¬ (kept = none ∧ s.required = true) := by
      rintro ⟨rfl, hrequired⟩
      rcases hholds.file with hsome | ⟨-, hfalse, -⟩
      · cases hsome
      · rw [hrequired] at hfalse
        cases hfalse
    rw [if_neg hnil, if_neg hpresent]
    exact ⟨_, rfl, hholds.append hfits.continues⟩

/-- What a crash leaves is recovered as the old log or as the surviving entries with some
of the new ones. -/
theorem Holds.crash (h : s.Holds file log) (hfits : s.Fits log start entries)
    (hleft : s.MayLeave file start entries left) :
    ∃ log' file', s.recoverLogAt left = .ok (log', file') ∧ s.Holds file' log' ∧
      (log' = log ∨ ∃ k, log' = surviving log start ++ entries.take k) := by
  obtain ⟨kept, hkept, hholds⟩ := h.rewritten hfits
  rcases hleft with rfl | ⟨kept', hkept', hleft⟩
  · exact ⟨log, left, h.recovered, h, .inl rfl⟩
  rw [hkept] at hkept'
  cases hkept'
  rcases hleft with rfl | ⟨k, rfl⟩
  · exact ⟨_, left, hholds.recovered, hholds, .inr ⟨0, by simp⟩⟩
  obtain ⟨hnumbered, hbound, hreads⟩ := hfits.continues
  obtain ⟨j, tail, htake, htail⟩ := take_frames hreads k
  have hpart : s.Continues (surviving log start) (entries.take j) :=
    ⟨hnumbered.take j, by simp; omega, fun e he => hreads e (List.mem_of_mem_take he)⟩
  have hfile := hholds.append hpart
  have hframes : kept.getD [] ++ s.format.frames (entries.take j) =
      s.format.frames (surviving log start ++ entries.take j) := by
    simpa using hfile.file
  rw [hframes] at hfile
  rw [htake, ← List.append_assoc, hframes]
  exact ⟨_, _, hfile.recover htail, hfile, .inr ⟨j, rfl⟩⟩

/-- Appends, and crashes during an append with a recovery after them. -/
inductive Reaches (s : LogFile) : File → List Entry → Prop
  | start {file : File} {log : List Entry} (h : s.Holds file log) : Reaches s file log
  | append {file file' : File} {log entries : List Entry} {start : Option Nat}
      (h : Reaches s file log) (hfits : s.Fits log start entries)
      (happend : s.appendEntries file start entries = .ok file') :
      Reaches s file' (surviving log start ++ entries)
  | crash {file left file' : File} {log log' entries : List Entry} {start : Option Nat}
      (h : Reaches s file log) (hfits : s.Fits log start entries)
      (hleft : s.MayLeave file start entries left)
      (hrecover : s.recoverLogAt left = .ok (log', file')) : Reaches s file' log'

theorem Reaches.holds (h : s.Reaches file log) : s.Holds file log := by
  induction h with
  | start h => exact h
  | append _ hfits happend ih =>
    obtain ⟨file'', happend', hholds⟩ := ih.appended hfits
    rw [happend] at happend'
    cases happend'
    exact hholds
  | crash _ hfits hleft hrecover ih =>
    obtain ⟨log'', file'', hrecover', hholds, -⟩ := ih.crash hfits hleft
    rw [hrecover] at hrecover'
    cases hrecover'
    exact hholds

/-- **The log survives crashes.**  After any run of appends, truncations and crashes at any
byte, the file is recovered as the log; the next append either completes, and then all of it
is recovered, or it crashes, and then the old log or the surviving entries with some of the
new ones are recovered. -/
theorem log_survives_crashes (h : s.Reaches file log) :
    s.recoverLogAt file = .ok (log, file) ∧
    ∀ start entries, s.Fits log start entries →
      (∃ file', s.appendEntries file start entries = .ok file' ∧
        s.recoverLogAt file' = .ok (surviving log start ++ entries, file')) ∧
      ∀ left, s.MayLeave file start entries left →
        ∃ log' file', s.recoverLogAt left = .ok (log', file') ∧
          (log' = log ∨ ∃ k, log' = surviving log start ++ entries.take k) := by
  refine ⟨h.holds.recovered, fun start entries hfits => ⟨?_, fun left hleft => ?_⟩⟩
  · obtain ⟨file', happend, hholds⟩ := h.holds.appended hfits
    exact ⟨file', happend, hholds.recovered⟩
  · obtain ⟨log', file', hrecover, -, hlog⟩ := h.holds.crash hfits hleft
    exact ⟨log', file', hrecover, hlog⟩

/-- The JSON of entries; of all lines, those of some entries are read. -/
def jsonFrames (known : List Entry) : FrameFormat where
  text := Json.write
  parse line :=
    match Json.recognize (FrameFormat.body ⟨Json.write, fun _ => .error ""⟩) known line with
    | some entry => .ok (crc32 (Json.write entry), entry)
    | none => .error "EOF"

/-- Two entries of a first term, and two that replace the second of them. -/
def firstEntry : Entry := ⟨1, 1, .put "key" "one"⟩
def oldEntry : Entry := ⟨2, 1, .put "key" "two"⟩
def newEntry : Entry := ⟨2, 2, .noOp⟩
def nextEntry : Entry := ⟨3, 2, .delete "key"⟩

def sampleFile : LogFile where
  format := jsonFrames [firstEntry, oldEntry, newEntry, nextEntry]
  base := 0
  required := false

example : sampleFile.format.frameLine newEntry = Json.ascii ("\x7b\"crc\":613862570,\"entry\":" ++
    "\x7b\"index\":2,\"term\":2,\"command\":\"NoOp\"\x7d\x7d\n") := by
  decide +kernel

theorem sampleFile_reads :
    ∀ e ∈ [firstEntry, oldEntry, newEntry, nextEntry], sampleFile.format.Reads e := by
  have hread : ∀ e ∈ [firstEntry, oldEntry, newEntry, nextEntry],
      sampleFile.format.parse (sampleFile.format.body e) =
        .ok (crc32 (sampleFile.format.text e), e) ∧ 10 ∉ sampleFile.format.body e := by
    decide +kernel
  exact fun e he => ⟨(hread e he).1, (hread e he).2⟩

/-- The second line is replaced, and the crash comes in the middle of the third. -/
theorem log_survives_crashes_torn :
    ∃ file left file',
      sampleFile.appendEntries none none [firstEntry, oldEntry] = .ok file ∧
      sampleFile.MayLeave file (some 2) [newEntry, nextEntry] left ∧
      sampleFile.recoverLogAt left = .ok ([firstEntry, newEntry], file') ∧
      sampleFile.recoverLogAt file' = .ok ([firstEntry, newEntry], file') ∧
      ∃ file'', sampleFile.appendEntries file' none [nextEntry] = .ok file'' ∧
        sampleFile.recoverLogAt file'' = .ok ([firstEntry, newEntry, nextEntry], file'') := by
  have hcontinues : ∀ log entries : List Entry,
      (∀ e ∈ entries, e ∈ [firstEntry, oldEntry, newEntry, nextEntry]) →
      Numbered log.length entries → log.length + entries.length ≤ 3 →
      sampleFile.Continues log entries := by
    intro log entries hknown hnumbered hlength
    have hthree : 3 ≤ u64Max := by decide
    refine ⟨by rwa [show sampleFile.base = 0 from rfl, Nat.zero_add], ?_,
      fun e he => sampleFile_reads e (hknown e he)⟩
    rw [show sampleFile.base = 0 from rfl]
    omega
  have hnumbered : ∀ (start : Nat) (e e' : Entry), e.index = start + 1 → e'.index = start + 2 →
      Numbered start [e, e'] :=
    fun start e e' h h' => (Numbered.singleton h).append (.singleton h')
  -- the first two entries are appended, the second of them is then replaced
  have hstart : sampleFile.Holds none [] :=
    ⟨.inr ⟨rfl, rfl, rfl⟩, hcontinues [] [] (by simp) .nil (by simp)⟩
  have hfits : sampleFile.Fits [] none [firstEntry, oldEntry] :=
    ⟨by simp, hcontinues [] _ (by simp) (hnumbered 0 _ _ rfl rfl) (by simp)⟩
  obtain ⟨file, happend, hholds⟩ := hstart.appended hfits
  have hfits' : sampleFile.Fits [firstEntry, oldEntry] (some 2) [newEntry, nextEntry] :=
    ⟨by simp [sampleFile], hcontinues [firstEntry] _ (by simp) (hnumbered 1 _ _ rfl rfl)
      (by simp)⟩
  obtain ⟨kept, hkept, hkeptHolds⟩ := hholds.rewritten hfits'
  have hpart : sampleFile.Holds (some (kept.getD [] ++ sampleFile.format.frames [newEntry]))
      [firstEntry, newEntry] :=
    hkeptHolds.append (hcontinues [firstEntry] [newEntry] (by simp) (.singleton rfl) (by simp))
  have hfile : kept.getD [] ++ sampleFile.format.frames [newEntry] =
      sampleFile.format.frames [firstEntry, newEntry] := by
    simpa using hpart.file
  rw [hfile] at hpart
  -- the crash leaves twenty bytes of the third line
  have htake : kept.getD [] ++ (sampleFile.format.frames [newEntry, nextEntry]).take
        ((sampleFile.format.frames [newEntry]).length + 20) =
      sampleFile.format.frames [firstEntry, newEntry] ++
        (sampleFile.format.frameLine nextEntry).take 20 := by
    rw [← hfile]
    simp [FrameFormat.frames, List.take_append]
  have hleft : sampleFile.MayLeave file (some 2) [newEntry, nextEntry] _ :=
    .inr ⟨kept, hkept, .inr ⟨(sampleFile.format.frames [newEntry]).length + 20, rfl⟩⟩
  have htail : 10 ∉ (sampleFile.format.frameLine nextEntry).take 20 := by decide +kernel
  have hrecover := hpart.recover htail
  rw [← htake] at hrecover
  obtain ⟨hrecovered, hnext⟩ := log_survives_crashes
    (.crash (.append (.start hstart) hfits happend) hfits' hleft hrecover)
  refine ⟨file, _, _, happend, hleft, hrecover, hrecovered, (hnext none [nextEntry] ?_).1⟩
  exact ⟨by simp, hcontinues [firstEntry, newEntry] _ (by simp) (.singleton rfl) (by simp)⟩

end LogFile

end MicroRaft.Storage
