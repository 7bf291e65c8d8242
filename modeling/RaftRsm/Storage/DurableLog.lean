/-
  File:      RaftRsm/Storage/DurableLog.lean
  Subject:   The log in a file (`storage/durable_log.{h,cpp}`).

  The state is the bytes of the file together with the fields of the object that has it open: the
  cached entries, the offset of each record and the end of the file. The file operations do what
  POSIX says; a crash leaves the bytes of the file and nothing else.

    * `writeRecords_eq`   what one call of `append` writes
    * `logFormat_lawful`  a record that was written is read back, and one that was cut is torn
    * `replay_of_scans`   the loop of `replay` is a scan of the file
-/
import RaftRsm.Journal.Scan
import RaftRsm.Rpc.Wire
import RaftRsm.Storage.Crc32c
import RaftRsm.Storage.Log

namespace Rsm.Storage

open Rsm.Rpc Journal

/-! ## 1. The code -/

def kHeaderSize : ℕ := 20

def kCrcSize : ℕ := 4

def recordSize (e : LogEntry) : ℕ := kHeaderSize + e.command.length + kCrcSize

/-- `pwriteAll`: bytes over the file from `off` on; a hole before them is zeros. -/
def pwriteAll (file : Bytes) (off : ℕ) (p : Bytes) : Bytes :=
  file.take off ++ List.replicate (off - file.length) 0 ++ p ++ file.drop (off + p.length)

def ftruncate (file : Bytes) (n : ℕ) : Bytes :=
  file.take n ++ List.replicate (n - file.length) 0

structure DurableLog where
  path : String
  file : Bytes
  entries : List LogEntry := []
  offsets : List ℕ := []
  size : ℕ := 0
  tornBytesDiscarded : ℕ := 0
  deriving DecidableEq, Repr

/-- The record at the head of what is left of the file, with `n` entries read before: one round of
    the loop of `replay`. -/
def recordAt (n : ℕ) (rest : Bytes) : Head LogEntry :=
  let remaining := rest.length
  if remaining < kHeaderSize then .torn
  else
    let r : Reader := { rest }
    let (index, r) := r.u64
    let (term, r) := r.u64
    let (len, _) := r.u32
    let extent := kHeaderSize + len + kCrcSize
    if extent > remaining then .torn
    else
      let crc := crc32c (rest.take (kHeaderSize + len))
      let storedCrc := leNat ((rest.drop (kHeaderSize + len)).take kCrcSize)
      if storedCrc = crc.toNat ∧ index = (n + 1) % 2 ^ 64 then
        .record ⟨term, (rest.drop kHeaderSize).take len⟩ extent
      else if extent = remaining then .torn
      else .corrupt

namespace DurableLog

/-- The loop of `replay`; `none` if it is not done after `fuel` rounds, an error is what it
    throws. -/
def replayLoop (path : String) (buf : Bytes) :
    ℕ → ℕ → List LogEntry → List ℕ → Option (Except String DurableLog)
  | 0, _, _, _ => none
  | fuel + 1, off, entries, offsets =>
      if off < buf.length then
        match recordAt entries.length (buf.drop off) with
        | .record e extent => replayLoop path buf fuel (off + extent) (entries ++ [e]) (offsets ++ [off])
        | .torn =>
            some (.ok { path, entries, offsets, file := ftruncate buf off, size := off
                        tornBytesDiscarded := buf.length - off })
        | .corrupt =>
            some (.error ("corrupt log record at offset " ++ toString off ++ " in " ++ path))
      else some (.ok { path, entries, offsets, file := buf, size := off })

def replay (path : String) (buf : Bytes) : Option (Except String DurableLog) :=
  replayLoop path buf (buf.length + 1) 0 [] []

def lastIndex (l : DurableLog) : ℕ := l.entries.length

def lastTerm (l : DurableLog) : ℕ :=
  match l.entries.getLast? with
  | none => 0
  | some e => e.term

/-- One round of the first loop of `append`. -/
def writeRecord (w : Writer) (index : ℕ) (e : LogEntry) : Writer :=
  let recOff := w.written
  let w := w.u64 index
  let w := w.u64 e.term
  let w := w.u32 e.command.length
  let w := w.bytes e.command
  w.u32 (crc32c ((w.out.drop recOff).take (kHeaderSize + e.command.length))).toNat

/-- The first loop of `append`. -/
def writeRecords (w : Writer) (index : ℕ) (entries : List LogEntry) : Writer :=
  (entries.foldl (fun (w, index) e => (writeRecord w (index + 1) e, index + 1)) (w, index)).1

/-- What `append` has in its buffer when it writes to the file. -/
def writeBuf (l : DurableLog) (entries : List LogEntry) : Bytes :=
  (writeRecords { size := (entries.map recordSize).sum } l.lastIndex entries).out

/-- One round of the second loop of `append`. -/
def pushRecord (l : DurableLog) (e : LogEntry) : DurableLog :=
  { l with
    offsets := l.offsets ++ [l.size]
    entries := l.entries ++ [e]
    size := l.size + recordSize e }

def append (l : DurableLog) (entries : List LogEntry) : DurableLog :=
  if entries.isEmpty then l
  else entries.foldl pushRecord { l with file := pwriteAll l.file l.size (l.writeBuf entries) }

def entriesSpan (l : DurableLog) (i : ℕ) : List LogEntry :=
  let i := if i < 1 then 1 else i
  if i > l.lastIndex then [] else l.entries.drop (i - 1)

def termAt (l : DurableLog) (i : ℕ) : ℕ :=
  if i = 0 then 0
  else match l.entries[i - 1]? with
    | none => 0
    | some e => e.term

def entryAt (l : DurableLog) (i : ℕ) : LogEntry := l.entries[i - 1]?.getD default

def entriesFrom (l : DurableLog) (i : ℕ) : List LogEntry :=
  let i := if i < 1 then 1 else i
  if i > l.lastIndex then [] else l.entries.drop (i - 1)

def truncateSuffixFrom (l : DurableLog) (i : ℕ) : DurableLog :=
  let i := if i < 1 then 1 else i
  if i > l.lastIndex then l
  else
    let newSize := l.offsets[i - 1]?.getD 0
    { l with
      file := ftruncate l.file newSize
      size := newSize
      offsets := l.offsets.take (i - 1)
      entries := l.entries.take (i - 1) }

def fileSize (l : DurableLog) : ℕ := l.size

def fileOffsetOf (l : DurableLog) (i : ℕ) : ℕ := l.offsets[i - 1]?.getD 0

end DurableLog

/-! ## 2. Records -/

def recordHeader (index term len : ℕ) : Bytes := leBytes 8 index ++ leBytes 8 term ++ leBytes 4 len

/-- The part of a record that its checksum covers. -/
def recordBody (index : ℕ) (e : LogEntry) : Bytes :=
  recordHeader index e.term e.command.length ++ e.command

/-- The layout of a record. -/
def recordBytes (index : ℕ) (e : LogEntry) : Bytes :=
  recordBody index e ++ leBytes 4 (crc32c (recordBody index e)).toNat

@[simp] theorem length_recordHeader (index term len : ℕ) :
    (recordHeader index term len).length = kHeaderSize := by
  simp [recordHeader, kHeaderSize]

@[simp] theorem length_recordBody (index : ℕ) (e : LogEntry) :
    (recordBody index e).length = kHeaderSize + e.command.length := by
  simp [recordBody]

@[simp] theorem length_recordBytes (index : ℕ) (e : LogEntry) :
    (recordBytes index e).length = recordSize e := by
  simp [recordBytes, recordSize, kCrcSize]

/-- The file as a run of records: the first has index 1. -/
def logFormat : Format LogEntry UInt8 where
  enc n e := recordBytes (n + 1) e
  read := recordAt

@[simp] theorem logFormat_enc (n : ℕ) (e : LogEntry) : logFormat.enc n e = recordBytes (n + 1) e := rfl

theorem logFormat_read : logFormat.read = recordAt := rfl

/-- An entry as the types of the source have it, with a command that its length field can hold. -/
structure Storable (e : LogEntry) : Prop where
  term : e.term < 2 ^ 64
  command : e.command.length < 2 ^ 32

/-- What `recordAt` finds behind a header that is whole. -/
theorem recordAt_header {term len : ℕ} (ht : term < 2 ^ 64) (hl : len < 2 ^ 32) (n index : ℕ)
    (rest : Bytes) : recordAt n (recordHeader index term len ++ rest) =
      if kHeaderSize + len + kCrcSize > kHeaderSize + rest.length then .torn
      else if leNat ((rest.drop len).take kCrcSize) =
          (crc32c (recordHeader index term len ++ rest.take len)).toNat ∧
          index % 2 ^ 64 = (n + 1) % 2 ^ 64 then
        .record ⟨term, rest.take len⟩ (kHeaderSize + len + kCrcSize)
      else if kHeaderSize + len + kCrcSize = kHeaderSize + rest.length then .torn
      else .corrupt := by
  have hindex : Reader.uint 8 ⟨leBytes 8 index ++ (leBytes 8 term ++ (leBytes 4 len ++ rest)), true⟩ =
      (index % 2 ^ 64, ⟨leBytes 8 term ++ (leBytes 4 len ++ rest), true⟩) := Reader.uint_leBytes 8 _ _
  have hall : (recordHeader index term len ++ rest).length = kHeaderSize + rest.length := by simp
  have hdrop : ∀ k, (recordHeader index term len ++ rest).drop (kHeaderSize + k) = rest.drop k := by
    intro k
    rw [← length_recordHeader index term len, List.drop_length_add_append]
  have htake : ∀ k, (recordHeader index term len ++ rest).take (kHeaderSize + k) =
      recordHeader index term len ++ rest.take k := by
    intro k
    rw [← length_recordHeader index term len, List.take_length_add_append]
  have hcmd : (recordHeader index term len ++ rest).drop kHeaderSize = rest := hdrop 0
  have hread : (⟨recordHeader index term len ++ rest, true⟩ : Reader) =
      ⟨leBytes 8 index ++ (leBytes 8 term ++ (leBytes 4 len ++ rest)), true⟩ := by
    simp [recordHeader]
  unfold recordAt
  rw [hall, if_neg (Nat.not_lt.mpr (Nat.le_add_right _ _)), hcmd]
  simp only [hread, Reader.u64, Reader.u32, hindex, Reader.uint_leBytes_of_lt (n := 8) ht,
    Reader.uint_leBytes_of_lt (n := 4) hl, hdrop, htake]

/-- Twenty bytes are a header. -/
theorem exists_header {b : Bytes} (h : kHeaderSize ≤ b.length) : ∃ index term len rest,
    index < 2 ^ 64 ∧ term < 2 ^ 64 ∧ len < 2 ^ 32 ∧ b = recordHeader index term len ++ rest := by
  unfold kHeaderSize at h
  obtain ⟨index, b, hi, rfl⟩ := exists_leBytes (n := 8) (by omega : 8 ≤ b.length)
  rw [List.length_append, length_leBytes] at h
  obtain ⟨term, b, ht, rfl⟩ := exists_leBytes (n := 8) (by omega : 8 ≤ b.length)
  rw [List.length_append, length_leBytes] at h
  obtain ⟨len, rest, hl, rfl⟩ := exists_leBytes (n := 4) (by omega : 4 ≤ b.length)
  exact ⟨index, term, len, rest, hi, ht, hl, by simp [recordHeader]⟩

/-- **A record that was written is read back.** -/
theorem recordAt_whole {e : LogEntry} (he : Storable e) (n : ℕ) (rest : Bytes) :
    recordAt n (recordBytes (n + 1) e ++ rest) = .record e (recordSize e) := by
  have hcrc := (crc32c (recordBody (n + 1) e)).isLt
  rw [recordBytes, recordBody, List.append_assoc, List.append_assoc,
    recordAt_header he.term he.command, ← recordBody, if_neg, if_pos]
  · simp [recordSize]
  · refine ⟨?_, rfl⟩
    rw [List.drop_left, List.take_left, ← recordBody, List.take_left' (by simp [kCrcSize]),
      leNat_leBytes]
    exact Nat.mod_eq_of_lt hcrc
  · simp [kCrcSize]
    omega

/-- **A record that was cut is torn.** -/
theorem recordAt_cut {e : LogEntry} (he : Storable e) (n : ℕ) {b : Bytes}
    (hb : b <+: recordBytes (n + 1) e) (hlt : b.length < recordSize e) : recordAt n b = .torn := by
  by_cases hh : b.length < kHeaderSize
  · exact if_pos hh
  · -- the header is whole: the extent it states runs past the end
    have hpre : recordHeader (n + 1) e.term e.command.length <+: b := by
      refine List.prefix_of_prefix_length_le ?_ hb (by simpa using hh)
      rw [recordBytes, recordBody, List.append_assoc]
      exact List.prefix_append _ _
    obtain ⟨rest, rfl⟩ := hpre
    rw [List.length_append, length_recordHeader] at hlt
    rw [recordAt_header he.term he.command]
    exact if_pos hlt

/-- **Only what would be written is read.** -/
theorem recordAt_sound {n k : ℕ} {b : Bytes} {e : LogEntry} (h : recordAt n b = .record e k) :
    Storable e ∧ k = recordSize e ∧ b.take k = recordBytes (n + 1) e := by
  by_cases hh : b.length < kHeaderSize
  · rw [show recordAt n b = .torn from if_pos hh] at h
    cases h
  obtain ⟨index, term, len, rest, hi, ht, hl, rfl⟩ := exists_header (Nat.le_of_not_lt hh)
  rw [recordAt_header ht hl] at h
  split_ifs at h with h1 h2
  obtain ⟨hcrc, hindex⟩ := h2
  cases h
  have hrest : len + 4 ≤ rest.length := by
    unfold kCrcSize at h1
    omega
  have hlen : (rest.take len).length = len := by simp; omega
  have hstored : ((rest.drop len).take kCrcSize).length = 4 := by simp [kCrcSize]; omega
  have hheader : recordHeader index term len = recordHeader (n + 1) term len := by
    unfold recordHeader
    rw [← leBytes_mod 8 index, ← leBytes_mod 8 (n + 1)]
    exact congrArg (fun i => leBytes 8 i ++ leBytes 8 term ++ leBytes 4 len) hindex
  refine ⟨⟨ht, by rw [hlen]; exact hl⟩, by rw [recordSize, hlen], ?_⟩
  have hback := leBytes_leNat ((rest.drop len).take kCrcSize)
  rw [hstored, hcrc, hheader] at hback
  rw [recordBytes, recordBody, hlen, hback, Nat.add_assoc, ← length_recordHeader index term len,
    List.take_length_add_append, List.take_add, hheader, List.append_assoc]

theorem logFormat_lawful : logFormat.Lawful Storable where
  whole n e rest he := by
    rw [logFormat_read, logFormat_enc, length_recordBytes]
    exact recordAt_whole he n rest
  cut n e b he hb hlt := by
    rw [logFormat_enc, length_recordBytes] at hlt
    exact recordAt_cut he n hb hlt
  nonempty n e h := by
    have := congrArg List.length h
    simp [recordSize, kHeaderSize] at this

/-! ## 3. What `append` writes -/

namespace DurableLog

theorem writeRecord_eq {w : Writer} {e : LogEntry} (h : w.Room (recordSize e)) (index : ℕ) :
    writeRecord w index e = w.wrote (recordBytes index e) := by
  -- the checksum is taken from what the four writes before it left in the buffer
  have hbody : (((w.u64 index).u64 e.term).u32 e.command.length).bytes e.command =
      w.wrote (recordBody index e) := by
    have := Writer.puts_eq [leBytes 8 index, leBytes 8 e.term, leBytes 4 e.command.length, e.command]
      (w := w) ⟨h.ok, by have := h.fits; simp [recordSize, kHeaderSize] at this ⊢; omega⟩
    simpa [recordBody, recordHeader, Writer.u64, Writer.u32, Writer.bytes] using this
  have hdrop : (w.out ++ recordBody index e).drop w.written = recordBody index e := List.drop_left
  have hroom : (w.wrote (recordBody index e)).Room 4 := h.wrote (by simp [recordSize, kCrcSize])
  unfold writeRecord
  simp only [hbody, Writer.wrote_out, hdrop]
  rw [List.take_of_length_le (by simp), Writer.u32, Writer.put_eq (by simpa using hroom),
    Writer.wrote_wrote]
  rfl

/-- **What one call of `append` writes**: its records, back to back. -/
theorem writeRecords_eq {es : List LogEntry} {w : Writer} (h : w.Room (es.map recordSize).sum)
    (index : ℕ) : writeRecords w index es = w.wrote (logFormat.encAll index es) := by
  induction es generalizing w index with
  | nil => simp [writeRecords]
  | cons e es ih =>
      rw [List.map_cons, List.sum_cons] at h
      have he : w.Room (recordSize e) := ⟨h.ok, by have := h.fits; omega⟩
      have hrest := ih (h.wrote (b := recordBytes (index + 1) e) (by simp)) (index + 1)
      unfold writeRecords at hrest ⊢
      rw [List.foldl_cons]
      dsimp only
      rw [writeRecord_eq he, hrest, Writer.wrote_wrote]
      rfl

theorem writeBuf_eq (l : DurableLog) (es : List LogEntry) :
    l.writeBuf es = logFormat.encAll l.entries.length es := by
  unfold writeBuf
  rw [writeRecords_eq ⟨rfl, by simp⟩]
  rfl

theorem length_encAll (n : ℕ) (es : List LogEntry) :
    (logFormat.encAll n es).length = (es.map recordSize).sum := by
  induction es generalizing n with
  | nil => rfl
  | cons e es ih => simp [ih]

end DurableLog

/-! ## 4. Replay is a scan -/

/-- Where records that stand back to back from `off` on begin. -/
def recordOffsets : ℕ → List LogEntry → List ℕ
  | _, [] => []
  | off, e :: es => off :: recordOffsets (off + recordSize e) es

namespace DurableLog

/-- What the loop of `replay` ends with, from what it has read, what the scan of the rest read and
    how many bytes that left. -/
def outcome (path : String) (buf : Bytes) (entries : List LogEntry) (left : ℕ) :
    Stop → Except String DurableLog
  | .clean => .ok { path, file := buf, entries, offsets := recordOffsets 0 entries, size := buf.length }
  | .torn =>
      .ok { path, entries, file := ftruncate buf (buf.length - left)
            offsets := recordOffsets 0 entries, size := buf.length - left, tornBytesDiscarded := left }
  | .corrupt =>
      .error ("corrupt log record at offset " ++ toString (buf.length - left) ++ " in " ++ path)

theorem recordOffsets_append (off : ℕ) (es fs : List LogEntry) : recordOffsets off (es ++ fs) =
    recordOffsets off es ++ recordOffsets (off + (es.map recordSize).sum) fs := by
  induction es generalizing off with
  | nil => simp [recordOffsets]
  | cons e es ih => simp [recordOffsets, ih, Nat.add_assoc]

/-- One round, where something is left to read. -/
theorem replayLoop_round {path : String} {buf : Bytes} {off : ℕ} (hne : buf.drop off ≠ [])
    (fuel : ℕ) (done : List LogEntry) (offsets : List ℕ) :
    replayLoop path buf (fuel + 1) off done offsets =
      match recordAt done.length (buf.drop off) with
      | .record e extent => replayLoop path buf fuel (off + extent) (done ++ [e]) (offsets ++ [off])
      | .torn => some (.ok { path, offsets, entries := done, file := ftruncate buf off, size := off
                             tornBytesDiscarded := buf.length - off })
      | .corrupt =>
          some (.error ("corrupt log record at offset " ++ toString off ++ " in " ++ path)) := by
  have hlt : off < buf.length := Nat.lt_of_not_le fun hle => hne (List.drop_eq_nil_of_le hle)
  rw [replayLoop, if_pos hlt]

/-- **The loop of `replay` is a scan.** It has read `done`, and its offset is where they end. -/
theorem replayLoop_of_scans {path : String} {buf b t : Bytes} {n : ℕ} {es : List LogEntry} {s : Stop}
    (h : logFormat.Scans n b es t s) (done : List LogEntry) {off fuel : ℕ} (hn : done.length = n)
    (hoff : off = (done.map recordSize).sum) (hb : buf.drop off = b) (hle : off ≤ buf.length)
    (hfuel : b.length < fuel) :
    replayLoop path buf fuel off done (recordOffsets 0 done) =
      some (outcome path buf (done ++ es) t.length s) := by
  induction h generalizing done off fuel with
  | clean =>
      obtain ⟨fuel, rfl⟩ := Nat.exists_eq_add_of_lt hfuel
      have hend : off = buf.length := Nat.le_antisymm hle (List.drop_eq_nil_iff.mp hb)
      simp [replayLoop, outcome, hend]
  | torn hne hread | corrupt hne hread =>
      subst hn hb
      rw [logFormat_read] at hread
      obtain ⟨fuel, rfl⟩ := Nat.exists_eq_add_of_lt hfuel
      have hleft : buf.length - (buf.length - off) = off := by omega
      rw [replayLoop_round hne, hread]
      simp [outcome, hleft]
  | @record _ k _ t e es s hne hread _ ih =>
      subst hn hb
      rw [logFormat_read] at hread
      obtain ⟨-, rfl, htake⟩ := recordAt_sound hread
      have hk : recordSize e ≤ (buf.drop off).length := by
        have := congrArg List.length htake
        rw [List.length_take, length_recordBytes] at this
        omega
      have hpos : 0 < recordSize e := by
        unfold recordSize kHeaderSize
        omega
      obtain ⟨fuel, rfl⟩ := Nat.exists_eq_add_of_lt hfuel
      have hsum : off + recordSize e = ((done ++ [e]).map recordSize).sum := by simp [hoff]
      have hoffs : recordOffsets 0 done ++ [off] = recordOffsets 0 (done ++ [e]) := by
        simp [recordOffsets_append, recordOffsets, hoff]
      rw [List.length_drop] at hk
      rw [replayLoop_round hne, hread, hoffs]
      dsimp only
      rw [ih (done ++ [e]) (by simp) hsum (by rw [List.drop_drop]) (by omega)
        (by simp only [List.length_drop]; omega), List.append_assoc]
      rfl

theorem replay_of_scans {path : String} {buf t : Bytes} {es : List LogEntry} {s : Stop}
    (h : logFormat.Scans 0 buf es t s) : replay path buf = some (outcome path buf es t.length s) :=
  replayLoop_of_scans h [] rfl rfl List.drop_zero (Nat.zero_le _) (Nat.lt_succ_self _)

end DurableLog

end Rsm.Storage
