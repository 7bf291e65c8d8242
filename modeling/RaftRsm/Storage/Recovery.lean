/-
  File:      RaftRsm/Storage/Recovery.lean
  Subject:   The durable log refines the log in memory, across crashes.

  A run appends, truncates, reopens the file, and loses the process in the middle of an append: of
  what that call writes some first bytes are in the file then, whatever their number, and the next
  thing that happens is that the file is opened again.

    * `Stored`                the file is the records of the cached entries, and nothing else
    * `Stored.reopen_cut`     a file that was cut in an append opens with the whole records
    * `durable_log_refines`   the log in memory, with every call that was cut replaced by one of the
                              records it completed, answers every question as the durable log does
-/
import RaftRsm.Journal.Stream
import RaftRsm.Storage.DurableLog

namespace Rsm.Storage

open Rsm.Rpc Journal

/-! ## 1. The file and the cache -/

namespace DurableLog

/-- **The invariant of an open log.** -/
structure Stored (l : DurableLog) : Prop where
  file : l.file = logFormat.encAll 0 l.entries
  offsets : l.offsets = recordOffsets 0 l.entries
  size : l.size = l.file.length
  storable : ∀ e ∈ l.entries, Storable e

variable {l : DurableLog}

theorem pwriteAll_end (file p : Bytes) : pwriteAll file file.length p = file ++ p := by
  simp [pwriteAll]

theorem ftruncate_left (a b : Bytes) : ftruncate (a ++ b) a.length = a := by
  simp [ftruncate]

@[simp] theorem length_recordOffsets (off : ℕ) (es : List LogEntry) :
    (recordOffsets off es).length = es.length := by
  induction es generalizing off with
  | nil => rfl
  | cons e es ih => simp [recordOffsets, ih]

theorem Stored.size_eq (h : Stored l) : l.size = (l.entries.map recordSize).sum := by
  rw [h.size, h.file, length_encAll]

/-- The second loop of `append`. -/
theorem foldl_pushRecord (es : List LogEntry) (l : DurableLog) : es.foldl pushRecord l = { l with
    offsets := l.offsets ++ recordOffsets l.size es
    entries := l.entries ++ es
    size := l.size + (es.map recordSize).sum } := by
  induction es generalizing l with
  | nil => simp [recordOffsets]
  | cons e es ih => simp [ih, pushRecord, recordOffsets, Nat.add_assoc]

theorem append_entries (l : DurableLog) (es : List LogEntry) :
    (l.append es).entries = l.entries ++ es := by
  cases es with
  | nil => simp [append]
  | cons e es =>
      simp only [append, List.isEmpty_cons, Bool.false_eq_true, if_false]
      rw [foldl_pushRecord]

theorem Stored.append (h : Stored l) {es : List LogEntry} (hes : ∀ e ∈ es, Storable e) :
    Stored (l.append es) := by
  by_cases hnil : es.isEmpty = true
  · rw [DurableLog.append, if_pos hnil]
    exact h
  have hfile : pwriteAll l.file l.size (l.writeBuf es) = logFormat.encAll 0 (l.entries ++ es) := by
    rw [h.size, pwriteAll_end, writeBuf_eq, h.file, Format.encAll_append, Nat.zero_add]
  rw [DurableLog.append, if_neg hnil, foldl_pushRecord, hfile]
  refine ⟨rfl, ?_, ?_, fun e he => ?_⟩
  · rw [recordOffsets_append, h.offsets, h.size_eq, Nat.zero_add]
  · rw [length_encAll, List.map_append, List.sum_append, h.size_eq]
  · exact (List.mem_append.mp he).elim (h.storable e) (hes e)

/-- The offset of the record that has `i` before it. -/
theorem Stored.offset (h : Stored l) {i : ℕ} (hi : i < l.entries.length) :
    l.offsets[i]? = some ((l.entries.take i).map recordSize).sum := by
  have hsplit : l.entries = l.entries.take i ++ l.entries[i] :: l.entries.drop (i + 1) := by simp
  have hlen : (recordOffsets 0 (l.entries.take i)).length = i := by simp; omega
  rw [h.offsets]
  nth_rewrite 1 [hsplit]
  rw [recordOffsets_append, recordOffsets, List.getElem?_append_right (by omega), hlen,
    Nat.sub_self, List.getElem?_cons_zero, Nat.zero_add]

theorem Stored.truncateSuffixFrom (h : Stored l) (i : ℕ) : Stored (l.truncateSuffixFrom i) ∧
    (l.truncateSuffixFrom i).entries = InMemoryLog.truncateSuffixFrom l.entries i := by
  unfold DurableLog.truncateSuffixFrom InMemoryLog.truncateSuffixFrom
  dsimp only
  generalize hj : (if i < 1 then 1 else i) = j
  have hj1 : 1 ≤ j := by
    split_ifs at hj <;> omega
  by_cases hgt : j > l.lastIndex
  · rw [if_pos hgt, if_pos (show j > InMemoryLog.lastIndex l.entries from hgt)]
    exact ⟨h, rfl⟩
  rw [if_neg hgt, if_neg (show ¬ j > InMemoryLog.lastIndex l.entries from hgt)]
  unfold lastIndex at hgt
  rw [h.offset (by omega), Option.getD_some]
  -- the file up to the offset is the records that stay
  have hkeep : ftruncate l.file ((l.entries.take (j - 1)).map recordSize).sum =
      logFormat.encAll 0 (l.entries.take (j - 1)) := by
    rw [h.file]
    nth_rewrite 1 [← List.take_append_drop (j - 1) l.entries]
    rw [Format.encAll_append, ← length_encAll 0, ftruncate_left]
  refine ⟨⟨hkeep, ?_, ?_, fun e he => h.storable e (List.mem_of_mem_take he)⟩, rfl⟩
  · have hsplit := congrArg (recordOffsets 0) (List.take_append_drop (j - 1) l.entries)
    rw [recordOffsets_append] at hsplit
    dsimp only
    rw [h.offsets, ← hsplit, List.take_left']
    simp
    omega
  · dsimp only
    rw [hkeep, length_encAll]

/-! ## 2. Opening a file that was cut -/

/-- **What `replay` leaves of a file it opens.** -/
theorem stored_outcome (path : String) {buf t : Bytes} {es : List LogEntry} {s : Stop}
    (h : logFormat.Scans 0 buf es t s) (hs : s ≠ .corrupt) : ∃ l, outcome path buf es t.length s = .ok l ∧
      Stored l ∧ l.entries = es ∧ l.path = path ∧ buf = l.file ++ t ∧ l.tornBytesDiscarded = t.length := by
  have hall : buf = logFormat.encAll 0 es ++ t :=
    h.append_eq fun _ _ _ _ hread => (recordAt_sound hread).2.2
  have hstor : ∀ e ∈ es, Storable e := h.forall_mem fun hread => (recordAt_sound hread).1
  -- the file is whole, or what is left of the last record is cut off it
  cases s with
  | corrupt => exact absurd rfl hs
  | clean =>
      have ht : t = [] := h.left_of_clean
      subst ht
      rw [List.append_nil] at hall
      exact ⟨_, rfl, ⟨hall, rfl, rfl, hstor⟩, rfl, rfl, (List.append_nil buf).symm, rfl⟩
  | torn =>
      have hend : buf.length - t.length = (logFormat.encAll 0 es).length := by
        rw [hall, List.length_append, Nat.add_sub_cancel]
      have hcut : ftruncate buf (buf.length - t.length) = logFormat.encAll 0 es := by
        rw [hend, hall, ftruncate_left]
      exact ⟨_, rfl, ⟨hcut, rfl, by rw [hcut]; exact hend, hstor⟩, rfl, rfl, by rw [hcut]; exact hall, rfl⟩

/-- The longest prefix of `entries` whose records are complete in `written` bytes. -/
def completeRecords : List LogEntry → ℕ → List LogEntry
  | [], _ => []
  | e :: es, written =>
      if recordSize e ≤ written then e :: completeRecords es (written - recordSize e) else []

theorem complete_eq (n : ℕ) (es : List LogEntry) (k : ℕ) :
    logFormat.complete n es k = completeRecords es k := by
  induction es generalizing n k with
  | nil => rfl
  | cons e es ih => simp [Format.complete, completeRecords, ih]

/-- What a crash in `append` leaves on disk, when `written` bytes of the call's write are there. -/
def crashed (l : DurableLog) (entries : List LogEntry) (written : ℕ) : Bytes :=
  pwriteAll l.file l.size ((l.writeBuf entries).take written)

/-- **A file that was cut in an append opens with the records that are whole.** -/
theorem Stored.reopen_cut (h : Stored l) (es : List LogEntry) (hes : ∀ e ∈ es, Storable e) (k : ℕ) :
    ∃ l', replay l.path (l.crashed es k) = some (.ok l') ∧ Stored l' ∧
      l'.entries = l.entries ++ completeRecords es k := by
  obtain ⟨t, s, hscan, hs⟩ := Format.scans_cut logFormat_lawful hes k (n := l.entries.length)
  have hfile : l.crashed es k = logFormat.encAll 0 l.entries ++
      (logFormat.encAll l.entries.length es).take k := by
    rw [crashed, h.size, pwriteAll_end, writeBuf_eq, h.file]
  have hscan' : logFormat.Scans 0 (l.crashed es k) (l.entries ++ completeRecords es k) t s := by
    rw [hfile, ← complete_eq l.entries.length]
    exact Format.scans_encAll logFormat_lawful h.storable (by rwa [Nat.zero_add])
  obtain ⟨l', ho, hst, he, -⟩ := stored_outcome l.path hscan' hs
  exact ⟨l', by rw [replay_of_scans hscan', ho], hst, he⟩

/-- A file that was closed opens as it was. -/
theorem Stored.reopen (h : Stored l) : ∃ l', replay l.path l.file = some (.ok l') ∧ Stored l' ∧
    l'.entries = l.entries := by
  have hfile : l.crashed [] 0 = l.file := by
    rw [crashed, h.size, pwriteAll_end, List.take_zero, List.append_nil]
  obtain ⟨l', hr, hs, he⟩ := h.reopen_cut [] (by simp) 0
  rw [hfile] at hr
  exact ⟨l', hr, hs, by simpa [completeRecords] using he⟩

end DurableLog

/-! ## 3. Runs -/

/-- What happens to a log; `crash entries written` is a crash in `append entries` and the restart
    after it. -/
inductive LogOp where
  | append (entries : List LogEntry)
  | truncateSuffixFrom (i : ℕ)
  | reopen
  | crash (entries : List LogEntry) (written : ℕ)
  deriving DecidableEq, Repr

/-- The entries that a call is given have 64-bit terms and commands that fit their length field. -/
def LogOp.Storable : LogOp → Prop
  | .append entries => ∀ e ∈ entries, Rsm.Storage.Storable e
  | .crash entries _ => ∀ e ∈ entries, Rsm.Storage.Storable e
  | .truncateSuffixFrom _ => True
  | .reopen => True

namespace DurableLog

/-- A log in a directory that has none. -/
def create (dir : String) : Option (Except String DurableLog) := replay (dir ++ "/log") []

def step (l : DurableLog) : LogOp → Option (Except String DurableLog)
  | .append entries => some (.ok (l.append entries))
  | .truncateSuffixFrom i => some (.ok (l.truncateSuffixFrom i))
  | .reopen => replay l.path l.file
  | .crash entries written => replay l.path (l.crashed entries written)

/-- A run ends where the log cannot be opened. -/
def run (l : DurableLog) : List LogOp → Option (Except String DurableLog)
  | [] => some (.ok l)
  | op :: ops =>
      match l.step op with
      | some (.ok l) => l.run ops
      | stuck => stuck

end DurableLog

/-- The log in memory receives, of a call that was cut, the entries it completed. -/
def InMemoryLog.step (l : InMemoryLog) : LogOp → InMemoryLog
  | .append entries => l.append entries
  | .truncateSuffixFrom i => l.truncateSuffixFrom i
  | .reopen => l
  | .crash entries written => l.append (DurableLog.completeRecords entries written)

def InMemoryLog.run (l : InMemoryLog) (ops : List LogOp) : InMemoryLog := ops.foldl step l

namespace DurableLog

variable {l : DurableLog}

/-- **One step.** -/
theorem Stored.step (h : Stored l) {op : LogOp} (hop : op.Storable) : ∃ l',
    l.step op = some (.ok l') ∧ Stored l' ∧ l'.entries = InMemoryLog.step l.entries op := by
  cases op with
  | append es => exact ⟨_, rfl, h.append hop, by simp [InMemoryLog.step, append_entries]⟩
  | truncateSuffixFrom i => exact ⟨_, rfl, h.truncateSuffixFrom i⟩
  | reopen => exact h.reopen
  | crash es k =>
      obtain ⟨l', hr, hs, he⟩ := h.reopen_cut es hop k
      exact ⟨l', hr, hs, by simp [InMemoryLog.step, he]⟩

/-- **A run**: no file it opens is refused. -/
theorem Stored.run (h : Stored l) {ops : List LogOp} (hops : ∀ op ∈ ops, op.Storable) : ∃ l',
    l.run ops = some (.ok l') ∧ Stored l' ∧ l'.entries = InMemoryLog.run l.entries ops := by
  induction ops generalizing l with
  | nil => exact ⟨l, rfl, h, rfl⟩
  | cons op ops ih =>
      obtain ⟨l', hstep, hs, he⟩ := h.step (hops op List.mem_cons_self)
      obtain ⟨l'', hrun, hs', he'⟩ := ih hs fun x hx => hops x (List.mem_cons_of_mem op hx)
      refine ⟨l'', ?_, hs', ?_⟩
      · rw [DurableLog.run, hstep]
        exact hrun
      · rw [he', he]
        rfl

theorem create_stored (dir : String) : ∃ l, create dir = some (.ok l) ∧ Stored l ∧ l.entries = [] :=
  ⟨_, rfl, ⟨rfl, rfl, rfl, by simp⟩, rfl⟩

/-! ## 4. The refinement -/

/-- Both logs answer alike, wherever their preconditions let one ask. -/
structure Agrees (l : DurableLog) (m : InMemoryLog) : Prop where
  lastIndex : l.lastIndex = m.lastIndex
  lastTerm : l.lastTerm = m.lastTerm
  termAt : ∀ i, l.termAt i = m.termAt i
  entryAt : ∀ i, 1 ≤ i → i ≤ l.lastIndex → l.entryAt i = m.entryAt i
  entriesFrom : ∀ i, l.entriesFrom i = m.entriesFrom i
  entriesSpan : ∀ i, l.entriesSpan i = m.entriesSpan i

/-- The offset map and the file: the record of every index is where the map says, the records are
    dense, and nothing follows the last. -/
structure OffsetsExact (l : DurableLog) : Prop where
  length : l.offsets.length = l.lastIndex
  fileSize : l.fileSize = l.file.length
  record : ∀ i, 1 ≤ i → i ≤ l.lastIndex →
    (l.file.drop (l.fileOffsetOf i)).take (recordSize (l.entryAt i)) = recordBytes i (l.entryAt i)
  first : 1 ≤ l.lastIndex → l.fileOffsetOf 1 = 0
  next : ∀ i, 1 ≤ i → i < l.lastIndex →
    l.fileOffsetOf (i + 1) = l.fileOffsetOf i + recordSize (l.entryAt i)
  last : 1 ≤ l.lastIndex →
    l.fileSize = l.fileOffsetOf l.lastIndex + recordSize (l.entryAt l.lastIndex)

theorem agrees_of_entries {m : InMemoryLog} (h : l.entries = m) : Agrees l m := by
  subst h
  exact ⟨rfl, rfl, fun _ => rfl, fun _ _ _ => rfl, fun _ => rfl, fun _ => rfl⟩

theorem Stored.fileOffsetOf (h : Stored l) {i : ℕ} (hi : i < l.entries.length) :
    l.fileOffsetOf (i + 1) = ((l.entries.take i).map recordSize).sum := by
  rw [DurableLog.fileOffsetOf, Nat.add_sub_cancel, h.offset hi, Option.getD_some]

theorem entryAt_succ {i : ℕ} (hi : i < l.entries.length) : l.entryAt (i + 1) = l.entries[i] := by
  simp [entryAt, hi]

/-- The first `i` records and the one after them. -/
theorem sum_take_succ {i : ℕ} (hi : i < l.entries.length) :
    ((l.entries.take (i + 1)).map recordSize).sum =
      ((l.entries.take i).map recordSize).sum + recordSize (l.entryAt (i + 1)) := by
  rw [entryAt_succ hi, List.take_succ_eq_append_getElem hi, List.map_append, List.sum_append,
    List.map_singleton, List.sum_singleton]

theorem Stored.offsetsExact (h : Stored l) : OffsetsExact l where
  length := by rw [h.offsets, length_recordOffsets, lastIndex]
  fileSize := h.size
  record i h1 hi := by
    obtain ⟨i, rfl⟩ := Nat.exists_eq_add_of_le' h1
    have hlt : i < l.entries.length := hi
    have hlen : (l.entries.take i).length = i := by simp; omega
    have hsplit : l.entries = l.entries.take i ++ l.entryAt (i + 1) :: l.entries.drop (i + 1) := by
      simp [entryAt_succ hlt]
    have hfile : l.file = logFormat.encAll 0 (l.entries.take i) ++
        (recordBytes (i + 1) (l.entryAt (i + 1)) ++
          logFormat.encAll (i + 1) (l.entries.drop (i + 1))) := by
      rw [h.file]
      nth_rewrite 1 [hsplit]
      rw [Format.encAll_append, hlen, Nat.zero_add]
      rfl
    rw [h.fileOffsetOf hlt, ← length_encAll 0, hfile, List.drop_left, List.take_left' (by simp)]
  first h1 := by
    rw [h.fileOffsetOf (i := 0) h1]
    rfl
  next i h1 hi := by
    obtain ⟨i, rfl⟩ := Nat.exists_eq_add_of_le' h1
    have hlt : i + 1 < l.entries.length := hi
    rw [h.fileOffsetOf hlt, h.fileOffsetOf (Nat.lt_of_succ_lt hlt),
      sum_take_succ (Nat.lt_of_succ_lt hlt)]
  last h1 := by
    obtain ⟨n, hn⟩ := Nat.exists_eq_add_of_le' h1
    have hlt : n < l.entries.length := by
      unfold lastIndex at hn
      omega
    have hall : l.entries.take (n + 1) = l.entries := List.take_of_length_le (Nat.le_of_eq hn)
    rw [fileSize, h.size_eq, hn, h.fileOffsetOf hlt, ← sum_take_succ hlt, hall]

/-- **The durable log refines the log in memory, across crashes.** Every run from an empty directory
    comes to its end, whatever was appended, truncated, reopened or cut on the way. -/
theorem durable_log_refines (dir : String) (ops : List LogOp) (hops : ∀ op ∈ ops, op.Storable) :
    ∃ l₀ l, create dir = some (.ok l₀) ∧ l₀.run ops = some (.ok l) ∧
      Agrees l (InMemoryLog.run [] ops) ∧ OffsetsExact l := by
  obtain ⟨l₀, hc, h₀, he₀⟩ := create_stored dir
  obtain ⟨l, hrun, hs, he⟩ := h₀.run hops
  rw [he₀] at he
  exact ⟨l₀, l, hc, hrun, agrees_of_entries he, hs.offsetsExact⟩

/-- A call of two entries that is cut in the second record, and a call after it. -/
def cutAppend : List LogOp :=
  [.append [⟨1, [7]⟩], .crash [⟨1, [8]⟩, ⟨2, [9, 9]⟩] 40, .append [⟨3, []⟩], .reopen]

theorem durable_log_refines_cut : InMemoryLog.run [] cutAppend = [⟨1, [7]⟩, ⟨1, [8]⟩, ⟨3, []⟩] ∧
    ∃ l₀ l, create "node1" = some (.ok l₀) ∧ l₀.run cutAppend = some (.ok l) ∧
      Agrees l [⟨1, [7]⟩, ⟨1, [8]⟩, ⟨3, []⟩] ∧ OffsetsExact l := by
  have hops : ∀ op ∈ cutAppend, op.Storable := by
    simp only [cutAppend, List.mem_cons, List.not_mem_nil, or_false]
    rintro op (rfl | rfl | rfl | rfl)
    · exact fun e he => by cases List.mem_singleton.mp he; exact ⟨by decide, by decide⟩
    · intro e he
      simp only [List.mem_cons, List.not_mem_nil, or_false] at he
      rcases he with rfl | rfl
      · exact ⟨by decide, by decide⟩
      · exact ⟨by decide, by decide⟩
    · exact fun e he => by cases List.mem_singleton.mp he; exact ⟨by decide, by decide⟩
    · trivial
  exact ⟨by decide, durable_log_refines "node1" cutAppend hops⟩

end DurableLog

end Rsm.Storage
