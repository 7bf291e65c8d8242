/-
  File:      RaftRsm/Storage/Replay.lean
  Subject:   OPENING ANY FILE: what `replay` makes of arbitrary bytes, and of an append that was cut
             short with its full length already in the file.

  * `Invalid` -- a record that is wholly in the file and fails its check;
  * `replay_arbitrary` -- `replay` comes to an end on every file; it throws exactly at an invalid
    record with bytes behind it, and otherwise leaves the records it read and nothing else;
  * `partial_append_recovers_iff` -- an append of which single bytes are missing is recovered if and
    only if the first record with a missing byte is the last one and its length field is there.
-/
import RaftRsm.Journal.Stream
import RaftRsm.Storage.Recovery
import Mathlib.Data.List.Forall2

namespace Rsm.Storage

open Rsm.Rpc Journal

/-! ## 1. Any file -/

/-- **An invalid record**, with `n` records before it: its header is followed by `tail`, it ends before
    the file does or with it, and its checksum or its index is wrong. -/
structure Invalid (n index term len : ℕ) (tail : Bytes) : Prop where
  index_lt : index < 2 ^ 64
  term_lt : term < 2 ^ 64
  len_lt : len < 2 ^ 32
  inside : len + kCrcSize ≤ tail.length
  wrong : leNat ((tail.drop len).take kCrcSize) ≠
      (crc32c (recordHeader index term len ++ tail.take len)).toNat ∨ index ≠ (n + 1) % 2 ^ 64

/-- What the round of `replay` makes of an invalid record. -/
theorem Invalid.recordAt {n index term len : ℕ} {tail : Bytes} (h : Invalid n index term len tail) :
    recordAt n (recordHeader index term len ++ tail) =
      if len + kCrcSize = tail.length then .torn else .corrupt := by
  have hin := h.inside
  have hbad : ¬ (leNat ((tail.drop len).take kCrcSize) =
      (crc32c (recordHeader index term len ++ tail.take len)).toNat ∧
        index % 2 ^ 64 = (n + 1) % 2 ^ 64) := by
    rw [Nat.mod_eq_of_lt h.index_lt]
    exact fun hgood => h.wrong.elim (fun hc => hc hgood.1) fun hi => hi hgood.2
  have hgt : ¬ kHeaderSize + len + kCrcSize > kHeaderSize + tail.length := by omega
  rw [recordAt_header h.term_lt h.len_lt, if_neg hgt, if_neg hbad]
  exact if_congr (by omega) rfl rfl

/-- Where the round throws. -/
theorem recordAt_corrupt_iff {n : ℕ} {rest : Bytes} : recordAt n rest = .corrupt ↔
    ∃ index term len tail, rest = recordHeader index term len ++ tail ∧
      Invalid n index term len tail ∧ len + kCrcSize < tail.length := by
  constructor
  · intro h
    by_cases hh : rest.length < kHeaderSize
    · rw [show recordAt n rest = .torn from if_pos hh] at h
      cases h
    obtain ⟨index, term, len, tail, hi, ht, hl, rfl⟩ := exists_header (Nat.le_of_not_lt hh)
    rw [recordAt_header ht hl] at h
    split_ifs at h with h1 h2 h3
    refine ⟨index, term, len, tail, rfl, ⟨hi, ht, hl, by omega, ?_⟩, by omega⟩
    rw [Nat.mod_eq_of_lt hi, not_and_or] at h2
    exact h2
  · rintro ⟨index, term, len, tail, rfl, hinv, hlt⟩
    rw [hinv.recordAt, if_neg (Nat.ne_of_lt hlt)]

theorem recordAt_pos {n k : ℕ} {b : Bytes} {e : LogEntry} (h : recordAt n b = .record e k) : 0 < k := by
  obtain ⟨-, rfl, -⟩ := recordAt_sound h
  unfold recordSize kHeaderSize
  omega

namespace DurableLog

/-- A file that holds the records of a log and nothing else opens as it is. -/
theorem Stored.replay_file {l : DurableLog} (h : Stored l) :
    replay l.path l.file = some (.ok { l with tornBytesDiscarded := 0 }) := by
  have hend : logFormat.Scans (0 + l.entries.length) [] [] [] .clean := .clean
  have hscan := Format.scans_encAll logFormat_lawful h.storable hend
  rw [List.append_nil, List.append_nil, ← h.file] at hscan
  rw [replay_of_scans hscan]
  unfold outcome
  rw [← h.offsets, ← h.size]

/-- **Opening any file.** `replay` comes to an end. If it opens the file, what it leaves is a prefix of
    it, exactly the records of the entries, with exact offsets, the bytes behind it counted, and it
    opens again as it is. It throws exactly where the first invalid record ends before the file. -/
theorem replay_arbitrary (path : String) (buf : Bytes) :
    ∃ r, replay path buf = some r ∧
      (∀ l, r = .ok l → Stored l ∧ OffsetsExact l ∧
        (∃ t, buf = l.file ++ t ∧ l.tornBytesDiscarded = t.length) ∧
        replay path l.file = some (.ok { l with tornBytesDiscarded := 0 })) ∧
      ((∃ msg, r = .error msg) ↔ ∃ es index term len tail, (∀ e ∈ es, Storable e) ∧
        buf = logFormat.encAll 0 es ++ (recordHeader index term len ++ tail) ∧
        Invalid es.length index term len tail ∧ len + kCrcSize < tail.length) := by
  obtain ⟨es, t, s, hscan⟩ := Format.exists_scans (F := logFormat) recordAt_pos buf 0
  refine ⟨_, replay_of_scans hscan, fun l hl => ?_, ⟨fun ⟨msg, hmsg⟩ => ?_, ?_⟩⟩
  · have hs : s ≠ .corrupt := by
      rintro rfl
      cases hl
    obtain ⟨l', ho, hst, -, rfl, hbuf, htorn⟩ := stored_outcome path hscan hs
    cases hl.symm.trans ho
    exact ⟨hst, hst.offsetsExact, ⟨t, hbuf, htorn⟩, hst.replay_file⟩
  · cases s with
    | clean => cases hmsg
    | torn => cases hmsg
    | corrupt =>
        have hread := hscan.read_corrupt.2
        rw [Nat.zero_add, logFormat_read, recordAt_corrupt_iff] at hread
        obtain ⟨index, term, len, tail, rfl, hinv, hlt⟩ := hread
        exact ⟨es, index, term, len, tail, hscan.forall_mem fun hr => (recordAt_sound hr).1,
          hscan.append_eq fun _ _ _ _ hr => (recordAt_sound hr).2.2, hinv, hlt⟩
  · rintro ⟨es', index, term, len, tail, hstor, rfl, hinv, hlt⟩
    have hread : logFormat.read es'.length (recordHeader index term len ++ tail) = .corrupt := by
      rw [logFormat_read]
      exact recordAt_corrupt_iff.mpr ⟨index, term, len, tail, rfl, hinv, hlt⟩
    have hne : recordHeader index term len ++ tail ≠ [] := by
      intro hnil
      have := congrArg List.length hnil
      rw [List.length_append, length_recordHeader, List.length_nil] at this
      unfold kHeaderSize at this
      omega
    have hstop : logFormat.Scans (0 + es'.length) (recordHeader index term len ++ tail) []
        (recordHeader index term len ++ tail) .corrupt := by
      rw [Nat.zero_add]
      exact .corrupt hne hread
    obtain ⟨rfl, rfl, rfl⟩ := hscan.unique (Format.scans_encAll logFormat_lawful hstor hstop)
    exact ⟨_, rfl⟩

end DurableLog

/-! ## 2. An append of which bytes are missing -/

/-- Each byte of `img` is the intended one, or still zero. -/
def Landed (img intended : Bytes) : Prop := List.Forall₂ (fun b v => b = v ∨ b = 0) img intended

theorem Landed.length {img v : Bytes} (h : Landed img v) : img.length = v.length := List.Forall₂.length_eq h

theorem Landed.take {img v : Bytes} (h : Landed img v) (k : ℕ) : Landed (img.take k) (v.take k) :=
  List.forall₂_take k h

theorem Landed.drop {img v : Bytes} (h : Landed img v) (k : ℕ) : Landed (img.drop k) (v.drop k) :=
  List.forall₂_drop k h

/-- Missing bytes make a number smaller. -/
theorem Landed.leNat_le {img v : Bytes} (h : Landed img v) : leNat img ≤ leNat v := by
  induction h with
  | nil => exact Nat.le_refl _
  | cons hb _ ih =>
      simp only [leNat]
      rcases hb with rfl | rfl
      · omega
      · simp only [UInt8.toNat_zero]
        omega

/-- The length field of a record. -/
def lengthField (R : Bytes) : Bytes := (R.drop 16).take 4

/-- The checksum does not fit the bytes it covers, which the length field delimits. -/
def CrcMismatch (R : Bytes) : Prop :=
  leNat ((R.drop (kHeaderSize + leNat (lengthField R))).take kCrcSize) ≠
    (crc32c (R.take (kHeaderSize + leNat (lengthField R)))).toNat

theorem lengthField_header (index term len : ℕ) (tail : Bytes) :
    lengthField (recordHeader index term len ++ tail) = leBytes 4 len := by
  have hlen : (leBytes 8 index ++ leBytes 8 term).length = 16 := by simp
  rw [lengthField, recordHeader, List.append_assoc, List.drop_left' hlen, List.take_left' (by simp)]

theorem lengthField_recordBytes (index : ℕ) (e : LogEntry) :
    lengthField (recordBytes index e) = leBytes 4 e.command.length := by
  rw [recordBytes, recordBody, List.append_assoc, lengthField_header]

theorem leNat_leBytes_four {len : ℕ} (h : len < 2 ^ 32) : leNat (leBytes 4 len) = len := by
  rw [leNat_leBytes]
  exact Nat.mod_eq_of_lt h

/-- **What the round of `replay` makes of a damaged record.** It is the torn tail only if it ends the
    file and its length field is there. -/
theorem recordAt_damaged {e : LogEntry} (he : Storable e) {index : ℕ} {R : Bytes}
    (hR : Landed R (recordBytes index e)) (hcrc : CrcMismatch R) (n : ℕ) (rest : Bytes) :
    recordAt n (R ++ rest) =
      if rest = [] ∧ lengthField R = leBytes 4 e.command.length then .torn else .corrupt := by
  have hsize : R.length = kHeaderSize + e.command.length + kCrcSize := by
    rw [hR.length, length_recordBytes, recordSize]
  obtain ⟨i, term, len, tail, hi, ht, hl, rfl⟩ := exists_header (b := R) (by omega)
  rw [List.length_append, length_recordHeader] at hsize
  -- the length field can only be too small: the checksum is inside the record
  have hle : len ≤ e.command.length := by
    have hfield := ((hR.drop 16).take 4).leNat_le
    change leNat (lengthField _) ≤ leNat (lengthField _) at hfield
    rwa [lengthField_header, lengthField_recordBytes, leNat_leBytes_four hl,
      leNat_leBytes_four he.command] at hfield
  have hinside : len + kCrcSize ≤ tail.length := by omega
  have hdrop : (tail ++ rest).drop len = tail.drop len ++ rest :=
    List.drop_append_of_le_length (by omega)
  have hstored : ((tail ++ rest).drop len).take kCrcSize = (tail.drop len).take kCrcSize := by
    rw [hdrop, List.take_append_of_le_length (by rw [List.length_drop]; omega)]
  have hinv : Invalid n i term len (tail ++ rest) := by
    refine ⟨hi, ht, hl, by rw [List.length_append]; omega, .inl ?_⟩
    rw [hstored, List.take_append_of_le_length (by omega)]
    unfold CrcMismatch at hcrc
    rwa [lengthField_header, leNat_leBytes_four hl, ← length_recordHeader i term len,
      List.drop_length_add_append, List.take_length_add_append] at hcrc
  have hends : len + kCrcSize = (tail ++ rest).length ↔ rest = [] ∧
      lengthField (recordHeader i term len ++ tail) = leBytes 4 e.command.length := by
    rw [lengthField_header, List.length_append, ← List.length_eq_zero_iff]
    constructor
    · intro h
      exact ⟨by omega, congrArg (leBytes 4) (by omega)⟩
    · rintro ⟨h0, hbytes⟩
      have := congrArg leNat hbytes
      rw [leNat_leBytes_four hl, leNat_leBytes_four he.command] at this
      omega
  rw [List.append_assoc, hinv.recordAt]
  exact if_congr hends rfl rfl

namespace DurableLog

variable {l : DurableLog} {img : Bytes} {es A B : List LogEntry} {e : LogEntry}

/-- What is in the place of the record of `e`, which has those of `before` before it. -/
def recordImage (img : Bytes) (before : List LogEntry) (e : LogEntry) : Bytes :=
  (img.drop (before.map recordSize).sum).take (recordSize e)

/-- The record of `e`, which has the entries `before` before it in its call, has missing bytes. -/
def Damaged (l : DurableLog) (img : Bytes) (before : List LogEntry) (e : LogEntry) : Prop :=
  recordImage img before e ≠ recordBytes (l.entries.length + before.length + 1) e

/-- **The first record with a missing byte.** -/
def FirstDamaged (l : DurableLog) (img : Bytes) (before : List LogEntry) (e : LogEntry) : Prop :=
  img.take (before.map recordSize).sum = l.writeBuf before ∧ Damaged l img before e

theorem encAll_split (n : ℕ) : logFormat.encAll n (A ++ e :: B) = logFormat.encAll n A ++
    (recordBytes (n + A.length + 1) e ++ logFormat.encAll (n + A.length + 1) B) := by
  rw [Format.encAll_append, Format.encAll_cons, logFormat_enc]

/-- The image of a call, taken apart at one of its records. -/
theorem landed_split {n : ℕ} (h : Landed img (logFormat.encAll n (A ++ e :: B))) :
    Landed (recordImage img A e) (recordBytes (n + A.length + 1) e) ∧
      ∃ rest, img = img.take (A.map recordSize).sum ++ (recordImage img A e ++ rest) ∧
        rest.length = (B.map recordSize).sum := by
  rw [encAll_split] at h
  have hA : (logFormat.encAll n A).length = (A.map recordSize).sum := length_encAll n A
  have hR := (h.drop (A.map recordSize).sum).take (recordSize e)
  rw [List.drop_left' hA, List.take_left' (length_recordBytes _ _)] at hR
  refine ⟨hR, (img.drop (A.map recordSize).sum).drop (recordSize e), ?_, ?_⟩
  · rw [recordImage, List.take_append_drop, List.take_append_drop]
  · have hlen := h.length
    simp only [List.length_append, hA, length_recordBytes, length_encAll] at hlen
    simp only [List.length_drop]
    omega

/-- Either every byte is there, or there is a first record with a missing one. -/
theorem intact_or_firstDamaged {n : ℕ} (h : img.length = (es.map recordSize).sum) :
    img = logFormat.encAll n es ∨ ∃ A e B, es = A ++ e :: B ∧
      img.take (A.map recordSize).sum = logFormat.encAll n A ∧
        recordImage img A e ≠ recordBytes (n + A.length + 1) e := by
  induction es generalizing n img with
  | nil => exact .inl (List.eq_nil_of_length_eq_zero h)
  | cons e es ih =>
      rw [List.map_cons, List.sum_cons] at h
      by_cases hfirst : img.take (recordSize e) = recordBytes (n + 1) e
      · have hsplit : img = recordBytes (n + 1) e ++ img.drop (recordSize e) := by
          rw [← hfirst, List.take_append_drop]
        have hrest : (img.drop (recordSize e)).length = (es.map recordSize).sum := by
          rw [List.length_drop]
          omega
        obtain hall | ⟨A, e', B, rfl, hA, he'⟩ := ih (n := n + 1) hrest
        · rw [hall] at hsplit
          exact .inl hsplit
        · refine .inr ⟨e :: A, e', B, rfl, ?_, ?_⟩
          · rw [List.map_cons, List.sum_cons, List.take_add, hfirst, hA]
            rfl
          · rw [recordImage, List.drop_drop] at he'
            rw [recordImage, List.map_cons, List.sum_cons, List.length_cons]
            rwa [show n + (A.length + 1) + 1 = n + 1 + A.length + 1 by omega]
      · exact .inr ⟨[], e, es, rfl, rfl, hfirst⟩

/-- **Opening the file at its first damaged record.** -/
theorem Stored.replay_firstDamaged (h : Stored l) (hes : ∀ x ∈ A ++ e :: B, Storable x)
    (himg : Landed img (l.writeBuf (A ++ e :: B))) (hcrc : CrcMismatch (recordImage img A e))
    (hA : img.take (A.map recordSize).sum = l.writeBuf A) :
    ((∃ l', replay l.path (pwriteAll l.file l.size img) = some (.ok l')) →
      B = [] ∧ lengthField (recordImage img A e) = leBytes 4 e.command.length) ∧
    (B = [] ∧ lengthField (recordImage img A e) = leBytes 4 e.command.length →
      ∃ l', replay l.path (pwriteAll l.file l.size img) = some (.ok l') ∧
        l'.entries = l.entries ++ A) := by
  rw [writeBuf_eq] at himg hA
  obtain ⟨hR, rest, hsplit, hrest⟩ := landed_split himg
  have hB : rest = [] ↔ B = [] := by
    rw [← List.length_eq_zero_iff, hrest]
    cases B with
    | nil => simp
    | cons b B => simp [recordSize, kHeaderSize]
  have hread : logFormat.read (l.entries ++ A).length (recordImage img A e ++ rest) =
      if B = [] ∧ lengthField (recordImage img A e) = leBytes 4 e.command.length then .torn
      else .corrupt := by
    rw [logFormat_read, recordAt_damaged (hes e (by simp)) hR hcrc]
    exact if_congr (and_congr_left fun _ => hB) rfl rfl
  have hstor : ∀ x ∈ l.entries ++ A, Storable x := by
    intro x hx
    rcases List.mem_append.mp hx with hx | hx
    · exact h.storable x hx
    · exact hes x (List.mem_append_left _ hx)
  have hfile : pwriteAll l.file l.size img =
      logFormat.encAll 0 (l.entries ++ A) ++ (recordImage img A e ++ rest) := by
    rw [h.size, pwriteAll_end, h.file, Format.encAll_append, Nat.zero_add, List.append_assoc, ← hA,
      ← hsplit]
  have hne : recordImage img A e ++ rest ≠ [] := by
    refine List.ne_nil_of_length_pos ?_
    rw [List.length_append, hR.length, length_recordBytes]
    unfold recordSize kHeaderSize
    omega
  -- the scan stands before the damaged record, and stops there
  have hscan : ∀ {s}, logFormat.Scans (l.entries ++ A).length (recordImage img A e ++ rest) []
      (recordImage img A e ++ rest) s → logFormat.Scans 0 (pwriteAll l.file l.size img) (l.entries ++ A)
        (recordImage img A e ++ rest) s := by
    intro s hs
    rw [← Nat.zero_add (l.entries ++ A).length] at hs
    have := Format.scans_encAll logFormat_lawful hstor hs
    rwa [List.append_nil, ← hfile] at this
  constructor
  · rintro ⟨l', hl'⟩
    by_contra hcon
    rw [if_neg hcon] at hread
    rw [replay_of_scans (hscan (.corrupt hne hread))] at hl'
    cases hl'
  · intro hc
    rw [if_pos hc] at hread
    have hall := hscan (.torn hne hread)
    obtain ⟨l', ho, -, he, -⟩ := stored_outcome l.path hall (by simp)
    exact ⟨l', by rw [replay_of_scans hall, ho], he⟩

/-- **Recovery of an append with missing bytes.** The file has its new length and the old bytes, each
    new byte is the intended one or zero, and the checksum of every damaged record shows it. The file
    opens with a prefix of the call if and only if the first damaged record is the last of the call
    and its length field is there; otherwise `replay` throws. -/
theorem partial_append_recovers_iff (h : Stored l) (hes : ∀ e ∈ es, Storable e)
    (himg : Landed img (l.writeBuf es))
    (hcrc : ∀ A e B, es = A ++ e :: B → Damaged l img A e → CrcMismatch (recordImage img A e)) :
    (∃ l' k, replay l.path (pwriteAll l.file l.size img) = some (.ok l') ∧
      l'.entries = l.entries ++ es.take k) ↔
    ∀ A e B, es = A ++ e :: B → FirstDamaged l img A e →
      B = [] ∧ lengthField (recordImage img A e) = leBytes 4 e.command.length := by
  constructor
  · rintro ⟨l', k, hl', -⟩ A e B rfl ⟨hA, hd⟩
    exact (h.replay_firstDamaged hes himg (hcrc A e B rfl hd) hA).1 ⟨l', hl'⟩
  · intro hfirst
    have hlen : img.length = (es.map recordSize).sum := by
      rw [himg.length, writeBuf_eq, length_encAll]
    obtain hall | ⟨A, e, B, rfl, hA, hd⟩ := intact_or_firstDamaged (n := l.entries.length) hlen
    · have happ : pwriteAll l.file l.size img = (l.append es).file := by
        cases es with
        | nil =>
            rw [hall, Format.encAll_nil, h.size, pwriteAll_end, List.append_nil]
            rfl
        | cons e es =>
            rw [hall, ← writeBuf_eq, append, List.isEmpty_cons, foldl_pushRecord]
            rfl
      have hpath : (l.append es).path = l.path := by
        cases es with
        | nil => rfl
        | cons e es =>
            rw [append, List.isEmpty_cons, foldl_pushRecord]
            rfl
      have hopen := (h.append hes).replay_file
      rw [hpath, ← happ] at hopen
      exact ⟨_, es.length, hopen, by rw [List.take_length]; exact append_entries l es⟩
    · rw [← writeBuf_eq] at hA
      obtain ⟨l', hl', he⟩ := (h.replay_firstDamaged hes himg (hcrc A e B rfl hd) hA).2
        (hfirst A e B rfl ⟨hA, hd⟩)
      exact ⟨l', A.length, hl', by rw [he, List.take_left]⟩

/-- A log in an empty directory. -/
def emptyLog : DurableLog := { path := "node1/log", file := [] }

theorem stored_emptyLog : Stored emptyLog := ⟨rfl, rfl, rfl, by simp [emptyLog]⟩

/-- A call of one entry that has all bytes in the file but that of the command. -/
theorem partial_append_recovers_last : ∃ l' k,
    replay "node1/log" (pwriteAll [] 0 ((emptyLog.writeBuf [⟨1, [7]⟩]).set 20 0)) = some (.ok l') ∧
      l'.entries = ([⟨1, [7]⟩] : List LogEntry).take k := by
  have hone : ∀ {A B : List LogEntry} {e}, [⟨1, [7]⟩] = A ++ e :: B → A = [] ∧ e = ⟨1, [7]⟩ ∧ B = [] := by
    intro A B e h
    cases A with
    | nil =>
        cases h
        exact ⟨rfl, rfl, rfl⟩
    | cons a A => simp at h
  refine (partial_append_recovers_iff (l := emptyLog) stored_emptyLog (fun e he => ?_) ?_
    fun A e B h _ => ?_).mpr fun A e B h _ => ?_
  · cases List.mem_singleton.mp he
    exact ⟨by decide, by decide⟩
  · unfold Landed
    decide +kernel
  · obtain ⟨rfl, rfl, rfl⟩ := hone h
    unfold CrcMismatch
    decide +kernel
  · obtain ⟨rfl, rfl, rfl⟩ := hone h
    exact ⟨rfl, by decide +kernel⟩

/-- **A call of two entries is not recovered** when one byte of the first is missing: the command of
    the first record is still zero, everything else is in the file, and the log cannot be opened. -/
theorem batched_append_throws :
    Landed ((emptyLog.writeBuf [⟨1, [7]⟩, ⟨1, [8]⟩]).set 20 0) (emptyLog.writeBuf [⟨1, [7]⟩, ⟨1, [8]⟩]) ∧
    (∀ A e B, [⟨1, [7]⟩, ⟨1, [8]⟩] = A ++ e :: B →
      Damaged emptyLog ((emptyLog.writeBuf [⟨1, [7]⟩, ⟨1, [8]⟩]).set 20 0) A e →
        CrcMismatch (recordImage ((emptyLog.writeBuf [⟨1, [7]⟩, ⟨1, [8]⟩]).set 20 0) A e)) ∧
    replay emptyLog.path
        (pwriteAll emptyLog.file emptyLog.size ((emptyLog.writeBuf [⟨1, [7]⟩, ⟨1, [8]⟩]).set 20 0)) =
      some (.error "corrupt log record at offset 0 in node1/log") := by
  refine ⟨?_, fun A e B h hd => ?_, by decide +kernel⟩
  · unfold Landed
    decide +kernel
  · match A, h with
    | [], h =>
        cases h
        unfold CrcMismatch
        decide +kernel
    | [a], h =>
        cases h
        exact absurd (by decide +kernel) hd
    | a :: a' :: A, h => simp at h

end DurableLog

end Rsm.Storage
