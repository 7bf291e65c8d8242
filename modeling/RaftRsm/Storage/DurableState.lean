/-
  File:      RaftRsm/Storage/DurableState.lean
  Subject:   The DURABLE METADATA, current term and vote (`storage/durable_state.cpp`).

  Both are in one file of 20 bytes, which every `save` replaces: it writes `meta.tmp`, syncs it, renames
  it to `meta` and syncs the directory. The constructor removes what is left of a `meta.tmp` and reads
  `meta`. A crash may come at any point, and may come again.

  * `readMeta_metaBytes` -- what is written is accepted, and read as the pair that was saved;
  * `Lives` -- saves, crashes at any point of a save, and restarts, from an empty directory on;
  * `Kept` -- what such a run keeps of the directory;
  * `metadata_crash_atomic` -- after a crash the constructor never throws, and finds the pair before the
    save or the pair of the save.
-/
import RaftRsm.Journal.Replace
import RaftRsm.Rpc.Wire
import RaftRsm.Storage.Crc32c

namespace Rsm.Storage

open Rsm.Rpc Journal

/-! ## 1. The code -/

def kMagic : ℕ := 0x4D4D5352

def kVersion : ℕ := 1

def kMetaSize : ℕ := 20

def kCrcOffset : ℕ := 16

/-- The two names, `meta` and `meta.tmp`. -/
inductive MetaPath where
  | path
  | tmpPath
  deriving DecidableEq, Repr

abbrev MetaDisk := Disk MetaPath UInt8

/-- What `save` has in its buffer when it writes to the file. -/
def metaBytes (term : ℕ) (votedFor : Option NodeId) : Bytes :=
  let w : Writer := { size := kMetaSize }
  let w := w.u32 kMagic
  let w := w.u8 kVersion
  let w := w.u64 term
  let w := w.u8 (if votedFor.isSome then 1 else 0)
  let w := w.u16 (votedFor.getD 0)
  (w.u32 (crc32c (w.out.take kCrcOffset)).toNat).out

/-- What the constructor finds in the file, or what it throws. -/
def readMeta (path : String) (file : Bytes) : Except String (ℕ × Option NodeId) :=
  let buf := file.take (kMetaSize + 1)
  if buf.length ≠ kMetaSize then .error ("corrupt metadata file " ++ path ++ ": wrong size")
  else
    let crc := crc32c (buf.take kCrcOffset)
    let r : Reader := { rest := buf }
    let (magic, r) := r.u32
    let (version, r) := r.u8
    let (term, r) := r.u64
    let (hasVote, r) := r.u8
    let (vote, r) := r.u16
    let (storedCrc, _) := r.u32
    if magic ≠ kMagic ∨ version ≠ kVersion ∨ hasVote > 1 ∨ storedCrc ≠ crc.toNat then
      .error ("corrupt metadata file " ++ path)
    else .ok (term, if hasVote = 1 then some vote else none)

structure DurablePersistentState where
  dir : String
  disk : MetaDisk
  term : ℕ := 0
  votedFor : Option NodeId := none

namespace DurablePersistentState

/-- The constructor. -/
def reopen (dir : String) (disk : MetaDisk) : Except String DurablePersistentState :=
  let disk := disk.step (.unlink .tmpPath)
  match disk.read .path with
  | none => .ok { dir, disk }
  | some file =>
      match readMeta (dir ++ "/meta") file with
      | .error e => .error e
      | .ok (term, votedFor) => .ok { dir, disk, term, votedFor }

/-- What `save` does to the disk. -/
def saveOps (term : ℕ) (votedFor : Option NodeId) : List (DiskOp MetaPath UInt8) :=
  replace .tmpPath .path (metaBytes term votedFor)

def save (s : DurablePersistentState) (term : ℕ) (votedFor : Option NodeId) : DurablePersistentState :=
  { s with disk := s.disk.run (saveOps term votedFor), term, votedFor }

/-- Term and vote. -/
def pair (s : DurablePersistentState) : ℕ × Option NodeId := (s.term, s.votedFor)

end DurablePersistentState

/-! ## 2. What is written is read -/

/-- A pair that the types of the source can hold. -/
structure Fits (x : ℕ × Option NodeId) : Prop where
  term : x.1 < 2 ^ 64
  vote : ∀ id, x.2 = some id → id < 2 ^ 16

/-- The bytes before the checksum. -/
def metaBody (term : ℕ) (votedFor : Option NodeId) : Bytes :=
  leBytes 4 kMagic ++ (leBytes 1 kVersion ++ (leBytes 8 term ++
    (leBytes 1 (if votedFor.isSome then 1 else 0) ++ leBytes 2 (votedFor.getD 0))))

@[simp] theorem length_metaBody (term : ℕ) (votedFor : Option NodeId) :
    (metaBody term votedFor).length = 16 := by
  simp [metaBody]

theorem metaBytes_eq (term : ℕ) (votedFor : Option NodeId) : metaBytes term votedFor =
    metaBody term votedFor ++ leBytes 4 (crc32c (metaBody term votedFor)).toNat := by
  have hbody : ((((({ size := kMetaSize } : Writer).u32 kMagic).u8 kVersion).u64 term).u8
      (if votedFor.isSome then 1 else 0)).u16 (votedFor.getD 0) =
        ({ size := kMetaSize } : Writer).wrote (metaBody term votedFor) := by
    have := Writer.puts_eq [leBytes 4 kMagic, leBytes 1 kVersion, leBytes 8 term,
      leBytes 1 (if votedFor.isSome then 1 else 0), leBytes 2 (votedFor.getD 0)]
      (w := { size := kMetaSize }) ⟨rfl, by simp [kMetaSize]⟩
    simpa [metaBody, Writer.u8, Writer.u16, Writer.u32, Writer.u64] using this
  have hroom : (({ size := kMetaSize } : Writer).wrote (metaBody term votedFor)).Room 4 :=
    Writer.Room.wrote (n := kMetaSize) ⟨rfl, by simp⟩ (by simp [kMetaSize])
  unfold metaBytes
  simp only [hbody, Writer.wrote_out, List.nil_append]
  rw [List.take_of_length_le (by simp [kCrcOffset]), Writer.u32, Writer.put_eq (by simpa using hroom)]
  rfl

/-- **What is written is accepted**, and read as the pair that was saved. -/
theorem readMeta_metaBytes {x : ℕ × Option NodeId} (h : Fits x) (path : String) :
    readMeta path (metaBytes x.1 x.2) = .ok x := by
  obtain ⟨term, votedFor⟩ := x
  have hcrc : (crc32c (metaBody term votedFor)).toNat < 256 ^ 4 := (crc32c (metaBody term votedFor)).isLt
  have hlen : (metaBytes term votedFor).length = kMetaSize := by
    rw [metaBytes_eq]
    simp [kMetaSize]
  have htake : (metaBytes term votedFor).take (kMetaSize + 1) = metaBytes term votedFor :=
    List.take_of_length_le (by omega)
  have hbody : (metaBytes term votedFor).take kCrcOffset = metaBody term votedFor := by
    rw [metaBytes_eq]
    exact List.take_left' (length_metaBody term votedFor)
  have hvote : votedFor.getD 0 < 256 ^ 2 := by
    cases hv : votedFor with
    | none => exact Nat.two_pow_pos 16
    | some id => exact h.vote id hv
  have hread : (⟨metaBytes term votedFor, true⟩ : Reader) = ⟨leBytes 4 kMagic ++ (leBytes 1 kVersion ++
      (leBytes 8 term ++ (leBytes 1 (if votedFor.isSome then 1 else 0) ++ (leBytes 2 (votedFor.getD 0) ++
        (leBytes 4 (crc32c (metaBody term votedFor)).toNat ++ []))))), true⟩ := by
    rw [metaBytes_eq, metaBody]
    simp only [List.append_assoc, List.append_nil]
  have hflag : (if votedFor.isSome then 1 else 0) < 256 ^ 1 := by split <;> decide
  unfold readMeta
  dsimp only
  rw [htake, if_neg (fun hne => hne hlen), hbody, hread]
  simp only [Reader.u8, Reader.u16, Reader.u32, Reader.u64, Reader.uint_leBytes_of_lt (n := 8) h.term,
    Reader.uint_leBytes_of_lt (n := 4) (show kMagic < 256 ^ 4 by decide),
    Reader.uint_leBytes_of_lt (n := 1) (show kVersion < 256 ^ 1 by decide),
    Reader.uint_leBytes_of_lt (n := 1) hflag, Reader.uint_leBytes_of_lt (n := 2) hvote,
    Reader.uint_leBytes_of_lt (n := 4) hcrc]
  cases votedFor with
  | none => simp
  | some id => simp

/-! ## 3. Saves and crashes -/

namespace DurablePersistentState

/-- What has happened to the metadata: a `save` that has returned, one that a crash has cut short, and
    what the start after a crash of the machine has found. -/
inductive Past where
  | completed (x : ℕ × Option NodeId)
  | interrupted (x : ℕ × Option NodeId)
  | found (x : ℕ × Option NodeId)

/-- **What may be found**, with the latest first: what the last completed `save` wrote, or an interrupted
    one after it; nothing, which is (0, none), only if none was completed. -/
def MayFind : List Past → ℕ × Option NodeId → Prop
  | [], p => p = (0, none)
  | .completed x :: _, p => p = x
  | .found x :: _, p => p = x
  | .interrupted x :: H, p => p = x ∨ MayFind H p

/-- No listing of the directory that can come back has a `meta`. There may be a `meta.tmp`. -/
def Blank (D : MetaDisk) : Prop := ∀ L ∈ D.listing :: D.older, L .path = none

/-- **The runs of a node's metadata**: a first start in a directory without `meta`, saves, crashes after
    any number of the operations of a save, and crashes between saves, each followed by a start. -/
inductive Lives (dir : String) : List Past → DurablePersistentState → Prop where
  | first {D s} (hD : Blank D) (ho : reopen dir D = .ok s) : Lives dir [] s
  | save {H s} (h : Lives dir H s) (x : ℕ × Option NodeId) (hx : Fits x) :
      Lives dir (.completed x :: H) (s.save x.1 x.2)
  | crash {H s D' s'} (h : Lives dir H s) (x : ℕ × Option NodeId) (hx : Fits x) (k : ℕ)
      (hc : Disk.Crash (s.disk.run ((saveOps x.1 x.2).take k)) D') (ho : reopen dir D' = .ok s') :
      Lives dir (.interrupted x :: H) s'
  | idle {H s D' s'} (h : Lives dir H s) (hc : Disk.Crash s.disk D') (ho : reopen dir D' = .ok s') :
      Lives dir H s'
  /-- A crash of the machine: what was found is then all that can be. -/
  | power {H s D' s'} (h : Lives dir H s) (x : ℕ × Option NodeId) (hx : Fits x) (k : ℕ)
      (hc : Disk.Crash (s.disk.run ((saveOps x.1 x.2).take k)) D') (hd : D'.older = [])
      (ho : reopen dir D' = .ok s') : Lives dir (.found s'.pair :: .interrupted x :: H) s'

/-- What the file `meta` records: the default if there is none. -/
inductive Records : Option Bytes → ℕ × Option NodeId → Prop where
  | absent : Records none (0, none)
  | present {x} (hx : Fits x) : Records (some (metaBytes x.1 x.2)) x

/-- The contents of `meta` that may come back. -/
def MayHold (H : List Past) (file : Option Bytes) : Prop :=
  (∃ x, Records file x ∧ MayFind H x) ∧ (file = none → ∀ x, .completed x ∉ H)

/-- **What a run keeps**: `meta` records what the node has in memory, and a crash brings back nothing but
    what may be found. -/
structure Kept (H : List Past) (s : DurablePersistentState) : Prop where
  holds : s.disk.Holds .path (MayHold H)
  apart : s.disk.Apart .tmpPath .path
  records : Records (s.disk.read .path) s.pair

section Kept

variable (dir : String) {D D' : MetaDisk} {s s' : DurablePersistentState} {file : Option Bytes}
  {x p : ℕ × Option NodeId} {H : List Past}

theorem Records.unique (h : Records file x) (h' : Records file p) : x = p := by
  cases h with
  | absent =>
      cases h'
      rfl
  | present hx =>
      generalize hf : some (metaBytes x.1 x.2) = file at h'
      cases h' with
      | absent => cases hf
      | present hp =>
          have hx := readMeta_metaBytes hx ""
          rw [Option.some_inj.mp hf, readMeta_metaBytes hp] at hx
          exact (Except.ok.inj hx).symm

/-- The constructor reads what `meta` records, whatever is in `meta.tmp`. -/
theorem reopen_records (h : Records (D.read .path) x) : reopen dir D = .ok
    { dir, disk := D.step (.unlink .tmpPath), term := x.1, votedFor := x.2 } := by
  have hread : (D.step (.unlink .tmpPath)).read .path = D.read .path := Disk.read_unlink (by decide)
  unfold reopen
  dsimp only
  rw [hread]
  generalize D.read .path = file at h
  cases h with
  | absent => rfl
  | present hx =>
      dsimp only
      rw [readMeta_metaBytes hx]

/-- **A start does not throw**, and finds what may be found. -/
theorem reopen_kept (h : D.Holds .path (MayHold H)) :
    ∃ s, reopen dir D = .ok s ∧ Kept H s ∧ s.disk = D.step (.unlink .tmpPath) := by
  obtain ⟨⟨x, hx, -⟩, -⟩ := h.read
  obtain ⟨hh, ha⟩ := Disk.unlink_holds (n := .tmpPath) (by decide) h
  have hread : (D.step (.unlink .tmpPath)).read .path = D.read .path := Disk.read_unlink (by decide)
  refine ⟨_, reopen_records dir hx, ⟨hh, ha, ?_⟩, rfl⟩
  dsimp only
  rw [hread]
  exact hx

theorem Kept.mayFind (h : Kept H s) : MayFind H s.pair := by
  obtain ⟨⟨x, hx, hm⟩, -⟩ := h.holds.read
  rw [h.records.unique hx]
  exact hm

theorem mayHold_new (hx : Fits x) : MayHold (.completed x :: H) (some (metaBytes x.1 x.2)) :=
  ⟨⟨x, .present hx, rfl⟩, fun hn => by cases hn⟩

/-- A `save` that is cut short adds its pair to what may come back. -/
theorem mayHold_interrupted (hx : Fits x) (h : MayHold H file ∨ file = some (metaBytes x.1 x.2)) :
    MayHold (.interrupted x :: H) file := by
  rcases h with ⟨⟨y, hy, hm⟩, habs⟩ | rfl
  · refine ⟨⟨y, hy, .inr hm⟩, fun hn z hz => ?_⟩
    rcases List.mem_cons.mp hz with hz | hz
    · cases hz
    · exact habs hn z hz
  · exact ⟨⟨x, .present hx, .inl rfl⟩, fun hn => by cases hn⟩

theorem Kept.save (h : Kept H s) (hx : Fits x) : Kept (.completed x :: H) (s.save x.1 x.2) := by
  obtain ⟨-, hh, ha⟩ := replace_holds (by decide) h.holds h.apart (metaBytes x.1 x.2)
  refine ⟨hh.mono fun c hc => ?_, ha, ?_⟩
  · rw [hc]
    exact mayHold_new hx
  · have hread : (s.save x.1 x.2).disk.read .path = some (metaBytes x.1 x.2) := hh.read
    rw [hread]
    exact .present hx

/-- **A `save` that is cut short anywhere.** -/
theorem Kept.cut (h : Kept H s) (hx : Fits x) (k : ℕ)
    (hc : Disk.Crash (s.disk.run ((saveOps x.1 x.2).take k)) D') :
    D'.Holds .path (MayHold (.interrupted x :: H)) := by
  have hcut := (replace_holds (by decide) h.holds h.apart (metaBytes x.1 x.2)).1 k
  exact (hcut.crash hc).mono fun c hc' => mayHold_interrupted hx hc'

/-- After a crash of the machine nothing else can come back. -/
theorem Kept.settle (h : Kept H s) (hs : s.disk.Holds .path (· = s.disk.read .path)) :
    Kept (.found s.pair :: H) s := by
  refine ⟨hs.mono fun c hc => ⟨⟨s.pair, ?_, rfl⟩, fun hn x hx => ?_⟩, h.apart, h.records⟩
  · rw [hc]
    exact h.records
  · rcases List.mem_cons.mp hx with hx | hx
    · cases hx
    · exact h.holds.read.2 (hc ▸ hn) x hx

theorem reopen_blank (hD : Blank D) : ∃ s, reopen dir D = .ok s ∧ Kept [] s := by
  have hh : D.Holds .path (MayHold []) := fun L hL =>
    .inl ⟨hD L hL, ⟨(0, none), .absent, rfl⟩, fun _ _ hm => (List.not_mem_nil hm).elim⟩
  obtain ⟨s, ho, hk, -⟩ := reopen_kept dir hh
  exact ⟨s, ho, hk⟩

/-- **Every run keeps it.** -/
theorem Lives.kept {dir : String} (h : Lives dir H s) : Kept H s := by
  induction h with
  | first hD ho =>
      obtain ⟨s, ho', hk⟩ := reopen_blank dir hD
      cases ho.symm.trans ho'
      exact hk
  | save h x hx ih => exact ih.save hx
  | crash h x hx k hc ho ih =>
      obtain ⟨s', ho', hk, -⟩ := reopen_kept dir (ih.cut hx k hc)
      cases ho.symm.trans ho'
      exact hk
  | idle h hc ho ih =>
      obtain ⟨s', ho', hk, -⟩ := reopen_kept dir (ih.holds.crash hc)
      cases ho.symm.trans ho'
      exact hk
  | power h x hx k hc hd ho ih =>
      have hcut := ih.cut hx k hc
      obtain ⟨s', ho', hk, hdisk⟩ := reopen_kept dir hcut
      cases ho.symm.trans ho'
      have hone := (Disk.unlink_holds (n := .tmpPath) (by decide) (hcut.settled hd)).1
      refine hk.settle ?_
      rw [hdisk, Disk.read_unlink (by decide)]
      exact hone

end Kept

/-- **The metadata is replaced in one step, whatever crashes.** The first start finds (0, none). In every
    run of saves and crashes the node has what the last completed `save` wrote or an interrupted one since,
    and `meta` is absent only if none was completed. A crash after any number of the operations of a
    further `save` is followed by a start that does not throw and finds what could be found before or the
    pair of this `save`, and the latter if all its operations were done. What is in `meta.tmp` makes no
    difference. -/
theorem metadata_crash_atomic (dir : String) :
    (∀ D, Blank D → ∃ s, reopen dir D = .ok s ∧ s.pair = (0, none)) ∧
    (∀ H s, Lives dir H s → MayFind H s.pair ∧
      (s.disk.read .path = none → ∀ x, .completed x ∉ H) ∧
      (∀ D', Disk.Crash s.disk D' → ∃ s', reopen dir D' = .ok s' ∧ MayFind H s'.pair) ∧
      ∀ x, Fits x → ∀ k D', Disk.Crash (s.disk.run ((saveOps x.1 x.2).take k)) D' →
        ∃ s', reopen dir D' = .ok s' ∧ (s'.pair = x ∨ MayFind H s'.pair) ∧
          ((saveOps x.1 x.2).length ≤ k → s'.pair = x)) ∧
    ∀ D E : MetaDisk, D.read .path = E.read .path → (reopen dir D).map pair = (reopen dir E).map pair := by
  refine ⟨fun D hD => ?_, fun H s h => ?_, fun D E hDE => ?_⟩
  · obtain ⟨s, ho, hk⟩ := reopen_blank dir hD
    exact ⟨s, ho, hk.mayFind⟩
  · have hk := h.kept
    refine ⟨hk.mayFind, hk.holds.read.2, fun D' hc => ?_, fun x hx k D' hc => ?_⟩
    · obtain ⟨s', ho, hk', -⟩ := reopen_kept dir (hk.holds.crash hc)
      exact ⟨s', ho, hk'.mayFind⟩
    · obtain ⟨s', ho, hk', -⟩ := reopen_kept dir (hk.cut hx k hc)
      refine ⟨s', ho, hk'.mayFind, fun hlen => ?_⟩
      -- all operations are done: this is a crash after the `save`
      rw [List.take_of_length_le hlen] at hc
      obtain ⟨s'', ho', hk'', -⟩ := reopen_kept dir ((hk.save hx).holds.crash hc)
      cases ho.symm.trans ho'
      exact hk''.mayFind
  · have hD : (D.step (.unlink .tmpPath)).read .path = D.read .path := Disk.read_unlink (by decide)
    have hE : (E.step (.unlink .tmpPath)).read .path = E.read .path := Disk.read_unlink (by decide)
    unfold reopen
    dsimp only
    rw [hD, hE, ← hDE]
    cases D.read .path with
    | none => rfl
    | some file =>
        dsimp only
        cases readMeta (dir ++ "/meta") file with
        | error e => rfl
        | ok x => rfl

end DurablePersistentState

end Rsm.Storage
