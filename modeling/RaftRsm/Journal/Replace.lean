/-
  File:      RaftRsm/Journal/Replace.lean
  Subject:   FILES OF A DIRECTORY, what a crash leaves of them, and how to REPLACE one of them.

  A directory lists files under names. The bytes of a file are on disk once the file has been synced, the
  listing once the directory has been synced. A crash brings back the listing, or one of those since the
  directory was last synced; files that were not synced may then have any bytes.

  * `Disk.Holds` -- whatever a crash brings back, a name has one of the contents of a set;
  * `Disk.Holds.crash` -- it then has one of them after the crash;
  * `replace_holds` -- writing a file under a second name, syncing it and renaming it leaves, at every
    point, what could come back before or the new contents, and the new ones in the end.
-/
import Mathlib.Logic.Function.Basic
import Mathlib.Data.List.Basic

namespace Journal

variable {N β : Type*}

/-! ## 1. Disks -/

structure File (β : Type*) where
  data : List β
  /-- The bytes have reached the disk. -/
  synced : Bool

/-- Which file a name is of. -/
abbrev Listing (N : Type*) := N → Option ℕ

/-- **A directory and its files.** -/
structure Disk (N β : Type*) where
  file : ℕ → File β
  listing : Listing N
  /-- The listings before, back to the one that was synced. -/
  older : List (Listing N)
  /-- The first number that no file has. -/
  next : ℕ
  bound : ∀ L ∈ listing :: older, ∀ n i, L n = some i → i < next

inductive DiskOp (N β : Type*) where
  /-- Makes the file empty, or makes an empty file. -/
  | openTrunc (n : N)
  /-- Writes over the beginning of the file. -/
  | write (n : N) (bytes : List β)
  | fsync (n : N)
  | rename (n m : N)
  | unlink (n : N)
  | fsyncDir

namespace Disk

variable (D : Disk N β)

def read (n : N) : Option (List β) := (D.listing n).map fun i => (D.file i).data

/-- Another listing, of files that there are. -/
def relist (L : Listing N) (h : ∀ n i, L n = some i → i < D.next) : Disk N β where
  file := D.file
  listing := L
  older := D.listing :: D.older
  next := D.next
  bound L' hL' := by
    rcases List.mem_cons.mp hL' with rfl | hL'
    · exact h
    · exact D.bound L' hL'

/-- Another state of the file `i`. -/
def refile (i : ℕ) (f : File β) : Disk N β := { D with file := Function.update D.file i f }

section Operations

variable [DecidableEq N]

/-- A file with the first number that none has. -/
def create (n : N) : Disk N β where
  file := Function.update D.file D.next ⟨[], false⟩
  listing := Function.update D.listing n (some D.next)
  older := D.listing :: D.older
  next := D.next + 1
  bound L hL m i hi := by
    rcases List.mem_cons.mp hL with rfl | hL
    · by_cases hm : m = n
      · subst hm
        rw [Function.update_self] at hi
        cases hi
        exact Nat.lt_succ_self _
      · rw [Function.update_of_ne hm] at hi
        exact Nat.lt_succ_of_lt (D.bound _ List.mem_cons_self m i hi)
    · exact Nat.lt_succ_of_lt (D.bound L hL m i hi)

def remove (n : N) : Disk N β :=
  D.relist (Function.update D.listing n none) fun m i hi => by
    by_cases hm : m = n
    · subst hm
      rw [Function.update_self] at hi
      cases hi
    · rw [Function.update_of_ne hm] at hi
      exact D.bound _ List.mem_cons_self m i hi

/-- The file `i` is under the name `m`, and no longer under `n`. -/
def move (n m : N) (i : ℕ) (h : D.listing n = some i) : Disk N β :=
  D.relist (Function.update (Function.update D.listing m (some i)) n none) fun k j hj => by
    by_cases hkn : k = n
    · subst hkn
      rw [Function.update_self] at hj
      cases hj
    rw [Function.update_of_ne hkn] at hj
    by_cases hkm : k = m
    · subst hkm
      rw [Function.update_self] at hj
      cases hj
      exact D.bound _ List.mem_cons_self n i h
    · rw [Function.update_of_ne hkm] at hj
      exact D.bound _ List.mem_cons_self k j hj

def syncListing : Disk N β where
  file := D.file
  listing := D.listing
  older := []
  next := D.next
  bound L hL := D.bound L (List.mem_singleton.mp hL ▸ List.mem_cons_self)

/-- What an operation does. One on a name without a file does nothing. -/
def step : DiskOp N β → Disk N β
  | .openTrunc n =>
      match D.listing n with
      | none => D.create n
      | some i => D.refile i ⟨[], false⟩
  | .write n bytes =>
      match D.listing n with
      | none => D
      | some i => D.refile i ⟨bytes ++ (D.file i).data.drop bytes.length, false⟩
  | .fsync n =>
      match D.listing n with
      | none => D
      | some i => D.refile i ⟨(D.file i).data, true⟩
  | .rename n m =>
      match h : D.listing n with
      | none => D
      | some i => D.move n m i h
  | .unlink n => D.remove n
  | .fsyncDir => D.syncListing

def run (ops : List (DiskOp N β)) : Disk N β := ops.foldl (fun D op => D.step op) D

end Operations

/-- **What a crash can leave**: the listing or an older one, and any bytes in files that were not synced.
    If the program alone has crashed, the older listings may still come back later. If the machine has
    crashed, there are none of them left. -/
structure Crash (D D' : Disk N β) : Prop where
  listing : D'.listing ∈ D.listing :: D.older
  older : ∀ L ∈ D'.older, L ∈ D.listing :: D.older
  file : ∀ i, (D.file i).synced = true → D'.file i = D.file i

/-! ## 2. What a name holds whatever a crash brings back -/

/-- **Every listing that a crash can bring back has, under the name, nothing or a file that was synced,
    with contents of `P`.** -/
def Holds (D : Disk N β) (m : N) (P : Option (List β) → Prop) : Prop :=
  ∀ L ∈ D.listing :: D.older, (L m = none ∧ P none) ∨
    ∃ i, L m = some i ∧ (D.file i).synced = true ∧ P (some (D.file i).data)

/-- The file under `n` is not the one under `m` in any of these listings. -/
def Apart (D : Disk N β) (n m : N) : Prop :=
  ∀ i, D.listing n = some i → ∀ L ∈ D.listing :: D.older, L m ≠ some i

variable {D : Disk N β} {D' : Disk N β} {n m : N} {P Q : Option (List β) → Prop}

theorem Holds.mono (h : D.Holds m P) (hPQ : ∀ c, P c → Q c) : D.Holds m Q := by
  intro L hL
  rcases h L hL with ⟨hn, hp⟩ | ⟨i, hi, hs, hp⟩
  · exact .inl ⟨hn, hPQ _ hp⟩
  · exact .inr ⟨i, hi, hs, hPQ _ hp⟩

theorem Holds.read (h : D.Holds m P) : P (D.read m) := by
  unfold Disk.read
  rcases h D.listing List.mem_cons_self with ⟨hn, hp⟩ | ⟨i, hi, -, hp⟩
  · rw [hn]
    exact hp
  · rw [hi]
    exact hp

/-- **After a crash the name has one of the contents it could have.** -/
theorem Holds.crash (h : D.Holds m P) (hc : Crash D D') : D'.Holds m P := by
  intro L hL
  have hL : L ∈ D.listing :: D.older := by
    rcases List.mem_cons.mp hL with rfl | hL
    · exact hc.listing
    · exact hc.older L hL
  rcases h L hL with hn | ⟨i, hi, hs, hp⟩
  · exact .inl hn
  · refine .inr ⟨i, hi, ?_⟩
    rw [hc.file i hs]
    exact ⟨hs, hp⟩

/-- Where no older listing can come back, the name holds what it has. -/
theorem Holds.settled (h : D.Holds m P) (ho : D.older = []) : D.Holds m (· = D.read m) := by
  intro L hL
  rw [ho] at hL
  obtain rfl := List.mem_singleton.mp hL
  unfold Disk.read
  rcases h D.listing List.mem_cons_self with ⟨hn, -⟩ | ⟨i, hi, hs, -⟩
  · rw [hn]
    exact .inl ⟨rfl, rfl⟩
  · rw [hi]
    exact .inr ⟨i, rfl, hs, rfl⟩

/-- A file that is not under the name in any listing can change. -/
theorem Holds.refile (h : D.Holds m P) {i : ℕ} (hi : ∀ L ∈ D.listing :: D.older, L m ≠ some i) (f : File β) :
    (D.refile i f).Holds m P := by
  intro L hL
  rcases h L hL with hn | ⟨j, hj, hs, hp⟩
  · exact .inl hn
  · have hne : j ≠ i := fun he => hi L hL (he ▸ hj)
    refine .inr ⟨j, hj, ?_⟩
    show (Function.update D.file i f j).synced = true ∧ P (some (Function.update D.file i f j).data)
    rw [Function.update_of_ne hne]
    exact ⟨hs, hp⟩

theorem read_refile {i : ℕ} (h : D.listing n = some i) (f : File β) : (D.refile i f).read n = some f.data := by
  show (D.listing n).map (fun j => (Function.update D.file i f j).data) = some f.data
  rw [h, Option.map_some, Function.update_self]

/-- The new listing has to hold too. -/
theorem Holds.relist (h : D.Holds m P) {L' : Listing N} (hL' : ∀ n i, L' n = some i → i < D.next)
    (hm : (L' m = none ∧ P none) ∨ ∃ i, L' m = some i ∧ (D.file i).synced = true ∧ P (some (D.file i).data)) :
    (D.relist L' hL').Holds m P := by
  intro L hL
  rcases List.mem_cons.mp hL with rfl | hL
  · exact hm
  · exact h L hL

/-- What the listing says of `m` is one of the possibilities. -/
theorem Holds.now (h : D.Holds m P) : (D.listing m = none ∧ P none) ∨
    ∃ i, D.listing m = some i ∧ (D.file i).synced = true ∧ P (some (D.file i).data) :=
  h D.listing List.mem_cons_self

/-! ## 3. One operation -/

section Steps

variable [DecidableEq N] {i : ℕ}

theorem step_openTrunc_some (h : D.listing n = some i) : D.step (.openTrunc n) = D.refile i ⟨[], false⟩ := by
  unfold step
  dsimp only
  rw [h]

theorem step_openTrunc_none (h : D.listing n = none) : D.step (.openTrunc n) = D.create n := by
  unfold step
  dsimp only
  rw [h]

theorem step_write (h : D.listing n = some i) (bytes : List β) : D.step (.write n bytes) =
    D.refile i ⟨bytes ++ (D.file i).data.drop bytes.length, false⟩ := by
  unfold step
  dsimp only
  rw [h]

theorem step_fsync (h : D.listing n = some i) : D.step (.fsync n) = D.refile i ⟨(D.file i).data, true⟩ := by
  unfold step
  dsimp only
  rw [h]

theorem step_rename (h : D.listing n = some i) : D.step (.rename n m) = D.move n m i h := by
  unfold step
  dsimp only
  split
  · rename_i h0
    cases h0.symm.trans h
  · rename_i j hj
    cases hj.symm.trans h
    rfl

theorem openTrunc_holds (hnm : n ≠ m) (h : D.Holds m P) (ha : D.Apart n m) :
    (D.step (.openTrunc n)).Holds m P ∧ (D.step (.openTrunc n)).Apart n m ∧
      (D.step (.openTrunc n)).read n = some [] := by
  cases hn : D.listing n with
  | some i =>
      rw [step_openTrunc_some hn]
      exact ⟨h.refile (ha i hn) _, ha, read_refile hn _⟩
  | none =>
      rw [step_openTrunc_none hn]
      -- the number of the new file is in no listing
      have hnew : ∀ L ∈ D.listing :: D.older, ∀ k, L k ≠ some D.next := fun L hL k hk =>
        Nat.lt_irrefl _ (D.bound L hL k _ hk)
      have hsame : (D.create n).listing m = D.listing m := Function.update_of_ne (Ne.symm hnm) _ _
      have hself : (D.create n).listing n = some D.next := Function.update_self n _ _
      have hf := h.refile (fun L hL => hnew L hL m) ⟨[], false⟩
      refine ⟨fun L hL => ?_, fun i hi L hL => ?_, ?_⟩
      · rcases List.mem_cons.mp hL with rfl | hL
        · rw [hsame]
          exact hf D.listing List.mem_cons_self
        · exact hf L hL
      · cases hself.symm.trans hi
        rcases List.mem_cons.mp hL with rfl | hL
        · rw [hsame]
          exact hnew D.listing List.mem_cons_self m
        · exact hnew L hL m
      · unfold Disk.read
        rw [hself]
        exact congrArg (fun f => some (File.data f)) (Function.update_self D.next _ D.file)

theorem write_holds (h : D.Holds m P) (ha : D.Apart n m) (bytes : List β) (hr : D.read n = some []) :
    (D.step (.write n bytes)).Holds m P ∧ (D.step (.write n bytes)).Apart n m ∧
      (D.step (.write n bytes)).read n = some bytes := by
  obtain ⟨i, hn, hdata⟩ := Option.map_eq_some_iff.mp hr
  rw [step_write hn]
  refine ⟨h.refile (ha i hn) _, ha, ?_⟩
  rw [read_refile hn, hdata, List.drop_nil, List.append_nil]

theorem fsync_holds (h : D.Holds m P) (ha : D.Apart n m) {bytes : List β} (hr : D.read n = some bytes) :
    (D.step (.fsync n)).Holds m P ∧ (D.step (.fsync n)).Apart n m ∧
      ∃ i, (D.step (.fsync n)).listing n = some i ∧ (D.step (.fsync n)).file i = ⟨bytes, true⟩ := by
  obtain ⟨i, hn, hdata⟩ := Option.map_eq_some_iff.mp hr
  rw [step_fsync hn]
  refine ⟨h.refile (ha i hn) _, ha, i, hn, ?_⟩
  show Function.update D.file i _ i = _
  rw [Function.update_self, hdata]

theorem rename_holds (hnm : n ≠ m) (h : D.Holds m P) {bytes : List β} (hn : D.listing n = some i)
    (hf : D.file i = ⟨bytes, true⟩) (hP : P (some bytes)) : (D.step (.rename n m)).Holds m P ∧
      (D.step (.rename n m)).Apart n m ∧ (D.step (.rename n m)).read m = some bytes := by
  have hm : (D.move n m i hn).listing m = some i := by
    show Function.update (Function.update D.listing m (some i)) n none m = some i
    rw [Function.update_of_ne (Ne.symm hnm), Function.update_self]
  have hnone : (D.move n m i hn).listing n = none := Function.update_self n _ _
  have hsynced : (D.file i).synced = true ∧ P (some (D.file i).data) := by
    rw [hf]
    exact ⟨rfl, hP⟩
  rw [step_rename hn]
  refine ⟨?_, fun j hj => ?_, ?_⟩
  · unfold move
    exact h.relist _ (.inr ⟨i, hm, hsynced⟩)
  · cases hnone.symm.trans hj
  · unfold Disk.read
    rw [hm]
    exact congrArg (fun f => some (File.data f)) hf

theorem read_unlink (hnm : n ≠ m) : (D.step (.unlink n)).read m = D.read m := by
  have hsame : (D.remove n).listing m = D.listing m := Function.update_of_ne (Ne.symm hnm) _ _
  unfold Disk.read
  exact congrArg _ hsame

theorem unlink_holds (hnm : n ≠ m) (h : D.Holds m P) :
    (D.step (.unlink n)).Holds m P ∧ (D.step (.unlink n)).Apart n m := by
  have hnone : (D.remove n).listing n = none := Function.update_self n _ _
  refine ⟨?_, fun j hj => ?_⟩
  · unfold step remove
    refine h.relist _ ?_
    rw [Function.update_of_ne (Ne.symm hnm)]
    exact h.now
  · cases hnone.symm.trans hj

theorem fsyncDir_holds (h : D.Holds m P) (ha : D.Apart n m) : (D.step .fsyncDir).Holds m (· = D.read m) ∧
    (D.step .fsyncDir).Apart n m := by
  have hs : (D.step .fsyncDir).Holds m P := fun L hL =>
    h L (List.mem_singleton.mp hL ▸ List.mem_cons_self)
  refine ⟨hs.settled rfl, fun i hi L hL => ?_⟩
  obtain rfl := List.mem_singleton.mp hL
  exact ha i hi D.listing List.mem_cons_self

end Steps

end Disk

/-! ## 4. Replacing a file -/

/-- Replaces the file `m` by way of the name `n`. -/
def replace (n m : N) (bytes : List β) : List (DiskOp N β) :=
  [.openTrunc n, .write n bytes, .fsync n, .rename n m, .fsyncDir]

section Replacing

variable [DecidableEq N] {D : Disk N β} {n m : N} {P : Option (List β) → Prop}

/-- **At every point of it what could come back, or the new contents**, and at its end the new ones. -/
theorem replace_holds (hnm : n ≠ m) (h : D.Holds m P) (ha : D.Apart n m) (bytes : List β) :
    (∀ k, (D.run ((replace n m bytes).take k)).Holds m (fun c => P c ∨ c = some bytes)) ∧
      (D.run (replace n m bytes)).Holds m (· = some bytes) ∧ (D.run (replace n m bytes)).Apart n m := by
  have h0 : D.Holds m (fun c => P c ∨ c = some bytes) := h.mono fun _ hc => .inl hc
  obtain ⟨h1, a1, r1⟩ := Disk.openTrunc_holds hnm h0 ha
  obtain ⟨h2, a2, r2⟩ := Disk.write_holds h1 a1 bytes r1
  obtain ⟨h3, a3, i, hi, hf⟩ := Disk.fsync_holds h2 a2 r2
  obtain ⟨h4, a4, r4⟩ := Disk.rename_holds hnm h3 hi hf (.inr rfl)
  obtain ⟨h5, a5⟩ := Disk.fsyncDir_holds h4 a4
  rw [r4] at h5
  refine ⟨fun k => ?_, h5, a5⟩
  match k with
  | 0 => exact h0
  | 1 => exact h1
  | 2 => exact h2
  | 3 => exact h3
  | 4 => exact h4
  | k + 5 =>
      have htake : (replace n m bytes).take (k + 5) = replace n m bytes :=
        List.take_of_length_le (Nat.le_add_left 5 k)
      rw [htake]
      exact h5.mono fun _ hc => .inr hc

end Replacing

end Journal
