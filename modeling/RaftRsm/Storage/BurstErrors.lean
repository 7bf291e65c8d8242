/-
  File:      RaftRsm/Storage/BurstErrors.lean
  Subject:   DAMAGE IN ONE PLACE: what the checksum says of bytes that were hit within 32 consecutive bits.

  `crc32c` takes a byte at a time from a table. That is the shift register of its polynomial, fed with
  the bits of the bytes, lowest first; so every burst no longer than the register is seen.

  * `bitAt`, `Burst` -- the bits of a byte string, and two strings that differ within a window;
  * `crcRound_eq`, `crc32c_eq` -- the table-driven loop is the register;
  * `crc32c_append` -- the checksum of a string goes on from that of its beginning;
  * **`crc32c_detects_bursts`** -- both for all strings, and what follows for a record of the log and for
    the metadata file.
-/
import RaftRsm.Checksum.ShiftRegister
import RaftRsm.Storage.DurableState
import RaftRsm.Storage.Replay

namespace Rsm.Storage

open Rsm.Rpc ShiftRegister

/-! ## 1. Bits -/

/-- The bit `k` of a byte string: bytes from the left, the bits of each from the lowest. -/
def bitAt (data : Bytes) (k : ℕ) : Bool := (data.getD (k / 8) 0).toBitVec.getLsbD (k % 8)

/-- **A burst**: strings of one length, all of whose differing bits are within 32 consecutive ones. -/
def Burst (a b : Bytes) : Prop :=
  a.length = b.length ∧ ∃ p, ∀ k, bitAt a k ≠ bitAt b k → p ≤ k ∧ k < p + 32

/-- The bits of a byte, from the lowest. -/
def byteBits (b : UInt8) : List Bool := (List.range 8).map b.toBitVec.getLsbD

def bitsOf (data : Bytes) : List Bool := data.flatMap byteBits

theorem bitsOf_cons (b : UInt8) (data : Bytes) : bitsOf (b :: data) = byteBits b ++ bitsOf data :=
  List.flatMap_cons

@[simp] theorem length_byteBits (b : UInt8) : (byteBits b).length = 8 := rfl

theorem length_bitsOf (data : Bytes) : (bitsOf data).length = 8 * data.length := by
  induction data with
  | nil => rfl
  | cons b data ih =>
      rw [bitsOf_cons, List.length_append, length_byteBits, ih, List.length_cons]
      omega

theorem bitsOf_getElem? (data : Bytes) {k : ℕ} (hk : k < 8 * data.length) :
    (bitsOf data)[k]? = some (bitAt data k) := by
  induction data generalizing k with
  | nil => exact absurd hk (Nat.not_lt_zero k)
  | cons b data ih =>
      rw [bitsOf_cons]
      by_cases h : k < 8
      · have hbit : bitAt (b :: data) k = b.toBitVec.getLsbD k := by
          rw [bitAt, Nat.div_eq_of_lt h, Nat.mod_eq_of_lt h, List.getD_cons_zero]
        rw [List.getElem?_append_left (by rw [length_byteBits]; exact h), byteBits, List.getElem?_map,
          List.getElem?_range h, hbit]
        rfl
      · obtain ⟨j, rfl⟩ : ∃ j, k = j + 8 := ⟨k - 8, by omega⟩
        have hbit : bitAt (b :: data) (j + 8) = bitAt data j := by
          rw [bitAt, bitAt, Nat.add_div_right _ (by decide), Nat.add_mod_right, List.getD_cons_succ]
        rw [List.getElem?_append_right (by rw [length_byteBits]; omega), length_byteBits, Nat.add_sub_cancel,
          hbit]
        rw [List.length_cons] at hk
        exact ih (by omega)

/-- The bits tell the bytes. -/
theorem byteBits_injective : Function.Injective byteBits := by
  intro a b h
  refine UInt8.toBitVec_inj.mp (BitVec.eq_of_getLsbD_eq fun i hi => ?_)
  have hi' := congrArg (fun l => l[i]?) h
  simp only [byteBits, List.getElem?_map, List.getElem?_range hi, Option.map_some, Option.some.injEq] at hi'
  exact hi'

theorem bitsOf_injective {a b : Bytes} (hlen : a.length = b.length) (h : bitsOf a = bitsOf b) : a = b := by
  induction a generalizing b with
  | nil => exact (List.length_eq_zero_iff.mp hlen.symm).symm
  | cons x a ih =>
      cases b with
      | nil => cases hlen
      | cons y b =>
          rw [bitsOf_cons, bitsOf_cons] at h
          obtain ⟨hhead, htail⟩ := List.append_inj h rfl
          rw [byteBits_injective hhead, ih (Nat.succ.inj hlen) htail]

/-! ## 2. The loop is the register -/

theorem tableRound_eq : tableRound = shift kPoly := by
  funext c
  have hlow : c &&& 1#32 ≠ 0#32 ↔ c.getLsbD 0 = true := by
    rw [BitVec.and_one_eq_setWidth_ofBool_getLsbD]
    cases c.getLsbD 0 <;> decide
  unfold tableRound shift
  exact if_congr hlow rfl rfl

/-- The bits of a byte as a word. -/
theorem word_byteBits (b : UInt8) : word 32 (byteBits b) = b.toBitVec.setWidth 32 := by
  refine BitVec.eq_of_getLsbD_eq fun i hi => ?_
  rw [getLsbD_word _ hi, BitVec.getLsbD_setWidth, decide_eq_true hi, Bool.true_and]
  by_cases h : i < 8
  · rw [byteBits, List.getD_eq_getElem?_getD, List.getElem?_map, List.getElem?_range h]
    rfl
  · rw [BitVec.getLsbD_of_ge _ _ (Nat.not_lt.mp h), List.getD_eq_default]
    rw [length_byteBits]
    exact Nat.not_lt.mp h

/-- **One round of the loop takes the bits of a byte.** -/
theorem crcRound_eq (crc : BitVec 32) (b : UInt8) : crcRound crc b = feed kPoly crc (byteBits b) := by
  have hmask : ∀ i < 32, (0xFF#32).getLsbD i = decide (i < 8) := by decide
  -- the byte ends below the bits that are only moved
  have hrest : (crc ^^^ b.toBitVec.setWidth 32) >>> 8 = crc >>> 8 := by
    have hbyte : b.toBitVec.setWidth 32 >>> 8 = 0#32 := by
      refine BitVec.eq_of_getLsbD_eq fun i _ => ?_
      rw [BitVec.getLsbD_ushiftRight, BitVec.getLsbD_setWidth, BitVec.getLsbD_of_ge _ _ (Nat.le_add_right 8 i),
        Bool.and_false, BitVec.getLsbD_zero]
    rw [BitVec.ushiftRight_xor_distrib, hbyte, BitVec.xor_zero]
  have hfeed : feed kPoly crc (byteBits b) = (shift kPoly)^[8] (crc ^^^ word 32 (byteBits b)) :=
    feed_eq kPoly (by rw [length_byteBits]; decide) crc
  rw [hfeed, word_byteBits, iterate_shift_table kPoly hmask, hrest, ← tableRound_eq]
  rfl

theorem foldl_crcRound (data : Bytes) (crc : BitVec 32) :
    data.foldl crcRound crc = feed kPoly crc (bitsOf data) := by
  induction data generalizing crc with
  | nil => rfl
  | cons b data ih =>
      rw [List.foldl_cons, ih, crcRound_eq, bitsOf_cons, feed_append]

theorem crc32c_eq (data : Bytes) (crc : BitVec 32) :
    crc32c data crc = ~~~ feed kPoly (~~~ crc) (bitsOf data) := by
  rw [crc32c, foldl_crcRound]

/-- **Partial computations chain.** -/
theorem crc32c_append (a b : Bytes) (crc : BitVec 32) :
    crc32c (a ++ b) crc = crc32c b (crc32c a crc) := by
  unfold crc32c
  rw [List.foldl_append, BitVec.not_not]

/-- **A burst changes the checksum**, from every starting value. -/
theorem Burst.crc32c_ne {a b : Bytes} (h : Burst a b) (hne : a ≠ b) (crc : BitVec 32) :
    crc32c a crc ≠ crc32c b crc := by
  obtain ⟨hlen, p, hdiff⟩ := h
  have hbits : ∀ k, (bitsOf a)[k]? ≠ (bitsOf b)[k]? → p ≤ k ∧ k < p + 32 := by
    intro k hk
    have hlt : k < 8 * a.length := by
      by_contra hge
      rw [List.getElem?_eq_none (by rw [length_bitsOf]; omega),
        List.getElem?_eq_none (by rw [length_bitsOf]; omega)] at hk
      exact hk rfl
    rw [bitsOf_getElem? a hlt, bitsOf_getElem? b (hlen ▸ hlt)] at hk
    exact hdiff k fun he => hk (by rw [he])
  rw [crc32c_eq, crc32c_eq, Ne, BitVec.not_inj]
  refine feed_ne_of_burst (by decide) ?_ hbits fun he => hne (bitsOf_injective hlen he)
  rw [length_bitsOf, length_bitsOf, hlen]

/-- The checksum that was stored is not that of the damaged bytes. -/
theorem Burst.stored_ne {a b : Bytes} (h : Burst a b) (hne : a ≠ b) :
    leNat (leBytes 4 (crc32c b).toNat) ≠ (crc32c a).toNat := by
  have hcrc : (crc32c b).toNat < 2 ^ 32 := (crc32c b).isLt
  rw [leNat_leBytes_four hcrc]
  exact fun heq => h.crc32c_ne hne 0 (BitVec.eq_of_toNat_eq heq.symm)

/-! ## 3. The files -/

theorem crcMismatch_burst {e : LogEntry} (he : Storable e) {index : ℕ} {body : Bytes}
    (hb : Burst body (recordBody index e)) (hne : body ≠ recordBody index e)
    (hfield : lengthField body = leBytes 4 e.command.length) :
    CrcMismatch (body ++ leBytes 4 (crc32c (recordBody index e)).toNat) := by
  have hsize : kHeaderSize + e.command.length = body.length := by rw [hb.1, length_recordBody]
  have hlong : 20 ≤ body.length := by
    unfold kHeaderSize at hsize
    omega
  have hkeep : lengthField (body ++ leBytes 4 (crc32c (recordBody index e)).toNat) = lengthField body := by
    rw [lengthField, lengthField, List.drop_append_of_le_length (by omega),
      List.take_append_of_le_length (by rw [List.length_drop]; omega)]
  unfold CrcMismatch
  rw [hkeep, hfield, leNat_leBytes_four he.command, hsize, List.drop_left, List.take_left,
    List.take_of_length_le (by simp [kCrcSize])]
  exact hb.stored_ne hne

/-- **A record hit by a burst is not read**: with its length field and its stored checksum as they were
    written, it is torn if it ends the file and corrupt otherwise. -/
theorem recordAt_burst {e : LogEntry} (he : Storable e) {index : ℕ} {body : Bytes}
    (hb : Burst body (recordBody index e)) (hne : body ≠ recordBody index e)
    (hfield : lengthField body = leBytes 4 e.command.length) (n : ℕ) (rest : Bytes) :
    recordAt n (body ++ (leBytes 4 (crc32c (recordBody index e)).toNat ++ rest)) =
      if rest = [] then .torn else .corrupt := by
  have hsize : body.length = kHeaderSize + e.command.length := by rw [hb.1, length_recordBody]
  obtain ⟨i, term, len, tail, hi, ht, hl, rfl⟩ := exists_header (b := body) (by omega)
  have hlen : len = e.command.length := by
    rw [lengthField_header] at hfield
    have hback := congrArg leNat hfield
    rwa [leNat_leBytes_four hl, leNat_leBytes_four he.command] at hback
  have htail : tail.length = len := by
    rw [List.length_append, length_recordHeader] at hsize
    omega
  rw [List.append_assoc]
  have hinv : Invalid n i term len (tail ++ (leBytes 4 (crc32c (recordBody index e)).toNat ++ rest)) := by
    refine ⟨hi, ht, hl, ?_, .inl ?_⟩
    · rw [List.length_append, List.length_append, length_leBytes, htail]
      unfold kCrcSize
      omega
    · rw [← htail, List.drop_left, List.take_left, List.take_left' (by simp [kCrcSize]), htail]
      exact hb.stored_ne hne
  rw [hinv.recordAt]
  refine if_congr ?_ rfl rfl
  rw [List.length_append, List.length_append, length_leBytes, htail]
  unfold kCrcSize
  rw [← List.length_eq_zero_iff]
  omega

/-- A file of the right size whose checksum does not fit is refused. -/
theorem readMeta_mismatch {body : Bytes} (hsize : body.length = kCrcOffset) {crc : ℕ}
    (hne : leNat (leBytes 4 crc) ≠ (crc32c body).toNat) (path : String) :
    readMeta path (body ++ leBytes 4 crc) = .error ("corrupt metadata file " ++ path) := by
  have hlen : (body ++ leBytes 4 crc).length = kMetaSize := by
    rw [List.length_append, hsize, length_leBytes]
    rfl
  have htake : (body ++ leBytes 4 crc).take (kMetaSize + 1) = body ++ leBytes 4 crc :=
    List.take_of_length_le (by omega)
  have hbody : (body ++ leBytes 4 crc).take kCrcOffset = body := List.take_left' hsize
  unfold readMeta
  dsimp only
  rw [htake, if_neg (fun h => h hlen), hbody]
  refine if_pos (.inr (.inr (.inr ?_)))
  -- the five fields before it are sixteen bytes, whatever they hold
  unfold kCrcOffset at hsize
  obtain ⟨magic, b₁, hm, rfl⟩ := exists_leBytes (n := 4) (by omega : 4 ≤ body.length)
  rw [List.length_append, length_leBytes] at hsize
  obtain ⟨version, b₂, hv, rfl⟩ := exists_leBytes (n := 1) (by omega : 1 ≤ b₁.length)
  rw [List.length_append, length_leBytes] at hsize
  obtain ⟨term, b₃, ht, rfl⟩ := exists_leBytes (n := 8) (by omega : 8 ≤ b₂.length)
  rw [List.length_append, length_leBytes] at hsize
  obtain ⟨hasVote, b₄, hh, rfl⟩ := exists_leBytes (n := 1) (by omega : 1 ≤ b₃.length)
  rw [List.length_append, length_leBytes] at hsize
  obtain ⟨vote, b₅, hw, rfl⟩ := exists_leBytes (n := 2) (by omega : 2 ≤ b₄.length)
  rw [List.length_append, length_leBytes] at hsize
  obtain rfl : b₅ = [] := List.length_eq_zero_iff.mp (by omega)
  have hlast : Reader.uint 4 ⟨leBytes 4 crc, true⟩ = (leNat (leBytes 4 crc), ⟨[], true⟩) := by
    have := Reader.uint_leBytes 4 crc []
    rwa [List.append_nil, ← leNat_leBytes] at this
  rw [List.append_nil] at hne ⊢
  simp only [Reader.u8, Reader.u16, Reader.u32, Reader.u64, List.append_assoc,
    Reader.uint_leBytes_of_lt (n := 4) hm, Reader.uint_leBytes_of_lt (n := 1) hv,
    Reader.uint_leBytes_of_lt (n := 8) ht, Reader.uint_leBytes_of_lt (n := 1) hh,
    Reader.uint_leBytes_of_lt (n := 2) hw, hlast]
  simpa only [List.append_assoc] using hne

/-- **A metadata file hit by a burst is refused**, with its stored checksum as it was written. -/
theorem readMeta_burst {term : ℕ} {votedFor : Option NodeId} {body : Bytes}
    (hb : Burst body (metaBody term votedFor)) (hne : body ≠ metaBody term votedFor) (path : String) :
    readMeta path (body ++ leBytes 4 (crc32c (metaBody term votedFor)).toNat) =
      .error ("corrupt metadata file " ++ path) := by
  have hsize : body.length = kCrcOffset := by
    rw [hb.1, length_metaBody]
    rfl
  exact readMeta_mismatch hsize (hb.stored_ne hne) path

/-- **The checksum detects every short burst and composes.** Two strings of one length that differ, all
    differing bits within 32 consecutive ones, have different checksums from every starting value; the
    checksum of a string in two parts goes on from that of the first. So a record of the log whose
    checksummed bytes were hit by such a burst, its length field and stored checksum intact, fails the
    test wherever it stands in a file, and so does a metadata file. -/
theorem crc32c_detects_bursts :
    (∀ a b : Bytes, Burst a b → a ≠ b → ∀ c, crc32c a c ≠ crc32c b c) ∧
    (∀ (a b : Bytes) (c : BitVec 32), crc32c (a ++ b) c = crc32c b (crc32c a c)) ∧
    (∀ (e : LogEntry) (index : ℕ) (body : Bytes), Storable e → Burst body (recordBody index e) →
      body ≠ recordBody index e → lengthField body = leBytes 4 e.command.length →
      CrcMismatch (body ++ leBytes 4 (crc32c (recordBody index e)).toNat) ∧
      ∀ n rest e' extent,
        recordAt n (body ++ (leBytes 4 (crc32c (recordBody index e)).toNat ++ rest)) ≠ .record e' extent) ∧
    (∀ (term : ℕ) (votedFor : Option NodeId) (body : Bytes), Burst body (metaBody term votedFor) →
      body ≠ metaBody term votedFor → ∀ path,
      leNat (leBytes 4 (crc32c (metaBody term votedFor)).toNat) ≠ (crc32c body).toNat ∧
      readMeta path (body ++ leBytes 4 (crc32c (metaBody term votedFor)).toNat) =
        .error ("corrupt metadata file " ++ path)) := by
  refine ⟨fun a b hb hne c => hb.crc32c_ne hne c, crc32c_append, ?_, ?_⟩
  · intro e index body he hb hne hfield
    refine ⟨crcMismatch_burst he hb hne hfield, fun n rest e' extent => ?_⟩
    rw [recordAt_burst he hb hne hfield]
    split_ifs <;> exact fun h => by cases h
  · intro term votedFor body hb hne path
    exact ⟨hb.stored_ne hne, readMeta_burst hb hne path⟩

end Rsm.Storage
