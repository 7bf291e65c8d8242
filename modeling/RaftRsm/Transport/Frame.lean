/-
  File:      RaftRsm/Transport/Frame.lean
  Subject:   FRAMES ON A BYTE STREAM (`transport/frame.{h,cpp}`): a 4-byte big-endian length and a
             body, cut out of whatever pieces the stream arrives in.

  * `writeLengthPrefix`, `FrameAssembler.feed` -- the two ends;
  * `frameFormat` -- the frames as records, and what the assembler sees at the head of its buffer;
    it is stable and reads back what is written;
  * `Fed b a bodies` -- where an assembler stands after the stream `b`; `fed_feed` -- one more piece;
  * `framing_fragmentation` -- bodies and state depend on the stream only, not on the pieces.
-/
import RaftRsm.Journal.Stream
import RaftRsm.Rpc.Codec

namespace Rsm.Transport

open Rsm.Rpc Journal

/-! ## 1. The code -/

def kLengthPrefixSize : ℕ := 4

def kMaxFrameSize : ℕ := kEnvelopeSize + kMaxPayloadSize

/-- The length prefix is big-endian; its argument is a `uint32_t`. -/
def writeLengthPrefix (bodyLen : ℕ) : Bytes :=
  let bodyLen := bodyLen % 2 ^ 32
  [UInt8.ofNat (bodyLen >>> 24), UInt8.ofNat (bodyLen >>> 16), UInt8.ofNat (bodyLen >>> 8),
    UInt8.ofNat bodyLen]

structure FrameAssembler where
  buf : Bytes := []
  poisoned : Bool := false
  deriving DecidableEq, Repr

/-- The length that the four bytes at `off` declare. -/
def declaredLength (buf : Bytes) (off : ℕ) : ℕ :=
  (buf.getD off 0).toNat <<< 24 ||| (buf.getD (off + 1) 0).toNat <<< 16 |||
    (buf.getD (off + 2) 0).toNat <<< 8 ||| (buf.getD (off + 3) 0).toNat

namespace FrameAssembler

/-- The `while` of `feed`, from `off` on: the bodies given to the handler, and where it stops; `none`
    where it meets a length that is not allowed. -/
def feedLoop (buf : Bytes) : ℕ → ℕ → List Bytes × Option ℕ
  | 0, off => ([], some off)
  | fuel + 1, off =>
      if buf.length - off ≥ kLengthPrefixSize then
        let len := declaredLength buf off
        if len = 0 ∨ len > kMaxFrameSize then ([], none)
        else if buf.length - off < kLengthPrefixSize + len then ([], some off)
        else
          let body := (buf.drop (off + kLengthPrefixSize)).take len
          let (bodies, stop) := feedLoop buf fuel (off + (kLengthPrefixSize + len))
          (body :: bodies, stop)
      else ([], some off)

/-- One piece of the stream: the assembler after it, the bodies it delivers, and what `feed`
    returns. -/
def feed (a : FrameAssembler) (data : Bytes) : FrameAssembler × List Bytes × Bool :=
  if a.poisoned then (a, [], false)
  else
    let buf := a.buf ++ data
    match feedLoop buf buf.length 0 with
    | (bodies, none) => ({ buf := [], poisoned := true }, bodies, false)
    | (bodies, some off) => ({ a with buf := buf.drop off }, bodies, true)

def reset (a : FrameAssembler) : FrameAssembler := { a with buf := [], poisoned := false }

/-- Piece after piece. -/
def feedAll (a : FrameAssembler) : List Bytes → FrameAssembler × List Bytes
  | [] => (a, [])
  | data :: chunks =>
      let (a, bodies, _) := a.feed data
      let (a, bodies') := feedAll a chunks
      (a, bodies ++ bodies')

end FrameAssembler

/-! ## 2. Lengths -/

/-- Bytes side by side are a sum. -/
theorem declaredLength_eq (buf : Bytes) (off : ℕ) :
    declaredLength buf off = 2 ^ 24 * (buf.getD off 0).toNat + (2 ^ 16 * (buf.getD (off + 1) 0).toNat +
      (2 ^ 8 * (buf.getD (off + 2) 0).toNat + (buf.getD (off + 3) 0).toNat)) := by
  unfold declaredLength
  have h1 := (buf.getD (off + 1) 0).toNat_lt
  have h2 := (buf.getD (off + 2) 0).toNat_lt
  have h3 := (buf.getD (off + 3) 0).toNat_lt
  generalize (buf.getD off 0).toNat = w at *
  generalize (buf.getD (off + 1) 0).toNat = x at *
  generalize (buf.getD (off + 2) 0).toNat = y at *
  generalize (buf.getD (off + 3) 0).toNat = z at *
  simp only [Nat.shiftLeft_eq, Nat.mul_comm _ (2 ^ 24), Nat.mul_comm _ (2 ^ 16), Nat.mul_comm _ (2 ^ 8)]
  rw [Nat.or_assoc, Nat.or_assoc, ← Nat.two_pow_add_eq_or_of_lt (b := z) (i := 8) (by omega) y,
    ← Nat.two_pow_add_eq_or_of_lt (i := 16) (by omega) x,
    ← Nat.two_pow_add_eq_or_of_lt (i := 24) (by omega) w]

@[simp] theorem length_writeLengthPrefix (n : ℕ) : (writeLengthPrefix n).length = kLengthPrefixSize := rfl

theorem declaredLength_writeLengthPrefix {n : ℕ} (h : n < 2 ^ 32) (rest : Bytes) :
    declaredLength (writeLengthPrefix n ++ rest) 0 = n := by
  rw [declaredLength_eq]
  simp only [writeLengthPrefix, Nat.mod_eq_of_lt h, List.cons_append, List.getD_cons_zero,
    List.getD_cons_succ, List.nil_append, Nat.zero_add, UInt8.toNat_ofNat', Nat.shiftRight_eq_div_pow]
  omega

/-- The four bytes are the first ones of the rest. -/
theorem declaredLength_drop (buf : Bytes) (off : ℕ) :
    declaredLength buf off = declaredLength (buf.drop off) 0 := by
  unfold declaredLength
  simp only [List.getD_eq_getElem?_getD, List.getElem?_drop, Nat.zero_add, Nat.add_zero]

theorem declaredLength_append {b : Bytes} (h : kLengthPrefixSize ≤ b.length) (c : Bytes) :
    declaredLength (b ++ c) 0 = declaredLength b 0 := by
  unfold kLengthPrefixSize at h
  unfold declaredLength
  simp only [List.getD_eq_getElem?_getD]
  rw [List.getElem?_append_left (by omega), List.getElem?_append_left (by omega),
    List.getElem?_append_left (by omega), List.getElem?_append_left (by omega)]

/-- Four bytes are the prefix of the length they declare. -/
theorem writeLengthPrefix_declaredLength {b : Bytes} (h : b.length = kLengthPrefixSize) :
    writeLengthPrefix (declaredLength b 0) = b := by
  match b, h with
  | [w, x, y, z], _ =>
      have hw := w.toNat_lt
      have hx := x.toNat_lt
      have hy := y.toNat_lt
      have hz := z.toNat_lt
      rw [declaredLength_eq]
      simp only [writeLengthPrefix, List.getD_cons_zero, List.getD_cons_succ, Nat.zero_add,
        List.cons.injEq, and_true, ← UInt8.toNat_inj, UInt8.toNat_ofNat', Nat.shiftRight_eq_div_pow]
      omega

/-! ## 3. Frames as records -/

/-- **The frames of a stream**, and what the assembler sees at the head of its buffer. -/
def frameFormat : Format Bytes UInt8 where
  enc _ body := writeLengthPrefix body.length ++ body
  read _ b :=
    if b.length < kLengthPrefixSize then .torn
    else if declaredLength b 0 = 0 ∨ declaredLength b 0 > kMaxFrameSize then .corrupt
    else if b.length < kLengthPrefixSize + declaredLength b 0 then .torn
    else .record ((b.drop kLengthPrefixSize).take (declaredLength b 0))
      (kLengthPrefixSize + declaredLength b 0)

/-- A body that may be sent. -/
def LegalBody (body : Bytes) : Prop := 1 ≤ body.length ∧ body.length ≤ kMaxFrameSize

/-- A length that ends the stream. -/
def BadLength (len : ℕ) : Prop := len = 0 ∨ len > kMaxFrameSize

theorem frameFormat_stable : frameFormat.Stable where
  record := by
    intro n b body k h
    simp only [frameFormat] at h ⊢
    split_ifs at h with h1 h2 h3
    cases h
    rw [Nat.not_lt] at h1 h3
    have hpos : 0 < kLengthPrefixSize := by decide
    refine ⟨by omega, h3, fun c => ?_⟩
    rw [declaredLength_append h1, List.length_append, if_neg (by omega), if_neg h2, if_neg (by omega),
      List.drop_append_of_le_length h1, List.take_append_of_le_length (by rw [List.length_drop]; omega)]
  corrupt := by
    intro n b h c
    simp only [frameFormat] at h ⊢
    split_ifs at h with h1 h2
    rw [Nat.not_lt] at h1
    rw [declaredLength_append h1, List.length_append, if_neg (by omega), if_pos h2]

theorem LegalBody.lt {body : Bytes} (h : LegalBody body) : body.length < 2 ^ 32 :=
  Nat.lt_of_le_of_lt h.2 (by decide)

theorem frameFormat_lawful : frameFormat.Lawful LegalBody where
  whole := by
    intro n body rest h
    simp only [frameFormat, List.append_assoc, declaredLength_writeLengthPrefix h.lt]
    have hlen : (writeLengthPrefix body.length ++ (body ++ rest)).length =
        kLengthPrefixSize + (body.length + rest.length) := by
      simp only [List.length_append, length_writeLengthPrefix]
    have hlegal := h
    unfold LegalBody at hlegal
    rw [hlen, if_neg (by omega), if_neg (by omega), if_neg (by omega),
      List.drop_left' (length_writeLengthPrefix _), List.take_left, List.length_append,
      length_writeLengthPrefix]
  cut := by
    intro n body b h hb hlt
    simp only [frameFormat, List.length_append, length_writeLengthPrefix] at hb hlt ⊢
    by_cases hshort : b.length < kLengthPrefixSize
    · rw [if_pos hshort]
    -- the whole prefix is there, so the length it declares is the one that was written
    rw [Nat.not_lt] at hshort
    obtain ⟨c, hc⟩ := hb
    have hdecl : declaredLength b 0 = body.length := by
      rw [← declaredLength_append hshort c, hc, declaredLength_writeLengthPrefix h.lt]
    have hlegal := h
    unfold LegalBody at hlegal
    rw [hdecl, if_neg (by omega), if_neg (by omega), if_pos hlt]
  nonempty := by
    intro n body
    simp [frameFormat, writeLengthPrefix]

/-- **A frame that is cut out is one that was written.** -/
theorem frameFormat_sound {n : ℕ} {b body : Bytes} {k : ℕ}
    (h : frameFormat.read n b = .record body k) :
    LegalBody body ∧ b.take k = frameFormat.enc n body := by
  simp only [frameFormat] at h
  split_ifs at h with h1 h2 h3
  cases h
  rw [Nat.not_lt] at h1 h3
  rw [not_or] at h2
  have hlen : ((b.drop kLengthPrefixSize).take (declaredLength b 0)).length = declaredLength b 0 := by
    rw [List.length_take, List.length_drop]
    omega
  have hpre : (b.take kLengthPrefixSize).length = kLengthPrefixSize := by
    rw [List.length_take]
    omega
  have hdecl : declaredLength (b.take kLengthPrefixSize) 0 = declaredLength b 0 := by
    rw [← declaredLength_append (Nat.le_of_eq hpre.symm) (b.drop kLengthPrefixSize),
      List.take_append_drop]
  refine ⟨⟨by omega, by omega⟩, ?_⟩
  simp only [frameFormat]
  rw [hlen, List.take_add, ← hdecl, writeLengthPrefix_declaredLength hpre]

/-- The bytes of frames, one after the other. -/
def framesBytes (bodies : List Bytes) : Bytes :=
  bodies.flatMap fun body => writeLengthPrefix body.length ++ body

theorem encAll_frameFormat (bodies : List Bytes) : ∀ n, frameFormat.encAll n bodies = framesBytes bodies := by
  induction bodies with
  | nil => exact fun _ => rfl
  | cons body bodies ih =>
      intro n
      rw [Format.encAll_cons, ih]
      rfl

/-! ## 4. The assembler -/

namespace FrameAssembler

/-- The loop is a scan of what is behind `off`. -/
theorem scans_feedLoop (buf : Bytes) : ∀ fuel off, buf.length ≤ off + fuel →
    ∃ t s, frameFormat.Scans 0 (buf.drop off) (feedLoop buf fuel off).1 t s ∧
      ((feedLoop buf fuel off).2 = none ∧ s = .corrupt ∨
        ∃ off', (feedLoop buf fuel off).2 = some off' ∧ s ≠ .corrupt ∧ t = buf.drop off') := by
  intro fuel
  induction fuel with
  | zero =>
      intro off h
      have hnil : buf.drop off = [] := List.drop_eq_nil_of_le h
      refine ⟨[], .clean, ?_, .inr ⟨off, rfl, by decide, hnil.symm⟩⟩
      rw [hnil]
      exact .clean
  | succ fuel ih =>
      intro off h
      have hread : frameFormat.read 0 (buf.drop off) =
          if buf.length - off < kLengthPrefixSize then .torn
          else if declaredLength buf off = 0 ∨ declaredLength buf off > kMaxFrameSize then .corrupt
          else if buf.length - off < kLengthPrefixSize + declaredLength buf off then .torn
          else .record ((buf.drop (off + kLengthPrefixSize)).take (declaredLength buf off))
            (kLengthPrefixSize + declaredLength buf off) := by
        simp only [frameFormat, List.length_drop, ← declaredLength_drop, List.drop_drop]
      -- where more is needed: a record is torn, or nothing is there
      have htorn : frameFormat.read 0 (buf.drop off) = .torn → ∃ t s,
          frameFormat.Scans 0 (buf.drop off) [] t s ∧ ((some off : Option ℕ) = none ∧ s = .corrupt ∨
            ∃ off', some off = some off' ∧ s ≠ .corrupt ∧ t = buf.drop off') := by
        intro hr
        by_cases hnil : buf.drop off = []
        · refine ⟨[], .clean, ?_, .inr ⟨off, rfl, by decide, hnil.symm⟩⟩
          rw [hnil]
          exact .clean
        · exact ⟨_, .torn, .torn hnil hr, .inr ⟨off, rfl, by decide, rfl⟩⟩
      have hne : kLengthPrefixSize ≤ buf.length - off → buf.drop off ≠ [] := by
        intro hle hnil
        have := congrArg List.length hnil
        rw [List.length_drop, List.length_nil] at this
        unfold kLengthPrefixSize at hle
        omega
      simp only [feedLoop]
      by_cases h1 : buf.length - off ≥ kLengthPrefixSize
      · rw [if_pos h1]
        rw [if_neg (Nat.not_lt.mpr h1)] at hread
        by_cases h2 : declaredLength buf off = 0 ∨ declaredLength buf off > kMaxFrameSize
        · rw [if_pos h2] at hread ⊢
          exact ⟨_, .corrupt, .corrupt (hne h1) hread, .inl ⟨rfl, rfl⟩⟩
        · rw [if_neg h2] at hread ⊢
          by_cases h3 : buf.length - off < kLengthPrefixSize + declaredLength buf off
          · rw [if_pos h3] at hread ⊢
            exact htorn hread
          · rw [if_neg h3] at hread ⊢
            have hpos : 0 < kLengthPrefixSize := by decide
            obtain ⟨t, s, hs, hstop⟩ := ih (off + (kLengthPrefixSize + declaredLength buf off)) (by omega)
            refine ⟨t, s, .record (hne h1) hread ?_, hstop⟩
            rw [List.drop_drop]
            exact hs.renumber (fun _ _ => rfl) 1
      · rw [if_neg h1]
        rw [if_pos (Nat.lt_of_not_le h1)] at hread
        exact htorn hread

/-- **Where an assembler stands after the stream `b`**, with the bodies it has delivered: behind the
    last whole frame, or poisoned. -/
def Fed (b : Bytes) (a : FrameAssembler) (bodies : List Bytes) : Prop :=
  ∃ t s, frameFormat.Scans 0 b bodies t s ∧
    (s = .corrupt ∧ a = ⟨[], true⟩ ∨ s ≠ .corrupt ∧ a = ⟨t, false⟩)

variable {a a' : FrameAssembler} {b : Bytes} {bodies bodies' : List Bytes}

theorem fed_start : Fed [] {} [] := ⟨[], .clean, .clean, .inr ⟨by decide, rfl⟩⟩

/-- The stream says it all. -/
theorem Fed.unique (h : Fed b a bodies) (h' : Fed b a' bodies') : a = a' ∧ bodies = bodies' := by
  obtain ⟨t, s, hs, ha⟩ := h
  obtain ⟨t', s', hs', ha'⟩ := h'
  obtain ⟨rfl, rfl, rfl⟩ := hs.unique hs'
  refine ⟨?_, rfl⟩
  rcases ha with ⟨hc, rfl⟩ | ⟨hc, rfl⟩ <;> rcases ha' with ⟨hc', rfl⟩ | ⟨hc', rfl⟩
  · rfl
  · exact absurd hc hc'
  · exact absurd hc' hc
  · rfl

/-- **One more piece.** -/
theorem fed_feed (h : Fed b a bodies) (c : Bytes) :
    Fed (b ++ c) (a.feed c).1 (bodies ++ (a.feed c).2.1) := by
  obtain ⟨t, s, hs, ⟨rfl, rfl⟩ | ⟨hc, rfl⟩⟩ := h
  · refine ⟨t ++ c, .corrupt, ?_, .inl ⟨rfl, rfl⟩⟩
    show frameFormat.Scans 0 (b ++ c) (bodies ++ []) (t ++ c) .corrupt
    rw [List.append_nil]
    exact hs.extend_corrupt frameFormat_stable c
  · obtain ⟨t', s', hs', hstop⟩ := scans_feedLoop (t ++ c) (t ++ c).length 0 (by omega)
    rw [List.drop_zero] at hs'
    have hall := hs.extend frameFormat_stable hc (hs'.renumber (fun _ _ => rfl) (0 + bodies.length))
    refine ⟨t', s', ?_, ?_⟩
    · simp only [feed, Bool.false_eq_true, if_false]
      split
      · rename_i bs hl
        rw [hl] at hall
        exact hall
      · rename_i bs off hl
        rw [hl] at hall
        exact hall
    · simp only [feed, Bool.false_eq_true, if_false]
      rcases hstop with ⟨hnone, rfl⟩ | ⟨off', hsome, hne, rfl⟩
      · refine .inl ⟨rfl, ?_⟩
        split
        · rfl
        · rename_i bs off hl
          rw [hl] at hnone
          cases hnone
      · refine .inr ⟨hne, ?_⟩
        split
        · rename_i bs hl
          rw [hl] at hsome
          cases hsome
        · rename_i bs off hl
          rw [hl] at hsome
          cases hsome
          rfl

theorem fed_feedAll (chunks : List Bytes) : ∀ {b a bodies}, Fed b a bodies →
    Fed (b ++ chunks.flatten) (a.feedAll chunks).1 (bodies ++ (a.feedAll chunks).2) := by
  induction chunks with
  | nil =>
      intro b a bodies h
      simpa [feedAll] using h
  | cons c chunks ih =>
      intro b a bodies h
      have hrest := ih (fed_feed h c)
      rw [List.append_assoc, List.append_assoc] at hrest
      exact hrest

theorem fed_chunks (chunks : List Bytes) :
    Fed chunks.flatten (feedAll {} chunks).1 (feedAll {} chunks).2 :=
  fed_feedAll chunks fed_start

theorem fed_whole (b : Bytes) : Fed b (feed {} b).1 (feed {} b).2.1 := fed_feed fed_start b

/-- **Pieces or the whole.** -/
theorem feedAll_flatten (chunks : List Bytes) :
    feedAll {} chunks = ((feed {} chunks.flatten).1, (feed {} chunks.flatten).2.1) := by
  obtain ⟨ha, hbodies⟩ := (fed_chunks chunks).unique (fed_whole chunks.flatten)
  exact Prod.ext ha hbodies

/-- A stream of whole frames. -/
theorem Fed.frames (hb : ∀ body ∈ bodies, LegalBody body) (h : Fed (framesBytes bodies) a bodies') :
    a = {} ∧ bodies' = bodies := by
  have hscan : frameFormat.Scans 0 (framesBytes bodies) bodies [] .clean := by
    have hend : frameFormat.Scans (0 + bodies.length) [] [] [] .clean := .clean
    have := Format.scans_encAll frameFormat_lawful hb hend
    rwa [encAll_frameFormat, List.append_nil, List.append_nil] at this
  exact h.unique ⟨[], .clean, hscan, .inr ⟨by decide, rfl⟩⟩

/-- A length that is not allowed, behind whole frames. -/
theorem Fed.poison (hb : ∀ body ∈ bodies, LegalBody body) {pre rest : Bytes}
    (hpre : pre.length = kLengthPrefixSize) (hbad : BadLength (declaredLength pre 0))
    (h : Fed (framesBytes bodies ++ (pre ++ rest)) a bodies') :
    a = ⟨[], true⟩ ∧ bodies' = bodies := by
  have hne : pre ++ rest ≠ [] := by
    intro hnil
    rw [(List.append_eq_nil_iff.mp hnil).1] at hpre
    cases hpre
  have hread : frameFormat.read bodies.length (pre ++ rest) = .corrupt := by
    simp only [frameFormat]
    rw [declaredLength_append (Nat.le_of_eq hpre.symm), List.length_append, hpre,
      if_neg (by omega)]
    exact if_pos hbad
  have hscan : frameFormat.Scans 0 (framesBytes bodies ++ (pre ++ rest)) bodies (pre ++ rest) .corrupt := by
    have hstop : frameFormat.Scans (0 + bodies.length) (pre ++ rest) [] (pre ++ rest) .corrupt := by
      rw [Nat.zero_add]
      exact .corrupt hne hread
    have := Format.scans_encAll frameFormat_lawful hb hstop
    rwa [encAll_frameFormat, List.append_nil] at this
  exact h.unique ⟨_, .corrupt, hscan, .inl ⟨rfl, rfl⟩⟩

/-- What a poisoned assembler has met. -/
theorem Fed.of_poisoned (h : Fed b a bodies) (hp : a.poisoned = true) :
    (∀ body ∈ bodies, LegalBody body) ∧ ∃ pre rest, pre.length = kLengthPrefixSize ∧
      BadLength (declaredLength pre 0) ∧ b = framesBytes bodies ++ (pre ++ rest) := by
  obtain ⟨t, s, hs, ⟨rfl, rfl⟩ | ⟨hc, rfl⟩⟩ := h
  · refine ⟨hs.forall_mem fun hr => (frameFormat_sound hr).1, ?_⟩
    have heq := hs.append_eq fun _ _ _ _ hr => (frameFormat_sound hr).2
    rw [encAll_frameFormat] at heq
    have hread := hs.read_corrupt.2
    simp only [frameFormat] at hread
    split_ifs at hread with h1 h2
    rw [Nat.not_lt] at h1
    have hlen : (t.take kLengthPrefixSize).length = kLengthPrefixSize := by
      rw [List.length_take]
      omega
    refine ⟨t.take kLengthPrefixSize, t.drop kLengthPrefixSize, hlen, ?_, ?_⟩
    · rw [← declaredLength_append (Nat.le_of_eq hlen.symm) (t.drop kLengthPrefixSize),
        List.take_append_drop]
      exact h2
    · rw [List.take_append_drop]
      exact heq
  · cases hp

theorem feedAll_poisoned (hp : a.poisoned = true) (chunks : List Bytes) : a.feedAll chunks = (a, []) := by
  induction chunks with
  | nil => rfl
  | cons c chunks ih =>
      have hfeed : a.feed c = (a, [], false) := if_pos hp
      simp only [feedAll, hfeed, ih, List.append_nil]

end FrameAssembler

open FrameAssembler in
/-- **Framing does not depend on fragmentation.** However a stream is cut, the assembler ends where
    it ends on the whole stream, with the same bodies. From frames it delivers their bodies; it is
    poisoned exactly where a length of zero or beyond the cap is declared, with everything before it
    delivered; and then it delivers nothing, until it is reset. -/
theorem framing_fragmentation :
    (∀ chunks, feedAll {} chunks = ((feed {} chunks.flatten).1, (feed {} chunks.flatten).2.1)) ∧
    (∀ bodies chunks, (∀ body ∈ bodies, 1 ≤ body.length ∧ body.length ≤ kMaxFrameSize) →
      chunks.flatten = bodies.flatMap (fun body => writeLengthPrefix body.length ++ body) →
      feedAll {} chunks = ({}, bodies)) ∧
    (∀ chunks, (feedAll {} chunks).1.poisoned = true ↔ ∃ bodies pre rest,
      (∀ body ∈ bodies, LegalBody body) ∧ pre.length = kLengthPrefixSize ∧
      BadLength (declaredLength pre 0) ∧ chunks.flatten = framesBytes bodies ++ (pre ++ rest)) ∧
    (∀ chunks bodies pre rest, (∀ body ∈ bodies, LegalBody body) → pre.length = kLengthPrefixSize →
      BadLength (declaredLength pre 0) → chunks.flatten = framesBytes bodies ++ (pre ++ rest) →
      feedAll {} chunks = (⟨[], true⟩, bodies)) ∧
    (∀ a chunks, a.poisoned = true → feedAll a chunks = (a, [])) ∧
    ∀ a, reset a = {} := by
  have hpoison : ∀ chunks bodies pre rest, (∀ body ∈ bodies, LegalBody body) →
      pre.length = kLengthPrefixSize → BadLength (declaredLength pre 0) →
      chunks.flatten = framesBytes bodies ++ (pre ++ rest) →
      feedAll {} chunks = (⟨[], true⟩, bodies) := by
    intro chunks bodies pre rest hb hpre hbad hflat
    have hfed := fed_chunks chunks
    rw [hflat] at hfed
    exact Prod.ext (hfed.poison hb hpre hbad).1 (hfed.poison hb hpre hbad).2
  refine ⟨feedAll_flatten, fun bodies chunks hb hflat => ?_, fun chunks => ⟨fun hp => ?_, ?_⟩, hpoison,
    fun a chunks hp => feedAll_poisoned hp chunks, fun _ => rfl⟩
  · have hfed := fed_chunks chunks
    rw [hflat] at hfed
    exact Prod.ext (Fed.frames hb hfed).1 (Fed.frames hb hfed).2
  · obtain ⟨hb, pre, rest, hrest⟩ := (fed_chunks chunks).of_poisoned hp
    exact ⟨_, pre, rest, hb, hrest⟩
  · rintro ⟨bodies, pre, rest, hb, hpre, hbad, hflat⟩
    rw [hpoison chunks bodies pre rest hb hpre hbad hflat]

/-- Three frames in one-byte pieces. -/
theorem framing_fragmentation_bytes :
    FrameAssembler.feedAll {} (([0, 0, 0, 1, 7, 0, 0, 0, 2, 8, 9, 0, 0, 0, 1, 7] : Bytes).map ([·])) =
      ({}, [[7], [8, 9], [7]]) := by
  refine framing_fragmentation.2.1 [[7], [8, 9], [7]] _ ?_ ?_
  · decide
  · decide

end Rsm.Transport
