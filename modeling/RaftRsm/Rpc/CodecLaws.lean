/-
  File:      RaftRsm/Rpc/CodecLaws.lean
  Subject:   The wire codec is a bijection.

  A decoder is exact for a layout when it reads back what the layout writes and accepts nothing
  else. Blobs, bools and the fields of fixed width are exact, and so is every payload.

    * `encodePayload_eq`          an encoder with room writes its layout
    * `exact_decodeIntoAlternative`  every payload decoder is exact, whatever message and pool it
                                  decodes into
    * `wire_codec_bijection`      both directions for whole frames
-/
import RaftRsm.Rpc.Codec
import Mathlib.Tactic.SplitIfs

namespace Rsm.Rpc

/-! ## 1. Layouts -/

def blobBytes (b : Bytes) : Bytes := leBytes 4 b.length ++ b

def boolBytes (v : Bool) : Bytes := leBytes 1 (if v then 1 else 0)

def entryBytes (e : LogEntry) : Bytes := leBytes 8 e.term ++ blobBytes e.command

def RequestVote.bytes (m : RequestVote) : Bytes :=
  leBytes 8 m.term ++ (leBytes 2 m.candidateId ++ (leBytes 8 m.lastLogIndex ++ leBytes 8 m.lastLogTerm))

def RequestVoteReply.bytes (m : RequestVoteReply) : Bytes := leBytes 8 m.term ++ boolBytes m.voteGranted

def AppendEntries.bytes (m : AppendEntries) : Bytes :=
  leBytes 8 m.term ++ (leBytes 2 m.leaderId ++ (leBytes 8 m.prevLogIndex ++ (leBytes 8 m.prevLogTerm ++
    (leBytes 8 m.leaderCommit ++ (leBytes 4 m.entries.length ++ m.entries.flatMap entryBytes)))))

def AppendEntriesReply.bytes (m : AppendEntriesReply) : Bytes :=
  leBytes 8 m.term ++ (boolBytes m.success ++ (leBytes 8 m.conflictIndex ++ leBytes 8 m.conflictTerm))

def ClientRequest.bytes (m : ClientRequest) : Bytes :=
  leBytes 8 m.clientId ++ (leBytes 8 m.seqNo ++ blobBytes m.command)

def ClientReply.bytes (m : ClientReply) : Bytes :=
  leBytes 1 m.status.toByte ++ (leBytes 2 m.leaderHint ++ blobBytes m.result)

def payloadBytes : Message → Bytes
  | .requestVote v => v.bytes
  | .requestVoteReply v => v.bytes
  | .appendEntries v => v.bytes
  | .appendEntriesReply v => v.bytes
  | .clientRequest v => v.bytes
  | .clientReply v => v.bytes

def envelopeBytes (e : Envelope) : Bytes :=
  leBytes 1 e.version ++ (leBytes 1 e.type.toByte ++ (leBytes 2 e.from_ ++ (leBytes 2 e.to_ ++
    (leBytes 2 0 ++ leBytes 4 e.payloadLength))))

@[simp] theorem length_blobBytes (b : Bytes) : (blobBytes b).length = 4 + b.length := by
  simp [blobBytes]

@[simp] theorem length_boolBytes (v : Bool) : (boolBytes v).length = 1 := by simp [boolBytes]

@[simp] theorem length_entryBytes (e : LogEntry) : (entryBytes e).length = 12 + e.command.length := by
  simp [entryBytes]
  omega

@[simp] theorem length_envelopeBytes (e : Envelope) : (envelopeBytes e).length = kEnvelopeSize := by
  simp [envelopeBytes, kEnvelopeSize]

/-- The hand-written size of the entries is the size of their layout. -/
theorem foldl_entrySize (es : List LogEntry) (n : ℕ) :
    es.foldl (fun n e => n + (8 + 4 + e.command.length)) n = n + (es.flatMap entryBytes).length := by
  induction es generalizing n with
  | nil => rfl
  | cons e es ih =>
      rw [List.foldl_cons, ih]
      simp
      omega

/-- **`payloadSize` is the size of the layout.** -/
theorem length_payloadBytes (m : Message) : (payloadBytes m).length = payloadSize m := by
  cases m with
  | requestVote v => simp [payloadBytes, payloadSize, RequestVote.bytes]
  | requestVoteReply v => simp [payloadBytes, payloadSize, RequestVoteReply.bytes]
  | appendEntries v =>
      simp only [payloadBytes, payloadSize, AppendEntries.bytes, foldl_entrySize, List.length_append,
        length_leBytes]
      omega
  | appendEntriesReply v => simp [payloadBytes, payloadSize, AppendEntriesReply.bytes]
  | clientRequest v =>
      simp [payloadBytes, payloadSize, ClientRequest.bytes]
      omega
  | clientReply v =>
      simp [payloadBytes, payloadSize, ClientReply.bytes]
      omega

/-! ## 2. Encoders write their layout -/

/-- A sequence of writes is a layout of its pieces. -/
theorem writes_eq (ps : List Bytes) {b : Bytes} (hb : ps.flatten = b) {w : Writer}
    (h : w.Room b.length) : ps.foldl Writer.put w = w.wrote b := by
  subst hb
  exact Writer.puts_eq ps h

theorem encodeEntries_eq {es : List LogEntry} {w : Writer}
    (h : w.Room (es.flatMap entryBytes).length) :
    es.foldl encodeEntry w = w.wrote (es.flatMap entryBytes) := by
  induction es generalizing w with
  | nil => simp
  | cons e es ih =>
      rw [List.flatMap_cons, List.length_append] at h
      have he : encodeEntry w e = w.wrote (entryBytes e) :=
        writes_eq [leBytes 8 e.term, leBytes 4 e.command.length, e.command]
          (by simp [entryBytes, blobBytes]) ⟨h.ok, by have := h.fits; omega⟩
      rw [List.foldl_cons, he, ih (h.wrote (Nat.le_refl _)), Writer.wrote_wrote, List.flatMap_cons]

/-- **An encoder with room writes its layout.** -/
theorem encodePayload_eq {m : Message} {w : Writer} (h : w.Room (payloadBytes m).length) :
    encodePayload m w = w.wrote (payloadBytes m) := by
  cases m with
  | requestVote v =>
      exact writes_eq [leBytes 8 v.term, leBytes 2 v.candidateId, leBytes 8 v.lastLogIndex,
        leBytes 8 v.lastLogTerm] (by simp [payloadBytes, RequestVote.bytes]) h
  | requestVoteReply v =>
      exact writes_eq [leBytes 8 v.term, boolBytes v.voteGranted]
        (by simp [payloadBytes, RequestVoteReply.bytes]) h
  | appendEntries v =>
      -- the fields of fixed width, then the loop
      have hsplit : payloadBytes (.appendEntries v) = [leBytes 8 v.term, leBytes 2 v.leaderId,
          leBytes 8 v.prevLogIndex, leBytes 8 v.prevLogTerm, leBytes 8 v.leaderCommit,
          leBytes 4 v.entries.length].flatten ++ v.entries.flatMap entryBytes := by
        simp [payloadBytes, AppendEntries.bytes]
      rw [hsplit, List.length_append] at h
      have hfixed := writes_eq [leBytes 8 v.term, leBytes 2 v.leaderId,
          leBytes 8 v.prevLogIndex, leBytes 8 v.prevLogTerm, leBytes 8 v.leaderCommit,
          leBytes 4 v.entries.length] rfl (w := w) ⟨h.ok, by have := h.fits; omega⟩
      rw [hsplit, ← Writer.wrote_wrote, ← encodeEntries_eq (h.wrote (Nat.le_refl _)), ← hfixed]
      rfl
  | appendEntriesReply v =>
      exact writes_eq [leBytes 8 v.term, boolBytes v.success, leBytes 8 v.conflictIndex,
        leBytes 8 v.conflictTerm] (by simp [payloadBytes, AppendEntriesReply.bytes]) h
  | clientRequest v =>
      exact writes_eq [leBytes 8 v.clientId, leBytes 8 v.seqNo, leBytes 4 v.command.length, v.command]
        (by simp [payloadBytes, ClientRequest.bytes, blobBytes]) h
  | clientReply v =>
      exact writes_eq [leBytes 1 v.status.toByte, leBytes 2 v.leaderHint, leBytes 4 v.result.length,
        v.result] (by simp [payloadBytes, ClientReply.bytes, blobBytes]) h

theorem encodeEnvelope_eq {e : Envelope} {w : Writer} (h : w.Room kEnvelopeSize) :
    encodeEnvelope e w = w.wrote (envelopeBytes e) :=
  writes_eq [leBytes 1 e.version, leBytes 1 e.type.toByte, leBytes 2 e.from_, leBytes 2 e.to_,
    leBytes 2 0, leBytes 4 e.payloadLength] (by simp [envelopeBytes]) (by simpa using h)

/-- The envelope that `encodeMessage` writes. -/
def envelopeFor (from_ to_ : NodeId) (m : Message) : Envelope :=
  { type := typeOf m, from_, to_, payloadLength := payloadSize m }

def frameBytes (from_ to_ : NodeId) (m : Message) : Bytes :=
  envelopeBytes (envelopeFor from_ to_ m) ++ payloadBytes m

@[simp] theorem length_frameBytes (from_ to_ : NodeId) (m : Message) :
    (frameBytes from_ to_ m).length = encodedSize m := by
  simp [frameBytes, encodedSize, length_payloadBytes]

/-- **`encodeMessage` writes the frame.** -/
theorem encodeMessage_eq (from_ to_ : NodeId) {m : Message} {size : ℕ}
    (hp : payloadSize m ≤ kMaxPayloadSize) (hs : encodedSize m ≤ size) :
    encodeMessage from_ to_ m size = (encodedSize m, frameBytes from_ to_ m) := by
  have hfits : kEnvelopeSize + (payloadBytes m).length ≤ size := by
    rw [length_payloadBytes]
    exact hs
  have henv : ({ size } : Writer).Room kEnvelopeSize := ⟨rfl, by simp; omega⟩
  have hpay : (({ size } : Writer).wrote (envelopeBytes (envelopeFor from_ to_ m))).Room
      (payloadBytes m).length := ⟨rfl, by simpa [Writer.wrote] using hfits⟩
  have hwrote : encodePayload m (encodeEnvelope (envelopeFor from_ to_ m) { size }) =
      ({ size } : Writer).wrote (frameBytes from_ to_ m) := by
    rw [encodeEnvelope_eq henv, encodePayload_eq hpay, Writer.wrote_wrote]
    rfl
  have hno : ¬ (payloadSize m > kMaxPayloadSize ∨ size < kEnvelopeSize + payloadSize m) := by
    unfold encodedSize at hs
    omega
  have hrun : encodeMessage from_ to_ m size =
      let w := encodePayload m (encodeEnvelope (envelopeFor from_ to_ m) { size })
      (if w.ok then w.written else 0, w.out) := if_neg hno
  rw [hrun, hwrote]
  exact Prod.ext (length_frameBytes from_ to_ m) rfl

/-! ## 3. Exact decoders -/

/-- **An exact decoder** for a layout: it reads back what the layout writes, and accepts nothing
    else. -/
structure Exact {α : Type} (dec : Reader → Bool × α × Reader) (enc : α → Bytes) (ok : α → Prop) :
    Prop where
  reads : ∀ a rest, ok a → dec ⟨enc a ++ rest, true⟩ = (true, a, ⟨rest, true⟩)
  only : ∀ b a r, dec ⟨b, true⟩ = (true, a, r) → ok a ∧ ∃ rest, r = ⟨rest, true⟩ ∧ b = enc a ++ rest

/-- The decoder fails, or what it has read is what would be written. -/
theorem Exact.cases {α : Type} {dec : Reader → Bool × α × Reader} {enc : α → Bytes} {ok : α → Prop}
    (h : Exact dec enc ok) (b : Bytes) : (∃ a r, dec ⟨b, true⟩ = (false, a, r)) ∨
      ∃ a rest, ok a ∧ b = enc a ++ rest ∧ dec ⟨b, true⟩ = (true, a, ⟨rest, true⟩) := by
  obtain ⟨⟨good, a, r⟩, hd⟩ : ∃ x, dec ⟨b, true⟩ = x := ⟨_, rfl⟩
  rw [hd]
  cases good with
  | false => exact .inl ⟨a, r, rfl⟩
  | true =>
      obtain ⟨ha, rest, rfl, hb⟩ := h.only b a r hd
      exact .inr ⟨a, rest, ha, hb, rfl⟩

/-- A decoder whose values are wrapped. -/
theorem Exact.map {α β : Type} {dec : Reader → Bool × α × Reader} {enc : α → Bytes} {ok : α → Prop}
    (h : Exact dec enc ok) {f : α → β} {enc' : β → Bytes} {ok' : β → Prop}
    (henc : ∀ a, enc' (f a) = enc a) (hok : ∀ b, ok' b ↔ ∃ a, b = f a ∧ ok a) :
    Exact (fun r => ((dec r).1, f (dec r).2.1, (dec r).2.2)) enc' ok' where
  reads b rest hb := by
    obtain ⟨a, rfl, ha⟩ := (hok b).mp hb
    rw [henc, h.reads a rest ha]
  only b x r hx := by
    simp only [Prod.mk.injEq] at hx
    obtain ⟨hgood, rfl, rfl⟩ := hx
    obtain ⟨ha, rest, hr, hb⟩ := h.only b _ _ (Prod.ext hgood rfl)
    exact ⟨(hok _).mpr ⟨_, rfl, ha⟩, rest, hr, by rw [henc]; exact hb⟩

theorem exact_decodeBool (out : Bool) : Exact (fun r => decodeBool r out) boolBytes fun _ => True where
  reads v rest _ := by cases v <;> simp [decodeBool, boolBytes, Reader.u8, Reader.uint_leBytes]
  only b v r h := by
    refine ⟨trivial, ?_⟩
    simp only [decodeBool, Reader.u8] at h
    obtain hu | ⟨n, rest, hn, rfl, hu⟩ := Reader.uint_cases 1 b
    · simp [hu] at h
    simp only [hu, Bool.not_true, Bool.false_or, decide_eq_true_eq] at h
    split_ifs at h with h1
    · cases h
    · cases h
      have h01 : n = 0 ∨ n = 1 := by omega
      refine ⟨rest, rfl, ?_⟩
      obtain rfl | rfl := h01
      · rfl
      · rfl

theorem exact_decodeBlob (out : Bytes) :
    Exact (fun r => decodeBlob r out) blobBytes fun b => b.length < 2 ^ 32 where
  reads v rest hv := by
    simp [decodeBlob, blobBytes, Reader.u32, Reader.uint_leBytes_of_lt (n := 4) hv, Reader.remaining,
      Reader.readBytes_append]
  only b v r h := by
    simp only [decodeBlob, Reader.u32] at h
    obtain hu | ⟨n, rest, hn, rfl, hu⟩ := Reader.uint_cases 4 b
    · simp [hu] at h
    simp only [hu, Bool.not_true, Bool.false_or, decide_eq_true_eq, Reader.remaining,
      Reader.readBytes] at h
    split_ifs at h with h1
    · cases h
    · cases h
      have hlen : (rest.take n).length = n := List.length_take_of_le (Nat.le_of_not_lt h1)
      refine ⟨by rw [hlen]; exact hn, rest.drop n, rfl, ?_⟩
      rw [blobBytes, hlen, List.append_assoc, List.take_append_drop]

/-- The numbers of a message are of the types that the source gives them. -/
def Message.Typed : Message → Prop
  | .requestVote m =>
      m.term < 2 ^ 64 ∧ m.candidateId < 2 ^ 16 ∧ m.lastLogIndex < 2 ^ 64 ∧ m.lastLogTerm < 2 ^ 64
  | .requestVoteReply m => m.term < 2 ^ 64
  | .appendEntries m =>
      m.term < 2 ^ 64 ∧ m.leaderId < 2 ^ 16 ∧ m.prevLogIndex < 2 ^ 64 ∧ m.prevLogTerm < 2 ^ 64 ∧
        m.leaderCommit < 2 ^ 64 ∧ ∀ e ∈ m.entries, e.term < 2 ^ 64
  | .appendEntriesReply m => m.term < 2 ^ 64 ∧ m.conflictIndex < 2 ^ 64 ∧ m.conflictTerm < 2 ^ 64
  | .clientRequest m => m.clientId < 2 ^ 64 ∧ m.seqNo < 2 ^ 64
  | .clientReply m => m.leaderHint < 2 ^ 16

/-- Its length fields hold its lengths. -/
def Message.Sized : Message → Prop
  | .appendEntries m => m.entries.length < 2 ^ 32 ∧ ∀ e ∈ m.entries, e.command.length < 2 ^ 32
  | .clientRequest m => m.command.length < 2 ^ 32
  | .clientReply m => m.result.length < 2 ^ 32
  | _ => True

def Message.Sent (m : Message) : Prop := m.Typed ∧ m.Sized

def LogEntry.Sent (e : LogEntry) : Prop := e.term < 2 ^ 64 ∧ e.command.length < 2 ^ 32

theorem exact_decodeEntry (old : LogEntry) :
    Exact (fun r => decodeEntry r old) entryBytes LogEntry.Sent where
  reads e rest he := by
    simp only [decodeEntry, entryBytes, List.append_assoc, Reader.u64,
      Reader.uint_leBytes_of_lt (n := 8) he.1, (exact_decodeBlob old.command).reads e.command rest he.2]
    rfl
  only b e r h := by
    simp only [decodeEntry, Reader.u64] at h
    obtain hu | ⟨term, b, ht, rfl, hu⟩ := Reader.uint_cases 8 b
    · simp [hu] at h
    simp only [hu, Bool.not_true, Bool.false_eq_true, if_false] at h
    obtain ⟨_, _, hu⟩ | ⟨command, b, hc, rfl, hu⟩ := (exact_decodeBlob old.command).cases b
    · simp [hu] at h
    simp only [hu] at h
    cases h
    exact ⟨⟨ht, hc⟩, b, rfl, by simp [entryBytes]⟩

theorem exact_requestVote :
    Exact RequestVote.decodePayload RequestVote.bytes fun m => (Message.requestVote m).Sent where
  reads m rest hm := by
    obtain ⟨⟨h1, h2, h3, h4⟩, -⟩ := hm
    simp only [RequestVote.decodePayload, RequestVote.bytes, List.append_assoc, Reader.u64,
      Reader.u16, Reader.uint_leBytes_of_lt (n := 8) h1, Reader.uint_leBytes_of_lt (n := 2) h2,
      Reader.uint_leBytes_of_lt (n := 8) h3, Reader.uint_leBytes_of_lt (n := 8) h4]
  only b m r h := by
    simp only [RequestVote.decodePayload, Reader.u64, Reader.u16] at h
    obtain hu | ⟨term, b, h1, rfl, hu⟩ := Reader.uint_cases 8 b
    · simp [hu] at h
    simp only [hu] at h
    obtain hu | ⟨candidateId, b, h2, rfl, hu⟩ := Reader.uint_cases 2 b
    · simp [hu] at h
    simp only [hu] at h
    obtain hu | ⟨lastLogIndex, b, h3, rfl, hu⟩ := Reader.uint_cases 8 b
    · simp [hu] at h
    simp only [hu] at h
    obtain hu | ⟨lastLogTerm, b, h4, rfl, hu⟩ := Reader.uint_cases 8 b
    · simp [hu] at h
    simp only [hu] at h
    cases h
    exact ⟨⟨⟨h1, h2, h3, h4⟩, trivial⟩, b, rfl, by simp [RequestVote.bytes]⟩

theorem exact_requestVoteReply (old : RequestVoteReply) :
    Exact (fun r => RequestVoteReply.decodePayload r old) RequestVoteReply.bytes
      fun m => (Message.requestVoteReply m).Sent where
  reads m rest hm := by
    simp only [RequestVoteReply.decodePayload, RequestVoteReply.bytes, List.append_assoc, Reader.u64,
      Reader.uint_leBytes_of_lt (n := 8) hm.1,
      (exact_decodeBool old.voteGranted).reads m.voteGranted rest trivial]
    rfl
  only b m r h := by
    simp only [RequestVoteReply.decodePayload, Reader.u64] at h
    obtain hu | ⟨term, b, h1, rfl, hu⟩ := Reader.uint_cases 8 b
    · simp [hu] at h
    simp only [hu, Bool.not_true, Bool.false_eq_true, if_false] at h
    obtain ⟨_, _, hu⟩ | ⟨voteGranted, b, -, rfl, hu⟩ := (exact_decodeBool old.voteGranted).cases b
    · simp [hu] at h
    simp only [hu] at h
    cases h
    exact ⟨⟨h1, trivial⟩, b, rfl, by simp [RequestVoteReply.bytes]⟩

theorem exact_appendEntriesReply (old : AppendEntriesReply) :
    Exact (fun r => AppendEntriesReply.decodePayload r old) AppendEntriesReply.bytes
      fun m => (Message.appendEntriesReply m).Sent where
  reads m rest hm := by
    obtain ⟨⟨h1, h2, h3⟩, -⟩ := hm
    simp only [AppendEntriesReply.decodePayload, AppendEntriesReply.bytes, List.append_assoc,
      Reader.u64, Reader.uint_leBytes_of_lt (n := 8) h1, Reader.uint_leBytes_of_lt (n := 8) h2,
      Reader.uint_leBytes_of_lt (n := 8) h3, (exact_decodeBool old.success).reads m.success _ trivial]
    rfl
  only b m r h := by
    simp only [AppendEntriesReply.decodePayload, Reader.u64] at h
    obtain hu | ⟨term, b, h1, rfl, hu⟩ := Reader.uint_cases 8 b
    · simp [hu] at h
    simp only [hu, Bool.not_true, Bool.false_eq_true, if_false] at h
    obtain ⟨_, _, hu⟩ | ⟨success, b, -, rfl, hu⟩ := (exact_decodeBool old.success).cases b
    · simp [hu] at h
    simp only [hu, Bool.not_true, Bool.false_eq_true, if_false] at h
    obtain hu | ⟨conflictIndex, b, h2, rfl, hu⟩ := Reader.uint_cases 8 b
    · simp [hu] at h
    simp only [hu] at h
    obtain hu | ⟨conflictTerm, b, h3, rfl, hu⟩ := Reader.uint_cases 8 b
    · simp [hu] at h
    simp only [hu] at h
    cases h
    exact ⟨⟨⟨h1, h2, h3⟩, trivial⟩, b, rfl, by simp [AppendEntriesReply.bytes]⟩

theorem exact_clientRequest (old : ClientRequest) :
    Exact (fun r => ClientRequest.decodePayload r old) ClientRequest.bytes
      fun m => (Message.clientRequest m).Sent where
  reads m rest hm := by
    obtain ⟨⟨h1, h2⟩, hc⟩ := hm
    simp only [ClientRequest.decodePayload, ClientRequest.bytes, List.append_assoc, Reader.u64,
      Reader.uint_leBytes_of_lt (n := 8) h1, Reader.uint_leBytes_of_lt (n := 8) h2,
      (exact_decodeBlob old.command).reads m.command rest hc]
    rfl
  only b m r h := by
    simp only [ClientRequest.decodePayload, Reader.u64] at h
    obtain hu | ⟨clientId, b, h1, rfl, hu⟩ := Reader.uint_cases 8 b
    · simp [hu] at h
    simp only [hu] at h
    obtain hu | ⟨seqNo, b, h2, rfl, hu⟩ := Reader.uint_cases 8 b
    · simp [hu] at h
    simp only [hu, Bool.not_true, Bool.false_eq_true, if_false] at h
    obtain ⟨_, _, hu⟩ | ⟨command, b, hc, rfl, hu⟩ := (exact_decodeBlob old.command).cases b
    · simp [hu] at h
    simp only [hu] at h
    cases h
    exact ⟨⟨⟨h1, h2⟩, hc⟩, b, rfl, by simp [ClientRequest.bytes]⟩

theorem status_ofByte {n : ℕ} {s : ClientStatus} : ClientStatus.ofByte n = some s ↔ n = s.toByte := by
  constructor
  · intro h
    match n, h with
    | 0, h => cases h; rfl
    | 1, h => cases h; rfl
    | 2, h => cases h; rfl
  · rintro rfl
    cases s <;> rfl

theorem exact_clientReply (old : ClientReply) :
    Exact (fun r => ClientReply.decodePayload r old) ClientReply.bytes
      fun m => (Message.clientReply m).Sent where
  reads m rest hm := by
    obtain ⟨h1, hc⟩ := hm
    have hs : m.status.toByte < 256 ^ 1 := by cases m.status <;> decide
    simp only [ClientReply.decodePayload, ClientReply.bytes, List.append_assoc, Reader.u8, Reader.u16,
      Reader.uint_leBytes_of_lt hs, Reader.uint_leBytes_of_lt (n := 2) h1, status_ofByte.mpr rfl,
      (exact_decodeBlob old.result).reads m.result rest hc]
    rfl
  only b m r h := by
    simp only [ClientReply.decodePayload, Reader.u8, Reader.u16] at h
    obtain hu | ⟨n, b, -, rfl, hu⟩ := Reader.uint_cases 1 b
    · simp [hu, ClientStatus.ofByte] at h
    simp only [hu, Bool.not_true, Bool.false_eq_true, if_false] at h
    cases hs : ClientStatus.ofByte n with
    | none => simp [hs] at h
    | some status =>
        simp only [hs] at h
        obtain rfl := status_ofByte.mp hs
        obtain hu | ⟨leaderHint, b, h1, rfl, hu⟩ := Reader.uint_cases 2 b
        · simp [hu, decodeBlob, Reader.u32] at h
        simp only [hu] at h
        obtain ⟨_, _, hu⟩ | ⟨result, b, hc, rfl, hu⟩ := (exact_decodeBlob old.result).cases b
        · simp [hu] at h
        simp only [hu] at h
        cases h
        exact ⟨⟨h1, hc⟩, b, rfl, by simp [ClientReply.bytes]⟩

/-! ## 4. The entries -/

/-- A decoder without the pool it leaves. -/
def dropPool {α : Type} (x : Bool × α × DecodePool × Reader) : Bool × α × Reader :=
  (x.1, x.2.1, x.2.2.2)

theorem length_nextSlot {rest : List LogEntry} {k : ℕ} (h : rest.length ≤ k + 1) (pool : DecodePool) :
    (nextSlot rest pool).2.1.length ≤ k := by
  cases rest with
  | nil => exact Nat.zero_le k
  | cons e rest => exact Nat.le_of_succ_le_succ h

theorem decodeEntries_reads {es : List LogEntry} (hes : ∀ e ∈ es, e.Sent) (rest : Bytes)
    (done : List LogEntry) {old : List LogEntry} (hold : old.length ≤ es.length) (pool : DecodePool) :
    dropPool (decodeEntries es.length ⟨es.flatMap entryBytes ++ rest, true⟩ done old pool) =
      (true, done ++ es, ⟨rest, true⟩) := by
  induction es generalizing done old pool with
  | nil =>
      have : old = [] := List.length_eq_zero_iff.mp (Nat.le_zero.mp hold)
      simp [decodeEntries, dropPool, this]
  | cons e es ih =>
      have hslot := length_nextSlot hold pool
      have hread := (exact_decodeEntry (nextSlot old pool).1).reads e
        (es.flatMap entryBytes ++ rest) (hes e List.mem_cons_self)
      rw [List.flatMap_cons, List.length_cons, List.append_assoc]
      simp only [decodeEntries, hread, Bool.not_true, Bool.false_eq_true, if_false]
      rw [ih (fun x hx => hes x (List.mem_cons_of_mem e hx)) _ hslot, List.append_assoc,
        List.singleton_append]

theorem decodeEntries_only {k : ℕ} {b : Bytes} {done old out : List LogEntry} {pool : DecodePool}
    {r : Reader} (hold : old.length ≤ k)
    (h : dropPool (decodeEntries k ⟨b, true⟩ done old pool) = (true, out, r)) :
    ∃ es rest, es.length = k ∧ (∀ e ∈ es, e.Sent) ∧ out = done ++ es ∧ r = ⟨rest, true⟩ ∧
      b = es.flatMap entryBytes ++ rest := by
  induction k generalizing b done old pool with
  | zero =>
      have : old = [] := List.length_eq_zero_iff.mp (Nat.le_zero.mp hold)
      cases h
      exact ⟨[], b, rfl, by simp, by simp [decodeEntries, this], rfl, rfl⟩
  | succ k ih =>
      have hslot := length_nextSlot hold pool
      simp only [decodeEntries] at h
      obtain ⟨_, _, hu⟩ | ⟨e, b, he, rfl, hu⟩ := (exact_decodeEntry (nextSlot old pool).1).cases b
      · simp [hu, dropPool] at h
      simp only [hu, Bool.not_true, Bool.false_eq_true, if_false] at h
      obtain ⟨es, rest, hk, hes, rfl, rfl, rfl⟩ := ih hslot h
      exact ⟨e :: es, rest, by rw [List.length_cons, hk], by simpa using ⟨he, hes⟩, by simp, rfl, by simp⟩

/-- Every entry takes at least twelve bytes: the guard on the count refuses no frame that was
    written. -/
theorem le_length_entries (es : List LogEntry) :
    es.length * kMinEntryWireSize ≤ (es.flatMap entryBytes).length := by
  induction es with
  | nil => simp
  | cons e es ih =>
      simp only [kMinEntryWireSize, List.length_cons, List.flatMap_cons, List.length_append,
        length_entryBytes] at ih ⊢
      omega

theorem exact_appendEntries (old : AppendEntries) (pool : DecodePool) :
    Exact (fun r => dropPool (AppendEntries.decodePayloadInto r old pool)) AppendEntries.bytes
      fun m => (Message.appendEntries m).Sent where
  reads m rest hm := by
    obtain ⟨⟨h1, h2, h3, h4, h5, ht⟩, hn, hc⟩ := hm
    have hguard : ¬ m.entries.length >
        (m.entries.flatMap entryBytes ++ rest).length / kMinEntryWireSize := by
      have := le_length_entries m.entries
      rw [List.length_append, Nat.not_lt, Nat.le_div_iff_mul_le (by decide)]
      omega
    have hloop := decodeEntries_reads (fun e he => ⟨ht e he, hc e he⟩) rest []
      (List.length_take_le m.entries.length old.entries)
      (pool.putCommands (old.entries.drop m.entries.length))
    simp only [dropPool, Prod.mk.injEq, List.nil_append] at hloop
    obtain ⟨hgood, hout, hrest⟩ := hloop
    simp only [dropPool, AppendEntries.decodePayloadInto, AppendEntries.bytes, List.append_assoc,
      Reader.u64, Reader.u32, Reader.u16, Reader.uint_leBytes_of_lt (n := 8) h1,
      Reader.uint_leBytes_of_lt (n := 2) h2, Reader.uint_leBytes_of_lt (n := 8) h3,
      Reader.uint_leBytes_of_lt (n := 8) h4, Reader.uint_leBytes_of_lt (n := 8) h5,
      Reader.uint_leBytes_of_lt (n := 4) hn, Reader.remaining, Bool.not_true, Bool.false_eq_true,
      if_false, if_neg hguard, hgood, hout, hrest]
  only b m r h := by
    simp only [AppendEntries.decodePayloadInto, Reader.u64, Reader.u32, Reader.u16] at h
    obtain hu | ⟨term, b, h1, rfl, hu⟩ := Reader.uint_cases 8 b
    · simp [hu, dropPool] at h
    simp only [hu] at h
    obtain hu | ⟨leaderId, b, h2, rfl, hu⟩ := Reader.uint_cases 2 b
    · simp [hu, dropPool] at h
    simp only [hu] at h
    obtain hu | ⟨prevLogIndex, b, h3, rfl, hu⟩ := Reader.uint_cases 8 b
    · simp [hu, dropPool] at h
    simp only [hu] at h
    obtain hu | ⟨prevLogTerm, b, h4, rfl, hu⟩ := Reader.uint_cases 8 b
    · simp [hu, dropPool] at h
    simp only [hu] at h
    obtain hu | ⟨leaderCommit, b, h5, rfl, hu⟩ := Reader.uint_cases 8 b
    · simp [hu, dropPool] at h
    simp only [hu] at h
    obtain hu | ⟨count, b, h6, rfl, hu⟩ := Reader.uint_cases 4 b
    · simp [hu, dropPool] at h
    simp only [hu, Bool.not_true, Bool.false_eq_true, if_false] at h
    split_ifs at h with hguard
    · cases h
    · simp only [dropPool, Prod.mk.injEq] at h
      obtain ⟨hgood, rfl, rfl⟩ := h
      obtain ⟨es, rest, rfl, hes, hout, hr, rfl⟩ := decodeEntries_only
        (List.length_take_le count old.entries) (Prod.ext hgood rfl)
      rw [List.nil_append] at hout
      rw [hout]
      exact ⟨⟨⟨h1, h2, h3, h4, h5, fun e he => (hes e he).1⟩, h6, fun e he => (hes e he).2⟩, rest, hr,
        by simp [AppendEntries.bytes]⟩

/-! ## 5. Payloads and frames -/

/-- The AppendEntries is decoded into what `out` and the pool give for it. -/
theorem dropPool_appendEntries (r : Reader) (out : Message) (pool : DecodePool) :
    dropPool (decodeIntoAlternative .appendEntries r out pool) =
      let x := dropPool (AppendEntries.decodePayloadInto r (appendEntriesFor out pool).1 (appendEntriesFor out pool).2)
      (x.1, Message.appendEntries x.2.1, x.2.2) := by
  unfold decodeIntoAlternative
  generalize appendEntriesFor out pool = a
  obtain ⟨m, pool⟩ := a
  dsimp only
  generalize AppendEntries.decodePayloadInto r m pool = x
  obtain ⟨good, m', pool', r'⟩ := x
  rfl

/-- **Every payload decoder is exact**, whatever message it decodes into and whatever is in the
    pool. -/
theorem exact_decodeIntoAlternative (t : MessageType) (out : Message) (pool : DecodePool) :
    Exact (fun r => dropPool (decodeIntoAlternative t r out pool)) payloadBytes
      fun m => typeOf m = t ∧ m.Sent := by
  cases t with
  | requestVote =>
      exact exact_requestVote.map (fun _ => rfl) fun m => by cases m <;> simp [typeOf]
  | requestVoteReply =>
      exact (exact_requestVoteReply (requestVoteReplyFor out pool).1).map (fun _ => rfl) fun m => by
        cases m <;> simp [typeOf]
  | appendEntries =>
      simp only [dropPool_appendEntries]
      exact (exact_appendEntries (appendEntriesFor out pool).1 (appendEntriesFor out pool).2).map
        (fun _ => rfl) fun m => by cases m <;> simp [typeOf]
  | appendEntriesReply =>
      exact (exact_appendEntriesReply (appendEntriesReplyFor out pool).1).map (fun _ => rfl) fun m => by
        cases m <;> simp [typeOf]
  | clientRequest =>
      exact (exact_clientRequest (clientRequestFor out pool).1).map (fun _ => rfl) fun m => by
        cases m <;> simp [typeOf]
  | clientReply =>
      exact (exact_clientReply (clientReplyFor out pool).1).map (fun _ => rfl) fun m => by
        cases m <;> simp [typeOf]

theorem type_ofByte {n : ℕ} {t : MessageType} : MessageType.ofByte n = some t ↔ n = t.toByte := by
  constructor
  · intro h
    match n, h with
    | 1, h => cases h; rfl
    | 2, h => cases h; rfl
    | 3, h => cases h; rfl
    | 4, h => cases h; rfl
    | 5, h => cases h; rfl
    | 6, h => cases h; rfl
  · rintro rfl
    cases t <;> rfl

/-- A payload below the cap fits its length fields. -/
theorem sized_of_payloadSize {m : Message} (h : payloadSize m ≤ kMaxPayloadSize) : m.Sized := by
  unfold kMaxPayloadSize at h
  cases m with
  | appendEntries v =>
      simp only [payloadSize, foldl_entrySize] at h
      have hn := le_length_entries v.entries
      unfold kMinEntryWireSize at hn
      refine ⟨by omega, fun e he => ?_⟩
      obtain ⟨A, B, hAB⟩ := List.append_of_mem he
      rw [hAB, List.flatMap_append, List.flatMap_cons] at h
      simp only [List.length_append, length_entryBytes] at h
      omega
  | clientRequest v =>
      simp only [payloadSize] at h
      simp only [Message.Sized]
      omega
  | clientReply v =>
      simp only [payloadSize] at h
      simp only [Message.Sized]
      omega
  | requestVote v => trivial
  | requestVoteReply v => trivial
  | appendEntriesReply v => trivial

theorem payloadSize_lt {m : Message} (h : payloadSize m ≤ kMaxPayloadSize) :
    payloadSize m < 256 ^ 4 :=
  Nat.lt_of_le_of_lt h (by decide)

/-- **A frame that was written decodes to its message**, into whatever message and pool. -/
theorem decodeMessageInto_reads {from_ to_ : NodeId} {m : Message} (hf : from_ < 2 ^ 16)
    (ht : to_ < 2 ^ 16) (hm : m.Typed) (hp : payloadSize m ≤ kMaxPayloadSize) (out : DecodedMessage)
    (pool : DecodePool) : ∃ pool', decodeMessageInto (frameBytes from_ to_ m) out pool =
      (true, ⟨envelopeFor from_ to_ m, m⟩, pool') := by
  have hlen : (frameBytes from_ to_ m).length = kEnvelopeSize + payloadSize m := length_frameBytes _ _ _
  have hshort : ¬ ((frameBytes from_ to_ m).length < kEnvelopeSize ∨
      (frameBytes from_ to_ m).length > kEnvelopeSize + kMaxPayloadSize) := by omega
  have htype : (typeOf m).toByte < 256 ^ 1 := by cases typeOf m <;> decide
  have hversion : kProtocolVersion < 256 ^ 1 := by decide
  have hzero : 0 < 256 ^ 2 := by decide
  have hbody := (exact_decodeIntoAlternative (typeOf m) out.message pool).reads m []
    ⟨rfl, hm, sized_of_payloadSize hp⟩
  rw [List.append_nil] at hbody
  simp only [dropPool, Prod.mk.injEq] at hbody
  obtain ⟨hgood, hmsg, hr⟩ := hbody
  refine ⟨(decodeIntoAlternative (typeOf m) ⟨payloadBytes m, true⟩ out.message pool).2.2.1, ?_⟩
  unfold decodeMessageInto
  rw [if_neg hshort, hlen]
  simp only [frameBytes, envelopeBytes, envelopeFor, List.append_assoc, Reader.u8, Reader.u16,
    Reader.u32, Reader.uint_leBytes_of_lt hversion, Reader.uint_leBytes_of_lt htype,
    Reader.uint_leBytes_of_lt (n := 2) hf, Reader.uint_leBytes_of_lt (n := 2) ht,
    Reader.uint_leBytes_of_lt hzero, Reader.uint_leBytes_of_lt (payloadSize_lt hp),
    type_ofByte.mpr rfl, hgood, hmsg, hr]
  simp [Reader.exhausted]

/-- **A frame that decodes is one that was written.** -/
theorem decodeMessageInto_only {b : Bytes} {out d : DecodedMessage} {pool pool' : DecodePool}
    (h : decodeMessageInto b out pool = (true, d, pool')) : ∃ from_ to_ m, from_ < 2 ^ 16 ∧
      to_ < 2 ^ 16 ∧ m.Typed ∧ payloadSize m ≤ kMaxPayloadSize ∧ b = frameBytes from_ to_ m ∧
      d = ⟨envelopeFor from_ to_ m, m⟩ := by
  unfold decodeMessageInto at h
  by_cases hshort : b.length < kEnvelopeSize ∨ b.length > kEnvelopeSize + kMaxPayloadSize
  · rw [if_pos hshort] at h
    cases h
  rw [if_neg hshort] at h
  generalize hlen : b.length = n at h hshort
  simp only [Reader.u8, Reader.u16, Reader.u32] at h
  obtain hu | ⟨version, b, -, rfl, hu⟩ := Reader.uint_cases 1 b
  · simp [hu] at h
  simp only [hu] at h
  obtain hu | ⟨rawType, b, -, rfl, hu⟩ := Reader.uint_cases 1 b
  · simp [hu] at h
  simp only [hu] at h
  obtain hu | ⟨from_, b, hf, rfl, hu⟩ := Reader.uint_cases 2 b
  · simp [hu] at h
  simp only [hu] at h
  obtain hu | ⟨to_, b, ht, rfl, hu⟩ := Reader.uint_cases 2 b
  · simp [hu] at h
  simp only [hu] at h
  obtain hu | ⟨reserved, b, -, rfl, hu⟩ := Reader.uint_cases 2 b
  · simp [hu] at h
  simp only [hu] at h
  obtain hu | ⟨payloadLength, b, -, rfl, hu⟩ := Reader.uint_cases 4 b
  · simp [hu] at h
  simp only [hu, Bool.not_true, Bool.false_or, Bool.or_eq_true, bne_iff_ne, ne_eq] at h
  by_cases hhead : ¬ version = kProtocolVersion ∨ ¬ reserved = 0
  · rw [if_pos hhead] at h
    cases h
  rw [if_neg hhead] at h
  rw [not_or, Decidable.not_not, Decidable.not_not] at hhead
  obtain ⟨rfl, rfl⟩ := hhead
  cases htype : MessageType.ofByte rawType with
  | none => simp [htype] at h
  | some type =>
      simp only [htype] at h
      obtain rfl := type_ofByte.mp htype
      by_cases hpl : ¬ payloadLength = n - kEnvelopeSize
      · rw [if_pos hpl] at h
        cases h
      rw [if_neg hpl] at h
      rw [Decidable.not_not] at hpl
      obtain ⟨⟨good, m, _, r⟩, hd⟩ : ∃ x, decodeIntoAlternative type ⟨b, true⟩ out.message pool = x :=
        ⟨_, rfl⟩
      simp only [hd, Prod.mk.injEq, Bool.and_eq_true] at h
      obtain ⟨⟨rfl, hex⟩, rfl, -⟩ := h
      obtain ⟨⟨rfl, hm, -⟩, rest, rfl, rfl⟩ :=
        (exact_decodeIntoAlternative type out.message pool).only b m r (by rw [hd]; rfl)
      -- nothing follows the payload, so the length in the envelope is its size
      have hrest : rest = [] := by simpa [Reader.exhausted] using hex
      have hn : n = kEnvelopeSize + payloadSize m := by
        rw [← hlen, hrest]
        simp [length_payloadBytes, kEnvelopeSize]
        omega
      have hsize : payloadLength = payloadSize m := by omega
      refine ⟨from_, to_, m, hf, ht, hm, by omega, ?_, ?_⟩
      · simp [frameBytes, envelopeBytes, envelopeFor, hrest, hsize]
      · simp [envelopeFor, hsize]

theorem decodeMessage_eq_some {b : Bytes} {d : DecodedMessage} : decodeMessage b = some d ↔
    ∃ from_ to_ m, from_ < 2 ^ 16 ∧ to_ < 2 ^ 16 ∧ m.Typed ∧ payloadSize m ≤ kMaxPayloadSize ∧
      b = frameBytes from_ to_ m ∧ d = ⟨envelopeFor from_ to_ m, m⟩ := by
  constructor
  · intro h
    unfold decodeMessage at h
    split at h
    · cases h
    · rename_i hd
      cases h
      exact decodeMessageInto_only hd
  · rintro ⟨from_, to_, m, hf, ht, hm, hp, rfl, rfl⟩
    obtain ⟨pool, hd⟩ := decodeMessageInto_reads hf ht hm hp {} {}
    rw [decodeMessage, hd]

/-! ## 6. The bijection -/

/-- **The wire codec is a bijection.** A message within the cap is written as exactly its encoded
    size, and comes back with its envelope; a frame that decodes is what its message and its
    envelope encode to; so the frames that decode are those that can be written. -/
theorem wire_codec_bijection :
    (∀ (from_ to_ : NodeId) (m : Message) (size : ℕ), from_ < 2 ^ 16 → to_ < 2 ^ 16 → m.Typed →
      payloadSize m ≤ kMaxPayloadSize → encodedSize m ≤ size →
      ∃ b, encodeMessage from_ to_ m size = (encodedSize m, b) ∧ b.length = encodedSize m ∧
        decodeMessage b = some ⟨⟨1, typeOf m, from_, to_, payloadSize m⟩, m⟩) ∧
    (∀ (b : Bytes) (d : DecodedMessage) (size : ℕ), decodeMessage b = some d → b.length ≤ size →
      encodeMessage d.envelope.from_ d.envelope.to_ d.message size = (b.length, b)) ∧
    (∀ b : Bytes, (decodeMessage b).isSome ↔ ∃ (from_ to_ : NodeId) (m : Message) (size : ℕ),
      from_ < 2 ^ 16 ∧ to_ < 2 ^ 16 ∧ m.Typed ∧ b ≠ [] ∧
        encodeMessage from_ to_ m size = (b.length, b)) := by
  refine ⟨fun from_ to_ m size hf ht hm hp hs => ?_, fun b d size hd hs => ?_, fun b => ?_⟩
  · exact ⟨frameBytes from_ to_ m, encodeMessage_eq from_ to_ hp hs, length_frameBytes from_ to_ m,
      decodeMessage_eq_some.mpr ⟨from_, to_, m, hf, ht, hm, hp, rfl, rfl⟩⟩
  · obtain ⟨from_, to_, m, -, -, -, hp, rfl, rfl⟩ := decodeMessage_eq_some.mp hd
    rw [length_frameBytes] at hs ⊢
    exact encodeMessage_eq from_ to_ hp hs
  · constructor
    · intro h
      obtain ⟨d, hd⟩ := Option.isSome_iff_exists.mp h
      obtain ⟨from_, to_, m, hf, ht, hm, hp, rfl, -⟩ := decodeMessage_eq_some.mp hd
      refine ⟨from_, to_, m, encodedSize m, hf, ht, hm, ?_, ?_⟩
      · refine List.ne_nil_of_length_pos ?_
        rw [length_frameBytes, encodedSize, kEnvelopeSize]
        omega
      · rw [encodeMessage_eq from_ to_ hp (Nat.le_refl _), length_frameBytes]
    · rintro ⟨from_, to_, m, size, hf, ht, hm, hne, he⟩
      -- nothing is written where the message is refused
      by_cases hno : payloadSize m > kMaxPayloadSize ∨ size < kEnvelopeSize + payloadSize m
      · rw [show encodeMessage from_ to_ m size = (0, []) from if_pos hno] at he
        exact absurd (Prod.mk.inj he).2.symm hne
      · rw [not_or, Nat.not_lt, Nat.not_lt] at hno
        rw [encodeMessage_eq from_ to_ hno.1 hno.2] at he
        obtain ⟨-, rfl⟩ := Prod.mk.inj he
        exact Option.isSome_iff_exists.mpr ⟨_, decodeMessage_eq_some.mpr
          ⟨from_, to_, m, hf, ht, hm, hno.1, rfl, rfl⟩⟩

/-- An AppendEntries of two entries, from node 1 to node 2. -/
def twoEntries : Message := .appendEntries ⟨3, 1, 4, 2, 4, [⟨2, [7, 8]⟩, ⟨3, []⟩]⟩

theorem wire_codec_bijection_two : payloadSize twoEntries = 64 ∧ twoEntries.Typed ∧
    ∃ b, encodeMessage 1 2 twoEntries 100 = (76, b) ∧ b.length = 76 ∧
      decodeMessage b = some ⟨⟨1, .appendEntries, 1, 2, 64⟩, twoEntries⟩ := by
  have htyped : twoEntries.Typed := by simp [twoEntries, Message.Typed]
  exact ⟨rfl, htyped,
    wire_codec_bijection.1 1 2 twoEntries 100 (by decide) (by decide) htyped (by decide) (by decide)⟩

end Rsm.Rpc
