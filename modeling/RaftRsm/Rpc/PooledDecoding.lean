/-
  File:      RaftRsm/Rpc/PooledDecoding.lean
  Subject:   DECODING INTO A REUSED MESSAGE (`decodeMessageInto`): the same frames are accepted, with
             the same result, whatever the message and the pool held before; and a frame makes the
             message no longer than its own size can back, as long as the entry lists of the pool
             are empty.

  * `length_decodeEntries` -- the loop over the entries never shrinks the vector and never takes it
    beyond the declared count;
  * `Cleared` -- the entry lists of a pool are empty, as every list is that the code puts there;
  * `pooled_decoding` -- both facts for whole frames;
  * `refused_frame_hands_over` -- the second one fails for a pool with a list that is not empty.
-/
import RaftRsm.Rpc.CodecLaws

namespace Rsm.Rpc

theorem Reader.length_rest_uint_le (n : ℕ) (r : Reader) :
    (r.uint n).2.rest.length ≤ r.rest.length := by
  obtain ⟨rest, ok⟩ := r
  cases ok with
  | false => exact Nat.le_refl _
  | true =>
      rcases Reader.uint_cases n rest with h | ⟨v, b, -, rfl, h⟩
      · simp [h]
      · simp [h]

/-- Both headers are six numbers. -/
theorem length_rest_six (r : Reader) (a b c d e f : ℕ) :
    ((((((r.uint a).2.uint b).2.uint c).2.uint d).2.uint e).2.uint f).2.rest.length ≤
      r.rest.length :=
  Nat.le_trans (Reader.length_rest_uint_le f _) <| Nat.le_trans (Reader.length_rest_uint_le e _) <|
  Nat.le_trans (Reader.length_rest_uint_le d _) <| Nat.le_trans (Reader.length_rest_uint_le c _) <|
  Nat.le_trans (Reader.length_rest_uint_le b _) (Reader.length_rest_uint_le a _)

/-! ## 1. How long the entries get -/

/-- **The loop never shrinks the vector, and never takes it beyond the count.** -/
theorem length_decodeEntries (k : ℕ) : ∀ (r : Reader) (done rest : List LogEntry) (pool : DecodePool),
    rest.length ≤ k →
    done.length + rest.length ≤ (decodeEntries k r done rest pool).2.1.length ∧
      (decodeEntries k r done rest pool).2.1.length ≤ done.length + k := by
  induction k with
  | zero =>
      intro r done rest pool h
      simp only [decodeEntries, List.length_append]
      omega
  | succ k ih =>
      intro r done rest pool h
      have hslot := length_nextSlot h pool
      have hgrow : rest.length ≤ (nextSlot rest pool).2.1.length + 1 := by
        cases rest with
        | nil => exact Nat.zero_le _
        | cons e rest => exact Nat.le_refl _
      obtain ⟨⟨e, rest', pool'⟩, hs⟩ : ∃ x, nextSlot rest pool = x := ⟨_, rfl⟩
      obtain ⟨⟨good, e', r'⟩, hd⟩ : ∃ x, decodeEntry r e = x := ⟨_, rfl⟩
      simp only [decodeEntries, hs, hd] at hslot hgrow ⊢
      split_ifs with hgood
      · simp only [List.length_append, List.length_cons]
        omega
      · have hih := ih r' (done ++ [e']) rest' pool' hslot
        rw [List.length_append, List.length_singleton] at hih
        omega

theorem entryLists_nextSlot (rest : List LogEntry) (pool : DecodePool) :
    (nextSlot rest pool).2.2.entryLists = pool.entryLists := by
  unfold nextSlot DecodePool.getBuf
  cases rest with
  | nil => cases h : pool.bufs <;> rfl
  | cons e rest => rfl

theorem entryLists_decodeEntries (k : ℕ) : ∀ (r : Reader) (done rest : List LogEntry)
    (pool : DecodePool), (decodeEntries k r done rest pool).2.2.1.entryLists = pool.entryLists := by
  induction k with
  | zero => exact fun _ _ _ _ => rfl
  | succ k ih =>
      intro r done rest pool
      simp only [decodeEntries]
      split_ifs
      · exact entryLists_nextSlot rest pool
      · rw [ih]
        exact entryLists_nextSlot rest pool

/-- What a decoder that starts with the entries `old` and the pool `pool` leaves behind: the entries
    as they were, or no more than `n` bytes can back. -/
structure Bounded (old : List LogEntry) (pool : DecodePool) (n : ℕ) (es : List LogEntry)
    (pool' : DecodePool) : Prop where
  entries : es = old ∨ es.length ≤ n / kMinEntryWireSize
  lists : pool'.entryLists = pool.entryLists

theorem bounded_decodePayloadInto (r : Reader) (m : AppendEntries) (pool : DecodePool) :
    Bounded m.entries pool r.rest.length (AppendEntries.decodePayloadInto r m pool).2.1.entries
      (AppendEntries.decodePayloadInto r m pool).2.2.1 := by
  simp only [AppendEntries.decodePayloadInto]
  split_ifs with hok hcount
  · exact ⟨.inl rfl, rfl⟩
  · exact ⟨.inl rfl, rfl⟩
  · rw [Nat.not_lt] at hcount
    refine ⟨.inr ?_, entryLists_decodeEntries _ _ _ _ _⟩
    have hlen := (length_decodeEntries _ r.u64.2.u16.2.u64.2.u64.2.u64.2.u32.2 [] _
      (pool.putCommands (m.entries.drop r.u64.2.u16.2.u64.2.u64.2.u64.2.u32.1))
      (List.length_take_le r.u64.2.u16.2.u64.2.u64.2.u64.2.u32.1 m.entries)).2
    rw [List.length_nil, Nat.zero_add] at hlen
    exact Nat.le_trans hlen (Nat.le_trans hcount (Nat.div_le_div_right (length_rest_six r 8 2 8 8 8 4)))

/-! ## 2. Whole messages -/

/-- The entry lists of the pool are empty: they are kept for their capacity only. -/
def DecodePool.Cleared (pool : DecodePool) : Prop := ∀ l ∈ pool.entryLists, l = []

/-- The entries of a message. -/
def Message.entries : Message → List LogEntry
  | .appendEntries m => m.entries
  | _ => []

theorem cleared_salvage {pool : DecodePool} (h : pool.Cleared) (m : Message) :
    (salvage m pool).Cleared := by
  cases m with
  | appendEntries ae =>
      intro l hl
      rcases List.mem_cons.mp hl with rfl | hl
      · rfl
      · exact h l hl
  | _ => exact h

theorem cleared_getBuf {pool : DecodePool} (h : pool.Cleared) : pool.getBuf.2.Cleared := by
  unfold DecodePool.getBuf
  split
  · exact h
  · exact h

/-- The AppendEntries that a frame is decoded over starts with the entries of the message, or with a
    list of the pool. -/
theorem entries_appendEntriesFor {pool : DecodePool} (h : pool.Cleared) (m : Message) :
    (appendEntriesFor m pool).1.entries = m.entries ∧ (appendEntriesFor m pool).2.Cleared := by
  cases m with
  | appendEntries ae => exact ⟨rfl, h⟩
  | _ =>
      -- any other message is salvaged, and a list is taken from the pool if it has one
      have hp := cleared_salvage h
      dsimp only [appendEntriesFor]
      split
      · exact ⟨rfl, hp _⟩
      · rename_i l ls hl
        exact ⟨hp _ l (by rw [hl]; exact List.mem_cons_self),
          fun l' hl' => hp _ l' (by rw [hl]; exact List.mem_cons_of_mem l hl')⟩

/-- What one decoding does to the entries of the message and to the lists of the pool. -/
structure Grows (out : Message) (pool : DecodePool) (n : ℕ) (m : Message) (pool' : DecodePool) :
    Prop where
  entries : ∀ ae, m = .appendEntries ae →
    ae.entries = (appendEntriesFor out pool).1.entries ∨ ae.entries.length ≤ n / kMinEntryWireSize
  cleared : pool.Cleared → pool'.Cleared

/-- A decoder of a message without entries. -/
theorem grows_other {out m : Message} {pool pool' : DecodePool} {n : ℕ}
    (hm : typeOf m ≠ .appendEntries) (hp : pool.Cleared → pool'.Cleared) :
    Grows out pool n m pool' :=
  ⟨fun ae he => absurd (by rw [he]; rfl) hm, hp⟩

theorem grows_decodeIntoAlternative (t : MessageType) (r : Reader) (out : Message)
    (pool : DecodePool) :
    Grows out pool r.rest.length (decodeIntoAlternative t r out pool).2.1
      (decodeIntoAlternative t r out pool).2.2.1 := by
  cases t with
  | appendEntries =>
      have hb := bounded_decodePayloadInto r (appendEntriesFor out pool).1 (appendEntriesFor out pool).2
      obtain ⟨x, hx⟩ : ∃ x, x = AppendEntries.decodePayloadInto r (appendEntriesFor out pool).1
        (appendEntriesFor out pool).2 := ⟨_, rfl⟩
      have halt : decodeIntoAlternative .appendEntries r out pool = (x.1, .appendEntries x.2.1, x.2.2.1, x.2.2.2) := by
        rw [hx]
        rfl
      rw [← hx] at hb
      rw [halt]
      refine ⟨fun ae he => ?_, fun hp l hl => ?_⟩
      · rw [← Message.appendEntries.inj he]
        exact hb.entries
      · refine (entries_appendEntriesFor hp out).2 l ?_
        rw [← hb.lists]
        exact hl
  | requestVote =>
      refine grows_other (by simp [decodeIntoAlternative, typeOf]) fun hp => ?_
      cases out with
      | requestVote rv => exact hp
      | _ => exact cleared_salvage hp _
  | requestVoteReply =>
      refine grows_other (by simp [decodeIntoAlternative, typeOf]) fun hp => ?_
      cases out with
      | requestVoteReply m => exact hp
      | _ => exact cleared_salvage hp _
  | appendEntriesReply =>
      refine grows_other (by simp [decodeIntoAlternative, typeOf]) fun hp => ?_
      cases out with
      | appendEntriesReply m => exact hp
      | _ => exact cleared_salvage hp _
  | clientRequest =>
      refine grows_other (by simp [decodeIntoAlternative, typeOf]) fun hp => ?_
      have hbuf := cleared_getBuf (cleared_salvage hp out)
      cases out with
      | clientRequest m => exact hp
      | _ => exact hbuf
  | clientReply =>
      refine grows_other (by simp [decodeIntoAlternative, typeOf]) fun hp => ?_
      have hbuf := cleared_getBuf (cleared_salvage hp out)
      cases out with
      | clientReply m => exact hp
      | _ => exact hbuf

theorem Grows.mono {out m : Message} {pool pool' : DecodePool} {n n' : ℕ}
    (h : Grows out pool n m pool') (hn : n ≤ n') : Grows out pool n' m pool' := by
  refine ⟨fun ae he => ?_, h.cleared⟩
  rcases h.entries ae he with hs | hs
  · exact .inl hs
  · exact .inr (Nat.le_trans hs (Nat.div_le_div_right hn))

/-- A frame that is refused for its envelope leaves message and pool alone. -/
theorem grows_refl (m : Message) (pool : DecodePool) (n : ℕ) : Grows m pool n m pool := by
  refine ⟨?_, id⟩
  rintro ae rfl
  exact .inl rfl

theorem grows_decodeMessageInto (frame : Bytes) (out : DecodedMessage) (pool : DecodePool) :
    Grows out.message pool frame.length (decodeMessageInto frame out pool).2.1.message
      (decodeMessageInto frame out pool).2.2 := by
  unfold decodeMessageInto
  split_ifs with hshort
  · exact grows_refl _ _ _
  dsimp only
  split_ifs with hhead hlen
  · exact grows_refl _ _ _
  · split
    · exact grows_refl _ _ _
    · exact grows_refl _ _ _
  · split
    · exact grows_refl _ _ _
    · rename_i t ht
      exact (grows_decodeIntoAlternative t _ out.message pool).mono
        (length_rest_six ⟨frame, true⟩ 1 1 2 2 2 4)

/-! ## 3. Pooled and fresh decoding -/

/-- **Pooled decoding equals fresh decoding.** A frame decodes into a message that is there already
    if and only if it decodes afresh, with the same result. Whether it does or not, the message ends
    with the entries it began with, or with no more than the frame can back at twelve bytes each;
    so with a pool whose lists are empty (and they stay so) it never gets longer than that. -/
theorem pooled_decoding (frame : Bytes) (out : DecodedMessage) (pool : DecodePool) :
    ((decodeMessageInto frame out pool).1 = true ↔ (decodeMessage frame).isSome) ∧
    (∀ d, decodeMessage frame = some d → (decodeMessageInto frame out pool).2.1 = d) ∧
    (∀ ae, (decodeMessageInto frame out pool).2.1.message = .appendEntries ae →
      ae.entries = (appendEntriesFor out.message pool).1.entries ∨
        ae.entries.length ≤ frame.length / 12) ∧
    (pool.Cleared → (decodeMessageInto frame out pool).2.2.Cleared ∧
      (decodeMessageInto frame out pool).2.1.message.entries.length ≤
        max out.message.entries.length (frame.length / 12)) := by
  have hgrows := grows_decodeMessageInto frame out pool
  have hsame : ∀ d, decodeMessage frame = some d →
      ∃ pool', decodeMessageInto frame out pool = (true, d, pool') := by
    intro d hd
    obtain ⟨from_, to_, m, hf, ht, hm, hp, rfl, rfl⟩ := decodeMessage_eq_some.mp hd
    exact decodeMessageInto_reads hf ht hm hp out pool
  refine ⟨⟨fun h => ?_, fun h => ?_⟩, fun d hd => ?_, hgrows.entries, fun hp => ⟨hgrows.cleared hp, ?_⟩⟩
  · obtain ⟨⟨good, d, pool'⟩, hd⟩ : ∃ x, decodeMessageInto frame out pool = x := ⟨_, rfl⟩
    rw [hd] at h
    obtain rfl : good = true := h
    rw [decodeMessage_eq_some.mpr (decodeMessageInto_only hd)]
    rfl
  · obtain ⟨d, hd⟩ := Option.isSome_iff_exists.mp h
    obtain ⟨pool', hi⟩ := hsame d hd
    rw [hi]
  · obtain ⟨pool', hi⟩ := hsame d hd
    rw [hi]
  · cases hm : (decodeMessageInto frame out pool).2.1.message with
    | appendEntries ae =>
        rcases hgrows.entries ae hm with he | he
        · rw [(entries_appendEntriesFor hp out.message).1] at he
          exact Nat.le_trans (Nat.le_of_eq (congrArg List.length he)) (Nat.le_max_left _ _)
        · exact Nat.le_trans he (Nat.le_max_right _ _)
    | _ => exact Nat.zero_le _

/-- The envelope of an AppendEntries, and nothing behind it. -/
def bareAppendEntries : Bytes := [1, 3, 1, 0, 2, 0, 0, 0, 0, 0, 0, 0]

/-- **A list of the pool that is not empty** comes with its entries: a frame of twelve bytes, which is
    refused, takes a message without entries to ten of them. -/
theorem refused_frame_hands_over :
    let pool : DecodePool := { entryLists := [List.replicate 10 ⟨1, [7]⟩] }
    let x := decodeMessageInto bareAppendEntries {} pool
    x.1 = false ∧ decodeMessage bareAppendEntries = none ∧
    Message.entries ({} : DecodedMessage).message = [] ∧ x.2.1.message.entries.length = 10 ∧
    bareAppendEntries.length / 12 = 1 := by decide +kernel

end Rsm.Rpc
