/-
  File:      RaftRsm/StateMachine/Grammar.lean
  Subject:   WHICH BYTES ARE COMMANDS, for both state machines.

  A reader gives a number or a string exactly where the bytes begin with what a writer writes for it,
  so what a machine parses is what the builders of commands build. The key-value store parses a command
  before it looks at its sessions. The order book looks at its sessions first.

  * `parse_encode`, `encode_of_parse` -- commands of the key-value store are exactly their encodings;
  * `kv_grammar` -- in every state that can be reached, "E" is the answer to what is no encoding, and
    to nothing else;
  * `parseOb_iff` -- commands of the order book are exactly their encodings;
  * `malformed_order_iff` -- when a malformed order command is answered as such: unless its first 17
    bytes are those of a duplicate;
  * `malformed_duplicate_answered` -- a malformed command with a second answer of "O".
-/
import RaftRsm.StateMachine.Restoring
import RaftRsm.StateMachine.ExactlyOnce

namespace Rsm.StateMachine

open Rsm.Rpc Linear

/-! ## 1. Identities and strings -/

theorem u64_cases (b : Bytes) : Reader.u64 ⟨b, true⟩ = (0, ⟨b, false⟩) ∨
    ∃ v rest, v < 2 ^ 64 ∧ b = putU64 v ++ rest := by
  rcases Reader.uint_cases 8 b with h | ⟨v, rest, hv, hb, -⟩
  · exact .inl h
  · exact .inr ⟨v, rest, hv, hb⟩

theorem u8_leBytes {v : ℕ} (h : v < 256) (rest : Bytes) :
    Reader.u8 ⟨leBytes 1 v ++ rest, true⟩ = (v, ⟨rest, true⟩) := Reader.uint_leBytes_of_lt h rest

/-- Bytes that are too short for a command, or the two numbers and the byte of its operation. -/
theorem identity_cases (b : Bytes) : (Reader.u64 ⟨b, true⟩).2.u64.2.u8.2.ok = false ∨
    ∃ c n op rest, c < 2 ^ 64 ∧ n < 2 ^ 64 ∧ op < 256 ∧ b = putU64 c ++ (putU64 n ++ (leBytes 1 op ++ rest)) := by
  rcases u64_cases b with h1 | ⟨c, b1, hc, rfl⟩
  · rw [h1]
    exact .inl rfl
  rcases u64_cases b1 with h2 | ⟨n, b2, hn, rfl⟩
  · rw [u64_putU64 hc, h2]
    exact .inl rfl
  rcases Reader.uint_cases 1 b2 with h3 | ⟨op, rest, hop, rfl, -⟩
  · rw [u64_putU64 hc, u64_putU64 hn, Reader.u8, h3]
    exact .inl rfl
  · exact .inr ⟨c, n, op, rest, hc, hn, hop, rfl⟩

/-- The reader fails, or the string it has read is what would be written. -/
theorem readString_cases (b : Bytes) : (∃ r, readString ⟨b, true⟩ = (none, r)) ∨
    ∃ s rest, s.length < 2 ^ 32 ∧ b = putString s ++ rest := by
  rcases Reader.uint_cases 4 b with h | ⟨len, rest, hlen, rfl, h⟩
  · refine .inl ⟨⟨b, false⟩, ?_⟩
    unfold readString Reader.u32
    rw [h]
    rfl
  · by_cases hle : len ≤ rest.length
    · have htake : (rest.take len).length = len := List.length_take_of_le hle
      refine .inr ⟨rest.take len, rest.drop len, ?_, ?_⟩
      · rw [htake]
        exact hlen
      · unfold putString
        rw [htake, List.append_assoc, List.take_append_drop]
    · refine .inl ⟨⟨rest, true⟩, ?_⟩
      have hshort : (!(Reader.mk rest true).ok || decide (len > (Reader.mk rest true).remaining)) = true :=
        decide_eq_true (Nat.lt_of_not_le hle)
      unfold readString Reader.u32
      rw [h]
      exact if_pos hshort

theorem readStringIf_putString {c : Bool} {s : Bytes} (h : s.length < 2 ^ 32) (rest : Bytes) :
    readStringIf c ⟨(if c then putString s else []) ++ rest, true⟩ =
      (some (if c then s else []), ⟨rest, true⟩) := by
  unfold readStringIf
  cases c with
  | true => rw [if_pos rfl, if_pos rfl, if_pos rfl, readString_putString h]
  | false => rfl

theorem readStringIf_cases (c : Bool) (b : Bytes) : (∃ r, readStringIf c ⟨b, true⟩ = (none, r)) ∨
    ∃ s rest, s.length < 2 ^ 32 ∧ b = (if c then putString s else []) ++ rest := by
  cases c with
  | true => exact readString_cases b
  | false => exact .inr ⟨[], b, by decide, rfl⟩

/-! ## 2. Commands of the key-value store -/

theorem KvOp.ofByte_toByte (op : KvOp) : KvOp.ofByte op.toByte = some op := by cases op <;> rfl

theorem KvOp.toByte_lt (op : KvOp) : op.toByte < 256 := by cases op <;> decide

theorem KvOp.toByte_of_ofByte {v : ℕ} {op : KvOp} (h : KvOp.ofByte v = some op) : op.toByte = v := by
  unfold KvOp.ofByte at h
  split at h <;> cases h <;> rfl

/-- **An encoded command is parsed as what was encoded.** -/
theorem parse_encode {clientId seqNo : ℕ} {op : KvOp} {key arg arg2 : Bytes} (hc : clientId < 2 ^ 64)
    (hs : seqNo < 2 ^ 64) (hk : key.length < 2 ^ 32) (ha : arg.length < 2 ^ 32) (ha2 : arg2.length < 2 ^ 32) :
    parse (encodeKvCommand clientId seqNo op key arg arg2) =
      some ⟨clientId, seqNo, op, key, if opNeedsArg op then arg else [], if op = .cas then arg2 else []⟩ := by
  have hlast := readStringIf_putString (c := op = .cas) ha2 []
  simp only [decide_eq_true_eq, List.append_nil] at hlast
  unfold parse encodeKvCommand
  simp only [List.append_assoc]
  rw [u64_putU64 hc]
  dsimp only
  rw [u64_putU64 hs]
  dsimp only
  rw [u8_leBytes op.toByte_lt]
  dsimp only
  rw [KvOp.ofByte_toByte, readString_putString hk]
  dsimp only
  rw [readStringIf_putString ha]
  dsimp only
  rw [hlast]
  rfl

/-- **What is parsed is an encoded command.** -/
theorem encode_of_parse {b : Bytes} {q : KvCommand} (h : parse b = some q) :
    ∃ clientId seqNo op key arg arg2, clientId < 2 ^ 64 ∧ seqNo < 2 ^ 64 ∧ key.length < 2 ^ 32 ∧
      arg.length < 2 ^ 32 ∧ arg2.length < 2 ^ 32 ∧ b = encodeKvCommand clientId seqNo op key arg arg2 := by
  unfold parse at h
  dsimp only at h
  rcases identity_cases b with hfail | ⟨clientId, seqNo, opByte, b1, hc, hs, hlt, rfl⟩
  · rw [hfail] at h
    cases h
  simp only [u64_putU64 hc, u64_putU64 hs, u8_leBytes hlt] at h
  rw [if_neg (by decide)] at h
  cases hop : KvOp.ofByte opByte with
  | none =>
      rw [hop] at h
      cases h
  | some op =>
      rw [hop] at h
      dsimp only at h
      rcases readString_cases b1 with ⟨r, hfail⟩ | ⟨key, b2, hk, rfl⟩
      · rw [hfail] at h
        cases h
      rw [readString_putString hk] at h
      dsimp only at h
      rcases readStringIf_cases (opNeedsArg op) b2 with ⟨r, hfail⟩ | ⟨arg, b3, ha, rfl⟩
      · rw [hfail] at h
        cases h
      rw [readStringIf_putString ha] at h
      dsimp only at h
      rcases readStringIf_cases (op = .cas) b3 with ⟨r, hfail⟩ | ⟨arg2, b4, ha2, rfl⟩
      · rw [hfail] at h
        cases h
      rw [readStringIf_putString ha2] at h
      dsimp only at h
      cases b4 with
      | cons x b4 => cases h
      | nil =>
          refine ⟨clientId, seqNo, op, key, arg, arg2, hc, hs, hk, ha, ha2, ?_⟩
          unfold encodeKvCommand
          simp only [KvOp.toByte_of_ofByte hop, List.append_assoc, List.append_nil, decide_eq_true_eq]

/-- No result of an executed command is that of a malformed one. -/
theorem applyOp_ne_malformed (kv : KvMap) (op : KvOp) (key arg arg2 : Bytes) :
    (applyOp kv op key arg arg2).2 ≠ [kKvMalformed] := by
  have hne : ∀ {x : UInt8} (value : Bytes), x ≠ kKvMalformed → x :: value ≠ [kKvMalformed] :=
    fun value hx h => hx (List.cons.inj h).1
  have hok : kKvOk ≠ kKvMalformed := by decide
  have hnot : kKvNotFound ≠ kKvMalformed := by decide
  have hcas : kKvCasFailed ≠ kKvMalformed := by decide
  unfold applyOp
  cases op with
  | put => exact hne [] hok
  | get =>
      dsimp only
      cases kv[key]? with
      | none => exact hne [] hnot
      | some value => exact hne value hok
  | delete =>
      dsimp only
      split_ifs
      · exact hne [] hok
      · exact hne [] hnot
  | cas =>
      dsimp only
      split_ifs
      · exact hne [] hcas
      · exact hne [] hok
  | append => exact hne _ hok

/-- **The grammar of the key-value store.** In every state that commands can reach, a byte string is
    answered "E" and changes nothing exactly if it is not the encoding of a command. What is parsed
    off an encoding is what was encoded, so different commands are never parsed alike. -/
theorem kv_grammar (L : List Bytes) (b : Bytes) :
    ((KVStateMachine.after L).apply b = (KVStateMachine.after L, [kKvMalformed]) ↔
      ¬ ∃ clientId seqNo op key arg arg2, clientId < 2 ^ 64 ∧ seqNo < 2 ^ 64 ∧ key.length < 2 ^ 32 ∧
        arg.length < 2 ^ 32 ∧ arg2.length < 2 ^ 32 ∧ b = encodeKvCommand clientId seqNo op key arg arg2) ∧
    (∀ clientId seqNo op key arg arg2, clientId < 2 ^ 64 → seqNo < 2 ^ 64 → key.length < 2 ^ 32 →
      arg.length < 2 ^ 32 → arg2.length < 2 ^ 32 → b = encodeKvCommand clientId seqNo op key arg arg2 →
        parse b = some ⟨clientId, seqNo, op, key, if opNeedsArg op then arg else [],
          if op = .cas then arg2 else []⟩) ∧
    ∀ b' q, parse b = some q → parse b' = some q → b = b' := by
  refine ⟨⟨fun hE => ?_, fun hno => ?_⟩, ?_, fun b' q hb hb' => ?_⟩
  · rintro ⟨clientId, seqNo, op, key, arg, arg2, hc, hs, hk, ha, ha2, rfl⟩
    have hp := @parse_encode _ _ op _ _ _ hc hs hk ha ha2
    have hans := congrArg Prod.snd hE
    -- a new command has a result of its own, a duplicate that of a command executed before
    cases hcached : (KVStateMachine.after L).cachedResult _ with
    | none =>
        rw [KVStateMachine.apply_new hp hcached] at hans
        unfold exec at hans
        rw [hp] at hans
        exact applyOp_ne_malformed _ _ _ _ _ hans
    | some r =>
        rw [KVStateMachine.apply_duplicate hp hcached] at hans
        obtain ⟨s, hses, -, hr⟩ := KVStateMachine.cachedResult_eq_some hcached
        obtain ⟨M, cmd, q, -, hq, -, -, hnew, hres⟩ := KVStateMachine.exists_execution hses
        rw [KVStateMachine.apply_new hq hnew] at hres
        unfold exec at hres
        rw [hq] at hres
        refine applyOp_ne_malformed _ _ _ _ _ (hres.trans ?_)
        rw [hr]
        exact hans
  · cases hp : parse b with
    | none => exact KVStateMachine.apply_malformed hp
    | some q => exact absurd (encode_of_parse hp) hno
  · rintro clientId seqNo op key arg arg2 hc hs hk ha ha2 rfl
    exact parse_encode hc hs hk ha ha2
  · obtain ⟨c, n, op, key, arg, arg2, hc, hn, hk, ha, ha2, rfl⟩ := encode_of_parse hb
    obtain ⟨c', n', op', key', arg', arg2', hc', hn', hk', ha', ha2', rfl⟩ := encode_of_parse hb'
    rw [parse_encode hc hn hk ha ha2] at hb
    rw [parse_encode hc' hn' hk' ha' ha2', ← hb] at hb'
    obtain ⟨rfl, rfl, rfl, rfl, harg, harg2⟩ := KvCommand.mk.inj (Option.some.inj hb')
    -- what is not parsed is not encoded either
    unfold encodeKvCommand
    congr 1
    · congr 1
      cases h : opNeedsArg op' with
      | false => rfl
      | true =>
          rw [h] at harg
          exact congrArg putString harg.symm
    · by_cases hcas : op' = .cas
      · rw [if_pos hcas, if_pos hcas] at harg2
        rw [harg2]
      · rw [if_neg hcas, if_neg hcas]

/-! ## 3. Commands of the order book -/

def ObPayload.op : ObPayload → ObOp
  | .new _ _ _ => .new
  | .cancel _ => .cancel
  | .amend _ _ _ => .amend

/-- The command that the builders make. -/
def encodeOb (clientId seqNo : ℕ) : ObPayload → Bytes
  | .new side price qty => encodeObNew clientId seqNo side price qty
  | .cancel orderId => encodeObCancel clientId seqNo orderId
  | .amend orderId newPrice newQty => encodeObAmend clientId seqNo orderId newPrice newQty

/-- Numbers of 64 bits, and prices and quantities of at least 1. -/
def ObPayload.WellFormed : ObPayload → Prop
  | .new _ price qty => 1 ≤ price ∧ price < 2 ^ 64 ∧ 1 ≤ qty ∧ qty < 2 ^ 64
  | .cancel orderId => orderId < 2 ^ 64
  | .amend orderId newPrice newQty => orderId < 2 ^ 64 ∧ 1 ≤ newPrice ∧ newPrice < 2 ^ 64 ∧
      1 ≤ newQty ∧ newQty < 2 ^ 64

def ObPayload.bytes : ObPayload → Bytes
  | .new side price qty => leBytes 1 side.toByte ++ (putU64 price ++ putU64 qty)
  | .cancel orderId => putU64 orderId
  | .amend orderId newPrice newQty => putU64 orderId ++ (putU64 newPrice ++ putU64 newQty)

theorem encodeOb_eq (c n : ℕ) (p : ObPayload) :
    encodeOb c n p = putU64 c ++ (putU64 n ++ (leBytes 1 p.op.toByte ++ p.bytes)) := by
  cases p <;> simp only [encodeOb, encodeObNew, encodeObCancel, encodeObAmend, identityPrefix, ObPayload.op,
    ObPayload.bytes, List.append_assoc]

theorem ObOp.ofByte_toByte (op : ObOp) : ObOp.ofByte op.toByte = some op := by cases op <;> rfl

theorem ObOp.toByte_lt (op : ObOp) : op.toByte < 256 := by cases op <;> decide

theorem ObOp.toByte_of_ofByte {v : ℕ} {op : ObOp} (h : ObOp.ofByte v = some op) : op.toByte = v := by
  unfold ObOp.ofByte at h
  split at h <;> cases h <;> rfl

theorem ObSide.ofByte_toByte (side : ObSide) : ObSide.ofByte side.toByte = some side := by cases side <;> rfl

theorem ObSide.toByte_lt (side : ObSide) : side.toByte < 256 := by cases side <;> decide

theorem ObSide.toByte_of_ofByte {v : ℕ} {side : ObSide} (h : ObSide.ofByte v = some side) : side.toByte = v := by
  unfold ObSide.ofByte at h
  split at h <;> cases h <;> rfl

/-- The last number of a command, at the end of the bytes. -/
theorem u64_exhausted (b : Bytes) : (!(Reader.u64 ⟨b, true⟩).2.ok || !(Reader.u64 ⟨b, true⟩).2.exhausted) = true ∨
    ∃ v, v < 2 ^ 64 ∧ b = putU64 v := by
  rcases u64_cases b with h | ⟨v, rest, hv, rfl⟩
  · rw [h]
    exact .inl rfl
  · rw [u64_putU64 hv]
    cases rest with
    | nil => exact .inr ⟨v, hv, List.append_nil _⟩
    | cons x rest => exact .inl rfl

theorem u64_putU64_end {v : ℕ} (h : v < 2 ^ 64) : Reader.u64 ⟨putU64 v, true⟩ = (v, ⟨[], true⟩) := by
  have hread := u64_putU64 h []
  rw [List.append_nil] at hread
  exact hread

theorem readPayload_bytes {p : ObPayload} (h : p.WellFormed) : readPayload p.op ⟨p.bytes, true⟩ = some p := by
  cases p with
  | new side price qty =>
      obtain ⟨h1, h2, h3, h4⟩ := h
      unfold readPayload ObPayload.bytes ObPayload.op
      dsimp only
      rw [u8_leBytes side.toByte_lt, u64_putU64 h2, u64_putU64_end h4, ObSide.ofByte_toByte]
      dsimp only
      rw [if_neg (by decide), if_neg (by omega)]
  | cancel orderId =>
      unfold readPayload ObPayload.bytes ObPayload.op
      dsimp only
      rw [u64_putU64_end h]
      rfl
  | amend orderId newPrice newQty =>
      obtain ⟨h0, h1, h2, h3, h4⟩ := h
      unfold readPayload ObPayload.bytes ObPayload.op
      dsimp only
      rw [u64_putU64 h0, u64_putU64 h2, u64_putU64_end h4]
      dsimp only
      rw [if_neg (by decide), if_neg (by omega)]

theorem bytes_of_readPayload {op : ObOp} {b : Bytes} {p : ObPayload} (h : readPayload op ⟨b, true⟩ = some p) :
    p.op = op ∧ p.WellFormed ∧ b = p.bytes := by
  cases op with
  | new =>
      dsimp only [readPayload] at h
      rcases Reader.uint_cases 1 b with hfail | ⟨sideByte, b1, hlt, rfl, -⟩
      · rw [Reader.u8, hfail] at h
        cases h
      rw [u8_leBytes hlt] at h
      dsimp only at h
      rcases u64_cases b1 with hfail | ⟨price, b2, hp, rfl⟩
      · rw [hfail] at h
        cases h
      rw [u64_putU64 hp] at h
      dsimp only at h
      rcases u64_exhausted b2 with hfail | ⟨qty, hq, rfl⟩
      · rw [if_pos hfail] at h
        cases h
      rw [u64_putU64_end hq] at h
      dsimp only at h
      rw [if_neg (by decide)] at h
      cases hside : ObSide.ofByte sideByte with
      | none =>
          rw [hside] at h
          cases h
      | some side =>
          rw [hside] at h
          dsimp only at h
          split_ifs at h with hzero
          cases h
          refine ⟨rfl, ⟨by omega, hp, by omega, hq⟩, ?_⟩
          rw [ObPayload.bytes, ObSide.toByte_of_ofByte hside]
  | cancel =>
      dsimp only [readPayload] at h
      rcases u64_exhausted b with hfail | ⟨orderId, hid, rfl⟩
      · rw [if_pos hfail] at h
        cases h
      rw [u64_putU64_end hid] at h
      cases h
      exact ⟨rfl, hid, rfl⟩
  | amend =>
      dsimp only [readPayload] at h
      rcases u64_cases b with hfail | ⟨orderId, b1, hid, rfl⟩
      · rw [hfail] at h
        cases h
      rw [u64_putU64 hid] at h
      dsimp only at h
      rcases u64_cases b1 with hfail | ⟨price, b2, hp, rfl⟩
      · rw [hfail] at h
        cases h
      rw [u64_putU64 hp] at h
      dsimp only at h
      rcases u64_exhausted b2 with hfail | ⟨qty, hq, rfl⟩
      · rw [if_pos hfail] at h
        cases h
      rw [u64_putU64_end hq] at h
      dsimp only at h
      rw [if_neg (by decide)] at h
      split_ifs at h with hzero
      cases h
      exact ⟨rfl, ⟨hid, by omega, hp, by omega, hq⟩, rfl⟩

theorem readHeader_prefix {c n : ℕ} (hc : c < 2 ^ 64) (hn : n < 2 ^ 64) (op : ObOp) (rest : Bytes) :
    readHeader (putU64 c ++ (putU64 n ++ (leBytes 1 op.toByte ++ rest))) = some (⟨c, n, op⟩, ⟨rest, true⟩) := by
  unfold readHeader
  dsimp only
  rw [u64_putU64 hc, u64_putU64 hn, u8_leBytes op.toByte_lt, ObOp.ofByte_toByte]
  rfl

theorem prefix_of_readHeader {b : Bytes} {h : ObHeader} {r : Reader} (hh : readHeader b = some (h, r)) :
    h.clientId < 2 ^ 64 ∧ h.seqNo < 2 ^ 64 ∧ ∃ rest, r = ⟨rest, true⟩ ∧
      b = putU64 h.clientId ++ (putU64 h.seqNo ++ (leBytes 1 h.op.toByte ++ rest)) := by
  unfold readHeader at hh
  dsimp only at hh
  rcases identity_cases b with hfail | ⟨c, n, opByte, rest, hc, hn, hlt, rfl⟩
  · rw [hfail] at hh
    cases hh
  rw [u64_putU64 hc, u64_putU64 hn, u8_leBytes hlt] at hh
  dsimp only at hh
  rw [if_neg (by decide)] at hh
  cases hop : ObOp.ofByte opByte with
  | none =>
      rw [hop] at hh
      cases hh
  | some op =>
      rw [hop] at hh
      cases hh
      refine ⟨hc, hn, rest, rfl, ?_⟩
      rw [ObOp.toByte_of_ofByte hop]

/-- **Commands of the order book are exactly their encodings.** -/
theorem parseOb_iff (b : Bytes) (h : ObHeader) (p : ObPayload) : parseOb b = some (h, p) ↔
    h.clientId < 2 ^ 64 ∧ h.seqNo < 2 ^ 64 ∧ h.op = p.op ∧ p.WellFormed ∧ b = encodeOb h.clientId h.seqNo p := by
  constructor
  · intro hp
    obtain ⟨rd, hh, hpay⟩ := parseOb_eq_some hp
    obtain ⟨hc, hn, rest, rfl, rfl⟩ := prefix_of_readHeader hh
    obtain ⟨hop, hw, rfl⟩ := bytes_of_readPayload hpay
    refine ⟨hc, hn, hop.symm, hw, ?_⟩
    rw [encodeOb_eq, hop]
  · rintro ⟨hc, hn, hop, hw, rfl⟩
    obtain ⟨c, n, op⟩ := h
    dsimp only at hc hn hop
    subst hop
    unfold parseOb
    rw [encodeOb_eq, readHeader_prefix hc hn]
    dsimp only
    rw [readPayload_bytes hw]
    rfl

/-! ## 4. Malformed commands and duplicates -/

/-- What the session table holds is the result of a command that was executed. -/
theorem exists_recorded {L : List Bytes} {m : OrderBookStateMachine} (hL : OrderBookStateMachine.after L = some m)
    {c : ℕ} {s : Session} (hs : m.sessions[c]? = some s) :
    ∃ P mP cmd h p m', P ++ [cmd] <+: L ∧ OrderBookStateMachine.after P = some mP ∧
      parseOb cmd = some (h, p) ∧ h.clientId = c ∧ h.seqNo = s.lastSeq ∧
      mP.cachedResult h.clientId h.seqNo = none ∧ mP.applyPayload p = some (m', s.lastResult) := by
  have hlast : obMachine.last m c = some (s.lastSeq, s.lastResult) := by
    unfold obMachine
    dsimp only
    rw [hs]
    rfl
  obtain ⟨P, cmd, hlatest, hsession, hans⟩ := (obMachine_lawful.remembers hL).last c _ _ hlast
  obtain ⟨⟨h, p⟩, hp⟩ := Option.isSome_iff_exists.mp (SessionMachine.accepts_iff.mp hlatest.accepts).1
  obtain ⟨mP, hP⟩ := Option.isSome_iff_exists.mp (after_isSome P)
  have hnew := (accepts_iff_new hP hp).mp hlatest.accepts
  have hsession : obSession cmd = some (c, s.lastSeq) := hsession
  rw [obSession_of_parse hp] at hsession
  split_ifs at hsession with h0
  obtain ⟨hc, hn⟩ := Prod.mk.inj (Option.some.inj hsession)
  -- the answer is what executing the command gives
  rw [SessionMachine.answer_of_after hP] at hans
  have hans : (mP.apply cmd).map Prod.snd = some s.lastResult := hans
  rw [apply_new hp hnew, Option.map_map] at hans
  obtain ⟨⟨m', r⟩, hrun, rfl⟩ := Option.map_eq_some_iff.mp hans
  exact ⟨P, mP, cmd, h, p, m', hlatest.mem, hP, hp, hc, hn, hnew, hrun⟩

theorem Does.ne_malformed {Known : ℕ → Prop} {next : ℕ} {Q M : List Quote} {p : ObPayload} {r : Bytes}
    (h : Does Known next Q p M r) : r ≠ [kObMalformed] := by
  have hok : ∀ id q fs, okResult id q fs ≠ [kObMalformed] := fun id q fs h =>
    absurd (List.cons.inj h).1 (by decide)
  have hreject : [kObReject] ≠ [kObMalformed] := by decide
  cases h with
  | new => exact hok _ _ _
  | cancelUnknown => exact hreject
  | cancel => exact hok _ _ _
  | amendUnknown => exact hreject
  | amendKeep => exact hok _ _ _
  | amendMove => exact hok _ _ _

/-- No session remembers "E". -/
theorem recorded_ne_malformed {L : List Bytes} {m : OrderBookStateMachine}
    (hL : OrderBookStateMachine.after L = some m) {c : ℕ} {s : Session} (hs : m.sessions[c]? = some s) :
    s.lastResult ≠ [kObMalformed] := by
  obtain ⟨P, mP, cmd, h, p, m', -, hP, -, -, -, -, hrun⟩ := exists_recorded hL hs
  obtain ⟨mP', Q, hP', hS, hQ⟩ := exists_shows P
  obtain rfl := Option.some.inj (hP'.symm.trans hP)
  obtain ⟨m₁, M, r, hrun', hd, -⟩ := applyPayload_steps hS hQ.qty p
  rw [hrun'] at hrun
  obtain ⟨-, rfl⟩ := Prod.mk.inj (Option.some.inj hrun)
  exact hd.ne_malformed

/-- Malformed bytes that the session table has no answer for. -/
theorem apply_malformed_new {m : OrderBookStateMachine} {b : Bytes} (hp : parseOb b = none)
    (hc : ∀ h rd, readHeader b = some (h, rd) → m.cachedResult h.clientId h.seqNo = none) :
    m.apply b = some (m, [kObMalformed]) := by
  unfold OrderBookStateMachine.apply
  cases hh : readHeader b with
  | none => rfl
  | some x =>
      unfold parseOb at hp
      rw [hh] at hp
      dsimp only
      rw [hc x.1 x.2 hh, Option.map_eq_none_iff.mp hp]

theorem readHeader_identity {c n : ℕ} (hc : c < 2 ^ 64) (hn : n < 2 ^ 64) (op : ObOp) (rest : Bytes) :
    readHeader (identityPrefix c n op ++ rest) = some (⟨c, n, op⟩, ⟨rest, true⟩) := by
  unfold identityPrefix
  rw [List.append_assoc, List.append_assoc]
  exact readHeader_prefix hc hn op rest

/-- **A malformed order command is answered "E" unless it looks like a duplicate.** It changes nothing
    in any case. The answer is "E" exactly if its first 17 bytes are not those of a command of a client
    whose session has come at least as far. -/
theorem malformed_order_iff {L : List Bytes} {m : OrderBookStateMachine}
    (hL : OrderBookStateMachine.after L = some m) {b : Bytes}
    (hb : ¬ ∃ clientId seqNo p, clientId < 2 ^ 64 ∧ seqNo < 2 ^ 64 ∧ ObPayload.WellFormed p ∧
      b = encodeOb clientId seqNo p) :
    (∃ r, m.apply b = some (m, r)) ∧
    (m.apply b = some (m, [kObMalformed]) ↔
      ¬ ∃ clientId seqNo op rest s, clientId < 2 ^ 64 ∧ seqNo < 2 ^ 64 ∧
        b = identityPrefix clientId seqNo op ++ rest ∧ clientId ≠ 0 ∧ m.sessions[clientId]? = some s ∧
        seqNo ≤ s.lastSeq) := by
  have hnone : parseOb b = none := by
    cases hp : parseOb b with
    | none => rfl
    | some x =>
        obtain ⟨hc, hn, -, hw, he⟩ := (parseOb_iff b x.1 x.2).mp hp
        exact absurd ⟨x.1.clientId, x.1.seqNo, x.2, hc, hn, hw, he⟩ hb
  refine ⟨apply_malformed hnone, fun hE => ?_, fun hno => ?_⟩
  · rintro ⟨c, n, op, rest, s, hc, hn, rfl, h0, hs, hle⟩
    rw [apply_cached (readHeader_identity hc hn op rest) (cachedResult_eq_some_iff.mpr ⟨h0, s, hs, hle, rfl⟩)] at hE
    exact recorded_ne_malformed hL hs (congrArg Prod.snd (Option.some.inj hE))
  · refine apply_malformed_new hnone fun h rd hh => ?_
    cases hr : m.cachedResult h.clientId h.seqNo with
    | none => rfl
    | some r =>
        obtain ⟨h0, s, hs, hle, -⟩ := cachedResult_eq_some_iff.mp hr
        obtain ⟨hc, hn, rest, -, rfl⟩ := prefix_of_readHeader hh
        refine absurd ⟨h.clientId, h.seqNo, h.op, rest, s, hc, hn, ?_, h0, hs, hle⟩ hno
        unfold identityPrefix
        rw [List.append_assoc, List.append_assoc]

/-- A bid of client 1 and the same command without its last byte. -/
def sessionBid : Bytes := encodeObNew 1 1 .bid 10 5

def cutBid : Bytes := sessionBid.dropLast

theorem not_encoded_of_parseOb {b : Bytes} (h : parseOb b = none) :
    ¬ ∃ clientId seqNo p, clientId < 2 ^ 64 ∧ seqNo < 2 ^ 64 ∧ ObPayload.WellFormed p ∧
      b = encodeOb clientId seqNo p := by
  rintro ⟨c, n, p, hc, hn, hw, he⟩
  rw [(parseOb_iff b ⟨c, n, p.op⟩ p).mpr ⟨hc, hn, rfl, hw, he⟩] at h
  cases h

/-- The next bid of client 1 without its last byte. -/
def cutNext : Bytes := (encodeObNew 1 2 .bid 10 5).dropLast

/-- Behind the bid of client 1: the next command is malformed and answered "E", the same bid cut is not. -/
theorem malformed_order_iff_cut : ∃ m, OrderBookStateMachine.after [sessionBid] = some m ∧
    (m.sessions[1]?).map (fun s => (s.lastSeq, s.lastResult)) = some (1, okResult 1 5 []) ∧
    m.apply cutNext = some (m, [kObMalformed]) ∧ m.apply cutBid ≠ some (m, [kObMalformed]) := by
  obtain ⟨m, hm⟩ := Option.isSome_iff_exists.mp (after_isSome [sessionBid])
  have hm : OrderBookStateMachine.after [sessionBid] = some m := hm
  have hsession : (OrderBookStateMachine.after [sessionBid]).bind (fun m =>
      (m.sessions[1]?).map fun s => (s.lastSeq, s.lastResult)) = some (1, okResult 1 5 []) := by decide +kernel
  rw [hm] at hsession
  have hsession : (m.sessions[1]?).map (fun s => (s.lastSeq, s.lastResult)) = some (1, okResult 1 5 []) := hsession
  obtain ⟨s, hs, hpair⟩ := Option.map_eq_some_iff.mp hsession
  have hlast : s.lastSeq = 1 := congrArg Prod.fst hpair
  have hnext := not_encoded_of_parseOb (b := cutNext) (by decide +kernel)
  have hcut := not_encoded_of_parseOb (b := cutBid) (by decide +kernel)
  refine ⟨m, hm, hsession, (malformed_order_iff hm hnext).2.mpr ?_, fun hE => ?_⟩
  · rintro ⟨c, n, op, rest, s', hc, hn, he, -, hs', hle⟩
    have hread : (readHeader cutNext).map (fun x => (x.1.clientId, x.1.seqNo)) = some (1, 2) := by decide +kernel
    rw [he, readHeader_identity hc hn] at hread
    obtain ⟨rfl, rfl⟩ := Prod.mk.inj (Option.some.inj hread)
    obtain rfl := Option.some.inj (hs.symm.trans hs')
    omega
  · exact (malformed_order_iff hm hcut).2.mp hE
      ⟨1, 1, .new, cutBid.drop 17, s, by decide, by decide, by decide +kernel, by decide, hs, hlast.ge⟩

/-- **A malformed command with an answer of "O"**: the bid of client 1 comes again without its last
    byte. -/
theorem malformed_duplicate_answered : ∃ m,
    OrderBookStateMachine.after [sessionBid] = some m ∧
    (¬ ∃ clientId seqNo p, clientId < 2 ^ 64 ∧ seqNo < 2 ^ 64 ∧ ObPayload.WellFormed p ∧
      cutBid = encodeOb clientId seqNo p) ∧
    m.apply cutBid = some (m, okResult 1 5 []) := by
  have hcut : parseOb cutBid = none := by decide +kernel
  have hb := not_encoded_of_parseOb hcut
  obtain ⟨m, hm⟩ := Option.isSome_iff_exists.mp (after_isSome [sessionBid])
  refine ⟨m, hm, hb, ?_⟩
  have hrun : ((OrderBookStateMachine.after [sessionBid]).bind fun m => m.apply cutBid).map Prod.snd =
      some (okResult 1 5 []) := by decide +kernel
  have hm : OrderBookStateMachine.after [sessionBid] = some m := hm
  rw [hm] at hrun
  obtain ⟨r, hr⟩ := apply_malformed (m := m) hcut
  have hrun : (m.apply cutBid).map Prod.snd = some (okResult 1 5 []) := hrun
  rw [hr] at hrun ⊢
  exact congrArg (fun x => some (m, x)) (Option.some.inj hrun)

end Rsm.StateMachine
