/-
  File:      RaftRsm/Client/Correlation.lean
  Subject:   WHOSE ANSWER THE REAL CLIENT TAKES. A ClientReply carries no identity, so the client
             takes whatever its connection gives it first.

  A retry at the same leader leaves two entries in the log, and both are answered on the connection
  that asked last. The client takes the first answer and keeps the connection; the second one is
  then the first thing it reads in its NEXT operation (`lone_credits_straggler`). So the connection
  reuse of the class comment does not keep replies apart.

  What does keep them apart is that nothing of an earlier operation is under way at a server when an
  operation is first sent there (`Quiet`), and that no operation is sent on a connection on which an
  earlier read ended inside a frame (`Clean`):

  * `Asks` -- what a client may have asked of a node, as far as it can still be answered;
  * `Tracked` -- everything in the rings, on the connections and in the services was asked in this
    sense, and every OK reply is right;
  * `tracked_step` -- every act keeps this, if it is clean;
  * `reply_correlation` -- then every result is the one the state machine produced for its operation.
-/
import RaftRsm.Client.KvClient
import RaftRsm.Transport.Delivery
import RaftRsm.Raft.Safety

namespace Rsm.Client

open Rsm.Rpc Rsm.Raft Rsm.StateMachine Rsm.Transport

/-! ## 1. What a state machine produced -/

/-- **The state machine returned `r` when it executed the request**, after the entries `G` of the
    log: `r` was not looked up in the session table. -/
def Produced (C : Cluster) (w : Cluster.World) (req : ClientRequest) (r : Bytes) : Prop :=
  ∃ G e, C.Handed w (G ++ [e]) ∧ decodePrefix e.command = some (req.clientId, req.seqNo) ∧
    (∀ q, parse e.command = some q →
      (KVStateMachine.after (G.map LogEntry.command)).cachedResult q = none) ∧
    ((KVStateMachine.after (G.map LogEntry.command)).apply e.command).2 = r

section Produced

variable {C : Cluster} {w w' : Cluster.World} {req : ClientRequest} {r : Bytes}

theorem Produced.mono (h : Produced C w req r) (hw : Cluster.Longer w w') :
    Produced C w' req r := by
  obtain ⟨G, e, hG, hrest⟩ := h
  exact ⟨G, e, hG.mono hw, hrest⟩

/-- Commands at the beginning of a log are those of entries at its beginning. -/
theorem exists_entries {G : List LogEntry} {M : List Bytes} {cmd : Bytes}
    (h : M ++ [cmd] <+: G.map LogEntry.command) :
    ∃ G' e, G' ++ [e] <+: G ∧ G'.map LogEntry.command = M ∧ e.command = cmd := by
  obtain ⟨N, hN⟩ := h
  obtain ⟨G₁, G₂, rfl, h₁, -⟩ := List.map_eq_append_iff.mp hN.symm
  obtain ⟨G', E, rfl, hM, hE⟩ := List.map_eq_append_iff.mp h₁
  obtain ⟨e, rfl, he⟩ := List.map_eq_singleton_iff.mp hE
  exact ⟨G', e, List.prefix_append _ _, hM, he⟩

/-- What the machine returned for an entry of an operation it produced for that operation, if no
    later one of the client came before. -/
theorem produced_of_applied {G : List LogEntry} {e : LogEntry} (hG : C.Handed w (G ++ [e]))
    (hid : decodePrefix e.command = some (req.clientId, req.seqNo))
    (hlate : ∀ f ∈ G, ∀ n, decodePrefix f.command = some (req.clientId, n) → n ≤ req.seqNo) :
    Produced C w req
      ((KVStateMachine.after (G.map LogEntry.command)).apply e.command).2 := by
  cases hp : parse e.command with
  | none =>
      refine ⟨G, e, hG, hid, fun q hq => ?_, rfl⟩
      rw [hp] at hq
      cases hq
  | some q =>
      cases hc : (KVStateMachine.after (G.map LogEntry.command)).cachedResult q with
      | none =>
          refine ⟨G, e, hG, hid, fun q' hq' => ?_, rfl⟩
          rw [hp] at hq'
          cases hq'
          exact hc
      | some r =>
          -- the remembered result is that of the operation itself
          obtain ⟨s, hs, hle, hr⟩ := KVStateMachine.cachedResult_eq_some hc
          obtain ⟨M, cmd, q', hM, hp', hcl, hsq, hnew, hres⟩ := KVStateMachine.exists_execution hs
          obtain ⟨G', e', hG', rfl, rfl⟩ := exists_entries hM
          have hq := decodePrefix_of_parse hp
          rw [hid] at hq
          obtain ⟨hq1, hq2⟩ := Prod.mk.inj (Option.some.inj hq)
          have hid' := decodePrefix_of_parse hp'
          rw [hcl, ← hq1] at hid'
          have hmem : e' ∈ G := hG'.subset (List.mem_append_right _ (List.mem_singleton_self e'))
          have hn : q'.seqNo = req.seqNo := by
            have := hlate e' hmem _ hid'
            omega
          rw [hn] at hid'
          refine ⟨G', e', fun i f hf => hG i f ?_, hid', fun q'' hq'' => ?_, ?_⟩
          · have hlen := (List.getElem?_eq_some_iff.mp hf).1
            obtain ⟨N, hN⟩ := hG'.trans (List.prefix_append G [e])
            rw [← hN, List.getElem?_append_left hlen]
            exact hf
          · rw [hp'] at hq''
            cases hq''
            exact hnew
          · rw [KVStateMachine.apply_duplicate hp hc, hres]
            exact hr

end Produced

/-! ## 2. What a client may have asked -/

section Asks

variable (Z : KvConfig) (client : ℕ → KvClient)

/-- **What can still be answered**: `src` is the envelope id of a client that has issued the
    operation, and at a server to which the current operation was sent it is that one. -/
def Asks (v src : NodeId) (req : ClientRequest) : Prop :=
  ∃ c ∈ Z.ids, src = Z.nodeId c ∧ req.clientId = c ∧ req.seqNo ≤ (client c).seqNo ∧
    (v ∈ (client c).tried → req.seqNo = (client c).seqNo)

/-- The command carries the identity of an operation that was issued. -/
def Issued (command : Bytes) : Prop :=
  ∃ c ∈ Z.ids, ∃ n ≤ (client c).seqNo, decodePrefix command = some (c, n)

/-- A client holds the connection. -/
def Live (k : ℕ) : Prop := ∃ c ∈ Z.ids, (client c).fd = some k

variable {Z client} {c : ℕ} {d : KvClient}

theorem carried_issued : Carried (Issued Z client) (Asks Z client) := by
  intro n src req hask hid
  obtain ⟨c, hc, -, rfl, hle, -⟩ := hask
  exact ⟨_, hc, _, hle, hid⟩

theorem Issued.update {b : Bytes} (h : Issued Z client b) (hs : (client c).seqNo ≤ d.seqNo) :
    Issued Z (Function.update client c d) b := by
  obtain ⟨c', hc', n, hn, hb⟩ := h
  refine ⟨c', hc', n, ?_, hb⟩
  by_cases he : c' = c
  · subst he
    rw [Function.update_self]
    exact hn.trans hs
  · rw [Function.update_of_ne he]
    exact hn

/-- A client moves on; at `v` its operation is the only one that can be answered. -/
theorem Asks.update {v src : NodeId} {req : ClientRequest} (h : Asks Z client v src req)
    (hs : (client c).seqNo ≤ d.seqNo)
    (ht : src = Z.nodeId c → v ∈ d.tried → v ∈ (client c).tried ∧ d.seqNo = (client c).seqNo) :
    Asks Z (Function.update client c d) v src req := by
  obtain ⟨c', hc', hsrc, hid, hle, htr⟩ := h
  refine ⟨c', hc', hsrc, hid, ?_⟩
  by_cases he : c' = c
  · subst he
    rw [Function.update_self]
    refine ⟨hle.trans hs, fun hv => ?_⟩
    obtain ⟨hv, hseq⟩ := ht hsrc hv
    rw [hseq]
    exact htr hv
  · rw [Function.update_of_ne he]
    exact ⟨hle, htr⟩

theorem Live.of_update {k : ℕ} (h : Live Z (Function.update client c d) k)
    (hfd : d.fd = some k → (client c).fd = some k) : Live Z client k := by
  obtain ⟨c', hc', hk⟩ := h
  refine ⟨c', hc', ?_⟩
  by_cases he : c' = c
  · subst he
    rw [Function.update_self] at hk
    exact hfd hk
  · rw [Function.update_of_ne he] at hk
    exact hk

end Asks

/-! ## 3. Every act -/

/-- **Nothing of client `c` is under way at server `v`**: no request on a connection, in the inbound
    ring, with the Raft thread, in the batch or in the pending table, no reply in a ring to the tx
    thread, and none that the client has not read on the connection it holds. -/
structure KvNet.Quiet (Z : KvConfig) (S : KvNet) (c : ℕ) (v : NodeId) : Prop where
  up : ∀ k, (S.links.conns k).accepted = true → (S.links.conns k).server = v →
    (S.links.conns k).src = Z.nodeId c → (S.links.conns k).up = []
  inbound : ∀ m ∈ (S.links.server v).inbound, m.1 ≠ Z.nodeId c
  phase : (S.nodes.node v).phase.sender ≠ some (Z.nodeId c)
  buffer : ∀ b ∈ (S.nodes.node v).svc.buffer, b.src ≠ Z.nodeId c
  pending : ∀ i, ((S.nodes.node v).svc.pending.slots i).used = true →
    ((S.nodes.node v).svc.pending.slots i).p.replyTo ≠ Z.nodeId c
  tx : ∀ ring, ∀ m ∈ (S.links.server v).tx ring, m.1 ≠ Z.nodeId c
  down : ∀ k, (S.client c).fd = some k → (S.links.conns k).server = v →
    (S.links.conns k).down = []

/-- **What holds in every state.** -/
structure Tracked (Z : KvConfig) (S : KvNet) : Prop where
  good : Good Z.cluster (Issued Z S.client) (Asks Z S.client) S.nodes
  links : LinksOk Z.cluster (Asks Z S.client) S.nodes.world (Live Z S.client) S.links
  fd : ∀ c ∈ Z.ids, ∀ k, (S.client c).fd = some k → k < S.links.dialed ∧
    (S.links.conns k).src = Z.nodeId c ∧ (S.links.conns k).server = (S.client c).connectedTo
  awaiting : ∀ c ∈ Z.ids, ∀ idx, (S.client c).state = .awaiting idx →
    (S.client c).connectedTo ∈ (S.client c).tried ∧ (S.client c).torn = false
  returned : ∀ t ∈ S.returned, Produced Z.cluster S.nodes.world t.req t.result

section Tracked

variable {Z : KvConfig} {S S' : KvNet} {c : ℕ} {d : KvClient} {v : NodeId}

theorem tracked_start (Z : KvConfig) : Tracked Z (KvNet.start Z) where
  good := good_start _ _
  links := linksOk_start
  fd _ _ _ h := by cases h
  awaiting _ _ _ h := by cases h
  returned _ h := (List.not_mem_nil h).elim

/-- The transport does something. -/
theorem Tracked.relink (h : Tracked Z S) {l : Links}
    (hl : LinksOk Z.cluster (Asks Z S.client) S.nodes.world (Live Z S.client) l ∧
      SameEnds S.links l) : Tracked Z { S with links := l } where
  good := h.good
  links := hl.1
  fd c hc k hk := by
    obtain ⟨hlt, h1, h2⟩ := h.fd c hc k hk
    exact ⟨hlt.trans_le hl.2.dialed, (hl.2.src k hlt).trans h1, (hl.2.server k hlt).trans h2⟩
  awaiting := h.awaiting
  returned := h.returned

/-- A node does something. -/
theorem Tracked.moved (h : Tracked Z S) {ring : Ring} {out : Nodes × List Answer}
    (hf : Fine Z.cluster (Issued Z S.client) (Asks Z S.client) S.nodes out) :
    Tracked Z (S.moved ring out) := by
  have hl := h.links.mono (fun _ _ _ ha => ha) hf.longer fun _ hk => .inl hk
  obtain ⟨hok, hends⟩ := LinksOk.produce ring out.2 hl hf.answers
  have h' : Tracked Z { S with nodes := out.1 } :=
    ⟨hf.good, hl, h.fd, h.awaiting, fun t ht => (h.returned t ht).mono hf.longer⟩
  exact h'.relink ⟨hok, hends⟩

/-- The connection client `c` holds once it is `d`: the one it had, or one that nothing was written
    to yet. -/
def HoldsAs (Z : KvConfig) (S : KvNet) (c : ℕ) (d : KvClient) : Prop :=
  ∀ k, d.fd = some k →
    ((S.client c).fd = some k ∧ d.connectedTo = (S.client c).connectedTo) ∨
    (k < S.links.dialed ∧ (S.links.conns k).src = Z.nodeId c ∧
      (S.links.conns k).server = d.connectedTo ∧ (S.links.conns k).down = [])

/-- A client changes. -/
theorem Tracked.renew (h : Tracked Z S)
    (hgood : Good Z.cluster (Issued Z (Function.update S.client c d))
      (Asks Z (Function.update S.client c d)) S.nodes)
    (hlinks : LinksOk Z.cluster (Asks Z (Function.update S.client c d)) S.nodes.world
      (Live Z (Function.update S.client c d)) S.links)
    (hfd : HoldsAs Z S c d)
    (hst : ∀ idx, d.state = .awaiting idx → d.connectedTo ∈ d.tried ∧ d.torn = false) :
    Tracked Z { S with client := Function.update S.client c d } where
  good := hgood
  links := hlinks
  fd c' hc' k hk := by
    dsimp only at hk ⊢
    by_cases he : c' = c
    · subst he
      rw [Function.update_self] at hk ⊢
      rcases hfd k hk with ⟨hold, hto⟩ | ⟨hlt, h1, h2, -⟩
      · rw [hto]
        exact h.fd c' hc' k hold
      · exact ⟨hlt, h1, h2⟩
    · rw [Function.update_of_ne he] at hk ⊢
      exact h.fd c' hc' k hk
  awaiting c' hc' idx hs := by
    dsimp only at hs ⊢
    by_cases he : c' = c
    · subst he
      rw [Function.update_self] at hs ⊢
      exact hst idx hs
    · rw [Function.update_of_ne he] at hs ⊢
      exact h.awaiting c' hc' idx hs
  returned := h.returned

theorem HoldsAs.live {k : ℕ} (hfd : HoldsAs Z S c d)
    (hk : Live Z (Function.update S.client c d) k) :
    Live Z S.client k ∨ (S.links.conns k).down = [] := by
  by_cases hdown : (S.links.conns k).down = []
  · exact .inr hdown
  · refine .inl (hk.of_update fun hdk => ?_)
    rcases hfd k hdk with ⟨hold, -⟩ | ⟨-, -, -, he⟩
    · exact hold
    · exact absurd he hdown

/-- A client goes on, at the servers where it was or with a new operation. -/
theorem Tracked.client (h : Tracked Z S) (hs : (S.client c).seqNo ≤ d.seqNo)
    (ht : ∀ v ∈ d.tried, v ∈ (S.client c).tried ∧ d.seqNo = (S.client c).seqNo)
    (hfd : HoldsAs Z S c d)
    (hst : ∀ idx, d.state = .awaiting idx → d.connectedTo ∈ d.tried ∧ d.torn = false) :
    Tracked Z { S with client := Function.update S.client c d } := by
  have hA : ∀ n m r, Asks Z S.client n m r → Asks Z (Function.update S.client c d) n m r :=
    fun _ _ _ ha => ha.update hs fun _ hv => ht _ hv
  exact h.renew (h.good.mono (fun _ hb => hb.update hs) hA)
    (h.links.mono hA (Cluster.Longer.refl _) fun _ hk => hfd.live hk) hfd hst

/-- The client has the connection it had, or none. -/
theorem holdsAs_of_fd (h : d.fd = none ∨
    (d.fd = (S.client c).fd ∧ d.connectedTo = (S.client c).connectedTo)) : HoldsAs Z S c d := by
  intro k hk
  rcases h with h | ⟨h1, h2⟩
  · rw [h] at hk
    cases hk
  · exact .inl ⟨h1 ▸ hk, h2⟩

/-- **The reply a waiting client reads is that of its operation.** -/
theorem Tracked.answer (h : Tracked Z S) (hc : c ∈ Z.ids) {idx k : ℕ}
    (hs : (S.client c).state = .awaiting idx) (hk : (S.client c).fd = some k) {r : ClientReply}
    (hr : r ∈ (S.links.conns k).down) (hok : r.status = .ok) :
    Produced Z.cluster S.nodes.world ((S.client c).request c) r.result := by
  obtain ⟨req, ⟨c', hc', hsrc, hid, -, htried⟩, G, e, hG, hpre, hres⟩ :=
    h.links.down k ⟨c, hc, hk⟩ r hr hok
  obtain ⟨-, hks, hkv⟩ := h.fd c hc k hk
  dsimp only at hsrc htried hres
  obtain rfl : c = c' := Z.unique c hc c' hc' (hks.symm.trans hsrc)
  rw [hkv] at htried
  rw [hres]
  refine produced_of_applied hG ?_ fun f hf n hn => ?_
  · rw [hpre, hid, htried (h.awaiting c hc idx hs).1]
    rfl
  · -- no later operation has been issued
    obtain ⟨i, hi⟩ := List.mem_iff_getElem?.mp hf
    have hlt := (List.getElem?_eq_some_iff.mp hi).1
    have hat : Z.cluster.HandedAt S.nodes.world i f :=
      hG i f (by rw [List.getElem?_append_left hlt]; exact hi)
    obtain ⟨c'', -, n', hle, hn'⟩ := hat.command h.good.reachable h.good.sourced
    rw [hn] at hn'
    obtain ⟨h1, rfl⟩ := Prod.mk.inj (Option.some.inj hn')
    rw [← h1] at hle
    exact hle

/-- What `finish` leaves as it is, and when it returns a result. -/
theorem finish_spec (d : KvClient) (v : NodeId) (idx : ℕ) (reply : Option ClientReply) :
    ((d.finish v idx reply).1.seqNo = d.seqNo ∧ (d.finish v idx reply).1.tried = d.tried ∧
      (d.finish v idx reply).1.fd = d.fd ∧
      (d.finish v idx reply).1.connectedTo = d.connectedTo ∧
      ∀ i, (d.finish v idx reply).1.state ≠ .awaiting i) ∧
    ∀ b, (d.finish v idx reply).2 = some b → ∃ r, reply = some r ∧ r.status = .ok ∧ r.result = b := by
  cases reply with
  | none => exact ⟨⟨rfl, rfl, rfl, rfl, fun _ h => by cases h⟩, fun _ h => by cases h⟩
  | some r =>
      unfold KvClient.finish
      dsimp only
      by_cases hok : r.status = .ok
      · rw [if_pos hok]
        refine ⟨⟨rfl, rfl, rfl, rfl, fun _ h => by cases h⟩, fun b hb => ⟨r, rfl, hok, ?_⟩⟩
        exact Option.some.inj hb
      · rw [if_neg hok]
        split
        · exact ⟨⟨rfl, rfl, rfl, rfl, fun _ h => by cases h⟩, fun _ h => by cases h⟩
        · exact ⟨⟨rfl, rfl, rfl, rfl, fun _ h => by cases h⟩, fun _ h => by cases h⟩

/-- `attempt` returns to `call`. -/
theorem Tracked.finished (h : Tracked Z S) (idx : ℕ) {reply : Option ClientReply}
    (hd : d = { S.client c with torn := d.torn } ∨ d = (S.client c).dropConnection)
    (hr : ∀ r, reply = some r → r.status = .ok →
      Produced Z.cluster S.nodes.world (d.request c) r.result) :
    Tracked Z (S.finished Z c d idx reply) := by
  obtain ⟨⟨h1, h2, h3, h4, h5⟩, hres⟩ := finish_spec d (Z.servers.getD idx 0) idx reply
  have hsame : d.seqNo = (S.client c).seqNo ∧ d.tried = (S.client c).tried ∧
      (d.fd = none ∨ (d.fd = (S.client c).fd ∧ d.connectedTo = (S.client c).connectedTo)) := by
    rcases hd with hd | rfl
    · rw [hd]
      exact ⟨rfl, rfl, .inr ⟨rfl, rfl⟩⟩
    · exact ⟨rfl, rfl, .inl rfl⟩
  obtain ⟨hseq, htried, hfd⟩ := hsame
  have hclient := h.client (c := c) (d := (d.finish (Z.servers.getD idx 0) idx reply).1)
    (by rw [h1, hseq]) (by rw [h1, h2, hseq, htried]; exact fun v hv => ⟨hv, rfl⟩)
    (holdsAs_of_fd (by rw [h3, h4]; exact hfd)) (fun i hi => absurd hi (h5 i))
  refine ⟨hclient.good, hclient.links, hclient.fd, hclient.awaiting, fun t ht => ?_⟩
  rcases List.mem_append.mp ht with ht | ht
  · exact h.returned t ht
  · obtain ⟨b, hb, rfl⟩ := Option.map_eq_some_iff.mp (Option.mem_toList.mp ht)
    obtain ⟨r, hrep, hok, rfl⟩ := hres b hb
    exact hr r hrep hok

/-- The client is connected to its target. -/
theorem Tracked.connected (h : Tracked Z S) (hs : (S.client c).state = .trying) :
    Tracked Z (S.connected Z c) := by
  unfold KvNet.connected
  split_ifs with hre
  · exact h
  · obtain ⟨hok, hends⟩ := h.links.connect (Z.nodeId c) (S.target Z c)
    have h1 := h.relink ⟨hok.mono (fun _ _ _ ha => ha) (Cluster.Longer.refl _)
      fun _ hk => .inl (.inl hk), hends⟩
    refine h1.client (Nat.le_refl _) (fun v hv => ⟨hv, rfl⟩) (fun k hk => .inr ?_) fun idx hst => ?_
    · cases hk
      unfold Links.connect
      dsimp only
      rw [Function.update_self]
      exact ⟨Nat.lt_succ_self _, rfl, rfl, rfl⟩
    · exact absurd (hs.symm.trans hst) (fun he => by cases he)

/-- Connecting changes nothing but the connection. -/
theorem connected_spec (Z : KvConfig) (S : KvNet) (c : ℕ) :
    (∃ k, ((S.connected Z c).client c).fd = some k) ∧
    ((S.connected Z c).client c).connectedTo = S.target Z c ∧
    ((S.connected Z c).client c).tried = (S.client c).tried ∧
    ((S.connected Z c).client c).state = (S.client c).state := by
  unfold KvNet.connected
  split_ifs with hre
  · exact ⟨Option.ne_none_iff_exists'.mp hre.1, hre.2, rfl, rfl⟩
  · dsimp only
    rw [Function.update_self]
    exact ⟨⟨_, rfl⟩, rfl, rfl, rfl⟩

/-- A new connection does not disturb the quiet. -/
theorem KvNet.Quiet.connected (h : S.Quiet Z c v) : (S.connected Z c).Quiet Z c v := by
  unfold KvNet.connected
  split_ifs with hre
  · exact h
  · refine ⟨fun k => ?_, h.inbound, h.phase, h.buffer, h.pending, h.tx, fun k hk => ?_⟩
    · unfold Links.connect
      dsimp only
      by_cases hkd : k = S.links.dialed
      · subst hkd
        rw [Function.update_self]
        exact fun _ _ _ => rfl
      · rw [Function.update_of_ne hkd]
        exact h.up k
    · dsimp only at hk
      rw [Function.update_self] at hk
      cases hk
      unfold Links.connect
      dsimp only
      rw [Function.update_self]
      exact fun _ => rfl

/-- **The request is sent**: this server was sent the operation before, or is quiet. -/
theorem Tracked.sent (h : Tracked Z S) (hc : c ∈ Z.ids) {k : ℕ} (hk : (S.client c).fd = some k)
    (htorn : (S.client c).torn = false) (hq : (S.client c).connectedTo ∈ (S.client c).tried ∨
      S.Quiet Z c (S.client c).connectedTo) : Tracked Z (S.sent Z c) := by
  obtain ⟨-, hks, hkv⟩ := h.fd c hc k hk
  let d : KvClient := { S.client c with
    state := .awaiting ((S.client c).pick Z.servers)
    tried := (S.client c).connectedTo :: (S.client c).tried }
  have hfd : HoldsAs Z S c d := holdsAs_of_fd (.inr ⟨rfl, rfl⟩)
  have hst : ∀ idx, d.state = .awaiting idx → d.connectedTo ∈ d.tried ∧ d.torn = false :=
    fun _ _ => ⟨List.mem_cons_self, htorn⟩
  have hold : Tracked Z { S with client := Function.update S.client c d } := by
    rcases hq with hq | hq
    · refine h.client (Nat.le_refl _) (fun v hv => ⟨?_, rfl⟩) hfd hst
      rcases List.mem_cons.mp hv with rfl | hv
      · exact hq
      · exact hv
    · have hA : ∀ n m r, ¬ (n = (S.client c).connectedTo ∧ m = Z.nodeId c) →
          Asks Z S.client n m r → Asks Z (Function.update S.client c d) n m r := by
        intro n m r hne ha
        refine ha.update (Nat.le_refl _) fun hm hv => ⟨?_, rfl⟩
        rcases List.mem_cons.mp hv with rfl | hv
        · exact absurd ⟨rfl, hm⟩ hne
        · exact hv
      have hgood := (h.good.narrow hA hq.phase hq.pending hq.buffer).mono
        (fun _ hb => Issued.update (c := c) (d := d) hb (Nat.le_refl _)) fun _ _ _ ha => ha
      have hlinks := h.links.narrow hA hq.up hq.inbound hq.tx fun j hj hjv hjs => ?_
      · exact h.renew hgood (hlinks.mono (fun _ _ _ ha => ha) (Cluster.Longer.refl _)
          fun _ hj => hfd.live hj) hfd hst
      · -- the live connections of the client's id are its own
        obtain ⟨c', hc', hj⟩ := hj
        obtain ⟨-, hjs', -⟩ := h.fd c' hc' j hj
        obtain rfl : c' = c := Z.unique c' hc' c hc (hjs'.symm.trans hjs)
        exact hq.down j hj hjv
  have hask : Asks Z (Function.update S.client c d) (S.links.conns k).server
      (S.links.conns k).src ((S.client c).request c) := by
    refine ⟨c, hc, hks, rfl, ?_⟩
    rw [Function.update_self]
    exact ⟨Nat.le_refl _, fun _ => rfl⟩
  have hwrite := hold.relink ⟨hold.links.write hask, sameEnds_setConn rfl rfl⟩
  have hget : (S.client c).fd.getD 0 = k := by
    rw [hk]
    rfl
  unfold KvNet.sent
  dsimp only
  rw [hget]
  exact hwrite

/-! ## 4. Runs -/

/-- **The condition**: an operation is sent to a server only if it was sent there before, or nothing
    of its client is under way there; and it is not sent on a connection on which the client has read
    the beginning of a frame in an earlier attempt. -/
def KvNet.Clean (Z : KvConfig) (S : KvNet) : KvAct → Prop
  | .attempt c => (S.target Z c ∈ (S.client c).tried ∨ S.Quiet Z c (S.target Z c)) ∧
      ((S.connected Z c).client c).torn = false
  | _ => True

/-- The states of the runs in which every act meets the condition. -/
inductive KvNet.CleanRun (Z : KvConfig) : KvNet → Prop where
  | start : CleanRun Z (start Z)
  | step {S S' : KvNet} (a : KvAct) : CleanRun Z S → S.Clean Z a → S.step Z a = some S' →
      CleanRun Z S'

/-- A client that was idle or is trying goes on with its operation. -/
theorem Tracked.resume (h : Tracked Z S) (hseq : d.seqNo = (S.client c).seqNo)
    (htried : d.tried = (S.client c).tried) (hfd : d.fd = (S.client c).fd)
    (hto : d.connectedTo = (S.client c).connectedTo) (hst : ∀ idx, d.state ≠ .awaiting idx) :
    Tracked Z { S with client := Function.update S.client c d } := by
  refine h.client hseq.ge (fun v hv => ⟨htried ▸ hv, hseq⟩) (holdsAs_of_fd (.inr ⟨hfd, hto⟩)) ?_
  exact fun idx hi => absurd hi (hst idx)

/-- **Every act keeps this**, if it meets the condition. -/
theorem tracked_step (h : Tracked Z S) {a : KvAct} (hclean : S.Clean Z a)
    (hs : S.step Z a = some S') : Tracked Z S' := by
  cases a with
  | node a =>
      dsimp only [KvNet.step] at hs
      split_ifs at hs with hown
      obtain ⟨out, hout, rfl⟩ := Option.map_eq_some_iff.mp hs
      refine h.moved (good_step h.good carried_issued hout fun K src req he => ?_)
      rw [he] at hown
      cases hown
  | receive K =>
      dsimp only [KvNet.step] at hs
      cases hin : (S.links.server K.self).inbound with
      | nil =>
          rw [hin] at hs
          cases hs
      | cons m rest =>
          rw [hin] at hs
          obtain ⟨out, hout, rfl⟩ := Option.map_eq_some_iff.mp hs
          have hm : Asks Z S.client K.self m.1 m.2 :=
            h.links.inbound K.self m (by rw [hin]; exact List.mem_cons_self)
          have hfine := good_step h.good carried_issued hout fun K' src req he => by
            cases he
            exact hm
          exact (h.relink ⟨h.links.taken K.self, sameEnds_setServer⟩).moved hfine
  | crash n rng =>
      dsimp only [KvNet.step] at hs
      obtain ⟨out, hout, rfl⟩ := Option.map_eq_some_iff.mp hs
      have hfine := good_step h.good carried_issued hout fun K src req he => by cases he
      have hl := h.links.mono (fun _ _ _ ha => ha) hfine.longer fun _ hk => .inl hk
      have h' : Tracked Z { S with nodes := out.1 } :=
        ⟨hfine.good, hl, h.fd, h.awaiting, fun t ht => (h.returned t ht).mono hfine.longer⟩
      exact h'.relink (hl.crash n)
  | onFrame k =>
      obtain ⟨l, hl, rfl⟩ := Option.map_eq_some_iff.mp hs
      exact h.relink (h.links.onFrame hl)
  | dropFrame k =>
      obtain ⟨l, hl, rfl⟩ := Option.map_eq_some_iff.mp hs
      exact h.relink (h.links.dropFrame hl)
  | noteRoute v =>
      obtain ⟨l, hl, rfl⟩ := Option.map_eq_some_iff.mp hs
      exact h.relink (h.links.noteRoute hl)
  | closeConn k =>
      obtain ⟨l, hl, rfl⟩ := Option.map_eq_some_iff.mp hs
      exact h.relink (h.links.closeConn hl)
  | sendFrame v ring written =>
      obtain ⟨l, hl, rfl⟩ := Option.map_eq_some_iff.mp hs
      exact h.relink (h.links.sendFrame hl)
  | call c command =>
      dsimp only [KvNet.step] at hs
      split_ifs at hs with hc
      cases hs
      -- no server has been sent the new operation
      exact h.client (Nat.le_succ _) (fun _ hv => (List.not_mem_nil hv).elim)
        (holdsAs_of_fd (.inr ⟨rfl, rfl⟩)) (fun _ hi => by cases hi)
  | resendLast c =>
      dsimp only [KvNet.step] at hs
      split_ifs at hs with hc
      cases hs
      exact h.resume rfl rfl rfl rfl fun _ hi => by cases hi
  | setPreferredNode c v =>
      dsimp only [KvNet.step] at hs
      split_ifs at hs with hc
      cases hs
      exact h.resume rfl rfl rfl rfl fun _ hi => by cases hc.2.symm.trans hi
  | attempt c =>
      dsimp only [KvNet.step] at hs
      split_ifs at hs with hc
      cases hs
      obtain ⟨⟨k, hk⟩, hto, htried, -⟩ := connected_spec Z S c
      refine (h.connected hc.2.1).sent hc.1 hk hclean.2 ?_
      rw [hto, htried]
      exact Or.imp id KvNet.Quiet.connected hclean.1
  | attemptFails c =>
      dsimp only [KvNet.step] at hs
      split_ifs at hs with hc
      cases hs
      exact h.finished _ (.inr rfl) fun _ hr => by cases hr
  | unsent c =>
      dsimp only [KvNet.step] at hs
      split_ifs at hs with hc
      cases hs
      exact (h.connected hc.2.1).finished _ (.inl rfl) fun _ hr => by cases hr
  | read c n cut =>
      dsimp only [KvNet.step] at hs
      split at hs
      · rename_i idx k hst hfd
        cases hdown : (S.links.conns k).down with
        | nil =>
            rw [hdown] at hs
            cases hs
        | cons reply rest =>
            rw [hdown] at hs
            dsimp only at hs
            split_ifs at hs with hc
            cases hs
            refine (h.relink ⟨h.links.read n, sameEnds_setConn rfl rfl⟩).finished idx (.inl rfl)
              fun r hr hok => ?_
            cases hr
            exact h.answer hc.1 hst hfd (by rw [hdown]; exact List.mem_cons_self) hok
      · cases hs
  | misread c n reply =>
      dsimp only [KvNet.step] at hs
      split at hs
      · rename_i idx k hst hfd
        split_ifs at hs with hc
        -- a client that waits is not on such a connection
        rw [(h.awaiting c hc.1 idx hst).2] at hc
        cases hc.2
      · cases hs
  | noReply c =>
      dsimp only [KvNet.step] at hs
      split at hs
      · split_ifs at hs with hc
        cases hs
        exact h.finished _ (.inr rfl) fun _ hr => by cases hr
      · cases hs
  | giveUp c =>
      dsimp only [KvNet.step] at hs
      split_ifs at hs with hc
      cases hs
      exact h.resume rfl rfl rfl rfl fun _ hi => by cases hi

theorem tracked_run (hr : KvNet.CleanRun Z S) : Tracked Z S := by
  induction hr with
  | start => exact tracked_start Z
  | step a _ hclean hs ih => exact tracked_step ih hclean hs

/-- **Reply correlation**, in every run that meets the condition: a result that `call` has returned
    for an operation is the one the state machine produced for it. -/
theorem reply_correlation (hr : KvNet.CleanRun Z S) :
    ∀ t ∈ S.returned, Produced Z.cluster S.nodes.world t.req t.result :=
  (tracked_run hr).returned

end Tracked

/-! ## 5. One client and three servers

Two scripts. In both of them the client puts a key, its first attempt times out at node 1, and a
follower sends it back to node 1, where the put is proposed again; both entries are answered on the
second connection.

In the first script the client reads both replies at once. Then node 1 goes down, and the next
operation, the get of another key, is sent to it in vain and served by node 2, which wins the next
term. In the second script the client has taken the first reply only, and takes the other one for the
answer to the get. -/

/-- A script of acts; one that cannot happen is skipped. -/
def KvNet.play (Z : KvConfig) (S : KvNet) : List KvAct → KvNet
  | [] => S
  | a :: l => KvNet.play Z ((S.step Z a).getD S) l

/-- Client `c` is connected and has sent its request. -/
def KvNet.attempted (Z : KvConfig) (S : KvNet) (c : ℕ) : KvNet := (S.connected Z c).sent Z c

theorem kvReachable_play {Z : KvConfig} (l : List KvAct) {S : KvNet} (h : KvNet.Reachable Z S) :
    KvNet.Reachable Z (S.play Z l) := by
  induction l generalizing S with
  | nil => exact h
  | cons a l ih =>
      refine ih ?_
      cases hs : S.step Z a with
      | none => exact h
      | some S' => exact h.step a hs

def KvAct.sends : KvAct → Bool
  | .attempt _ => true
  | _ => false

/-- A script in which nothing is sent meets the condition. -/
theorem cleanRun_play {Z : KvConfig} (l : List KvAct) {S : KvNet} (h : KvNet.CleanRun Z S)
    (hl : l.all (! ·.sends) = true) : KvNet.CleanRun Z (S.play Z l) := by
  induction l generalizing S with
  | nil => exact h
  | cons a l ih =>
      rw [List.all_cons, Bool.and_eq_true] at hl
      refine ih ?_ hl.2
      cases hs : S.step Z a with
      | none => exact h
      | some S' =>
          refine h.step a ?_ hs
          cases a with
          | attempt c => cases hl.1
          | _ => trivial

theorem KvNet.CleanRun.attempted {Z : KvConfig} {S : KvNet} {c : ℕ} (h : KvNet.CleanRun Z S)
    (hc : S.Trying Z c) (hclean : S.Clean Z (.attempt c)) : KvNet.CleanRun Z (S.attempted Z c) :=
  h.step (.attempt c) hclean (if_pos hc)

/-- **Nothing survives a crash**, except what the client has not read of the connection it holds. -/
theorem quiet_crash {Z : KvConfig} {S : KvNet} {c : ℕ} {v u : NodeId} {rng : ℕ → ℕ}
    (hv : v ∈ Z.cluster.ids) (hu : u = v)
    (hdown : ∀ k ∈ (S.client c).fd, (S.links.conns k).down = []) :
    (S.play Z [.crash v rng]).Quiet Z c u := by
  subst hu
  have he : S.play Z [.crash u rng] =
      { S with
        nodes :=
          { world := Function.update S.nodes.world u ⟨(S.nodes.world.cur u).restart rng, []⟩
            node := S.nodes.set u { svc := { batching := (S.nodes.node u).svc.batching } } }
        links := S.links.crash u } := by
    simp only [KvNet.play, KvNet.step, Nodes.step, if_pos hv, Option.map_some, Option.getD_some]
  have hnode : (S.play Z [.crash u rng]).nodes.node u =
      { svc := { batching := (S.nodes.node u).svc.batching } } := by
    rw [he]
    exact Function.update_self _ _ _
  have hserver : (S.play Z [.crash u rng]).links.server u = {} := by
    rw [he]
    exact Function.update_self _ _ _
  refine ⟨fun k hacc hsrv => ?_, fun m hm => ?_, ?_, fun b hb => ?_, fun i hi => ?_, fun ring m hm => ?_,
    fun k hk _ => ?_⟩
  · rw [he] at hacc hsrv
    dsimp only [Links.crash] at hacc hsrv
    by_cases hs : (S.links.conns k).server = u
    · rw [if_pos hs] at hacc
      cases hacc
    · rw [if_neg hs] at hsrv
      exact absurd hsrv hs
  · rw [hserver] at hm
    cases hm
  · rw [hnode]
    exact fun h => by cases h
  · rw [hnode] at hb
    cases hb
  · rw [hnode] at hi
    cases hi
  · rw [hserver] at hm
    cases hm
  · rw [he] at hk ⊢
    dsimp only [Links.crash]
    split_ifs
    · exact hdown k hk
    · exact hdown k hk

/-- An attempt at a server that has just crashed is clean. -/
theorem KvNet.CleanRun.crash_attempted {Z : KvConfig} {S : KvNet} {c : ℕ} {v : NodeId} {rng : ℕ → ℕ}
    (h : KvNet.CleanRun Z S) (hv : v ∈ Z.cluster.ids) (hc : (S.play Z [.crash v rng]).Trying Z c)
    (htarget : (S.play Z [.crash v rng]).target Z c = v)
    (hdown : ∀ k ∈ (S.client c).fd, (S.links.conns k).down = [])
    (htorn : (((S.play Z [.crash v rng]).connected Z c).client c).torn = false) :
    KvNet.CleanRun Z ((S.play Z [.crash v rng]).attempted Z c) :=
  (cleanRun_play [.crash v rng] h rfl).attempted hc ⟨.inr (quiet_crash hv htarget hdown), htorn⟩

def loneConfig : KvConfig where
  cluster := Cluster.trio
  batching _ := {}
  ids := {7}
  nodeId _ := 100
  servers := [1, 2, 3]
  unique := by
    intro c hc d hd _
    rw [Finset.mem_singleton.mp hc, Finset.mem_singleton.mp hd]
  disjoint := by decide

def loneCtx (n : NodeId) : Ctx := { self := n, peers := Cluster.trio.peers n, now := 1000 }

def lonePut : Bytes := encodeKvCommand 7 1 .put [107] [118] []

def loneGet : Bytes := encodeKvCommand 7 2 .get [109] [] []

def nodeActs (l : List Act) : List KvAct := l.map .node

/-- Node `n` gets the next request from connection `k`. -/
def loneServes (n : NodeId) (k : ℕ) : List KvAct :=
  .onFrame k :: .noteRoute n :: .receive (loneCtx n) :: nodeActs (Nodes.serveAll (loneCtx n))

/-- Node 1 wins term 1, and node 2 hears of it. -/
def loneElects : List KvAct :=
  nodeActs <| List.flatten
    [Nodes.callAll { loneCtx 1 with now := 0 } .start, Nodes.callAll (loneCtx 1) .tick,
     Nodes.callAll (loneCtx 2) (.handle 1 (.requestVote ⟨1, 1, 0, 0⟩)),
     Nodes.callAll (loneCtx 1) (.handle 2 (.requestVoteReply ⟨1, true⟩)),
     Nodes.callAll (loneCtx 2) (.handle 1 (.appendEntries ⟨1, 1, 0, 0, 0, []⟩))]

/-- Node 2 stores the entries, and node 1 commits up to `last`. -/
def loneCommits (prev prevTerm commit last : ℕ) (es : List LogEntry) : List KvAct :=
  nodeActs <| List.flatten
    [Nodes.callAll (loneCtx 2) (.handle 1 (.appendEntries ⟨1, 1, prev, prevTerm, commit, es⟩)),
     List.replicate 4 (.advance 2),
     Nodes.callAll (loneCtx 1) (.handle 2 (.appendEntriesReply ⟨1, true, last, 0⟩))]

/-- Node 2 comes up again. -/
def loneReturns : List KvAct := nodeActs (Nodes.callAll (loneCtx 2) .start)

/-- The client has issued the put. -/
def loneCalls : KvNet := (KvNet.start loneConfig).play loneConfig [.call 7 lonePut]

/-- Node 1 has proposed the put, but the client has given the connection up. -/
def loneTimesOut : KvNet :=
  ((loneCalls.connected loneConfig 7).sent loneConfig 7).play loneConfig
    (List.flatten [loneElects, loneServes 1 0, [.noReply 7, .closeConn 0]])

/-- Node 2 is tried next and names the leader. -/
def loneRedirects : KvNet :=
  ((loneTimesOut.play loneConfig [.crash 2 id]).attempted loneConfig 7).play loneConfig
    (List.flatten
      [loneReturns, nodeActs (Nodes.callAll (loneCtx 2) (.handle 1 (.appendEntries ⟨1, 1, 0, 0, 0, []⟩))),
       loneServes 2 1, [.sendFrame 2 .raftTx true, .read 7 1 false]])

/-- Node 1 has proposed the put twice, the client has read both replies and issues the get. -/
def loneAnswers : KvNet :=
  (loneRedirects.attempted loneConfig 7).play loneConfig
    (List.flatten
      [loneServes 1 2, loneCommits 0 0 0 2 [⟨1, lonePut⟩, ⟨1, lonePut⟩],
       [.node (.apply 1), .node (.apply 1), .sendFrame 1 .applyTx true, .sendFrame 1 .applyTx true],
       [.read 7 2 false, .call 7 loneGet]])

/-- Node 1 has gone down with the connection the client has kept. -/
def loneLosesLeader : KvNet :=
  ((loneAnswers.play loneConfig [.crash 1 id]).attempted loneConfig 7).play loneConfig [.noReply 7]

/-- Node 2 wins term 2 and serves the get. -/
def loneFailsOver : KvNet :=
  ((loneLosesLeader.play loneConfig [.crash 2 id]).attempted loneConfig 7).play loneConfig
    (List.flatten
      [loneReturns,
       nodeActs <| List.flatten
        [Nodes.callAll { loneCtx 2 with now := 2000 } .tick,
         Nodes.callAll (loneCtx 1) (.handle 2 (.requestVote ⟨2, 2, 2, 1⟩)),
         Nodes.callAll { loneCtx 2 with now := 2000 } (.handle 1 (.requestVoteReply ⟨2, true⟩))],
       loneServes 2 3,
       nodeActs <| List.flatten
        [Nodes.callAll (loneCtx 1) (.handle 2 (.appendEntries ⟨2, 2, 2, 1, 0, [⟨2, loneGet⟩]⟩)),
         List.replicate 4 (.advance 1),
         Nodes.callAll { loneCtx 2 with now := 2000 } (.handle 1 (.appendEntriesReply ⟨2, true, 3, 0⟩))],
       [.node (.apply 2), .node (.apply 2), .node (.apply 2), .sendFrame 2 .applyTx true,
        .read 7 1 false]])

theorem loneCalls_quiet : loneCalls.Quiet loneConfig 7 1 where
  up _ h := by cases h
  inbound _ h := (List.not_mem_nil h).elim
  phase h := by cases h
  buffer _ h := (List.not_mem_nil h).elim
  pending _ h := by cases h
  tx _ _ h := (List.not_mem_nil h).elim
  down _ h := by cases h

theorem loneFailsOver_clean : KvNet.CleanRun loneConfig loneFailsOver := by
  have hcalls : KvNet.CleanRun loneConfig loneCalls := cleanRun_play _ .start rfl
  have htimes : KvNet.CleanRun loneConfig loneTimesOut :=
    cleanRun_play _ (hcalls.attempted (by decide +kernel) ⟨.inr loneCalls_quiet, rfl⟩) (by decide)
  have hredirects : KvNet.CleanRun loneConfig loneRedirects :=
    cleanRun_play _ (htimes.crash_attempted (by decide) (by decide +kernel) (by decide +kernel)
      (by decide +kernel) (by decide +kernel)) (by decide)
  have hanswers : KvNet.CleanRun loneConfig loneAnswers :=
    cleanRun_play _ (hredirects.attempted (by decide +kernel)
      ⟨.inl (by decide +kernel), by decide +kernel⟩) (by decide)
  have hloses : KvNet.CleanRun loneConfig loneLosesLeader :=
    cleanRun_play _ (hanswers.crash_attempted (by decide) (by decide +kernel) (by decide +kernel)
      (by decide +kernel) (by decide +kernel)) (by decide)
  exact cleanRun_play _ (hloses.crash_attempted (by decide) (by decide +kernel) (by decide +kernel)
    (by decide +kernel) (by decide +kernel)) (by decide)

theorem reply_correlation_lone :
    loneFailsOver.returned = [⟨⟨7, 1, lonePut⟩, [kKvOk]⟩, ⟨⟨7, 2, loneGet⟩, [kKvNotFound]⟩] ∧
    Produced Cluster.trio loneFailsOver.nodes.world ⟨7, 1, lonePut⟩ [kKvOk] ∧
    Produced Cluster.trio loneFailsOver.nodes.world ⟨7, 2, loneGet⟩ [kKvNotFound] := by
  have hret : loneFailsOver.returned =
      [⟨⟨7, 1, lonePut⟩, [kKvOk]⟩, ⟨⟨7, 2, loneGet⟩, [kKvNotFound]⟩] := by decide +kernel
  have hall := reply_correlation loneFailsOver_clean
  rw [hret] at hall
  exact ⟨hret, hall _ List.mem_cons_self, hall _ (List.mem_cons_of_mem _ List.mem_cons_self)⟩

/-- Two attempts at node 1, both answered on the second connection; then the next operation. -/
def loneStraggles : List KvAct :=
  List.flatten
    [loneElects, [.call 7 lonePut, .attempt 7], loneServes 1 0, [.noReply 7, .closeConn 0],
     [.attempt 7], loneServes 2 1, [.sendFrame 2 .raftTx true, .read 7 1 false],
     [.attempt 7], loneServes 1 2, loneCommits 0 0 0 2 [⟨1, lonePut⟩, ⟨1, lonePut⟩],
     [.node (.apply 1), .node (.apply 1), .sendFrame 1 .applyTx true, .read 7 1 false],
     [.sendFrame 1 .applyTx true, .call 7 loneGet, .attempt 7, .read 7 1 false],
     loneServes 1 2, loneCommits 2 1 2 3 [⟨1, loneGet⟩], [.node (.apply 1)]]

def loneStraggleRun : KvNet := (KvNet.start loneConfig).play loneConfig loneStraggles

/-- The log of that run. -/
def loneLog : List LogEntry := [⟨1, lonePut⟩, ⟨1, lonePut⟩, ⟨1, loneGet⟩]

/-- A line that hands an entry over names one of the log. -/
def ofLoneLog : Output → Bool
  | .apply (i + 1) e => loneLog[i]? = some e
  | _ => true

theorem loneLog_of_handedAt {i : ℕ} {e : LogEntry}
    (h : Cluster.trio.HandedAt loneStraggleRun.nodes.world i e) : loneLog[i]? = some e := by
  have hall : ∀ m ∈ Cluster.trio.ids,
      (loneStraggleRun.nodes.world.cur m).out.all ofLoneLog = true := by decide +kernel
  obtain ⟨m, hm, ho⟩ := h
  exact of_decide_eq_true (List.all_eq_true.mp (hall m hm) _ ho)

/-- **The straggler**: the client has returned OK for the get of a key that does not exist. The state
    machine's result for it is NOT FOUND, and OK was never its result. -/
theorem lone_credits_straggler :
    KvNet.Reachable loneConfig loneStraggleRun ∧
    ⟨⟨7, 2, loneGet⟩, [kKvOk]⟩ ∈ loneStraggleRun.returned ∧
    Produced Cluster.trio loneStraggleRun.nodes.world ⟨7, 2, loneGet⟩ [kKvNotFound] ∧
    ¬ Produced Cluster.trio loneStraggleRun.nodes.world ⟨7, 2, loneGet⟩ [kKvOk] := by
  refine ⟨kvReachable_play _ .start, by decide +kernel, ?_, fun hprod => ?_⟩
  · have hout : ∀ i : Fin 3, Output.apply (i + 1) (loneLog.get i) ∈
        (loneStraggleRun.nodes.world.cur 1).out := by decide +kernel
    refine ⟨[⟨1, lonePut⟩, ⟨1, lonePut⟩], ⟨1, loneGet⟩, fun i e he => ?_, by decide +kernel,
      fun q hq => ?_, by decide +kernel⟩
    · obtain ⟨hi, rfl⟩ := List.getElem?_eq_some_iff.mp he
      exact ⟨1, by decide, hout ⟨i, hi⟩⟩
    · have hq' : parse loneGet = some ⟨7, 2, .get, [109], [], []⟩ := by decide +kernel
      obtain rfl := Option.some.inj (hq'.symm.trans hq)
      decide +kernel
  · obtain ⟨G, e, hG, hid, -, hres⟩ := hprod
    have hget : ∀ i f, (G ++ [e])[i]? = some f → loneLog[i]? = some f :=
      fun i f hf => loneLog_of_handedAt (hG i f hf)
    obtain ⟨N, hN⟩ := Cluster.prefix_of_getElem hget
    -- the entry is one of the three, and only the last one has the identity
    have hlen : G.length < 3 := by
      have := congrArg List.length hN
      simp only [List.length_append, List.length_singleton] at this
      have h3 : loneLog.length = 3 := rfl
      omega
    have he : loneLog[G.length]? = some e := hget _ _ List.getElem?_concat_length
    have hG : loneLog.take G.length = G := by
      rw [← hN, List.append_assoc, List.take_left]
    generalize G.length = n at hlen he hG
    subst hG
    match n, hlen with
    | 0, _ =>
        cases he
        exact absurd hid (by decide +kernel)
    | 1, _ =>
        cases he
        exact absurd hid (by decide +kernel)
    | 2, _ =>
        cases he
        exact absurd hres (by decide +kernel)

end Rsm.Client
