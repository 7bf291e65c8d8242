/-
  File:      RaftRsm/Transport/Delivery.lean
  Subject:   What is on the connections and in the rings, and that the operations of the transport
             keep it.

  * `LinksOk A w live l` -- every request on its way was asked in the sense of `A`, every OK reply on
    its way is right, and the routes of a node lead to connections that end there;
  * `LinksOk.connect`, `.write`, `.onFrame`, …, `.crash` -- one lemma for each operation.
-/
import RaftRsm.Transport.Connections

namespace Rsm.Transport

open Rsm.Rpc Rsm.Raft Rsm.Client

/-! ## 1. The property -/

/-- **Whatever is on a connection or in a ring was asked in the sense of `A`**, and the OK replies are
    right; of the replies on a connection this is said only as long as it is `live`. -/
structure LinksOk (C : Cluster) (A : NodeId → NodeId → ClientRequest → Prop) (w : Cluster.World)
    (live : ℕ → Prop) (l : Links) : Prop where
  up : ∀ k, (l.conns k).accepted = true → ∀ req ∈ (l.conns k).up,
    A (l.conns k).server (l.conns k).src req
  inbound : ∀ v, ∀ m ∈ (l.server v).inbound, A v m.1 m.2
  tx : ∀ v ring, ∀ m ∈ (l.server v).tx ring, m.2.status = .ok →
    Answer.Right C A w ⟨v, m.1, m.2⟩
  down : ∀ k, live k → ∀ r ∈ (l.conns k).down, r.status = .ok →
    Answer.Right C A w ⟨(l.conns k).server, (l.conns k).src, r⟩
  routes : ∀ v u k, (l.server v).inboundRoutes u = some k →
    k < l.dialed ∧ (l.conns k).server = v ∧ (l.conns k).src = u
  noting : ∀ v u k, (l.server v).noting = some (u, k) →
    k < l.dialed ∧ (l.conns k).server = v ∧ (l.conns k).src = u

/-- A connection keeps its two ends. -/
structure SameEnds (l l' : Links) : Prop where
  dialed : l.dialed ≤ l'.dialed
  server : ∀ k < l.dialed, (l'.conns k).server = (l.conns k).server
  src : ∀ k < l.dialed, (l'.conns k).src = (l.conns k).src

section Links

variable {C : Cluster} {A A' : NodeId → NodeId → ClientRequest → Prop} {w w' : Cluster.World}
  {live live' : ℕ → Prop} {l l' : Links} {k : ℕ} {v : NodeId}

theorem SameEnds.refl (l : Links) : SameEnds l l :=
  ⟨Nat.le_refl _, fun _ _ => rfl, fun _ _ => rfl⟩

theorem SameEnds.trans {l₁ l₂ l₃ : Links} (h : SameEnds l₁ l₂) (h' : SameEnds l₂ l₃) :
    SameEnds l₁ l₃ where
  dialed := h.dialed.trans h'.dialed
  server k hk := (h'.server k (hk.trans_le h.dialed)).trans (h.server k hk)
  src k hk := (h'.src k (hk.trans_le h.dialed)).trans (h.src k hk)

theorem sameEnds_setConn {c : Conn} (hv : c.server = (l.conns k).server)
    (hs : c.src = (l.conns k).src) : SameEnds l (l.setConn k c) := by
  refine ⟨Nat.le_refl _, fun j _ => ?_, fun j _ => ?_⟩
  all_goals
    unfold Links.setConn
    dsimp only
    by_cases hj : j = k
    · subst hj
      rw [Function.update_self]
      assumption
    · rw [Function.update_of_ne hj]

theorem sameEnds_setServer {s : Server} : SameEnds l (l.setServer v s) :=
  ⟨Nat.le_refl _, fun _ _ => rfl, fun _ _ => rfl⟩

/-! ## 2. One change -/

theorem linksOk_start : LinksOk C A w live {} where
  up _ h := by cases h
  inbound _ _ h := (List.not_mem_nil h).elim
  tx _ _ _ h := (List.not_mem_nil h).elim
  down _ _ _ h := (List.not_mem_nil h).elim
  routes _ _ _ h := by cases h
  noting _ _ _ h := by cases h

theorem LinksOk.mono (h : LinksOk C A w live l) (hA : ∀ n m r, A n m r → A' n m r)
    (hw : Cluster.Longer w w') (hlive : ∀ k, live' k → live k ∨ (l.conns k).down = []) :
    LinksOk C A' w' live' l where
  up k hk req hreq := hA _ _ _ (h.up k hk req hreq)
  inbound v m hm := hA _ _ _ (h.inbound v m hm)
  tx v ring m hm hok := (h.tx v ring m hm hok).mono hA hw
  down k hk r hr hok := by
    rcases hlive k hk with hk | hk
    · exact (h.down k hk r hr hok).mono hA hw
    · rw [hk] at hr
      exact (List.not_mem_nil hr).elim
  routes := h.routes
  noting := h.noting

/-- What is not between `v` and `u` is all that counts if nothing is between `v` and `u`. -/
theorem LinksOk.narrow (h : LinksOk C A w live l) {u : NodeId}
    (hA : ∀ n m r, ¬ (n = v ∧ m = u) → A n m r → A' n m r)
    (hup : ∀ k, (l.conns k).accepted = true → (l.conns k).server = v → (l.conns k).src = u →
      (l.conns k).up = [])
    (hin : ∀ m ∈ (l.server v).inbound, m.1 ≠ u)
    (htx : ∀ ring, ∀ m ∈ (l.server v).tx ring, m.1 ≠ u)
    (hdown : ∀ k, live k → (l.conns k).server = v → (l.conns k).src = u →
      (l.conns k).down = []) : LinksOk C A' w live l := by
  have hright : ∀ {q : Answer}, ¬ (q.node = v ∧ q.dest = u) → q.Right C A w → q.Right C A' w := by
    intro q hq hr
    obtain ⟨req, hask, hrest⟩ := hr
    exact ⟨req, hA _ _ _ hq hask, hrest⟩
  refine ⟨fun k hacc req hreq => hA _ _ _ ?_ (h.up k hacc req hreq), fun n m hm =>
    hA _ _ _ ?_ (h.inbound n m hm), fun n ring m hm hok => hright ?_ (h.tx n ring m hm hok),
    fun k hk r hr hok => hright ?_ (h.down k hk r hr hok), h.routes, h.noting⟩
  · intro hv
    rw [hup k hacc hv.1 hv.2] at hreq
    exact List.not_mem_nil hreq
  · intro hv
    obtain ⟨rfl, hu⟩ := hv
    exact hin m hm hu
  · intro hv
    obtain ⟨rfl, hu⟩ := hv
    exact htx ring m hm hu
  · intro hv
    rw [hdown k hk hv.1 hv.2] at hr
    exact List.not_mem_nil hr

/-- One connection changes, between the same ends. -/
theorem LinksOk.setConn (h : LinksOk C A w live l) {c : Conn}
    (hv : c.server = (l.conns k).server) (hs : c.src = (l.conns k).src)
    (hup : c.accepted = true → ∀ req ∈ c.up, A c.server c.src req)
    (hdown : live k → ∀ r ∈ c.down, r.status = .ok → Answer.Right C A w ⟨c.server, c.src, r⟩) :
    LinksOk C A w live (l.setConn k c) := by
  have hends := sameEnds_setConn hv hs
  refine ⟨?_, h.inbound, h.tx, ?_, fun v u j hj => ?_, fun v u j hj => ?_⟩
  · exact (Function.forall_update_iff l.conns fun _ c =>
      c.accepted = true → ∀ req ∈ c.up, A c.server c.src req).mpr ⟨hup, fun j _ => h.up j⟩
  · exact (Function.forall_update_iff l.conns fun j c => live j → ∀ r ∈ c.down, r.status = .ok →
      Answer.Right C A w ⟨c.server, c.src, r⟩).mpr ⟨hdown, fun j _ => h.down j⟩
  · obtain ⟨hlt, h1, h2⟩ := h.routes v u j hj
    exact ⟨hlt, (hends.server j hlt).trans h1, (hends.src j hlt).trans h2⟩
  · obtain ⟨hlt, h1, h2⟩ := h.noting v u j hj
    exact ⟨hlt, (hends.server j hlt).trans h1, (hends.src j hlt).trans h2⟩

/-- One transport changes. -/
theorem LinksOk.setServer (h : LinksOk C A w live l) {s : Server}
    (hin : ∀ m ∈ s.inbound, A v m.1 m.2)
    (htx : ∀ ring, ∀ m ∈ s.tx ring, m.2.status = .ok → Answer.Right C A w ⟨v, m.1, m.2⟩)
    (hroutes : ∀ u k, s.inboundRoutes u = some k →
      k < l.dialed ∧ (l.conns k).server = v ∧ (l.conns k).src = u)
    (hnoting : ∀ u k, s.noting = some (u, k) →
      k < l.dialed ∧ (l.conns k).server = v ∧ (l.conns k).src = u) :
    LinksOk C A w live (l.setServer v s) where
  up := h.up
  inbound := (Function.forall_update_iff l.server fun v s => ∀ m ∈ s.inbound, A v m.1 m.2).mpr
    ⟨hin, fun j _ => h.inbound j⟩
  tx := (Function.forall_update_iff l.server fun v s => ∀ ring, ∀ m ∈ s.tx ring,
    m.2.status = .ok → Answer.Right C A w ⟨v, m.1, m.2⟩).mpr ⟨htx, fun j _ => h.tx j⟩
  down := h.down
  routes := (Function.forall_update_iff l.server fun v s => ∀ u k, s.inboundRoutes u = some k →
    k < l.dialed ∧ (l.conns k).server = v ∧ (l.conns k).src = u).mpr
    ⟨hroutes, fun j _ => h.routes j⟩
  noting := (Function.forall_update_iff l.server fun v s => ∀ u k, s.noting = some (u, k) →
    k < l.dialed ∧ (l.conns k).server = v ∧ (l.conns k).src = u).mpr
    ⟨hnoting, fun j _ => h.noting j⟩

/-! ## 3. The operations -/

theorem LinksOk.connect (h : LinksOk C A w live l) (src server : NodeId) :
    LinksOk C A w (fun k => live k ∨ k = l.dialed) (l.connect src server) ∧
      SameEnds l (l.connect src server) := by
  have hends : SameEnds l (l.connect src server) := by
    refine ⟨Nat.le_succ _, fun k hk => ?_, fun k hk => ?_⟩
    all_goals
      unfold Links.connect
      dsimp only
      rw [Function.update_of_ne (Nat.ne_of_lt hk)]
  refine ⟨⟨?_, h.inbound, h.tx, ?_, fun v u j hj => ?_, fun v u j hj => ?_⟩, hends⟩
  · refine (Function.forall_update_iff l.conns fun _ c =>
      c.accepted = true → ∀ req ∈ c.up, A c.server c.src req).mpr ⟨?_, fun j _ => h.up j⟩
    exact fun _ _ hreq => (List.not_mem_nil hreq).elim
  · refine (Function.forall_update_iff l.conns fun j c => (live j ∨ j = l.dialed) →
      ∀ r ∈ c.down, r.status = .ok → Answer.Right C A w ⟨c.server, c.src, r⟩).mpr
      ⟨fun _ _ hr => (List.not_mem_nil hr).elim, fun j hj hor => ?_⟩
    exact h.down j (hor.resolve_right hj)
  · obtain ⟨hlt, h1, h2⟩ := h.routes v u j hj
    exact ⟨Nat.lt_succ_of_lt hlt, (hends.server j hlt).trans h1, (hends.src j hlt).trans h2⟩
  · obtain ⟨hlt, h1, h2⟩ := h.noting v u j hj
    exact ⟨Nat.lt_succ_of_lt hlt, (hends.server j hlt).trans h1, (hends.src j hlt).trans h2⟩

theorem LinksOk.write (h : LinksOk C A w live l) {req : ClientRequest}
    (hreq : A (l.conns k).server (l.conns k).src req) : LinksOk C A w live (l.write k req) := by
  refine h.setConn rfl rfl (fun hacc r hr => ?_) (h.down k)
  rcases List.mem_append.mp hr with hr | hr
  · exact h.up k hacc r hr
  · rw [List.mem_singleton.mp hr]
    exact hreq

theorem LinksOk.read (h : LinksOk C A w live l) (n : ℕ) : LinksOk C A w live (l.read k n) :=
  h.setConn rfl rfl (h.up k) fun hk r hr => h.down k hk r (List.mem_of_mem_drop hr)

theorem LinksOk.onFrame (h : LinksOk C A w live l) (hl : l.onFrame k = some l') :
    LinksOk C A w live l' ∧ SameEnds l l' := by
  unfold Links.onFrame at hl
  cases hup : (l.conns k).up with
  | nil =>
      rw [hup] at hl
      cases hl
  | cons req rest =>
      rw [hup] at hl
      dsimp only at hl
      split_ifs at hl with hread
      cases hl
      have hmem : ∀ r ∈ req :: rest, A (l.conns k).server (l.conns k).src r := by
        rw [← hup]
        exact h.up k hread.2.1
      have hends : SameEnds l (l.setConn k { l.conns k with up := rest }) :=
        sameEnds_setConn rfl rfl
      have hconn := h.setConn (k := k) (c := { l.conns k with up := rest }) rfl rfl
        (fun _ r hr => hmem r (List.mem_cons_of_mem _ hr)) (h.down k)
      refine ⟨hconn.setServer (fun m hm => ?_) (hconn.tx _) (hconn.routes _) (fun u j hj => ?_),
        hends.trans sameEnds_setServer⟩
      · rcases List.mem_append.mp hm with hm | hm
        · exact hconn.inbound _ m hm
        · rw [List.mem_singleton.mp hm]
          exact hmem req List.mem_cons_self
      · cases hj
        exact ⟨hread.1, hends.server k hread.1, hends.src k hread.1⟩

theorem LinksOk.dropFrame (h : LinksOk C A w live l) (hl : l.dropFrame k = some l') :
    LinksOk C A w live l' ∧ SameEnds l l' := by
  unfold Links.dropFrame at hl
  cases hup : (l.conns k).up with
  | nil =>
      rw [hup] at hl
      cases hl
  | cons req rest =>
      rw [hup] at hl
      dsimp only at hl
      split_ifs at hl with hread
      cases hl
      refine ⟨h.setConn rfl rfl (fun hacc r hr => h.up k hacc r ?_) (h.down k),
        sameEnds_setConn rfl rfl⟩
      rw [hup]
      exact List.mem_cons_of_mem _ hr

theorem LinksOk.noteRoute (h : LinksOk C A w live l) (hl : l.noteRoute v = some l') :
    LinksOk C A w live l' ∧ SameEnds l l' := by
  unfold Links.noteRoute at hl
  dsimp only at hl
  cases hn : (l.server v).noting with
  | none =>
      rw [hn] at hl
      cases hl
  | some x =>
      obtain ⟨src, k⟩ := x
      rw [hn] at hl
      cases hl
      refine ⟨h.setServer (h.inbound v) (h.tx v) ?_ (fun _ _ hj => by cases hj),
        sameEnds_setServer⟩
      refine (Function.forall_update_iff (l.server v).inboundRoutes fun u x => ∀ k, x = some k →
        k < l.dialed ∧ (l.conns k).server = v ∧ (l.conns k).src = u).mpr
        ⟨fun j hj => ?_, fun u _ => h.routes v u⟩
      cases hj
      exact h.noting v src k hn

theorem LinksOk.closeConn (h : LinksOk C A w live l) (hl : l.closeConn k = some l') :
    LinksOk C A w live l' ∧ SameEnds l l' := by
  unfold Links.closeConn at hl
  dsimp only at hl
  split_ifs at hl
  cases hl
  have hconn := h.setConn (k := k) (c := { l.conns k with accepted := false }) rfl rfl
    (fun hacc => by cases hacc) (h.down k)
  have hends : SameEnds l (l.setConn k { l.conns k with accepted := false }) :=
    sameEnds_setConn rfl rfl
  refine ⟨hconn.setServer (hconn.inbound _) (hconn.tx _) (fun u j hj => ?_) (hconn.noting _),
    hends.trans sameEnds_setServer⟩
  dsimp only at hj
  split_ifs at hj
  exact hconn.routes _ u j hj

theorem LinksOk.taken (h : LinksOk C A w live l) (v : NodeId) : LinksOk C A w live (l.taken v) :=
  h.setServer (fun m hm => h.inbound v m (List.mem_of_mem_tail hm)) (h.tx v) (h.routes v)
    (h.noting v)

theorem LinksOk.produceOne (h : LinksOk C A w live l) (ring : Ring) {q : Answer}
    (hq : q.reply.status = .ok → q.Right C A w) : LinksOk C A w live (l.produceOne ring q) := by
  refine h.setServer (h.inbound _) ?_ (h.routes _) (h.noting _)
  refine (Function.forall_update_iff (l.server q.node).tx fun _ x => ∀ m ∈ x, m.2.status = .ok →
    Answer.Right C A w ⟨q.node, m.1, m.2⟩).mpr ⟨fun m hm hok => ?_, fun r _ => h.tx q.node r⟩
  rcases List.mem_append.mp hm with hm | hm
  · exact h.tx q.node ring m hm hok
  · rw [List.mem_singleton.mp hm] at hok ⊢
    exact hq hok

theorem LinksOk.produce (ring : Ring) (qs : List Answer) : ∀ {l : Links},
    LinksOk C A w live l → (∀ q ∈ qs, q.reply.status = .ok → q.Right C A w) →
      LinksOk C A w live (l.produce ring qs) ∧ SameEnds l (l.produce ring qs) := by
  induction qs with
  | nil => exact fun h _ => ⟨h, SameEnds.refl _⟩
  | cons q qs ih =>
      intro l h hqs
      obtain ⟨h1, h2⟩ := ih (h.produceOne ring (hqs q List.mem_cons_self))
        fun q' hq' => hqs q' (List.mem_cons_of_mem q hq')
      exact ⟨h1, sameEnds_setServer.trans h2⟩

theorem LinksOk.sendFrame (h : LinksOk C A w live l) {ring : Ring} {written : Bool}
    (hl : l.sendFrame v ring written = some l') : LinksOk C A w live l' ∧ SameEnds l l' := by
  unfold Links.sendFrame at hl
  dsimp only at hl
  cases htx : (l.server v).tx ring with
  | nil =>
      rw [htx] at hl
      cases hl
  | cons m rest =>
      obtain ⟨dest, reply⟩ := m
      rw [htx] at hl
      dsimp only at hl
      -- the ring loses its first reply in any case
      have hrest : LinksOk C A w live (l.setServer v
          { l.server v with tx := Function.update (l.server v).tx ring rest }) := by
        refine h.setServer (h.inbound v) ?_ (h.routes v) (h.noting v)
        refine (Function.forall_update_iff (l.server v).tx fun _ x => ∀ m ∈ x,
          m.2.status = .ok → Answer.Right C A w ⟨v, m.1, m.2⟩).mpr
          ⟨fun m hm => h.tx v ring m ?_, fun r _ => h.tx v r⟩
        rw [htx]
        exact List.mem_cons_of_mem _ hm
      cases hroute : (l.server v).inboundRoutes dest with
      | none =>
          rw [hroute] at hl
          cases hl
          exact ⟨hrest, sameEnds_setServer⟩
      | some k =>
          rw [hroute] at hl
          dsimp only at hl
          split_ifs at hl
          · cases hl
            obtain ⟨-, hserver, hsrc⟩ := h.routes v dest k hroute
            refine ⟨hrest.setConn rfl rfl (hrest.up k) (fun hk r hr hok => ?_),
              sameEnds_setServer.trans (sameEnds_setConn rfl rfl)⟩
            rcases List.mem_append.mp hr with hr | hr
            · exact hrest.down k hk r hr hok
            · rw [List.mem_singleton.mp hr] at hok ⊢
              show Answer.Right C A w ⟨(l.conns k).server, (l.conns k).src, reply⟩
              rw [hserver, hsrc]
              exact h.tx v ring (dest, reply) (by rw [htx]; exact List.mem_cons_self) hok
          · cases hl
            exact ⟨hrest, sameEnds_setServer⟩

theorem LinksOk.crash (h : LinksOk C A w live l) (v : NodeId) :
    LinksOk C A w live (l.crash v) ∧ SameEnds l (l.crash v) := by
  have hconn : ∀ k, ((l.crash v).conns k).server = (l.conns k).server ∧
      ((l.crash v).conns k).src = (l.conns k).src ∧ ((l.crash v).conns k).up = (l.conns k).up ∧
      ((l.crash v).conns k).down = (l.conns k).down ∧
      (((l.crash v).conns k).accepted = true → (l.conns k).accepted = true) := by
    intro k
    unfold Links.crash
    dsimp only
    split_ifs
    · exact ⟨rfl, rfl, rfl, rfl, fun hacc => by cases hacc⟩
    · exact ⟨rfl, rfl, rfl, rfl, id⟩
  have hserver : ∀ u, (l.crash v).server u = {} ∨ (l.crash v).server u = l.server u := by
    intro u
    unfold Links.crash
    dsimp only
    by_cases hu : u = v
    · subst hu
      rw [Function.update_self]
      exact .inl rfl
    · rw [Function.update_of_ne hu]
      exact .inr rfl
  refine ⟨⟨fun k hacc req hreq => ?_, fun u m hm => ?_, fun u ring m hm => ?_,
    fun k hk r hr => ?_, fun u x k hx => ?_, fun u x k hx => ?_⟩,
    ⟨Nat.le_refl _, fun k _ => (hconn k).1, fun k _ => (hconn k).2.1⟩⟩
  · obtain ⟨h1, h2, h3, -, h5⟩ := hconn k
    rw [h1, h2]
    rw [h3] at hreq
    exact h.up k (h5 hacc) req hreq
  · rcases hserver u with hu | hu
    · rw [hu] at hm
      exact (List.not_mem_nil hm).elim
    · rw [hu] at hm
      exact h.inbound u m hm
  · rcases hserver u with hu | hu
    · rw [hu] at hm
      exact (List.not_mem_nil hm).elim
    · rw [hu] at hm
      exact h.tx u ring m hm
  · obtain ⟨h1, h2, -, h4, -⟩ := hconn k
    rw [h1, h2]
    rw [h4] at hr
    exact h.down k hk r hr
  · rcases hserver u with hu | hu
    · rw [hu] at hx
      cases hx
    · rw [hu] at hx
      rw [(hconn k).1, (hconn k).2.1]
      exact h.routes u x k hx
  · rcases hserver u with hu | hu
    · rw [hu] at hx
      cases hx
    · rw [hu] at hx
      rw [(hconn k).1, (hconn k).2.1]
      exact h.noting u x k hx

end Links

end Rsm.Transport
