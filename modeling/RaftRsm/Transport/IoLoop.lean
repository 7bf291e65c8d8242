/-
  File:      RaftRsm/Transport/IoLoop.lean
  Subject:   THE READING END OF A CONNECTION (`transport/transport.cpp`, `ioLoop`): what one `read`
             returns goes through the assembler, every body is decoded and handed on, and an error
             closes the connection.

  A body that does not decode only sets a flag; the connection is closed when the assembler has gone
  through the rest of what this `read` returned.

  * `onReadable`, `readAll` -- the reads of one connection, and the messages they hand on;
  * `beforeFirstBad` -- what was to be handed on: the messages of the frames before the first bad one;
  * `protocol_error_ends_traffic_iff` -- this is what is handed on if and only if no read that
    completes the first body that does not decode also completes a later one that does.
-/
import RaftRsm.Transport.Frame

namespace Rsm.Transport

open Rsm.Rpc FrameAssembler

/-! ## 1. The code -/

structure InboundConn where
  assembler : FrameAssembler := {}
  /-- `closeConn` has not been called. -/
  isOpen : Bool := true

/-- The callback of `ioLoop`: the flag `bad`, and what has gone to the handler. -/
def onBody (acc : Bool × List DecodedMessage) (body : Bytes) : Bool × List DecodedMessage :=
  match decodeMessage body with
  | none => (true, acc.2)
  | some decoded => (acc.1, acc.2 ++ [decoded])

/-- One `read` that returns `data`. -/
def onReadable (c : InboundConn) (data : Bytes) : InboundConn × List DecodedMessage :=
  if !c.isOpen then (c, [])
  else
    let (assembler, bodies, fed) := c.assembler.feed data
    let (bad, msgs) := bodies.foldl onBody (false, [])
    ({ assembler, isOpen := fed && !bad }, msgs)

def readAll (c : InboundConn) : List Bytes → InboundConn × List DecodedMessage
  | [] => (c, [])
  | data :: reads =>
      let (c, msgs) := onReadable c data
      let (c, msgs') := readAll c reads
      (c, msgs ++ msgs')

/-! ## 2. What is to be handed on -/

/-- The bodies of the frames of a stream, up to a length that is not allowed. -/
def framesOf (b : Bytes) : List Bytes := (feed {} b).2.1

/-- The messages before the first body that does not decode. -/
def beforeFirstBad : List Bytes → List DecodedMessage
  | [] => []
  | body :: bodies =>
      match decodeMessage body with
      | none => []
      | some decoded => decoded :: beforeFirstBad bodies

/-- All of them decode. -/
def AllDecode (bodies : List Bytes) : Prop := ∀ body ∈ bodies, (decodeMessage body).isSome

theorem foldl_onBody (bodies : List Bytes) : ∀ acc, bodies.foldl onBody acc =
    (acc.1 || bodies.any fun body => (decodeMessage body).isNone,
      acc.2 ++ bodies.filterMap decodeMessage) := by
  induction bodies with
  | nil =>
      intro acc
      simp
  | cons body bodies ih =>
      intro acc
      rw [List.foldl_cons, ih]
      cases h : decodeMessage body with
      | none => simp [onBody, h]
      | some d => simp [onBody, h]

theorem beforeFirstBad_append {A : List Bytes} (hA : AllDecode A) (R : List Bytes) :
    beforeFirstBad (A ++ R) = A.filterMap decodeMessage ++ beforeFirstBad R := by
  induction A with
  | nil => rfl
  | cons a A ih =>
      obtain ⟨d, hd⟩ := Option.isSome_iff_exists.mp (hA a List.mem_cons_self)
      have ih := ih fun x hx => hA x (List.mem_cons_of_mem a hx)
      simp only [List.cons_append, beforeFirstBad, hd, ih, List.filterMap_cons_some hd]

theorem beforeFirstBad_bad {x : Bytes} (hx : decodeMessage x = none) (R : List Bytes) :
    beforeFirstBad (x :: R) = [] := by
  simp only [beforeFirstBad, hx]

/-- All bodies decode, or there is a first one that does not. -/
theorem allDecode_or (bodies : List Bytes) : AllDecode bodies ∨
    ∃ A x R, bodies = A ++ x :: R ∧ AllDecode A ∧ decodeMessage x = none := by
  induction bodies with
  | nil => exact .inl fun _ h => (List.not_mem_nil h).elim
  | cons body bodies ih =>
      cases hb : decodeMessage body with
      | none => exact .inr ⟨[], body, bodies, rfl, fun _ h => (List.not_mem_nil h).elim, hb⟩
      | some d =>
          have hcons : ∀ {l : List Bytes}, AllDecode l → AllDecode (body :: l) := by
            intro l hl y hy
            rcases List.mem_cons.mp hy with rfl | hy
            · rw [hb]
              rfl
            · exact hl y hy
          rcases ih with ih | ⟨A, x, R, rfl, hA, hx⟩
          · exact .inl (hcons ih)
          · exact .inr ⟨body :: A, x, R, rfl, hcons hA, hx⟩

/-- The first one that does not decode is in one place only. -/
theorem first_bad_unique {A A' R R' : List Bytes} {x x' : Bytes} (hA : AllDecode A)
    (hx : decodeMessage x = none) (hA' : AllDecode A') (hx' : decodeMessage x' = none)
    (h : A ++ x :: R = A' ++ x' :: R') : R = R' := by
  induction A generalizing A' with
  | nil =>
      cases A' with
      | nil => exact (List.cons.inj h).2
      | cons a A' =>
          have ha := hA' a List.mem_cons_self
          rw [← (List.cons.inj h).1, hx] at ha
          cases ha
  | cons a A ih =>
      cases A' with
      | nil =>
          have ha := hA a List.mem_cons_self
          rw [(List.cons.inj h).1, hx'] at ha
          cases ha
      | cons a' A' =>
          exact ih (fun y hy => hA y (List.mem_cons_of_mem a hy))
            (fun y hy => hA' y (List.mem_cons_of_mem a' hy)) (List.cons.inj h).2

/-! ## 3. Reads -/

theorem feed_returns (a : FrameAssembler) (data : Bytes) :
    (a.feed data).2.2 = !(a.feed data).1.poisoned := by
  obtain ⟨buf, poisoned⟩ := a
  cases poisoned with
  | true => rfl
  | false =>
      simp only [feed, Bool.false_eq_true, if_false]
      split <;> rfl

theorem readAll_closed {c : InboundConn} (h : c.isOpen = false) (reads : List Bytes) :
    readAll c reads = (c, []) := by
  induction reads with
  | nil => rfl
  | cons data reads ih =>
      have hstep : onReadable c data = (c, []) := if_pos (by rw [h]; rfl)
      simp only [readAll, hstep, ih, List.append_nil]

/-- What one read hands on, and whether the connection stays open. -/
theorem onReadable_eq (a : FrameAssembler) (data : Bytes) : onReadable ⟨a, true⟩ data =
    (⟨(a.feed data).1, !(a.feed data).1.poisoned &&
        !((a.feed data).2.1.any fun body => (decodeMessage body).isNone)⟩,
      (a.feed data).2.1.filterMap decodeMessage) := by
  simp only [onReadable, Bool.not_true, Bool.false_eq_true, if_false, foldl_onBody, feed_returns,
    Bool.false_or, List.nil_append]

/-- **No read completes a body that decodes behind the first one that does not**, from the assembler
    `a` on. -/
def Separated (a : FrameAssembler) (reads : List Bytes) : Prop :=
  ∀ pre data post A x R, reads = pre ++ data :: post → ((a.feedAll pre).1.feed data).2.1 = A ++ x :: R →
    AllDecode ((a.feedAll pre).2 ++ A) → decodeMessage x = none → ∀ y ∈ R, decodeMessage y = none

theorem allDecode_append {A B : List Bytes} : AllDecode (A ++ B) ↔ AllDecode A ∧ AllDecode B :=
  List.forall_mem_append

section Separated

variable {a : FrameAssembler} {data : Bytes} {reads : List Bytes}

/-- The first read completes a body that does not decode: only this read counts. -/
theorem separated_of_bad {A R : List Bytes} {x : Bytes} (hN : (a.feed data).2.1 = A ++ x :: R)
    (hA : AllDecode A) (hx : decodeMessage x = none) :
    Separated a (data :: reads) ↔ ∀ y ∈ R, decodeMessage y = none := by
  constructor
  · intro h
    exact h [] data reads A x R rfl hN (by simpa [feedAll] using hA) hx
  · intro hR pre data' post A' x' R' hsplit hN' hall hx'
    cases pre with
    | nil =>
        obtain ⟨rfl, -⟩ := List.cons.inj hsplit
        rw [show (a.feedAll []).1 = a from rfl, hN] at hN'
        rw [← first_bad_unique hA hx (allDecode_append.mp hall).2 hx' hN']
        exact hR
    | cons d pre =>
        -- a later read comes after a body that does not decode
        obtain ⟨rfl, -⟩ := List.cons.inj hsplit
        have hmem : x ∈ (a.feedAll (data :: pre)).2 := by
          simp only [feedAll, hN]
          simp
        have hsome := (allDecode_append.mp hall).1 x hmem
        rw [hx] at hsome
        cases hsome

/-- The first read completes only bodies that decode: the later ones count. -/
theorem separated_of_good (hN : AllDecode (a.feed data).2.1) :
    Separated a (data :: reads) ↔ Separated (a.feed data).1 reads := by
  constructor
  · intro h pre data' post A x R hsplit hN' hall hx
    refine h (data :: pre) data' post A x R (by rw [hsplit]; rfl) hN' ?_ hx
    simp only [feedAll]
    rw [List.append_assoc]
    exact allDecode_append.mpr ⟨hN, hall⟩
  · intro h pre data' post A x R hsplit hN' hall hx
    cases pre with
    | nil =>
        obtain ⟨rfl, -⟩ := List.cons.inj hsplit
        rw [show (a.feedAll []).1 = a from rfl] at hN'
        rw [hN'] at hN
        have hsome := (allDecode_append.mp hN).2 x List.mem_cons_self
        rw [hx] at hsome
        cases hsome
    | cons d pre =>
        obtain ⟨rfl, hrest⟩ := List.cons.inj hsplit
        simp only [feedAll, List.append_assoc] at hN' hall
        exact h pre data' post A x R hrest hN' (allDecode_append.mp hall).2 hx

theorem separated_of_poisoned (hp : a.poisoned = true) : Separated a reads := by
  intro pre data post A x R _ hN
  rw [feedAll_poisoned hp] at hN
  rw [show a.feed data = (a, [], false) from if_pos hp] at hN
  exact absurd hN.symm (by simp)

end Separated

/-- **What an open connection hands on**, from the assembler `a` on. -/
theorem readAll_iff (reads : List Bytes) : ∀ a : FrameAssembler,
    (readAll ⟨a, true⟩ reads).2 = beforeFirstBad (a.feedAll reads).2 ↔ Separated a reads := by
  induction reads with
  | nil =>
      intro a
      refine ⟨fun _ pre data post A x R h => ?_, fun _ => rfl⟩
      exact absurd h (by simp)
  | cons data reads ih =>
      intro a
      have hframes : (a.feedAll (data :: reads)).2 =
          (a.feed data).2.1 ++ ((a.feed data).1.feedAll reads).2 := rfl
      simp only [readAll, onReadable_eq, hframes]
      rcases allDecode_or (a.feed data).2.1 with hN | ⟨A, x, R, hN, hA, hx⟩
      · have hnone : ((a.feed data).2.1.any fun body => (decodeMessage body).isNone) = false := by
          rw [List.any_eq_false]
          intro body hb
          rw [Option.isNone_iff_eq_none, ← Option.not_isSome_iff_eq_none, not_not]
          exact hN body hb
        rw [separated_of_good hN, beforeFirstBad_append hN, List.append_cancel_left_eq, hnone]
        cases hp : (a.feed data).1.poisoned with
        | true =>
            -- the connection is closed, and no frame is behind the bad length
            rw [readAll_closed rfl, feedAll_poisoned hp]
            exact ⟨fun _ => separated_of_poisoned hp, fun _ => rfl⟩
        | false => exact ih _
      · have hany : ((a.feed data).2.1.any fun body => (decodeMessage body).isNone) = true := by
          rw [List.any_eq_true]
          exact ⟨x, by rw [hN]; simp, by rw [hx]; rfl⟩
        rw [separated_of_bad hN hA hx, hany, Bool.not_true, Bool.and_false, readAll_closed rfl, hN,
          List.append_nil, List.append_assoc, beforeFirstBad_append hA, List.cons_append,
          beforeFirstBad_bad hx, List.filterMap_append, List.append_cancel_left_eq,
          List.filterMap_cons_none hx, List.filterMap_eq_nil_iff]

/-! ## 4. Frames behind a bad one -/

theorem feedAll_append (a : FrameAssembler) (pre : List Bytes) (data : Bytes) :
    (a.feedAll (pre ++ [data])).2 = (a.feedAll pre).2 ++ ((a.feedAll pre).1.feed data).2.1 := by
  induction pre generalizing a with
  | nil => simp [feedAll]
  | cons d pre ih => simp only [List.cons_append, feedAll, ih, List.append_assoc]

/-- The bodies that the next read completes. -/
theorem framesOf_append (pre : List Bytes) (data : Bytes) :
    framesOf (pre.flatten ++ data) =
      framesOf pre.flatten ++ ((feedAll {} pre).1.feed data).2.1 := by
  have hall := feedAll_append {} pre data
  have hpre : (feedAll {} pre).2 = framesOf pre.flatten := congrArg Prod.snd (feedAll_flatten pre)
  rw [feedAll_flatten, List.flatten_append, List.flatten_singleton, hpre] at hall
  exact hall

/-- **When a protocol error ends the traffic of a connection.** The messages handed on are those of the
    frames before the first bad one if and only if no `read` that completes the first body that does
    not decode completes a later body that does. -/
theorem protocol_error_ends_traffic_iff (reads : List Bytes) :
    (readAll {} reads).2 = beforeFirstBad (framesOf reads.flatten) ↔
      ∀ pre data post A x R, reads = pre ++ data :: post →
        framesOf (pre.flatten ++ data) = framesOf pre.flatten ++ (A ++ x :: R) →
        AllDecode (framesOf pre.flatten ++ A) → decodeMessage x = none →
        ∀ y ∈ R, decodeMessage y = none := by
  have hframes : ∀ chunks : List Bytes, (feedAll {} chunks).2 = framesOf chunks.flatten :=
    fun chunks => congrArg Prod.snd (feedAll_flatten chunks)
  have hiff := readAll_iff reads {}
  rw [hframes] at hiff
  rw [show (readAll {} reads).2 = (readAll ⟨{}, true⟩ reads).2 from rfl, hiff]
  refine forall_congr' fun pre => forall_congr' fun data => forall_congr' fun post =>
    forall_congr' fun A => forall_congr' fun x => forall_congr' fun R => imp_congr_right fun _ => ?_
  rw [framesOf_append, List.append_cancel_left_eq, hframes]

/-- A frame with a body that is no message, and one with a granted vote. -/
def badFrame : Bytes := [0, 0, 0, 1, 0]

def voteFrame : Bytes :=
  [0, 0, 0, 21, 1, 2, 1, 0, 2, 0, 0, 0, 9, 0, 0, 0, 1, 0, 0, 0, 0, 0, 0, 0, 1]

/-- **One stream, two outcomes**: the vote behind the bad frame is handed on if and only if both came
    with one `read`. -/
theorem vote_slips_through :
    beforeFirstBad (framesOf (badFrame ++ voteFrame)) = [] ∧
    (readAll {} [badFrame, voteFrame]).2 = [] ∧
    (readAll {} [badFrame ++ voteFrame]).2 =
      [⟨{ type := .requestVoteReply, from_ := 1, to_ := 2, payloadLength := 9 },
        .requestVoteReply ⟨1, true⟩⟩] := by
  decide +kernel

end Rsm.Transport
