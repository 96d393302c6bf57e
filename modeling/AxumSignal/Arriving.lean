import AxumSignal.Lib.Execution
import AxumSignal.Outgoing

/-! What the queue of a connection has accepted reaches the handler of its client in the end. -/
namespace AxumSignal

open Transition Streams LTS Filter

variable {Req Er R : Type} {decode : Message → Option Req} {codec : WsCodec Er R}
  {link : Transport} {a b c : Stream R} {s s' : Conn} {t : Traffic} {e : ConnEvent}
  {ev : StreamEvent} {E : Execution (streamSystem decode codec link)} {n k : ℕ}

/-- Nothing that has happened on a stream is undone. -/
structure Stream.Grows (a b : Stream R) : Prop where
  accepted : a.traffic.accepted <+: b.traffic.accepted
  taken : a.traffic.taken <+: b.traffic.taken
  written : a.traffic.written <+: b.traffic.written
  arrived : a.reader.arrived ≤ b.reader.arrived
  handler : b.reader.handler = a.reader.handler

theorem grows_refl (a : Stream R) : a.Grows a :=
  ⟨List.prefix_rfl, List.prefix_rfl, List.prefix_rfl, le_rfl, rfl⟩

theorem Stream.Grows.trans (h : a.Grows b) (k : b.Grows c) : a.Grows c where
  accepted := h.accepted.trans k.accepted
  taken := h.taken.trans k.taken
  written := h.written.trans k.written
  arrived := h.arrived.trans k.arrived
  handler := k.handler.trans h.handler

theorem put_taken (t : Traffic) : t.put.taken = t.taken := by
  unfold Traffic.put
  split <;> rfl

theorem note_accepted (s : Conn) (t : Traffic) (e : ConnEvent) :
    t.accepted <+: (t.note s e).accepted := by
  cases e with
  | pushed | enqueued => exact List.prefix_append _ _
  | sent => exact (put_accepted t).symm ▸ List.prefix_rfl
  | _ => exact List.prefix_rfl

theorem note_taken (s : Conn) (t : Traffic) (e : ConnEvent) : t.taken <+: (t.note s e).taken := by
  cases e with
  | take => exact List.prefix_append _ _
  | sent => exact (put_taken t).symm ▸ List.prefix_rfl
  | _ => exact List.prefix_rfl

theorem grows_step (h : StreamStep decode codec link a ev b) : a.Grows b := by
  cases h with
  | @conn e _ _ =>
    obtain ⟨more, hmore⟩ := note_written a.conn a.traffic e
    exact ⟨note_accepted _ _ _, note_taken _ _ _, ⟨more, hmore.symm⟩, le_rfl, rfl⟩
  | flushed =>
    obtain ⟨more, hmore⟩ := put_written a.traffic
    exact ⟨(put_accepted _).symm ▸ List.prefix_rfl, (put_taken _).symm ▸ List.prefix_rfl,
      ⟨more, hmore.symm⟩, le_rfl, rfl⟩
  | arrived => exact ⟨List.prefix_rfl, List.prefix_rfl, List.prefix_rfl, Nat.le_succ _, rfl⟩
  | control | readerEnded =>
    exact ⟨List.prefix_rfl, List.prefix_rfl, List.prefix_rfl, le_rfl, rfl⟩

theorem grows_from {m : ℕ} (hk : m ≤ k) : (E.state m).Grows (E.state k) := by
  refine E.kept (I := fun s => (E.state m).Grows s) ?_ (grows_refl _) hk
  intro i ev _ hl hgrows
  exact hgrows.trans (grows_step (E.moves i ev hl))

theorem faithful_from (h : (E.state 0).Fresh) (k : ℕ) : (E.state k).Faithful codec := by
  refine E.kept (I := fun s => s.Faithful codec) ?_ (faithful_fresh h) (Nat.zero_le k)
  intro i ev _ hl hs
  exact faithful_step hs (E.moves i ev hl)

theorem step_spawned (h : ConnStep decode s e s') (hs : s.writer ≠ .unspawned) :
    s'.writer ≠ .unspawned := by
  cases h with
  | registered | take | receive | sourceClosed | sent | sinkError | stopped => simp
  | _ => exact hs

theorem spawned_from (h : (E.state n).conn.writer ≠ .unspawned) (hk : n ≤ k) :
    (E.state k).conn.writer ≠ .unspawned := by
  refine E.kept (I := fun s => s.conn.writer ≠ .unspawned) ?_ h hk
  intro i ev _ hl hs
  have hstep : StreamStep decode codec link (E.state i) ev (E.state (i + 1)) := E.moves i ev hl
  generalize E.state (i + 1) = b at hstep
  cases hstep with
  | conn hconn => exact step_spawned hconn hs
  | flushed hconn => exact step_spawned hconn hs
  | arrived | control | readerEnded => exact hs

/-- The writer task and the reader task are both there. -/
structure Stream.Up (a : Stream R) : Prop where
  spawned : a.conn.writer ≠ .unspawned
  writer : a.conn.writer ≠ .exited
  reader : a.reader.running = true

theorem Stream.Up.select (h : a.Up) (hsend : a.conn.writer ≠ .sending) :
    a.conn.writer = .select := by
  cases hw : a.conn.writer with
  | select => rfl
  | unspawned => exact (h.spawned hw).elim
  | sending => exact (hsend hw).elim
  | exited => exact (h.writer hw).elim

section
variable (hup : ∀ k, n ≤ k → (E.state k).Up)
include hup

/-- The writer comes back to its `select!` after each frame. -/
theorem selects_again (hsent : E.StronglyFair (· = .conn .sent))
    (hwindow : ∃ᶠ k in atTop, 0 < (E.state k).conn.window) (hk : n ≤ k) :
    ∃ m, k ≤ m ∧ (E.state m).conn.writer = .select := by
  have hleaves : ∃ m, k ≤ m ∧ ¬ (E.state m).conn.writer = .sending := by
    refine E.leaves (P := fun s => s.conn.writer = .sending) (fun _ => 0)
      (fun _ _ _ _ _ _ => le_rfl) ?_ hsent k ?_
    · rintro a _ b hstep rfl _ hsending
      cases hstep with
      | conn hconn =>
        cases hconn with
        | sent => cases hsending
    · intro hsending i hi
      obtain ⟨m, hm, hroom⟩ := frequently_atTop.mp hwindow i
      obtain ⟨w, hw⟩ := Nat.exists_eq_succ_of_ne_zero hroom.ne'
      exact ⟨m, hm, _, _, rfl, .conn (.sent (hsending m (hi.trans hm)) hw)⟩
  obtain ⟨m, hm, hne⟩ := hleaves
  exact ⟨m, hm, (hup m (hk.trans hm)).select hne⟩

/-- The writer takes everything that the queue has accepted. -/
theorem takes_all (hfresh : (E.state 0).Fresh) (htake : E.StronglyFair (· = .conn .take))
    (hsent : E.StronglyFair (· = .conn .sent))
    (hwindow : ∃ᶠ k in atTop, 0 < (E.state k).conn.window) :
    ∃ m, n ≤ m ∧ (E.state n).traffic.accepted.length ≤ (E.state m).traffic.taken.length := by
  have hleaves : ∃ m, n ≤ m ∧
      ¬ (E.state m).traffic.taken.length < (E.state n).traffic.accepted.length := by
    refine E.leaves (P := fun s => s.traffic.taken.length < (E.state n).traffic.accepted.length)
      (fun s => (E.state n).traffic.accepted.length - s.traffic.taken.length) ?_ ?_ htake n ?_
    · intro a _ b hstep _ _
      exact Nat.sub_le_sub_left (grows_step hstep).taken.length_le _
    · rintro a _ b hstep rfl hlt _
      cases hstep with
      | conn hconn =>
        cases hconn with
        | take _ hqueue =>
          simp only [Traffic.note, hqueue, List.head?_cons, Option.toList_some,
            List.length_append, List.length_singleton]
          omega
    · intro hlt i hi
      obtain ⟨m, hm, hselect⟩ := selects_again hup hsent hwindow hi
      have hbehind := hlt m (hi.trans hm)
      have hmore := (grows_from (E := E) (hi.trans hm)).accepted.length_le
      have hqueue := congrArg List.length (faithful_from hfresh m).tracks.queue
      cases hq : (E.state m).conn.chan.queue with
      | nil =>
        simp only [hq, List.append_nil] at hqueue
        omega
      | cons msg rest => exact ⟨m, hm, _, _, rfl, .conn (.take hselect hq)⟩
  obtain ⟨m, hm, hdone⟩ := hleaves
  exact ⟨m, hm, Nat.not_lt.mp hdone⟩

/-- The writer writes everything that the queue has accepted, in this order. -/
theorem writes_all (hfresh : (E.state 0).Fresh) (htake : E.StronglyFair (· = .conn .take))
    (hsent : E.StronglyFair (· = .conn .sent))
    (hwindow : ∃ᶠ k in atTop, 0 < (E.state k).conn.window) :
    ∃ m, n ≤ m ∧ (E.state n).traffic.accepted.Sublist (E.state m).traffic.written := by
  obtain ⟨i, hi, htaken⟩ := takes_all hup hfresh htake hsent hwindow
  obtain ⟨m, hm, hselect⟩ := selects_again hup hsent hwindow hi
  have htracks := (faithful_from hfresh m).tracks
  have hlong := htaken.trans (grows_from (E := E) hm).taken.length_le
  have hprefix : (E.state n).traffic.accepted <+: (E.state m).traffic.taken :=
    List.prefix_of_prefix_length_le (grows_from (E := E) (hi.trans hm)).accepted
      ⟨_, htracks.queue.symm⟩ hlong
  rw [(htracks.settled (Or.inr hselect)).1] at hprefix
  exact ⟨m, hi.trans hm, hprefix.sublist.trans htracks.merged.left_sublist⟩

/-- The reader gets everything that has been written. -/
theorem reads_all (harrived : E.StronglyFair (· = .arrived)) (hk : n ≤ k) :
    ∃ m, k ≤ m ∧ (E.state k).traffic.written.length ≤ (E.state m).reader.arrived := by
  have hleaves : ∃ m, k ≤ m ∧
      ¬ (E.state m).reader.arrived < (E.state k).traffic.written.length := by
    refine E.leaves (P := fun s => s.reader.arrived < (E.state k).traffic.written.length)
      (fun s => (E.state k).traffic.written.length - s.reader.arrived) ?_ ?_ harrived k ?_
    · intro a _ b hstep _ _
      exact Nat.sub_le_sub_left (grows_step hstep).arrived _
    · rintro a _ b hstep rfl hlt _
      cases hstep with
      | arrived => exact Nat.sub_succ_lt_self _ _ hlt
    · intro hlt i hi
      have hmore := (hlt i hi).trans_le (grows_from (E := E) hi).written.length_le
      exact ⟨i, le_rfl, _, _, rfl,
        .arrived (hup i (hk.trans hi)).reader (List.getElem?_eq_getElem hmore)⟩
  obtain ⟨m, hm, hdone⟩ := hleaves
  exact ⟨m, hm, Nat.not_lt.mp hdone⟩

end

/-- If the writer and the reader task get their turns and the client goes on reading, the client's
handler is called with the values of all messages that the queue has accepted, in this order,
unless one of the two tasks ends before. -/
theorem accepted_arrives (hfresh : (E.state 0).Fresh) (htake : E.StronglyFair (· = .conn .take))
    (hsent : E.StronglyFair (· = .conn .sent)) (harrived : E.StronglyFair (· = .arrived))
    (hwindow : ∃ᶠ k in atTop, 0 < (E.state k).conn.window)
    (hspawned : (E.state n).conn.writer ≠ .unspawned)
    (hhandler : (E.state n).reader.handler = true) :
    ∃ m, n ≤ m ∧ ((E.state m).conn.writer = .exited ∨ (E.state m).reader.running = false ∨
      ((E.state n).traffic.accepted.filterMap codec.dataValue).Sublist
        (E.state m).reader.handled) := by
  by_cases hup : ∀ k, n ≤ k → (E.state k).Up
  · obtain ⟨i, hi, hwritten⟩ := writes_all hup hfresh htake hsent hwindow
    obtain ⟨m, hm, hread⟩ := reads_all hup harrived hi
    have hgrows := grows_from (E := E) (hi.trans hm)
    have hhandled := (faithful_from hfresh m).follows (hgrows.handler.trans hhandler)
    have hprefix : (E.state i).traffic.written <+:
        (E.state m).traffic.written.take (E.state m).reader.arrived :=
      List.prefix_take_iff.mpr ⟨(grows_from (E := E) hm).written, hread⟩
    refine ⟨m, hi.trans hm, Or.inr (Or.inr ?_)⟩
    rw [hhandled]
    exact (hwritten.trans hprefix.sublist).filterMap _
  · simp only [not_forall] at hup
    obtain ⟨m, hm, hdown⟩ := hup
    have hstill := spawned_from hspawned hm
    by_cases hexited : (E.state m).conn.writer = .exited
    · exact ⟨m, hm, Or.inl hexited⟩
    · have hended : (E.state m).reader.running ≠ true := fun hrun =>
        hdown ⟨hstill, hexited, hrun⟩
      exact ⟨m, hm, Or.inr (Or.inl (by simpa using hended))⟩

/-- One message, which is in the queue at the moment 2. -/
theorem accepted_arrives_one : ∃ E : Execution (streamSystem (fun _ => (none : Option Unit))
    (jsonCodec boolJson) .plain), (E.state 2).traffic.accepted = [.text "true"] ∧
      ∃ m, 2 ≤ m ∧ ((E.state m).conn.writer = .exited ∨ (E.state m).reader.running = false ∨
        List.Sublist [true] (E.state m).reader.handled) := by
  have hruns : ∃ s t, (streamSystem (fun _ => (none : Option Unit)) (jsonCodec boolJson) .plain).Run
        (.start 32 2 true) [.conn .registered, .conn (.pushed (.text "true"))] s ∧
      (streamSystem (fun _ => (none : Option Unit)) (jsonCodec boolJson) .plain).Run
        s [.conn .take, .conn .sent, .arrived] t ∧
      s.traffic.accepted = [.text "true"] ∧ s.conn.writer = .select ∧ s.reader.handler = true ∧
      t.conn.writer = .select ∧ t.conn.chan.queue = [] ∧ t.conn.window = 1 ∧
      t.traffic.written[t.reader.arrived]? = none :=
    ⟨_, _, .step (.conn (.registered rfl)) <| .single (.conn (.pushed _ rfl (by decide))),
      .step (.conn (.take rfl rfl)) <| .step (.conn (.sent rfl rfl)) <| .single (.arrived rfl rfl),
      rfl, rfl, rfl, rfl, rfl, rfl, rfl⟩
  obtain ⟨s, t, hrun, hrest, haccepted, hspawned, hhandler, hwriter, hqueue, hwindow, hread⟩ :=
    hruns
  obtain ⟨F, rfl, -, hend⟩ := Execution.exists_of_run hrest
  obtain ⟨E, h0, hstate, -⟩ := F.exists_prepend hrun
  have hmid : E.state 2 = F.state 0 := hstate 0
  have hlast : ∀ k, 5 ≤ k → E.state k = t := by
    intro k hk
    obtain ⟨i, rfl⟩ := Nat.exists_eq_add_of_le hk
    have hlate : E.state (5 + i) = F.state (3 + i) := by
      rw [← hstate, ← Nat.add_assoc]
      rfl
    exact hlate.trans (hend _ (Nat.le_add_right 3 i))
  have htake : E.StronglyFair (· = .conn .take) := by
    refine E.fair_of_rest hlast ?_
    rintro ⟨_, b, rfl, hstep⟩
    cases hstep with
    | conn hconn =>
      cases hconn with
      | take _ hq => simp [hqueue] at hq
  have hsent : E.StronglyFair (· = .conn .sent) := by
    refine E.fair_of_rest hlast ?_
    rintro ⟨_, b, rfl, hstep⟩
    cases hstep with
    | conn hconn =>
      cases hconn with
      | sent hpos => simp [hwriter] at hpos
  have harrived : E.StronglyFair (· = .arrived) := by
    refine E.fair_of_rest hlast ?_
    rintro ⟨_, b, rfl, hstep⟩
    cases hstep with
    | arrived _ hnext => simp [hread] at hnext
  have hopen : ∃ᶠ k in atTop, 0 < (E.state k).conn.window := by
    refine frequently_atTop.mpr fun k => ⟨max 5 k, le_max_right 5 k, ?_⟩
    rw [hlast _ (le_max_left 5 k), hwindow]
    exact Nat.one_pos
  obtain ⟨m, hm, hdone⟩ := accepted_arrives (n := 2) (h0 ▸ start_stream_fresh 32 2 true) htake
    hsent harrived hopen (by simp [hmid, hspawned]) (hmid ▸ hhandler)
  rw [hmid, haccepted] at hdone
  exact ⟨E, hmid ▸ haccepted, m, hm, hdone⟩

end AxumSignal
