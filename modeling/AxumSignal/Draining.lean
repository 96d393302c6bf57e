import AxumSignal.Cancellation

/-! Whether a connection that is not cancelled has a task that drains its queue. The writer
also leaves its loop for two reasons of its own, and cancels nothing then. -/
namespace AxumSignal

open Transition LTS

variable {Req : Type} {decode : Message → Option Req} {s t : Conn} {e : ConnEvent}
  {xs : List ConnEvent}

/-- An exited writer means a cancelled token, so as long as the token is not cancelled a
connection that has been served at all has a writer. -/
structure Conn.Drained (s : Conn) : Prop where
  cancelled : s.writer = .exited → s.cancelled = true
  served : s.main ≠ .registering → s.cancelled = false → s.writer = .select ∨ s.writer = .sending

/-- The writer leaves its loop over a failed `sink.send` or a closed broadcast channel. -/
def ConnEvent.EndsWriter : ConnEvent → Prop
  | .sinkError | .sourceClosed => True
  | _ => False

/-- The writer ends by itself while the token is not cancelled. -/
def Conn.Abandons (s : Conn) (e : ConnEvent) : Prop := e.EndsWriter ∧ s.cancelled = false

theorem drained_fresh (h : s.Fresh) : s.Drained := by
  obtain ⟨hmain, hwriter, _⟩ := h
  exact ⟨fun hexit => by simp [hwriter] at hexit, fun hserved => (hserved hmain).elim⟩

theorem Conn.Wired.drained (hs : s.Wired) (h : s.writer = .exited → s.cancelled = true) :
    s.Drained where
  cancelled := h
  served hserved hopen := by
    have hspawned := hs.spawned.resolve_left hserved
    cases hw : s.writer with
    | unspawned => exact (hspawned hw).elim
    | select => exact Or.inl rfl
    | sending => exact Or.inr rfl
    | exited =>
      have hcancel := h hw
      simp [hopen] at hcancel

/-- The step lemma, in both directions. -/
theorem drained_step_iff (hw : s.Wired) (hs : s.Drained) (h : ConnStep decode s e t) :
    t.Drained ↔ ¬ s.Abandons e := by
  have hw' := wired_step hw h
  have hexit := hs.cancelled
  have hlive : (t.writer = .exited → t.cancelled = true) → (t.Drained ↔ True) :=
    fun ht => iff_true_intro (hw'.drained ht)
  have hends : s.writer ≠ .exited → t.writer = .exited → t.cancelled = s.cancelled →
      (t.Drained ↔ ¬ s.cancelled = false) := by
    intro _ hgone hsame
    rw [← hsame, Bool.not_eq_false]
    exact ⟨fun ht => ht.cancelled hgone, fun ht => hw'.drained fun _ => ht⟩
  cases h with
  | sourceClosed hpos | sinkError hpos =>
    simpa [Conn.Abandons, ConnEvent.EndsWriter] using hends (by simp [hpos]) rfl rfl
  | stopped hpos hcancel =>
    simpa [Conn.Abandons, ConnEvent.EndsWriter] using hlive fun _ => hcancel
  | closed | cancelled =>
    simpa [Conn.Abandons, ConnEvent.EndsWriter] using hlive fun _ => rfl
  | registered | take | receive | sent =>
    simpa [Conn.Abandons, ConnEvent.EndsWriter] using hlive fun hgone => by simp at hgone
  | _ => simpa [Conn.Abandons, ConnEvent.EndsWriter] using hlive hexit

/-- In all states of a run an exited writer means a cancelled token, exactly if in no step of
the run the writer ends by itself before the token is cancelled. -/
theorem drained_iff (h : s.Fresh) :
    ((connSystem decode).restrict fun _ _ t => t.Drained).Run s xs t ↔
      ((connSystem decode).restrict fun s e _ => ¬ s.Abandons e).Run s xs t := by
  refine run_restrict_congr (I := fun s => s.Wired ∧ s.Drained) ?_ ?_
    ⟨wired_fresh h, drained_fresh h⟩
  · rintro s e t hstep ⟨hw, hs⟩
    exact drained_step_iff hw hs hstep
  · rintro s e t ⟨hstep, ht⟩ ⟨hw, _⟩
    exact ⟨wired_step hw hstep, ht⟩

/-- A connection that is served, cancelled by an eviction and left by its writer. -/
theorem drained_evicted : ∃ t, ((connSystem fun _ => (none : Option Unit)).restrict
      fun _ _ t => t.Drained).Run (.start 32 1) [.registered, .connected, .cancelled, .stopped] t ∧
    t.writer = .exited := by
  have hrun : ((connSystem fun _ => (none : Option Unit)).restrict
      fun s e _ => ¬ s.Abandons e).Run (.start 32 1) [.registered, .connected, .cancelled, .stopped]
      _ :=
    .step ⟨.registered rfl, fun h => h.1⟩ <| .step ⟨.connected rfl, fun h => h.1⟩ <|
    .step ⟨.cancelled, fun h => h.1⟩ <| .single ⟨.stopped rfl rfl, fun h => h.1⟩
  exact ⟨_, (drained_iff (start_fresh 32 1)).mpr hrun, rfl⟩

/-- The writer fails to send one message and is gone; the read loop goes on handling frames
of a connection whose queue nobody drains. -/
theorem failed_writer_not_drained : ∃ s : Conn,
    (connSystem fun _ => some ()).Reachable Conn.Fresh s ∧ s.main = .reading .select ∧
      s.writer = .exited ∧ s.cancelled = false ∧ ¬ s.Drained := by
  refine ⟨_, ⟨.start 32 1, start_fresh _ _, _,
    .step (.registered rfl) <| .step (.connected rfl) <|
    .step (.pushed (.text "news") rfl (by decide)) <| .step (.take rfl rfl) <|
    .step (.sinkError rfl) <| .single (.frame (.text "hello") rfl)⟩, rfl, rfl, rfl, ?_⟩
  intro h
  exact absurd (h.cancelled rfl) (by decide)

end AxumSignal
