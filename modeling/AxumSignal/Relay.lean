import AxumSignal.Delivery
import AxumSignal.ReadLoop

/-! A hub whose `on_message` broadcasts each message to everyone: the handlers that the frames
of one client spawn, among any other calls on the store. -/
namespace AxumSignal

open Transition Calls

variable {Req : Type}

/-- The handlers of the client's frames, in the order of the frames, and all other tasks. -/
inductive RelayTask where
  | handler (n : Nat)
  | other (n : Nat)
  deriving DecidableEq

/-- `reqs` are the requests of the client's frames so far; `begun n` says that the `n`-th
handler has been polled or dropped. -/
structure Relay (Req : Type) where
  calls : Calls RelayTask
  reqs : List Req
  begun : Nat → Bool

inductive RelayLabel where
  | frame (raw : Message)
  | start (n : Nat)
  | store (l : CallLabel RelayTask)
  | drop (n : Nat)

/-- A step of the read loop of the client, of one of its handlers, or of another task. A
handler is dropped only after its token was cancelled, before its first poll or where it is
suspended. -/
inductive RelayStep (decode : Message → Option Req) (encode : Req → Option Message)
    (token : CancelToken) : Relay Req → RelayLabel → Relay Req → Prop where
  | frame {s : Relay Req} {req : Req} (raw : Message) (hraw : handleFrame decode raw = .spawn req) :
      RelayStep decode encode token s (.frame raw) { s with reqs := s.reqs ++ [req] }
  | start {s : Relay Req} {n : Nat} {req : Req} (hreq : s.reqs[n]? = some req)
      (hnew : s.begun n = false) (hidle : s.calls.pc (.handler n) = .idle) :
      RelayStep decode encode token s (.start n)
        { s with
          calls := s.calls.goto (.handler n) s.calls.shared
            (Op.broadcastExcept [] (encode req)).start
          begun := Function.update s.begun n true }
  | store {s : Relay Req} {l : CallLabel RelayTask} {c : Calls RelayTask}
      (hcall : ∀ n op, l ≠ .call (.handler n) op) (habort : ∀ n, l ≠ .abort (.handler n))
      (h : CallStep s.calls l c) :
      RelayStep decode encode token s (.store l) { s with calls := c }
  | drop {s : Relay Req} {n : Nat} (hcancel : s.calls.shared.cancelled token = true)
      (hpos : s.begun n = false ∧ s.calls.pc (.handler n) = .idle ∨
        ∃ r, s.calls.pc (.handler n) = .wait r) :
      RelayStep decode encode token s (.drop n)
        { s with
          calls := s.calls.goto (.handler n) s.calls.shared .idle
          begun := Function.update s.begun n true }

/-- The system of one client's handlers and all other tasks. -/
def relaySystem (decode : Message → Option Req) (encode : Req → Option Message)
    (token : CancelToken) : LTS (Relay Req) RelayLabel := ⟨RelayStep decode encode token⟩

/-- An empty store under `Block`, before the first frame. -/
def Relay.Fresh (s : Relay Req) : Prop :=
  s.calls.Fresh ∧ s.calls.shared.clients.policy = .block ∧ s.reqs = [] ∧ ∀ n, s.begun n = false

/-- The label enqueues a message of the `n`-th handler for the registration `h`. -/
def RelayLabel.enters (h : Handle) : RelayLabel → Option (Nat × Message)
  | .store (.exec (.handler n) (.enqueue (.recipient k d))) =>
    if k = h then some (n, d.msg) else none
  | _ => none

/-- What the handlers have enqueued for `h`, with the number of each handler. -/
def entered (h : Handle) (xs : List RelayLabel) : List (Nat × Message) :=
  xs.filterMap (·.enters h)

/-- The messages that entered the queue of `h` are messages of the client, each once and in
the order in which the client sent them. -/
def Relay.InOrder (encode : Req → Option Message) (s : Relay Req) (xs : List RelayLabel)
    (h : Handle) : Prop :=
  ((entered h xs).map Prod.fst).Pairwise (· < ·) ∧
    ∀ p ∈ entered h xs, (s.reqs[p.1]?).bind encode = some p.2

/-- The call may still enqueue something for `h`. -/
def Pc.Ahead (h : Handle) : Pc → Prop
  | .iter _ _ | .scan _ _ _ _ _ => True
  | pc => ∃ d, pc.carries = some d ∧ h ∈ d.rest

/-- The `n`-th handler has still to deal with `h`. -/
def Relay.Pending (s : Relay Req) (n : Nat) (h : Handle) : Prop :=
  s.begun n = false ∨ (s.calls.pc (.handler n)).Ahead h

/-- The step lets a handler enqueue its message for a registration that an earlier handler of
the client has still to deal with. -/
def Relay.Overtakes (s : Relay Req) (l : RelayLabel) : Prop :=
  ∃ n h d, l = .store (.exec (.handler n) (.enqueue (.recipient h d))) ∧ ∃ m < n, s.Pending m h

/-- The call broadcasts `msg`, or is over. -/
def Pc.Relays (msg : Message) : Pc → Prop
  | .idle => True
  | .iter _ m | .scan _ m _ _ _ => m = msg
  | pc => ∃ d, pc.carries = some d ∧ d.msg = msg

variable {decode : Message → Option Req} {encode : Req → Option Message} {token : CancelToken}
  {s t : Relay Req} {l : RelayLabel} {xs : List RelayLabel} {sh sh' : Shared} {pc pc' : Pc}
  {e : Event} {d : Delivery} {h k : Handle} {msg : Message} {m n : Nat}

theorem relays_of_carries (hc : pc.carries = some d) (hmsg : d.msg = msg) : pc.Relays msg := by
  cases pc <;> first | exact ⟨d, hc, hmsg⟩ | simp [Pc.carries] at hc

theorem ahead_of_carries (hc : pc.carries = some d) : pc.Ahead h ↔ h ∈ d.rest := by
  have hiff : (∃ d', pc.carries = some d' ∧ h ∈ d'.rest) ↔ h ∈ d.rest := by simp [hc]
  cases pc <;> first | exact hiff | simp [Pc.carries] at hc

theorem not_ahead_idle : ¬ Pc.idle.Ahead h := by
  rintro ⟨d, hc, -⟩
  simp [Pc.carries] at hc

theorem relays_start (req : Option Message) (hmsg : ∀ m ∈ req, m = msg) :
    (Op.broadcastExcept [] req).start.Relays msg := by
  cases req with
  | none => trivial
  | some m => exact hmsg m rfl

/-- What an access of a handler's broadcast leaves: a broadcast of the same message, with
nothing new ahead. -/
theorem exec_relays (hx : Exec sh pc e sh' pc') (hr : pc.Relays msg)
    (hp : pc.Plain sh.clients.policy) : pc'.Relays msg ∧ ∀ h, pc'.Ahead h → pc.Ahead h := by
  have hcarried : ∀ d, pc.carries = some d → d.msg = msg →
      pc'.Relays msg ∧ ∀ h, pc'.Ahead h → pc.Ahead h := by
    intro d hc hmsg
    cases exec_carries hx hc hp with
    | returned hpc | panicked hpc =>
      subst hpc
      exact ⟨trivial, fun h ha => (not_ahead_idle ha).elim⟩
    | keeps hc' =>
      refine ⟨relays_of_carries hc' hmsg, fun h ha => ?_⟩
      rw [ahead_of_carries hc'] at ha
      exact (ahead_of_carries hc).mpr ha
    | serves hd hc' | skips hd hc' =>
      refine ⟨relays_of_carries hc' hmsg, fun h ha => ?_⟩
      rw [ahead_of_carries hc'] at ha
      rw [ahead_of_carries hc, hd]
      exact List.mem_cons_of_mem _ ha
  cases pc with
  | idle => cases hx
  | iter =>
    cases hx with
    | iter => exact ⟨hr, fun _ _ => trivial⟩
  | scan =>
    cases hx with
    | scan => exact ⟨hr, fun _ _ => trivial⟩
    | scanned => exact ⟨⟨_, rfl, hr⟩, fun _ _ => trivial⟩
  | _ =>
    obtain ⟨d, hc, hmsg⟩ := hr
    exact hcarried d hc hmsg

/-- An enqueue of a broadcast: the recipient was ahead, and is not any more. -/
theorem exec_enqueue (hx : Exec sh pc (.enqueue (.recipient h d)) sh' pc')
    (hcol : pc.Collected sh.clients) (hr : pc.Relays msg) :
    d.msg = msg ∧ pc.Ahead h ∧ ¬ pc'.Ahead h := by
  have hpos : pc.carries = some { d with rest := h :: d.rest } ∧
      pc' = Receiver.accepted sh.clients.policy (.recipient h d) ∧
      Snapshot sh.clients (h :: d.rest) := by
    cases hx with
    | accept | resume => exact ⟨rfl, rfl, hcol⟩
  obtain ⟨hc, rfl, hsnap⟩ := hpos
  have hmsg : d.msg = msg := by
    cases hx with
    | accept | resume =>
      obtain ⟨d', hc', hmsg⟩ := hr
      obtain rfl := Option.some.inj hc'
      exact hmsg
  refine ⟨hmsg, (ahead_of_carries hc).mpr List.mem_cons_self, ?_⟩
  rw [ahead_of_carries (carries_accepted _ _ _)]
  exact (List.nodup_cons.mp hsnap.nodup).1

/-- What is known of the handlers in a state of a run. -/
structure Relay.Sound (encode : Req → Option Message) (s : Relay Req) : Prop where
  reached : (callSystem RelayTask).Reachable Calls.Fresh s.calls
  plain : ∀ n, (s.calls.pc (.handler n)).Plain s.calls.shared.clients.policy
  unbegun : ∀ n, s.begun n = false → s.calls.pc (.handler n) = .idle
  relays : ∀ n, s.calls.pc (.handler n) = .idle ∨ ∃ msg, (s.reqs[n]?).bind encode = some msg ∧
    (s.calls.pc (.handler n)).Relays msg

/-- What a step of the store does to a handler: nothing, unless it is an access of its own. -/
theorem store_handler {c c' : Calls RelayTask} {l : CallLabel RelayTask}
    (hcall : ∀ n op, l ≠ .call (.handler n) op) (habort : ∀ n, l ≠ .abort (.handler n))
    (h : CallStep c l c') (n : Nat) : c'.pc (.handler n) = c.pc (.handler n) ∨
      ∃ e, l = .exec (.handler n) e ∧
        Exec c.shared (c.pc (.handler n)) e c'.shared (c'.pc (.handler n)) := by
  cases step_turn h (.handler n) with
  | other _ hpc => exact Or.inl hpc
  | call => exact (hcall n _ rfl).elim
  | exec _ hx => exact Or.inr ⟨_, rfl, by simpa using hx⟩
  | abort => exact (habort n rfl).elim

theorem fresh_sound (h : s.Fresh) : s.Sound encode := by
  obtain ⟨hcalls, -, -, -⟩ := h
  have hidle : ∀ n, s.calls.pc (.handler n) = .idle := fun n => hcalls.2 _
  exact ⟨⟨s.calls, hcalls, [], .refl⟩, fun n _ _ _ => by simp [hidle n], fun n _ => hidle n,
    fun n => Or.inl (hidle n)⟩

theorem sent_append {reqs : List Req} (h : (reqs[n]?).bind encode = some msg) (req : Req) :
    ((reqs ++ [req])[n]?).bind encode = some msg := by
  obtain ⟨r, hr, hmsg⟩ := Option.bind_eq_some_iff.mp h
  have hlt := (List.getElem?_eq_some_iff.mp hr).1
  rw [List.getElem?_append_left hlt, hr]
  exact hmsg

/-- The position of one handler is replaced by one that broadcasts its message. -/
theorem sound_goto (hs : s.Sound encode) {pc : Pc}
    (hreach : (callSystem RelayTask).Reachable Calls.Fresh
      (s.calls.goto (.handler n) s.calls.shared pc))
    (hplain : ∀ h d, pc ≠ .drop h d)
    (hrelays : pc = .idle ∨ ∃ msg, (s.reqs[n]?).bind encode = some msg ∧ pc.Relays msg) :
    Relay.Sound encode { s with
      calls := s.calls.goto (.handler n) s.calls.shared pc
      begun := Function.update s.begun n true } := by
  have hother {m : Nat} (hne : m ≠ n) :
      (s.calls.goto (.handler n) s.calls.shared pc).pc (.handler m) = s.calls.pc (.handler m) :=
    s.calls.goto_pc_ne (by simpa using hne) _ _
  refine ⟨hreach, fun m => ?_, fun m hm => ?_, fun m => ?_⟩
  · by_cases hne : m = n
    · subst hne
      simp only [goto_pc]
      exact fun _ => hplain
    · simp only [hother hne]
      exact hs.plain m
  · have hne : m ≠ n := by
      rintro rfl
      simp at hm
    simp only [hother hne]
    exact hs.unbegun m (by simpa [hne] using hm)
  · by_cases hne : m = n
    · subst hne
      simpa only [goto_pc] using hrelays
    · simpa only [hother hne] using hs.relays m

theorem relay_sound_step (hs : s.Sound encode) (hstep : RelayStep decode encode token s l t) :
    t.Sound encode := by
  cases hstep with
  | @frame req raw hraw =>
    refine ⟨hs.reached, hs.plain, hs.unbegun, fun n => (hs.relays n).imp_right ?_⟩
    rintro ⟨msg, hmsg, hrel⟩
    exact ⟨msg, sent_append hmsg req, hrel⟩
  | @start n req hreq hnew hidle =>
    have hcall : CallStep s.calls (.call (.handler n) (.broadcastExcept [] (encode req))) _ :=
      .call _ hidle
    refine sound_goto hs (hs.reached.extend (.single hcall)) ?_ ?_
    · cases encode req <;> simp [Op.start]
    · cases hmsg : encode req with
      | none => exact Or.inl rfl
      | some msg => exact Or.inr ⟨msg, by simp [hreq, hmsg], relays_start _ (by simp)⟩
  | @store l c hcall habort hcstep =>
    have hpol := (step_persists hcstep).policy
    have hpos := store_handler hcall habort hcstep
    refine ⟨hs.reached.extend (.single hcstep), fun n => ?_, fun n hn => ?_, fun n => ?_⟩
    · rcases hpos n with hpc | ⟨e, -, hx⟩
      · simpa only [hpc, hpol] using hs.plain n
      · simpa only [hpol] using exec_plain hx (hs.plain n)
    · rcases hpos n with hpc | ⟨e, -, hx⟩
      · exact hpc.trans (hs.unbegun n hn)
      · rw [hs.unbegun n hn] at hx
        cases hx
    · rcases hpos n with hpc | ⟨e, -, hx⟩
      · simpa only [hpc] using hs.relays n
      · rcases hs.relays n with hidle | ⟨msg, hmsg, hrel⟩
        · rw [hidle] at hx
          cases hx
        · exact Or.inr ⟨msg, hmsg, (exec_relays hx hrel (hs.plain n)).1⟩
  | @drop n hcancel hpos =>
    have hreach : (callSystem RelayTask).Reachable Calls.Fresh
        (s.calls.goto (.handler n) s.calls.shared .idle) := by
      rcases hpos with ⟨-, hidle⟩ | ⟨r, hwait⟩
      · have hsame : s.calls.goto (.handler n) s.calls.shared .idle = s.calls := by
          simp [Calls.goto, ← hidle]
        rw [hsame]
        exact hs.reached
      · exact hs.reached.extend (.single (CallStep.abort hwait))
    exact sound_goto hs hreach (by simp) (Or.inl rfl)

/-- No step puts a registration ahead of a handler again. -/
theorem pending_step (hs : s.Sound encode) (hstep : RelayStep decode encode token s l t)
    (hp : t.Pending m h) : s.Pending m h := by
  cases hstep with
  | frame => exact hp
  | @start n req hreq hnew hidle =>
    by_cases hne : m = n
    · exact Or.inl (hne ▸ hnew)
    · simpa [Relay.Pending, hne, Calls.goto] using hp
  | @store l c hcall habort hcstep =>
    refine hp.imp_right fun ha => ?_
    rcases store_handler hcall habort hcstep m with hpc | ⟨e, -, hx⟩
    · simpa only [hpc] using ha
    · rcases hs.relays m with hidle | ⟨msg, -, hrel⟩
      · rw [hidle] at hx
        cases hx
      · exact (exec_relays hx hrel (hs.plain m)).2 h ha
  | @drop n hcancel hpos =>
    by_cases hne : m = n
    · subst hne
      rcases hp with hb | ha
      · simp at hb
      · simp only [goto_pc] at ha
        exact (not_ahead_idle ha).elim
    · simpa [Relay.Pending, hne, Calls.goto] using hp

theorem entered_append (xs ys : List RelayLabel) :
    entered h (xs ++ ys) = entered h xs ++ entered h ys := List.filterMap_append

theorem entered_snoc : entered h (xs ++ [l]) = entered h xs ++ (l.enters h).toList := by
  cases hl : l.enters h <;> simp [entered, hl]

/-- The messages of a registration are in order so far, and no handler up to the last of them
has still to deal with it. -/
structure Relay.Passed (encode : Req → Option Message) (s : Relay Req) (xs : List RelayLabel)
    (h : Handle) : Prop where
  inOrder : s.InOrder encode xs h
  done : ∀ p ∈ entered h xs, ∀ m ≤ p.1, ¬ s.Pending m h

theorem passed_quiet (hs : s.Sound encode) (hp : s.Passed encode xs h)
    (hstep : RelayStep decode encode token s l t) (hquiet : l.enters h = none) :
    t.Passed encode (xs ++ [l]) h := by
  have hsame : entered h (xs ++ [l]) = entered h xs := by simp [entered_snoc, hquiet]
  refine ⟨⟨hsame ▸ hp.inOrder.1, fun p hin => ?_⟩, fun p hin m hm hpend => ?_⟩
  · rw [hsame] at hin
    have hsent := hp.inOrder.2 p hin
    cases hstep with
    | frame => exact sent_append hsent _
    | _ => exact hsent
  · rw [hsame] at hin
    exact hp.done p hin m hm (pending_step hs hstep hpend)

theorem enters_some {p : Nat × Message} (hl : l.enters h = some p) :
    ∃ d, l = .store (.exec (.handler p.1) (.enqueue (.recipient h d))) ∧ p.2 = d.msg := by
  unfold RelayLabel.enters at hl
  split at hl
  · next n k d =>
    split at hl
    · next hk =>
      obtain rfl := Option.some.inj hl
      exact ⟨d, by rw [hk], rfl⟩
    · simp at hl
  · simp at hl

theorem passed_enters (hs : s.Sound encode) (hp : s.Passed encode xs h)
    (hstep : RelayStep decode encode token s l t) (hcond : ¬ s.Overtakes l)
    {p : Nat × Message} (hl : l.enters h = some p) : t.Passed encode (xs ++ [l]) h := by
  obtain ⟨n, msg⟩ := p
  obtain ⟨d, rfl, hd⟩ := enters_some hl
  have hkeep {m : Nat} := pending_step (m := m) (h := h) hs hstep
  cases hstep with
  | store hcall habort hcstep =>
    cases hcstep with
    | @exec _ _ sh pc hfree hx =>
      obtain ⟨msg', hsent, hrel⟩ : ∃ msg', (s.reqs[n]?).bind encode = some msg' ∧
          (s.calls.pc (.handler n)).Relays msg' := by
        refine (hs.relays n).resolve_left fun hidle => ?_
        rw [hidle] at hx
        cases hx
      obtain ⟨hmsg, hahead, hpast⟩ := exec_enqueue hx (allCollected_reachable hs.reached _) hrel
      have hbegun : s.begun n ≠ false := by
        intro hb
        rw [hs.unbegun n hb] at hx
        cases hx
      have hlast : ∀ q ∈ entered h xs, q.1 < n := by
        intro q hq
        by_contra hle
        exact hp.done q hq n (by omega) (Or.inr hahead)
      have hsnoc : entered h (xs ++ [.store (.exec (.handler n) (.enqueue (.recipient h d)))]) =
          entered h xs ++ [(n, msg)] := by
        rw [entered_snoc, hl, Option.toList_some]
      refine ⟨⟨?_, ?_⟩, ?_⟩
      · rw [hsnoc, List.map_append, List.pairwise_append]
        refine ⟨hp.inOrder.1, List.pairwise_singleton _ _, ?_⟩
        intro a ha b hb
        obtain ⟨q, hq, rfl⟩ := List.mem_map.mp ha
        obtain rfl : b = n := by simpa using hb
        exact hlast q hq
      · intro q hq
        rw [hsnoc, List.mem_append, List.mem_singleton] at hq
        rcases hq with hq | rfl
        · exact hp.inOrder.2 q hq
        · rw [hsent, hd, hmsg]
      · intro q hq m hm hpend
        rw [hsnoc, List.mem_append, List.mem_singleton] at hq
        rcases hq with hq | rfl
        · exact hp.done q hq m hm (hkeep hpend)
        · rcases Nat.lt_or_eq_of_le hm with hlt | rfl
          · exact hcond ⟨n, h, d, rfl, m, hlt, hkeep hpend⟩
          · rcases hpend with hb | ha
            · exact hbegun hb
            · simp only [goto_pc] at ha
              exact hpast ha

theorem passed_step (hs : s.Sound encode) (hp : s.Passed encode xs h)
    (hstep : RelayStep decode encode token s l t) (hcond : ¬ s.Overtakes l) :
    t.Passed encode (xs ++ [l]) h := by
  cases hl : l.enters h with
  | none => exact passed_quiet hs hp hstep hl
  | some p => exact passed_enters hs hp hstep hcond hl

/-- As long as no handler overtakes an earlier one at a connection, the messages of the client
enter the queue of every registration in the order in which it sent them. -/
theorem inOrder_of_noOvertaking {s₀ : Relay Req} (h0 : s₀.Fresh)
    (hrun : ((relaySystem decode encode token).restrict fun s l _ => ¬ s.Overtakes l).Run s₀ xs s)
    (h : Handle) : s.InOrder encode xs h := by
  have hempty : s₀.Passed encode [] h :=
    ⟨⟨List.Pairwise.nil, by simp [entered]⟩, by simp [entered]⟩
  have hall := hrun.history (H := fun ys u => u.Sound encode ∧ u.Passed encode ys h)
    ⟨fresh_sound h0, hempty⟩ ?_
  · exact hall.2.inOrder
  · rintro ys u l w ⟨hstep, hcond⟩ ⟨hu, hp⟩
    exact ⟨relay_sound_step hu hstep, passed_step hu hp hstep hcond⟩

/-- Once a handler has overtaken an earlier one at a registration, the earlier one's message
breaks the order there. -/
theorem overtaken_breaks {p : Nat × Message} (hp : p ∈ entered h xs) (hlt : m < p.1)
    (hl : l.enters h = some (m, msg)) : ¬ t.InOrder encode (xs ++ [l]) h := by
  rintro ⟨hsorted, -⟩
  rw [entered_snoc, hl, Option.toList_some, List.map_append, List.pairwise_append] at hsorted
  have hlater : p.1 < m := hsorted.2.2 p.1 (List.mem_map_of_mem hp) m (by simp)
  omega

/-- A store with room for 32 messages in each queue, and no task at work. -/
def Relay.start : Relay Req where
  calls := ⟨⟨.new .block fun _ => 0, fun _ => ⟨32, [], false⟩, fun _ => false⟩, fun _ => .idle⟩
  reqs := []
  begun _ := false

theorem relay_start_fresh : (Relay.start : Relay Req).Fresh :=
  ⟨⟨⟨.block, _, rfl⟩, fun _ => rfl⟩, rfl, rfl, fun _ => rfl⟩

/-- The state after the `n`-th handler has moved to `pc`. -/
def Relay.moved (s : Relay Req) (n : Nat) (sh : Shared) (pc : Pc) : Relay Req :=
  { s with calls := s.calls.goto (.handler n) sh pc, begun := Function.update s.begun n true }

@[simp] theorem moved_moved (s : Relay Req) (n : Nat) (sh sh' : Shared) (pc pc' : Pc) :
    (s.moved n sh pc).moved n sh' pc' = s.moved n sh' pc' := by
  simp [Relay.moved, Calls.goto]

theorem moved_exec (hfree : ∀ group, pc.exclusive ≠ some group)
    (hx : Exec sh pc e sh' pc') : RelayStep decode encode token (s.moved n sh pc)
      (.store (.exec (.handler n) e)) (s.moved n sh' pc') := by
  have hpc : (s.moved n sh pc).calls.pc (.handler n) = pc := s.calls.goto_pc _ _ _
  have hgrant : (s.moved n sh pc).calls.Granted (.handler n) := by
    intro group hgroup
    rw [hpc] at hgroup
    exact (hfree group hgroup).elim
  have hx' : Exec (s.moved n sh pc).calls.shared ((s.moved n sh pc).calls.pc (.handler n)) e sh'
      pc' := by
    rw [hpc]
    exact hx
  have hstep : RelayStep decode encode token (s.moved n sh pc) (.store (.exec (.handler n) e))
      { s.moved n sh pc with calls := (s.moved n sh pc).calls.goto (.handler n) sh' pc' } :=
    .store (by simp) (by simp) (.exec hgrant hx')
  simpa [Relay.moved, Calls.goto] using hstep

/-- Steps that enqueue nothing. -/
def Quiet (_ : Relay Req) (l : RelayLabel) (_ : Relay Req) : Prop := ∀ h, l.enters h = none

theorem Quiet.noOvertaking (hquiet : Quiet s l t) : ¬ s.Overtakes l := by
  rintro ⟨n, h, d, rfl, -⟩
  simpa [RelayLabel.enters] using hquiet h

theorem entered_quiet (hrun : ((relaySystem decode encode token).restrict Quiet).Run s xs t) :
    entered h xs = [] := by
  induction hrun with
  | refl => rfl
  | step hs _ ih => simpa [entered, hs.2 h] using ih

/-- A handler alone, with one connection registered, up to its `sender.send`. -/
theorem moved_to_send {req : Req} {c : ConnId} (hreq : s.reqs[n]? = some req)
    (hmsg : encode req = some msg) (hnew : s.begun n = false)
    (hidle : s.calls.pc (.handler n) = .idle) (hpol : s.calls.shared.clients.policy = .block)
    (hl : s.calls.shared.clients.connections.lookup c = some h)
    (hkeys : ∀ id, id ∈ s.calls.shared.clients.connections.keys ↔ id = c) :
    ∃ xs, ((relaySystem decode encode token).restrict Quiet).Run s xs
      (s.moved n s.calls.shared (.send (.recipient h ⟨none, msg, []⟩))) := by
  let layout : Layout := ⟨1, fun _ => 0⟩
  let sh := s.calls.shared
  have hstart : RelayStep decode encode token s (.start n) (s.moved n sh (.iter [] msg)) := by
    have hstep : RelayStep decode encode token s (.start n) _ := .start hreq hnew hidle
    rwa [hmsg] at hstep
  have hiter : Exec sh (.iter [] msg) .access sh (.scan [] msg layout 0 []) := .iter layout
  have hscan : Exec sh (.scan [] msg layout 0 []) .access sh (.scan [] msg layout 1 [h]) := by
    have hids : Yields sh.clients.connections.keys layout 0 [c] :=
      ⟨List.nodup_singleton c, fun id => by simp [sh, hkeys, layout]⟩
    have hx : Exec sh (.scan [] msg layout 0 []) .access sh _ := .scan Nat.one_pos hids
    simpa [sh, hl] using hx
  have hscanned : Exec sh (.scan [] msg layout 1 [h]) .access sh (.deliver ⟨none, msg, [h]⟩) :=
    .scanned le_rfl
  have hnext : Exec sh (.deliver ⟨none, msg, [h]⟩) (.attempt h) sh
      (.send (.recipient h ⟨none, msg, []⟩)) := by
    have hx : Exec sh (.deliver ⟨none, msg, [h]⟩) (.attempt h) sh _ := .next
    rwa [hpol] at hx
  exact ⟨_, .step ⟨hstart, fun _ => rfl⟩ <|
    .step ⟨moved_exec (by simp [Pc.exclusive]) hiter, fun _ => rfl⟩ <|
    .step ⟨moved_exec (by simp [Pc.exclusive]) hscan, fun _ => rfl⟩ <|
    .step ⟨moved_exec (by simp [Pc.exclusive]) hscanned, fun _ => rfl⟩ <|
    .single ⟨moved_exec (by simp [Pc.exclusive]) hnext, fun _ => rfl⟩⟩

theorem moved_enqueue (hpol : sh.clients.policy = .block)
    (hroom : sh.Accepts (sh.clients.states h).sender) :
    RelayStep decode encode token (s.moved n sh (.send (.recipient h d)))
      (.store (.exec (.handler n) (.enqueue (.recipient h d))))
      (s.moved n (sh.push (sh.clients.states h).sender d.msg) (.deliver d)) := by
  have hx : Exec sh (.send (.recipient h d)) (.enqueue (.recipient h d))
      (sh.push (sh.clients.states h).sender d.msg) (.deliver d) := by
    have hnext : Receiver.accepted sh.clients.policy (.recipient h d) = .deliver d := by
      rw [hpol]
      rfl
    exact hnext ▸ Exec.accept (r := .recipient h d) hroom
  exact moved_exec (by simp [Pc.exclusive]) hx

/-- The requests and messages of a hub that passes text on. -/
def echoDecode : Message → Option String
  | .text text => some text
  | _ => none

def echoEncode (text : String) : Option Message := some (.text text)

/-- One connection is registered, with the messages `q` in its queue, and the `n`-th handler,
which is for `text`, has not been polled. -/
structure Relay.Ready (s : Relay String) (n : Nat) (text : String) (q : List Message) : Prop where
  req : s.reqs[n]? = some text
  begun : s.begun n = false
  idle : s.calls.pc (.handler n) = .idle
  policy : s.calls.shared.clients.policy = .block
  lookup : s.calls.shared.clients.connections.lookup "c" = some 0
  keys : ∀ id, id ∈ s.calls.shared.clients.connections.keys ↔ id = "c"
  chan : s.calls.shared.chans (s.calls.shared.clients.states 0).sender = ⟨32, q, false⟩

def Relay.atSend (s : Relay String) (n : Nat) (text : String) : Relay String :=
  s.moved n s.calls.shared (.send (.recipient 0 ⟨none, .text text, []⟩))

def Relay.served (s : Relay String) (n : Nat) (text : String) : Relay String :=
  s.moved n (s.calls.shared.push (s.calls.shared.clients.states 0).sender (.text text))
    (.deliver ⟨none, .text text, []⟩)

/-- The label of that handler's enqueue. -/
def enqueuing (n : Nat) (text : String) : RelayLabel :=
  .store (.exec (.handler n) (.enqueue (.recipient 0 ⟨none, .text text, []⟩)))

variable {r : Relay String} {text text' : String} {q : List Message}

theorem ready_atSend (hr : r.Ready n text q) :
    ∃ xs, ((relaySystem echoDecode echoEncode "token").restrict Quiet).Run r xs
      (r.atSend n text) :=
  moved_to_send hr.req rfl hr.begun hr.idle hr.policy hr.lookup hr.keys

theorem ready_served (hr : r.Ready n text q) (hq : q.length < 32) :
    RelayStep echoDecode echoEncode "token" (r.atSend n text) (enqueuing n text)
      (r.served n text) := by
  refine moved_enqueue hr.policy ⟨?_, ?_⟩
  · rw [hr.chan]
  · rw [hr.chan]
    exact hq

theorem ready_chan (hr : r.Ready m text' q) :
    (r.served n text).calls.shared.chans
      ((r.served n text).calls.shared.clients.states 0).sender =
    ⟨32, q ++ [.text text], false⟩ := by
  simp [Relay.served, Relay.moved, Calls.goto, Shared.push, hr.chan]

theorem ready_other (hr : r.Ready m text' q) (hne : m ≠ n) :
    (r.served n text).Ready m text' (q ++ [.text text]) where
  req := hr.req
  begun := by simpa [Relay.served, Relay.moved, hne] using hr.begun
  idle := by simpa [Relay.served, Relay.moved, Calls.goto, hne] using hr.idle
  policy := hr.policy
  lookup := hr.lookup
  keys := hr.keys
  chan := ready_chan hr

/-- A handler that has served the only connection is done with it. -/
theorem served_done (hne : m ≠ n) : ¬ ((r.served m text).atSend n text').Pending m 0 := by
  rintro (hb | ha)
  · simp [Relay.atSend, Relay.served, Relay.moved, hne] at hb
  · obtain ⟨d, hd, hin⟩ : (Pc.deliver ⟨none, .text text, []⟩).Ahead 0 := by
      simpa [Relay.atSend, Relay.served, Relay.moved, Calls.goto, hne] using ha
    obtain rfl := Option.some.inj hd
    simp at hin

theorem greeted_reached : ∃ s, ((relaySystem echoDecode echoEncode "token").restrict Quiet).Run
    .start [.store (.call (.other 0) (.add "c" "tx" "token" "drop")),
      .store (.exec (.other 0) .access), .frame (.text "one"), .frame (.text "two")] s ∧
    s.reqs = ["one", "two"] ∧ s.Ready 0 "one" [] ∧ s.Ready 1 "two" [] := by
  let c₀ : Calls RelayTask := (Relay.start : Relay String).calls
  let c₁ := c₀.goto (.other 0) c₀.shared (.insert "c" "tx" "token" "drop")
  let c₂ := c₁.goto (.other 0)
    (c₀.shared.set (c₀.shared.clients.insertConnection "c" "tx" "token" "drop")) .idle
  have hadd : CallStep c₀ (.call (.other 0) (.add "c" "tx" "token" "drop")) c₁ := .call _ rfl
  have hinsert : CallStep c₁ (.exec (.other 0) .access) c₂ :=
    .exec (granted_of_free rfl) (.insert "c" "tx" "token" "drop")
  refine ⟨_, .step ⟨.store (by simp) (by simp) hadd, fun _ => rfl⟩ <|
    .step ⟨.store (by simp) (by simp) hinsert, fun _ => rfl⟩ <|
    .step ⟨.frame (.text "one") rfl, fun _ => rfl⟩ <|
    .single ⟨.frame (.text "two") rfl, fun _ => rfl⟩, rfl,
    ⟨rfl, rfl, rfl, rfl, by decide, fun id => ?_, rfl⟩,
    ⟨rfl, rfl, rfl, rfl, by decide, fun id => ?_, rfl⟩⟩
  all_goals
    change id ∈ Finmap.keys (Finmap.insert "c" 0 ∅) ↔ id = "c"
    simp [Finmap.mem_keys, Finmap.notMem_empty]

/-- Two handlers that are polled one after the other. -/
theorem inOrder_two_frames : ∃ xs s, s.InOrder echoEncode xs 0 ∧
    (relaySystem echoDecode echoEncode "token").Run .start xs s ∧
    (s.calls.shared.chans (s.calls.shared.clients.states 0).sender).queue =
      [.text "one", .text "two"] := by
  obtain ⟨r, hgreet, -, h0, h1⟩ := greeted_reached
  have h1' : (r.served 0 "one").Ready 1 "two" [.text "one"] := ready_other h1 (by decide)
  obtain ⟨ys, hys⟩ := ready_atSend h0
  obtain ⟨zs, hzs⟩ := ready_atSend h1'
  have hfirst : ¬ (r.atSend 0 "one").Overtakes (enqueuing 0 "one") := by
    rintro ⟨n, h, d, heq, m, hm, -⟩
    cases heq
    omega
  have hsecond : ¬ ((r.served 0 "one").atSend 1 "two").Overtakes (enqueuing 1 "two") := by
    rintro ⟨n, h, d, heq, m, hm, hpend⟩
    cases heq
    obtain rfl : m = 0 := by omega
    exact served_done (by decide) hpend
  have hquiet : ∀ s l t, Quiet s l t → ¬ Relay.Overtakes (s : Relay String) l :=
    fun _ _ _ => Quiet.noOvertaking
  have hrun := (hgreet.mono hquiet).append <| ((hys.mono hquiet).snoc
    ⟨ready_served h0 (by decide), hfirst⟩).append <| (hzs.mono hquiet).snoc
    ⟨ready_served h1' (by decide), hsecond⟩
  refine ⟨_, _, inOrder_of_noOvertaking relay_start_fresh hrun 0, hrun.of_restrict, ?_⟩
  rw [ready_chan h1']
  rfl

/-- The second handler is polled first, and the connection gets the second message first. -/
theorem second_overtakes_first : ∃ xs s,
    (relaySystem echoDecode echoEncode "token").Run .start xs s ∧ s.reqs = ["one", "two"] ∧
      s.calls.shared.clients.connections.lookup "c" = some 0 ∧
      (s.calls.shared.chans (s.calls.shared.clients.states 0).sender).queue =
        [.text "two", .text "one"] ∧
      ¬ s.InOrder echoEncode xs 0 := by
  obtain ⟨r, hgreet, hreqs, h0, h1⟩ := greeted_reached
  have h0' : (r.served 1 "two").Ready 0 "one" [.text "two"] := ready_other h0 (by decide)
  obtain ⟨ys, hys⟩ := ready_atSend h1
  obtain ⟨zs, hzs⟩ := ready_atSend h0'
  have hrun := hgreet.of_restrict.append <| (hys.of_restrict.snoc
    (ready_served h1 (by decide))).append <| hzs.of_restrict.snoc (ready_served h0' (by decide))
  refine ⟨_, _, hrun, hreqs, h0.lookup, ?_, fun hord => ?_⟩
  · rw [ready_chan h0']
    rfl
  · have hsorted := hord.1
    simp only [entered_append, entered_quiet hgreet, entered_quiet hys, entered_quiet hzs]
      at hsorted
    exact absurd hsorted (by decide)

end AxumSignal
