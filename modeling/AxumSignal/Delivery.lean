import AxumSignal.CallFacts

/-! What a policy broadcast has done for the recipients of its snapshot once the call is
over, by returning or by being aborted where it is suspended. -/
namespace AxumSignal

open Transition Calls

variable {Task : Type} [DecidableEq Task] {s s' s₀ : Calls Task} {sh sh' : Shared}
  {pc pc' : Pc} {e : Event} {t u : Task} {h k : Handle} {d : Delivery} {msg : Message}
  {policy : BroadcastPolicy} {l : CallLabel Task} {xs : List (CallLabel Task)}

/-- The queue of a registration is no longer drained by anyone. -/
def Shared.Gone (sh : Shared) (h : Handle) : Prop :=
  (sh.chans (sh.clients.states h).sender).closed = true

theorem Persists.gone (hp : Persists sh sh') (ha : h < sh.clients.allocated) (hg : sh.Gone h) :
    sh'.Gone h := by
  have hreg := congrArg Registration.sender (hp.registration h ha)
  simp only [ConnectionState.registration] at hreg
  unfold Shared.Gone
  rw [hreg]
  exact hp.closed _ hg

/-- The access enqueues `msg` for `h`, or reports the drop under a policy that may drop. -/
def Event.Serves (policy : BroadcastPolicy) (msg : Message) (h : Handle) : Event → Prop
  | .enqueue (.recipient k d) => k = h ∧ d.msg = msg
  | .onDrop k => k = h ∧ policy ≠ .block
  | _ => False

/-- In the run, the call of `t` has enqueued `msg` for `h` or called its `on_drop`; under
`Block` only the first counts. -/
def Served (policy : BroadcastPolicy) (msg : Message) (t : Task) (xs : List (CallLabel Task))
    (h : Handle) : Prop := ∃ e, .exec t e ∈ xs ∧ e.Serves policy msg h

omit [DecidableEq Task] in
theorem Served.append (hs : Served policy msg t xs h) (l : CallLabel Task) :
    Served policy msg t (xs ++ [l]) h := by
  obtain ⟨e, he, hsv⟩ := hs
  exact ⟨e, List.mem_append_left _ he, hsv⟩

omit [DecidableEq Task] in
theorem served_snoc_exec : Served policy msg t (xs ++ [.exec t e]) h ↔
    Served policy msg t xs h ∨ e.Serves policy msg h := by
  constructor
  · rintro ⟨e', he, hsv⟩
    rcases List.mem_append.mp he with he | he
    · exact Or.inl ⟨e', he, hsv⟩
    · obtain rfl : e' = e := by simpa using he
      exact Or.inr hsv
  · rintro (hs | hsv)
    · exact hs.append _
    · exact ⟨e, by simp, hsv⟩

omit [DecidableEq Task] in
theorem served_snoc_other (hl : ∀ e, l ≠ .exec t e) :
    Served policy msg t (xs ++ [l]) h ↔ Served policy msg t xs h := by
  refine ⟨fun hs => ?_, fun hs => hs.append l⟩
  obtain ⟨e, he, hsv⟩ := hs
  rcases List.mem_append.mp he with he | he
  · exact ⟨e, he, hsv⟩
  · exact (hl e (List.mem_singleton.mp he).symm).elim

def Cont.carries : Cont → Option Delivery
  | .removal _ => none
  | .resume d => some d

def Receiver.carries : Receiver → Option Delivery
  | .direct _ _ => none
  | .recipient h d => some { d with rest := h :: d.rest }

/-- The delivery a call is in, with the recipients it has not served yet in front. -/
def Pc.carries : Pc → Option Delivery
  | .average h d | .drop h d => some { d with rest := h :: d.rest }
  | .send r | .wait r => r.carries
  | .deliver d | .count _ d | .reset _ d | .evictRemove _ d | .evictCancel _ _ d => some d
  | .cleanTake _ k | .cleanNext _ _ k | .cleanRemove _ _ _ k | .cleanCheck _ _ _ k
  | .cleanDelete _ _ _ k => k.carries
  | _ => none

theorem carries_cont (k : Cont) : k.pc.carries = k.carries := by cases k <;> rfl

theorem carries_firstAccess (policy : BroadcastPolicy) (h : Handle) (d : Delivery) :
    (policy.firstAccess h d).carries = some { d with rest := h :: d.rest } := by
  cases policy <;> rfl

theorem carries_afterDrop (policy : BroadcastPolicy) (h : Handle) (d : Delivery) :
    (policy.afterDrop h d).carries = some d := by cases policy <;> rfl

theorem carries_accepted (policy : BroadcastPolicy) (h : Handle) (d : Delivery) :
    (Receiver.accepted policy (.recipient h d)).carries = some d := by cases policy <;> rfl

/-- What one access does to a delivery `d` in progress. -/
inductive Carry (sh : Shared) (d : Delivery) (e : Event) (pc' : Pc) : Prop where
  | returned (hpc : pc' = .idle) (hrest : d.rest = [])
      (he : ∀ h, ¬ e.Serves sh.clients.policy d.msg h)
  | panicked (hpc : pc' = .idle) (he : e = .panic)
  | keeps (hc : pc'.carries = some d) (he : ∀ h, ¬ e.Serves sh.clients.policy d.msg h)
  | serves {h : Handle} {rest : List Handle} (hd : d.rest = h :: rest)
      (hc : pc'.carries = some { d with rest := rest })
      (he : ∀ k, e.Serves sh.clients.policy d.msg k ↔ k = h)
  | skips {h : Handle} {rest : List Handle} (hd : d.rest = h :: rest)
      (hc : pc'.carries = some { d with rest := rest }) (hgone : sh.Gone h)
      (he : ∀ k, ¬ e.Serves sh.clients.policy d.msg k)

/-- Under `Block` no call reports a drop. -/
def Pc.Plain (policy : BroadcastPolicy) (pc : Pc) : Prop :=
  policy = .block → ∀ h d, pc ≠ .drop h d

theorem exec_plain (hx : Exec sh pc e sh' pc') (hp : pc.Plain sh.clients.policy) :
    pc'.Plain sh.clients.policy := by
  intro hb h d
  cases hx with
  | accept | resume => rename_i r _; cases r <;> simp [Receiver.accepted, hb]
  | refuse | disconnect => rename_i r _; cases r <;> simp [Receiver.refused, hb]
  | next => simp [BroadcastPolicy.firstAccess, hb]
  | drop => exact (hp hb _ _ rfl).elim
  | averageHigh hpol => simp [hb] at hpol
  | late htimed => simp [hb, BroadcastPolicy.Timed] at htimed
  | @cleanNothing _ k | @cleanDone _ k => cases k <;> simp [Cont.pc]
  | _ => simp

/-- The step lemma of a delivery. -/
theorem exec_carries (hx : Exec sh pc e sh' pc') (hc : pc.carries = some d)
    (hp : pc.Plain sh.clients.policy) : Carry sh d e pc' := by
  cases hx with
  | delivered =>
    obtain rfl := Option.some.inj hc
    exact .returned rfl rfl fun _ => id
  | averagePanics => exact .panicked rfl rfl
  | next =>
    obtain rfl := Option.some.inj hc
    exact .keeps (carries_firstAccess _ _ _) fun _ => id
  | averageHigh | averageLow | countBelow | countReached | reset | evictFound | evictMissing
  | evictCancel | suspend | late | cleanTaken | cleanFound | cleanMissing | cleanRemove
  | cleanEmpty | cleanKept | cleanDelete =>
    exact .keeps hc fun _ => id
  | cleanNothing | cleanDone => exact .keeps ((carries_cont _).trans hc) fun _ => id
  | @accept r _ | @resume r _ =>
    cases r with
    | direct => simp [Pc.carries, Receiver.carries] at hc
    | recipient k d' =>
      obtain rfl := Option.some.inj hc
      exact .serves rfl (carries_accepted _ _ _) fun h => by simp [Event.Serves, eq_comm]
  | @refuse r hgone | @disconnect r hgone =>
    cases r with
    | direct => simp [Pc.carries, Receiver.carries] at hc
    | recipient k d' =>
      obtain rfl := Option.some.inj hc
      cases hpol : sh.clients.policy with
      | block | dropOnHighRtt => exact .skips rfl rfl hgone fun _ => id
      | dropMessage | dropConnection => exact .keeps rfl fun _ => id
  | drop =>
    obtain rfl := Option.some.inj hc
    have hb : sh.clients.policy ≠ .block := fun hb => hp hb _ _ rfl
    exact .serves rfl (carries_afterDrop _ _ _) fun h => by simp [Event.Serves, hb, eq_comm]
  | _ => simp [Pc.carries] at hc

/-- The call of `t` is delivering `d`; `rest` is what it has not dealt with after the
labels `xs`, and everyone else is served or gone. -/
structure Progress (policy : BroadcastPolicy) (t : Task) (d : Delivery)
    (xs : List (CallLabel Task)) (rest : List Handle) (s : Calls Task) : Prop where
  carries : (s.pc t).carries = some { d with rest := rest }
  nodup : rest.Nodup
  done : ∀ h ∈ d.rest, h ∈ rest ∨ Served policy d.msg t xs h ∨ s.shared.Gone h
  pending : ∀ h ∈ rest, h ∈ d.rest ∧ ¬ Served policy d.msg t xs h
  allocated : ∀ h ∈ d.rest, h < s.shared.clients.allocated
  plain : (s.pc t).Plain policy
  policy : s.shared.clients.policy = policy

omit [DecidableEq Task] in
/-- A step of anyone else leaves the call where it is. -/
theorem Progress.other {rest : List Handle} (hs : Progress policy t d xs rest s)
    (hl : ∀ e, l ≠ .exec t e) (hp : Persists s.shared s'.shared) (hpc : s'.pc t = s.pc t) :
    Progress policy t d (xs ++ [l]) rest s' where
  carries := hpc ▸ hs.carries
  nodup := hs.nodup
  done h hh := (hs.done h hh).imp_right
    (Or.imp (·.append l) (hp.gone (hs.allocated h hh)))
  pending h hh := ⟨(hs.pending h hh).1, by
    rw [served_snoc_other hl]
    exact (hs.pending h hh).2⟩
  allocated h hh := Nat.lt_of_lt_of_le (hs.allocated h hh) hp.allocated
  plain := hpc ▸ hs.plain
  policy := hp.policy.trans hs.policy

/-- An access of the call itself deals with the first pending recipient at most. -/
theorem Progress.exec {rest : List Handle} (hs : Progress policy t d xs rest s)
    (hx : Exec s.shared (s.pc t) e sh pc) :
    (∃ rest', Progress policy t d (xs ++ [.exec t e]) rest' (s.goto t sh pc)) ∨
      (s.goto t sh pc).pc t = .idle := by
  obtain rfl := hs.policy
  have hp := exec_persists hx
  have hplain := exec_plain hx hs.plain
  have hgone : ∀ {h}, h ∈ d.rest → s.shared.Gone h → sh.Gone h :=
    fun hh => hp.gone (hs.allocated _ hh)
  have hbuild : ∀ {rest'}, pc.carries = some { d with rest := rest' } → rest'.Nodup →
      (∀ h ∈ d.rest, h ∈ rest' ∨ Served _ d.msg t (xs ++ [.exec t e]) h ∨ sh.Gone h) →
      (∀ h ∈ rest', h ∈ d.rest ∧ ¬ Served _ d.msg t (xs ++ [.exec t e]) h) →
      ∃ rest', Progress _ t d (xs ++ [.exec t e]) rest' (s.goto t sh pc) :=
    fun {rest'} hc hnd hdone hpend => ⟨rest', by rwa [s.goto_pc], hnd, hdone, hpend,
      fun h hh => Nat.lt_of_lt_of_le (hs.allocated h hh) hp.allocated,
      by rwa [s.goto_pc], hp.policy⟩
  cases exec_carries hx hs.carries hs.plain with
  | returned hpc => exact Or.inr (by rw [s.goto_pc, hpc])
  | panicked hpc => exact Or.inr (by rw [s.goto_pc, hpc])
  | keeps hc he =>
    refine Or.inl (hbuild hc hs.nodup (fun h hh => ?_) fun h hh => ?_)
    · exact (hs.done h hh).imp_right (Or.imp (·.append _) (hgone hh))
    · rw [served_snoc_exec]
      exact ⟨(hs.pending h hh).1, not_or.mpr ⟨(hs.pending h hh).2, he h⟩⟩
  | @serves k rest' hd hc he =>
    obtain rfl : rest = k :: rest' := hd
    obtain ⟨hk, hnd⟩ := List.nodup_cons.mp hs.nodup
    refine Or.inl (hbuild hc hnd (fun h hh => ?_) fun h hh => ?_)
    · rcases hs.done h hh with hin | hsv | hg
      · rcases List.mem_cons.mp hin with rfl | hin
        · exact Or.inr (Or.inl (served_snoc_exec.mpr (Or.inr ((he h).mpr rfl))))
        · exact Or.inl hin
      · exact Or.inr (Or.inl (hsv.append _))
      · exact Or.inr (Or.inr (hgone hh hg))
    · obtain ⟨hmem, hns⟩ := hs.pending h (List.mem_cons_of_mem _ hh)
      refine ⟨hmem, fun hsv => ?_⟩
      rcases served_snoc_exec.mp hsv with hsv | hsv
      · exact hns hsv
      · exact hk ((he h).mp hsv ▸ hh)
  | @skips k rest' hd hc hg he =>
    obtain rfl : rest = k :: rest' := hd
    obtain ⟨_, hnd⟩ := List.nodup_cons.mp hs.nodup
    refine Or.inl (hbuild hc hnd (fun h hh => ?_) fun h hh => ?_)
    · rcases hs.done h hh with hin | hsv | hg'
      · rcases List.mem_cons.mp hin with rfl | hin
        · exact Or.inr (Or.inr (hgone hh hg))
        · exact Or.inl hin
      · exact Or.inr (Or.inl (hsv.append _))
      · exact Or.inr (Or.inr (hgone hh hg'))
    · obtain ⟨hmem, hns⟩ := hs.pending h (List.mem_cons_of_mem _ hh)
      rw [served_snoc_exec]
      exact ⟨hmem, not_or.mpr ⟨hns, he h⟩⟩

/-- The call of `t` is still delivering, or it is over and `t` has started no other. -/
theorem Progress.step {rest : List Handle} (hs : Progress policy t d xs rest s)
    (h : CallStep s l s') :
    (∃ rest', Progress policy t d (xs ++ [l]) rest' s') ∨ s'.pc t = .idle := by
  have hp := step_persists h
  cases step_turn h t with
  | other hl hpc => exact Or.inl ⟨rest, hs.other hl hp hpc⟩
  | call hidle => simpa [hidle, Pc.carries] using hs.carries
  | exec _ hx => exact hs.exec hx
  | abort hpc => exact Or.inr (s.goto_pc _ _ _)

/-- Only a new call leaves the idle position. -/
theorem step_idle (h : CallStep s l s') (hidle : s.pc t = .idle) (hl : ∀ op, l ≠ .call t op) :
    s'.pc t = .idle := by
  cases step_turn h t with
  | other _ hpc => rwa [hpc]
  | call => exact (hl _ rfl).elim
  | exec _ hx =>
    rw [hidle] at hx
    cases hx
  | abort => exact s.goto_pc _ _ _

/-- The run lemma: as long as `t` makes no other call, it is delivering or done. -/
theorem run_progress {rest : List Handle} (hs : Progress policy t d [] rest s)
    (hrun : (callSystem Task).Run s xs s') (hcall : ∀ op, .call t op ∉ xs) :
    (∃ rest', Progress policy t d xs rest' s') ∨ s'.pc t = .idle := by
  have h : (∃ op, CallLabel.call t op ∈ xs) ∨ (∃ rest', Progress policy t d xs rest' s') ∨
      s'.pc t = .idle := by
    refine hrun.history (H := fun ys u => (∃ op, CallLabel.call t op ∈ ys) ∨
      (∃ rest', Progress policy t d ys rest' u) ∨ u.pc t = .idle) (Or.inr (Or.inl ⟨rest, hs⟩)) ?_
    rintro ys u l v hstep (⟨op, hop⟩ | ⟨rest', hu⟩ | hidle)
    · exact Or.inl ⟨op, List.mem_append_left _ hop⟩
    · exact Or.inr (hu.step hstep)
    · by_cases hl : ∃ op, l = .call t op
      · obtain ⟨op, rfl⟩ := hl
        exact Or.inl ⟨op, by simp⟩
      · exact Or.inr (Or.inr (step_idle hstep hidle fun op hop => hl ⟨op, hop⟩))
  exact h.resolve_left fun ⟨op, hop⟩ => hcall op hop

/-- A broadcast of `t` has taken its snapshot `d.rest` in `s₀`, and is over in `s'`: after
the labels `xs` its last step `l` returns, or aborts it. -/
structure BroadcastOver (t : Task) (d : Delivery) (s₀ : Calls Task)
    (xs : List (CallLabel Task)) (s : Calls Task) (l : CallLabel Task) (s' : Calls Task) :
    Prop where
  reached : (callSystem Task).Reachable Calls.Fresh s₀
  start : s₀.pc t = .deliver d
  run : (callSystem Task).Run s₀ xs s
  same : ∀ op, .call t op ∉ xs
  last : CallStep s l s'
  how : l = .abort t ∨ ∃ e, l = .exec t e ∧ e ≠ .panic
  ended : s'.pc t = .idle

/-- Every recipient of the snapshot whose queue is open is served. -/
def AllServed (t : Task) (d : Delivery) (s₀ : Calls Task) (xs : List (CallLabel Task))
    (s' : Calls Task) : Prop :=
  ∀ h ∈ d.rest, ¬ s'.shared.Gone h → Served s₀.shared.clients.policy d.msg t xs h

/-- The last step drops the call while a recipient it has not dealt with is still there. -/
def CutOff (t : Task) (s : Calls Task) (l : CallLabel Task) : Prop :=
  l = .abort t ∧ ∃ d, (s.pc t).carries = some d ∧ ∃ h ∈ d.rest, ¬ s.shared.Gone h

theorem BroadcastOver.progress {s₀ : Calls Task} (h : BroadcastOver t d s₀ xs s l s') :
    ∃ rest, Progress s₀.shared.clients.policy t d xs rest s := by
  have hcol := allCollected_reachable h.reached t
  rw [h.start] at hcol
  have hsnap : Snapshot s₀.shared.clients d.rest := hcol
  have h0 : Progress s₀.shared.clients.policy t d [] d.rest s₀ := by
    refine ⟨by rw [h.start]; rfl, hsnap.nodup, fun _ => Or.inl, fun h hh => ⟨hh, ?_⟩,
      hsnap.allocated, by rw [h.start]; intro _ _ _; simp, rfl⟩
    rintro ⟨e, he, _⟩
    simp at he
  refine (run_progress h0 h.run h.same).resolve_right fun hidle => ?_
  have hlast := h.last
  rcases h.how with rfl | ⟨e, rfl, _⟩
  · cases hlast with
    | abort hpc => simp [hidle] at hpc
  · cases hlast with
    | exec _ hx =>
      rw [hidle] at hx
      cases hx

/-- A broadcast serves every recipient of its snapshot whose queue is open, exactly unless
it is aborted while one of them is still pending. -/
theorem allServed_iff {s₀ : Calls Task} (h : BroadcastOver t d s₀ xs s l s') :
    AllServed t d s₀ (xs ++ [l]) s' ↔ ¬ CutOff t s l := by
  obtain ⟨rest, hs⟩ := h.progress
  have hlast := h.last
  rcases h.how with rfl | ⟨e, rfl, hpanic⟩
  · cases hlast with
    | abort hpc =>
    have hserved : ∀ h, Served s₀.shared.clients.policy d.msg t (xs ++ [.abort t]) h ↔
        Served s₀.shared.clients.policy d.msg t xs h := fun h => served_snoc_other (by simp)
    constructor
    · rintro hall ⟨_, d', hd', k, hk, hopen⟩
      obtain rfl := Option.some.inj (hs.carries.symm.trans hd')
      obtain ⟨hmem, hns⟩ := hs.pending k hk
      exact hns ((hserved k).mp (hall k hmem hopen))
    · intro hcut k hk hopen
      rw [hserved]
      rcases hs.done k hk with hin | hsv | hgone
      · exact (hcut ⟨rfl, _, hs.carries, k, hin, hopen⟩).elim
      · exact hsv
      · exact (hopen hgone).elim
  · refine iff_of_true (fun k hk hopen => ?_) (by simp [CutOff])
    cases hlast with
    | @exec _ _ sh pc _ hx =>
    have hpc : pc = .idle := by simpa using h.ended
    obtain ⟨rest', hs'⟩ | hidle := hs.exec hx
    · simpa [hpc, Pc.carries] using hs'.carries
    · cases exec_carries hx hs.carries (hs.policy ▸ hs.plain) with
      | returned _ hrest =>
        obtain rfl : rest = [] := hrest
        rcases hs.done k hk with hin | hsv | hgone
        · simp at hin
        · exact hsv.append _
        · have hp := exec_persists hx
          exact (hopen (hp.gone (hs.allocated k hk) hgone)).elim
      | panicked _ he => exact (hpanic he).elim
      | keeps hc => simp [hpc, Pc.carries] at hc
      | serves _ hc => simp [hpc, Pc.carries] at hc
      | skips _ hc => simp [hpc, Pc.carries] at hc

/-- Two registered connections, the queue of the first one full, and a broadcast of the other task
to both of them under `Block`: it waits at the first one until its queue has room, and returns. -/
theorem full_then_open : ∃ (s₀ : Calls Bool) (xs : List (CallLabel Bool)) (s s' : Calls Bool)
    (r : Receiver), .exec false (.suspend r) ∈ xs ∧
    BroadcastOver false ⟨none, .text "news", [0, 1]⟩ s₀ xs s (.exec false .access) s' ∧
      s₀.shared.clients.policy = .block ∧ s₀.shared.Full (s₀.shared.clients.states 0).sender ∧
      s₀.shared.Accepts (s₀.shared.clients.states 1).sender := by
  let r : Receiver := .recipient 0 ⟨none, .text "news", [1]⟩
  refine ⟨_, [.exec false (.attempt 0), .exec false (.suspend r), .recv "txA",
    .exec false (.enqueue r), .exec false (.attempt 1), .exec false (.enqueue _)], _, _, r, by simp,
    ⟨⟨idlePair .block, idlePair_fresh _, _,
      .step (.call (t := true) (.add "a" "txA" "tokenA" "dropA") rfl) <|
      .step (.exec (t := true) (granted_of_free rfl) (.insert "a" "txA" "tokenA" "dropA")) <|
      .step (.call (t := true) (.add "b" "txB" "tokenB" "dropB") rfl) <|
      .step (.exec (t := true) (granted_of_free rfl) (.insert "b" "txB" "tokenB" "dropB")) <|
      .step (.call (t := true) (.unicast "a" (some (.text "old"))) rfl) <|
      .step (.exec (t := true) (granted_of_free rfl) (@Exec.senderFound _ _ _ 0 (by decide))) <|
      .step (.exec (t := true) (granted_of_free rfl) (.accept ⟨by decide, by decide⟩)) <|
      .step (.call (t := false) (.broadcastExcept [] (some (.text "news"))) rfl) <|
      .step (.exec (t := false) (granted_of_free rfl) (.iter ⟨1, fun _ => 0⟩)) <|
      .step (.exec (t := false) (granted_of_free rfl) (@Exec.scan _ _ _ _ _ _ ["a", "b"]
        (by decide) ⟨by decide, fun id => ?_⟩)) <|
      .single (.exec (t := false) (granted_of_free rfl) (.scanned (by decide)))⟩,
      ?_,
      .step (.exec (t := false) (granted_of_free rfl) .next) <|
      .step (.exec (t := false) (granted_of_free rfl) (.suspend (r := r) rfl)) <|
      .step (.recv "txA") <|
      .step (.exec (t := false) (granted_of_free rfl) (.resume ⟨by decide, by decide⟩)) <|
      .step (.exec (t := false) (granted_of_free rfl) .next) <|
      .single (.exec (t := false) (granted_of_free rfl) (.accept ⟨by decide, by decide⟩)),
      by simp, .exec (t := false) (granted_of_free rfl) .delivered,
      Or.inr ⟨_, rfl, by simp⟩, rfl⟩,
    rfl, ⟨by decide, by decide⟩, by decide, by decide⟩
  · change id ∈ ["a", "b"] ↔ id ∈ Finmap.keys (Finmap.insert "b" 1 (Finmap.insert "a" 0 ∅)) ∧ _
    simp [Finmap.mem_keys, Finmap.notMem_empty, or_comm]
  · rfl

/-- Suspended at the first recipient and resumed, the broadcast has served both. -/
theorem allServed_resumed : ∃ d s₀ xs s l s' r, d.rest = [0, 1] ∧ .exec false (.suspend r) ∈ xs ∧
    BroadcastOver false d s₀ xs s l s' ∧ AllServed false d s₀ (xs ++ [l]) s' := by
  obtain ⟨s₀, xs, s, s', r, hwait, h, -⟩ := full_then_open
  exact ⟨_, s₀, xs, s, _, s', r, rfl, hwait, h, (allServed_iff h).mpr (by simp [CutOff])⟩

/-- Aborted at the first recipient, the broadcast never reaches the second one. -/
theorem aborted_not_allServed : ∃ d s₀ xs s l s', BroadcastOver false d s₀ xs s l s' ∧
    s₀.shared.clients.policy = .block ∧ ¬ AllServed false d s₀ (xs ++ [l]) s' := by
  obtain ⟨s₀, -, -, -, -, -, ⟨hreach, hpc, -⟩, hpol, hfull, hroom⟩ := full_then_open
  let d : Delivery := ⟨none, .text "news", [1]⟩
  let s₁ := s₀.goto false s₀.shared (.send (.recipient 0 d))
  let s₂ := s₁.goto false s₀.shared (.wait (.recipient 0 d))
  have hfirst : s₀.shared.clients.policy.firstAccess 0 d = .send (.recipient 0 d) := by
    rw [hpol]
    rfl
  have hnext : CallStep s₀ (.exec false (.attempt 0)) s₁ := by
    have h := CallStep.at hpc (granted_of_free (by simp [hpc, Pc.exclusive])) .next
    rwa [hfirst] at h
  have hwait : CallStep s₁ (.exec false (.suspend (.recipient 0 d))) s₂ :=
    .at (s₀.goto_pc _ _ _) (granted_of_free (by simp [s₁, Pc.exclusive])) (.suspend hfull.1)
  refine ⟨_, s₀, _, s₂, .abort false, _, ⟨hreach, hpc, .step hnext (.single hwait), by simp,
    .abort (s₁.goto_pc _ _ _), Or.inl rfl, s₂.goto_pc _ _ _⟩, hpol, fun hall => ?_⟩
  have hopen : ¬ s₀.shared.Gone 1 := by simp [Shared.Gone, hroom.1]
  obtain ⟨e, he, hsv⟩ := hall 1 (by simp) hopen
  simp at he
  rcases he with rfl | rfl
  · exact hsv
  · exact hsv

end AxumSignal
