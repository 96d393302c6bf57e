import AxumSignal.Outcomes
import AxumSignal.Presence

/-! Whom the group broadcasts of handlers can reach: connections that a handler has put into one
of the groups. -/
namespace AxumSignal

open Transition Calls LTS

variable {Req : Type} {decode : Message → Option Req} {s s' s₀ : Hub} {l : HubLabel}
  {xs ys : List HubLabel} {c id : ConnId} {n : Nat} {g : GroupName} {gs : List GroupName}
  {e : Event} {pc pc' : Pc} {sh sh' : Shared} {k : Handle} {op : Op} {t : HubTask}

/-- A handler has called `add_to_group` with `c` as its `connection_id`. -/
def Asked (xs : List HubLabel) (c : ConnId) (g : GroupName) : Prop :=
  ∃ d n, .call d n (.addToGroup c g) ∈ xs

def HubLabel.calls (c : ConnId) (n : Nat) : HubLabel → Option Op
  | .call d m op => if d = c ∧ m = n then some op else none
  | _ => none

/-- The operation that handler `n` of `c` has called last. -/
def lastCall (c : ConnId) (n : Nat) (xs : List HubLabel) : Option Op :=
  (xs.filterMap (HubLabel.calls c n)).getLast?

/-- The recipients that a call is at or has still ahead. -/
def Pc.targets (pc : Pc) : List Handle := pc.current.toList ++ pc.holds

theorem Asked.snoc (h : Asked xs c g) (l : HubLabel) : Asked (xs ++ [l]) c g := by
  obtain ⟨d, n, hn⟩ := h
  exact ⟨d, n, List.mem_append_left _ hn⟩

@[simp] theorem lastCall_call : lastCall c n (xs ++ [.call c n op]) = some op := by
  simp [lastCall, HubLabel.calls]

theorem lastCall_other (hl : ∀ op, l ≠ .call c n op) :
    lastCall c n (xs ++ [l]) = lastCall c n xs := by
  have hnone : l.calls c n = none := by
    cases l with
    | call d m op =>
      have hne : ¬ (d = c ∧ m = n) := by
        rintro ⟨rfl, rfl⟩
        exact hl op rfl
      simp [HubLabel.calls, hne]
    | _ => rfl
  simp [lastCall, hnone]

/-- Only `add_to_group` calls put anybody into a group. -/
theorem exec_member (hx : Exec sh pc e sh' pc') (hm : sh'.Member c g) :
    sh.Member c g ∨ pc = .joinMembers c g := by
  by_cases hpc : pc = .joinMembers c g
  · exact Or.inr hpc
  · exact Or.inl ((exec_touches hx).owed hm hpc).1

theorem exec_ne_joinMembers (hx : Exec sh pc e sh' pc') : pc' ≠ .joinMembers c g := by
  intro hpc'
  by_cases hj : pc.Joins
  · cases pc with
    | joinMembers | joinGroups => cases hx; cases hpc'
    | _ => exact hj
  · exact exec_not_joins hx hj (by rw [hpc']; trivial)

/-- The call of a group broadcast is on its way, with recipients that were all asked into one of
the groups. -/
structure Bounded (xs : List HubLabel) (op : Op) (gs : List GroupName) (s : InMemoryWsClients)
    (pc : Pc) : Prop where
  pos : pc.Collects op.excluded (some gs) ∨ pc.Delivers
  asks : ∀ id ∈ pc.asks, ∃ g ∈ gs, Asked xs id g
  targets : ∀ k ∈ pc.targets, k < s.allocated ∧ ∃ g ∈ gs, Asked xs (s.states k).id g

/-- Everybody in a group was asked into it, and so were the recipients of group broadcasts. -/
structure Hub.Invited (xs : List HubLabel) (s : Hub) : Prop where
  member : ∀ c g, s.calls.shared.Member c g → Asked xs c g
  joining : ∀ t c g, s.calls.pc t = .joinMembers c g → Asked xs c g
  bounded : ∀ c n op gs, lastCall c n xs = some op → op.groups = some gs →
    Bounded xs op gs s.calls.shared.clients (s.calls.pc (.handler c n))

theorem bounded_idle {r : InMemoryWsClients} : Bounded xs op gs r .idle :=
  ⟨Or.inr trivial, by simp [Pc.asks], by simp [Pc.targets, Pc.current, Pc.holds]⟩

theorem bounded_start {r : InMemoryWsClients} (hg : op.groups = some gs) :
    Bounded xs op gs r op.start := by
  have hasks : op.start.asks = [] := by
    unfold Op.start
    split <;> rfl
  have htargets : op.start.targets = [] := by
    unfold Op.start
    split <;> rfl
  refine ⟨?_, by simp [hasks], by simp [htargets]⟩
  cases hm : op.message with
  | some msg => exact Or.inl (hg ▸ collects_start hm)
  | none =>
    refine Or.inr ?_
    cases op with
    | broadcastGroup | broadcastGroupExcept | broadcastGroups =>
      obtain rfl : _ = none := hm
      trivial
    | _ => simp [Op.groups] at hg

theorem Bounded.later {r : InMemoryWsClients} (hb : Bounded xs op gs sh.clients pc)
    (hr : r = sh.clients ∨ ∃ sh', Persists sh sh' ∧ r = sh'.clients) (l : HubLabel) :
    Bounded (xs ++ [l]) op gs r pc where
  pos := hb.pos
  asks id hid := by
    obtain ⟨g, hg, hasked⟩ := hb.asks id hid
    exact ⟨g, hg, hasked.snoc l⟩
  targets k hk := by
    obtain ⟨hlt, g, hg, hasked⟩ := hb.targets k hk
    rcases hr with rfl | ⟨sh', hp, rfl⟩
    · exact ⟨hlt, g, hg, hasked.snoc l⟩
    · exact ⟨hlt.trans_le hp.allocated, g, hg, by rw [hp.id k hlt]; exact hasked.snoc l⟩

theorem collects_current {out : List ConnId} {dest : Option (List GroupName)}
    (h : pc.Collects out dest) : pc.current = none := by
  cases pc <;> first | rfl | exact h.elim

theorem not_lookupSender {out : List ConnId} {dest : Option (List GroupName)}
    (h : pc.Collects out dest ∨ pc.Delivers) (c : ConnId) (m : Message) :
    pc ≠ .lookupSender c m := by
  rintro rfl
  exact h.elim id id

theorem Decision.current (h : Decision sh pc pc' e) (hk : pc'.current = some k) :
    pc.current = some k ∨ e = .attempt k := by
  cases h with
  | @attempts h he _ hpc' =>
    obtain rfl : h = k := Option.some.inj (hpc'.symm.trans hk)
    exact Or.inr he
  | decides _ _ hpc' => simp [hpc'] at hk
  | gives _ _ hpc' => simp [hpc'] at hk
  | keeps _ _ hpc' => exact Or.inl (hpc' ▸ hk)
  | panics _ hpc' => simp [hpc', Pc.current] at hk

theorem Decision.settled (h : Decision sh pc pc' e) (hk : e.settles = some k) :
    pc.current = some k := by
  cases h with
  | attempts he => simp [he, Event.settles] at hk
  | decides he hpc => exact hpc.trans (he.symm.trans hk)
  | gives he | keeps he => simp [he] at hk
  | panics he => simp [he, Event.settles] at hk

theorem mem_targets : k ∈ pc.targets ↔ pc.current = some k ∨ k ∈ pc.holds := by
  simp [Pc.targets]

/-- An access of a call that is collecting looks up members only. -/
theorem Bounded.collect (hb : Bounded xs op gs sh.clients pc) (hx : Exec sh pc e sh' pc')
    (hc : pc.Collects op.excluded (some gs)) (hm : ∀ c g, sh.Member c g → Asked xs c g) :
    Bounded xs op gs sh.clients pc' := by
  have hr := exec_reads hx hc
  refine ⟨hr.pos, fun id hid => ?_, fun k hk => ?_⟩
  · rcases hr.asks id hid with hold | ⟨-, all, hall, g, hg, hin⟩
    · exact hb.asks id hold
    · obtain rfl : gs = all := Option.some.inj hall
      exact ⟨g, hg, hm id g hin⟩
  · rcases mem_targets.mp hk with hcur | hk
    · rcases (exec_decision hx (not_lookupSender hb.pos)).current hcur with hold | hatt
      · simp [collects_current hc] at hold
      · exact (hr.quiet k hatt).elim
    · rcases hr.holds k hk with hold | ⟨id, hl, hid | ⟨hnone, -⟩⟩
      · exact hb.targets k (mem_targets.mpr (Or.inr hold))
      · refine ⟨sh.clients.key_allocated id k hl, ?_⟩
        rw [sh.clients.key_id id k hl]
        exact hb.asks id hid
      · cases hnone

/-- An access of a call that is delivering turns to nobody new. -/
theorem Bounded.deliver (hb : Bounded xs op gs sh.clients pc) (hx : Exec sh pc e sh' pc')
    (hd : pc.Delivers) : Bounded xs op gs sh.clients pc' := by
  have hcur : ∀ k, pc'.current = some k → pc.current = some k ∨ e = .attempt k :=
    fun k hk => (exec_decision hx (not_lookupSender hb.pos)).current hk
  cases exec_deals hx hd with
  | quiet he hholds hd' =>
    refine ⟨Or.inr hd', by simp [Delivers.asks hd'], fun k hk => hb.targets k ?_⟩
    rw [mem_targets, hholds] at hk
    rcases hk with hk | hk
    · exact mem_targets.mpr (Or.inl ((hcur k hk).resolve_right (he k)))
    · exact mem_targets.mpr (Or.inr hk)
  | @attempts h he hholds hd' =>
    refine ⟨Or.inr hd', by simp [Delivers.asks hd'], fun k hk => hb.targets k ?_⟩
    rw [mem_targets, hholds]
    rcases mem_targets.mp hk with hk | hk
    · rcases hcur k hk with hold | hatt
      · exact Or.inl hold
      · obtain rfl : h = k := by simpa using he.symm.trans hatt
        exact Or.inr List.mem_cons_self
    · exact Or.inr (List.mem_cons_of_mem _ hk)
  | panics _ hpc =>
    rw [hpc]
    exact bounded_idle

theorem Bounded.exec (hb : Bounded xs op gs sh.clients pc) (hx : Exec sh pc e sh' pc')
    (hm : ∀ c g, sh.Member c g → Asked xs c g) : Bounded xs op gs sh.clients pc' := by
  rcases hb.pos with hc | hd
  · exact hb.collect hx hc hm
  · exact hb.deliver hx hd

theorem invited_member (hs : s.Invited xs) (h : HubStep decode s l s')
    (hm : s'.calls.shared.Member c g) : Asked xs c g := by
  rcases (hubStep_store h).clients with hsame | ⟨t, e, sh, pc, -, hx, hcalls⟩
  · rw [Shared.Member, hsame] at hm
    exact hs.member c g hm
  · rw [hcalls] at hm
    rcases exec_member hx hm with hold | hpc
    · exact hs.member c g hold
    · exact hs.joining t c g hpc

theorem invited_joining (hs : s.Invited xs) (h : HubStep decode s l s') :
    ∀ t c g, s'.calls.pc t = .joinMembers c g → Asked (xs ++ [l]) c g := by
  refine pcs_step (P := fun _ pc => ∀ c g, pc = .joinMembers c g → Asked (xs ++ [l]) c g) h
    (fun t c g hpc => (hs.joining t c g hpc).snoc l) (by simp) ?_ ?_
  · rintro t op ⟨hruns, hl⟩ c g hpc
    have hjoins : op.start.Joins := by rw [hpc]; trivial
    obtain ⟨c', g', rfl⟩ := groupless_start hjoins
    obtain ⟨rfl, rfl⟩ : c' = c ∧ g' = g := by simpa [Op.start] using hpc
    cases t with
    | main d => simp [HubTask.Runs] at hruns
    | handler d n => exact ⟨d, n, by simp [hl d n rfl]⟩
  · intro t e sh pc hx c g hpc
    exact (exec_ne_joinMembers hx hpc).elim

theorem invited_bounded (hs : s.Invited xs) (h : HubStep decode s l s') :
    ∀ c n op gs, lastCall c n (xs ++ [l]) = some op → op.groups = some gs →
      Bounded (xs ++ [l]) op gs s'.calls.shared.clients (s'.calls.pc (.handler c n)) := by
  have hstore : s'.calls.shared.clients = s.calls.shared.clients ∨ ∃ sh',
      Persists s.calls.shared sh' ∧ s'.calls.shared.clients = sh'.clients :=
    (hub_persists h).imp_right fun hp => ⟨_, hp, rfl⟩
  suffices hall : ∀ t c n op gs, t = .handler c n → lastCall c n (xs ++ [l]) = some op →
      op.groups = some gs →
      Bounded (xs ++ [l]) op gs s'.calls.shared.clients (s'.calls.pc t) from
    fun c n op gs => hall _ c n op gs rfl
  refine pcs_step (P := fun t pc => ∀ c n op gs, t = .handler c n →
    lastCall c n (xs ++ [l]) = some op → op.groups = some gs →
    Bounded (xs ++ [l]) op gs s'.calls.shared.clients pc) h ?_ ?_ ?_ ?_
  · rintro _ c n op gs rfl hop hg
    by_cases hl : ∃ op', l = .call c n op'
    · obtain ⟨op', rfl⟩ := hl
      cases h with
      | call _ _ hidle => exact hidle ▸ bounded_idle
    · rw [lastCall_other fun op' heq => hl ⟨op', heq⟩] at hop
      exact (hs.bounded c n op gs hop hg).later hstore l
  · exact fun _ _ _ _ _ _ _ _ => bounded_idle
  · rintro _ op' ⟨-, hl⟩ c n op gs rfl hop hg
    obtain rfl := hl c n rfl
    obtain rfl : op' = op := by simpa using hop
    exact bounded_start hg
  · rintro _ e sh pc hx c n op gs rfl hop hg
    by_cases hl : ∃ op', l = .call c n op'
    · obtain ⟨op', rfl⟩ := hl
      cases h with
      | call _ _ hidle =>
        rw [hidle] at hx
        cases hx
    · rw [lastCall_other fun op' heq => hl ⟨op', heq⟩] at hop
      exact ((hs.bounded c n op gs hop hg).exec hx hs.member).later hstore l

theorem invited_step (hs : s.Invited xs) (h : HubStep decode s l s') : s'.Invited (xs ++ [l]) where
  member _ _ hm := (invited_member hs h hm).snoc l
  joining := invited_joining hs h
  bounded := invited_bounded hs h

theorem invited_fresh (h : s.Fresh) : s.Invited [] := by
  obtain ⟨⟨policy, shard, hnew⟩, hidle⟩ := h.1
  refine ⟨fun c g hm => ?_, fun t c g hpc => ?_, fun c n op gs hop => ?_⟩
  · simp [Shared.Member, hnew, InMemoryWsClients.new] at hm
  · simp [hidle t] at hpc
  · simp [lastCall] at hop

theorem invited_run (h0 : s₀.Fresh) (h : (hubSystem decode).Run s₀ xs s) : s.Invited xs :=
  h.history (H := fun ys u => u.Invited ys) (invited_fresh h0) fun _ _ _ _ hstep hu =>
    invited_step hu hstep

/-- Whoever a handler's group broadcast delivers to, or calls `on_drop` for, has been put into one
of its groups before, by an `add_to_group` call of a handler. -/
theorem group_isolated (h0 : s₀.Fresh)
    (h : (hubSystem decode).Run s₀ (xs ++ [.store (.handler c n) e]) s)
    (hop : lastCall c n xs = some op) (hg : op.groups = some gs) (hk : e.settles = some k) :
    ∃ g ∈ gs, Asked xs (s.calls.shared.clients.states k).id g := by
  obtain ⟨u, hrun, hlast⟩ := h.split
  have hu := (invited_run h0 hrun).bounded c n op gs hop hg
  cases hlast with
  | step hstep hnil =>
    cases hnil
    cases hubStep_store hstep with
    | still hl | start hl | drop hl => exact (hl _ _ rfl).elim
    | exec hl hx hcalls =>
      cases hl
      have hcur := (exec_decision hx (not_lookupSender hu.pos)).settled hk
      obtain ⟨hlt, g, hin, hasked⟩ := hu.targets k (mem_targets.mpr (Or.inl hcur))
      exact ⟨g, hin, by rwa [hcalls, goto_shared, (exec_persists hx).id k hlt]⟩

/-- A connection joins a group and broadcasts to it. -/
theorem group_isolated_joined : ∃ (xs : List HubLabel) (s : Hub),
    lastCall "c" 0 xs = some (.broadcastGroup "g" (some (.text "hi"))) ∧
      ∃ g ∈ ["g"], Asked xs (s.calls.shared.clients.states 0).id g := by
  have hopen : (hubSystem fun _ => some ()).Run (.start .block)
      ([.accept "c", .store (.main "c") .access, .conn "c" .registered, .conn "c" .connected,
        .conn "c" (.frame (.text "join")), .start "c" 0, .call "c" 0 (.addToGroup "c" "g"),
        .store (.handler "c" 0) .access, .store (.handler "c" 0) .access,
        .call "c" 0 (.broadcastGroup "g" (some (.text "hi"))), .store (.handler "c" 0) .access,
        .store (.handler "c" 0) .access, .store (.handler "c" 0) .access,
        .store (.handler "c" 0) .access, .store (.handler "c" 0) (.attempt 0)] ++
       [.store (.handler "c" 0) (.enqueue (.recipient 0 ⟨some "g", .text "hi", []⟩))]) _ :=
    (opened_run 1 0 rfl rfl).append <|
    .step (.frame (n := 0) none rfl rfl rfl (.frame _ rfl)) <|
    .step (.start rfl) <|
    .step (.call (.addToGroup "c" "g") rfl rfl trivial) <|
    .step (.exec rfl (granted_of_unguarded <| unguarded_update
      (unguarded_update (unguarded_update (fun _ => rfl) rfl) rfl) rfl)
      (.joinMembers "c" "g") (by simp)) <|
    .step (.exec rfl (granted_of_free rfl) (.joinGroups "c" "g") (by simp)) <|
    .step (.call (.broadcastGroup "g" (some (.text "hi"))) rfl rfl trivial) <|
    .step (.exec rfl (granted_of_free rfl) (.groupFound .single rfl) (by simp)) <|
    .step (.exec rfl (granted_of_free rfl) (.scanGroup Nat.one_pos (yields_member _ _))
      (by simp)) <|
    .step (.exec rfl (granted_of_free rfl) .lookupMember (by simp)) <|
    .step (.exec rfl (granted_of_free rfl) (.groupScanned le_rfl) (by simp)) <|
    .step (.exec rfl (granted_of_free rfl) .next (by simp)) <|
    .single (.exec rfl (granted_of_free rfl) (.accept ⟨by decide, by decide⟩) (by simp))
  exact ⟨_, _, rfl, group_isolated (hub_start_fresh .block) hopen rfl rfl rfl⟩

end AxumSignal
