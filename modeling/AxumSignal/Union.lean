import AxumSignal.Attempts

/-! Which registered connections `broadcast_groups` reaches while group memberships change.
The groups are read one after another, so only the reads decide. -/
namespace AxumSignal

open Transition Calls LTS

variable {Task : Type} [DecidableEq Task] {s s' s₀ s₁ : Calls Task} {sh sh' : Shared}
  {pc pc' : Pc} {e : Event} {t u : Task} {h k : Handle} {c : ConnId} {l : CallLabel Task}
  {xs : List (CallLabel Task)} {groups : List GroupName} {msg : Message}

/-- The ids whose first sight the union has already dealt with. -/
def Pc.seen : Pc → Finset ConnId
  | .openGroups _ _ seen _ | .scanGroups _ _ _ seen _ _ _ _ | .filterGroups _ _ _ seen _ => seen
  | _ => ∅

/-- The call is putting the union of its groups together. -/
def Pc.Uniting : Pc → Prop
  | .openGroups _ _ _ _ | .scanGroups _ _ _ _ _ _ _ _ | .filterGroups _ _ _ _ _ => True
  | _ => False

/-- The next access reads the shard of `c` in a group that has `c` as a member. -/
def Pc.Sights (sh : Shared) (c : ConnId) : Pc → Prop
  | .scanGroups group _ _ _ _ layout next _ =>
    (layout.index c : Nat) = next ∧ c ∈ sh.clients.groupMembers.values group
  | _ => False

/-- What one access does to a union in the making. -/
inductive Unites (sh : Shared) (c : ConnId) (pc pc' : Pc) : Prop where
  | keeps (hnot : ¬ pc.Sights sh c) (hasks : pc'.asks = pc.asks) (hholds : pc'.holds = pc.holds)
      (hseen : pc'.seen ⊆ pc.seen) (hpos : pc'.Uniting ∨ pc'.Delivers)
  | reads {ids : List ConnId} (hids : c ∈ ids ↔ pc.Sights sh c) (hasks : pc'.asks = pc.asks ++ ids)
      (hholds : pc'.holds = pc.holds) (hseen : pc'.seen = pc.seen) (hpos : pc'.Uniting)
  | duplicate {id : ConnId} (hnot : ¬ pc.Sights sh c) (hasks : pc.asks = id :: pc'.asks)
      (hdup : id ∈ pc.seen) (hholds : pc'.holds = pc.holds) (hseen : pc'.seen = pc.seen)
      (hpos : pc'.Uniting)
  | first {id : ConnId} (hnot : ¬ pc.Sights sh c) (hasks : pc.asks = id :: pc'.asks)
      (hholds : pc'.holds = pc.holds ++ (sh.clients.connections.lookup id).toList)
      (hseen : pc'.seen = insert id pc.seen) (hpos : pc'.Uniting)

theorem exec_unites (hx : Exec sh pc e sh' pc') (hp : pc.Uniting) (c : ConnId) :
    Unites sh c pc pc' := by
  cases hx with
  | nextFound | nextMissing | filtered =>
    exact .keeps (by simp [Pc.Sights]) rfl rfl subset_rfl (Or.inl trivial)
  | groupsDone => exact .keeps (by simp [Pc.Sights]) rfl rfl (by simp [Pc.seen]) (Or.inr trivial)
  | @scanGroups group gs msg seen found layout next ids yielded hnext hids =>
    refine .reads ?_ rfl rfl rfl trivial
    rw [hids.mem]
    exact and_comm
  | @collected group gs msg seen found layout next ids hnext =>
    refine .keeps ?_ rfl rfl subset_rfl (Or.inl trivial)
    rintro ⟨hat, -⟩
    have := (layout.index c).isLt
    omega
  | duplicate hdup => exact .duplicate (by simp [Pc.Sights]) rfl hdup rfl rfl trivial
  | lookupFirst => exact .first (by simp [Pc.Sights]) rfl rfl rfl trivial
  | _ => exact hp.elim

/-- An access that attempts a delivery belongs to no union in the making. -/
theorem attempt_not_uniting (hx : Exec sh pc (.attempt h) sh' pc') : ¬ pc.Uniting := by
  cases hx with
  | senderFound | next => exact id

/-- The system while `c` stays registered. -/
def registeredSystem (Task : Type) [DecidableEq Task] (c : ConnId) :
    LTS (Calls Task) (CallLabel Task) :=
  (callSystem Task).restrict fun _ _ v => (v.shared.clients.connections.lookup c).isSome

/-- A call of `broadcast_groups` that has returned, and during which `c` was registered. -/
structure UnionCall (t : Task) (groups : List GroupName) (msg : Message) (c : ConnId)
    (s₀ : Calls Task) (xs : List (CallLabel Task)) (s : Calls Task) : Prop where
  reached : (callSystem Task).Reachable Calls.Fresh s₀
  start : s₀.pc t = .idle
  registered : (s₀.shared.clients.connections.lookup c).isSome
  run : (registeredSystem Task c).Run
    (s₀.goto t s₀.shared (Op.broadcastGroups groups (some msg)).start) xs s
  same : ∀ op, .call t op ∉ xs
  returned : s.pc t = .idle
  complete : .abort t ∉ xs ∧ .exec t .panic ∉ xs

/-- At some step of the run the call reads the shard of `c` in a group that has `c` then. -/
def Sighted (t : Task) (c : ConnId) (s₁ : Calls Task) (xs : List (CallLabel Task))
    (s : Calls Task) : Prop :=
  ∃ ys u e v zs, xs = ys ++ .exec t e :: zs ∧ (registeredSystem Task c).Run s₁ ys u ∧
    (registeredSystem Task c).Tr u (.exec t e) v ∧ (registeredSystem Task c).Run v zs s ∧
    (u.pc t).Sights u.shared c

/-- The connections behind registrations. -/
def Calls.ids (s : Calls Task) (hs : List Handle) : List ConnId :=
  hs.map fun h => (s.shared.clients.states h).id

/-- The union has `c`, or will look it up. -/
def Caught (t : Task) (c : ConnId) (xs : List (CallLabel Task)) (s : Calls Task) : Prop :=
  c ∈ (s.pc t).asks ∨ c ∈ s.ids (attemptedBy t xs ++ (s.pc t).holds)

/-- A union call in progress, or over, while `c` is registered. -/
structure Tracked (t : Task) (c : ConnId) (xs : List (CallLabel Task)) (s : Calls Task) :
    Prop where
  pos : (s.pc t).Uniting ∧ attemptedBy t xs = [] ∨ (s.pc t).Delivers
  registered : (s.shared.clients.connections.lookup c).isSome
  seen : c ∈ (s.pc t).seen → c ∈ s.ids (s.pc t).holds

/-- A step that does not give the call of `t` up. -/
def CallLabel.Continues (t : Task) (l : CallLabel Task) : Prop :=
  (∀ op, l ≠ .call t op) ∧ l ≠ .abort t ∧ l ≠ .exec t .panic

theorem ids_step {hs : List Handle} (hstep : CallStep s l s')
    (ha : ∀ h ∈ hs, h < s.shared.clients.allocated) : s'.ids hs = s.ids hs :=
  (step_persists hstep).ids ha

omit [DecidableEq Task] in
theorem mem_ids_lookup {id : ConnId} (hreg : (s.shared.clients.connections.lookup c).isSome) :
    c ∈ s.ids (s.shared.clients.connections.lookup id).toList ↔ c = id := by
  constructor
  · intro hc
    obtain ⟨h, hh, rfl⟩ := List.mem_map.mp hc
    exact s.shared.clients.key_id id h (Option.mem_toList.mp hh)
  · rintro rfl
    obtain ⟨h, hl⟩ := Option.isSome_iff_exists.mp hreg
    exact List.mem_map.mpr ⟨h, by simp [hl], s.shared.clients.key_id c h hl⟩

theorem delivers_seen (h : pc.Delivers) : pc.seen = ∅ := by
  cases pc <;> first | rfl | exact h.elim

theorem delivers_not_sights (h : pc.Delivers) : ¬ pc.Sights sh c := by
  cases pc <;> first | exact id | exact h.elim

/-- A step that leaves the call of `t` where it is. -/
theorem Tracked.other (hs : Tracked t c xs s) (hsnap : Snapshot s.shared.clients
    (attemptedBy t xs ++ (s.pc t).holds)) (hstep : CallStep s l s')
    (hreg : (s'.shared.clients.connections.lookup c).isSome) (hl : ∀ e, l ≠ .exec t e)
    (hpc : s'.pc t = s.pc t) :
    Tracked t c (xs ++ [l]) s' ∧ (Caught t c (xs ++ [l]) s' ↔ Caught t c xs s) := by
  have hsame : attemptedBy t (xs ++ [l]) = attemptedBy t xs :=
    attemptedBy_other fun h => hl (.attempt h)
  have hids := ids_step hstep hsnap.allocated
  have hheld : s'.ids (s.pc t).holds = s.ids (s.pc t).holds :=
    ids_step hstep fun h hh => hsnap.allocated h (List.mem_append_right _ hh)
  refine ⟨⟨?_, hreg, ?_⟩, ?_⟩
  · rw [hpc, hsame]
    exact hs.pos
  · rw [hpc, hheld]
    exact hs.seen
  · unfold Caught
    rw [hpc, hsame, hids]

/-- An access of the call while it puts the union together. -/
theorem Tracked.unite (hs : Tracked t c xs s) (hsnap : Snapshot s.shared.clients
    (attemptedBy t xs ++ (s.pc t).holds)) (hnone : attemptedBy t xs = [])
    (hstep : CallStep s (.exec t e) s') (he : ∀ h, e ≠ .attempt h)
    (hreg : (s'.shared.clients.connections.lookup c).isSome)
    (hu : Unites s.shared c (s.pc t) (s'.pc t)) :
    Tracked t c (xs ++ [.exec t e]) s' ∧ (Caught t c (xs ++ [.exec t e]) s' ↔
      Caught t c xs s ∨ (s.pc t).Sights s.shared c) := by
  have hsame : attemptedBy t (xs ++ [.exec t e]) = [] := by
    rw [attemptedBy_other fun h hl => he h (by simpa using hl), hnone]
  have hheld : s'.ids (s.pc t).holds = s.ids (s.pc t).holds :=
    ids_step hstep fun h hh => hsnap.allocated h (List.mem_append_right _ hh)
  have hseen := hs.seen
  unfold Caught
  rw [hsame, hnone, List.nil_append, List.nil_append]
  cases hu with
  | keeps hnot hasks hholds hsub hpos =>
    refine ⟨⟨hpos.imp_left fun hp => ⟨hp, hsame⟩, hreg, fun hc => ?_⟩, ?_⟩
    · rw [hholds, hheld]
      exact hseen (hsub hc)
    · rw [hasks, hholds, hheld]
      simp [hnot]
  | reads hids hasks hholds hsub hpos =>
    refine ⟨⟨Or.inl ⟨hpos, hsame⟩, hreg, fun hc => ?_⟩, ?_⟩
    · rw [hholds, hheld]
      exact hseen (hsub ▸ hc)
    · rw [hasks, hholds, hheld, List.mem_append, hids]
      exact or_right_comm
  | @duplicate id hnot hasks hdup hholds hsub hpos =>
    refine ⟨⟨Or.inl ⟨hpos, hsame⟩, hreg, fun hc => ?_⟩, ?_⟩
    · rw [hholds, hheld]
      exact hseen (hsub ▸ hc)
    · rw [hholds, hheld, hasks, List.mem_cons, or_iff_left hnot, or_assoc]
      refine (or_iff_right_of_imp ?_).symm
      rintro rfl
      exact Or.inr (hseen hdup)
  | @first id hnot hasks hholds hsub hpos =>
    have hnew : c ∈ s'.ids (s'.pc t).holds ↔ c ∈ s.ids (s.pc t).holds ∨ c = id := by
      have hlook : s'.ids (s.shared.clients.connections.lookup id).toList =
          s.ids (s.shared.clients.connections.lookup id).toList :=
        ids_step hstep fun h hh => s.shared.clients.key_allocated id h (Option.mem_toList.mp hh)
      rw [hholds, ← mem_ids_lookup hs.registered, ← hheld, ← hlook]
      simp [Calls.ids]
    refine ⟨⟨Or.inl ⟨hpos, hsame⟩, hreg, fun hc => ?_⟩, ?_⟩
    · rw [hsub, Finset.mem_insert] at hc
      exact hnew.mpr (hc.symm.imp_left hseen)
    · rw [hnew, hasks, List.mem_cons, or_iff_left hnot]
      exact or_rotate.symm.trans or_assoc.symm

/-- An access of the call while it delivers. -/
theorem Tracked.deliver (hsnap : Snapshot s.shared.clients
    (attemptedBy t xs ++ (s.pc t).holds)) (hdel : (s.pc t).Delivers)
    (hstep : CallStep s (.exec t e) s') (he : e ≠ .panic)
    (hreg : (s'.shared.clients.connections.lookup c).isSome)
    (hd : Deals (s.pc t) (s'.pc t) e) :
    Tracked t c (xs ++ [.exec t e]) s' ∧
      (Caught t c (xs ++ [.exec t e]) s' ↔ Caught t c xs s) := by
  have hids := ids_step hstep hsnap.allocated
  have hbuild : (s'.pc t).Delivers →
      attemptedBy t (xs ++ [.exec t e]) ++ (s'.pc t).holds = attemptedBy t xs ++ (s.pc t).holds →
      Tracked t c (xs ++ [.exec t e]) s' ∧
        (Caught t c (xs ++ [.exec t e]) s' ↔ Caught t c xs s) := by
    intro hdel' hall
    refine ⟨⟨Or.inr hdel', hreg, fun hc => ?_⟩, ?_⟩
    · simp [delivers_seen hdel'] at hc
    · unfold Caught
      rw [hall, hids, Delivers.asks hdel', Delivers.asks hdel]
  cases hd with
  | quiet hq hh hdel' =>
    refine hbuild hdel' ?_
    rw [attemptedBy_other fun h hl => hq h (by simpa using hl), hh]
  | @attempts h hq hh hdel' =>
    refine hbuild hdel' ?_
    rw [hq, attemptedBy_attempt, hh, List.append_assoc, List.singleton_append]
  | panics hq _ => exact (he hq).elim

/-- The step lemma: `c` is caught by what caught it before and by the reads that sight it. -/
theorem caught_step_iff (hs : Tracked t c xs s) (hsnap : Snapshot s.shared.clients
    (attemptedBy t xs ++ (s.pc t).holds)) (hl : l.Continues t)
    (hreg : (s'.shared.clients.connections.lookup c).isSome) (hstep : CallStep s l s') :
    Tracked t c (xs ++ [l]) s' ∧ (Caught t c (xs ++ [l]) s' ↔
      Caught t c xs s ∨ (∃ e, l = .exec t e) ∧ (s.pc t).Sights s.shared c) := by
  obtain ⟨hcall, habort, hpanic⟩ := hl
  cases step_turn hstep t with
  | other hl hpc =>
    obtain ⟨ht, hsame⟩ := hs.other hsnap hstep hreg hl hpc
    refine ⟨ht, hsame.trans (or_iff_left ?_).symm⟩
    rintro ⟨⟨e, he⟩, -⟩
    exact hl e he
  | call => exact (hcall _ rfl).elim
  | @exec e sh pc hfree hx =>
    have hown : (∃ e', CallLabel.exec t e = .exec t e') ↔ True := by simp
    rw [hown, true_and]
    rcases hs.pos with ⟨hun, hnone⟩ | hdel
    · have he : ∀ h, e ≠ .attempt h := by
        rintro h rfl
        exact attempt_not_uniting hx hun
      exact hs.unite hsnap hnone hstep he hreg (by rw [s.goto_pc]; exact exec_unites hx hun c)
    · obtain ⟨ht, hsame⟩ := Tracked.deliver hsnap hdel hstep (by simpa using hpanic) hreg
        (by rw [s.goto_pc]; exact exec_deals hx hdel)
      exact ⟨ht, hsame.trans (or_iff_left (delivers_not_sights hdel)).symm⟩
  | abort => exact (habort rfl).elim

/-- A moment of a union call: the labels so far continue the call. -/
structure Midway (t : Task) (groups : List GroupName) (msg : Message) (c : ConnId)
    (s₀ : Calls Task) (xs : List (CallLabel Task)) (s : Calls Task) : Prop where
  call : CallOf t (.broadcastGroups groups (some msg)) s₀ xs s
  run : (registeredSystem Task c).Run
    (s₀.goto t s₀.shared (Op.broadcastGroups groups (some msg)).start) xs s
  tracked : Tracked t c xs s

theorem Midway.snapshot (h : Midway t groups msg c s₀ xs s) :
    Snapshot s.shared.clients (attemptedBy t xs ++ (s.pc t).holds) :=
  (h.call.informed rfl).snapshot

theorem Midway.step (h : Midway t groups msg c s₀ xs s) (hl : l.Continues t)
    (hstep : (registeredSystem Task c).Tr s l s') : Midway t groups msg c s₀ (xs ++ [l]) s' ∧
      (Caught t c (xs ++ [l]) s' ↔
        Caught t c xs s ∨ (∃ e, l = .exec t e) ∧ (s.pc t).Sights s.shared c) := by
  obtain ⟨htracked, hiff⟩ := caught_step_iff h.tracked h.snapshot hl hstep.2 hstep.1
  refine ⟨⟨⟨h.call.reached, h.call.start, h.call.run.snoc hstep.1, fun op hop => ?_⟩,
    h.run.snoc hstep, htracked⟩, hiff⟩
  rcases List.mem_append.mp hop with hop | hop
  · exact h.call.same op hop
  · exact hl.1 op (List.mem_singleton.mp hop).symm

/-- All labels continue the call of `t`. -/
def Continues (t : Task) (xs : List (CallLabel Task)) : Prop := ∀ l ∈ xs, l.Continues t

/-- The run lemma, forwards: once caught, `c` stays caught. -/
theorem Midway.run_caught {ys : List (CallLabel Task)} (h : Midway t groups msg c s₀ xs s)
    (hys : Continues t ys) (hrun : (registeredSystem Task c).Run s ys s') :
    Midway t groups msg c s₀ (xs ++ ys) s' ∧ (Caught t c xs s → Caught t c (xs ++ ys) s') := by
  refine hrun.history (H := fun zs u => Continues t zs →
    Midway t groups msg c s₀ (xs ++ zs) u ∧ (Caught t c xs s → Caught t c (xs ++ zs) u))
    (fun _ => by simpa using h) ?_ hys
  intro zs u l w hstep hu hzs
  obtain ⟨hmid, hkeep⟩ := hu fun l hl => hzs l (List.mem_append_left _ hl)
  obtain ⟨hmid', hiff⟩ := hmid.step (hzs l (by simp)) hstep
  rw [← List.append_assoc]
  exact ⟨hmid', fun hc => hiff.mpr (Or.inl (hkeep hc))⟩

theorem UnionCall.continues (h : UnionCall t groups msg c s₀ xs s) : Continues t xs := by
  intro l hl
  refine ⟨fun op => ?_, ?_, ?_⟩
  · rintro rfl
    exact h.same op hl
  · rintro rfl
    exact h.complete.1 hl
  · rintro rfl
    exact h.complete.2 hl

theorem UnionCall.midway (h : UnionCall t groups msg c s₀ xs s) : Midway t groups msg c s₀ []
    (s₀.goto t s₀.shared (Op.broadcastGroups groups (some msg)).start) := by
  refine ⟨⟨h.reached, h.start, .refl, by simp⟩, .refl, ?_, h.registered, ?_⟩
  · rw [s₀.goto_pc]
    exact Or.inl ⟨trivial, rfl⟩
  · rw [s₀.goto_pc]
    simp [Op.start, Pc.seen]

theorem not_caught_start (s : Calls Task) : ¬ Caught t c []
    (s.goto t s.shared (Op.broadcastGroups groups (some msg)).start) := by
  unfold Caught
  rw [s.goto_pc]
  simp [Op.start, Pc.asks, Pc.holds, attemptedBy, Calls.ids]

/-- The run lemma, backwards: what is caught was sighted. -/
theorem Midway.sighted (h : Midway t groups msg c s₀ xs s) (hxs : Continues t xs)
    (h₀ : Midway t groups msg c s₀ []
      (s₀.goto t s₀.shared (Op.broadcastGroups groups (some msg)).start))
    (hc : Caught t c xs s) :
    Sighted t c (s₀.goto t s₀.shared (Op.broadcastGroups groups (some msg)).start) xs s := by
  refine (h.run.history (H := fun zs u => Continues t zs → Midway t groups msg c s₀ zs u ∧
    (Caught t c zs u → Sighted t c
      (s₀.goto t s₀.shared (Op.broadcastGroups groups (some msg)).start) zs u))
    (fun _ => ⟨h₀, fun hc => (not_caught_start s₀ hc).elim⟩) ?_ hxs).2 hc
  intro zs u l w hstep hu hzs
  obtain ⟨hmid, hkeep⟩ := hu fun l hl => hzs l (List.mem_append_left _ hl)
  obtain ⟨hmid', hiff⟩ := hmid.step (hzs l (by simp)) hstep
  refine ⟨hmid', fun hc => ?_⟩
  rcases hiff.mp hc with hold | ⟨⟨e, rfl⟩, hsight⟩
  · obtain ⟨ys, v, e, v', ws, rfl, hpre, htr, hpost, hsight⟩ := hkeep hold
    exact ⟨ys, v, e, v', ws ++ [l], by simp, hpre, htr, hpost.snoc hstep, hsight⟩
  · exact ⟨zs, u, e, w, [], rfl, hmid.run, hstep, .refl, hsight⟩

/-- A connection that stays registered gets exactly one delivery attempt from a call of
`broadcast_groups` that returns, exactly if the call reads its shard of some listed group at
a moment when it is a member of that group. -/
theorem one_attempt_iff (h : UnionCall t groups msg c s₀ xs s) :
    (s.ids (attemptedBy t xs)).count c = 1 ↔
      Sighted t c (s₀.goto t s₀.shared (Op.broadcastGroups groups (some msg)).start) xs s := by
  have hxs := h.continues
  obtain ⟨hmid, -⟩ := h.midway.run_caught hxs h.run
  have hd : (s.ids (attemptedBy t xs ++ (s.pc t).holds)).Nodup := hmid.snapshot.distinct
  rw [h.returned] at hd
  simp only [Pc.holds, List.append_nil] at hd
  have hcount : (s.ids (attemptedBy t xs)).count c = 1 ↔ Caught t c xs s := by
    have hmem : Caught t c xs s ↔ c ∈ s.ids (attemptedBy t xs) := by
      unfold Caught
      rw [h.returned]
      simp [Pc.asks, Pc.holds]
    rw [hmem, hd.count]
    simp
  rw [hcount]
  constructor
  · intro hc
    exact hmid.sighted hxs h.midway hc
  · rintro ⟨ys, u, e, v, zs, rfl, hpre, htr, hpost, hsight⟩
    have hys : Continues t ys := fun l hl => hxs l (List.mem_append_left _ hl)
    have hzs : Continues t zs := fun l hl => hxs l (by simp [hl])
    obtain ⟨hu, -⟩ := h.midway.run_caught hys hpre
    obtain ⟨hv, hiff⟩ := hu.step (hxs _ (by simp)) htr
    obtain ⟨-, hkeep⟩ := hv.run_caught hzs hpost
    simpa using hkeep (hiff.mpr (Or.inr ⟨⟨e, rfl⟩, hsight⟩))

/-- The connection moves from one listed group to the other before either is read: it is read in
the second one, and gets its attempt. -/
theorem one_attempt_moved : ∃ s₀ xs s, UnionCall false ["g1", "g2"] (.text "news") "c" s₀ xs s ∧
    .call true (.removeFromGroup "c" "g1") ∈ xs ∧ .call true (.addToGroup "c" "g2") ∈ xs ∧
    attemptedBy false xs = [0] ∧ Sighted false "c"
      (s₀.goto false s₀.shared (.openGroups ["g1", "g2"] (.text "news") ∅ [])) xs s := by
  have hrun : ∃ s₀ xs s, UnionCall false ["g1", "g2"] (.text "news") "c" s₀ xs s ∧
      .call true (.removeFromGroup "c" "g1") ∈ xs ∧ .call true (.addToGroup "c" "g2") ∈ xs ∧
      attemptedBy false xs = [0] ∧ s.ids [0] = ["c"] := by
    refine ⟨_, _, _, ⟨⟨idlePair .block, idlePair_fresh _, _,
      .step (.call (t := true) (.add "c" "tx" "token" "drop") rfl) <|
      .step (.exec (t := true) (granted_of_free rfl) (.insert "c" "tx" "token" "drop")) <|
      .step (.call (t := true) (.addToGroup "c" "g1") rfl) <|
      .step (.exec (t := true) (granted_of_unguarded (by decide)) (.joinMembers "c" "g1")) <|
      .single (.exec (t := true) (granted_of_free rfl) (.joinGroups "c" "g1"))⟩, rfl, rfl,
      .step ⟨.call (t := true) (.removeFromGroup "c" "g1") rfl, rfl⟩ <|
      .step ⟨.exec (t := true) (granted_of_free rfl) (.leaveMembers "c" "g1"), rfl⟩ <|
      .step ⟨.exec (t := true) (granted_of_free rfl) (.leaveGroups "c" "g1"), rfl⟩ <|
      .step ⟨.call (t := true) (.addToGroup "c" "g2") rfl, rfl⟩ <|
      .step ⟨.exec (t := true) (granted_of_unguarded (by decide)) (.joinMembers "c" "g2"), rfl⟩ <|
      .step ⟨.exec (t := true) (granted_of_free rfl) (.joinGroups "c" "g2"), rfl⟩ <|
      .step ⟨.exec (t := false) (granted_of_free rfl) (@Exec.nextFound _ _ _ _ _ _ ∅
        ⟨1, fun _ => 0⟩ (by decide)), rfl⟩ <|
      .step ⟨.exec (t := false) (granted_of_free rfl) (@Exec.scanGroups _ _ _ _ _ _ _ _ _ []
        (by decide) ⟨by decide, fun id => ?_⟩), rfl⟩ <|
      .step ⟨.exec (t := false) (granted_of_free rfl) (.collected (by decide)), rfl⟩ <|
      .step ⟨.exec (t := false) (granted_of_free rfl) .filtered, rfl⟩ <|
      .step ⟨.exec (t := false) (granted_of_free rfl) (@Exec.nextFound _ _ _ _ _ _ {"c"}
        ⟨1, fun _ => 0⟩ (by decide)), rfl⟩ <|
      .step ⟨.exec (t := false) (granted_of_free rfl) (@Exec.scanGroups _ _ _ _ _ _ _ _ _ ["c"]
        (by decide) ⟨by decide, fun id => ?_⟩), rfl⟩ <|
      .step ⟨.exec (t := false) (granted_of_free rfl) (.collected (by decide)), rfl⟩ <|
      .step ⟨.exec (t := false) (granted_of_free rfl) (.lookupFirst (by decide)), rfl⟩ <|
      .step ⟨.exec (t := false) (granted_of_free rfl) .filtered, rfl⟩ <|
      .step ⟨.exec (t := false) (granted_of_free rfl) .groupsDone, rfl⟩ <|
      .step ⟨.exec (t := false) (granted_of_free rfl) .next, rfl⟩ <|
      .step ⟨.exec (t := false) (granted_of_free rfl) (.accept ⟨by decide, by decide⟩), rfl⟩ <|
      .single ⟨.exec (t := false) (granted_of_free rfl) .delivered, rfl⟩, by simp, rfl,
      by simp⟩, by simp, by simp, rfl, ?_⟩
    · change id ∈ [] ↔ id ∈ SetMap.values (SetMap.add (SetMap.discard (SetMap.add ∅ "g1" "c")
        "g1" "c") "g2" "c") "g1" ∧ _
      simp
    · change id ∈ ["c"] ↔ id ∈ SetMap.values (SetMap.add (SetMap.discard (SetMap.add ∅ "g1" "c")
        "g1" "c") "g2" "c") "g2" ∧ _
      simp
    · rfl
  obtain ⟨s₀, xs, s, hcall, hleave, hjoin, hattempts, hids⟩ := hrun
  refine ⟨s₀, xs, s, hcall, hleave, hjoin, hattempts, (one_attempt_iff hcall).mp ?_⟩
  rw [hattempts, hids]
  rfl

/-- While `c` is in one of the groups at every moment. -/
def memberSystem (c : ConnId) (groups : List GroupName) : LTS (Calls Bool) (CallLabel Bool) :=
  (registeredSystem Bool c).restrict fun u _ v =>
    (∃ g ∈ groups, c ∈ u.shared.clients.groupMembers.values g) ∧
      ∃ g ∈ groups, c ∈ v.shared.clients.groupMembers.values g

/-- The connection moves from the group that is still to be read to the one that has been
read: it is in one of them at every moment, and gets no attempt. -/
theorem moved_member_missed : ∃ s₀ xs s,
    UnionCall false ["g1", "g2"] (.text "news") "c" s₀ xs s ∧
    (memberSystem "c" ["g1", "g2"]).Run
      (s₀.goto false s₀.shared (.openGroups ["g1", "g2"] (.text "news") ∅ [])) xs s ∧
    (s.ids (attemptedBy false xs)).count "c" ≠ 1 := by
  have hrun : ∃ s₀ xs s, (callSystem Bool).Reachable Calls.Fresh s₀ ∧ s₀.pc false = .idle ∧
      (s₀.shared.clients.connections.lookup "c").isSome ∧ (memberSystem "c" ["g1", "g2"]).Run
        (s₀.goto false s₀.shared (.openGroups ["g1", "g2"] (.text "news") ∅ [])) xs s ∧
      (∀ op, .call false op ∉ xs) ∧ s.pc false = .idle ∧
      (.abort false ∉ xs ∧ .exec false .panic ∉ xs) ∧ attemptedBy false xs = [] := by
    refine ⟨_, _, _, ⟨idlePair .block, idlePair_fresh _, _,
      .step (.call (t := true) (.add "c" "tx" "token" "drop") rfl) <|
      .step (.exec (t := true) (granted_of_free rfl) (.insert "c" "tx" "token" "drop")) <|
      .step (.call (t := true) (.addToGroup "c" "g2") rfl) <|
      .step (.exec (t := true) (granted_of_unguarded (by decide)) (.joinMembers "c" "g2")) <|
      .single (.exec (t := true) (granted_of_free rfl) (.joinGroups "c" "g2"))⟩, rfl, rfl,
      .step ⟨⟨.exec (t := false) (granted_of_free rfl) (.nextMissing (by decide)), rfl⟩,
        ⟨"g2", by simp, by decide⟩, "g2", by simp, by decide⟩ <|
      .step ⟨⟨.call (t := true) (.addToGroup "c" "g1") rfl, rfl⟩,
        ⟨"g2", by simp, by decide⟩, "g2", by simp, by decide⟩ <|
      .step ⟨⟨.exec (t := true) (granted_of_unguarded (by decide)) (.joinMembers "c" "g1"), rfl⟩,
        ⟨"g2", by simp, by decide⟩, "g1", by simp, by decide⟩ <|
      .step ⟨⟨.exec (t := true) (granted_of_free rfl) (.joinGroups "c" "g1"), rfl⟩,
        ⟨"g1", by simp, by decide⟩, "g1", by simp, by decide⟩ <|
      .step ⟨⟨.call (t := true) (.removeFromGroup "c" "g2") rfl, rfl⟩,
        ⟨"g1", by simp, by decide⟩, "g1", by simp, by decide⟩ <|
      .step ⟨⟨.exec (t := true) (granted_of_free rfl) (.leaveMembers "c" "g2"), rfl⟩,
        ⟨"g1", by simp, by decide⟩, "g1", by simp, by decide⟩ <|
      .step ⟨⟨.exec (t := true) (granted_of_free rfl) (.leaveGroups "c" "g2"), rfl⟩,
        ⟨"g1", by simp, by decide⟩, "g1", by simp, by decide⟩ <|
      .step ⟨⟨.exec (t := false) (granted_of_free rfl) (@Exec.nextFound _ _ _ _ _ _ ∅
        ⟨1, fun _ => 0⟩ (by decide)), rfl⟩, ⟨"g1", by simp, by decide⟩, "g1", by simp, by decide⟩ <|
      .step ⟨⟨.exec (t := false) (granted_of_free rfl) (@Exec.scanGroups _ _ _ _ _ _ _ _ _ []
        (by decide) ⟨by decide, fun id => ?_⟩), rfl⟩,
        ⟨"g1", by simp, by decide⟩, "g1", by simp, by decide⟩ <|
      .step ⟨⟨.exec (t := false) (granted_of_free rfl) (.collected (by decide)), rfl⟩,
        ⟨"g1", by simp, by decide⟩, "g1", by simp, by decide⟩ <|
      .step ⟨⟨.exec (t := false) (granted_of_free rfl) .filtered, rfl⟩,
        ⟨"g1", by simp, by decide⟩, "g1", by simp, by decide⟩ <|
      .step ⟨⟨.exec (t := false) (granted_of_free rfl) .groupsDone, rfl⟩,
        ⟨"g1", by simp, by decide⟩, "g1", by simp, by decide⟩ <|
      .single ⟨⟨.exec (t := false) (granted_of_free rfl) .delivered, rfl⟩,
        ⟨"g1", by simp, by decide⟩, "g1", by simp, by decide⟩, by simp, rfl, by simp, rfl⟩
    change id ∈ [] ↔ id ∈ SetMap.values (SetMap.discard (SetMap.add (SetMap.add ∅ "g2" "c")
      "g1" "c") "g2" "c") "g2" ∧ _
    simp
  obtain ⟨s₀, xs, s, hreach, hidle, hreg, hmember, hsame, hret, hcomplete, hnone⟩ := hrun
  refine ⟨s₀, xs, s, ⟨hreach, hidle, hreg, hmember.of_restrict, hsame, hret, hcomplete⟩,
    hmember, ?_⟩
  rw [hnone]
  simp [Calls.ids]

end AxumSignal
