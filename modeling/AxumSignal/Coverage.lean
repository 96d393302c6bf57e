import AxumSignal.Union

/-! Which connections a broadcast is sure to reach, whatever else happens meanwhile. -/
namespace AxumSignal

open Transition Calls LTS

variable {Task : Type} [DecidableEq Task] {s s' s₀ : Calls Task} {sh sh' : Shared}
  {pc pc' : Pc} {e : Event} {t : Task} {c : ConnId} {op : Op} {l : CallLabel Task}
  {xs : List (CallLabel Task)} {msg : Message} {dest : Option GroupName}
  {out : List ConnId} {dests : Option (List GroupName)}

/-- The connection is registered, and a member of the group `dest` if there is one. -/
structure InMemoryWsClients.Stays (r : InMemoryWsClients) (c : ConnId)
    (dest : Option GroupName) : Prop where
  registered : (r.connections.lookup c).isSome
  member : ∀ g ∈ dest, c ∈ r.groupMembers.values g

/-- A broadcast to everyone addresses no group; another one addresses the groups it lists. -/
def Op.Addresses (op : Op) (dest : Option GroupName) : Prop :=
  match op.groups, dest with
  | none, none => True
  | some groups, some g => g ∈ groups
  | _, _ => False

/-- The shard of `c`, in the group `dest` if there is one, is still to be read. -/
def Pc.Unread (c : ConnId) (dest : Option GroupName) : Pc → Prop
  | .iter _ _ => dest = none
  | .scan _ _ layout next _ => dest = none ∧ next ≤ (layout.index c : Nat)
  | .openGroup group _ _ => dest = some group
  | .scanGroup group _ _ layout next _ _ => dest = some group ∧ next ≤ (layout.index c : Nat)
  | .openGroups groups _ _ _ | .filterGroups _ groups _ _ _ => ∃ g ∈ dest, g ∈ groups
  | .scanGroups group groups _ _ _ layout next _ =>
    ∃ g ∈ dest, g ∈ groups ∨ g = group ∧ next ≤ (layout.index c : Nat)
  | _ => False

/-- The connections whose registrations the call has collected. -/
def Pc.collected (s : InMemoryWsClients) (pc : Pc) : List ConnId :=
  pc.holds.map fun h => (s.states h).id

/-- The call has collected `c`, or will look it up. -/
def Pc.Picks (s : InMemoryWsClients) (c : ConnId) (pc : Pc) : Prop :=
  c ∈ pc.asks ∨ c ∈ pc.collected s

/-- A shard of `c` that is behind the next one has been read. -/
theorem index_cases (layout : Layout) (c : ConnId) {next : Nat}
    (h : next ≤ (layout.index c : Nat)) :
    next + 1 ≤ (layout.index c : Nat) ∨ (layout.index c : Nat) = next :=
  (Nat.lt_or_eq_of_le h).imp_right Eq.symm

theorem not_past (layout : Layout) (c : ConnId) {next : Nat} (hnext : layout.shards ≤ next) :
    ¬ next ≤ (layout.index c : Nat) :=
  Nat.not_le.mpr ((layout.index c).isLt.trans_le hnext)

theorem mem_collected_lookup {s : InMemoryWsClients} {ids : List ConnId} (hid : c ∈ ids)
    (hreg : (s.connections.lookup c).isSome) :
    c ∈ (ids.filterMap s.connections.lookup).map fun h => (s.states h).id := by
  obtain ⟨h, hl⟩ := Option.isSome_iff_exists.mp hreg
  exact List.mem_map.mpr ⟨h, List.mem_filterMap.mpr ⟨c, hid, hl⟩, s.key_id c h hl⟩

/-- What is unread stays so until the shard of `c` is read, and then `c` is picked. -/
theorem exec_unread (hx : Exec sh pc e sh' pc') (hc : pc.Collects out dests) (hout : c ∉ out)
    (hs : sh.clients.Stays c dest) (h : pc.Unread c dest) :
    pc'.Unread c dest ∨ pc'.Picks sh'.clients c := by
  have hfound : ∀ {g : GroupName}, dest = some g → sh.clients.groupMembers.lookup g ≠ none := by
    intro g hg hl
    have hmem := hs.member g hg
    simp [SetMap.values_of_lookup_none hl] at hmem
  cases hx with
  | iter layout => exact Or.inl ⟨h, Nat.zero_le _⟩
  | @scan excluded msg layout next found ids hnext hids =>
    obtain ⟨rfl, -⟩ := hc
    obtain ⟨hdest, hle⟩ := h
    rcases index_cases layout c hle with hlater | hnow
    · exact Or.inl ⟨hdest, hlater⟩
    · have hkey : c ∈ sh.clients.connections.keys := by
        simpa [Finmap.mem_keys, ← Finmap.lookup_isSome] using hs.registered
      have hin : c ∈ ids.filter (· ∉ excluded) := by
        simpa [hout] using (hids.mem c).mpr ⟨hkey, hnow⟩
      refine Or.inr (Or.inr ?_)
      rw [Pc.collected, Pc.holds, List.map_append]
      exact List.mem_append_right _ (mem_collected_lookup hin hs.registered)
  | scanned hnext => exact (not_past _ _ hnext h.2).elim
  | groupFound layout => exact Or.inl ⟨h, Nat.zero_le _⟩
  | groupMissing hl => exact (hfound h hl).elim
  | @scanGroup group excluded msg layout next found ids hnext hids =>
    obtain ⟨rfl, -⟩ := hc
    obtain ⟨hdest, hle⟩ := h
    rcases index_cases layout c hle with hlater | hnow
    · exact Or.inl ⟨hdest, hlater⟩
    · have hin := (hids.mem c).mpr ⟨hs.member group hdest, hnow⟩
      exact Or.inr (Or.inl (List.mem_filter.mpr ⟨hin, by simpa using hout⟩))
  | lookupMember => exact Or.inl h
  | groupScanned hnext => exact (not_past _ _ hnext h.2).elim
  | nextFound layout =>
    obtain ⟨g, hg, hin⟩ := h
    refine Or.inl ⟨g, hg, ?_⟩
    rcases List.mem_cons.mp hin with rfl | hin
    · exact Or.inr ⟨rfl, Nat.zero_le _⟩
    · exact Or.inl hin
  | nextMissing hl =>
    obtain ⟨g, hg, hin⟩ := h
    rcases List.mem_cons.mp hin with rfl | hin
    · exact (hfound hg hl).elim
    · exact Or.inl ⟨g, hg, hin⟩
  | groupsDone =>
    obtain ⟨g, -, hin⟩ := h
    simp at hin
  | @scanGroups group groups msg seen found layout next ids yielded hnext hids =>
    obtain ⟨g, hg, hin | ⟨rfl, hle⟩⟩ := h
    · exact Or.inl ⟨g, hg, Or.inl hin⟩
    · rcases index_cases layout c hle with hlater | hnow
      · exact Or.inl ⟨g, hg, Or.inr ⟨rfl, hlater⟩⟩
      · have hin := (hids.mem c).mpr ⟨hs.member g hg, hnow⟩
        exact Or.inr (Or.inl (List.mem_append_right _ hin))
  | collected hnext =>
    obtain ⟨g, hg, hin | ⟨-, hle⟩⟩ := h
    · exact Or.inl ⟨g, hg, hin⟩
    · exact (not_past _ _ hnext hle).elim
  | duplicate | lookupFirst | filtered => exact Or.inl h
  | _ => exact hc.elim

/-- What is picked stays picked, given that the ids already seen have been collected. -/
theorem exec_picks (hx : Exec sh pc e sh' pc') (hc : pc.Collects out dests)
    (hreg : (sh.clients.connections.lookup c).isSome)
    (hseen : c ∈ pc.seen → c ∈ pc.collected sh.clients) (h : pc.Picks sh.clients c) :
    pc'.Picks sh'.clients c := by
  have hfirst : ∀ {id : ConnId} {ids : List ConnId} {found : List Handle},
      (c ∈ id :: ids ∨ c ∈ found.map fun h => (sh.clients.states h).id) →
      c ∈ ids ∨ c ∈ (found ++ (sh.clients.connections.lookup id).toList).map
        fun h => (sh.clients.states h).id := by
    intro id ids found hin
    rw [List.map_append, List.mem_append]
    rcases hin with hin | hin
    · rcases List.mem_cons.mp hin with rfl | hin
      · refine Or.inr (Or.inr ?_)
        rw [lookup_toList]
        exact mem_collected_lookup (List.mem_singleton_self _) hreg
      · exact Or.inl hin
    · exact Or.inr (Or.inl hin)
  cases hx with
  | iter | groupFound => exact h
  | scan =>
    refine Or.inr ?_
    rw [Pc.collected, Pc.holds, List.map_append]
    exact List.mem_append_left _ (h.resolve_left (by simp [Pc.asks]))
  | scanned | groupScanned | groupMissing | nextFound | nextMissing | groupsDone | collected
  | filtered =>
    exact h
  | scanGroup => exact Or.inr (h.resolve_left (by simp [Pc.asks]))
  | lookupMember => exact hfirst h
  | scanGroups => exact h.imp_left (List.mem_append_left _)
  | duplicate hdup =>
    rcases h with hin | hin
    · rcases List.mem_cons.mp hin with rfl | hin
      · exact Or.inr (hseen hdup)
      · exact Or.inl hin
    · exact Or.inr hin
  | lookupFirst => exact hfirst h
  | _ => exact hc.elim

/-- The ids already seen have been collected. -/
theorem exec_seen (hx : Exec sh pc e sh' pc') (hc : pc.Collects out dests)
    (hreg : (sh.clients.connections.lookup c).isSome)
    (hseen : c ∈ pc.seen → c ∈ pc.collected sh.clients) (h : c ∈ pc'.seen) :
    c ∈ pc'.collected sh'.clients := by
  cases hx with
  | nextFound | nextMissing | scanGroups | collected | duplicate | filtered => exact hseen h
  | @lookupFirst id ids groups msg seen found hnew =>
    rw [Pc.collected, Pc.holds, List.map_append, List.mem_append]
    rcases Finset.mem_insert.mp h with rfl | hin
    · rw [lookup_toList]
      exact Or.inr (mem_collected_lookup (List.mem_singleton_self _) hreg)
    · exact Or.inl (hseen hin)
  | iter | scan | scanned | groupFound | groupMissing | scanGroup | lookupMember | groupScanned
  | groupsDone =>
    simp [Pc.seen] at h
  | _ => exact hc.elim

/-- Where a broadcast of `t` is with `c`, which stays where it is addressed. -/
structure Reaching (t : Task) (c : ConnId) (dest : Option GroupName) (xs : List (CallLabel Task))
    (s : Calls Task) : Prop where
  seen : c ∈ (s.pc t).seen → c ∈ s.ids (s.pc t).holds
  reach : (s.pc t).Unread c dest ∨ Caught t c xs s

omit [DecidableEq Task] in
theorem delivers_not_unread (h : pc.Delivers) : ¬ pc.Unread c dest := by
  cases pc <;> first | exact id | exact h.elim

theorem caught_iff_picks (hnone : attemptedBy t xs = []) :
    Caught t c xs s ↔ (s.pc t).Picks s.shared.clients c := by
  unfold Caught
  rw [hnone, List.nil_append]
  exact Iff.rfl

theorem Reaching.other (hs : Reaching t c dest xs s) (hstep : CallStep s l s')
    (hsnap : Snapshot s.shared.clients (attemptedBy t xs ++ (s.pc t).holds))
    (hl : ∀ e, l ≠ .exec t e) (hpc : s'.pc t = s.pc t) : Reaching t c dest (xs ++ [l]) s' := by
  have hheld : s'.ids (s.pc t).holds = s.ids (s.pc t).holds :=
    ids_step hstep fun h hh => hsnap.allocated h (List.mem_append_right _ hh)
  refine ⟨?_, ?_⟩
  · rw [hpc, hheld]
    exact hs.seen
  · unfold Caught
    rw [hpc, attemptedBy_other fun h => hl (.attempt h), ids_step hstep hsnap.allocated]
    exact hs.reach

/-- An access of the call while it collects its recipients. -/
theorem Reaching.collect (hs : Reaching t c dest xs s) (hx : Exec s.shared (s.pc t) e sh pc)
    (hc : (s.pc t).Collects out dests) (hnone : attemptedBy t xs = []) (hout : c ∉ out)
    (hstays : s.shared.clients.Stays c dest) :
    Reaching t c dest (xs ++ [.exec t e]) (s.goto t sh pc) := by
  have hquiet := (exec_reads hx hc).quiet
  have hnone' : attemptedBy t (xs ++ [.exec t e]) = [] := by
    rw [attemptedBy_other fun h hl => hquiet h (by simpa using hl), hnone]
  refine ⟨?_, ?_⟩
  · rw [goto_pc]
    exact exec_seen hx hc hstays.registered hs.seen
  · rw [caught_iff_picks hnone', goto_pc]
    rcases hs.reach with hunread | hcaught
    · exact exec_unread hx hc hout hstays hunread
    · rw [caught_iff_picks hnone] at hcaught
      exact Or.inr (exec_picks hx hc hstays.registered hs.seen hcaught)

/-- An access of the call while it delivers. -/
theorem Reaching.deliver (hs : Reaching t c dest xs s) (hstep : CallStep s (.exec t e) s')
    (hsnap : Snapshot s.shared.clients (attemptedBy t xs ++ (s.pc t).holds))
    (hdel : (s.pc t).Delivers) (hd : Deals (s.pc t) (s'.pc t) e) (he : e ≠ .panic) :
    Reaching t c dest (xs ++ [.exec t e]) s' := by
  have hcaught := hs.reach.resolve_left (delivers_not_unread hdel)
  have hin : c ∈ s.ids (attemptedBy t xs ++ (s.pc t).holds) := by
    rcases hcaught with hasks | hin
    · simp [Delivers.asks hdel] at hasks
    · exact hin
  rw [← ids_step hstep hsnap.allocated] at hin
  have hkeeps : (s'.pc t).Delivers →
      attemptedBy t (xs ++ [.exec t e]) ++ (s'.pc t).holds = attemptedBy t xs ++ (s.pc t).holds →
      Reaching t c dest (xs ++ [.exec t e]) s' := by
    intro hdel' hall
    refine ⟨fun hc => ?_, Or.inr (Or.inr (hall ▸ hin))⟩
    simp [delivers_seen hdel'] at hc
  cases hd with
  | quiet hq hh hdel' =>
    refine hkeeps hdel' ?_
    rw [attemptedBy_other fun h hl => hq h (by simpa using hl), hh]
  | attempts hq hh hdel' =>
    refine hkeeps hdel' ?_
    rw [hq, attemptedBy_attempt, hh, List.append_assoc, List.singleton_append]
  | panics hq => exact (he hq).elim

/-- The step lemma. -/
theorem reaching_step (hs : Reaching t c dest xs s) (hinf : Informed t op s₀ xs s)
    (hout : c ∉ op.excluded) (hstays : s.shared.clients.Stays c dest) (hl : l.Continues t)
    (hstep : CallStep s l s') : Reaching t c dest (xs ++ [l]) s' := by
  obtain ⟨hcall, habort, hpanic⟩ := hl
  cases step_turn hstep t with
  | other hl hpc => exact hs.other hstep hinf.snapshot hl hpc
  | call => exact (hcall _ rfl).elim
  | exec _ hx =>
    rcases hinf.pos with ⟨hc, hnone⟩ | hdel
    · exact hs.collect hx hc hnone hout hstays
    · refine hs.deliver hstep hinf.snapshot hdel ?_ (by simpa using hpanic)
      rw [goto_pc]
      exact exec_deals hx hdel
  | abort => exact (habort rfl).elim

theorem unread_start (hm : op.message = some msg) (hdest : op.Addresses dest) :
    op.start.Unread c dest := by
  cases op with
  | broadcastExcept =>
    obtain rfl : _ = some msg := hm
    cases dest with
    | none => rfl
    | some => exact hdest.elim
  | broadcastGroup | broadcastGroupExcept =>
    obtain rfl : _ = some msg := hm
    cases dest with
    | none => exact hdest.elim
    | some g => exact congrArg some (List.mem_singleton.mp hdest)
  | broadcastGroups groups =>
    obtain rfl : _ = some msg := hm
    cases dest with
    | none => exact hdest.elim
    | some g => exact ⟨g, rfl, hdest⟩
  | _ => simp [Op.message] at hm

/-- The system while `c` stays registered, and in the group `dest` if there is one. -/
def stayingSystem (Task : Type) [DecidableEq Task] (c : ConnId) (dest : Option GroupName) :
    LTS (Calls Task) (CallLabel Task) :=
  (callSystem Task).restrict fun _ _ v => v.shared.clients.Stays c dest

/-- The run lemma. -/
theorem reaching_run (h : (callSystem Task).Reachable Calls.Fresh s₀) (hidle : s₀.pc t = .idle)
    (hstays : s₀.shared.clients.Stays c dest) (hm : op.message = some msg)
    (hdest : op.Addresses dest) (hout : c ∉ op.excluded)
    (hrun : (stayingSystem Task c dest).Run (s₀.goto t s₀.shared op.start) xs s)
    (hxs : Continues t xs) : CallOf t op s₀ xs s ∧ Reaching t c dest xs s := by
  have hstart : Reaching t c dest [] (s₀.goto t s₀.shared op.start) := by
    refine ⟨fun hc => ?_, Or.inl ?_⟩
    · have hnone : op.start.seen = ∅ := by
        unfold Op.start
        split <;> rfl
      rw [goto_pc, hnone] at hc
      simp at hc
    · rw [goto_pc]
      exact unread_start hm hdest
  suffices h : Continues t xs → s.shared.clients.Stays c dest ∧ CallOf t op s₀ xs s ∧
      Reaching t c dest xs s from (h hxs).2
  refine hrun.history (H := fun ys u => Continues t ys → u.shared.clients.Stays c dest ∧
    CallOf t op s₀ ys u ∧ Reaching t c dest ys u)
    (fun _ => ⟨hstays, ⟨h, hidle, .refl, by simp⟩, hstart⟩) ?_
  intro ys u l w hstep hu hys
  obtain ⟨hstays, hof, hreach⟩ := hu fun l hl => hys l (List.mem_append_left _ hl)
  have hl := hys l (by simp)
  refine ⟨hstep.2, ⟨h, hidle, hof.run.snoc hstep.1, fun op' hop => ?_⟩,
    reaching_step hreach (hof.informed hm) hout hstays hl hstep.1⟩
  rcases List.mem_append.mp hop with hop | hop
  · exact hof.same op' hop
  · exact hl.1 op' (List.mem_singleton.mp hop).symm

/-- A broadcast that returns has attempted exactly one delivery to each connection that it does
not leave out, that stayed registered while it ran and that stayed in one of its groups, whatever
other calls did meanwhile. -/
theorem stayer_attempted_once (h : (callSystem Task).Reachable Calls.Fresh s₀)
    (hidle : s₀.pc t = .idle) (hstays : s₀.shared.clients.Stays c dest)
    (hm : op.message = some msg) (hdest : op.Addresses dest) (hout : c ∉ op.excluded)
    (hrun : (stayingSystem Task c dest).Run (s₀.goto t s₀.shared op.start) xs s)
    (hxs : Continues t xs) (hreturned : s.pc t = .idle) :
    (s.ids (attemptedBy t xs)).count c = 1 := by
  obtain ⟨hof, hreach⟩ := reaching_run h hidle hstays hm hdest hout hrun hxs
  have hd : (s.ids (attemptedBy t xs ++ (s.pc t).holds)).Nodup :=
    (hof.informed hm).snapshot.distinct
  have hin := hreach.reach
  rw [Caught, hreturned] at hin
  rw [hreturned] at hd
  simp only [Pc.holds, List.append_nil] at hd hin
  rw [hd.count, if_pos]
  rcases hin with hunread | hasks | hin
  · exact hunread.elim
  · simp [Pc.asks] at hasks
  · exact hin

/-- Another connection is added while the message is broadcast to the one that stays. -/
theorem stayer_attempted_while_added : ∃ s₀ xs s, CallOf false (.broadcastExcept ["b"]
    (some (.text "news"))) s₀ xs s ∧ .call true (.add "b" "txB" "tokenB" "dropB") ∈ xs ∧
      (s.ids (attemptedBy false xs)).count "a" = 1 := by
  have hrun : ∃ s₀ xs s, (callSystem Bool).Reachable Calls.Fresh s₀ ∧ s₀.pc false = .idle ∧
      s₀.shared.clients.Stays "a" none ∧ (stayingSystem Bool "a" none).Run
        (s₀.goto false s₀.shared (.iter ["b"] (.text "news"))) xs s ∧ Continues false xs ∧
      s.pc false = .idle ∧ .call true (.add "b" "txB" "tokenB" "dropB") ∈ xs := by
    refine ⟨_, _, _, ⟨idlePair .block, idlePair_fresh _, _,
      .step (.call (t := true) (.add "a" "txA" "tokenA" "dropA") rfl) <|
      .single (.exec (t := true) (granted_of_free rfl) (.insert "a" "txA" "tokenA" "dropA"))⟩, rfl,
      ⟨rfl, by simp⟩,
      .step ⟨.exec (t := false) (granted_of_free rfl) (.iter ⟨1, fun _ => 0⟩), rfl, by simp⟩ <|
      .step ⟨.exec (t := false) (granted_of_free rfl) (.scan (by decide) (yields_only _ _)), rfl,
        by simp⟩ <|
      .step ⟨.call (t := true) (.add "b" "txB" "tokenB" "dropB") rfl, rfl, by simp⟩ <|
      .step ⟨.exec (t := true) (granted_of_free rfl) (.insert "b" "txB" "tokenB" "dropB"), rfl,
        by simp⟩ <|
      .step ⟨.exec (t := false) (granted_of_free rfl) (.scanned (by decide)), rfl, by simp⟩ <|
      .step ⟨.exec (t := false) (granted_of_free rfl) .next, rfl, by simp⟩ <|
      .step ⟨.exec (t := false) (granted_of_free rfl) (.accept ⟨by decide, by decide⟩), rfl,
        by simp⟩ <|
      .single ⟨.exec (t := false) (granted_of_free rfl) .delivered, rfl, by simp⟩,
      by simp [Continues, CallLabel.Continues], rfl, by simp⟩
  obtain ⟨s₀, xs, s, hreach, hidle, hstays, hrun, hxs, hreturned, hadded⟩ := hrun
  have hdest : (Op.broadcastExcept ["b"] (some (.text "news"))).Addresses none := trivial
  obtain ⟨hof, -⟩ := reaching_run hreach hidle hstays rfl hdest (by decide) hrun hxs
  exact ⟨s₀, xs, s, hof, hadded,
    stayer_attempted_once hreach hidle hstays rfl hdest (by decide) hrun hxs hreturned⟩

end AxumSignal
