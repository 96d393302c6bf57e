import AxumSignal.Eviction
import AxumSignal.Membership

/-! Calls of `remove` and evictions racing for one connection. They clear the three maps in
different orders; what one of them does not find, another one has taken. -/
namespace AxumSignal

open Transition Calls LTS

variable {Task : Type} [DecidableEq Task] {s s' : Calls Task} {sh sh' : Shared} {pc pc' : Pc}
  {e : Event} {t u : Task} {c : ConnId} {g : GroupName} {l : CallLabel Task} {n : Nat}
  {op : Op} {w : World} {xs : List (CallLabel Task)}

/-- The operations that can bring an id back into one of the maps, or take it out of a group. -/
def Op.Rejoins (c : ConnId) : Op → Prop
  | .add id _ _ _ | .addToGroup id _ | .removeFromGroup id _ => id = c
  | _ => False

/-- No such operation is called. -/
def NoRejoin (c : ConnId) (_ : Calls Task) (l : CallLabel Task) (_ : Calls Task) : Prop :=
  ∀ t op, l = .call t op → ¬ op.Rejoins c

/-- The call belongs to such an operation. -/
def Pc.Rejoins (c : ConnId) : Pc → Prop
  | .insert id _ _ _ | .joinMembers id _ | .joinGroups id _ | .leaveMembers id _
  | .leaveGroups id _ => id = c
  | _ => False

/-- The connection that the call is unregistering and cleaning up after. -/
def Pc.doomed (s : InMemoryWsClients) : Pc → Option ConnId
  | .cleanTake id _ | .cleanNext id _ _ | .cleanRemove id _ _ _ | .cleanCheck id _ _ _
  | .cleanDelete id _ _ _ | .removeEntry id | .evictCancel _ id _ => some id
  | .evictRemove h _ => some (s.states h).id
  | _ => none

/-- The call has still to take the list of groups. -/
def Pc.BeforeList : Pc → Prop
  | .evictRemove _ _ | .evictCancel _ _ _ | .cleanTake _ _ => True
  | _ => False

def Cont.Removes (id : ConnId) : Cont → Prop
  | .removal d => d = id
  | .resume _ => False

/-- The call has still to take out the registration. -/
def Pc.BeforeEntry : Pc → Prop
  | .evictRemove _ _ | .removeEntry _ => True
  | .cleanTake id k | .cleanNext id _ k | .cleanRemove id _ _ k | .cleanCheck id _ _ k
  | .cleanDelete id _ _ k => k.Removes id
  | _ => False

def Cont.Matches (id : ConnId) : Cont → Prop
  | .removal d => d = id
  | .resume _ => True

/-- The clean-up of `remove(id)` is for `id`. -/
def Pc.Matched : Pc → Prop
  | .cleanTake id k | .cleanNext id _ k | .cleanRemove id _ _ k | .cleanCheck id _ _ k
  | .cleanDelete id _ _ k => k.Matches id
  | _ => True

theorem Pc.Follows.matched (h : pc.Follows) : pc.Matched := by
  cases pc <;> trivial

theorem Pc.Follows.not_rejoins (h : pc.Follows) : ¬ pc.Rejoins c := by
  cases pc <;> first | exact id | exact h.elim

theorem start_matched (op : Op) : op.start.Matched := by
  unfold Op.start
  split <;> trivial

theorem exec_matched (hx : Exec sh pc e sh' pc') (h : pc.Matched) : pc'.Matched := by
  cases hx with
  | next => exact (follows_firstAccess _ _ _).matched
  | drop => exact (follows_afterDrop _ _ _).matched
  | accept | resume => exact (follows_accepted _ _).matched
  | refuse | disconnect => exact (follows_refused _ _).matched
  | cleanNothing | cleanDone => exact (follows_cont _).matched
  | cleanTaken | cleanFound | cleanMissing | cleanRemove | cleanEmpty | cleanKept
  | cleanDelete => exact h
  | _ => trivial

theorem start_rejoins (h : ¬ op.Rejoins c) : ¬ op.start.Rejoins c := by
  unfold Op.start
  split <;> first | exact h | exact id

theorem exec_rejoins (hx : Exec sh pc e sh' pc') (h : ¬ pc.Rejoins c) : ¬ pc'.Rejoins c := by
  cases hx with
  | next => exact (follows_firstAccess _ _ _).not_rejoins
  | drop => exact (follows_afterDrop _ _ _).not_rejoins
  | accept | resume => exact (follows_accepted _ _).not_rejoins
  | refuse | disconnect => exact (follows_refused _ _).not_rejoins
  | cleanNothing | cleanDone => exact (follows_cont _).not_rejoins
  | joinMembers | leaveMembers => exact h
  | _ => exact id

/-- Whom a call tears down does not depend on what other calls do. -/
theorem Persists.doomed (h : Persists sh sh') (hc : pc.Collected sh.clients) :
    pc.doomed sh'.clients = pc.doomed sh.clients := by
  cases pc with
  | evictRemove k d => exact congrArg some (h.id k (hc.allocated k List.mem_cons_self))
  | _ => rfl

/-- The step lemma for the list: who was to take it, is still to, or it is gone. -/
theorem exec_beforeList (hx : Exec sh pc e sh' pc') (hd : pc.doomed sh.clients = some c)
    (h : pc.BeforeList) : (pc'.doomed sh'.clients = some c ∧ pc'.BeforeList) ∨
      sh'.clients.connectionGroups.lookup c = none := by
  cases hx with
  | evictFound | evictMissing | evictCancel => exact Or.inl ⟨hd, trivial⟩
  | cleanTaken =>
    obtain rfl := Option.some.inj hd
    exact Or.inr (Finmap.lookup_erase _ _)
  | cleanNothing hl =>
    obtain rfl := Option.some.inj hd
    exact Or.inr hl
  | _ => exact h.elim

theorem removes_cont {id : ConnId} {k : Cont} (h : k.Removes id) (s : InMemoryWsClients) :
    k.pc.doomed s = some id ∧ k.pc.BeforeEntry := by
  cases k with
  | removal d =>
    obtain rfl := h
    exact ⟨rfl, trivial⟩
  | resume => exact h.elim

/-- The step lemma for the registration. -/
theorem exec_beforeEntry (hx : Exec sh pc e sh' pc') (hd : pc.doomed sh.clients = some c)
    (h : pc.BeforeEntry) : (pc'.doomed sh'.clients = some c ∧ pc'.BeforeEntry) ∨
      sh'.clients.connections.lookup c = none := by
  cases hx with
  | removeEntry =>
    obtain rfl := Option.some.inj hd
    exact Or.inr (Finmap.lookup_erase _ _)
  | evictFound =>
    obtain rfl := Option.some.inj hd
    exact Or.inr (Finmap.lookup_erase _ _)
  | evictMissing hl =>
    obtain rfl := Option.some.inj hd
    exact Or.inr hl
  | cleanNothing | cleanDone =>
    obtain rfl := Option.some.inj hd
    exact Or.inl (removes_cont h _)
  | cleanTaken | cleanFound | cleanMissing | cleanRemove | cleanEmpty | cleanKept
  | cleanDelete => exact Or.inl ⟨hd, h⟩
  | _ => exact h.elim

/-- A teardown starts with all of its accesses ahead. -/
theorem exec_dooms (hx : Exec sh pc e sh' pc') (hm : pc.Matched)
    (hd : pc'.doomed sh'.clients = some c) :
    pc.doomed sh.clients = some c ∨ (pc'.BeforeList ∧ pc'.BeforeEntry) := by
  cases hx with
  | next => cases hp : sh.clients.policy <;> simp [hp, BroadcastPolicy.firstAccess, Pc.doomed] at hd
  | drop =>
    cases hp : sh.clients.policy with
    | dropOnHighRtt => exact Or.inr ⟨trivial, trivial⟩
    | _ => simp [hp, BroadcastPolicy.afterDrop, Pc.doomed] at hd
  | @accept r | @resume r =>
    cases r <;> cases hp : sh.clients.policy <;> simp [hp, Receiver.accepted, Pc.doomed] at hd
  | @refuse r | @disconnect r =>
    cases r <;> cases hp : sh.clients.policy <;> simp [hp, Receiver.refused, Pc.doomed] at hd
  | countReached => exact Or.inr ⟨trivial, trivial⟩
  | @cleanNothing id k | @cleanDone id k =>
    cases k with
    | removal d =>
      obtain rfl : d = id := hm
      exact Or.inl hd
    | resume => simp [Cont.pc, Pc.doomed] at hd
  | evictFound | evictMissing | evictCancel | cleanTaken | cleanFound | cleanMissing | cleanRemove
  | cleanEmpty | cleanKept | cleanDelete => exact Or.inl hd
  | _ => simp [Pc.doomed] at hd

theorem start_dooms (s : InMemoryWsClients) (h : op.start.doomed s = some c) :
    op = .remove c ∧ op.start.BeforeList ∧ op.start.BeforeEntry := by
  unfold Op.start at h ⊢
  split at h <;> simp_all [Pc.doomed, Pc.BeforeList, Pc.BeforeEntry, Cont.Removes]

/-- What holds of `c` while no call can bring it back: a membership is on the list of `c`, or a
clean-up under way has it. -/
structure Calls.Apart (s : Calls Task) (c : ConnId) : Prop where
  collected : s.AllCollected
  matched : ∀ t, (s.pc t).Matched
  quiet : ∀ t, ¬ (s.pc t).Rejoins c
  member : ∀ g, s.shared.Member c g → s.shared.Lists c g ∨ s.Owed c g

theorem apart_goto (hs : s.Apart c) (ht : (s.pc t).Settled) (hm : pc.Matched)
    (hq : ¬ pc.Rejoins c) (hc : pc.Collected s.shared.clients) :
    (s.goto t s.shared pc).Apart c where
  collected := forall_goto (P := fun _ pc => pc.Collected s.shared.clients) s.shared hc
    fun u _ => hs.collected u
  matched := forall_goto (P := fun _ pc => pc.Matched) s.shared hm fun u _ => hs.matched u
  quiet := forall_goto (P := fun _ pc => ¬ pc.Rejoins c) s.shared hq fun u _ => hs.quiet u
  member g hg := (hs.member g hg).imp_right (·.goto (ht.owes c g))

theorem apart_exec (hs : s.Apart c) (hx : Exec s.shared (s.pc t) e sh pc) :
    (s.goto t sh pc).Apart c := by
  have htouch := exec_touches hx
  have hp := exec_persists hx
  refine ⟨?_, ?_, ?_, fun g hm => ?_⟩
  · exact forall_goto (P := fun _ pc => pc.Collected sh.clients) sh
      (exec_collected hx (hs.collected t)) fun u _ => hp.collected (hs.collected u)
  · exact forall_goto (P := fun _ pc => pc.Matched) sh (exec_matched hx (hs.matched t))
      fun u _ => hs.matched u
  · exact forall_goto (P := fun _ pc => ¬ pc.Rejoins c) sh (exec_rejoins hx (hs.quiet t))
      fun u _ => hs.quiet u
  · by_cases hl : (s.goto t sh pc).shared.Lists c g
    · exact Or.inl hl
    right
    rcases htouch.member hm hl with (hpc | hpc) | ⟨hm₀, hl₀, _, hw⟩ | ⟨hpc, _⟩
    · have := exec_rejoins (c := c) hx (hs.quiet t)
      simp [hpc, Pc.Rejoins] at this
    · exact ⟨t, by rwa [goto_pc]⟩
    · exact ((hs.member g hm₀).resolve_left hl₀).goto hw
    · have := hs.quiet t
      simp [hpc, Pc.Rejoins] at this

theorem apart_step (hs : s.Apart c) (h : CallStep s l s') (hno : NoRejoin c s l s') :
    s'.Apart c := by
  cases h with
  | @call t op hidle =>
    refine apart_goto hs (by rw [hidle]; constructor <;> simp [Pc.Owes]) (start_matched op) ?_
      (collected_start _ op)
    exact start_rejoins (hno t op rfl)
  | exec _ hx => exact apart_exec hs hx
  | abort hpc =>
    exact apart_goto hs (by rw [hpc]; constructor <;> simp [Pc.Owes]) trivial id trivial
  | recv | close | cancel => exact ⟨hs.collected, hs.matched, hs.quiet, hs.member⟩

/-- `c` is out of the two maps keyed by it, or some call is still going to take it out. -/
structure Calls.Settling (s : Calls Task) (c : ConnId) : Prop where
  list : s.shared.clients.connectionGroups.lookup c = none ∨
    ∃ t, (s.pc t).doomed s.shared.clients = some c ∧ (s.pc t).BeforeList
  entry : s.shared.clients.connections.lookup c = none ∨
    ∃ t, (s.pc t).doomed s.shared.clients = some c ∧ (s.pc t).BeforeEntry

/-- A call that has accesses of a teardown ahead keeps them ahead, or another one moves. -/
theorem doomed_goto {Q : Pc → Prop} {gone : Prop} (hs : s.Apart c)
    (hx : Exec s.shared (s.pc t) e sh pc)
    (hnext : (s.pc t).doomed s.shared.clients = some c → Q (s.pc t) →
      (pc.doomed sh.clients = some c ∧ Q pc) ∨ gone)
    (h : ∃ u, (s.pc u).doomed s.shared.clients = some c ∧ Q (s.pc u)) :
    gone ∨ ∃ u, ((s.goto t sh pc).pc u).doomed sh.clients = some c ∧ Q ((s.goto t sh pc).pc u) := by
  obtain ⟨u, hd, hq⟩ := h
  by_cases hut : u = t
  · subst hut
    rcases hnext hd hq with hpc | hgone
    · exact Or.inr ⟨u, by rwa [goto_pc]⟩
    · exact Or.inl hgone
  · refine Or.inr ⟨u, ?_⟩
    rw [goto_pc_ne s hut, (exec_persists hx).doomed (hs.collected u)]
    exact ⟨hd, hq⟩

theorem settling_exec (ha : s.Apart c) (hs : s.Settling c)
    (hx : Exec s.shared (s.pc t) e sh pc) : (s.goto t sh pc).Settling c where
  list := by
    rcases hs.list with hnone | hbefore
    · left
      refine (exec_touches hx).unlisted hnone fun g hpc => ?_
      have := ha.quiet t
      simp [hpc, Pc.Rejoins] at this
    · exact doomed_goto ha hx (exec_beforeList hx) hbefore
  entry := by
    rcases hs.entry with hnone | hbefore
    · left
      refine exec_unregistered hx hnone fun x k f hpc => ?_
      have := ha.quiet t
      simp [hpc, Pc.Rejoins] at this
    · exact doomed_goto ha hx (exec_beforeEntry hx) hbefore

theorem settling_idle (hs : s.Settling c) (ht : (s.pc t).doomed s.shared.clients = none) :
    (s.goto t s.shared pc).Settling c where
  list := hs.list.imp_right fun h => exists_goto
    (Q := fun pc => pc.doomed s.shared.clients = some c ∧ pc.BeforeList) h (by simp [ht])
  entry := hs.entry.imp_right fun h => exists_goto
    (Q := fun pc => pc.doomed s.shared.clients = some c ∧ pc.BeforeEntry) h (by simp [ht])

theorem settling_step (ha : s.Apart c) (hs : s.Settling c) (h : CallStep s l s') :
    s'.Settling c := by
  cases h with
  | call op hidle => exact settling_idle hs (by rw [hidle]; rfl)
  | exec _ hx => exact settling_exec ha hs hx
  | abort hpc => exact settling_idle hs (by rw [hpc]; rfl)
  | recv | close | cancel => exact ⟨hs.list, hs.entry⟩

/-- A call that tears `c` down. -/
def Calls.Tearing (s : Calls Task) (c : ConnId) : Prop :=
  ∃ t, (s.pc t).doomed s.shared.clients = some c

/-- From its first access on, a teardown has begun to settle `c`. -/
theorem tearing_step (ha : s.Apart c) (hs : s.Tearing c → s.Settling c) (h : CallStep s l s')
    (ht : s'.Tearing c) : s'.Settling c := by
  by_cases hold : s.Tearing c
  · exact settling_step ha (hs hold) h
  have hnew : ∀ {t pc sh}, Persists s.shared sh → s' = s.goto t sh pc →
      (pc.doomed sh.clients = some c → (s.pc t).doomed s.shared.clients = some c ∨
        (pc.BeforeList ∧ pc.BeforeEntry)) → s'.Settling c := by
    rintro t pc sh hp rfl hstart
    obtain ⟨u, hd⟩ := ht
    by_cases hut : u = t
    · subst hut
      rw [goto_pc, goto_shared] at hd
      rcases hstart hd with hd₀ | ⟨hl, he⟩
      · exact (hold ⟨u, hd₀⟩).elim
      · exact ⟨Or.inr ⟨u, by rw [goto_pc]; exact ⟨hd, hl⟩⟩,
          Or.inr ⟨u, by rw [goto_pc]; exact ⟨hd, he⟩⟩⟩
    · rw [goto_pc_ne s hut, goto_shared, hp.doomed (ha.collected u)] at hd
      exact (hold ⟨u, hd⟩).elim
  cases h with
  | call op _ => exact hnew (persists_refl _) rfl fun hd => Or.inr (start_dooms _ hd).2
  | @exec t e sh pc _ hx =>
    exact hnew (exec_persists hx) rfl fun hd => exec_dooms hx (ha.matched t) hd
  | abort _ => exact hnew (persists_refl _) rfl fun hd => by simp [Pc.doomed] at hd
  | recv | close | cancel => exact (hold ht).elim

/-- What the three maps hold about one connection. -/
structure Entries where
  handle : Option Handle
  groups : Option (Finset GroupName)
  memberships : Set GroupName

def InMemoryWsClients.entries (s : InMemoryWsClients) (c : ConnId) : Entries where
  handle := s.connections.lookup c
  groups := s.connectionGroups.lookup c
  memberships := { g | c ∈ s.groupMembers.values g }

/-- A call on `c` was made: a `remove(c)`, or an eviction that found `c` registered. -/
def TornDown (c : ConnId) (xs : List (CallLabel Task)) : Prop :=
  ∃ t, .call t (.remove c) ∈ xs ∨ .exec t (.evict c) ∈ xs

theorem entries_without (hi : w.clients.Indexed) (env : CallEnv) (c : ConnId) :
    (w.clients.without env c).entries c = ⟨none, none, ∅⟩ := by
  have hnone : ∀ g, c ∉ (w.clients.without env c).groupMembers.values g := by
    intro g hm
    rw [mem_without_groupMembers] at hm
    exact hm.2 ⟨rfl, (hi g c).mp hm.1⟩
  simp [InMemoryWsClients.entries, hnone]

theorem owes_doomed (h : pc.Owes c g) (s : InMemoryWsClients) : pc.doomed s = some c := by
  cases pc with
  | cleanNext | cleanRemove | cleanCheck | cleanDelete =>
    obtain ⟨rfl, _⟩ := h
    rfl
  | _ => exact h.elim

omit [DecidableEq Task] in
/-- With no teardown under way, a settled connection is in none of the maps. -/
theorem settled_entries (ha : s.Apart c) (hs : s.Settling c) (hdone : ¬ s.Tearing c) :
    s.shared.clients.entries c = ⟨none, none, ∅⟩ := by
  have hlist : s.shared.clients.connectionGroups.lookup c = none :=
    hs.list.resolve_right fun ⟨t, hd, _⟩ => hdone ⟨t, hd⟩
  have hentry : s.shared.clients.connections.lookup c = none :=
    hs.entry.resolve_right fun ⟨t, hd, _⟩ => hdone ⟨t, hd⟩
  have hnone : ∀ g, ¬ s.shared.Member c g := by
    intro g hm
    rcases ha.member g hm with hl | ⟨t, ho⟩
    · rw [Shared.Lists, SetMap.values_of_lookup_none hlist] at hl
      simp at hl
    · exact hdone ⟨t, owes_doomed ho _⟩
  simp [InMemoryWsClients.entries, hlist, hentry, hnone]

/-- What a run has done for `c` so far, with `n` cancellations of its token. -/
structure Calls.Converges (s : Calls Task) (c : ConnId) (n : Nat)
    (xs : List (CallLabel Task)) : Prop where
  apart : s.Apart c
  cancelled : s.Cancelled c n
  tearing : s.Tearing c → s.Settling c
  torn : TornDown c xs → s.Settling c

omit [DecidableEq Task] in
theorem converges_quiescent (hi : s.shared.clients.Indexed) (hq : s.Quiescent) :
    s.Converges c 0 [] where
  apart := ⟨fun t => by rw [hq t]; trivial, fun t => by rw [hq t]; trivial,
    fun t => by rw [hq t]; exact id, fun g hm => Or.inl ((hi g c).mp hm)⟩
  cancelled := cancelled_none fun t => by rw [hq t]; exact id
  tearing h := by
    obtain ⟨t, hd⟩ := h
    simp [hq t, Pc.doomed] at hd
  torn h := by
    obtain ⟨t, ht⟩ := h
    simp at ht

theorem evicts_tearing (h : CallStep s (.exec t (.evict c)) s') : s.Tearing c := by
  cases h with
  | exec _ hx =>
    refine ⟨t, ?_⟩
    generalize s.pc t = pc at hx
    generalize he : Event.evict c = e at hx
    cases hx <;> cases he
    rfl

theorem converges_step (hs : s.Converges c n xs) (h : CallStep s l s')
    (hno : NoRejoin c s l s') {m : Nat} (hm : s'.Cancelled c m) :
    s'.Converges c m (xs ++ [l]) where
  apart := apart_step hs.apart h hno
  cancelled := hm
  tearing := tearing_step hs.apart hs.tearing h
  torn ht := by
    by_cases hold : TornDown c xs
    · exact settling_step hs.apart (hs.torn hold) h
    obtain ⟨t, ht⟩ := ht
    have hl : l = .call t (.remove c) ∨ l = .exec t (.evict c) := by
      rcases ht with ht | ht
      · rcases List.mem_append.mp ht with ht | ht
        · exact (hold ⟨t, Or.inl ht⟩).elim
        · exact Or.inl (List.mem_singleton.mp ht).symm
      · rcases List.mem_append.mp ht with ht | ht
        · exact (hold ⟨t, Or.inr ht⟩).elim
        · exact Or.inr (List.mem_singleton.mp ht).symm
    rcases hl with rfl | rfl
    · refine tearing_step hs.apart hs.tearing h ⟨t, ?_⟩
      cases h with
      | call => rw [goto_pc]; rfl
    · exact settling_step hs.apart (hs.tearing (evicts_tearing h)) h

/-- The run lemma: no interleaving of the teardowns of `c` loses an access or cancels twice. -/
theorem converges_run (hi : s.shared.clients.Indexed) (hq : s.Quiescent)
    (hrun : ((callSystem Task).restrict (NoRejoin c)).Tally (PolicyCancels c) s xs s' n) :
    s'.Converges c n xs := by
  refine hrun.history (H := fun n ys u => u.Converges c n ys) (converges_quiescent hi hq) ?_ ?_
  · rintro m ys u l v ⟨hstep, hno⟩ hp hu
    exact converges_step hu hstep hno (cancelled_counts hu.cancelled hstep hp)
  · rintro m ys u l v ⟨hstep, hno⟩ hp hu
    refine converges_step hu hstep hno (cancelled_skips hu.cancelled hstep hp ?_)
    rintro t e x k f rfl hpc
    have := hu.apart.quiet t
    simp [hpc, Pc.Rejoins] at this

/-- From the store after any sequential calls, in any interleaving of `remove(c)` calls and
evictions of `c` with operations that do not bring `c` back, the policy cancels the token of
`c` at most once; and when some call on `c` was made and none is under way, `c` is in none of
the maps, as after a single `remove(c)`. -/
theorem teardowns_converge {policy : BroadcastPolicy} {shard : GroupName → Nat}
    {calls : List (CallEnv × Op)} (env : CallEnv)
    (hserial : serial.Run ⟨.new policy shard, []⟩ calls w) (hw : s.shared.clients = w.clients)
    (hq : s.Quiescent)
    (hrun : ((callSystem Task).restrict (NoRejoin c)).Tally (PolicyCancels c) s xs s' n) :
    n ≤ 1 ∧ (TornDown c xs → ¬ s'.Tearing c →
      s'.shared.clients.entries c = ⟨none, none, ∅⟩ ∧ ∃ w', remove env w c = .ok w' ∧
        s'.shared.clients.entries c = w'.clients.entries c) := by
  have hi : w.clients.Indexed := indexed_serial (indexed_new policy shard) hserial
  have hall := converges_run (hw ▸ hi) hq hrun
  refine ⟨hall.cancelled.once, fun htorn hdone => ?_⟩
  have hgone := settled_entries hall.apart (hall.torn htorn) hdone
  exact ⟨hgone, _, remove_ok env w c, hgone.trans (entries_without hi env c).symm⟩

/-- The only member of a group, its channel closed, and two idle tasks. -/
def closedMember : Calls Bool where
  shared := ⟨onlyMember.clients, fun _ => ⟨1, [], true⟩, fun _ => false⟩
  pc _ := .idle

/-- An eviction takes the registration, and a `remove` the list of groups. -/
theorem race_run : ∃ xs s', (callSystem Bool).Run closedMember xs s' ∧
    (∀ l ∈ xs, ∀ t op, l = .call t op → ¬ op.Rejoins "c") ∧ TornDown "c" xs ∧
    ¬ s'.Tearing "c" := by
  refine ⟨_, _,
    .step (.call (t := false) (.broadcastExcept [] (some (.text "news"))) rfl) <|
    .step (.exec (t := false) (granted_of_free rfl) (.iter ⟨1, fun _ => 0⟩)) <|
    .step (.exec (t := false) (granted_of_free rfl) (.scan (by decide) (yields_only _ _))) <|
    .step (.exec (t := false) (granted_of_free rfl) (.scanned (by decide))) <|
    .step (.exec (t := false) (granted_of_free rfl) .next) <|
    .step (.exec (t := false) (granted_of_free rfl) (.refuse rfl)) <|
    .step (.exec (t := false) (granted_of_free rfl) .drop) <|
    .step (.exec (t := false) (granted_of_free rfl) (.countReached rfl (by decide))) <|
    .step (.call (t := true) (.remove "c") rfl) <|
    .step (.exec (t := true) (granted_of_free rfl)
      (@Exec.cleanTaken _ _ _ {"g"} ["g"] (by decide) (by simp) (by simp))) <|
    .step (.exec (t := false) (granted_of_free rfl) (@Exec.evictFound _ _ 0 _ (by decide))) <|
    .step (.exec (t := true) (granted_of_free rfl) (@Exec.cleanFound _ _ _ _ _ {"c"}
      (by decide))) <|
    .step (.exec (t := true) (granted_of_free rfl) .cleanRemove) <|
    .step (.exec (t := true) (granted_of_free rfl) (.cleanEmpty (by decide))) <|
    .step (.exec (t := true) (granted_of_unguarded (by decide)) .cleanDelete) <|
    .step (.exec (t := false) (granted_of_free rfl) .evictCancel) <|
    .step (.exec (t := false) (granted_of_free rfl) (.cleanNothing (by decide))) <|
    .step (.exec (t := false) (granted_of_free rfl) .delivered) <|
    .step (.exec (t := true) (granted_of_free rfl) .cleanDone) <|
    .single (.exec (t := true) (granted_of_free rfl) (.removeEntry "c")),
    ?_, ⟨true, Or.inl (by simp)⟩, ?_⟩
  · simp [Op.Rejoins]
  · rintro ⟨u, hu⟩
    cases u <;> cases hu

/-- Both calls have returned, and the connection is in none of the maps. -/
theorem race_converges : ∃ n xs s', ((callSystem Bool).restrict (NoRejoin "c")).Tally
    (PolicyCancels "c") closedMember xs s' n ∧ n ≤ 1 ∧
      s'.shared.clients.entries "c" = ⟨none, none, ∅⟩ := by
  obtain ⟨xs, s', hrun, hno, htorn, hdone⟩ := race_run
  obtain ⟨n, htally⟩ := (hrun.restrict fun l hl _ _ => hno l hl).tally (PolicyCancels "c")
  have hserial : serial.Run ⟨.new (.dropConnection second 1) (fun _ => 0), []⟩
      [(lateEnv, .add "c" "tx" "token" "drop"), (lateEnv, .addToGroup "c" "g")] onlyMember :=
    .step rfl <| .single rfl
  obtain ⟨honce, hgone⟩ := teardowns_converge lateEnv hserial rfl (fun _ => rfl) htally
  exact ⟨n, xs, s', htally, honce, (hgone htorn hdone).1⟩

end AxumSignal
