import AxumSignal.CallFacts
import AxumSignal.Registry

/-! The two membership indexes under concurrent calls. A pair of a connection and a group
on which they differ is accounted for by a call that is still going to update it. -/
namespace AxumSignal

open Transition Calls

variable {Task : Type} [DecidableEq Task] {s s' : Calls Task} {sh sh' : Shared}
  {pc pc' : Pc} {e : Event} {t u : Task} {c d id : ConnId} {g group : GroupName}

/-- `c` is in `group_members[g]`. -/
abbrev Shared.Member (sh : Shared) (c : ConnId) (g : GroupName) : Prop :=
  c ∈ sh.clients.groupMembers.values g

/-- `g` is in `connection_groups[c]`. -/
abbrev Shared.Lists (sh : Shared) (c : ConnId) (g : GroupName) : Prop :=
  g ∈ sh.clients.connectionGroups.values c

/-- A clean-up has taken `g` from the list of `c` and not yet `c` from the members of `g`. -/
def Pc.Owes (c : ConnId) (g : GroupName) : Pc → Prop
  | .cleanNext id groups _ => c = id ∧ g ∈ groups
  | .cleanRemove id group groups _ => c = id ∧ (g = group ∨ g ∈ groups)
  | .cleanCheck id _ groups _ => c = id ∧ g ∈ groups
  | .cleanDelete id _ groups _ => c = id ∧ g ∈ groups
  | _ => False

namespace Calls

variable (s : Calls Task)

/-- Some `add_to_group(c, g)` is between its two updates. -/
def Joining (c : ConnId) (g : GroupName) : Prop := ∃ t, s.pc t = .joinGroups c g

/-- Some `remove_from_group(c, g)` is between its two updates. -/
def Leaving (c : ConnId) (g : GroupName) : Prop := ∃ t, s.pc t = .leaveGroups c g

/-- Some clean-up of `c` still has to update the members of `g`. -/
def Owed (c : ConnId) (g : GroupName) : Prop := ∃ t, (s.pc t).Owes c g

/-- Where the indexes differ on a pair, a call is about to bring them in line. -/
structure Accounted (c : ConnId) (g : GroupName) : Prop where
  member : s.shared.Member c g → s.shared.Lists c g ∨ s.Joining c g ∨ s.Owed c g
  listed : s.shared.Lists c g → s.shared.Member c g ∨ s.Leaving c g

/-- The next access of `t` does not undo what an overlapping call has done: the second
half of a join still finds the member, the second half of a leave finds it gone or about
to be settled, and a clean-up takes out only members whose list is settled. -/
def Orderly (t : Task) : Prop :=
  match s.pc t with
  | .joinGroups c g => s.shared.Member c g ∨ s.Leaving c g
  | .leaveGroups c g => s.shared.Member c g → s.Joining c g ∨ s.Owed c g
  | .cleanRemove c g _ _ => s.shared.Lists c g → s.Leaving c g
  | .cleanDelete _ g _ _ => ∀ c, s.shared.Member c g → s.shared.Lists c g → s.Leaving c g
  | _ => True

end Calls

/-- Every access of the run is orderly. -/
def OrderlyStep (s : Calls Task) (l : CallLabel Task) (_ : Calls Task) : Prop :=
  ∀ t e, l = .exec t e → s.Orderly t

/-- The call is not between two updates of a pair. -/
structure Pc.Settled (pc : Pc) : Prop where
  joining : ∀ c g, pc ≠ .joinGroups c g
  leaving : ∀ c g, pc ≠ .leaveGroups c g
  owes : ∀ c g, ¬ pc.Owes c g
  deleting : ∀ id group groups k, pc ≠ .cleanDelete id group groups k

theorem Pc.Follows.settled (h : pc.Follows) : pc.Settled := by
  cases pc with
  | idle | removeEntry | deliver | average | send | drop | count | reset | evictRemove =>
    constructor <;> simp [Pc.Owes]
  | _ => exact h.elim

theorem settled_start (op : Op) : op.start.Settled := by
  unfold Op.start
  split <;> constructor <;> simp [Pc.Owes]

/-- What an access does to the two indexes, with the calls it can belong to. -/
inductive Touches (s s' : InMemoryWsClients) : Pc → Pc → Prop where
  | quiet {pc pc' : Pc} (hm : s'.groupMembers = s.groupMembers)
      (hg : s'.connectionGroups = s.connectionGroups) (hpc : pc.Settled) (hpc' : pc'.Settled) :
      Touches s s' pc pc'
  | joinMembers (id : ConnId) (group : GroupName)
      (hm : s'.groupMembers = s.groupMembers.add group id)
      (hg : s'.connectionGroups = s.connectionGroups) :
      Touches s s' (.joinMembers id group) (.joinGroups id group)
  | joinGroups (id : ConnId) (group : GroupName) (hm : s'.groupMembers = s.groupMembers)
      (hg : s'.connectionGroups = s.connectionGroups.add id group) :
      Touches s s' (.joinGroups id group) .idle
  | leaveMembers (id : ConnId) (group : GroupName)
      (hm : s'.groupMembers = s.groupMembers.discard group id)
      (hg : s'.connectionGroups = s.connectionGroups) :
      Touches s s' (.leaveMembers id group) (.leaveGroups id group)
  | leaveGroups (id : ConnId) (group : GroupName) (hm : s'.groupMembers = s.groupMembers)
      (hg : s'.connectionGroups = s.connectionGroups.discard id group) :
      Touches s s' (.leaveGroups id group) .idle
  | cleanTake (id : ConnId) (groups : List GroupName) (k : Cont)
      (hm : s'.groupMembers = s.groupMembers)
      (hg : s'.connectionGroups = s.connectionGroups.erase id)
      (hgroups : ∀ g, g ∈ groups ↔ g ∈ s.connectionGroups.values id) :
      Touches s s' (.cleanTake id k) (.cleanNext id groups k)
  | cleanFound (id : ConnId) (group : GroupName) (groups : List GroupName) (k : Cont)
      (hs : s' = s) :
      Touches s s' (.cleanNext id (group :: groups) k) (.cleanRemove id group groups k)
  | cleanMissing (id : ConnId) (group : GroupName) (groups : List GroupName) (k : Cont)
      (hs : s' = s) (hnone : s.groupMembers.values group = ∅) :
      Touches s s' (.cleanNext id (group :: groups) k) (.cleanNext id groups k)
  | cleanDone (id : ConnId) (k : Cont) (hs : s' = s) :
      Touches s s' (.cleanNext id [] k) k.pc
  | cleanRemove (id : ConnId) (group : GroupName) (groups : List GroupName) (k : Cont)
      (hm : s'.groupMembers = s.groupMembers.discard group id)
      (hg : s'.connectionGroups = s.connectionGroups) :
      Touches s s' (.cleanRemove id group groups k) (.cleanCheck id group groups k)
  | cleanEmpty (id : ConnId) (group : GroupName) (groups : List GroupName) (k : Cont)
      (hs : s' = s) (hempty : s.groupMembers.values group = ∅) :
      Touches s s' (.cleanCheck id group groups k) (.cleanDelete id group groups k)
  | cleanKept (id : ConnId) (group : GroupName) (groups : List GroupName) (k : Cont)
      (hs : s' = s) :
      Touches s s' (.cleanCheck id group groups k) (.cleanNext id groups k)
  | cleanDelete (id : ConnId) (group : GroupName) (groups : List GroupName) (k : Cont)
      (hm : s'.groupMembers = s.groupMembers.erase group)
      (hg : s'.connectionGroups = s.connectionGroups) :
      Touches s s' (.cleanDelete id group groups k) (.cleanNext id groups k)

/-- The inversion lemma: only joins, leaves and clean-ups touch the indexes. -/
theorem exec_touches (hx : Exec sh pc e sh' pc') : Touches sh.clients sh'.clients pc pc' := by
  cases hx with
  | joinMembers id group => exact .joinMembers id group rfl rfl
  | joinGroups id group => exact .joinGroups id group rfl rfl
  | leaveMembers id group => exact .leaveMembers id group rfl rfl
  | leaveGroups id group => exact .leaveGroups id group rfl rfl
  | cleanTaken hl _ hmem =>
    refine .cleanTake _ _ _ rfl rfl fun g => ?_
    rw [hmem, SetMap.values_of_lookup hl]
  | cleanFound _ => exact .cleanFound _ _ _ _ rfl
  | cleanMissing hl => exact .cleanMissing _ _ _ _ rfl (SetMap.values_of_lookup_none hl)
  | cleanDone => exact .cleanDone _ _ rfl
  | cleanRemove => exact .cleanRemove _ _ _ _ rfl rfl
  | cleanEmpty hempty => exact .cleanEmpty _ _ _ _ rfl hempty
  | cleanKept _ => exact .cleanKept _ _ _ _ rfl
  | cleanDelete => exact .cleanDelete _ _ _ _ rfl rfl
  | next =>
    exact .quiet rfl rfl (by constructor <;> simp [Pc.Owes]) (follows_firstAccess _ _ _).settled
  | drop =>
    exact .quiet rfl rfl (by constructor <;> simp [Pc.Owes]) (follows_afterDrop _ _ _).settled
  | cleanNothing _ =>
    exact .quiet rfl rfl (by constructor <;> simp [Pc.Owes]) (follows_cont _).settled
  | accept | resume =>
    exact .quiet rfl rfl (by constructor <;> simp [Pc.Owes]) (follows_accepted _ _).settled
  | refuse | disconnect =>
    exact .quiet rfl rfl (by constructor <;> simp [Pc.Owes]) (follows_refused _ _).settled
  | _ =>
    exact .quiet rfl rfl (by constructor <;> simp [Pc.Owes]) (by constructor <;> simp [Pc.Owes])

/-- After an access, a member without a list entry is accounted for by that call, was not
accounted for by it before, or just lost its entry to the second half of a leave. -/
theorem Touches.member {s s' : InMemoryWsClients} (h : Touches s s' pc pc')
    (hm : c ∈ s'.groupMembers.values g) (hl : g ∉ s'.connectionGroups.values c) :
    (pc' = .joinGroups c g ∨ pc'.Owes c g) ∨
      (c ∈ s.groupMembers.values g ∧ g ∉ s.connectionGroups.values c ∧
        pc ≠ .joinGroups c g ∧ ¬ pc.Owes c g) ∨
      (pc = .leaveGroups c g ∧ c ∈ s.groupMembers.values g) := by
  cases h with
  | quiet hgm hcg hpc _ =>
    rw [hgm] at hm
    rw [hcg] at hl
    exact Or.inr (Or.inl ⟨hm, hl, hpc.joining c g, hpc.owes c g⟩)
  | joinMembers id group hgm hcg =>
    simp_all [Pc.Owes]
    grind
  | joinGroups id group hgm hcg =>
    simp_all [Pc.Owes]
    grind
  | leaveMembers id group hgm hcg => simp_all [Pc.Owes]
  | leaveGroups id group hgm hcg =>
    simp_all [Pc.Owes]
    grind
  | cleanTake id groups k hgm hcg hgroups =>
    simp_all [Pc.Owes]
    grind
  | cleanFound id group groups k hs => simp_all [Pc.Owes]; grind
  | cleanMissing id group groups k hs hnone => simp_all [Pc.Owes]; grind
  | cleanDone id k hs => simp_all [Pc.Owes]
  | cleanRemove id group groups k hgm hcg => simp_all [Pc.Owes]; grind
  | cleanEmpty id group groups k hs _ => simp_all [Pc.Owes]; grind
  | cleanKept id group groups k hs => simp_all [Pc.Owes]; grind
  | cleanDelete id group groups k hgm hcg => simp_all [Pc.Owes]; grind

/-- After an access, a list entry without a member is accounted for by that call, was not
accounted for by it before, or just lost its member. -/
theorem Touches.listed {s s' : InMemoryWsClients} (h : Touches s s' pc pc')
    (hl : g ∈ s'.connectionGroups.values c) (hm : c ∉ s'.groupMembers.values g) :
    pc' = .leaveGroups c g ∨
      (g ∈ s.connectionGroups.values c ∧ c ∉ s.groupMembers.values g ∧ pc ≠ .leaveGroups c g) ∨
      (pc = .joinGroups c g ∧ c ∉ s.groupMembers.values g) ∨
      (((∃ groups k, pc = .cleanRemove c g groups k) ∨
        ∃ id groups k, pc = .cleanDelete id g groups k) ∧
        c ∈ s.groupMembers.values g ∧ g ∈ s.connectionGroups.values c) := by
  cases h with
  | quiet hgm hcg hpc _ =>
    rw [hgm] at hm
    rw [hcg] at hl
    exact Or.inr (Or.inl ⟨hl, hm, hpc.leaving c g⟩)
  | joinMembers id group hgm hcg => simp_all
  | joinGroups id group hgm hcg => simp_all; grind
  | leaveMembers id group hgm hcg => simp_all; grind
  | leaveGroups id group hgm hcg => simp_all; grind
  | cleanTake id groups k hgm hcg hgroups => simp_all
  | cleanFound id group groups k hs => simp_all
  | cleanMissing id group groups k hs hnone => simp_all
  | cleanDone id k hs => simp_all
  | cleanRemove id group groups k hgm hcg => simp_all; grind
  | cleanEmpty id group groups k hs _ => simp_all
  | cleanKept id group groups k hs => simp_all
  | cleanDelete id group groups k hgm hcg => simp_all; grind

/-- Only the second half of a join gives a connection its list back. -/
theorem Touches.unlisted {s s' : InMemoryWsClients} (h : Touches s s' pc pc')
    (hn : s.connectionGroups.lookup c = none) (hj : ∀ g, pc ≠ .joinGroups c g) :
    s'.connectionGroups.lookup c = none := by
  cases h with
  | joinGroups id group _ hg =>
    have hid : c ≠ id := by
      rintro rfl
      exact hj group rfl
    rw [hg, SetMap.lookup_add_ne hid, hn]
  | leaveGroups id group _ hg =>
    rw [hg]
    by_cases hid : c = id
    · subst hid
      simp [SetMap.lookup_discard_self, hn]
    · rw [SetMap.lookup_discard_ne hid, hn]
  | cleanTake id groups k _ hg _ =>
    rw [hg]
    by_cases hid : c = id
    · subst hid
      simp
    · rwa [Finmap.lookup_erase_ne hid]
  | quiet _ hg _ _ => rwa [hg]
  | joinMembers _ _ _ hg => rwa [hg]
  | leaveMembers _ _ _ hg => rwa [hg]
  | cleanRemove _ _ _ _ _ hg => rwa [hg]
  | cleanDelete _ _ _ _ _ hg => rwa [hg]
  | cleanFound _ _ _ _ hs => rwa [hs]
  | cleanMissing _ _ _ _ hs _ => rwa [hs]
  | cleanDone _ _ hs => rwa [hs]
  | cleanEmpty _ _ _ _ hs _ => rwa [hs]
  | cleanKept _ _ _ _ hs => rwa [hs]

/-- Only the first half of a join makes a member, and a clean-up that has the group of a
member keeps it until it has taken the member out. -/
theorem Touches.owed {s s' : InMemoryWsClients} (h : Touches s s' pc pc')
    (hm : c ∈ s'.groupMembers.values g) (hj : pc ≠ .joinMembers c g) :
    c ∈ s.groupMembers.values g ∧ (pc.Owes c g → pc'.Owes c g) := by
  cases h with
  | quiet hgm _ hpc _ => exact ⟨hgm ▸ hm, fun h => (hpc.owes c g h).elim⟩
  | joinMembers id group hgm hcg => simp_all [Pc.Owes]; grind
  | joinGroups id group hgm hcg => simp_all [Pc.Owes]
  | leaveMembers id group hgm hcg => simp_all [Pc.Owes]
  | leaveGroups id group hgm hcg => simp_all [Pc.Owes]
  | cleanTake id groups k hgm hcg hgroups => simp_all [Pc.Owes]
  | cleanFound id group groups k hs => simp_all [Pc.Owes]
  | cleanMissing id group groups k hs hnone => simp_all [Pc.Owes]; grind
  | cleanDone id k hs => simp_all [Pc.Owes]
  | cleanRemove id group groups k hgm hcg => simp_all [Pc.Owes]; grind
  | cleanEmpty id group groups k hs hempty => simp_all [Pc.Owes]
  | cleanKept id group groups k hs => simp_all [Pc.Owes]
  | cleanDelete id group groups k hgm hcg => simp_all [Pc.Owes]

theorem Calls.Joining.goto (h : s.Joining c g) (hne : s.pc t ≠ .joinGroups c g) :
    (s.goto t sh pc).Joining c g :=
  exists_goto (Q := (· = .joinGroups c g)) h hne

theorem Calls.Leaving.goto (h : s.Leaving c g) (hne : s.pc t ≠ .leaveGroups c g) :
    (s.goto t sh pc).Leaving c g :=
  exists_goto (Q := (· = .leaveGroups c g)) h hne

theorem Calls.Owed.goto (h : s.Owed c g) (hne : ¬ (s.pc t).Owes c g) :
    (s.goto t sh pc).Owed c g :=
  exists_goto (Q := Pc.Owes c g) h hne

theorem Calls.Joining.of_goto (h : (s.goto t sh pc).Joining c g) (hpc : pc ≠ .joinGroups c g) :
    s.Joining c g :=
  exists_of_goto (Q := (· = .joinGroups c g)) h hpc

theorem Calls.Leaving.of_goto (h : (s.goto t sh pc).Leaving c g) (hpc : pc ≠ .leaveGroups c g) :
    s.Leaving c g :=
  exists_of_goto (Q := (· = .leaveGroups c g)) h hpc

theorem Calls.Owed.of_goto (h : (s.goto t sh pc).Owed c g) (hpc : ¬ pc.Owes c g) :
    s.Owed c g :=
  exists_of_goto (Q := Pc.Owes c g) h hpc

/-- A call that is not between two updates can move on without touching the indexes. -/
theorem Calls.Accounted.goto_settled (h : s.Accounted c g) (ht : (s.pc t).Settled) (pc : Pc) :
    (s.goto t s.shared pc).Accounted c g where
  member hm := (h.member hm).imp_right
    (Or.imp (·.goto (ht.joining c g)) (·.goto (ht.owes c g)))
  listed hl := (h.listed hl).imp_right (·.goto (ht.leaving c g))

/-- The step lemma: an orderly access leaves every pair accounted for. -/
theorem accounted_exec (hs : ∀ c g, s.Accounted c g) (ho : s.Orderly t)
    (hx : Exec s.shared (s.pc t) e sh' pc') (c : ConnId) (g : GroupName) :
    (s.goto t sh' pc').Accounted c g := by
  have htouch := exec_touches hx
  constructor
  · intro hm
    by_cases hl : (s.goto t sh' pc').shared.Lists c g
    · exact Or.inl hl
    right
    rcases htouch.member hm hl with (hpc | hpc) | ⟨hm₀, hl₀, hj, hw⟩ | ⟨hpc, hm₀⟩
    · exact Or.inl ⟨t, by rw [Calls.goto_pc, hpc]⟩
    · exact Or.inr ⟨t, by rwa [Calls.goto_pc]⟩
    · rcases (hs c g).member hm₀ with h | h | h
      · exact (hl₀ h).elim
      · exact Or.inl (h.goto hj)
      · exact Or.inr (h.goto hw)
    · have hpending : s.Joining c g ∨ s.Owed c g := by
        simp only [Calls.Orderly, hpc] at ho
        exact ho hm₀
      rcases hpending with h | h
      · exact Or.inl (h.goto (by simp [hpc]))
      · exact Or.inr (h.goto (by simp [hpc, Pc.Owes]))
  · intro hl
    by_cases hm : (s.goto t sh' pc').shared.Member c g
    · exact Or.inl hm
    right
    rcases htouch.listed hl hm with hpc | ⟨hl₀, hm₀, hv⟩ | ⟨hpc, hm₀⟩ | ⟨hclean, hm₀, hl₀⟩
    · exact ⟨t, by rw [Calls.goto_pc, hpc]⟩
    · exact (((hs c g).listed hl₀).resolve_left hm₀).goto hv
    · have hleave : s.Leaving c g := by
        simp only [Calls.Orderly, hpc] at ho
        exact ho.resolve_left hm₀
      exact hleave.goto (by simp [hpc])
    · rcases hclean with ⟨groups, k, hpc⟩ | ⟨id, groups, k, hpc⟩
      · simp only [Calls.Orderly, hpc] at ho
        exact (ho hl₀).goto (by simp [hpc])
      · simp only [Calls.Orderly, hpc] at ho
        exact (ho c hm₀ hl₀).goto (by simp [hpc])

theorem accounted_step {l : CallLabel Task} (hs : ∀ c g, s.Accounted c g)
    (ho : OrderlyStep s l s') (h : CallStep s l s') (c : ConnId) (g : GroupName) :
    s'.Accounted c g := by
  cases h with
  | call op hidle =>
    exact (hs c g).goto_settled (by rw [hidle]; constructor <;> simp [Pc.Owes]) _
  | exec _ hx => exact accounted_exec hs (ho _ _ rfl) hx c g
  | abort hpc => exact (hs c g).goto_settled (by rw [hpc]; constructor <;> simp [Pc.Owes]) _
  | recv => exact ⟨(hs c g).member, (hs c g).listed⟩
  | close => exact ⟨(hs c g).member, (hs c g).listed⟩
  | cancel => exact ⟨(hs c g).member, (hs c g).listed⟩

omit [DecidableEq Task] in
theorem accounted_fresh (h : s.Fresh) (c : ConnId) (g : GroupName) : s.Accounted c g := by
  obtain ⟨⟨policy, shard, hnew⟩, _⟩ := h
  constructor <;> intro h <;> simp [Shared.Member, Shared.Lists, hnew, InMemoryWsClients.new] at h

/-- The orderly accesses are exactly those that leave every pair accounted for. -/
theorem accounted_exec_iff (hs : ∀ c g, s.Accounted c g)
    (hx : Exec s.shared (s.pc t) e sh' pc') :
    (∀ c g, (s.goto t sh' pc').Accounted c g) ↔ s.Orderly t := by
  refine ⟨fun h => ?_, fun ho => accounted_exec hs ho hx⟩
  unfold Calls.Orderly
  split
  · rename_i c g hpc
    rw [hpc] at hx
    cases hx
    rcases (h c g).listed (by simp [Shared.Lists, Shared.set]) with hm | hv
    · exact Or.inl hm
    · exact Or.inr (hv.of_goto (by simp))
  · rename_i c g hpc
    rw [hpc] at hx
    cases hx
    intro hm
    rcases (h c g).member hm with hl | hj | hw
    · simp [Shared.Lists, Shared.set] at hl
    · exact Or.inl (hj.of_goto (by simp))
    · exact Or.inr (hw.of_goto (by simp [Pc.Owes]))
  · rename_i c g groups k hpc
    rw [hpc] at hx
    cases hx
    intro hl
    rcases (h c g).listed hl with hm | hv
    · simp [Shared.Member, Shared.set] at hm
    · exact hv.of_goto (by simp)
  · rename_i id g groups k hpc
    rw [hpc] at hx
    cases hx
    intro c _ hl
    rcases (h c g).listed hl with hm | hv
    · simp [Shared.Member, Shared.set] at hm
    · exact hv.of_goto (by simp)
  · trivial

/-- In every run whose accesses are all orderly, the two indexes are converse whenever no
call is in progress. -/
theorem indexed_quiescent
    (h : ((callSystem Task).restrict OrderlyStep).Reachable Calls.Fresh s)
    (hq : s.Quiescent) : s.shared.clients.Indexed := by
  have hall : ∀ c g, s.Accounted c g := by
    refine h.invariant (I := fun u => ∀ c g, u.Accounted c g) ?_ fun _ => accounted_fresh
    rintro u l v ⟨hstep, ho⟩ hu
    exact accounted_step hu ho hstep
  intro g c
  constructor
  · intro hm
    rcases (hall c g).member hm with h | ⟨t, ht⟩ | ⟨t, ht⟩
    · exact h
    · simp [hq t] at ht
    · simp [hq t, Pc.Owes] at ht
  · intro hl
    rcases (hall c g).listed hl with h | ⟨t, ht⟩
    · exact h
    · simp [hq t] at ht

/-- A clean-up of `c` and a join of `d` to its group overlap: the clean-up finds the group not
empty. -/
theorem indexed_after_overlap : ∃ s : Calls Bool, s.Quiescent ∧ s.shared.Member "d" "g" ∧
    ¬ s.shared.Member "c" "g" ∧ s.shared.clients.Indexed := by
  have hcall : ∀ {s s' : Calls Bool} {t : Bool} {op : Op}, OrderlyStep s (.call t op) s' := by
    rintro _ _ _ _ _ _ ⟨⟩
  have hstep : ∀ {s s' : Calls Bool} {t : Bool} {e : Event}, s.Orderly t →
      OrderlyStep s (.exec t e) s' := by
    rintro _ _ _ _ ho _ _ ⟨⟩
    exact ho
  refine ⟨_, ?_, ?_, ?_, indexed_quiescent ⟨idlePair .block, idlePair_fresh _, _,
    .step ⟨.call (t := false) (.addToGroup "c" "g") rfl, hcall⟩ <|
    .step ⟨.exec (t := false) (granted_of_unguarded (by decide)) (.joinMembers "c" "g"),
      hstep trivial⟩ <|
    .step ⟨.exec (t := false) (granted_of_free rfl) (.joinGroups "c" "g"),
      hstep (Or.inl (by decide))⟩ <|
    .step ⟨.call (t := true) (.remove "c") rfl, hcall⟩ <|
    .step ⟨.exec (t := true) (granted_of_free rfl)
      (@Exec.cleanTaken _ "c" _ {"g"} ["g"] (by decide) (by simp) (by simp)), hstep trivial⟩ <|
    .step ⟨.call (t := false) (.addToGroup "d" "g") rfl, hcall⟩ <|
    .step ⟨.exec (t := false) (granted_of_unguarded (by decide)) (.joinMembers "d" "g"),
      hstep trivial⟩ <|
    .step ⟨.exec (t := true) (granted_of_free rfl) (.cleanFound rfl), hstep trivial⟩ <|
    .step ⟨.exec (t := true) (granted_of_free rfl) .cleanRemove, hstep ?_⟩ <|
    .step ⟨.exec (t := true) (granted_of_free rfl) (.cleanKept (by decide)), hstep trivial⟩ <|
    .step ⟨.exec (t := true) (granted_of_free rfl) .cleanDone, hstep trivial⟩ <|
    .step ⟨.exec (t := true) (granted_of_free rfl) (.removeEntry "c"), hstep trivial⟩ <|
    .single ⟨.exec (t := false) (granted_of_free rfl) (.joinGroups "d" "g"), hstep ?_⟩⟩ ?_⟩
  · intro t
    cases t <;> rfl
  · decide
  · decide
  · exact fun hlists : Shared.Lists _ "c" "g" => absurd hlists (by decide)
  · exact Or.inl (by decide)
  · intro t
    cases t <;> rfl

/-- `d` itself leaves `g`, or a clean-up of `d` takes it out. -/
def Departs (d : ConnId) (g : GroupName) : Pc → Prop
  | .leaveMembers id group => id = d ∧ group = g
  | .cleanRemove id group _ _ => id = d ∧ group = g
  | .cleanDelete id group _ _ => id = d ∧ group = g
  | _ => False

/-- No access of the run takes `d` out of `g` on behalf of `d`. -/
def Stays (d : ConnId) (g : GroupName) (s : Calls Task) (l : CallLabel Task)
    (_ : Calls Task) : Prop := ∀ t e, l = .exec t e → ¬ Departs d g (s.pc t)

/-- A clean-up of `c` decides that the group is empty; before it deletes the group, `d`
joins and its call returns. -/
theorem join_meets_delete : ∃ s : Calls Bool, (callSystem Bool).Reachable Calls.Fresh s ∧
    s.pc false = .cleanDelete "c" "g" [] (.removal "c") ∧ s.pc true = .idle ∧
    s.shared.Member "d" "g" ∧ s.shared.Lists "d" "g" := by
  refine ⟨_, ⟨idlePair .block, idlePair_fresh _, _,
    .step (.call (t := false) (.addToGroup "c" "g") rfl) <|
    .step (.exec (t := false) (granted_of_unguarded (by decide)) (.joinMembers "c" "g")) <|
    .step (.exec (t := false) (granted_of_free rfl) (.joinGroups "c" "g")) <|
    .step (.call (t := false) (.remove "c") rfl) <|
    .step (.exec (t := false) (granted_of_free rfl)
      (@Exec.cleanTaken _ _ _ {"g"} ["g"] (by decide) (by simp) (by simp))) <|
    .step (.exec (t := false) (granted_of_free rfl) (@Exec.cleanFound _ _ _ _ _ {"c"}
      (by decide))) <|
    .step (.exec (t := false) (granted_of_free rfl) .cleanRemove) <|
    .step (.exec (t := false) (granted_of_free rfl) (.cleanEmpty (by decide))) <|
    .step (.call (t := true) (.addToGroup "d" "g") rfl) <|
    .step (.exec (t := true) (granted_of_unguarded (by decide)) (.joinMembers "d" "g")) <|
    .single (.exec (t := true) (granted_of_free rfl) (.joinGroups "d" "g"))⟩,
    rfl, rfl, by decide, by decide⟩

/-- The clean-up then deletes the group with the new member in it. -/
theorem delete_finishes {s : Calls Bool}
    (hf : s.pc false = .cleanDelete "c" "g" [] (.removal "c")) (ht : s.pc true = .idle) :
    ∃ xs s', ((callSystem Bool).restrict (Stays "d" "g")).Run s xs s' ∧ s'.Quiescent ∧
      ¬ s'.shared.Member "d" "g" ∧ (s.shared.Lists "d" "g" → s'.shared.Lists "d" "g") := by
  have hfree : s.Granted false := by
    apply granted_of_unguarded
    intro u
    cases u <;> simp [hf, ht, Pc.guards, Cont.held]
  refine ⟨_, _,
    .step ⟨.at hf hfree .cleanDelete, ?_⟩ <|
    .step ⟨.at (goto_pc _ _ _ _) (granted_of_free (by simp [Pc.exclusive])) .cleanDone, ?_⟩ <|
    .single ⟨.at (goto_pc _ _ _ _) (granted_of_free (by simp [Cont.pc, Pc.exclusive]))
      (.removeEntry "c"), ?_⟩, fun u => ?_, ?_, ?_⟩
  · rintro _ _ ⟨⟩ hd
    simp [hf, Departs] at hd
  · rintro _ _ ⟨⟩ hd
    simp [Departs] at hd
  · rintro _ _ ⟨⟩ hd
    simp [Departs, Cont.pc] at hd
  · cases u with
    | false => simp
    | true => simp [Calls.goto, ht]
  · simp [Shared.Member, Shared.set]
  · simp [Shared.Lists, Shared.set]

/-- In the end `d` lists a group that does not have it as a member. -/
theorem deleted_join_not_indexed : ∃ s : Calls Bool,
    (callSystem Bool).Reachable Calls.Fresh s ∧ s.Quiescent ∧ ¬ s.shared.clients.Indexed := by
  obtain ⟨s, hreach, hf, ht, _, hlist⟩ := join_meets_delete
  obtain ⟨xs, s', hrun, hq, hlost, hlist'⟩ := delete_finishes hf ht
  exact ⟨s', hreach.extend hrun.of_restrict, hq, fun h => hlost ((h "g" "d").mpr (hlist' hlist))⟩

/-- The call is about to delete `g` for a connection other than `d`. -/
def Pc.DeletesFrom (d : ConnId) (g : GroupName) : Pc → Prop
  | .cleanDelete id group _ _ => id ≠ d ∧ group = g
  | _ => False

theorem Pc.Settled.not_deletesFrom (h : pc.Settled) : ¬ pc.DeletesFrom d g := by
  intro hd
  unfold Pc.DeletesFrom at hd
  split at hd
  · exact h.deleting _ _ _ _ rfl
  · exact hd

/-- An access keeps `d` in `g` unless it takes `d` out itself or deletes the group, and no
call decides to delete a group that has a member. -/
theorem Touches.keeps {s s' : InMemoryWsClients} (h : Touches s s' pc pc')
    (hm : d ∈ s.groupMembers.values g) (hstay : ¬ Departs d g pc)
    (hdel : ¬ pc.DeletesFrom d g) :
    d ∈ s'.groupMembers.values g ∧ ¬ pc'.DeletesFrom d g := by
  cases h with
  | quiet hgm _ _ hpc' => exact ⟨hgm ▸ hm, hpc'.not_deletesFrom⟩
  | cleanDone id k hs => exact ⟨hs ▸ hm, (follows_cont k).settled.not_deletesFrom⟩
  | joinMembers id group hgm hcg => simp_all [Pc.DeletesFrom]
  | joinGroups id group hgm hcg => simp_all [Pc.DeletesFrom]
  | leaveMembers id group hgm hcg => simp_all [Pc.DeletesFrom, Departs]; grind
  | leaveGroups id group hgm hcg => simp_all [Pc.DeletesFrom]
  | cleanTake id groups k hgm hcg hgroups => simp_all [Pc.DeletesFrom]
  | cleanFound id group groups k hs => simp_all [Pc.DeletesFrom]
  | cleanMissing id group groups k hs hnone => simp_all [Pc.DeletesFrom]
  | cleanRemove id group groups k hgm hcg => simp_all [Pc.DeletesFrom, Departs]; grind
  | cleanEmpty id group groups k hs hempty =>
    refine ⟨hs ▸ hm, ?_⟩
    rintro ⟨_, rfl⟩
    simp [hempty] at hm
  | cleanKept id group groups k hs => simp_all [Pc.DeletesFrom]
  | cleanDelete id group groups k hgm hcg => simp_all [Pc.DeletesFrom, Departs]; grind

/-- `d` is a member of `g` and no call is about to delete `g` under it. -/
structure Calls.Kept (s : Calls Task) (d : ConnId) (g : GroupName) : Prop where
  member : s.shared.Member d g
  safe : ∀ u, ¬ (s.pc u).DeletesFrom d g

theorem kept_goto (hsafe : ∀ u, ¬ (s.pc u).DeletesFrom d g) (hm : sh.Member d g)
    (hpc : ¬ pc.DeletesFrom d g) : (s.goto t sh pc).Kept d g :=
  ⟨hm, forall_goto (P := fun _ pc => ¬ pc.DeletesFrom d g) sh hpc fun u _ => hsafe u⟩

theorem kept_step {l : CallLabel Task} (hs : s.Kept d g) (hstay : Stays d g s l s')
    (h : CallStep s l s') : s'.Kept d g := by
  cases h with
  | call op _ => exact kept_goto hs.safe hs.member (settled_start op).not_deletesFrom
  | exec _ hx =>
    obtain ⟨hm, hpc⟩ := (exec_touches hx).keeps hs.member (hstay _ _ rfl) (hs.safe _)
    exact kept_goto hs.safe hm hpc
  | abort _ => exact kept_goto hs.safe hs.member (by simp [Pc.DeletesFrom])
  | recv => exact ⟨hs.member, hs.safe⟩
  | close => exact ⟨hs.member, hs.safe⟩
  | cancel => exact ⟨hs.member, hs.safe⟩

/-- A call that has decided to delete the group is not stopped by a join: it can run its
delete as soon as the join has taken its first step. -/
theorem delete_after_join (sh : Shared) {id : ConnId} {groups : List GroupName} {k : Cont}
    (hid : id ≠ d)
    (hpc : s.pc t = .joinMembers d g) (hu : s.pc u = .cleanDelete id g groups k)
    (hfree : s.Granted t) (hsh : sh.clients.shard = s.shared.clients.shard) :
    ∃ xs s', ((callSystem Task).restrict (Stays d g)).Run (s.goto t sh (.joinGroups d g)) xs s' ∧
      s'.pc t = .idle ∧ ¬ s'.shared.Member d g := by
  have hut : u ≠ t := by rintro rfl; simp [hpc] at hu
  have hdel : (s.goto t sh (.joinGroups d g)).pc u = .cleanDelete id g groups k := by
    rw [s.goto_pc_ne hut, hu]
  have hgranted : (s.goto t sh (.joinGroups d g)).Granted u := by
    intro group hgroup v g' hg'
    obtain rfl : g = group := by simpa [hdel, Pc.exclusive] using hgroup
    rw [goto_shared, hsh]
    by_cases hv : v = t
    · subst hv
      simp [Pc.guards] at hg'
    · rw [s.goto_pc_ne hv] at hg'
      exact hfree g (by simp [hpc, Pc.exclusive]) v g' hg'
  let s₂ := (s.goto t sh (.joinGroups d g)).goto u
    (sh.set (sh.clients.setGroupMembers (sh.clients.groupMembers.erase g))) (.cleanNext id groups k)
  have hjoin : s₂.pc t = .joinGroups d g := by
    rw [Calls.goto_pc_ne _ hut.symm, s.goto_pc]
  refine ⟨_, _, .step ⟨.at hdel hgranted .cleanDelete, ?_⟩ (.single ⟨.at (s := s₂) hjoin
    (granted_of_free (by rw [hjoin]; rfl)) (.joinGroups d g), ?_⟩), goto_pc _ _ _ _, ?_⟩
  · rintro _ _ ⟨⟩ hd
    simp [hdel, Departs, hid] at hd
  · rintro _ _ ⟨⟩ hd
    change Departs d g (s₂.pc t) at hd
    rw [hjoin] at hd
    exact hd
  · simp [s₂, Shared.Member, Shared.set]

/-- A join survives every run in which `d` does not depart exactly when no call that
decided to delete the group before the join is still to do it. -/
theorem join_kept_iff {s₁ : Calls Task} (hpc : s.pc t = .joinMembers d g)
    (hjoin : CallStep s (.exec t e) s₁) :
    (∀ xs s', ((callSystem Task).restrict (Stays d g)).Run s₁ xs s' →
      s'.pc t ≠ .joinGroups d g → s'.shared.Member d g) ↔
    ∀ u, ¬ (s.pc u).DeletesFrom d g := by
  cases hjoin with
  | exec hfree hx =>
  rw [hpc] at hx
  cases hx
  constructor
  · intro hkept u hu
    unfold Pc.DeletesFrom at hu
    split at hu
    · rename_i id group groups k hdel
      obtain ⟨hid, rfl⟩ := hu
      obtain ⟨xs, s', hrun, hidle, hlost⟩ := delete_after_join (s.shared.set
        (s.shared.clients.setGroupMembers (s.shared.clients.groupMembers.add group d))) hid hpc hdel
        hfree rfl
      exact hlost (hkept xs s' hrun (by simp [hidle]))
    · exact hu
  · intro hsafe xs s' hrun _
    have hstart : (s.goto t (s.shared.set (s.shared.clients.setGroupMembers
        (s.shared.clients.groupMembers.add g d))) (.joinGroups d g)).Kept d g :=
      kept_goto hsafe (by simp [Shared.Member, Shared.set]) (by simp [Pc.DeletesFrom])
    have hpres : ((callSystem Task).restrict (Stays d g)).Preserves fun s => s.Kept d g := by
      rintro u l v ⟨hstep, hstay⟩ hu
      exact kept_step hu hstay hstep
    exact (hrun.invariant hpres hstart).member

/-- A first member joins, with no clean-up in sight. -/
theorem join_kept_alone : ∃ s s₁ : Calls Bool, s.pc true = .joinMembers "d" "g" ∧
    CallStep s (.exec true .access) s₁ ∧
    ∀ xs s', ((callSystem Bool).restrict (Stays "d" "g")).Run s₁ xs s' →
      s'.pc true ≠ .joinGroups "d" "g" → s'.shared.Member "d" "g" := by
  let s := (idlePair .block).goto true (idlePair .block).shared (.joinMembers "d" "g")
  have hpc : s.pc true = .joinMembers "d" "g" := rfl
  have hjoin := CallStep.at hpc (granted_of_unguarded (by decide)) (.joinMembers "d" "g")
  refine ⟨s, _, hpc, hjoin, (join_kept_iff hpc hjoin).mpr fun u => ?_⟩
  cases u <;> simp [s, idlePair, Calls.goto, Pc.DeletesFrom]

/-- `remove("c")` finds the group empty, `add_to_group("d", "g")` runs and returns, and
then `remove("c")` deletes the group although `d` has not departed. -/
theorem deleted_join_not_kept : ∃ (s s' : Calls Bool) (xs : List (CallLabel Bool)),
    (callSystem Bool).Reachable Calls.Fresh s ∧ s.pc true = .idle ∧ s.shared.Member "d" "g" ∧
      s.shared.Lists "d" "g" ∧ ((callSystem Bool).restrict (Stays "d" "g")).Run s xs s' ∧
      s'.Quiescent ∧ ¬ s'.shared.Member "d" "g" := by
  obtain ⟨s, hreach, hf, ht, hmem, hlist⟩ := join_meets_delete
  obtain ⟨xs, s', hrun, hq, hlost, _⟩ := delete_finishes hf ht
  exact ⟨s, s', xs, hreach, ht, hmem, hlist, hrun, hq, hlost⟩

end AxumSignal
