import AxumSignal.CallFacts
import AxumSignal.SelfLock

/-! Whom a policy broadcast tries to deliver to, among any other calls: connections it has
found registered, and in a group it addresses, at some moment of the call. -/
namespace AxumSignal

open Transition Calls LTS

variable {Task : Type} [DecidableEq Task] {s s' s₀ s₁ : Calls Task} {sh sh' : Shared}
  {pc pc' : Pc} {e : Event} {t u : Task} {h k : Handle} {op : Op} {c : ConnId}
  {l : CallLabel Task} {xs : List (CallLabel Task)} {out : List ConnId}
  {dest : Option (List GroupName)} {msg : Message}

/-- The connections that a broadcast leaves out. -/
def Op.excluded : Op → List ConnId
  | .broadcastExcept excluded _ => excluded
  | .broadcastGroupExcept _ excluded _ => excluded
  | _ => []

/-- The groups that a group broadcast addresses. -/
def Op.groups : Op → Option (List GroupName)
  | .broadcastGroup group _ => some [group]
  | .broadcastGroupExcept group _ _ => some [group]
  | .broadcastGroups groups _ => some groups
  | _ => none

/-- The registrations that the calls of `t` have attempted to deliver to. -/
def attemptedBy (t : Task) : List (CallLabel Task) → List Handle
  | [] => []
  | .exec u (.attempt h) :: xs => if u = t then h :: attemptedBy t xs else attemptedBy t xs
  | _ :: xs => attemptedBy t xs

@[simp] theorem attemptedBy_append (t : Task) (xs ys : List (CallLabel Task)) :
    attemptedBy t (xs ++ ys) = attemptedBy t xs ++ attemptedBy t ys := by
  induction xs with
  | nil => rfl
  | cons l xs ih =>
    cases l with
    | exec u e =>
      cases e with
      | attempt h =>
        simp only [List.cons_append, attemptedBy, ih]
        split <;> rfl
      | _ => exact ih
    | _ => exact ih

theorem attemptedBy_attempt (t : Task) (xs : List (CallLabel Task)) (h : Handle) :
    attemptedBy t (xs ++ [.exec t (.attempt h)]) = attemptedBy t xs ++ [h] := by
  simp [attemptedBy]

theorem attemptedBy_other (hl : ∀ h, l ≠ .exec t (.attempt h)) :
    attemptedBy t (xs ++ [l]) = attemptedBy t xs := by
  rw [attemptedBy_append]
  cases l with
  | exec u e =>
    cases e with
    | attempt h =>
      have hne : u ≠ t := by
        rintro rfl
        exact hl h rfl
      simp [attemptedBy, hne]
    | _ => simp [attemptedBy]
  | _ => simp [attemptedBy]

def Receiver.ahead : Receiver → List Handle
  | .direct _ _ => []
  | .recipient _ d => d.rest

def Cont.ahead : Cont → List Handle
  | .removal _ => []
  | .resume d => d.rest

/-- The registrations that a call has collected and not attempted yet. -/
def Pc.holds : Pc → List Handle
  | .scan _ _ _ _ found | .scanGroup _ _ _ _ _ _ found | .openGroups _ _ _ found
  | .scanGroups _ _ _ _ found _ _ _ | .filterGroups _ _ _ _ found => found
  | .deliver d | .average _ d | .drop _ d | .count _ d | .reset _ d | .evictRemove _ d
  | .evictCancel _ _ d => d.rest
  | .send r | .wait r => r.ahead
  | .cleanTake _ k | .cleanNext _ _ k | .cleanRemove _ _ _ k | .cleanCheck _ _ _ k
  | .cleanDelete _ _ _ k => k.ahead
  | _ => []

/-- The members of groups that a call has still to look up. -/
def Pc.asks : Pc → List ConnId
  | .scanGroup _ _ _ _ _ ids _ | .scanGroups _ _ _ _ _ _ _ ids | .filterGroups ids _ _ _ _ => ids
  | _ => []

/-- The call is collecting recipients outside of `out`, among the members of the groups
`dest` if it addresses groups. -/
def Pc.Collects (out : List ConnId) (dest : Option (List GroupName)) : Pc → Prop
  | .iter excluded _ | .scan excluded _ _ _ _ => excluded = out ∧ dest = none
  | .openGroup group excluded _ | .scanGroup group excluded _ _ _ _ _ =>
    excluded = out ∧ dest = some [group]
  | .openGroups groups _ _ _ | .filterGroups _ groups _ _ _ =>
    out = [] ∧ ∃ all, dest = some all ∧ groups ⊆ all
  | .scanGroups group groups _ _ _ _ _ _ => out = [] ∧ ∃ all, dest = some all ∧
    group :: groups ⊆ all
  | _ => False

def Receiver.Delivers : Receiver → Prop
  | .direct _ _ => False
  | .recipient _ _ => True

def Cont.Delivers : Cont → Prop
  | .removal _ => False
  | .resume _ => True

/-- The call is delivering to its recipients, or over. -/
def Pc.Delivers : Pc → Prop
  | .idle | .deliver _ | .average _ _ | .drop _ _ | .count _ _ | .reset _ _ | .evictRemove _ _
  | .evictCancel _ _ _ => True
  | .send r | .wait r => r.Delivers
  | .cleanTake _ k | .cleanNext _ _ k | .cleanRemove _ _ _ k | .cleanCheck _ _ _ k
  | .cleanDelete _ _ _ k => k.Delivers
  | _ => False

theorem collects_start (hm : op.message = some msg) :
    op.start.Collects op.excluded op.groups := by
  cases op with
  | broadcastExcept | broadcastGroup | broadcastGroupExcept =>
    obtain rfl : _ = some msg := hm
    exact ⟨rfl, rfl⟩
  | broadcastGroups groups =>
    obtain rfl : _ = some msg := hm
    exact ⟨rfl, groups, rfl, List.Subset.refl _⟩
  | _ => simp [Op.message] at hm

/-- What one access of a collecting call adds to the recipients and to the ids it asks for. -/
structure Reads (sh : Shared) (out : List ConnId) (dest : Option (List GroupName))
    (pc pc' : Pc) (e : Event) : Prop where
  quiet : ∀ h, e ≠ .attempt h
  holds : ∀ h ∈ pc'.holds, h ∈ pc.holds ∨ ∃ id, sh.clients.connections.lookup id = some h ∧
    (id ∈ pc.asks ∨ (dest = none ∧ id ∉ out))
  asks : ∀ id ∈ pc'.asks, id ∈ pc.asks ∨ (id ∉ out ∧
    ∃ all, dest = some all ∧ ∃ g ∈ all, id ∈ sh.clients.groupMembers.values g)
  pos : pc'.Collects out dest ∨ pc'.Delivers

theorem exec_reads (hx : Exec sh pc e sh' pc') (hc : pc.Collects out dest) :
    Reads sh out dest pc pc' e := by
  cases hx with
  | iter layout => exact ⟨by simp, by simp [Pc.holds], by simp [Pc.asks], Or.inl hc⟩
  | scan hnext hids =>
    obtain ⟨rfl, hg⟩ := hc
    refine ⟨by simp, fun h hh => ?_, by simp [Pc.asks], Or.inl ⟨rfl, hg⟩⟩
    rcases List.mem_append.mp hh with hh | hh
    · exact Or.inl hh
    · obtain ⟨id, hid, hl⟩ := List.mem_filterMap.mp hh
      exact Or.inr ⟨id, hl, Or.inr ⟨hg, by simpa using (List.mem_filter.mp hid).2⟩⟩
  | scanned => exact ⟨by simp, fun h hh => Or.inl hh, by simp [Pc.asks], Or.inr trivial⟩
  | groupFound => exact ⟨by simp, by simp [Pc.holds], by simp [Pc.asks], Or.inl hc⟩
  | groupMissing => exact ⟨by simp, by simp [Pc.holds], by simp [Pc.asks], Or.inr trivial⟩
  | scanGroup hnext hids =>
    obtain ⟨rfl, hg⟩ := hc
    refine ⟨by simp, fun h hh => Or.inl hh, fun id hid => ?_, Or.inl ⟨rfl, hg⟩⟩
    obtain ⟨hy, hex⟩ := List.mem_filter.mp hid
    exact Or.inr ⟨by simpa using hex, _, hg, _, List.mem_singleton_self _,
      ((hids.mem id).mp hy).1⟩
  | @lookupMember group ex msg layout next id ids found =>
    refine ⟨by simp, fun h hh => ?_, fun i hi => Or.inl (List.mem_cons_of_mem _ hi), Or.inl hc⟩
    rcases List.mem_append.mp hh with hh | hh
    · exact Or.inl hh
    · exact Or.inr ⟨id, Option.mem_toList.mp hh, Or.inl List.mem_cons_self⟩
  | groupScanned => exact ⟨by simp, fun h hh => Or.inl hh, by simp [Pc.asks], Or.inr trivial⟩
  | nextFound => exact ⟨by simp, fun h hh => Or.inl hh, by simp [Pc.asks], Or.inl hc⟩
  | nextMissing =>
    obtain ⟨hex, all, hg, hsub⟩ := hc
    exact ⟨by simp, fun h hh => Or.inl hh, by simp [Pc.asks],
      Or.inl ⟨hex, all, hg, fun g hin => hsub (List.mem_cons_of_mem _ hin)⟩⟩
  | groupsDone => exact ⟨by simp, fun h hh => Or.inl hh, by simp [Pc.asks], Or.inr trivial⟩
  | @scanGroups group gs msg seen found layout next ids yielded hnext hids =>
    obtain ⟨rfl, all, hg, hsub⟩ := hc
    refine ⟨by simp, fun h hh => Or.inl hh, fun id hid => ?_, Or.inl ⟨rfl, all, hg, hsub⟩⟩
    rcases List.mem_append.mp hid with hid | hid
    · exact Or.inl hid
    · exact Or.inr ⟨by simp, all, hg, group, hsub List.mem_cons_self, ((hids.mem id).mp hid).1⟩
  | collected =>
    obtain ⟨hex, all, hg, hsub⟩ := hc
    exact ⟨by simp, fun h hh => Or.inl hh, fun id hid => Or.inl hid,
      Or.inl ⟨hex, all, hg, fun g hin => hsub (List.mem_cons_of_mem _ hin)⟩⟩
  | duplicate =>
    exact ⟨by simp, fun h hh => Or.inl hh, fun id hid => Or.inl (List.mem_cons_of_mem _ hid),
      Or.inl hc⟩
  | @lookupFirst id ids gs msg seen found hseen =>
    refine ⟨by simp, fun h hh => ?_, fun i hi => Or.inl (List.mem_cons_of_mem _ hi), Or.inl hc⟩
    rcases List.mem_append.mp hh with hh | hh
    · exact Or.inl hh
    · exact Or.inr ⟨id, Option.mem_toList.mp hh, Or.inl List.mem_cons_self⟩
  | filtered => exact ⟨by simp, fun h hh => Or.inl hh, by simp [Pc.asks], Or.inl hc⟩
  | _ => exact hc.elim

/-- What one access of a delivering call does with the recipients ahead. -/
inductive Deals (pc pc' : Pc) (e : Event) : Prop where
  | quiet (he : ∀ h, e ≠ .attempt h) (hh : pc'.holds = pc.holds) (hd : pc'.Delivers)
  | attempts {h : Handle} (he : e = .attempt h) (hh : pc.holds = h :: pc'.holds)
      (hd : pc'.Delivers)
  | panics (he : e = .panic) (hpc : pc' = .idle)

theorem holds_cont (k : Cont) : k.pc.holds = k.ahead := by cases k <;> rfl

theorem delivers_cont {k : Cont} (h : k.Delivers) : k.pc.Delivers := by cases k <;> exact h

theorem deals_accepted {r : Receiver} (policy : BroadcastPolicy) (h : r.Delivers) :
    (r.accepted policy).holds = r.ahead ∧ (r.accepted policy).Delivers := by
  cases r with
  | direct => exact h.elim
  | recipient => cases policy <;> exact ⟨rfl, trivial⟩

theorem deals_refused {r : Receiver} (policy : BroadcastPolicy) (h : r.Delivers) :
    (r.refused policy).holds = r.ahead ∧ (r.refused policy).Delivers := by
  cases r with
  | direct => exact h.elim
  | recipient => cases policy <;> exact ⟨rfl, trivial⟩

theorem deals_firstAccess (policy : BroadcastPolicy) (h : Handle) (d : Delivery) :
    (policy.firstAccess h d).holds = d.rest ∧ (policy.firstAccess h d).Delivers := by
  cases policy <;> exact ⟨rfl, trivial⟩

theorem deals_afterDrop (policy : BroadcastPolicy) (h : Handle) (d : Delivery) :
    (policy.afterDrop h d).holds = d.rest ∧ (policy.afterDrop h d).Delivers := by
  cases policy <;> exact ⟨rfl, trivial⟩

theorem exec_deals (hx : Exec sh pc e sh' pc') (hd : pc.Delivers) : Deals pc pc' e := by
  cases hx with
  | next =>
    obtain ⟨hh, hd⟩ := deals_firstAccess _ _ _
    exact .attempts rfl (congrArg _ hh.symm) hd
  | averagePanics => exact .panics rfl rfl
  | accept | resume => exact .quiet (by simp) (deals_accepted _ hd).1 (deals_accepted _ hd).2
  | refuse | disconnect => exact .quiet (by simp) (deals_refused _ hd).1 (deals_refused _ hd).2
  | drop =>
    obtain ⟨hh, hd⟩ := deals_afterDrop _ _ _
    exact .quiet (by simp) hh hd
  | cleanNothing | cleanDone => exact .quiet (by simp) (holds_cont _) (delivers_cont hd)
  | averageHigh | averageLow | countBelow | countReached | reset | evictFound | evictMissing
  | evictCancel | late | cleanTaken | cleanFound | cleanMissing | cleanRemove
  | cleanEmpty | cleanKept | cleanDelete | suspend | delivered => exact .quiet (by simp) rfl hd
  | _ => exact hd.elim

/-- What a call has collected are registrations of different connections. -/
theorem Pc.Collected.holds {s : InMemoryWsClients} (h : pc.Collected s) :
    Snapshot s pc.holds := by
  cases pc with
  | scan => exact h.snapshot
  | scanGroup => exact h.1.snapshot
  | openGroups | scanGroups | filterGroups => exact h.snapshot
  | deliver => exact h
  | average | drop | count | reset | evictRemove => exact h.tail
  | evictCancel => exact h.2
  | send r | wait r =>
    cases r with
    | direct => exact snapshot_nil s
    | recipient => exact h.tail
  | cleanTake _ k | cleanNext _ _ k | cleanRemove _ _ _ k | cleanCheck _ _ _ k
  | cleanDelete _ _ _ k =>
    cases k with
    | removal => exact snapshot_nil s
    | resume => exact h
  | _ => exact snapshot_nil s

/-- Since the call of `t` began in `s₁` there was a moment at which the store met `P`. -/
def Meanwhile (t : Task) (s₁ : Calls Task) (xs : List (CallLabel Task)) (s : Calls Task)
    (P : InMemoryWsClients → Prop) : Prop :=
  (callSystem Task).Passes s₁ xs s fun u => u.pc t ≠ .idle ∧ P u.shared.clients

/-- `t` has called `op` from `s₀`, and no other operation since. -/
structure CallOf (t : Task) (op : Op) (s₀ : Calls Task) (xs : List (CallLabel Task))
    (s : Calls Task) : Prop where
  reached : (callSystem Task).Reachable Calls.Fresh s₀
  start : s₀.pc t = .idle
  run : (callSystem Task).Run (s₀.goto t s₀.shared op.start) xs s
  same : ∀ op', .call t op' ∉ xs

/-- The connection is not left out, and since the call began it was registered and in one of
the groups that the call addresses, each at some moment. -/
structure Addressed (t : Task) (op : Op) (s₁ : Calls Task) (xs : List (CallLabel Task))
    (s : Calls Task) (c : ConnId) : Prop where
  kept : c ∉ op.excluded
  registered : Meanwhile t s₁ xs s fun r => (r.connections.lookup c).isSome
  member : ∀ groups, op.groups = some groups →
    Meanwhile t s₁ xs s fun r => ∃ g ∈ groups, c ∈ r.groupMembers.values g

/-- What is known of a broadcast of `t` while it runs. -/
structure Informed (t : Task) (op : Op) (s₁ : Calls Task) (xs : List (CallLabel Task))
    (s : Calls Task) : Prop where
  pos : ((s.pc t).Collects op.excluded op.groups ∧ attemptedBy t xs = []) ∨ (s.pc t).Delivers
  snapshot : Snapshot s.shared.clients (attemptedBy t xs ++ (s.pc t).holds)
  known : ∀ h ∈ attemptedBy t xs ++ (s.pc t).holds,
    Addressed t op s₁ xs s (s.shared.clients.states h).id
  asked : ∀ id ∈ (s.pc t).asks, id ∉ op.excluded ∧ ∀ groups, op.groups = some groups →
    Meanwhile t s₁ xs s fun r => ∃ g ∈ groups, id ∈ r.groupMembers.values g

theorem Meanwhile.snoc {P : InMemoryWsClients → Prop} (h : Meanwhile t s₁ xs s P)
    (hstep : CallStep s l s') : Meanwhile t s₁ (xs ++ [l]) s' P := Passes.snoc h hstep

theorem Addressed.snoc (h : Addressed t op s₁ xs s c) (hstep : CallStep s l s') :
    Addressed t op s₁ (xs ++ [l]) s' c where
  kept := h.kept
  registered := h.registered.snoc hstep
  member groups hg := (h.member groups hg).snoc hstep

theorem collects_ne_idle (h : pc.Collects out dest) : pc ≠ .idle := by
  rintro rfl
  exact h

theorem Delivers.asks (h : pc.Delivers) : pc.asks = [] := by
  cases pc <;> first | rfl | exact h.elim

/-- What was known of registrations and ids stays known. -/
theorem Informed.remember (hs : Informed t op s₁ xs s) (hstep : CallStep s l s') :
    (∀ h ∈ attemptedBy t xs ++ (s.pc t).holds,
      Addressed t op s₁ (xs ++ [l]) s' (s'.shared.clients.states h).id) ∧
    ∀ id ∈ (s.pc t).asks, id ∉ op.excluded ∧ ∀ groups, op.groups = some groups →
      Meanwhile t s₁ (xs ++ [l]) s' fun r => ∃ g ∈ groups, id ∈ r.groupMembers.values g := by
  have hp := step_persists hstep
  constructor
  · intro h hh
    rw [hp.id h (hs.snapshot.allocated h hh)]
    exact (hs.known h hh).snoc hstep
  · intro id hid
    obtain ⟨hkept, hmember⟩ := hs.asked id hid
    exact ⟨hkept, fun groups hg => (hmember groups hg).snoc hstep⟩

/-- A step that leaves the call of `t` where it is. -/
theorem Informed.other (hs : Informed t op s₁ xs s) (hstep : CallStep s l s')
    (hl : ∀ e, l ≠ .exec t e) (hpc : s'.pc t = s.pc t) : Informed t op s₁ (xs ++ [l]) s' := by
  obtain ⟨hknown, hasked⟩ := hs.remember hstep
  have hsame : attemptedBy t (xs ++ [l]) = attemptedBy t xs :=
    attemptedBy_other fun h => hl (.attempt h)
  constructor
  all_goals rw [hpc]
  case pos =>
    rw [hsame]
    exact hs.pos
  case snapshot =>
    rw [hsame]
    exact (step_persists hstep).snapshot hs.snapshot
  case known =>
    rw [hsame]
    exact hknown
  case asked =>
    exact hasked

/-- The call of `t` is over, or given up. -/
theorem Informed.stop (hs : Informed t op s₁ xs s) (hstep : CallStep s l s')
    (hl : ∀ h, l ≠ .exec t (.attempt h)) (hpc : s'.pc t = .idle) :
    Informed t op s₁ (xs ++ [l]) s' := by
  obtain ⟨hknown, -⟩ := hs.remember hstep
  have hsame : attemptedBy t (xs ++ [l]) = attemptedBy t xs := attemptedBy_other hl
  have hsnap := (step_persists hstep).snapshot hs.snapshot
  constructor
  all_goals rw [hpc]
  case pos =>
    exact Or.inr trivial
  case snapshot =>
    rw [hsame]
    simp only [Pc.holds, List.append_nil]
    refine ⟨fun h hh => hsnap.allocated h (List.mem_append_left _ hh), ?_⟩
    have hd := hsnap.distinct
    rw [List.map_append] at hd
    exact hd.of_append_left
  case known =>
    rw [hsame]
    intro h hh
    exact hknown h (by simpa [Pc.holds] using Or.inl hh)
  case asked =>
    simp [Pc.asks]

/-- An access of a call that is collecting. -/
theorem Informed.collect (hs : Informed t op s₁ xs s) (hrun : (callSystem Task).Run s₁ xs s)
    (hc : (s.pc t).Collects op.excluded op.groups) (hnone : attemptedBy t xs = [])
    (hcol : (s'.pc t).Collected s'.shared.clients) (hstep : CallStep s (.exec t e) s')
    (hr : Reads s.shared op.excluded op.groups (s.pc t) (s'.pc t) e) :
    Informed t op s₁ (xs ++ [.exec t e]) s' := by
  obtain ⟨hknown, hasked⟩ := hs.remember hstep
  have hp := step_persists hstep
  have hsame : attemptedBy t (xs ++ [.exec t e]) = [] := by
    rw [attemptedBy_other fun h he => hr.quiet h (by simpa using he), hnone]
  have hbusy := collects_ne_idle hc
  constructor
  case pos =>
    exact hr.pos.imp_left fun hpos => ⟨hpos, hsame⟩
  case snapshot =>
    rw [hsame]
    exact hcol.holds
  case known =>
    rw [hsame]
    intro h hh
    rcases hr.holds h hh with hold | ⟨id, hl, hid⟩
    · exact hknown h (List.mem_append_right _ hold)
    · rw [hp.id h (s.shared.clients.key_allocated id h hl), s.shared.clients.key_id id h hl]
      have hreg : Meanwhile t s₁ (xs ++ [.exec t e]) s' fun r => (r.connections.lookup id).isSome :=
        Meanwhile.snoc (Passes.here hrun ⟨hbusy, by simp [hl]⟩) hstep
      rcases hid with hid | ⟨hdest, hkept⟩
      · exact ⟨(hasked id hid).1, hreg, (hasked id hid).2⟩
      · exact ⟨hkept, hreg, fun groups hg => by simp [hdest] at hg⟩
  case asked =>
    intro id hid
    rcases hr.asks id hid with hold | ⟨hkept, all, hall, hin⟩
    · exact hasked id hold
    · refine ⟨hkept, fun groups hg => ?_⟩
      obtain rfl : all = groups := Option.some.inj (hall.symm.trans hg)
      exact Meanwhile.snoc (Passes.here hrun ⟨hbusy, hin⟩) hstep

/-- An access of a call that is delivering. -/
theorem Informed.deliver (hs : Informed t op s₁ xs s) (hstep : CallStep s (.exec t e) s')
    (hd : Deals (s.pc t) (s'.pc t) e) : Informed t op s₁ (xs ++ [.exec t e]) s' := by
  have hp := step_persists hstep
  obtain ⟨hknown, -⟩ := hs.remember hstep
  have hsnap := hp.snapshot hs.snapshot
  have hbuild : (s'.pc t).Delivers →
      attemptedBy t (xs ++ [.exec t e]) ++ (s'.pc t).holds = attemptedBy t xs ++ (s.pc t).holds →
      Informed t op s₁ (xs ++ [.exec t e]) s' := by
    intro hdel hall
    refine ⟨Or.inr hdel, hall ▸ hsnap, hall ▸ hknown, ?_⟩
    rw [Delivers.asks hdel]
    simp
  cases hd with
  | quiet he hh hdel =>
    refine hbuild hdel ?_
    rw [attemptedBy_other fun h hl => he h (by simpa using hl), hh]
  | @attempts h he hh hdel =>
    refine hbuild hdel ?_
    rw [he, attemptedBy_attempt, hh, List.append_assoc, List.singleton_append]
  | panics he hpc => exact hs.stop hstep (by simp [he]) hpc

theorem informed_step (hs : Informed t op s₁ xs s) (hrun : (callSystem Task).Run s₁ xs s)
    (hcol : s'.AllCollected) (hl : ∀ op', l ≠ .call t op') (hstep : CallStep s l s') :
    Informed t op s₁ (xs ++ [l]) s' := by
  cases step_turn hstep t with
  | other hother hpc => exact hs.other hstep hother hpc
  | call => exact (hl _ rfl).elim
  | exec hfree hx =>
    rcases hs.pos with ⟨hc, hnone⟩ | hd
    · exact hs.collect hrun hc hnone (hcol t) hstep (by rw [s.goto_pc]; exact exec_reads hx hc)
    · exact hs.deliver hstep (by rw [s.goto_pc]; exact exec_deals hx hd)
  | abort => exact hs.stop hstep (by simp) (s.goto_pc _ _ _)

theorem CallOf.reachable (h : CallOf t op s₀ xs s) :
    (callSystem Task).Reachable Calls.Fresh (s₀.goto t s₀.shared op.start) :=
  h.reached.extend (.single (.call op h.start))

/-- The run lemma: a broadcast is informed at every moment. -/
theorem CallOf.informed (h : CallOf t op s₀ xs s) (hm : op.message = some msg) :
    Informed t op (s₀.goto t s₀.shared op.start) xs s := by
  let s₁ := s₀.goto t s₀.shared op.start
  have hstart : Informed t op s₁ [] s₁ := by
    have hcol := allCollected_reachable h.reachable t
    have hc := collects_start hm
    have hnone : op.start.holds = [] ∧ op.start.asks = [] := by
      unfold Op.start
      split <;> exact ⟨rfl, rfl⟩
    have hpc : s₁.pc t = op.start := s₀.goto_pc _ _ _
    constructor
    all_goals rw [hpc]
    case pos =>
      exact Or.inl ⟨hc, rfl⟩
    case snapshot =>
      rw [hnone.1]
      exact snapshot_nil _
    case known =>
      simp [hnone.1, attemptedBy]
    case asked =>
      simp [hnone.2]
  refine (h.run.history (H := fun ys u => (∀ op', .call t op' ∉ ys) →
    (callSystem Task).Run s₁ ys u ∧ Informed t op s₁ ys u)
    (fun _ => ⟨.refl, hstart⟩) ?_ h.same).2
  intro ys u l w hstep hu hsame
  obtain ⟨hrun, hinf⟩ := hu fun op' hin => hsame op' (List.mem_append_left _ hin)
  have hrun' := hrun.snoc hstep
  refine ⟨hrun', informed_step hinf hrun (allCollected_reachable (h.reachable.extend hrun')) ?_
    hstep⟩
  rintro op' rfl
  exact hsame op' (by simp)

/-- A broadcast attempts each connection at most once, and only connections that it does not
leave out and that, at some moment since it was called, were registered and, for the group
forms, in one of its groups. -/
theorem attempts_addressed (h : CallOf t op s₀ xs s) (hm : op.message = some msg) :
    ((attemptedBy t xs).map fun h => (s.shared.clients.states h).id).Nodup ∧
      ∀ h ∈ attemptedBy t xs, Addressed t op (s₀.goto t s₀.shared op.start) xs s
        (s.shared.clients.states h).id := by
  have hinf := h.informed hm
  have hd := hinf.snapshot.distinct
  rw [List.map_append] at hd
  exact ⟨hd.of_append_left, fun h hh => hinf.known h (List.mem_append_left _ hh)⟩

/-- One member of a group is attempted by a broadcast to it. -/
theorem attempts_member : ∃ s₀ xs s,
    CallOf false (.broadcastGroup "g" (some (.text "news"))) s₀ xs s ∧
    attemptedBy false xs = [0] ∧ Addressed false (.broadcastGroup "g" (some (.text "news")))
      (s₀.goto false s₀.shared (.openGroup "g" [] (.text "news"))) xs s "c" := by
  have hcall : ∃ s₀ s, CallOf false (.broadcastGroup "g" (some (.text "news"))) s₀
      [.exec false .access, .exec false .access, .exec false .access, .exec false .access,
        .exec false (.attempt 0)] s ∧ (s.shared.clients.states 0).id = "c" := by
    refine ⟨_, _, ⟨⟨idlePair .block, idlePair_fresh _, _,
      .step (.call (t := true) (.add "c" "tx" "token" "drop") rfl) <|
      .step (.exec (t := true) (granted_of_free rfl) (.insert "c" "tx" "token" "drop")) <|
      .step (.call (t := true) (.addToGroup "c" "g") rfl) <|
      .step (.exec (t := true) (granted_of_unguarded (by decide)) (.joinMembers "c" "g")) <|
      .single (.exec (t := true) (granted_of_free rfl) (.joinGroups "c" "g"))⟩, rfl,
      .step (.exec (t := false) (granted_of_free rfl) (@Exec.groupFound _ _ _ _ {"c"}
        ⟨1, fun _ => 0⟩ (by decide))) <|
      .step (.exec (t := false) (granted_of_free rfl) (@Exec.scanGroup _ _ _ _ _ _ _ ["c"]
        (by decide) ⟨by decide, fun id => ?_⟩)) <|
      .step (.exec (t := false) (granted_of_free rfl) .lookupMember) <|
      .step (.exec (t := false) (granted_of_free rfl) (.groupScanned (by decide))) <|
      .single (.exec (t := false) (granted_of_free rfl) .next), by simp⟩, ?_⟩
    · change id ∈ ["c"] ↔ id ∈ SetMap.values (SetMap.add ∅ "g" "c") "g" ∧ _
      simp
    · rfl
  obtain ⟨s₀, s, hcall, hid⟩ := hcall
  have h := (attempts_addressed hcall rfl).2 0 (by simp [attemptedBy])
  rw [hid] at h
  exact ⟨s₀, _, s, hcall, rfl, h⟩

end AxumSignal
