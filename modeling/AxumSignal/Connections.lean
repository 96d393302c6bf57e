import AxumSignal.HubFacts

/-! Each connection of a hub as a connection of its own: what the other tasks do to it are
messages pushed into its queue, and the cancellation of its token. -/
namespace AxumSignal

open Transition Calls

variable {Req : Type} {decode : Message → Option Req} {s s' s₀ : Hub} {l : HubLabel}
  {c d : ConnId} {conn conn' : Conn} {e : Event} {pc pc' : Pc} {sh sh' : Shared}
  {xs : List HubLabel}

/-- The step as one of the tasks of `c`. -/
def HubLabel.eventOf (c : ConnId) : HubLabel → Option ConnEvent
  | .conn d e => if d = c then some e else none
  | _ => none

/-- The steps that other tasks take on a connection. -/
def ConnEvent.byOthers : ConnEvent → Bool
  | .pushed _ | .cancelled => true
  | _ => false

theorem local_byOthers {e : ConnEvent} (he : e.Local) : e.byOthers = false := by
  cases e <;> first | rfl | exact he.elim

/-- What an access leaves of the channel and the token of `c`. -/
theorem exec_channel (hx : Exec sh pc e sh' pc') (c : ConnId) :
    (sh'.chans c = sh.chans c ∧ sh'.cancelled c = sh.cancelled c) ∨
    (∃ msg, sh.Accepts c ∧ sh'.chans c = (sh.chans c).push msg ∧
      sh'.cancelled c = sh.cancelled c) ∨
    (sh'.chans c = sh.chans c ∧ sh'.cancelled c = true) := by
  have hpush : ∀ r : Receiver, sh.Accepts (r.sender sh.clients) →
      (sh.push (r.sender sh.clients) r.msg).chans c = sh.chans c ∨
        sh.Accepts c ∧ (sh.push (r.sender sh.clients) r.msg).chans c = (sh.chans c).push r.msg := by
    intro r haccepts
    by_cases hc : c = r.sender sh.clients
    · subst hc
      exact Or.inr ⟨haccepts, by simp [Shared.push, Chan.push]⟩
    · exact Or.inl (by simp [Shared.push, hc])
  cases hx with
  | @accept r haccepts | @resume r haccepts =>
    rcases hpush r haccepts with hsame | ⟨hroom, hnew⟩
    · exact Or.inl ⟨hsame, rfl⟩
    · exact Or.inr (Or.inl ⟨_, hroom, hnew, rfl⟩)
  | @evictCancel victim =>
    by_cases hc : c = (sh.clients.states victim).cancel
    · exact Or.inr (Or.inr ⟨rfl, by simp [Shared.cancel, hc]⟩)
    · exact Or.inl ⟨rfl, by simp [Shared.cancel, hc]⟩
  | _ => exact Or.inl ⟨rfl, rfl⟩

/-- What a step of the hub is to a connection of it, as its tasks see it. -/
inductive ViewStep (decode : Message → Option Req) (c : ConnId) (v : Conn) (l : HubLabel)
    (v' : Conn) : Prop where
  | same (hl : l.eventOf c = none) (hv : v' = v)
  | own {e : ConnEvent} (hl : l.eventOf c = some e) (he : e.byOthers = false)
      (hstep : ConnStep decode v e v')
  | other {e : ConnEvent} (hl : l.eventOf c = none) (he : e.byOthers = true)
      (hstep : ConnStep decode v e v')

theorem handled_conns {n : Nat} (rtt : Option Nat) (a : FrameAction Req) :
    (s.handled d n rtt a).conns = s.conns := by
  cases a with
  | recordRtt => cases rtt <;> rfl
  | _ => rfl

theorem handled_shared {n : Nat} (rtt : Option Nat) (a : FrameAction Req) :
    (s.handled d n rtt a).calls.shared = s.calls.shared := by
  rcases handled_calls (s := s) (c := d) (n := n) rtt a with h | ⟨r, h⟩ <;> rw [h]
  rfl

/-- A step of the tasks of `d`, written back. -/
theorem view_put {e : ConnEvent} (hc : s.conns c = some conn) (hd : s.conns d = some conn')
    {conn'' : Conn} (he : e.byOthers = false) (hstep : ConnStep decode (s.view d conn') e conn'')
    (hconns : s'.conns = (s.put d conn'').conns)
    (hchans : s'.calls.shared.chans = (s.put d conn'').calls.shared.chans)
    (hcancel : s'.calls.shared.cancelled = (s.put d conn'').calls.shared.cancelled) :
    ∃ w, s'.conns c = some w ∧ ViewStep decode c (s.view c conn) (.conn d e) (s'.view c w) := by
  by_cases hcd : c = d
  · subst hcd
    obtain rfl : conn = conn' := Option.some.inj (hc.symm.trans hd)
    refine ⟨conn'', by simp [hconns, Hub.put], .own (by simp [HubLabel.eventOf]) he ?_⟩
    have hview : s'.view c conn'' = conn'' := by simp [Hub.view, hchans, hcancel, Hub.put]
    rwa [hview]
  · refine ⟨conn, by simp [hconns, Hub.put, hcd, hc], .same ?_ ?_⟩
    · simp [HubLabel.eventOf, Ne.symm hcd]
    · simp [Hub.view, hchans, hcancel, Hub.put, hcd]

/-- An access of a call, whoever makes it. -/
theorem view_exec (hc : s.conns c = some conn) (hx : Exec s.calls.shared pc e sh pc')
    (hl : l.eventOf c = none) (hconns : s'.conns = s.conns) (hsh : s'.calls.shared = sh) :
    ∃ w, s'.conns c = some w ∧ ViewStep decode c (s.view c conn) l (s'.view c w) := by
  refine ⟨conn, by rw [hconns, hc], ?_⟩
  rcases exec_channel hx c with ⟨hchan, htoken⟩ | ⟨msg, hroom, hchan, htoken⟩ | ⟨hchan, htoken⟩
  · exact .same hl (by simp [Hub.view, hsh, hchan, htoken])
  · have hpushed :
        s'.view c conn = { s.view c conn with chan := (s.view c conn).chan.push msg } := by
      simp [Hub.view, hsh, hchan, htoken]
    rw [hpushed]
    exact .other (e := .pushed msg) hl rfl (.pushed msg hroom.1 hroom.2)
  · have hcancelled : s'.view c conn = { s.view c conn with cancelled := true } := by
      simp [Hub.view, hsh, hchan, htoken]
    rw [hcancelled]
    exact .other (e := .cancelled) hl rfl .cancelled

/-- The step lemma. -/
theorem hubStep_view (h : HubStep decode s l s') (hc : s.conns c = some conn) :
    ∃ w, s'.conns c = some w ∧ ViewStep decode c (s.view c conn) l (s'.view c w) := by
  have hrest : ∀ {u : Hub}, u.conns = s.conns → u.calls.shared = s.calls.shared →
      l.eventOf c = none →
      ∃ w, u.conns c = some w ∧ ViewStep decode c (s.view c conn) l (u.view c w) := by
    intro u hconns hsh hl
    exact ⟨conn, by rw [hconns, hc], .same hl (by simp [Hub.view, hsh])⟩
  cases h with
  | @accept d capacity window hnew =>
    have hcd : c ≠ d := by
      rintro rfl
      simp [hnew] at hc
    refine ⟨conn, ?_, .same rfl ?_⟩
    · simpa [Hub.calling, Hub.goto, Hub.put, hcd] using hc
    · simp [Hub.view, Hub.put, hcd]
  | conn hd he _ hstep => exact view_put hc hd (local_byOthers he) hstep rfl rfl rfl
  | writer hd he hstep => exact view_put hc hd (local_byOthers he) hstep rfl rfl rfl
  | frame rtt hd _ _ hstep =>
    exact view_put hc hd rfl hstep (handled_conns _ _) (by rw [handled_shared])
      (by rw [handled_shared])
  | closed hd _ hstep => exact view_put hc hd rfl hstep rfl rfl rfl
  | serve _ hx => exact view_exec hc hx rfl rfl rfl
  | exec _ _ hx => exact view_exec hc hx rfl rfl rfl
  | panic _ hx => exact view_exec hc hx rfl rfl rfl
  | start | call | work | finish | drop => exact hrest rfl rfl rfl

/-- A step of the tasks of `c` is one of an accepted connection, and nothing undoes that. -/
theorem conns_none (h : HubStep decode s l s') (hnone : s'.conns c = none) :
    s.conns c = none ∧ l.eventOf c = none := by
  have hold : s.conns c = none := by
    by_contra hsome
    obtain ⟨conn, hc⟩ := Option.ne_none_iff_exists'.mp hsome
    obtain ⟨w, hw, -⟩ := hubStep_view h hc
    simp [hnone] at hw
  refine ⟨hold, ?_⟩
  cases h with
  | @conn d _ _ _ hd | @writer d _ _ _ hd | @frame d _ _ _ _ _ hd | @closed d _ _ hd =>
    have hcd : d ≠ c := by
      rintro rfl
      simp [hold] at hd
    simp [HubLabel.eventOf, hcd]
  | _ => rfl

/-- An accepted connection is a new one. -/
theorem accept_view (h : HubStep decode s l s') (hnone : s.conns c = none)
    (hc : s'.conns c = some conn) : l.eventOf c = none ∧ (s'.view c conn).Fresh := by
  have hother : ∀ {d : ConnId} {w : Conn}, s.conns d = some w → c ≠ d := by
    rintro d w hd rfl
    simp [hnone] at hd
  cases h with
  | @accept d capacity window =>
    refine ⟨rfl, ?_⟩
    by_cases hcd : c = d
    · subst hcd
      obtain rfl : _ = conn := Option.some.inj (by simpa [Hub.calling, Hub.goto, Hub.put] using hc)
      simp [Hub.view, Hub.put, Conn.Fresh]
    · simp [Hub.calling, Hub.goto, Hub.put, hcd, hnone] at hc
  | @conn d _ w _ hd | @writer d _ w _ hd | @closed d _ w hd =>
    have hcd := hother hd
    simp [Hub.calling, Hub.goto, Hub.put, hcd, hnone] at hc
  | @frame d _ w _ _ _ hd =>
    have hcd := hother hd
    rw [handled_conns] at hc
    simp [Hub.put, hcd, hnone] at hc
  | _ => exact absurd hc (by simp [Hub.goto, Hub.setHandler, hnone])

/-- The account of a run for one connection: it has lived a run of its own, with the steps that
its tasks have taken and those of other tasks on it. -/
structure Hub.Lived (decode : Message → Option Req) (c : ConnId) (xs : List HubLabel) (s : Hub) :
    Prop where
  before : s.conns c = none → xs.filterMap (·.eventOf c) = []
  after : ∀ conn, s.conns c = some conn → ∃ u es, u.Fresh ∧
    (connSystem decode).Run u es (s.view c conn) ∧
      es.filter (fun e => !e.byOthers) = xs.filterMap (·.eventOf c)

theorem lived_step (hs : s.Lived decode c xs) (h : HubStep decode s l s') :
    s'.Lived decode c (xs ++ [l]) where
  before hnone := by
    obtain ⟨hold, hl⟩ := conns_none h hnone
    simp [hs.before hold, hl]
  after conn' hc' := by
    cases hc : s.conns c with
    | none =>
      obtain ⟨hl, hfresh⟩ := accept_view h hc hc'
      exact ⟨_, [], hfresh, .refl, by simp [hs.before hc, hl]⟩
    | some conn =>
      obtain ⟨u, es, hfresh, hrun, hes⟩ := hs.after conn hc
      obtain ⟨w, hw, hview⟩ := hubStep_view h hc
      obtain rfl : w = conn' := Option.some.inj (hw.symm.trans hc')
      cases hview with
      | same hl hv => exact ⟨u, es, hfresh, hv ▸ hrun, by simp [hes, hl]⟩
      | @own e hl he hstep => exact ⟨u, es ++ [e], hfresh, hrun.snoc hstep, by simp [hes, hl, he]⟩
      | @other e hl he hstep =>
        exact ⟨u, es ++ [e], hfresh, hrun.snoc hstep, by simp [hes, hl, he]⟩

/-- The run lemma: a hub is, to each of its connections, that connection alone. -/
theorem lived_run (h0 : s₀.Fresh) (hrun : (hubSystem decode).Run s₀ xs s) (c : ConnId) :
    s.Lived decode c xs := by
  refine hrun.history (H := fun ys u => u.Lived decode c ys) ⟨fun _ => rfl, fun conn hc => ?_⟩
    fun _ _ _ _ hstep hu => lived_step hu hstep
  simp [h0.2.1 c] at hc

theorem conn_reachable (h : (hubSystem decode).Reachable Hub.Fresh s)
    (hc : s.conns c = some conn) :
    (connSystem decode).Reachable Conn.Fresh (s.view c conn) := by
  obtain ⟨s₀, h0, xs, hrun⟩ := h
  obtain ⟨u, es, hfresh, hlife, -⟩ := (lived_run h0 hrun c).after conn hc
  exact ⟨u, hfresh, es, hlife⟩

end AxumSignal
