import AxumSignal.Connections
import AxumSignal.Presence

/-! `serve_hub`: one store for each hub type, made for the first connection that asks for it,
and the connections of all hub types beside each other. -/
namespace AxumSignal

open Transition Calls LTS

variable {HubType Concrete : Type}

/-- A value of the registry: a store, with all that runs on it, boxed under its concrete type. -/
structure Boxed (Concrete : Type) where
  type : Concrete
  hub : Hub

/-- `CLIENT_REGISTRY`, keyed by the type of the hub. -/
abbrev ClientRegistry (HubType Concrete : Type) := HubType → Option (Boxed Concrete)

/-- `InMemoryWsClients::new`, with nothing using the store yet. -/
structure Hub.New (config : WsHubConfig) (s : Hub) : Prop where
  fresh : s.Fresh
  policy : s.calls.shared.clients.policy = config.policy

/-- What a hub type stands for: the type of its store, and the decoder of its messages. -/
structure HubTypes (HubType Concrete : Type) where
  Req : HubType → Type
  concrete : HubType → Concrete
  decode : ∀ h, Message → Option (Req h)

inductive ServerLabel (HubType : Type) where
  | serve (h : HubType) (config : WsHubConfig) (c : ConnId)
  | dropped (h : HubType) (config : WsHubConfig)
  | step (h : HubType) (l : HubLabel)

variable [DecidableEq HubType] [DecidableEq Concrete]

def Boxed.downcastRef (b : Boxed Concrete) (want : Concrete) : Option Hub :=
  if b.type = want then some b.hub else none

/-- The registry once the entry of `h` is there. -/
def ClientRegistry.orInsert (r : ClientRegistry HubType Concrete) (h : HubType)
    (new : Boxed Concrete) : ClientRegistry HubType Concrete :=
  Function.update r h (some ((r h).getD new))

/-- `get_clients`, where `new` is the store that it makes if there is none. -/
def getClients (ts : HubTypes HubType Concrete) (r : ClientRegistry HubType Concrete) (h : HubType)
    (new : Hub) : ClientRegistry HubType Concrete × Option Hub :=
  let r' := r.orInsert h ⟨ts.concrete h, new⟩
  (r', (r' h).bind fun b => b.downcastRef (ts.concrete h))

/-- A step of the server: a call of `serve_hub`, up to its `add`, or a step on the store of one
hub type. -/
inductive ServerStep (ts : HubTypes HubType Concrete) :
    ClientRegistry HubType Concrete → ServerLabel HubType →
      ClientRegistry HubType Concrete → Prop where
  | serve {r : ClientRegistry HubType Concrete} {h : HubType} {config : WsHubConfig} {c : ConnId}
      {new hub hub' : Hub} (hnew : new.New config) (hfound : (getClients ts r h new).2 = some hub)
      (haccept : HubStep (ts.decode h) hub (.accept c) hub')
      (hcap : (hub'.calls.shared.chans c).capacity = config.unicastChannelCapacity) :
      ServerStep ts r (.serve h config c)
        (Function.update (getClients ts r h new).1 h (some ⟨ts.concrete h, hub'⟩))
  | dropped {r : ClientRegistry HubType Concrete} {h : HubType} {config : WsHubConfig} {new : Hub}
      (hnew : new.New config) (hnone : (getClients ts r h new).2 = none) :
      ServerStep ts r (.dropped h config) (getClients ts r h new).1
  | step {r : ClientRegistry HubType Concrete} {h : HubType} {l : HubLabel} {b : Boxed Concrete}
      {hub' : Hub} (hin : r h = some b) (hl : ∀ c, l ≠ .accept c)
      (hstep : HubStep (ts.decode h) b.hub l hub') :
      ServerStep ts r (.step h l) (Function.update r h (some { b with hub := hub' }))

/-- The system of a server. -/
def serverSystem (ts : HubTypes HubType Concrete) :
    LTS (ClientRegistry HubType Concrete) (ServerLabel HubType) := ⟨ServerStep ts⟩

/-- The step as one of the connections of this hub type. -/
def ServerLabel.on (h : HubType) : ServerLabel HubType → Option HubLabel
  | .serve k _ c => if k = h then some (.accept c) else none
  | .step k l => if k = h then some l else none
  | .dropped _ _ => none

def ServerLabel.config (h : HubType) : ServerLabel HubType → Option WsHubConfig
  | .serve k config _ | .dropped k config => if k = h then some config else none
  | .step _ _ => none

/-- The config of the first call of `serve_hub` for this hub type. -/
def firstConfig (h : HubType) (xs : List (ServerLabel HubType)) : Option WsHubConfig :=
  (xs.filterMap (ServerLabel.config h)).head?

variable {ts : HubTypes HubType Concrete} {r r' : ClientRegistry HubType Concrete} {h k : HubType}
  {l : ServerLabel HubType} {xs : List (ServerLabel HubType)} {config : WsHubConfig}
  {b : Boxed Concrete} {new hub : Hub} {c : ConnId} {Req : Type} {decode : Message → Option Req}

theorem firstConfig_snoc : firstConfig h (xs ++ [l]) = (firstConfig h xs).or (l.config h) := by
  cases hl : l.config h <;> simp [firstConfig, hl]

theorem on_snoc : (xs ++ [l]).filterMap (ServerLabel.on h) =
    xs.filterMap (ServerLabel.on h) ++ (l.on h).toList := by
  cases hl : l.on h <;> simp [hl]

/-- The entry of a hub type is boxed under the type of its store. -/
def ClientRegistry.Typed (ts : HubTypes HubType Concrete) (r : ClientRegistry HubType Concrete) :
    Prop :=
  ∀ h b, r h = some b → b.type = ts.concrete h

theorem getClients_none (h0 : r h = none) : (getClients ts r h new).2 = some new := by
  simp [getClients, ClientRegistry.orInsert, h0, Boxed.downcastRef]

theorem getClients_some (hin : r h = some b) (ht : b.type = ts.concrete h) :
    (getClients ts r h new).2 = some b.hub := by
  simp [getClients, ClientRegistry.orInsert, hin, Boxed.downcastRef, ht]

/-- The downcast never fails. -/
theorem getClients_ne_none (ht : r.Typed ts) : (getClients ts r h new).2 ≠ none := by
  cases hin : r h with
  | none => simp [getClients_none hin]
  | some b => simp [getClients_some hin (ht h b hin)]

theorem getClients_other (hne : k ≠ h) : (getClients ts r h new).1 k = r k := by
  simp [getClients, ClientRegistry.orInsert, hne]

/-- What the run of a server has been for one hub type. -/
inductive ServedAs (ts : HubTypes HubType Concrete) (h : HubType)
    (xs : List (ServerLabel HubType)) : Option (Boxed Concrete) → Prop where
  | unused (hfirst : firstConfig h xs = none) (hxs : xs.filterMap (ServerLabel.on h) = []) :
      ServedAs ts h xs none
  | used {b : Boxed Concrete} {config : WsHubConfig} {s₀ : Hub} (htype : b.type = ts.concrete h)
      (hfirst : firstConfig h xs = some config) (hnew : s₀.New config)
      (hrun : (hubSystem (ts.decode h)).Run s₀ (xs.filterMap (ServerLabel.on h)) b.hub) :
      ServedAs ts h xs (some b)

omit [DecidableEq Concrete] in
theorem ServedAs.other {o : Option (Boxed Concrete)} (hs : ServedAs ts h xs o)
    (hconfig : l.config h = none) (hon : l.on h = none) : ServedAs ts h (xs ++ [l]) o := by
  have hfirst : firstConfig h (xs ++ [l]) = firstConfig h xs := by simp [firstConfig_snoc, hconfig]
  have hlabels : (xs ++ [l]).filterMap (ServerLabel.on h) = xs.filterMap (ServerLabel.on h) := by
    simp [hon]
  cases hs with
  | unused h1 h2 => exact .unused (hfirst.trans h1) (hlabels.trans h2)
  | used htype h1 hnew hrun => exact .used htype (hfirst.trans h1) hnew (hlabels ▸ hrun)

/-- A connection of this hub type is added. -/
theorem ServedAs.serve {o : Option (Boxed Concrete)} {hub' : Hub} (hs : ServedAs ts h xs o)
    (ho : o = r h) (hnew : new.New config) (hfound : (getClients ts r h new).2 = some hub)
    (haccept : HubStep (ts.decode h) hub (.accept c) hub') :
    ServedAs ts h (xs ++ [.serve h config c]) (some ⟨ts.concrete h, hub'⟩) := by
  have hon : (ServerLabel.serve h config c).on h = some (.accept c) := by simp [ServerLabel.on]
  cases hs with
  | unused h1 h2 =>
    obtain rfl : new = hub := by simpa [getClients_none ho.symm] using hfound
    refine .used rfl (by simp [firstConfig_snoc, h1, ServerLabel.config]) hnew ?_
    rw [on_snoc, h2, hon]
    exact .single haccept
  | used htype h1 hnew₀ hrun =>
    obtain rfl : _ = hub := by simpa [getClients_some ho.symm htype] using hfound
    refine .used rfl (by simp [firstConfig_snoc, h1]) hnew₀ ?_
    rw [on_snoc, hon]
    exact hrun.snoc haccept

omit [DecidableEq Concrete] in
theorem ServedAs.typed (hs : ∀ h, ServedAs ts h xs (r h)) : r.Typed ts := by
  intro h b hin
  have hb := hs h
  rw [hin] at hb
  cases hb with
  | used htype => exact htype

theorem servedAs_step (hs : ∀ h, ServedAs ts h xs (r h)) (hstep : ServerStep ts r l r')
    (k : HubType) : ServedAs ts k (xs ++ [l]) (r' k) := by
  cases hstep with
  | @serve h config c new hub hub' hnew hfound haccept =>
    by_cases hk : k = h
    · subst hk
      rw [Function.update_self]
      exact (hs k).serve rfl hnew hfound haccept
    · rw [Function.update_of_ne hk, getClients_other hk]
      exact (hs k).other (by simp [ServerLabel.config, Ne.symm hk])
        (by simp [ServerLabel.on, Ne.symm hk])
  | dropped hnew hnone => exact (getClients_ne_none (ServedAs.typed hs) hnone).elim
  | @step h hl b hub' hin _ hstep =>
    by_cases hk : k = h
    · subst hk
      rw [Function.update_self]
      have hb := hs k
      rw [hin] at hb
      cases hb with
      | used htype hfirst hnew hrun =>
        refine .used htype (by simp [firstConfig_snoc, hfirst]) hnew ?_
        rw [on_snoc]
        simpa [ServerLabel.on] using hrun.snoc hstep
    · rw [Function.update_of_ne hk]
      exact (hs k).other rfl (by simp [ServerLabel.on, Ne.symm hk])

/-- No step of a connection changes the capacity of its queue. -/
theorem connStep_capacity {v w : Conn} {e : ConnEvent} (h : ConnStep decode v e w) :
    w.chan.capacity = v.chan.capacity := by
  cases h <;> rfl

/-- A connection with a queue of this capacity. -/
def Hub.Accepted (s : Hub) (c : ConnId) (n : Nat) : Prop :=
  ∃ conn, s.conns c = some conn ∧ (s.view c conn).chan.capacity = n

theorem accepted_step {s s' : Hub} {l : HubLabel} {n : Nat} (hs : s.Accepted c n)
    (hstep : HubStep decode s l s') : s'.Accepted c n := by
  obtain ⟨conn, hc, hcap⟩ := hs
  obtain ⟨w, hw, hview⟩ := hubStep_view hstep hc
  refine ⟨w, hw, ?_⟩
  cases hview with
  | same _ hv => rw [hv, hcap]
  | own _ _ hconn | other _ _ hconn => exact (connStep_capacity hconn).trans hcap

theorem accepted_accept {s s' : Hub} (hstep : HubStep decode s (.accept c) s') :
    s'.Accepted c (s'.calls.shared.chans c).capacity := by
  cases hstep with
  | accept => exact ⟨_, Function.update_self .., rfl⟩

/-- What every run of a server keeps. -/
structure Serves (ts : HubTypes HubType Concrete) (xs : List (ServerLabel HubType))
    (r : ClientRegistry HubType Concrete) : Prop where
  alone : ∀ h, ServedAs ts h xs (r h)
  kept : ∀ h config, .dropped h config ∉ xs
  accepted : ∀ h config c, .serve h config c ∈ xs → ∃ b, r h = some b ∧
    b.hub.Accepted c config.unicastChannelCapacity

theorem serves_kept (hs : Serves ts xs r) (hstep : ServerStep ts r l r') (k : HubType)
    (config : WsHubConfig) : .dropped k config ∉ xs ++ [l] := by
  intro hin
  rcases List.mem_append.mp hin with hin | hin
  · exact hs.kept k config hin
  · obtain rfl := (List.mem_singleton.mp hin).symm
    cases hstep with
    | dropped _ hnone => exact getClients_ne_none (ServedAs.typed hs.alone) hnone

theorem serves_accepted (hs : Serves ts xs r) (hstep : ServerStep ts r l r') (k : HubType)
    (config : WsHubConfig) (c : ConnId) (hin : .serve k config c ∈ xs ++ [l]) :
    ∃ b, r' k = some b ∧ b.hub.Accepted c config.unicastChannelCapacity := by
  have htyped := ServedAs.typed hs.alone
  rcases List.mem_append.mp hin with hin | hin
  · obtain ⟨b, hb, hq⟩ := hs.accepted k config c hin
    cases hstep with
    | @serve h _ d new hub hub' _ hfound haccept =>
      by_cases hk : k = h
      · subst hk
        obtain rfl : b.hub = hub := by simpa [getClients_some hb (htyped k b hb)] using hfound
        exact ⟨_, Function.update_self .., accepted_step hq haccept⟩
      · exact ⟨b, by rw [Function.update_of_ne hk, getClients_other hk, hb], hq⟩
    | dropped _ hnone => exact (getClients_ne_none htyped hnone).elim
    | @step h _ b' hub' hin' _ hstep =>
      by_cases hk : k = h
      · subst hk
        obtain rfl : b = b' := Option.some.inj (hb.symm.trans hin')
        exact ⟨_, Function.update_self .., accepted_step hq hstep⟩
      · exact ⟨b, by rw [Function.update_of_ne hk, hb], hq⟩
  · obtain rfl := (List.mem_singleton.mp hin).symm
    cases hstep with
    | serve _ _ haccept hcap =>
      exact ⟨_, Function.update_self .., hcap ▸ accepted_accept haccept⟩

theorem serves_step (hs : Serves ts xs r) (hstep : ServerStep ts r l r') :
    Serves ts (xs ++ [l]) r' :=
  ⟨servedAs_step hs.alone hstep, serves_kept hs hstep, serves_accepted hs hstep⟩

theorem serves_run (hrun : (serverSystem ts).Run (fun _ => none) xs r) : Serves ts xs r :=
  hrun.history (H := fun ys u => Serves ts ys u)
    ⟨fun _ => .unused rfl rfl, by simp, by simp⟩ fun _ _ _ _ hstep hs => serves_step hs hstep

/-- No call of `serve_hub` ever fails to find its store, and each hub type is served as if it
were alone: by a run on one store, which has the policy of the first config it was served with. -/
theorem hub_type_alone (hrun : (serverSystem ts).Run (fun _ => none) xs r) (hin : r h = some b) :
    (∀ config, .dropped h config ∉ xs) ∧ ∃ config s₀, firstConfig h xs = some config ∧
      s₀.New config ∧
      (hubSystem (ts.decode h)).Run s₀ (xs.filterMap (ServerLabel.on h)) b.hub ∧
      b.hub.calls.shared.clients.policy = config.policy := by
  have hs := serves_run hrun
  refine ⟨hs.kept h, ?_⟩
  have hb := hs.alone h
  rw [hin] at hb
  cases hb with
  | @used _ config s₀ htype hfirst hnew hrun =>
    refine ⟨config, s₀, hfirst, hnew, hrun, ?_⟩
    have hkeeps : (hubSystem (ts.decode h)).Preserves
        fun s => s.calls.shared.clients.policy = config.policy :=
      fun _ _ _ hstep hp => (hub_policy hstep).trans hp
    exact Run.invariant (I := fun s => s.calls.shared.clients.policy = config.policy) hkeeps hrun
      hnew.policy

/-- A config with a policy and a capacity of its own. -/
def tightConfig : WsHubConfig :=
  { WsHubConfig.default with policy := .dropMessage second, unicastChannelCapacity := 5 }

/-- A server with one hub type, and two connections that bring different configs. -/
theorem two_configs : ∃ ts : HubTypes Unit Unit, ∃ r b, r () = some b ∧
    (serverSystem ts).Run (fun _ => none) [.serve () .default "c", .serve () tightConfig "d"] r :=
  ⟨⟨fun _ => Unit, fun _ => (), fun _ _ => none⟩, _, _, rfl,
    .step (.serve ⟨hub_start_fresh .block, rfl⟩ rfl (.accept 32 0 rfl rfl) rfl) <|
    .single (.serve ⟨hub_start_fresh (.dropMessage second), rfl⟩ rfl (.accept 5 0 rfl rfl) rfl)⟩

/-- The store keeps the policy of the first config. -/
theorem first_policy_stays : ∃ (ts : HubTypes Unit Unit) (r : ClientRegistry Unit Unit)
    (b : Boxed Unit), (serverSystem ts).Run (fun _ => none)
      [.serve () .default "c", .serve () tightConfig "d"] r ∧ r () = some b ∧
      b.hub.calls.shared.clients.policy = .block := by
  obtain ⟨ts, r, b, hin, hrun⟩ := two_configs
  obtain ⟨-, config, -, hfirst, -, -, hpolicy⟩ := hub_type_alone hrun hin
  obtain rfl : WsHubConfig.default = config := by
    simpa [firstConfig, ServerLabel.config] using hfirst
  exact ⟨ts, r, b, hrun, hin, hpolicy⟩

end AxumSignal
