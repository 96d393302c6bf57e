import AxumSignal.Hub

/-! What one step of the hub can do to a serve task, to its calls and to the store. -/
namespace AxumSignal

open Transition Calls

variable {Req : Type} {decode : Message → Option Req} {s s' : Hub} {l : HubLabel}
  {c d : ConnId} {n : Nat} {conn conn' : Conn} {e : Event} {pc pc' : Pc} {sh sh' : Shared}
  {pos pos' : MainPos}

/-- The steps at which `serve_hub_with_clients` calls a hook or gets it back. -/
def ConnEvent.Hook : ConnEvent → Prop
  | .registered | .connected | .disconnected => True
  | _ => False

/-- The steps of a serve task, by what they do to its position. -/
inductive MainStep : MainPos → ConnEvent → MainPos → Prop where
  | registered : MainStep .registering .registered .onConnect
  | connected : MainStep .onConnect .connected (.reading .select)
  | reading {pos pos' : ReadPos} {e : ConnEvent} (he : ¬ e.Hook) :
      MainStep (.reading pos) e (.reading pos')
  | closed {reason : DisconnectReason} : MainStep (.reading (.done reason)) .closed .removing
  | removed : MainStep .removing .removed .awaitWriter
  | disconnected : MainStep .awaitWriter .disconnected .onDisconnect
  | finished : MainStep .onDisconnect .finished .ended
  | stays {pos : MainPos} {e : ConnEvent} (he : ¬ e.Hook) : MainStep pos e pos

theorem connStep_main {e : ConnEvent} (h : ConnStep decode conn e conn') :
    MainStep conn.main e conn'.main := by
  cases h with
  | registered hpos => rw [hpos]; exact .registered
  | connected hpos => rw [hpos]; exact .connected
  | closed hpos => rw [hpos]; exact .closed
  | removed hpos => rw [hpos]; exact .removed
  | disconnected hpos _ => rw [hpos]; exact .disconnected
  | finished hpos => rw [hpos]; exact .finished
  | frame _ hpos | streamClosed hpos | readError hpos | idle hpos | tick hpos | enqueued hpos
  | rejected hpos | observed hpos => rw [hpos]; exact .reading id
  | _ => exact .stays id

/-- A frame is read in the read loop only. -/
theorem frame_main {msg : Message} (h : ConnStep decode conn (.frame msg) conn') :
    ∃ pos pos', conn.main = .reading pos ∧ conn'.main = .reading pos' := by
  cases h with
  | frame _ hpos => exact ⟨_, _, hpos, rfl⟩

theorem closed_main (h : ConnStep decode conn .closed conn') :
    (∃ pos, conn.main = .reading pos) ∧ conn'.main = .removing := by
  cases h with
  | closed hpos => exact ⟨⟨_, hpos⟩, rfl⟩

namespace Hub

theorem main_of_conns (h : s.conns c = some conn) : s.main c = some conn.main := by
  simp [main, h]

@[simp] theorem main_view : (s.view c conn).main = conn.main := rfl

@[simp] theorem main_put : (s.put c conn).main c = some conn.main := by simp [main, put]

theorem main_put_ne (h : c ≠ d) : (s.put d conn).main c = s.main c := by simp [main, put, h]

theorem view_put_self : (s.put c conn).view c conn' =
    { conn' with chan := conn.chan, cancelled := conn.cancelled } := by
  simp [view, put]

theorem put_put : (s.put c conn).put c conn' = s.put c conn' := by simp [put]

@[simp] theorem pc_put : (s.put c conn).calls.pc = s.calls.pc := rfl

@[simp] theorem clients_put :
    (s.put c conn).calls.shared.clients = s.calls.shared.clients := rfl

@[simp] theorem main_goto (t : HubTask) : (s.goto t sh pc).main = s.main := rfl

@[simp] theorem main_calling (op : Op) : (s.calling d op).main = s.main := rfl

@[simp] theorem main_setHandler (p : HandlerPos) : (s.setHandler d n p).main = s.main := rfl

@[simp] theorem calls_setHandler (p : HandlerPos) : (s.setHandler d n p).calls = s.calls := rfl

@[simp] theorem calls_goto (t : HubTask) : (s.goto t sh pc).calls = s.calls.goto t sh pc := rfl

@[simp] theorem calls_calling (op : Op) :
    (s.calling d op).calls = s.calls.goto (.main d) s.calls.shared op.start := rfl

end Hub

/-- What a step does to the serve task of `c` and to its calls. -/
inductive ServeStep (c : ConnId) (s s' : Hub) (l : HubLabel) : Prop where
  | same (hl : ∀ e, l = .conn c e → ¬ e.Hook) (hmain : s'.main c = s.main c)
      (hpc : s'.calls.pc (.main c) = s.calls.pc (.main c))
  | accept (hl : l = .accept c) (hmain : s.main c = none)
      (hmain' : s'.main c = some .registering) (hpc' : s'.calls.pc (.main c) = .insert c c c c)
  | moves {pos pos' : MainPos} {e : ConnEvent} (hl : l = .conn c e) (he : e.Local)
      (hmain : s.main c = some pos) (hmain' : s'.main c = some pos') (hstep : MainStep pos e pos')
      (hpc : s.calls.pc (.main c) = .idle) (hpc' : s'.calls.pc (.main c) = .idle)
  | frame {pos pos' : ReadPos} {msg : Message} (hl : l = .conn c (.frame msg))
      (hmain : s.main c = some (.reading pos)) (hmain' : s'.main c = some (.reading pos'))
      (hpc : s.calls.pc (.main c) = .idle)
      (hpc' : s'.calls.pc (.main c) = .idle ∨ ∃ rtt, s'.calls.pc (.main c) = .lookupState c rtt)
  | closed {pos : ReadPos} (hl : l = .conn c .closed) (hmain : s.main c = some (.reading pos))
      (hmain' : s'.main c = some .removing) (hpc : s.calls.pc (.main c) = .idle)
      (hpc' : s'.calls.pc (.main c) = .cleanTake c (.removal c))
  | exec {e : Event} {sh : Shared} {pc : Pc} (hl : l = .store (.main c) e)
      (hmain : s'.main c = s.main c) (hx : Exec s.calls.shared (s.calls.pc (.main c)) e sh pc)
      (hcalls : s'.calls = s.calls.goto (.main c) sh pc)

theorem handled_calls (rtt : Option Nat) (a : FrameAction Req) :
    (s.handled c n rtt a).calls = s.calls ∨ ∃ r,
      (s.handled c n rtt a).calls = s.calls.goto (.main c) s.calls.shared (.lookupState c r) := by
  cases a with
  | recordRtt =>
    cases rtt with
    | none => exact Or.inl rfl
    | some rtt => exact Or.inr ⟨rtt, rfl⟩
  | _ => exact Or.inl rfl

theorem handled_main (rtt : Option Nat) (a : FrameAction Req) :
    (s.handled c n rtt a).main = s.main := by
  cases a with
  | recordRtt => cases rtt <;> rfl
  | _ => rfl

/-- A step of another task is none of `c`. -/
theorem ServeStep.other (hl : ∀ e, l ≠ .conn c e) (hmain : s'.main c = s.main c)
    (hpc : s'.calls.pc (.main c) = s.calls.pc (.main c)) : ServeStep c s s' l :=
  .same (fun e he => (hl e he).elim) hmain hpc

theorem hubStep_serve (h : HubStep decode s l s') (c : ConnId) : ServeStep c s s' l := by
  cases h with
  | @accept d capacity window hnew hidle =>
    by_cases hd : c = d
    · subst hd
      exact .accept rfl (by simp [Hub.main, hnew]) (by simp) (by simp [Op.start])
    · exact .other (by simp) (Hub.main_put_ne hd) (goto_pc_ne _ (by simpa using hd) _ _)
  | @conn d conn conn' e hc he hidle hstep =>
    by_cases hd : c = d
    · subst hd
      have hmove := connStep_main hstep
      exact .moves rfl he (Hub.main_of_conns hc) Hub.main_put hmove hidle hidle
    · exact .other (by simp [Ne.symm hd]) (Hub.main_put_ne hd) rfl
  | @writer d conn conn' e hc he hstep hmain =>
    by_cases hd : c = d
    · subst hd
      refine .same ?_ (by rw [Hub.main_put, hmain, Hub.main_of_conns hc]) rfl
      rintro _ ⟨⟩ hhook
      have hmove := connStep_main hstep
      rw [Hub.main_view, hmain] at hmove
      cases hm : conn.main with
      | _ => rw [hm] at hmove; cases hmove <;> contradiction
    · exact .other (by simp [Ne.symm hd]) (Hub.main_put_ne hd) rfl
  | @frame d conn conn' msg n rtt hc hidle hnew hstep =>
    by_cases hd : c = d
    · subst hd
      obtain ⟨pos, pos', hpos, hpos'⟩ := frame_main hstep
      refine .frame rfl (by rw [Hub.main_of_conns hc]; exact congrArg some hpos)
        (by rw [handled_main, Hub.main_put, hpos']) hidle ?_
      rcases handled_calls (s := s.put c conn') rtt (handleFrame decode msg) with h | ⟨r, h⟩
      · rw [h]; exact Or.inl hidle
      · rw [h]; exact Or.inr ⟨r, goto_pc _ _ _ _⟩
    · refine .other (by simp [Ne.symm hd]) (by rw [handled_main, Hub.main_put_ne hd]) ?_
      rcases handled_calls (s := s.put d conn') rtt (handleFrame decode msg) with h | ⟨r, h⟩
      · rw [h]; rfl
      · rw [h]; exact goto_pc_ne _ (by simpa using hd) _ _
  | @closed d conn conn' hc hidle hstep =>
    by_cases hd : c = d
    · subst hd
      obtain ⟨⟨pos, hpos⟩, hpos'⟩ := closed_main hstep
      exact .closed rfl (by rw [Hub.main_of_conns hc]; exact congrArg some hpos)
        (by rw [Hub.main_calling, Hub.main_put, hpos']) hidle (goto_pc _ _ _ _)
    · exact .other (by simp [Ne.symm hd]) (Hub.main_put_ne hd)
        (goto_pc_ne _ (by simpa using hd) _ _)
  | @serve d e sh pc hfree hx =>
    by_cases hd : c = d
    · subst hd
      exact .exec rfl rfl hx rfl
    · exact .other (by simp) rfl (goto_pc_ne _ (by simpa using hd) _ _)
  | start | work | finish => exact .other (by simp) rfl rfl
  | call | exec | panic | drop => exact .other (by simp) rfl (goto_pc_ne _ (by simp) _ _)

/-- The operations a task calls: its own three, or those of the context of a handler. -/
def HubTask.Runs : HubTask → Op → Prop
  | .main c, op => op = .add c c c c ∨ op = .remove c ∨ ∃ rtt, op = .updateRtt c rtt
  | .handler _ _, op => op.InContext

/-- What a step does to the store and to the calls of all tasks. -/
inductive StoreStep (s s' : Hub) (l : HubLabel) : Prop where
  | still (hl : ∀ t e, l ≠ .store t e)
      (hclients : s'.calls.shared.clients = s.calls.shared.clients)
      (hpc : s'.calls.pc = s.calls.pc)
  | start {t : HubTask} {op : Op} (hl : ∀ t e, l ≠ .store t e)
      (hclients : s'.calls.shared.clients = s.calls.shared.clients)
      (hidle : s.calls.pc t = .idle) (hop : t.Runs op)
      (hpc : s'.calls.pc = Function.update s.calls.pc t op.start)
  | drop {t : HubTask} (hl : ∀ t e, l ≠ .store t e)
      (hclients : s'.calls.shared.clients = s.calls.shared.clients)
      (hwait : s.calls.pc t = .idle ∨ ∃ r, s.calls.pc t = .wait r)
      (hpc : s'.calls.pc = Function.update s.calls.pc t .idle)
  | exec {t : HubTask} {e : Event} {sh : Shared} {pc : Pc} (hl : l = .store t e)
      (hx : Exec s.calls.shared (s.calls.pc t) e sh pc) (hcalls : s'.calls = s.calls.goto t sh pc)

/-- Only the accesses of calls change the store. -/
theorem StoreStep.clients (h : StoreStep s s' l) :
    s'.calls.shared.clients = s.calls.shared.clients ∨
      ∃ t e sh pc, l = .store t e ∧ Exec s.calls.shared (s.calls.pc t) e sh pc ∧
        s'.calls = s.calls.goto t sh pc := by
  cases h with
  | still _ hclients _ => exact Or.inl hclients
  | start _ hclients _ _ _ => exact Or.inl hclients
  | drop _ hclients _ _ => exact Or.inl hclients
  | exec hl hx hcalls => exact Or.inr ⟨_, _, _, _, hl, hx, hcalls⟩

theorem hubStep_store (h : HubStep decode s l s') : StoreStep s s' l := by
  cases h with
  | accept _ _ _ hidle => exact .start (by simp) rfl hidle (Or.inl rfl) rfl
  | conn | writer | start | work | finish => exact .still (by simp) rfl rfl
  | @frame d conn conn' msg n rtt hc hidle hnew hstep =>
    rcases handled_calls (s := s.put d conn') rtt (handleFrame decode msg) with h | ⟨r, h⟩
    · exact .still (by simp) (by rw [h]; rfl) (by rw [h]; rfl)
    · have hop : HubTask.Runs (.main d) (.updateRtt d r) := Or.inr (Or.inr ⟨r, rfl⟩)
      exact .start (by simp) (by rw [h]; rfl) hidle hop (by rw [h]; rfl)
  | closed hc hidle hstep => exact .start (by simp) rfl hidle (Or.inr (Or.inl rfl)) rfl
  | serve hfree hx => exact .exec rfl hx rfl
  | call op hpos hidle hop => exact .start (by simp) rfl hidle hop rfl
  | exec hpos hfree hx he => exact .exec rfl hx rfl
  | panic hpos hx => exact .exec rfl hx rfl
  | drop hcancel hpos hpc => exact .drop (by simp) rfl hpc rfl

/-- `on_disconnect` is the end of a connection. -/
theorem left_stays (hleft : s.Left c) (h : HubStep decode s l s') : s'.Left c := by
  obtain ⟨pos, hpos, hd⟩ := hleft
  cases hubStep_serve h c with
  | same _ hmain _ => exact ⟨pos, hmain ▸ hpos, hd⟩
  | exec _ hmain _ _ => exact ⟨pos, hmain ▸ hpos, hd⟩
  | accept _ hmain _ _ => simp [hmain] at hpos
  | @frame p _ _ _ hmain _ _ _ =>
    obtain rfl : MainPos.reading p = pos := by simpa [hmain] using hpos
    exact hd.elim
  | @closed p _ hmain _ _ _ =>
    obtain rfl : MainPos.reading p = pos := by simpa [hmain] using hpos
    exact hd.elim
  | @moves p _ _ _ _ hmain hmain' hstep _ _ =>
    obtain rfl : p = pos := by simpa [hmain] using hpos
    refine ⟨_, hmain', ?_⟩
    cases hstep with
    | finished => trivial
    | stays => exact hd
    | _ => exact hd.elim

/-- An access of a running handler whose program counter is known. -/
theorem HubStep.at (hpos : s.handlers c n = some .running)
    (hpc : s.calls.pc (.handler c n) = pc) (hfree : s.calls.Granted (.handler c n))
    (hx : Exec s.calls.shared pc e sh pc') (he : e ≠ .panic) :
    HubStep decode s (.store (.handler c n) e) (s.goto (.handler c n) sh pc') :=
  .exec hpos hfree (hpc ▸ hx) he

end AxumSignal
