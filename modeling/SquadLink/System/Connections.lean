import SquadLink.Client.Reactions

/-! Which client is behind which socket. A client keeps its configuration, opens a socket with the Join of
    that configuration, and is on at most the socket it opened last; so the room and user a socket acts as
    are those of the client that opened it. -/

namespace SquadLink

namespace Sys

/-- The configuration of the client that opened `s`. -/
def cfgOf (σ : Sys) (s : SocketId) : Option EngineConfig := (σ.engines (σ.owner s)).map (·.cfg)

/-- What holds in every state of a run between the server, its sockets and the clients. -/
structure WF (cfg : SysConfig) (σ : Sys) : Prop where
  server : Server.Inv cfg.server σ.server
  unopened : ∀ s, σ.server.nextSocket ≤ s → σ.wire s = [] ∧ σ.inbox s = []
  unstarted : ∀ c, σ.nextClient ≤ c → σ.engines c = none
  owned : ∀ s, s < σ.server.nextSocket → (σ.engines (σ.owner s)).isSome
  cur : ∀ c e s, σ.engines c = some e → e.cur = some s → s < σ.server.nextSocket ∧ σ.owner s = c
  inbox : ∀ s, σ.inbox s ≠ [] → ∃ e, σ.engines (σ.owner s) = some e ∧ e.cur = some s
  joins : ∀ s room userId name token, .join room userId name token ∈ σ.wire s →
    ∃ ecfg, σ.cfgOf s = some ecfg ∧ ecfg.room = room ∧ ecfg.userId = userId
  out : ∀ c e msg, σ.engines c = some e → msg ∈ e.mesh.out → msg.dest.isSome
  mesh : ∀ c e, σ.engines c = some e → e.mesh.owner = c ∧ e.mesh.myId = e.cfg.userId
  ident : ∀ s room userId, σ.server.ident s = some (room, userId) →
    ∃ ecfg, σ.cfgOf s = some ecfg ∧ ecfg.room = room ∧ ecfg.userId = userId

/-- What every step keeps: the clients with their configurations, and who opened a socket. -/
structure Kept (σ σ' : Sys) : Prop where
  sockets : σ.server.nextSocket ≤ σ'.server.nextSocket
  owner : ∀ s, s < σ.server.nextSocket → σ'.owner s = σ.owner s
  engine : ∀ c e, σ.engines c = some e → ∃ e', σ'.engines c = some e' ∧ e'.cfg = e.cfg

section
variable {cfg : SysConfig} {σ σ' : Sys} {a : Act}

theorem Kept.trans {σ'' : Sys} (h : Kept σ σ') (h' : Kept σ' σ'') : Kept σ σ'' where
  sockets := h.sockets.trans h'.sockets
  owner s hs := (h'.owner s (hs.trans_le h.sockets)).trans (h.owner s hs)
  engine c e he := by
    obtain ⟨e', he', hc⟩ := h.engine c e he
    obtain ⟨e'', he'', hc'⟩ := h'.engine c e' he'
    exact ⟨e'', he'', hc'.trans hc⟩

theorem Kept.cfgOf (h : Kept σ σ') {s : SocketId} {ecfg : EngineConfig} (hs : s < σ.server.nextSocket)
    (hc : σ.cfgOf s = some ecfg) : σ'.cfgOf s = some ecfg := by
  unfold Sys.cfgOf at hc ⊢
  rw [h.owner s hs]
  obtain ⟨e, he, rfl⟩ := Option.map_eq_some_iff.mp hc
  obtain ⟨e', he', hcfg⟩ := h.engine _ e he
  rw [he', Option.map_some, hcfg]

/-- The engine of one client is exchanged for one with the same configuration. -/
theorem Kept.of_setEngine {c : ClientId} {e : Engine} (e' : Engine) (he : σ.engines c = some e) (hcfg : e'.cfg = e.cfg)
    (hn : σ'.server.nextSocket = σ.server.nextSocket) (ho : σ'.owner = σ.owner)
    (hE : σ'.engines = Function.update σ.engines c (some e')) : Kept σ σ' where
  sockets := hn.ge
  owner s _ := by rw [ho]
  engine d e₀ hd := by
    rw [hE]
    by_cases h : d = c
    · subst h
      rw [he] at hd
      cases hd
      exact ⟨e', by simp, hcfg⟩
    · exact ⟨e₀, by simp [h, hd], rfl⟩

theorem Kept.of_engines (hn : σ.server.nextSocket ≤ σ'.server.nextSocket) (ho : σ'.owner = σ.owner)
    (hE : σ'.engines = σ.engines) : Kept σ σ' :=
  ⟨hn, fun _ _ => by rw [ho], fun c e he => ⟨e, by rw [hE]; exact he, rfl⟩⟩

@[simp] theorem setEngine_server (c : ClientId) (e : Engine) : (σ.setEngine c e).server = σ.server := rfl

@[simp] theorem setEngine_wire (c : ClientId) (e : Engine) : (σ.setEngine c e).wire = σ.wire := rfl

@[simp] theorem setEngine_inbox (c : ClientId) (e : Engine) : (σ.setEngine c e).inbox = σ.inbox := rfl

@[simp] theorem setEngine_owner (c : ClientId) (e : Engine) : (σ.setEngine c e).owner = σ.owner := rfl

@[simp] theorem setEngine_nextClient (c : ClientId) (e : Engine) : (σ.setEngine c e).nextClient = σ.nextClient := rfl

@[simp] theorem setEngine_engines (c : ClientId) (e : Engine) :
    (σ.setEngine c e).engines = Function.update σ.engines c (some e) := rfl

@[simp] theorem transmit_server (cur : Option SocketId) (msgs : List ClientMsg) :
    (σ.transmit cur msgs).server = σ.server := by
  cases cur <;> rfl

@[simp] theorem transmit_owner (cur : Option SocketId) (msgs : List ClientMsg) : (σ.transmit cur msgs).owner = σ.owner := by
  cases cur <;> rfl

@[simp] theorem transmit_inbox (cur : Option SocketId) (msgs : List ClientMsg) : (σ.transmit cur msgs).inbox = σ.inbox := by
  cases cur <;> rfl

@[simp] theorem transmit_engines (cur : Option SocketId) (msgs : List ClientMsg) :
    (σ.transmit cur msgs).engines = σ.engines := by
  cases cur <;> rfl

@[simp] theorem transmit_nextClient (cur : Option SocketId) (msgs : List ClientMsg) :
    (σ.transmit cur msgs).nextClient = σ.nextClient := by
  cases cur <;> rfl

theorem transmit_wire (cur : Option SocketId) (msgs : List ClientMsg) (s : SocketId) :
    (σ.transmit cur msgs).wire s = if cur = some s then σ.wire s ++ msgs else σ.wire s := by
  cases cur with
  | none => simp [transmit]
  | some t =>
    by_cases h : s = t
    · subst h; simp [transmit]
    · simp [transmit, h, Ne.symm h]

theorem accept_eq {srv : Server} (hs : σ.server.step cfg.server .accept = some srv) :
    srv = { σ.server with
      conns := Function.update σ.server.conns σ.server.nextSocket (some {})
      nextSocket := σ.server.nextSocket + 1 } := (Option.some.inj hs).symm

theorem step_kept (wf : WF cfg σ) (h : step cfg σ a = some σ') : Kept σ σ' := by
  cases a with
  | recv s =>
    obtain ⟨_, _, srv, -, hs, rfl⟩ := step_recv_inv h
    exact .of_engines (Server.step_nextSocket hs (by simp)).ge rfl rfl
  | write s =>
    obtain ⟨_, _, _, srv, -, -, hs, rfl⟩ := step_write_inv h
    exact .of_engines (Server.step_nextSocket hs (by simp)).ge rfl rfl
  | server b =>
    obtain ⟨hi, srv, hs, rfl⟩ := step_server_inv h
    exact .of_engines (Server.step_nextSocket hs (by rintro rfl; cases hi)).ge rfl rfl
  | start ecfg =>
    obtain ⟨srv, hs, rfl⟩ := step_start_inv h
    cases accept_eq hs
    refine ⟨Nat.le_succ _, fun s hs => ?_, fun c e he => ⟨e, ?_, rfl⟩⟩
    · simp [started, dialed, Nat.ne_of_lt hs]
    · have hne : c ≠ σ.nextClient := fun hc => by
        rw [wf.unstarted c hc.ge] at he
        cases he
      simp [started, hne, he]
  | handle c w =>
    obtain ⟨e, s, msg, rest, he, -, -, -, rfl⟩ := step_handle_inv h
    exact .of_setEngine _ he (Engine.handle_cfg msg) rfl rfl rfl
  | lost c =>
    obtain ⟨e, s, he, -, -, -, rfl⟩ := step_lost_inv h
    exact .of_setEngine e.lost he rfl rfl rfl rfl
  | uplink c =>
    obtain ⟨e, msg, rest, he, -, -, rfl⟩ := step_uplink_inv h
    exact .of_setEngine { e with mesh := { e.mesh with out := rest } } he rfl (by simp) (by simp) (by simp)
  | reconnect c =>
    obtain ⟨e, srv, he, -, -, hs, rfl⟩ := step_reconnect_inv h
    cases accept_eq hs
    have engine : Kept σ (σ.setEngine c (e.reconnected σ.server.nextSocket)) :=
      .of_setEngine (e.reconnected σ.server.nextSocket) he rfl rfl rfl rfl
    refine engine.trans ⟨Nat.le_succ _, fun s hs => ?_, fun d e' hd => ⟨e', hd, rfl⟩⟩
    exact Function.update_of_ne (Nat.ne_of_lt hs) ..
  | event c ev =>
    obtain ⟨e, e', msgs, he, -, hev, rfl⟩ := step_event_inv h
    exact .of_setEngine e' he (Engine.onEvent_spec hev).1 (by simp) (by simp) (by simp)

theorem WF.unopened_of_mem (wf : WF cfg σ) {s : SocketId} {msg : ClientMsg} (h : msg ∈ σ.wire s) :
    s < σ.server.nextSocket := by
  by_contra hn
  rw [(wf.unopened s (Nat.le_of_not_lt hn)).1] at h
  cases h

/-- A socket that acts as somebody has been opened. -/
theorem WF.opened_of_ident (wf : WF cfg σ) {s : SocketId} {p : String × String} (h : σ.server.ident s = some p) :
    s < σ.server.nextSocket := by
  by_contra hn
  have := wf.server.fresh s (Nat.le_of_not_lt hn)
  simp [Server.ident, this] at h

/-- A step of the server that takes no message from outside the wires. -/
theorem wf_of_server (wf : WF cfg σ) {b : SAct} (hb : b ≠ .accept) (hs : σ.server.step cfg.server b = some σ'.server)
    (joins : ∀ s room userId name token, b = .frame s (.text (.join room userId name token)) →
      .join room userId name token ∈ σ.wire s)
    (ho : σ'.owner = σ.owner) (hE : σ'.engines = σ.engines) (hn : σ'.nextClient = σ.nextClient)
    (hw : ∀ s, ∀ msg ∈ σ'.wire s, msg ∈ σ.wire s) (hi : ∀ s, σ'.inbox s ≠ [] → σ.inbox s ≠ [] ∨ σ.attached s = true) :
    WF cfg σ' := by
  have next := Server.step_nextSocket hs hb
  have keeps : ∀ s, σ'.cfgOf s = σ.cfgOf s := fun s => by simp only [cfgOf, ho, hE]
  obtain ⟨evs, -, change⟩ := Server.step_change (wf.server.fresh _ (Nat.le_refl _)) hs
  have idents : ∀ s room userId, σ'.server.ident s = some (room, userId) → σ.server.ident s = some (room, userId) ∨
      ∃ name token, .join room userId name token ∈ σ.wire s := by
    intro s room userId h
    cases change with
    | same handles idents placed => exact Or.inl (idents s ▸ h)
    | admitted t room' userId' name token rest act admits events handles idents placed =>
      rw [idents] at h
      split at h
      · rename_i ht
        cases h
        subst ht
        exact Or.inr ⟨name, token, joins s _ _ _ _ act⟩
      · exact Or.inl h
    | left t room' userId' identity act handles idents ended placed =>
      rw [idents] at h
      split at h
      · cases h
      · exact Or.inl h
    | restarted act handles ended events => exact absurd (Server.isOpen_of_ident h) (ended s)
  refine ⟨Server.inv_step wf.server hs, fun s hle => ?_, fun c hle => ?_, fun s hlt => ?_, fun c e s he hc => ?_,
    fun s hne => ?_, fun s room userId name token hm => ?_, fun c e msg he hm => ?_, fun c e he => ?_,
    fun s room userId h => ?_⟩
  · obtain ⟨hw₀, hi₀⟩ := wf.unopened s (next ▸ hle)
    refine ⟨List.eq_nil_iff_forall_not_mem.mpr fun msg hm => ?_, ?_⟩
    · have := hw s msg hm
      rw [hw₀] at this
      cases this
    · by_contra hne
      rcases hi s hne with h | h
      · exact h hi₀
      · obtain ⟨e, he, -, hcur⟩ := attached_iff.mp h
        exact absurd (wf.cur _ e s he hcur).1 (Nat.not_lt_of_le (next ▸ hle))
  · rw [hE]; exact wf.unstarted c (hn ▸ hle)
  · rw [hE, ho]; exact wf.owned s (next ▸ hlt)
  · rw [hE] at he
    rw [ho, next]
    exact wf.cur c e s he hc
  · rw [hE, ho]
    rcases hi s hne with h | h
    · exact wf.inbox s h
    · obtain ⟨e, he, -, hcur⟩ := attached_iff.mp h
      exact ⟨e, he, hcur⟩
  · rw [keeps]
    exact wf.joins s room userId name token (hw s _ hm)
  · rw [hE] at he; exact wf.out c e msg he hm
  · rw [hE] at he; exact wf.mesh c e he
  · rw [keeps]
    rcases idents s room userId h with h | ⟨name, token, h⟩
    · exact wf.ident s room userId h
    · exact wf.joins s room userId name token h

/-- A step of one engine. -/
theorem wf_of_engine (wf : WF cfg σ) {c : ClientId} {e : Engine} (e' : Engine) (he : σ.engines c = some e)
    (hsrv : σ'.server = σ.server) (ho : σ'.owner = σ.owner) (hn : σ'.nextClient = σ.nextClient)
    (hE : σ'.engines = Function.update σ.engines c (some e')) (hcfg : e'.cfg = e.cfg)
    (hcur : e'.cur = e.cur ∨ e'.cur = none ∧ ∀ s, e.cur = some s → σ.inbox s = [])
    (hmesh : e'.mesh.owner = e.mesh.owner ∧ e'.mesh.myId = e.mesh.myId)
    (hout : ∀ msg ∈ e'.mesh.out, msg ∈ e.mesh.out ∨ msg.dest.isSome)
    (hw : ∀ s, ∀ msg ∈ σ'.wire s, msg ∈ σ.wire s ∨ e.cur = some s ∧ ∀ room userId name token,
      msg ≠ .join room userId name token)
    (hi : ∀ s, σ'.inbox s ≠ [] → σ.inbox s ≠ []) : WF cfg σ' := by
  have kept : Kept σ σ' := .of_setEngine e' he hcfg (by rw [hsrv]) ho hE
  have engines : ∀ d e₀, σ'.engines d = some e₀ → d = c ∧ e₀ = e' ∨ σ.engines d = some e₀ := by
    intro d e₀ hd
    rw [hE] at hd
    by_cases h : d = c
    · subst h
      simp only [Function.update_self, Option.some.injEq] at hd
      exact Or.inl ⟨rfl, hd.symm⟩
    · rw [Function.update_of_ne h] at hd
      exact Or.inr hd
  have cfgOf : ∀ s ecfg, σ.cfgOf s = some ecfg → s < σ.server.nextSocket → σ'.cfgOf s = some ecfg :=
    fun s ecfg h hlt => kept.cfgOf hlt h
  refine ⟨by rw [hsrv]; exact wf.server, fun s hle => ?_, fun d hle => ?_, fun s hlt => ?_, fun d e₀ s hd hc => ?_,
    fun s hne => ?_, fun s room userId name token hm => ?_, fun d e₀ msg hd hm => ?_, fun d e₀ hd => ?_,
    fun s room userId h => ?_⟩
  · rw [hsrv] at hle
    obtain ⟨hw₀, hi₀⟩ := wf.unopened s hle
    refine ⟨List.eq_nil_iff_forall_not_mem.mpr fun msg hm => ?_, ?_⟩
    · rcases hw s msg hm with h | ⟨h, -⟩
      · rw [hw₀] at h; cases h
      · exact absurd (wf.cur c e s he h).1 (Nat.not_lt_of_le hle)
    · by_contra hne
      exact hi s hne hi₀
  · rw [hE]
    rw [hn] at hle
    have hne : d ≠ c := fun h => by
      rw [← h, wf.unstarted d hle] at he
      cases he
    rw [Function.update_of_ne hne]
    exact wf.unstarted d hle
  · rw [hsrv] at hlt
    obtain ⟨e₀, he₀⟩ := Option.isSome_iff_exists.mp (wf.owned s hlt)
    obtain ⟨e₁, he₁, -⟩ := kept.engine _ e₀ he₀
    rw [ho, he₁]
    rfl
  · rw [hsrv, ho]
    rcases engines d e₀ hd with ⟨rfl, rfl⟩ | hd
    · rcases hcur with h | ⟨h, -⟩
      · exact wf.cur d e s he (h ▸ hc)
      · rw [h] at hc; cases hc
    · exact wf.cur d e₀ s hd hc
  · rw [ho]
    obtain ⟨e₀, he₀, hc₀⟩ := wf.inbox s (hi s hne)
    by_cases h : σ.owner s = c
    · rw [h] at he₀ ⊢
      cases he.symm.trans he₀
      refine ⟨e', by rw [hE]; simp, ?_⟩
      rcases hcur with hc | ⟨-, hc⟩
      · rw [hc]; exact hc₀
      · exact absurd (hc s hc₀) (hi s hne)
    · exact ⟨e₀, by rw [hE, Function.update_of_ne h]; exact he₀, hc₀⟩
  · rcases hw s _ hm with h | ⟨-, h⟩
    · obtain ⟨ecfg, hc, hr⟩ := wf.joins s room userId name token h
      exact ⟨ecfg, cfgOf s ecfg hc (wf.unopened_of_mem h), hr⟩
    · exact absurd rfl (h _ _ _ _)
  · rcases engines d e₀ hd with ⟨rfl, rfl⟩ | hd
    · exact (hout msg hm).elim (wf.out d e msg he) id
    · exact wf.out d e₀ msg hd hm
  · rcases engines d e₀ hd with ⟨rfl, rfl⟩ | hd
    · rw [hmesh.1, hmesh.2, hcfg]; exact wf.mesh d e he
    · exact wf.mesh d e₀ hd
  · rw [hsrv] at h
    obtain ⟨ecfg, hc, hr⟩ := wf.ident s room userId h
    exact ⟨ecfg, cfgOf s ecfg hc (wf.opened_of_ident h), hr⟩

/-- A client opens a new socket. -/
theorem wf_of_dial (wf : WF cfg σ) {srv : Server} (hs : σ.server.step cfg.server .accept = some srv)
    {c : ClientId} (e' : Engine) (hc : c = σ.nextClient ∧ σ'.nextClient = σ.nextClient + 1 ∧ e'.mesh.out = [] ∨
      σ'.nextClient = σ.nextClient ∧ ∃ e, σ.engines c = some e ∧ e'.cfg = e.cfg ∧ e.cur = none ∧ e'.mesh = e.mesh)
    (hmesh : e'.mesh.owner = c ∧ e'.mesh.myId = e'.cfg.userId) (hcur : e'.cur = some σ.server.nextSocket)
    (hsrv : σ'.server = srv) (ho : σ'.owner = Function.update σ.owner σ.server.nextSocket c)
    (hE : σ'.engines = Function.update σ.engines c (some e'))
    (hw : σ'.wire = Function.update σ.wire σ.server.nextSocket [Engine.joinMsg e'.cfg])
    (hi : σ'.inbox = σ.inbox) : WF cfg σ' := by
  have hnext : srv.nextSocket = σ.server.nextSocket + 1 := by rw [accept_eq hs]
  have server := Server.inv_step wf.server hs
  have old : ∀ s, s < σ.server.nextSocket → σ'.owner s = σ.owner s := fun s hlt => by
    rw [ho, Function.update_of_ne (Nat.ne_of_lt hlt)]
  have fresh_or : ∀ s, s < srv.nextSocket → s = σ.server.nextSocket ∨ s < σ.server.nextSocket := fun s hlt => by
    rw [hnext] at hlt
    omega
  have engines : ∀ d e₀, σ'.engines d = some e₀ → d = c ∧ e₀ = e' ∨ d ≠ c ∧ σ.engines d = some e₀ := by
    intro d e₀ hd
    rw [hE] at hd
    by_cases h : d = c
    · subst h
      simp only [Function.update_self, Option.some.injEq] at hd
      exact Or.inl ⟨rfl, hd.symm⟩
    · rw [Function.update_of_ne h] at hd
      exact Or.inr ⟨h, hd⟩
  -- The client of a socket that was open before has kept its configuration.
  have engine : ∀ d e₀, σ.engines d = some e₀ → ∃ e₁, σ'.engines d = some e₁ ∧ e₁.cfg = e₀.cfg := by
    intro d e₀ hd
    by_cases h : d = c
    · subst h
      rcases hc with ⟨rfl, -⟩ | ⟨-, e, he, hcfg, -⟩
      · rw [wf.unstarted _ (Nat.le_refl _)] at hd; cases hd
      · cases he.symm.trans hd
        exact ⟨e', by rw [hE]; simp, hcfg⟩
    · exact ⟨e₀, by rw [hE, Function.update_of_ne h]; exact hd, rfl⟩
  have cfgOf : ∀ s ecfg, σ.cfgOf s = some ecfg → s < σ.server.nextSocket → σ'.cfgOf s = some ecfg := by
    intro s ecfg h hlt
    obtain ⟨e₀, he₀, rfl⟩ := Option.map_eq_some_iff.mp h
    obtain ⟨e₁, he₁, hcfg⟩ := engine _ e₀ he₀
    rw [Sys.cfgOf, old s hlt, he₁, Option.map_some, hcfg]
  have newCfg : σ'.cfgOf σ.server.nextSocket = some e'.cfg := by simp [Sys.cfgOf, ho, hE]
  refine ⟨hsrv ▸ server, fun s hle => ?_, fun d hle => ?_, fun s hlt => ?_, fun d e₀ s hd hc₀ => ?_,
    fun s hne => ?_, fun s room userId name token hm => ?_, fun d e₀ msg hd hm => ?_, fun d e₀ hd => ?_,
    fun s room userId h => ?_⟩
  · rw [hsrv, hnext] at hle
    have hne : s ≠ σ.server.nextSocket := by omega
    rw [hw, hi, Function.update_of_ne hne]
    exact wf.unopened s (by omega)
  · rw [hE]
    rcases hc with ⟨rfl, hn, -⟩ | ⟨hn, e, he, -⟩
    · rw [hn] at hle
      have hlt : σ.nextClient < d := hle
      rw [Function.update_of_ne (Nat.ne_of_gt hlt)]
      exact wf.unstarted d (Nat.le_of_lt hlt)
    · rw [hn] at hle
      have hne : d ≠ c := fun h => by
        rw [← h, wf.unstarted d hle] at he
        cases he
      rw [Function.update_of_ne hne]
      exact wf.unstarted d hle
  · rw [hsrv] at hlt
    rcases fresh_or s hlt with rfl | hlt
    · rw [ho, hE]; simp
    · obtain ⟨e₀, he₀⟩ := Option.isSome_iff_exists.mp (wf.owned s hlt)
      obtain ⟨e₁, he₁, -⟩ := engine _ e₀ he₀
      rw [old s hlt, he₁]
      rfl
  · rw [hsrv, hnext]
    rcases engines d e₀ hd with ⟨rfl, rfl⟩ | ⟨hne, hd⟩
    · rw [hcur, Option.some.injEq] at hc₀
      subst hc₀
      exact ⟨Nat.lt_succ_self _, by rw [ho]; simp⟩
    · obtain ⟨hlt, howner⟩ := wf.cur d e₀ s hd hc₀
      exact ⟨Nat.lt_succ_of_lt hlt, by rw [old s hlt]; exact howner⟩
  · rw [hi] at hne
    obtain ⟨e₀, he₀, hc₀⟩ := wf.inbox s hne
    have hlt := (wf.cur _ e₀ s he₀ hc₀).1
    have hneq : σ.owner s ≠ c := by
      intro h
      rw [h] at he₀
      rcases hc with ⟨rfl, -⟩ | ⟨-, e, he, -, hnone, -⟩
      · rw [wf.unstarted _ (Nat.le_refl _)] at he₀; cases he₀
      · cases he.symm.trans he₀
        rw [hnone] at hc₀
        cases hc₀
    exact ⟨e₀, by rw [old s hlt, hE, Function.update_of_ne hneq]; exact he₀, hc₀⟩
  · rw [hw] at hm
    by_cases h : s = σ.server.nextSocket
    · subst h
      rw [Function.update_self, List.mem_singleton, Engine.joinMsg] at hm
      cases hm
      exact ⟨_, newCfg, rfl, rfl⟩
    · rw [Function.update_of_ne h] at hm
      obtain ⟨ecfg, hcfg, hr⟩ := wf.joins s room userId name token hm
      exact ⟨ecfg, cfgOf s ecfg hcfg (wf.unopened_of_mem hm), hr⟩
  · rcases engines d e₀ hd with ⟨rfl, rfl⟩ | ⟨-, hd⟩
    · rcases hc with ⟨-, -, hnil⟩ | ⟨-, e, he, -, -, hm'⟩
      · rw [hnil] at hm; cases hm
      · rw [hm'] at hm; exact wf.out d e msg he hm
    · exact wf.out d e₀ msg hd hm
  · rcases engines d e₀ hd with ⟨rfl, rfl⟩ | ⟨-, hd⟩
    · exact hmesh
    · exact wf.mesh d e₀ hd
  · have hident : σ.server.ident s = some (room, userId) := by
      rw [hsrv, accept_eq hs] at h
      by_cases hs' : s = σ.server.nextSocket
      · subst hs'; simp [Server.ident, Conn.ident] at h
      · simpa [Server.ident, hs'] using h
    obtain ⟨ecfg, hcfg, hr⟩ := wf.ident s room userId hident
    exact ⟨ecfg, cfgOf s ecfg hcfg (wf.opened_of_ident hident), hr⟩

theorem wf_step (wf : WF cfg σ) (h : step cfg σ a = some σ') : WF cfg σ' := by
  cases a with
  | recv s =>
    obtain ⟨msg, rest, srv, hw, hs, rfl⟩ := step_recv_inv h
    refine wf_of_server wf (by simp) hs ?_ rfl rfl rfl (fun t m hm => ?_) fun t ht => Or.inl ht
    · rintro t room userId name token he
      injection he with he₁ he₂
      injection he₂ with he₂
      rw [← he₁, hw, he₂]
      exact List.mem_cons_self
    · by_cases ht : t = s
      · subst ht
        simp only [Function.update_self] at hm
        rw [hw]
        exact List.mem_cons_of_mem _ hm
      · simpa [ht] using hm
  | write s =>
    obtain ⟨k, msg, rest, srv, -, -, hs, rfl⟩ := step_write_inv h
    refine wf_of_server wf (by simp) hs (by simp) rfl rfl rfl (fun t m hm => hm) fun t ht => ?_
    simp only [delivered] at ht
    split at ht
    · rename_i hatt
      by_cases hts : t = s
      · subst hts
        exact Or.inr hatt
      · rw [Function.update_of_ne hts] at ht
        exact Or.inl ht
    · exact Or.inl ht
  | server b =>
    obtain ⟨hi, srv, hs, rfl⟩ := step_server_inv h
    refine wf_of_server wf (by rintro rfl; cases hi) hs ?_ rfl rfl rfl (fun t m hm => hm) fun t ht => Or.inl ht
    rintro t room userId name token rfl
    cases hi
  | start ecfg =>
    obtain ⟨srv, hs, rfl⟩ := step_start_inv h
    exact wf_of_dial wf hs (.start ecfg σ.nextClient σ.server.nextSocket) (Or.inl ⟨rfl, rfl, rfl⟩)
      ⟨rfl, rfl⟩ rfl rfl rfl rfl rfl rfl
  | handle c w =>
    obtain ⟨e, s, msg, rest, he, -, hc, hi, rfl⟩ := step_handle_inv h
    have grows := e.mesh.react_grows cfg.rtc w e.cfg.relayEnabled msg
    refine wf_of_engine wf _ he rfl rfl rfl rfl (Engine.handle_cfg msg) (Or.inl (Engine.handle_cur msg)) ?_ (fun m hm => ?_)
      (fun t m hm => Or.inl hm) fun t ht => ?_
    · rw [Engine.handle_mesh]
      exact ⟨grows.owner, grows.myId⟩
    · rw [Engine.handle_mesh] at hm
      obtain ⟨ms, ho, -, hd⟩ := grows.sends
      rw [ho] at hm
      exact (List.mem_append.mp hm).imp id (hd m)
    · by_cases hts : t = s
      · subst hts
        rw [hi]
        exact List.cons_ne_nil _ _
      · simpa [hts] using ht
  | lost c =>
    obtain ⟨e, s, he, -, hc, hi, rfl⟩ := step_lost_inv h
    refine wf_of_engine wf e.lost he rfl rfl rfl rfl rfl (Or.inr ⟨rfl, fun t ht => ?_⟩) ⟨rfl, rfl⟩ (fun m hm => Or.inl hm)
      (fun t m hm => Or.inl hm) fun t ht => ht
    cases hc.symm.trans ht
    exact hi
  | uplink c =>
    obtain ⟨e, msg, rest, he, -, ho, rfl⟩ := step_uplink_inv h
    refine wf_of_engine wf { e with mesh := { e.mesh with out := rest } } he (by simp) (by simp) (by simp) (by simp) rfl
      (Or.inl rfl) ⟨rfl, rfl⟩ (fun m hm => Or.inl (by rw [ho]; exact List.mem_cons_of_mem _ hm)) (fun t m hm => ?_)
      fun t ht => by simpa using ht
    simp only [setEngine_wire, transmit_wire] at hm
    split at hm
    · rename_i hcur
      rcases List.mem_append.mp hm with hm | hm
      · exact Or.inl hm
      · have hd := wf.out c e msg he (by rw [ho]; exact List.mem_cons_self)
        rw [List.mem_singleton.mp hm]
        exact Or.inr ⟨hcur, fun _ _ _ _ hj => by rw [hj] at hd; cases hd⟩
    · exact Or.inl hm
  | reconnect c =>
    obtain ⟨e, srv, he, -, hc, hs, rfl⟩ := step_reconnect_inv h
    exact wf_of_dial wf hs (e.reconnected σ.server.nextSocket) (Or.inr ⟨rfl, e, he, rfl, hc, rfl⟩)
      (wf.mesh c e he) rfl rfl rfl rfl rfl rfl
  | event c ev =>
    obtain ⟨e, e', msgs, he, -, hev, rfl⟩ := step_event_inv h
    obtain ⟨hcfg, hcur, idles, -, hmsgs, -⟩ := Engine.onEvent_spec hev
    refine wf_of_engine wf e' he (by simp) (by simp) (by simp) (by simp) hcfg
      (Or.inl hcur) ⟨idles.owner, idles.myId⟩ (fun m hm => ?_) (fun t m hm => ?_) fun t ht => by simpa using ht
    · obtain ⟨ms, ho, -, hd⟩ := idles.grows.sends
      rw [ho] at hm
      exact (List.mem_append.mp hm).imp id (hd m)
    · simp only [setEngine_wire, transmit_wire] at hm
      split at hm
      · rename_i hcur
        rcases List.mem_append.mp hm with hm | hm
        · exact Or.inl hm
        · refine Or.inr ⟨hcur, fun _ _ _ _ hj => ?_⟩
          rcases hmsgs m hm with ⟨on, rfl⟩ | ⟨rfl, -⟩
          · cases hj
          · cases hj
      · exact Or.inl hm

theorem wf_empty : WF cfg empty where
  server := Server.inv_empty
  unopened _ _ := ⟨rfl, rfl⟩
  unstarted _ _ := rfl
  owned s h := absurd h (Nat.not_lt_zero s)
  cur _ _ _ h := by cases h
  inbox _ h := absurd rfl h
  joins _ _ _ _ _ h := by cases h
  out _ _ _ h := by cases h
  mesh _ _ h := by cases h
  ident _ _ _ h := by cases h

theorem wf_reach {ok : Sys → Act → Sys → Prop} (h : Lts.Reach (step cfg) ok empty σ) : WF cfg σ :=
  h.invariant wf_empty fun _ _ _ wf _ hs => wf_step wf hs

/-- What a step makes of the engine of client `c`, and what that sends to its connection. -/
inductive Turn (cfg : SysConfig) (σ σ' : Sys) (a : Act) (c : ClientId) (e : Engine) : List ClientMsg → Engine → Prop
  | idle : Turn cfg σ σ' a c e [] e
  | handle (w : Outcomes) (s : SocketId) (msg : ServerMsg) (act : a = .handle c w) (cur : e.cur = some s)
      (inbox : σ.inbox s = msg :: σ'.inbox s) : Turn cfg σ σ' a c e [] (e.handle cfg.rtc w msg)
  | lost (act : a = .lost c) : Turn cfg σ σ' a c e [] e.lost
  | uplink (msg : ClientMsg) (rest : List ClientMsg) (act : a = .uplink c) (out : e.mesh.out = msg :: rest) :
      Turn cfg σ σ' a c e [msg] { e with mesh := { e.mesh with out := rest } }
  | reconnect (act : a = .reconnect c) (off : e.cur = none) : Turn cfg σ σ' a c e [] (e.reconnected σ.server.nextSocket)
  | event (ev : LocalEvent) {msgs : List ClientMsg} {e' : Engine} (act : a = .event c ev)
      (round : e.onEvent ev = some (e', msgs)) : Turn cfg σ σ' a c e msgs e'

theorem engine_step (wf : WF cfg σ) (hs : step cfg σ a = some σ') {c : ClientId} {e : Engine} (he : σ.engines c = some e) :
    ∃ e' msgs, σ'.engines c = some e' ∧ Turn cfg σ σ' a c e msgs e' ∧
      ∀ s, e.cur = some s → a ≠ .recv s → σ'.wire s = σ.wire s ++ msgs := by
  have hopen : ∀ {s}, e.cur = some s → s ≠ σ.server.nextSocket := fun hc => Nat.ne_of_lt (wf.cur c e _ he hc).1
  -- A step of another client, or of the server.
  have idle : σ'.engines c = σ.engines c → (∀ s, e.cur = some s → a ≠ .recv s → σ'.wire s = σ.wire s) →
      ∃ e' msgs, σ'.engines c = some e' ∧ Turn cfg σ σ' a c e msgs e' ∧
        ∀ s, e.cur = some s → a ≠ .recv s → σ'.wire s = σ.wire s ++ msgs := fun hE hw =>
    ⟨e, [], hE.trans he, .idle, fun s hc ha => by rw [hw s hc ha, List.append_nil]⟩
  -- What another client sends goes to another socket.
  have elsewhere : ∀ {d e₀ s}, σ.engines d = some e₀ → c ≠ d → e.cur = some s → e₀.cur ≠ some s := by
    intro d e₀ s he₀ hne hc hc₀
    exact hne ((wf.cur c e s he hc).2.symm.trans (wf.cur d e₀ s he₀ hc₀).2)
  cases a with
  | recv t =>
    obtain ⟨_, _, srv, -, -, rfl⟩ := step_recv_inv hs
    refine idle rfl fun s _ ha => Function.update_of_ne (fun hst => ha (by rw [hst])) ..
  | write t =>
    obtain ⟨_, _, _, srv, -, -, -, rfl⟩ := step_write_inv hs
    exact idle rfl fun _ _ _ => rfl
  | server b =>
    obtain ⟨-, srv, -, rfl⟩ := step_server_inv hs
    exact idle rfl fun _ _ _ => rfl
  | start ecfg =>
    obtain ⟨srv, -, rfl⟩ := step_start_inv hs
    have hne : c ≠ σ.nextClient := fun hc => by
      rw [hc, wf.unstarted _ (Nat.le_refl _)] at he
      cases he
    exact idle (Function.update_of_ne hne ..) fun s hc _ => Function.update_of_ne (hopen hc) ..
  | handle d w =>
    obtain ⟨e₀, t, msg, rest, he₀, -, hcur, hin, rfl⟩ := step_handle_inv hs
    by_cases hd : c = d
    · subst hd
      cases he₀.symm.trans he
      exact ⟨_, [], by simp, .handle w t msg rfl hcur (by simp [hin]), fun _ _ _ => by simp⟩
    · exact idle (Function.update_of_ne hd ..) fun _ _ _ => rfl
  | lost d =>
    obtain ⟨e₀, t, he₀, -, -, -, rfl⟩ := step_lost_inv hs
    by_cases hd : c = d
    · subst hd
      cases he₀.symm.trans he
      exact ⟨_, [], by simp, .lost rfl, fun _ _ _ => by simp⟩
    · exact idle (Function.update_of_ne hd ..) fun _ _ _ => rfl
  | uplink d =>
    obtain ⟨e₀, msg, rest, he₀, -, hout, rfl⟩ := step_uplink_inv hs
    by_cases hd : c = d
    · subst hd
      cases he₀.symm.trans he
      exact ⟨_, [msg], by simp, .uplink msg rest rfl hout, fun s hc _ => by simp [transmit_wire, hc]⟩
    · exact idle (by simp [hd]) fun s hc _ => by simp [transmit_wire, elsewhere he₀ hd hc]
  | reconnect d =>
    obtain ⟨e₀, srv, he₀, -, hcur, -, rfl⟩ := step_reconnect_inv hs
    by_cases hd : c = d
    · subst hd
      cases he₀.symm.trans he
      refine ⟨_, [], by simp, .reconnect rfl hcur, fun s hc _ => ?_⟩
      rw [hcur] at hc
      cases hc
    · exact idle (by simp [dialed, hd]) fun s hc _ => by simp [dialed, hopen hc]
  | event d ev =>
    obtain ⟨e₀, e₁, msgs, he₀, -, hev, rfl⟩ := step_event_inv hs
    by_cases hd : c = d
    · subst hd
      cases he₀.symm.trans he
      exact ⟨e₁, msgs, by simp, .event ev rfl hev, fun s hc _ => by simp [transmit_wire, hc]⟩
    · exact idle (by simp [hd]) fun s hc _ => by simp [transmit_wire, elsewhere he₀ hd hc]

/-- A client of the state after a step was there before, or the step has started it. -/
theorem engines_step (hs : step cfg σ a = some σ') {c : ClientId} {e' : Engine} (he' : σ'.engines c = some e') :
    (∃ e, σ.engines c = some e) ∨
      ∃ ecfg srv, a = .start ecfg ∧ σ' = σ.started srv ecfg ∧ c = σ.nextClient ∧
        e' = .start ecfg σ.nextClient σ.server.nextSocket := by
  -- A step that exchanges the engine of a client.
  have one : ∀ {d e₀ e₁}, σ.engines d = some e₀ → σ'.engines = Function.update σ.engines d e₁ →
      ∃ e, σ.engines c = some e := by
    intro d e₀ e₁ he₀ hE
    rw [hE] at he'
    by_cases hd : c = d
    · exact ⟨e₀, hd ▸ he₀⟩
    · exact ⟨e', by rw [← he', Function.update_of_ne hd]⟩
  cases a with
  | recv t =>
    obtain ⟨_, _, srv, -, -, rfl⟩ := step_recv_inv hs
    exact Or.inl ⟨e', he'⟩
  | write t =>
    obtain ⟨_, _, _, srv, -, -, -, rfl⟩ := step_write_inv hs
    exact Or.inl ⟨e', he'⟩
  | server b =>
    obtain ⟨-, srv, -, rfl⟩ := step_server_inv hs
    exact Or.inl ⟨e', he'⟩
  | start ecfg =>
    obtain ⟨srv, -, rfl⟩ := step_start_inv hs
    by_cases hc : c = σ.nextClient
    · refine Or.inr ⟨ecfg, srv, rfl, rfl, hc, ?_⟩
      rw [hc] at he'
      simpa [started] using he'.symm
    · simp only [started, Function.update_of_ne hc] at he'
      exact Or.inl ⟨e', he'⟩
  | handle d w =>
    obtain ⟨e₀, t, msg, rest, he₀, -, -, -, rfl⟩ := step_handle_inv hs
    exact Or.inl (one he₀ rfl)
  | lost d =>
    obtain ⟨e₀, t, he₀, -, -, -, rfl⟩ := step_lost_inv hs
    exact Or.inl (one he₀ rfl)
  | uplink d =>
    obtain ⟨e₀, msg, rest, he₀, -, -, rfl⟩ := step_uplink_inv hs
    exact Or.inl (one he₀ (by rw [setEngine_engines, transmit_engines]))
  | reconnect d =>
    obtain ⟨e₀, srv, he₀, -, -, -, rfl⟩ := step_reconnect_inv hs
    exact Or.inl (one he₀ rfl)
  | event d ev =>
    obtain ⟨e₀, e₁, msgs, he₀, -, -, rfl⟩ := step_event_inv hs
    exact Or.inl (one he₀ (by rw [setEngine_engines, transmit_engines]))

end

end Sys

end SquadLink
