import SquadLink.Client.Trickle
import SquadLink.System.Connections

/-! PeerConnections report their local candidates from tasks of their own. While the engine waits for a call
    of the library, candidates can get to the uplink between the messages of the round, even before the
    Offer or Answer of their PeerConnection. -/

namespace SquadLink

def ClientMsg.cand? : ClientMsg → Option Candidate
  | .ice _ cand => some cand
  | _ => none

/-- The message is how a mesh says a candidate of a PeerConnection of the client. -/
def ClientMsg.reports (c : ClientId) (msg : ClientMsg) (cand : Candidate) : Bool :=
  msg = .ice cand.pc.peer cand && cand.pc.owner = c

/-- A step of the system, or a round of an engine in which candidates are reported. -/
inductive SysEvent
  | act (a : Act)
  /-- The engine takes the next message; `said` is what the round and the PeerConnections put on the uplink. -/
  | race (c : ClientId) (w : Outcomes) (said : List ClientMsg)

namespace Mesh

/-- The mesh after a round that began with `m`, if `said` is what got to the uplink meanwhile. -/
def saying (m m' : Mesh) (said : List ClientMsg) : Mesh := { m' with out := m.out ++ said, sent := m.sent ++ said }

/-- What the round put on the uplink is what `said` has besides candidates of the client. -/
def Interleaves (m m' : Mesh) (said : List ClientMsg) : Prop :=
  m'.out = m.out ++ said.filter (fun msg => msg.cand?.isNone) ∧ ∀ msg ∈ said, ∀ cand ∈ msg.cand?,
  msg.reports m.owner cand = true

instance (m m' : Mesh) (said : List ClientMsg) : Decidable (Interleaves m m' said) := by
  unfold Interleaves
  infer_instance

end Mesh

namespace Sys

/-- The state after a round of the client's engine `e`, if `said` is what got to the uplink meanwhile. -/
def saying (σ : Sys) (c : ClientId) (e : Engine) (said : List ClientMsg) : Option Sys :=
  (σ.engines c).bind fun e' =>
    if e.mesh.Interleaves e'.mesh said then some (σ.setEngine c { e' with mesh := e.mesh.saying e'.mesh said }) else none

def next (cfg : SysConfig) (σ : Sys) : SysEvent → Option Sys
  | .act a => step cfg σ a
  | .race c w said => (σ.running? c).bind fun e => (step cfg σ (.handle c w)).bind fun σ' => σ'.saying c e said

end Sys

namespace SysEvent

/-- The client whose engine takes a message. -/
def handler : SysEvent → Option (ClientId × Outcomes)
  | .act (.handle c w) => some (c, w)
  | .race c w _ => some (c, w)
  | _ => none

/-- The candidates that PeerConnections report. -/
def reports : SysEvent → List Candidate
  | .act (.event _ (.candidate pc text)) => [{ text, pc }]
  | .race _ _ said => said.filterMap ClientMsg.cand?
  | _ => []

end SysEvent

/-- The engine that takes a message in the event, and the message. -/
def Sys.taken (σ : Sys) (ev : SysEvent) : Option (Engine × ServerMsg) :=
  ev.handler.bind fun p => (σ.running? p.1).bind fun e => e.cur.bind fun s => (σ.inbox s).head?.map fun msg => (e, msg)

/-- What is said to `q` besides candidates. -/
theorem ClientMsg.filter_signalFor_cand (q : String) (msgs : List ClientMsg) :
    (msgs.filterMap (signalFor q)).filter Signal.negotiates =
      (msgs.filter fun msg => msg.cand?.isNone).filterMap (signalFor q) := by
  have agree : ∀ {msg : ClientMsg} {sig : Signal}, msg.signalFor q = some sig → sig.negotiates = msg.cand?.isNone := by
    intro msg sig h
    cases msg <;> simp only [signalFor, Option.ite_none_right_eq_some, Option.some.injEq, reduceCtorEq] at h <;>
      · obtain ⟨-, rfl⟩ := h
        rfl
  induction msgs with
  | nil => rfl
  | cons msg msgs ih =>
    cases h : msg.signalFor q with
    | none => cases hn : msg.cand?.isNone <;> simp [h, hn, ih]
    | some sig => cases hn : msg.cand?.isNone <;> simp [h, hn, ih, agree h]

namespace Sys

/-- The round in which the engine of `c` takes the message `msg` from the connection `s`; `said` is what got to
    the uplink meanwhile. -/
structure Round (cfg : SysConfig) (σ σ' : Sys) (ev : SysEvent) (c : ClientId) (e e' : Engine)
  (s : SocketId) (msg : ServerMsg)
    (said : List ClientMsg) : Prop where
  engine : σ.engines c = some e
  running : e.running = true
  cur : e.cur = some s
  inbox : σ.inbox s = msg :: σ'.inbox s
  others : ∀ t, t ≠ s → σ'.inbox t = σ.inbox t
  engines : σ'.engines = Function.update σ.engines c (some e')
  server : σ'.server = σ.server
  wire : σ'.wire = σ.wire
  owner : σ'.owner = σ.owner
  nextClient : σ'.nextClient = σ.nextClient
  handled : ∃ w, ev.handler = some (c, w) ∧ e' = { e.handle cfg.rtc w msg with mesh := e'.mesh } ∧
    ∀ q, e'.mesh.side q = (e.mesh.react cfg.rtc w e.cfg.relayEnabled msg).side q
  out : e'.mesh.out = e.mesh.out ++ said
  sent : e'.mesh.sent = e.mesh.sent ++ said
  reports : said.filterMap ClientMsg.cand? = ev.reports
  own : ∀ m ∈ said, ∀ cand ∈ m.cand?, m.reports e.mesh.owner cand = true
  race : ∀ d w out, ev = .race d w out → said = out
  reacts : ∀ q, Side.Reacts cfg.rtc (decide (e.mesh.myId < q)) (e.mesh.pcFor q) (e.mesh.side q) (msg.cue q) (e'.mesh.side q)
    ((said.filterMap (ClientMsg.signalFor q)).filter Signal.negotiates)

section
variable {cfg : SysConfig} {σ σ' : Sys} {ev : SysEvent} {c : ClientId} {w : Outcomes}

theorem next_round (hs : next cfg σ ev = some σ') (hev : ev.handler = some (c, w)) (ok : w.AllOk)
    (distinct : ∀ s peers, .roster peers ∈ σ.inbox s → (peers.map (·.userId)).Nodup) :
    ∃ e e' s msg said, Round cfg σ σ' ev c e e' s msg said := by
  -- The reactions of the mesh, and what they put on the uplink.
  have reactions : ∀ {e : Engine} {s msg rest}, σ.inbox s = msg :: rest → ∃ ms,
      (e.handle cfg.rtc w msg).mesh.out = e.mesh.out ++ ms ∧ (e.handle cfg.rtc w msg).mesh.sent = e.mesh.sent ++ ms ∧
      (∀ m ∈ ms, m.cand? = none) ∧ ∀ q, Side.Reacts cfg.rtc (decide (e.mesh.myId < q)) (e.mesh.pcFor q) (e.mesh.side q)
        (msg.cue q) ((e.handle cfg.rtc w msg).mesh.side q) (ms.filterMap (ClientMsg.signalFor q)) := by
    intro e s msg rest hin
    have grows := e.mesh.react_grows cfg.rtc w e.cfg.relayEnabled msg
    obtain ⟨ms, hout, hsent, reacts⟩ := e.mesh.react_sides ok e.cfg.relayEnabled
      fun peers h => distinct s peers (by rw [hin]; exact h ▸ List.mem_cons_self)
    rw [Engine.handle_mesh]
    refine ⟨ms, hout, hsent, fun m hm => ?_, reacts⟩
    obtain ⟨ms', hout', -, dest⟩ := grows.sends
    cases List.append_cancel_left (hout.symm.trans hout')
    cases m with
    | ice dest cand =>
      have hc : Signal.ice cand ∈ ms.filterMap (ClientMsg.signalFor dest) :=
        List.mem_filterMap.mpr ⟨_, hm, by simp [ClientMsg.signalFor]⟩
      exact absurd ((reacts dest).negotiates _ hc) (by simp [Signal.negotiates])
    | _ => rfl
  cases ev with
  | act a =>
    cases a with
    | handle d w' =>
      cases hev
      obtain ⟨e, s, msg, rest, he, hrun, hcur, hin, rfl⟩ := step_handle_inv hs
      obtain ⟨ms, hout, hsent, silent, reacts⟩ := reactions hin
      refine ⟨e, e.handle cfg.rtc w msg, s, msg, ms, he, hrun, hcur, by simp [hin],
        fun t ht => by simp [ht], rfl, rfl, rfl, rfl, rfl,
        ⟨w, rfl, rfl, fun q => by rw [Engine.handle_mesh]⟩, hout, hsent, ?_, fun m hm cand hc =>
          ?_, (fun _ _ _ h => by cases h), fun q => ?_⟩
      · exact List.filterMap_eq_nil_iff.mpr silent
      · rw [silent m hm] at hc
        cases hc
      · rw [List.filter_eq_self.mpr (reacts q).negotiates]
        exact reacts q
    | _ => cases hev
  | race d w' said =>
    cases hev
    obtain ⟨e, he, hs⟩ := Option.bind_eq_some_iff.mp hs
    obtain ⟨σ₁, hs₁, hs⟩ := Option.bind_eq_some_iff.mp hs
    obtain ⟨e₀, s, msg, rest, he₀, hrun, hcur, hin, rfl⟩ := step_handle_inv hs₁
    cases (running?_eq_some he).1.symm.trans he₀
    obtain ⟨e₁, he₁, hs⟩ := Option.bind_eq_some_iff.mp hs
    obtain ⟨⟨between, own⟩, hs⟩ := Option.ite_none_right_eq_some.mp hs
    simp only [setEngine_engines, Function.update_self, Option.some.injEq] at he₁
    subst he₁
    cases hs
    obtain ⟨ms, hout, hsent, silent, reacts⟩ := reactions hin
    refine ⟨e, { e.handle cfg.rtc w msg with mesh := e.mesh.saying (e.handle cfg.rtc w msg).mesh said },
      s, msg, said, he₀, hrun, hcur, by simp [hin], fun t ht => by simp [ht], by simp, rfl, rfl, rfl, rfl,
      ⟨w, rfl, rfl, fun q => ?_⟩, rfl, rfl, rfl, own, fun d w out h => ?_, fun q => ?_⟩
    · rw [← Engine.handle_mesh]
      rfl
    · cases h
      rfl
    · rw [ClientMsg.filter_signalFor_cand, ← List.append_cancel_left (hout.symm.trans between)]
      exact reacts q

theorem taken_of {e : Engine} {s : SocketId} {msg : ServerMsg} (hev : ev.handler = some (c, w)) (he : σ.engines c = some e)
    (running : e.running = true) (cur : e.cur = some s) (hin : (σ.inbox s).head? = some msg) :
    σ.taken ev = some (e, msg) := by
  have runs : σ.running? c = some e := Option.filter_eq_some_iff.mpr ⟨he, running⟩
  simp [taken, hev, runs, cur, hin]

theorem taken_eq_some {p : Engine × ServerMsg} (h : σ.taken ev = some p) :
    ∃ c w, ev.handler = some (c, w) ∧ σ.engines c = some p.1 := by
  obtain ⟨⟨c, w⟩, hev, h⟩ := Option.bind_eq_some_iff.mp h
  obtain ⟨e, he, h⟩ := Option.bind_eq_some_iff.mp h
  obtain ⟨s, -, h⟩ := Option.bind_eq_some_iff.mp h
  obtain ⟨msg, -, rfl⟩ := Option.map_eq_some_iff.mp h
  exact ⟨c, w, hev, (running?_eq_some he).1⟩

theorem wf_next (wf : WF cfg σ) (hs : next cfg σ ev = some σ') : WF cfg σ' := by
  cases ev with
  | act a => exact wf_step wf hs
  | race d w said =>
    obtain ⟨e, he, hs⟩ := Option.bind_eq_some_iff.mp hs
    obtain ⟨σ₁, hs₁, hs⟩ := Option.bind_eq_some_iff.mp hs
    obtain ⟨e₁, he₁, hs⟩ := Option.bind_eq_some_iff.mp hs
    obtain ⟨⟨between, own⟩, hs⟩ := Option.ite_none_right_eq_some.mp hs
    cases hs
    have wf₁ := wf_step wf hs₁
    refine wf_of_engine wf₁ { e₁ with mesh := e.mesh.saying e₁.mesh said } he₁ rfl rfl rfl rfl rfl (.inl rfl) ⟨rfl, rfl⟩
      (fun msg hm => ?_) (fun _ _ hm => .inl hm) fun _ h => h
    rcases List.mem_append.mp hm with hm | hm
    · exact .inl (by rw [between]; exact List.mem_append_left _ hm)
    · cases hc : msg.cand? with
      | none => exact .inl (by rw [between]; exact List.mem_append_right _ (List.mem_filter.mpr ⟨hm, by simp [hc]⟩))
      | some cand =>
        have := own msg hm cand hc
        simp only [ClientMsg.reports, decide_eq_true_eq, Bool.and_eq_true] at this
        exact .inr (by rw [this.1]; rfl)

end

end Sys

end SquadLink
