import SquadLink.Client.Exit
import SquadLink.Client.View
import SquadLink.System.Rosters

/-! The window of a client that is online and has heard everything: it shows the room. -/

namespace SquadLink

namespace Engine

section
variable {rtc : Webrtc} {e e' : Engine} {a : LoopAct}

/-- What has been shown stays among the events. -/
theorem listed_round (listed : e.Listed) (hs : e.round rtc a = some e') (stays : a ≠ .event .quit) : e'.Listed := by
  obtain ⟨ps, hm⟩ := listed
  obtain ⟨new, hui, -⟩ := pushes_round hs stays
  exact ⟨ps, by rw [hui]; exact List.mem_append_left _ hm⟩

theorem not_quit (hs : e.round rtc a = some e') (runs : e'.running = true) : a ≠ .event .quit := by
  rintro rfl
  obtain ⟨-, hs⟩ := Option.ite_none_right_eq_some.mp hs
  obtain ⟨⟨e'', msgs⟩, hev, rfl⟩ := Option.map_eq_some_iff.mp hs
  cases hev
  cases runs

end

end Engine

namespace Sys

/-- An online client has shown a roster, or will get one. -/
def Heralded (σ : Sys) : Prop :=
  ∀ room userId h e k, Online σ room userId h e k → e.Listed ∨ ∃ peers, .roster peers ∈ σ.downstream h.tx k ++ k.pending

section
variable {cfg : SysConfig} {σ σ' : Sys} {a : Act} {v : View}

theorem shown_step (wf : WF cfg σ) (hs : step cfg σ a = some σ')
    (shown : ∀ c e, σ.engines c = some e → e.running = true → e.Shown v) :
    ∀ c e, σ'.engines c = some e → e.running = true → e.Shown v := by
  intro c e' he' runs
  rcases engines_step hs he' with ⟨e, he⟩ | ⟨ecfg, srv, -, -, -, rfl⟩
  · have old : c ≠ σ.nextClient := fun hc => by
      rw [wf.unstarted c hc.ge] at he
      cases he
    obtain ⟨e₁, he₁, h⟩ := step_round hs he old
    cases he'.symm.trans he₁
    rcases h with rfl | ⟨act, round⟩
    · exact shown c e' he runs
    · exact Engine.shown_round (shown c e he (Engine.round_running round)) round (Engine.not_quit round runs)
  · exact Engine.shown_start ..

theorem listed_step (wf : WF cfg σ) (hs : step cfg σ a = some σ') {c : ClientId} {e e' : Engine} (he : σ.engines c = some e)
    (he' : σ'.engines c = some e') (runs : e'.running = true) (listed : e.Listed) : e'.Listed := by
  have old : c ≠ σ.nextClient := fun hc => by
    rw [wf.unstarted c hc.ge] at he
    cases he
  obtain ⟨e₁, he₁, h⟩ := step_round hs he old
  cases he'.symm.trans he₁
  rcases h with rfl | ⟨act, round⟩
  · exact listed
  · exact Engine.listed_round listed round (Engine.not_quit round runs)

theorem heralded_step (wf : WF cfg σ) (hs : step cfg σ a = some σ') (room' : σ'.server.NeverFull) (heralded : Heralded σ) :
    Heralded σ' := by
  intro room userId h e' k' on'
  rcases listed_cases wf hs on'.listed with listed | ⟨name, token, rest, rfl, hname, hw, admits⟩
  · obtain ⟨e, k, on, prog⟩ := online_step wf hs room' on' listed
    have howner := (step_kept wf hs).owner h.tx (on.opened wf)
    rcases heralded room userId h e k on with shown | ⟨peers, hm⟩
    · exact .inl (listed_step wf hs on.engine (howner ▸ on'.engine) on'.running shown)
    · rcases prog with ⟨rfl, down, phase, -, -⟩ | ⟨now, rfl, rfl, down, -, -⟩ | ⟨w, msg, rfl, -, down, rfl, rfl, -⟩ |
        ⟨down, phase, -, -, -, -, -, -, -, -⟩
      · refine .inr ⟨peers, ?_⟩
        rw [down, pending_congr phase]
        rcases List.mem_append.mp hm with hm | hm
        · exact List.mem_append_left _ (List.mem_append_left _ hm)
        · exact List.mem_append_right _ hm
      · refine .inr ⟨peers, ?_⟩
        rw [down]
        exact List.mem_append_left _ (List.mem_append_left _ hm)
      · rw [down, List.cons_append] at hm
        rcases List.mem_cons.mp hm with rfl | hm
        · exact .inl ⟨_, List.mem_append_right _ List.mem_cons_self⟩
        · exact .inr ⟨peers, hm⟩
      · refine .inr ⟨peers, ?_⟩
        rw [down, pending_congr phase]
        exact hm
  · obtain ⟨-, -, -, -, -, captured⟩ := joined_step wf hs room' hw admits
    refine .inr ⟨Server.rosterOf (σ.server.roomOf room) userId, List.mem_append_right _ ?_⟩
    rw [captured k' on'.conn]
    exact List.mem_cons_self

/-- Members are shown once each, with the names that the engine has for them. -/
theorem participants_shown (e : Engine) : ∃ shown, e.participants =
      { userId := e.cfg.userId, name := e.cfg.name, you := true, badge := none, speaking := e.transmit } :: shown ∧
    (shown.map (·.userId)).Nodup ∧ shown.Pairwise (fun p q => p.name ≤ q.name) ∧ (∀ p ∈ shown, p.you = false) ∧
    ∀ q n, (∃ p ∈ shown, p.userId = q ∧ p.name = n) ↔ e.names q = some n := by
  have perm := Sorting.sortOn_perm (fun p : Participant => p.name) (e.members.entries.map Engine.memberShown)
  refine ⟨_, Engine.participants_eq e, ?_, Sorting.pairwise_sortOn _ _, fun p hp => ?_, fun q n => ?_⟩
  · rw [(perm.map _).nodup_iff, List.map_map]
    exact e.members.nodupKeys
  · obtain ⟨m, -, rfl⟩ := List.mem_map.mp (perm.mem_iff.mp hp)
    rfl
  · constructor
    · rintro ⟨p, hp, rfl, rfl⟩
      obtain ⟨m, hm, rfl⟩ := List.mem_map.mp (perm.mem_iff.mp hp)
      exact Option.map_eq_some_iff.mpr ⟨m.2, AList.mem_lookup_iff.mpr hm, rfl⟩
    · intro h
      obtain ⟨m, hm, rfl⟩ := Option.map_eq_some_iff.mp h
      exact ⟨_, perm.mem_iff.mpr (List.mem_map.mpr ⟨⟨q, m⟩, AList.mem_lookup_iff.mp hm, rfl⟩), rfl, rfl⟩

/-- As long as no room changes while another socket's Roster for it is captured but not sent, the window of an online client
    that has heard everything shows the room, whatever it showed before the session: a session that is up, the user, and
    everybody else in the room once. -/
theorem window_shows_room (h : Lts.Reach (step cfg) (fun σ a σ' => Orderly cfg σ a σ' ∧ RostersUndisturbed cfg σ a) empty σ)
    {room userId : String} {hd : PeerHandle} {e : Engine} {k : Conn} (on : Online σ room userId hd e k)
    (heard : σ.downstream hd.tx k = []) (told : k.pending = []) (v : View) :
    (e.view v).Shows userId e.cfg.name e.transmit (σ.server.others room userId) := by
  have wf := wf_reach h
  have shown : e.Shown v := by
    refine h.invariant_over (fun _ hr => wf_reach hr) (P := fun σ => ∀ c e, σ.engines c = some e →
      e.running = true → e.Shown v)
      (fun _ _ he => by cases he) (fun _ _ _ wf _ shown _ hs => shown_step wf hs shown) _ e on.engine on.running
  have heralded : Heralded σ :=
    h.invariant_over (fun _ hr => wf_reach hr) (fun _ _ _ _ _ on => by cases on.engine)
      fun _ _ _ wf _ heralded ok hs => heralded_step wf hs ok.1.1 heralded
  have listed : e.Listed := by
    refine (heralded room userId hd e k on).resolve_right ?_
    rintro ⟨peers, hm⟩
    rw [heard, told] at hm
    cases hm
  have names : e.names = σ.server.others room userId := by
    have informed := informed_reach h room userId hd e k on
    rwa [heard, told] at informed
  refine ⟨shown.connected, shown.connecting, shown.transmitting, shown.sigUp (by rw [on.cur]; rfl), ?_⟩
  rw [shown.participants listed, ← names, ← (on.config wf).2]
  exact participants_shown e

end

/-- Alice's window, which showed the lost connection of an earlier session. -/
theorem window_shows_room_connected : ∃ e, connected.engines 0 = some e ∧
    (e.view { sigUp := false, participants := [], connecting := true }).Shows "alice" e.cfg.name e.transmit
      (connected.server.others "r" "alice") := by
  have on : Online connected "r" "alice" ⟨"alice", 0⟩ _ _ := ⟨rfl, rfl, rfl, rfl, rfl, rfl⟩
  refine ⟨_, rfl, @window_shows_room sampleConfig _ ?_ _ _ _ _ _ on rfl rfl _⟩
  exact Lts.Reach.of_execOk (fun _ _ _ => of_decide_eq_true)
    (show Lts.execOk (step sampleConfig)
      (fun σ a σ' => decide (Orderly sampleConfig σ a σ' ∧ RostersUndisturbed sampleConfig σ a)) empty connectActs =
        some connected from rfl)

end Sys

end SquadLink
