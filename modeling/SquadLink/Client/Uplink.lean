import SquadLink.Client.Reactions

/-! The engine loop and the two halves of its signaling connection (`companion-core/src/lib.rs`, `start`).
    Here the engine's `cur` is the receiving half `cur_in` alone, and `curOut` is the sending half; each
    arm of the loop sets and reads them as the source does. -/

namespace SquadLink

/-- The Joins among a client's messages. -/
def ClientMsg.joins : ClientMsg → Bool
  | join _ _ _ _ => true
  | _ => false

/-- `opened` counts the connections opened so far, and `sent` is what went into each. -/
structure Loop where
  engine : Engine
  curOut : Option SocketId
  opened : Nat
  sent : SocketId → List ClientMsg

inductive LoopRound
  /-- The receiving half yields a message. -/
  | message (w : Outcomes) (msg : ServerMsg)
  /-- The receiving half has ended. -/
  | dropped
  /-- The next message of the mesh is forwarded to the current connection. -/
  | uplink
  /-- The reconnect timer fires, and the attempt succeeds. -/
  | connected
  /-- The other arms of the loop, a failed attempt among them. -/
  | event (ev : LocalEvent)

namespace Loop

/-- Sends to the current connection, if there is one. -/
def push (l : Loop) (msgs : List ClientMsg) : Loop :=
  match l.curOut with
  | some s => { l with sent := Function.update l.sent s (l.sent s ++ msgs) }
  | none => l

/-- The loop of an engine whose first connection has been opened and given its Join. -/
def start (cfg : EngineConfig) (c : ClientId) : Loop :=
  { engine := .start cfg c 0
    curOut := some 0
    opened := 1
    sent := Function.update (fun _ => []) 0 [Engine.joinMsg cfg] }

/-- One round of the loop. -/
def step (rtc : Webrtc) (l : Loop) (a : LoopRound) : Option Loop :=
  if !l.engine.running then none
  else match a with
    | .message w msg =>
      if l.engine.cur.isSome then some { l with engine := l.engine.handle rtc w msg } else none
    | .dropped => if l.engine.cur.isSome then some { l with engine := l.engine.lost, curOut := none } else none
    | .uplink =>
      match l.engine.mesh.out with
      | msg :: rest => some { l.push [msg] with engine := { l.engine with mesh := { l.engine.mesh with out := rest } } }
      | [] => none
    | .connected =>
      if l.engine.cur.isNone ∧ l.engine.nextTry.isSome then
        some
          { engine := l.engine.reconnected l.opened
            curOut := some l.opened
            opened := l.opened + 1
            sent := Function.update l.sent l.opened [Engine.joinMsg l.engine.cfg] }
      else none
    | .event ev => (l.engine.onEvent ev).map fun r => { l.push r.2 with engine := r.1 }

/-- What holds in every state of the loop. -/
structure Linked (cfg : EngineConfig) (l : Loop) : Prop where
  config : l.engine.cfg = cfg
  halves : l.curOut = l.engine.cur
  retry : l.engine.nextTry.isSome ↔ l.engine.cur = none
  backoff : 2 ≤ l.engine.backoff ∧ l.engine.backoff ≤ 30
  out : ∀ msg ∈ l.engine.mesh.out, msg.joins = false
  opened : ∀ s, l.engine.cur = some s → s < l.opened
  first : ∀ s < l.opened, ∃ rest, l.sent s = Engine.joinMsg cfg :: rest ∧ ∀ msg ∈ rest, msg.joins = false
  unopened : ∀ s, l.opened ≤ s → l.sent s = []

section
variable {rtc : Webrtc} {cfg : EngineConfig} {l l' : Loop} {e e' : Engine} {ev : LocalEvent} {msgs : List ClientMsg}

/-! ### What the arms do to the timer -/

theorem modifyMember_timer (peer : String) (f : Member → Member) :
    (e.modifyMember peer f).nextTry = e.nextTry ∧ (e.modifyMember peer f).backoff = e.backoff := by
  obtain ⟨members, h⟩ := e.modifyMember_eq peer f
  rw [h]
  exact ⟨rfl, rfl⟩

theorem handle_timer (w : Outcomes) (msg : ServerMsg) :
    (e.handle rtc w msg).nextTry = e.nextTry ∧ (e.handle rtc w msg).backoff = e.backoff := by
  cases msg with
  | ptt userId active => exact modifyMember_timer userId _
  | turn creds =>
    simp only [Engine.handle]
    split
    · exact ⟨rfl, rfl⟩
    · exact ⟨rfl, rfl⟩
  | _ => exact ⟨rfl, rfl⟩

/-- A round that handles no message leaves the timer as it is, or arms it while there is no connection. -/
theorem onEvent_timer (h : e.onEvent ev = some (e', msgs)) :
    (e'.nextTry = e.nextTry ∧ e'.backoff = e.backoff) ∨
      (e.cur = none ∧ e'.nextTry.isSome = true ∧ (e'.backoff = 2 ∨ e'.backoff = min (e.backoff * 2) 30)) := by
  cases ev with
  | reconnectFailed err =>
    simp only [Engine.onEvent] at h
    split at h
    · rename_i down
      cases h
      exact Or.inr ⟨Option.isNone_iff_eq_none.mp down.1, rfl, Or.inr rfl⟩
    · cases h
  | command cmd =>
    cases cmd with
    | toggleTx =>
      cases h
      exact Or.inl ⟨rfl, rfl⟩
    | setTx on =>
      simp only [Engine.onEvent, Engine.command] at h
      split at h
      · cases h
        exact Or.inl ⟨rfl, rfl⟩
      · cases h
        exact Or.inl ⟨rfl, rfl⟩
    | chat text =>
      cases h
      exact Or.inl ⟨rfl, rfl⟩
    | rekey =>
      cases h
      exact Or.inl ⟨rfl, rfl⟩
    | reconnect =>
      simp only [Engine.onEvent, Engine.command] at h
      split at h
      · rename_i down
        cases h
        exact Or.inr ⟨Option.isNone_iff_eq_none.mp down, rfl, Or.inl rfl⟩
      · cases h
        exact Or.inl ⟨rfl, rfl⟩
  | quit =>
    cases h
    exact Or.inl ⟨rfl, rfl⟩
  | mesh ev =>
    cases h
    cases ev with
    | chat sender text => exact Or.inl ⟨rfl, rfl⟩
    | badge peer badge => exact Or.inl (modifyMember_timer peer _)
  | candidate pc text =>
    cases h
    exact Or.inl ⟨rfl, rfl⟩
  | dataChannel pc =>
    cases h
    exact Or.inl ⟨rfl, rfl⟩
  | rehash peers =>
    simp only [Engine.onEvent] at h
    split at h
    · cases h
      exact Or.inl ⟨rfl, rfl⟩
    · cases h

/-! ### What a round keeps -/

theorem joins_of_dest {msg : ClientMsg} (h : msg.dest.isSome = true) : msg.joins = false := by
  cases msg <;> first | rfl | cases h

theorem joins_of_grows {m m' : Mesh} (h : Mesh.Grows m m') (hm : ∀ msg ∈ m.out, msg.joins = false) :
    ∀ msg ∈ m'.out, msg.joins = false := by
  obtain ⟨ms, hout, -, hdest⟩ := h.sends
  rw [hout]
  intro msg hmsg
  rcases List.mem_append.mp hmsg with hmsg | hmsg
  · exact hm msg hmsg
  · exact joins_of_dest (hdest msg hmsg)

/-- Sending messages that are no Joins leaves every connection with its Join in front. -/
theorem Linked.push (h : Linked cfg l) (hmsgs : ∀ msg ∈ msgs, msg.joins = false) (s : SocketId) :
    (s < l.opened → ∃ rest, (l.push msgs).sent s = Engine.joinMsg cfg :: rest ∧ ∀ msg ∈ rest, msg.joins = false) ∧
      (l.opened ≤ s → (l.push msgs).sent s = []) := by
  unfold Loop.push
  cases hcur : l.curOut with
  | none => exact ⟨h.first s, h.unopened s⟩
  | some t =>
    by_cases hs : s = t
    · subst hs
      have hlt : s < l.opened := h.opened s (h.halves.symm.trans hcur)
      refine ⟨fun _ => ?_, fun hle => absurd hlt (not_lt.mpr hle)⟩
      obtain ⟨rest, hrest, hnone⟩ := h.first s hlt
      refine ⟨rest ++ msgs, by simp [hrest], fun msg hm => ?_⟩
      exact (List.mem_append.mp hm).elim (hnone msg) (hmsgs msg)
    · simp only [Function.update_of_ne hs]
      exact ⟨h.first s, h.unopened s⟩

/-- A round on the current connection, or without one, that sends no Join. -/
theorem Linked.round (h : Linked cfg l) (hcfg : e'.cfg = l.engine.cfg) (hcur : e'.cur = l.engine.cur)
    (timer : (e'.nextTry = l.engine.nextTry ∧ e'.backoff = l.engine.backoff) ∨
      (l.engine.cur = none ∧ e'.nextTry.isSome = true ∧ (e'.backoff = 2 ∨ e'.backoff = min (l.engine.backoff * 2) 30)))
    (hout : ∀ msg ∈ e'.mesh.out, msg.joins = false) (hmsgs : ∀ msg ∈ msgs, msg.joins = false) :
    Linked cfg { l.push msgs with engine := e' } := by
  have hpush : (l.push msgs).curOut = l.curOut ∧ (l.push msgs).opened = l.opened := by
    unfold Loop.push
    split <;> exact ⟨rfl, rfl⟩
  have := h.backoff
  refine ⟨hcfg.trans h.config, ?_, ?_, ?_, hout, ?_, fun s hs => ?_, fun s hs => ?_⟩
  · exact hpush.1.trans (h.halves.trans hcur.symm)
  · show e'.nextTry.isSome ↔ e'.cur = none
    rw [hcur]
    rcases timer with ⟨htry, -⟩ | ⟨hnone, htry, -⟩
    · rw [htry]
      exact h.retry
    · exact iff_of_true htry hnone
  · show 2 ≤ e'.backoff ∧ e'.backoff ≤ 30
    rcases timer with ⟨-, hb⟩ | ⟨-, -, hb | hb⟩ <;> omega
  · intro s hs
    show s < (l.push msgs).opened
    rw [hpush.2]
    exact h.opened s (hcur.symm.trans hs)
  · exact (h.push hmsgs s).1 (hpush.2 ▸ hs)
  · exact (h.push hmsgs s).2 (hpush.2 ▸ hs)

theorem push_nil : l.push [] = l := by
  unfold push
  split
  · rename_i s hs
    rw [List.append_nil, Function.update_eq_self]
  · rfl

theorem Linked.dropped (h : Linked cfg l) : Linked cfg { l with engine := l.engine.lost, curOut := none } :=
  ⟨h.config, rfl, iff_of_true rfl rfl, ⟨le_refl 2, by show 2 ≤ 30; decide⟩, h.out, nofun, h.first, h.unopened⟩

/-- A new connection gets its Join before anything else. -/
theorem Linked.connected (h : Linked cfg l) :
    Linked cfg
      { engine := l.engine.reconnected l.opened
        curOut := some l.opened
        opened := l.opened + 1
        sent := Function.update l.sent l.opened [Engine.joinMsg l.engine.cfg] } := by
  refine ⟨h.config, rfl, iff_of_false Bool.false_ne_true nofun, ⟨le_refl 2, by show 2 ≤ 30; decide⟩, h.out, fun s hs => ?_,
    fun s hs => ?_, fun s hs => ?_⟩
  · cases hs
    exact Nat.lt_succ_self _
  · by_cases hnew : s = l.opened
    · subst hnew
      exact ⟨[], by simp [h.config], nofun⟩
    · obtain ⟨rest, hrest, hnone⟩ := h.first s (lt_of_le_of_ne (Nat.le_of_lt_succ hs) hnew)
      exact ⟨rest, (Function.update_of_ne hnew ..).trans hrest, hnone⟩
  · have hle : l.opened + 1 ≤ s := hs
    have hne : s ≠ l.opened := by omega
    exact (Function.update_of_ne hne ..).trans (h.unopened s (by omega))

theorem linked_step {a : LoopRound} (h : Linked cfg l) (hs : l.step rtc a = some l') : Linked cfg l' := by
  unfold step at hs
  split at hs
  · cases hs
  · cases a with
    | message w msg =>
      simp only at hs
      split at hs
      · cases hs
        have hout := joins_of_grows (Mesh.react_grows rtc w l.engine.cfg.relayEnabled l.engine.mesh msg) h.out
        rw [← Engine.handle_mesh] at hout
        have quiet : ∀ m ∈ ([] : List ClientMsg), m.joins = false := nofun
        have := h.round (Engine.handle_cfg msg) (Engine.handle_cur msg) (Or.inl (handle_timer w msg)) hout quiet
        rwa [push_nil] at this
      · cases hs
    | dropped =>
      simp only at hs
      split at hs
      · cases hs
        exact h.dropped
      · cases hs
    | uplink =>
      simp only at hs
      split at hs
      · rename_i msg rest hout
        cases hs
        have hjoins : ∀ m ∈ msg :: rest, m.joins = false := hout ▸ h.out
        exact h.round rfl rfl (Or.inl ⟨rfl, rfl⟩) (fun m hm => hjoins m (List.mem_cons_of_mem msg hm))
          fun m hm => hjoins m (List.mem_singleton.mp hm ▸ List.mem_cons_self)
      · cases hs
    | connected =>
      simp only at hs
      split at hs
      · cases hs
        exact h.connected
      · cases hs
    | event ev =>
      obtain ⟨⟨e', msgs⟩, hev, rfl⟩ := Option.map_eq_some_iff.mp hs
      obtain ⟨hcfg, hcur, idles, -, hmsgs, -⟩ := Engine.onEvent_spec hev
      refine h.round hcfg hcur (onEvent_timer hev) (joins_of_grows idles.grows h.out) fun msg hm => ?_
      rcases hmsgs msg hm with ⟨on, rfl⟩ | ⟨rfl, -⟩
      · rfl
      · rfl

theorem linked_start (cfg : EngineConfig) (c : ClientId) : Linked cfg (start cfg c) := by
  refine ⟨rfl, rfl, iff_of_false Bool.false_ne_true nofun, ⟨le_refl 2, by show 2 ≤ 30; decide⟩, nofun, fun s hs => ?_,
    fun s hs => ?_, fun s hs => ?_⟩
  · cases hs
    exact Nat.zero_lt_one
  · have : s = 0 := Nat.lt_one_iff.mp hs
    subst this
    exact ⟨[], rfl, nofun⟩
  · have hne : s ≠ 0 := Nat.one_le_iff_ne_zero.mp hs
    show Function.update (fun _ => []) 0 _ s = []
    rw [Function.update_of_ne hne]

theorem linked_reach {c : ClientId} (h : Lts.Reach (step rtc) Lts.anyStep (start cfg c) l) : Linked cfg l :=
  h.invariant (linked_start cfg c) fun _ _ _ inv _ hs => linked_step inv hs

/-- While the loop runs without a connection, an attempt to reconnect is enabled. -/
theorem attempt_enabled {c : ClientId} (h : Lts.Reach (step rtc) Lts.anyStep (start cfg c) l)
    (running : l.engine.running = true) (down : l.engine.cur = none) : (l.step rtc .connected).isSome = true := by
  have retry := (linked_reach h).retry.mpr down
  simp [step, running, down, retry]

/-- In every state of the loop its two halves are both there or both not, a reconnect attempt is scheduled
    exactly when they are not, the delay is between 2 and 30 seconds, and every connection opened so far was
    given one Join, as its first message. -/
theorem never_stuck_offline {c : ClientId} (h : Lts.Reach (step rtc) Lts.anyStep (start cfg c) l) :
    (l.engine.cur.isSome ↔ l.curOut.isSome) ∧ (l.engine.nextTry.isSome ↔ l.engine.cur = none ∧ l.curOut = none) ∧
      (2 ≤ l.engine.backoff ∧ l.engine.backoff ≤ 30) ∧
      ∀ s < l.opened, ∃ rest, l.sent s = Engine.joinMsg cfg :: rest ∧ ∀ msg ∈ rest, msg.joins = false := by
  have linked := linked_reach h
  refine ⟨by rw [linked.halves], ?_, linked.backoff, linked.first⟩
  rw [linked.halves, and_self_iff]
  exact linked.retry

/-- The first connection ends, an attempt fails, and a manual one succeeds. -/
def outageActs : List LoopRound :=
  [.event (.command .toggleTx), .dropped, .event (.command .rekey), .event (.reconnectFailed "refused"),
    .event (.command .reconnect), .connected, .event (.command .rekey)]

def outageConfig : EngineConfig := { room := "r", userId := "alice", name := "Alice", token := none, relayEnabled := false }

def afterOutage : Loop :=
  (Lts.exec (step { sdpText := fun _ => "", parsesIce := fun _ => true }) (start outageConfig 0) outageActs).getD
    (start outageConfig 0)

theorem never_stuck_offline_outage : afterOutage.opened = 2 ∧
    ∀ s < 2, ∃ rest, afterOutage.sent s = Engine.joinMsg outageConfig :: rest ∧ ∀ msg ∈ rest, msg.joins = false := by
  have ran : Lts.exec (step { sdpText := fun _ => "", parsesIce := fun _ => true }) (start outageConfig 0) outageActs =
      some afterOutage := rfl
  exact ⟨rfl, (never_stuck_offline (Lts.Reach.of_exec (fun _ _ _ _ => trivial) ran)).2.2.2⟩

end

end Loop

end SquadLink
