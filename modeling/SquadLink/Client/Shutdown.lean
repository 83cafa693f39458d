import SquadLink.Client.Edits

/-! How a client leaves. The engine loop and the two tasks of its WebSocket (`companion-core/src/signaling.rs`,
    `connect`) each notice a neighbour's end at their own next event: the writer task when its channel is
    closed, the reader task when a message from the server finds nobody to take it. The connection
    closes when both tasks have dropped their half of it. -/

namespace SquadLink

/-- What the WebSocket's stream yields to the reader task. -/
inductive WsItem
  /-- A text frame that parses. -/
  | text (msg : ServerMsg)
  /-- Ping, pong, binary, or text that does not parse. -/
  | noise
  /-- The stream ends or fails. -/
  | eof
deriving DecidableEq, Repr

/-- The item ends a reader task that has nobody to forward to. -/
def WsItem.wakes : WsItem → Bool
  | text _ | eof => true
  | noise => false

/-- The engine with the tasks of its newest signaling connection. `handle` says that the frontend holds the
    `Engine` and `cmds` what came through it; `writer` and `reader` that the tasks live, and with them the
    halves of the WebSocket; `out` and `inbox` are their channels to the loop, `unread` is what the
    server has sent, and `sent` what has been written. -/
structure Client where
  engine : Engine
  handle : Bool := true
  cmds : List Cmd := []
  out : List ClientMsg
  writer : Bool := true
  unread : List WsItem := []
  reader : Bool := true
  inbox : List ServerMsg := []
  sent : List ClientMsg := []

inductive ClientAct
  /-- The frontend calls a method of the handle. -/
  | command (cmd : Cmd)
  /-- The frontend drops the handle. -/
  | dropHandle
  /-- Something reaches the client's end of the WebSocket. -/
  | arrive (item : WsItem)
  /-- The mesh, the library or the reconnect timer gives the loop something to do. -/
  | event (ev : LocalEvent)
  | reconnect (s : SocketId)
  /-- The loop's arms: a command, the end of the commands, a message, the end of the messages, the uplink. -/
  | takeCommand
  | exit
  | takeMsg (w : Outcomes)
  | lost
  | uplink
  /-- The writer task sends a message, fails to send one or a ping, or finds its channel closed. -/
  | writeOut
  | writeFail
  | writeEnd
  /-- The reader task takes the next item. -/
  | read

/-- The act is a step of one of the client's tasks that waits for no timer and for nothing from outside. -/
def ClientAct.isTask : ClientAct → Bool
  | takeCommand | exit | takeMsg _ | lost | uplink | writeOut | writeEnd | read => true
  | _ => false

/-- The event comes from the mesh, the library or the timer, and not through the handle. -/
def LocalEvent.isOutside : LocalEvent → Bool
  | command _ | quit => false
  | _ => true

namespace Client

def start (cfg : EngineConfig) (c : ClientId) (s : SocketId) : Client :=
  { engine := .start cfg c s, out := [Engine.joinMsg cfg] }

section
variable (rtc : Webrtc) (c : Client)

/-- The loop holds the channels to the tasks. -/
def attached : Bool := c.engine.running && c.engine.cur.isSome

/-- Sends to the writer task of the current connection, if it is there. -/
def push (cur : Option SocketId) (msgs : List ClientMsg) : Client :=
  if cur.isSome && c.writer then { c with out := c.out ++ msgs } else c

def step : ClientAct → Option Client
  | .command cmd => if c.handle then some { c with cmds := c.cmds ++ [cmd] } else none
  | .dropHandle => if c.handle then some { c with handle := false } else none
  | .arrive item => some { c with unread := c.unread ++ [item] }
  | .event ev =>
    if c.engine.running ∧ ev.isOutside then
      (c.engine.onEvent ev).map fun r => { c.push c.engine.cur r.2 with engine := r.1 }
    else none
  | .reconnect s =>
    if c.engine.running ∧ c.engine.cur.isNone ∧ c.engine.nextTry.isSome then
      some { c with
        engine := c.engine.reconnected s
        out := [Engine.joinMsg c.engine.cfg], writer := true, unread := [], reader := true, inbox := [] }
    else none
  | .takeCommand =>
    if c.engine.running then
      match c.cmds with
      | cmd :: rest =>
        let (engine, msgs) := c.engine.command cmd
        some { c.push c.engine.cur msgs with engine, cmds := rest }
      | [] => none
    else none
  | .exit => if c.engine.running ∧ c.cmds = [] ∧ c.handle = false then some { c with engine := c.engine.quit } else none
  | .takeMsg w =>
    if c.attached then
      match c.inbox with
      | msg :: rest => some { c with engine := c.engine.handle rtc w msg, inbox := rest }
      | [] => none
    else none
  | .lost => if c.attached ∧ c.inbox = [] ∧ c.reader = false then some { c with engine := c.engine.lost } else none
  | .uplink =>
    if c.engine.running then
      match c.engine.mesh.out with
      | msg :: rest =>
        some { c.push c.engine.cur [msg] with engine := { c.engine with mesh := { c.engine.mesh with out := rest } } }
      | [] => none
    else none
  | .writeOut =>
    if c.writer then
      match c.out with
      | msg :: rest => some { c with out := rest, sent := c.sent ++ [msg] }
      | [] => none
    else none
  | .writeFail => if c.writer then some { c with writer := false, out := [] } else none
  | .writeEnd => if c.writer ∧ c.out = [] ∧ c.attached = false then some { c with writer := false } else none
  | .read =>
    if c.reader then
      match c.unread with
      | .text msg :: rest =>
        if c.attached then some { c with unread := rest, inbox := c.inbox ++ [msg] }
        else some { c with unread := rest, reader := false }
      | .noise :: rest => some { c with unread := rest }
      | .eof :: rest => some { c with unread := rest, reader := false }
      | [] => none
    else none

end

/-- None of the client's tasks can take a further step by itself. -/
def Quiescent (rtc : Webrtc) (c : Client) : Prop := ∀ a, a.isTask = true → c.step rtc a = none

/-- The client has said that it leaves, or has let go of the connection. -/
def Gone (c : Client) : Prop := .leave ∈ c.sent ∨ (c.writer = false ∧ c.reader = false)

/-! ### Nothing says goodbye -/

/-- No Leave is under way or has been sent. -/
structure Silent (c : Client) : Prop where
  sent : .leave ∉ c.sent
  out : .leave ∉ c.out
  mesh : .leave ∉ c.engine.mesh.out

section
variable {rtc : Webrtc} {c c' : Client} {a : ClientAct}

theorem grows_out {m m' : Mesh} (h : Mesh.Grows m m') (hm : .leave ∉ m.out) : .leave ∉ m'.out := by
  obtain ⟨ms, ho, -, hd⟩ := h.sends
  rw [ho, List.mem_append]
  rintro (hl | hl)
  · exact hm hl
  · exact absurd (hd _ hl) (by simp [ClientMsg.dest])

theorem Silent.push (sil : c.Silent) (cur : Option SocketId) {msgs : List ClientMsg} (hm : .leave ∉ msgs) :
    (c.push cur msgs).Silent := by
  unfold Client.push
  split
  · exact ⟨sil.sent, fun h => (List.mem_append.mp h).elim sil.out hm, sil.mesh⟩
  · exact sil

theorem Silent.withEngine (sil : c.Silent) {e : Engine} (h : Mesh.Grows c.engine.mesh e.mesh) :
    Silent { c with engine := e } := ⟨sil.sent, sil.out, grows_out h sil.mesh⟩

theorem push_engine (cur : Option SocketId) (msgs : List ClientMsg) : (c.push cur msgs).engine = c.engine := by
  unfold Client.push
  split <;> rfl

theorem silent_step (sil : c.Silent) (h : c.step rtc a = some c') : c'.Silent := by
  have event {ev : LocalEvent} {e : Engine} {msgs : List ClientMsg} (h : c.engine.onEvent ev = some (e, msgs)) :
      Silent { c.push c.engine.cur msgs with engine := e } := by
    obtain ⟨-, -, idles, -, hmsgs, -⟩ := Engine.onEvent_spec h
    refine (sil.push c.engine.cur fun hl => ?_).withEngine ?_
    · rcases hmsgs _ hl with ⟨on, h⟩ | ⟨h, -⟩ <;> cases h
    · rw [push_engine]
      exact idles.grows
  cases a with
  | command cmd => cases (Option.ite_none_right_eq_some.mp h).2; exact ⟨sil.sent, sil.out, sil.mesh⟩
  | dropHandle => cases (Option.ite_none_right_eq_some.mp h).2; exact ⟨sil.sent, sil.out, sil.mesh⟩
  | arrive item => cases h; exact ⟨sil.sent, sil.out, sil.mesh⟩
  | event ev =>
    obtain ⟨-, h⟩ := Option.ite_none_right_eq_some.mp h
    obtain ⟨⟨e, msgs⟩, hev, rfl⟩ := Option.map_eq_some_iff.mp h
    exact event hev
  | reconnect s =>
    cases (Option.ite_none_right_eq_some.mp h).2
    exact ⟨sil.sent, by simp [Engine.joinMsg], sil.mesh⟩
  | takeCommand =>
    obtain ⟨-, h⟩ := Option.ite_none_right_eq_some.mp h
    split at h
    · rename_i cmd rest hc
      cases h
      have := @event (.command cmd) (c.engine.command cmd).1 (c.engine.command cmd).2 rfl
      exact ⟨this.sent, this.out, this.mesh⟩
    · cases h
  | exit => cases (Option.ite_none_right_eq_some.mp h).2; exact ⟨sil.sent, sil.out, sil.mesh⟩
  | takeMsg w =>
    obtain ⟨-, h⟩ := Option.ite_none_right_eq_some.mp h
    split at h
    · rename_i msg rest hi
      cases h
      refine ⟨sil.sent, sil.out, grows_out ?_ sil.mesh⟩
      simp only [Engine.handle_mesh]
      exact Mesh.react_grows rtc w _ _ msg
    · cases h
  | lost => cases (Option.ite_none_right_eq_some.mp h).2; exact ⟨sil.sent, sil.out, sil.mesh⟩
  | uplink =>
    obtain ⟨-, h⟩ := Option.ite_none_right_eq_some.mp h
    split at h
    · rename_i msg rest ho
      cases h
      have hmesh := sil.mesh
      rw [ho, List.mem_cons, not_or] at hmesh
      have pushed := @Silent.push c sil c.engine.cur [msg] (by simpa using hmesh.1)
      exact ⟨pushed.sent, pushed.out, hmesh.2⟩
    · cases h
  | writeOut =>
    obtain ⟨-, h⟩ := Option.ite_none_right_eq_some.mp h
    split at h
    · rename_i msg rest ho
      cases h
      have hout := sil.out
      rw [ho, List.mem_cons, not_or] at hout
      exact ⟨by simpa using ⟨sil.sent, hout.1⟩, hout.2, sil.mesh⟩
    · cases h
  | writeFail => cases (Option.ite_none_right_eq_some.mp h).2; exact ⟨sil.sent, by simp, sil.mesh⟩
  | writeEnd => cases (Option.ite_none_right_eq_some.mp h).2; exact ⟨sil.sent, sil.out, sil.mesh⟩
  | read =>
    obtain ⟨-, h⟩ := Option.ite_none_right_eq_some.mp h
    split at h
    · split at h <;> (cases h; exact ⟨sil.sent, sil.out, sil.mesh⟩)
    · cases h; exact ⟨sil.sent, sil.out, sil.mesh⟩
    · cases h; exact ⟨sil.sent, sil.out, sil.mesh⟩
    · cases h

end

/-! ### After the loop has ended -/

/-- What reached the client's end of the WebSocket during the acts. -/
def arrivals (acts : List ClientAct) : List WsItem :=
  acts.filterMap fun
    | .arrive item => some item
    | _ => none

/-- How far the reader task has come since the loop ended in `c₁`. -/
structure Since (c₁ : Client) (acts : List ClientAct) (c : Client) : Prop where
  stopped : c.engine.running = false
  /-- A reader task that still waits has seen nothing that would end it. -/
  waiting : c.reader = true → c₁.reader = true ∧
    ∃ done, c₁.unread ++ arrivals acts = done ++ c.unread ∧ ∀ item ∈ done, item.wakes = false
  woken : c.reader = false → c₁.reader = false ∨ ∃ item ∈ c₁.unread ++ arrivals acts, item.wakes = true

section
variable {rtc : Webrtc} {c₁ c c' : Client} {acts : List ClientAct} {a : ClientAct}

theorem Since.refl (h : c.engine.running = false) : Since c [] c :=
  ⟨h, fun hr => ⟨hr, [], by simp [arrivals], nofun⟩, Or.inl⟩

/-- An act that leaves the reader task alone. -/
theorem Since.of_same (h : Since c₁ acts c) (hr : c'.engine.running = false) (hrd : c'.reader = c.reader)
    (hu : c'.unread = c.unread) (ha : arrivals (acts ++ [a]) = arrivals acts) : Since c₁ (acts ++ [a]) c' := by
  refine ⟨hr, fun hw => ?_, fun hw => ?_⟩
  · rw [ha, hu]
    exact h.waiting (hrd ▸ hw)
  · rw [ha]
    exact h.woken (hrd ▸ hw)

/-- The reader task takes an item for which there is nobody any more. -/
theorem Since.take (h : Since c₁ acts c) (reading : c.reader = true) {item : WsItem} {rest : List WsItem}
    (hu : c.unread = item :: rest) (ha : arrivals (acts ++ [a]) = arrivals acts) (hr : c'.engine.running = false)
    (hu' : c'.unread = rest) (hrd : c'.reader = !item.wakes) : Since c₁ (acts ++ [a]) c' := by
  obtain ⟨alive, done, hdone, quiet⟩ := h.waiting reading
  rw [hu] at hdone
  cases hw : item.wakes with
  | true =>
    refine ⟨hr, fun hr' => ?_, fun _ => Or.inr ⟨item, ?_, hw⟩⟩
    · rw [hrd, hw] at hr'
      cases hr'
    · rw [ha, hdone]
      simp
  | false =>
    refine ⟨hr, fun _ => ⟨alive, done ++ [item], ?_, fun x hx => ?_⟩, fun hr' => ?_⟩
    · rw [ha, hdone, hu', List.append_assoc, List.singleton_append]
    · rcases List.mem_append.mp hx with hx | hx
      · exact quiet x hx
      · exact List.mem_singleton.mp hx ▸ hw
    · rw [hrd, hw] at hr'
      cases hr'

theorem Since.step (h : Since c₁ acts c) (hs : c.step rtc a = some c') : Since c₁ (acts ++ [a]) c' := by
  have stopped := h.stopped
  have detached : c.attached = false := by simp [attached, stopped]
  cases a with
  | command cmd => cases (Option.ite_none_right_eq_some.mp hs).2; exact h.of_same stopped rfl rfl (by simp [arrivals])
  | dropHandle => cases (Option.ite_none_right_eq_some.mp hs).2; exact h.of_same stopped rfl rfl (by simp [arrivals])
  | arrive item =>
    cases hs
    have ha : arrivals (acts ++ [.arrive item]) = arrivals acts ++ [item] := by simp [arrivals]
    refine ⟨stopped, fun hr => ?_, fun hr => ?_⟩
    · obtain ⟨alive, done, hdone, quiet⟩ := h.waiting hr
      exact ⟨alive, done, by rw [ha, ← List.append_assoc, hdone, List.append_assoc], quiet⟩
    · refine (h.woken hr).imp_right fun ⟨x, hx, hw⟩ => ⟨x, ?_, hw⟩
      rw [ha, ← List.append_assoc]
      exact List.mem_append_left _ hx
  | writeOut =>
    obtain ⟨-, hs⟩ := Option.ite_none_right_eq_some.mp hs
    split at hs
    · cases hs; exact h.of_same stopped rfl rfl (by simp [arrivals])
    · cases hs
  | writeFail => cases (Option.ite_none_right_eq_some.mp hs).2; exact h.of_same stopped rfl rfl (by simp [arrivals])
  | writeEnd => cases (Option.ite_none_right_eq_some.mp hs).2; exact h.of_same stopped rfl rfl (by simp [arrivals])
  | read =>
    obtain ⟨reading, hs⟩ := Option.ite_none_right_eq_some.mp hs
    split at hs
    · rename_i msg rest hu
      rw [detached, if_neg Bool.false_ne_true] at hs
      cases hs
      exact h.take reading hu (by simp [arrivals]) stopped rfl rfl
    · rename_i rest hu
      cases hs
      exact h.take reading hu (by simp [arrivals]) stopped rfl reading
    · rename_i rest hu
      cases hs
      exact h.take reading hu (by simp [arrivals]) stopped rfl rfl
    · cases hs
  | event ev => exact absurd (Option.ite_none_right_eq_some.mp hs).1.1 (by simp [stopped])
  | reconnect s => exact absurd (Option.ite_none_right_eq_some.mp hs).1.1 (by simp [stopped])
  | takeCommand => exact absurd (Option.ite_none_right_eq_some.mp hs).1 (by simp [stopped])
  | exit => exact absurd (Option.ite_none_right_eq_some.mp hs).1.1 (by simp [stopped])
  | takeMsg w => exact absurd (Option.ite_none_right_eq_some.mp hs).1 (by simp [detached])
  | lost => exact absurd (Option.ite_none_right_eq_some.mp hs).1.1 (by simp [detached])
  | uplink => exact absurd (Option.ite_none_right_eq_some.mp hs).1 (by simp [stopped])

theorem Since.run (hr : c₁.engine.running = false) (h : Lts.Run (Client.step rtc) Lts.anyStep c₁ acts c) :
    Since c₁ acts c := by
  induction h with
  | nil => exact .refl hr
  | snoc a _ _ hs ih => exact ih.step hs

/-! ### Quiescent states -/

/-- Once the handle is dropped, a loop that runs still has a command or the end of the commands to take. -/
theorem Quiescent.stopped (quiet : c.Quiescent rtc) (dropped : c.handle = false) : c.engine.running = false := by
  by_contra hr
  rw [Bool.not_eq_false] at hr
  cases hc : c.cmds with
  | nil =>
    have := quiet .exit rfl
    simp [Client.step, hr, hc, dropped] at this
  | cons cmd rest =>
    have := quiet .takeCommand rfl
    simp [Client.step, hr, hc] at this

theorem Quiescent.writer (quiet : c.Quiescent rtc) (stopped : c.engine.running = false) : c.writer = false := by
  by_contra hw
  rw [Bool.not_eq_false] at hw
  cases ho : c.out with
  | nil =>
    have := quiet .writeEnd rfl
    simp [Client.step, hw, ho, attached, stopped] at this
  | cons msg rest =>
    have := quiet .writeOut rfl
    simp [Client.step, hw, ho] at this

theorem Quiescent.unread (quiet : c.Quiescent rtc) (reading : c.reader = true) : c.unread = [] := by
  cases hu : c.unread with
  | nil => rfl
  | cons item rest =>
    have := quiet .read rfl
    cases item with
    | text msg =>
      simp only [Client.step, reading, hu, ↓reduceIte] at this
      split at this <;> cases this
    | noise => simp [Client.step, reading, hu] at this
    | eof => simp [Client.step, reading, hu] at this

theorem silent_run {cfg : EngineConfig} {cid : ClientId} {s : SocketId}
    (h : Lts.Run (Client.step rtc) Lts.anyStep (start cfg cid s) acts c) : c.Silent :=
  h.reach.invariant ⟨by simp [start], by simp [start, Engine.joinMsg], by simp [start, Engine.start]⟩
    fun _ _ _ sil _ hs => silent_step sil hs

/-- In every quiescent state after the handle was dropped the loop has ended, and the client is gone exactly
    if its reader task had ended by then or the server had or has something more for it. -/
theorem gone_iff_woken {cfg : EngineConfig} {cid : ClientId} {s : SocketId}
    (h : Lts.Run (Client.step rtc) Lts.anyStep (start cfg cid s) acts c) (dropped : c.handle = false)
    (quiet : c.Quiescent rtc) :
    ∃ pre a post c₀ c₁, acts = pre ++ a :: post ∧ Lts.Run (Client.step rtc) Lts.anyStep (start cfg cid s) pre c₀ ∧
      c₀.engine.running = true ∧ c₀.step rtc a = some c₁ ∧ c₁.engine.running = false ∧
      Lts.Run (Client.step rtc) Lts.anyStep c₁ post c ∧
      (c.Gone ↔ c₁.reader = false ∨ ∃ item ∈ c₁.unread ++ arrivals post, item.wakes = true) := by
  have stopped := quiet.stopped dropped
  obtain ⟨pre, a, post, c₀, c₁, hacts, hpre, hr₀, hstep, hr₁, hpost⟩ :=
    h.crosses (P := fun c => c.engine.running = true) rfl (by simp [stopped])
  rw [Bool.not_eq_true] at hr₁
  refine ⟨pre, a, post, c₀, c₁, hacts, hpre, hr₀, hstep, hr₁, hpost, ?_⟩
  have since := Since.run hr₁ hpost
  constructor
  · rintro (leave | ⟨-, hreader⟩)
    · exact absurd leave (silent_run h).sent
    · exact since.woken hreader
  · intro woken
    refine Or.inr ⟨quiet.writer stopped, ?_⟩
    by_contra hreader
    rw [Bool.not_eq_false] at hreader
    obtain ⟨alive, done, hdone, asleep⟩ := since.waiting hreader
    rw [quiet.unread hreader, List.append_nil] at hdone
    rcases woken with hgone | ⟨item, hitem, hwakes⟩
    · rw [alive] at hgone
      cases hgone
    · rw [hdone] at hitem
      rw [asleep item hitem] at hwakes
      cases hwakes

end

/-! A client that joins and leaves, with and without a further message from the server. -/

def sampleRtc : Webrtc := { sdpText := fun _ => "v=0", parsesIce := fun _ => true }

def sampleStart : Client :=
  start { room := "r", userId := "alice", name := "Alice", token := none, relayEnabled := false } 0 0

def leaveActs : List ClientAct := [.writeOut, .dropHandle, .exit, .writeEnd]

/-- The handle is dropped, the loop and the writer task end, and the server says nothing more. -/
def afterLeave : Client := (Lts.exec (Client.step sampleRtc) sampleStart leaveActs).getD sampleStart

def wokenActs : List ClientAct := leaveActs ++ [.arrive (.text (.peerLeft "bob")), .read]

def afterWoken : Client := (Lts.exec (Client.step sampleRtc) sampleStart wokenActs).getD sampleStart

theorem gone_iff_woken_sample : afterWoken.Gone ∧ ∃ pre a post c₀ c₁, wokenActs = pre ++ a :: post ∧
    Lts.Run (Client.step sampleRtc) Lts.anyStep sampleStart pre c₀ ∧
    c₀.engine.running = true ∧ c₀.step sampleRtc a = some c₁ ∧ c₁.engine.running = false ∧
    Lts.Run (Client.step sampleRtc) Lts.anyStep c₁ post afterWoken ∧
    (afterWoken.Gone ↔ c₁.reader = false ∨ ∃ item ∈ c₁.unread ++ arrivals post, item.wakes = true) := by
  have run : Lts.Run (Client.step sampleRtc) Lts.anyStep sampleStart wokenActs afterWoken :=
    Lts.Run.of_exec (show Lts.exec (Client.step sampleRtc) sampleStart wokenActs = some afterWoken from rfl)
  refine ⟨Or.inr ⟨rfl, rfl⟩, gone_iff_woken run rfl fun a ha => ?_⟩
  cases a <;> first | rfl | cases ha

theorem lingers_after_leave : ¬ ∀ acts c, Lts.Run (Client.step sampleRtc) Lts.anyStep sampleStart acts c →
    c.handle = false → c.Quiescent sampleRtc → c.Gone := by
  intro all
  have run : Lts.Run (Client.step sampleRtc) Lts.anyStep sampleStart leaveActs afterLeave :=
    Lts.Run.of_exec (show Lts.exec (Client.step sampleRtc) sampleStart leaveActs = some afterLeave from rfl)
  have quiet : afterLeave.Quiescent sampleRtc := fun a ha => by cases a <;> first | rfl | cases ha
  rcases all leaveActs afterLeave run rfl quiet with leave | ⟨-, hreader⟩
  · exact absurd leave (by decide)
  · cases hreader

end Client

end SquadLink
