import SquadLink.Server.Deliveries
import SquadLink.Server.Supersession

/-! Relay fidelity. Between two members of a room the server is a FIFO channel for the messages that it
    relays: what its reader loop gets from the one for the other is what it places in the other's queue. -/

namespace SquadLink

/-- The messages the server relays from one member to another. -/
def ServerMsg.isRelayed : ServerMsg → Bool
  | offer _ _ | answer _ _ | ice _ _ => true
  | _ => false

/-- What becomes of a message of `sender` for `dest` that is within its size limit. -/
def ClientMsg.relayedAs (sender dest : String) : ClientMsg → Option ServerMsg
  | offer d sdp => if d = dest ∧ sdp.text.utf8ByteSize ≤ maxSdp then some (.offer sender sdp) else none
  | answer d sdp => if d = dest ∧ sdp.text.utf8ByteSize ≤ maxSdp then some (.answer sender sdp) else none
  | ice d candidate => if d = dest ∧ candidate.text.utf8ByteSize ≤ maxIce then some (.ice sender candidate) else none
  | _ => none

/-- The step is the receipt from socket `s`, whose user is `sender`, of that message for `dest`. -/
def SAct.receives (s : SocketId) (sender dest : String) : SAct → Option ServerMsg
  | .frame t (.text msg) => if t = s then msg.relayedAs sender dest else none
  | _ => none

namespace Event

/-- The relayed message that the event places in the queue of `t` under the user id `sender`. -/
def relayedTo (t : SocketId) (sender : String) : Event → Option ServerMsg
  | placed _ dest msg => if dest = t ∧ msg.isRelayed = true ∧ msg.stamp = some sender then some msg else none
  | accepted _ _ _ _ => none

/-- The event places a relayed message. -/
def places : Event → Bool
  | placed _ _ msg => msg.isRelayed
  | accepted _ _ _ _ => false

theorem relayedTo_of_not_places {t : SocketId} {sender : String} :
    ∀ {ev : Event}, ev.places = false → ev.relayedTo t sender = none
  | placed _ _ msg, h => by simp [relayedTo, show msg.isRelayed = false from h]
  | accepted _ _ _ _, _ => rfl

end Event

namespace Server

/-- The step adds no relayed message to the history. -/
def RelaysNothing (st st' : Server) : Prop := ∃ evs, st'.history = st.history ++ evs ∧ ∀ ev ∈ evs, ev.places = false

section
variable {cfg : ServerConfig} {st : Server} {s : SocketId}

theorem RelaysNothing.refl : RelaysNothing st st := ⟨[], by simp, nofun⟩

theorem relaysNothing_sendAll {out : List (SocketId × ServerMsg)} (hout : ∀ p ∈ out, p.2.isRelayed = false) :
    RelaysNothing st (st.sendAll s out) := by
  obtain ⟨evs, hevs, hall⟩ := st.sendAll_history s out
  refine ⟨evs, hevs, fun ev hev => ?_⟩
  obtain ⟨dest, msg, rfl, hm⟩ := hall ev hev
  exact hout _ hm

theorem relaysNothing_broadcast {r : Room} {g : String → Option ServerMsg}
    (hg : ∀ id msg, g id = some msg → msg.isRelayed = false) :
    ∀ p ∈ Fifo.broadcast PeerHandle.tx g r, p.2.isRelayed = false := by
  intro p hp
  obtain ⟨id, h, -, -, hx⟩ := Fifo.mem_broadcast.mp hp
  exact hg id _ hx

theorem relaysNothing_cleanup (me : Option (String × String)) : RelaysNothing st (st.cleanup s me) := by
  obtain ⟨evs, hevs, hall⟩ := st.cleanup_history s me
  refine ⟨evs, hevs, fun ev hev => ?_⟩
  obtain ⟨_, _, _, _, -, -, -, rfl⟩ := hall ev hev
  rfl

theorem relaysNothing_joinSends (r : Room) (userId name : String) :
    ∀ p ∈ joinSends r s userId name, p.2.isRelayed = false := by
  intro p hp
  simp only [joinSends, List.mem_append, Option.mem_toList, Option.map_eq_some_iff] at hp
  rcases hp with (⟨old, -, rfl⟩ | hp) | hp
  · rfl
  · refine relaysNothing_broadcast (fun id msg hm => ?_) p hp
    simp only [ne_eq, ite_not, Option.ite_none_left_eq_some, Option.some.injEq] at hm
    rw [← hm.2]
    rfl
  · split at hp
    · exact relaysNothing_broadcast (fun id msg hm => by cases hm; rfl) p hp
    · cases hp

theorem relaysNothing_join (me : Option (String × String)) (room userId name : String) (token : Option String) :
    RelaysNothing st (st.join cfg s me room userId name token) := by
  have refused : ∀ msg : ServerMsg, msg.isRelayed = false → RelaysNothing st ((st.trySend s s msg).finish s) :=
    fun msg hm => @relaysNothing_sendAll st s [(s, msg)] (by simpa using hm)
  unfold join
  split
  · exact @relaysNothing_sendAll st s [(s, _)] (by simp [ServerMsg.isRelayed])
  · split
    · exact refused _ rfl
    · split
      · exact refused _ rfl
      · split
        · exact refused _ rfl
        · obtain ⟨evs, hevs, hall⟩ := st.enroll_history s room userId name token
          refine ⟨_, hevs, fun ev hev => ?_⟩
          rcases List.mem_cons.mp hev with rfl | hev
          · rfl
          · obtain ⟨dest, msg, rfl, hm⟩ := hall ev hev
            exact relaysNothing_joinSends _ userId name _ hm

theorem relaysNothing_toRoom (room : String) (g : String → Option ServerMsg)
    (hg : ∀ id msg, g id = some msg → msg.isRelayed = false) :
    RelaysNothing st (st.toRoom s room g) := by
  rw [toRoom_eq]
  exact relaysNothing_sendAll (relaysNothing_broadcast hg)

end

/-! ### One step -/

/-- Both sockets are joined to the room, and the queue of the receiving one is not full. -/
structure BothJoined (room : String) (a : SocketId) (ua : String) (b : SocketId) (ub : String) (st : Server) : Prop where
  sender : st.ident a = some (room, ua)
  receiver : st.ident b = some (room, ub)
  unfilled : ∀ k ∈ st.conns b, k.queue.length < peerChan

instance (room : String) (a : SocketId) (ua : String) (b : SocketId) (ub : String) (st : Server) :
    Decidable (BothJoined room a ua b ub st) :=
  decidable_of_iff (st.ident a = some (room, ua) ∧ st.ident b = some (room, ub) ∧
    ∀ k ∈ st.conns b, k.queue.length < peerChan) ⟨fun ⟨h₁, h₂, h₃⟩ => ⟨h₁, h₂, h₃⟩, fun ⟨h₁, h₂, h₃⟩ => ⟨h₁, h₂, h₃⟩⟩

/-- The writer task of the socket still holds the queue's receiver. -/
def WriterRuns (b : SocketId) (st : Server) : Prop := ∀ k ∈ st.conns b, k.rxOpen = true

instance (b : SocketId) (st : Server) : Decidable (WriterRuns b st) := by
  unfold WriterRuns
  infer_instance

section
variable {cfg : ServerConfig} {st st' : Server} {room ua ub : String} {a b s : SocketId}

/-- What the relay of a message for `dest` adds to the history. -/
theorem relayTo_history (inv : Inv cfg st) (listed : IdentsListedIn st room) (both : BothJoined room a ua b ub st)
    (runs : WriterRuns b st) {me : Option (String × String)} (hi : st.ident s = me) (dest : String)
    {build : String → ServerMsg} (stamp : ∀ x, (build x).stamp = some x) :
    ∃ evs, (st.relayTo s me dest build).history = st.history ++ evs ∧
      if s = a ∧ dest = ub then evs = [.placed a b (build ua)] else evs.filterMap (Event.relayedTo b ua) = [] := by
  obtain ⟨hb, lookup, htx⟩ := listed b ub both.receiver
  by_cases hfor : s = a ∧ dest = ub
  · obtain ⟨rfl, rfl⟩ := hfor
    obtain ⟨k, hk, -⟩ := Option.bind_eq_some_iff.mp both.receiver
    have accepts : k.accepts = true := by
      rw [Conn.accepts, runs k hk, Bool.true_and]
      exact decide_eq_true (both.unfilled k hk)
    refine ⟨[.placed s b (build ua)], ?_, by rw [if_pos ⟨rfl, rfl⟩]⟩
    rw [← hi, both.sender]
    simp [relayTo, lookup, htx, trySend, hk, accepts]
  · rw [relayTo_eq]
    obtain ⟨evs, hevs, hall⟩ := st.sendAll_history s (relaySends st me dest build)
    refine ⟨evs, hevs, ?_⟩
    rw [if_neg hfor, List.filterMap_eq_nil_iff]
    intro ev hev
    obtain ⟨d, msg, rfl, hm⟩ := hall ev hev
    unfold relaySends at hm
    cases me with
    | none => cases hm
    | some p =>
      obtain ⟨room', sender⟩ := p
      obtain ⟨h, hh, he⟩ := Option.map_eq_some_iff.mp (Option.mem_toList.mp hm)
      cases he
      refine if_neg fun hg => hfor ?_
      obtain ⟨hd, -, hua⟩ := hg
      rw [stamp, Option.some.injEq] at hua
      subst hua
      -- Only the entry of `b` leads to its queue, and only `a` acts as its user in the room.
      obtain ⟨rfl, rfl⟩ := inv.entry_unique lookup ((roomOf_lookup ..).trans hh) (hd.trans htx.symm)
      obtain ⟨h₁, hl₁, htx₁⟩ := listed s sender hi
      obtain ⟨h₂, hl₂, htx₂⟩ := listed a sender both.sender
      cases hl₁.symm.trans hl₂
      exact ⟨htx₁.symm.trans htx₂, rfl⟩

/-- Users of a joined socket have ids within the bound. -/
theorem lenOk_of_ident (inv : Inv cfg st) (h : st.ident b = some (room, ub)) : lenOk ub maxId = true := by
  obtain ⟨token, hacc⟩ := inv.joined b room ub h
  obtain ⟨-, -, ⟨name, hbounds⟩, -⟩ := inv.accepted b room ub token hacc
  simp only [joinOutOfBounds, Bool.or_eq_false_iff, Bool.not_eq_false'] at hbounds
  exact hbounds.1.1.2

/-- What a step adds to the history, if its action receives `msg` for `b` or no such message. -/
def Relays (a : SocketId) (ua : String) (b : SocketId) (msg : Option ServerMsg) (st st' : Server) : Prop :=
  ∃ evs, st'.history = st.history ++ evs ∧ evs.filterMap (Event.relayedTo b ua) = msg.toList ∧
    ∀ m, msg = some m → evs = [.placed a b m]

theorem Relays.of_nothing (h : RelaysNothing st st') : Relays a ua b none st st' := by
  obtain ⟨evs, hevs, hall⟩ := h
  exact ⟨evs, hevs, List.filterMap_eq_nil_iff.mpr fun ev hev => Event.relayedTo_of_not_places (hall ev hev), nofun⟩

/-- The relaying arms: a bounded message for `dest`, or one that is dropped. -/
theorem relays_arm (inv : Inv cfg st) (listed : IdentsListedIn st room) (both : BothJoined room a ua b ub st)
    (runs : WriterRuns b st) {me : Option (String × String)} (hi : st.ident s = me) (dest : String) (size max : Nat)
    {build : String → ServerMsg} (kind : ∀ x, (build x).isRelayed = true) (stamp : ∀ x, (build x).stamp = some x) :
    Relays a ua b (if s = a then if dest = ub ∧ size ≤ max then some (build ua) else none else none) st
      (if !lenOk dest maxId || decide (max < size) then st else st.relayTo s me dest build) := by
  by_cases hdrop : (!lenOk dest maxId || decide (max < size)) = true
  · rw [if_pos hdrop]
    have hexp : (if s = a then if dest = ub ∧ size ≤ max then some (build ua) else none else none) = none := by
      split
      · refine if_neg fun ⟨hd, hsize⟩ => ?_
        subst hd
        simp [lenOk_of_ident inv both.receiver, Nat.not_lt.mpr hsize] at hdrop
      · rfl
    rw [hexp]
    exact .of_nothing .refl
  · rw [if_neg hdrop]
    have hsize : size ≤ max := by
      simp only [Bool.or_eq_true, decide_eq_true_eq, not_or, Nat.not_lt] at hdrop
      exact hdrop.2
    obtain ⟨evs, hevs, hplaced⟩ := relayTo_history inv listed both runs hi dest stamp
    refine ⟨evs, hevs, ?_⟩
    by_cases hfor : s = a ∧ dest = ub
    · rw [if_pos hfor] at hplaced
      rw [if_pos hfor.1, if_pos ⟨hfor.2, hsize⟩, hplaced]
      refine ⟨by simp [Event.relayedTo, kind, stamp], fun m hm => ?_⟩
      cases hm
      rfl
    · rw [if_neg hfor] at hplaced
      have hexp : (if s = a then if dest = ub ∧ size ≤ max then some (build ua) else none else none) = none := by
        split
        · exact if_neg fun h => hfor ⟨‹_›, h.1⟩
        · rfl
      rw [hexp]
      exact ⟨hplaced, nofun⟩

/-- One step: what `a` sent to `b`'s user goes to the end of `b`'s queue and nowhere else, and nothing
    else comes to that queue under `a`'s user. -/
theorem step_relays (inv : Inv cfg st) (listed : IdentsListedIn st room) (both : BothJoined room a ua b ub st)
    (runs : WriterRuns b st) {act : SAct} (hs : step cfg st act = some st') :
    Relays a ua b (act.receives a ua ub) st st' := by
  have unchanged (h : st'.history = st.history) : Relays a ua b none st st' := .of_nothing ⟨[], by simp [h], nofun⟩
  cases act with
  | accept => cases Option.some.inj hs; exact unchanged rfl
  | restart => cases Option.some.inj hs; exact unchanged rfl
  | write s => obtain ⟨_, -, -, rfl⟩ := step_write_inv hs; exact unchanged rfl
  | writeFail s => obtain ⟨_, -, -, rfl⟩ := step_writeFail_inv hs; exact unchanged rfl
  | abort s => obtain ⟨_, -, -, rfl⟩ := step_abort_inv hs; exact unchanged rfl
  | rehash room r => obtain ⟨_, -, -, rfl⟩ := step_rehash_inv hs; exact unchanged rfl
  | close s =>
    obtain ⟨c, -, -, rfl⟩ := step_close_inv hs
    exact .of_nothing (relaysNothing_cleanup c.me)
  | finishJoin s now =>
    obtain ⟨c, room', userId, roster, -, -, rfl⟩ := step_finishJoin_inv hs
    refine .of_nothing (@relaysNothing_sendAll st s (finishSends cfg s now userId roster) fun p hp => ?_)
    rcases List.mem_cons.mp hp with rfl | hp
    · rfl
    · obtain ⟨t, -, rfl⟩ := Option.map_eq_some_iff.mp (Option.mem_toList.mp hp)
      rfl
  | frame s f =>
    obtain ⟨c, hc, hr, rfl⟩ := step_frame_inv hs
    have hi := ident_of_reading hc hr
    cases f with
    | badText err => exact .of_nothing (@relaysNothing_sendAll st s [(s, _)] (by simp [ServerMsg.isRelayed]))
    | close => exact .of_nothing (relaysNothing_cleanup c.me)
    | other => exact unchanged rfl
    | text msg =>
      have nothing (hmsg : msg.relayedAs ua ub = none) (h : RelaysNothing st (st.handleFrame cfg s c.me (.text msg))) :
          Relays a ua b ((SAct.frame s (.text msg)).receives a ua ub) st (st.handleFrame cfg s c.me (.text msg)) := by
        rw [SAct.receives, hmsg, ite_self]
        exact .of_nothing h
      cases msg with
      | offer dest sdp => exact relays_arm inv listed both runs hi dest _ _ (fun _ => rfl) (fun _ => rfl)
      | answer dest sdp => exact relays_arm inv listed both runs hi dest _ _ (fun _ => rfl) (fun _ => rfl)
      | ice dest candidate => exact relays_arm inv listed both runs hi dest _ _ (fun _ => rfl) (fun _ => rfl)
      | join room' userId name token => exact nothing rfl (relaysNothing_join c.me room' userId name token)
      | leave => exact nothing rfl (relaysNothing_cleanup c.me)
      | ptt active =>
        refine nothing rfl ?_
        simp only [handleFrame, handleMsg, ptt]
        split
        · exact .refl
        · refine relaysNothing_toRoom _ _ fun id msg hm => ?_
          simp only [ne_eq, ite_not, Option.ite_none_left_eq_some, Option.some.injEq] at hm
          rw [← hm.2]
          rfl
      | rekey =>
        refine nothing rfl ?_
        simp only [handleFrame, handleMsg, rekey]
        split
        · exact .refl
        · exact relaysNothing_toRoom _ _ fun id msg hm => by cases hm; rfl

end

/-! ### A whole interval -/

/-- Over an interval with the given actions, `b`'s queue got under `a`'s user exactly what the server
    received from `a` for `b`'s user, in that order, and no step placed any of it elsewhere. -/
structure RelayFaithful (cfg : ServerConfig) (a : SocketId) (ua : String) (b : SocketId) (ub : String) (st₀ : Server)
    (acts : List SAct) (st₁ : Server) : Prop where
  channel : ∃ evs, st₁.history = st₀.history ++ evs ∧
    evs.filterMap (Event.relayedTo b ua) = acts.filterMap (SAct.receives a ua ub)
  nowhereElse : ∀ pre act post msg, acts = pre ++ act :: post → act.receives a ua ub = some msg →
    ∃ st st', Lts.Run (step cfg) Lts.anyStep st₀ pre st ∧ step cfg st act = some st' ∧
      Lts.Run (step cfg) Lts.anyStep st' post st₁ ∧ st'.history = st.history ++ [.placed a b msg]

section
variable {cfg : ServerConfig} {st₀ st₁ : Server} {room ua ub : String} {a b : SocketId} {acts : List SAct}

/-- Between two members of a room in which no Join ever supersedes a socket, the server relays faithfully
    as long as the receiver's queue does not fill and its writer task runs. -/
theorem relay_faithful
    (h₀ : Lts.Reach (step cfg) (fun st act _ => supersedesIn cfg st room act = false) empty st₀)
    (both₀ : BothJoined room a ua b ub st₀) (runs₀ : WriterRuns b st₀)
    (h : Lts.Run (step cfg) (fun st act st' => supersedesIn cfg st room act = false ∧ BothJoined room a ua b ub st' ∧
      WriterRuns b st') st₀ acts st₁) : RelayFaithful cfg a ua b ub st₀ acts st₁ := by
  have listed₀ : Inv cfg st₀ ∧ IdentsListedIn st₀ room :=
    ⟨inv_reach h₀, h₀.invariant_over (fun _ hr => (inv_reach hr : Inv cfg _)) (fun s userId hi => by cases hi)
      fun _ _ _ inv _ listed sole hs => identsListedIn_step inv sole hs listed⟩
  -- What every state of the interval is like.
  have during : ∀ {acts st}, Lts.Run (step cfg) (fun st act st' => supersedesIn cfg st room act = false ∧
      BothJoined room a ua b ub st' ∧ WriterRuns b st') st₀ acts st →
      (Inv cfg st ∧ IdentsListedIn st room) ∧ BothJoined room a ua b ub st ∧ WriterRuns b st := fun hr =>
    hr.reach.invariant
      (P := fun st => (Inv cfg st ∧ IdentsListedIn st room) ∧ BothJoined room a ua b ub st ∧ WriterRuns b st)
      ⟨listed₀, both₀, runs₀⟩ fun st act st' ⟨⟨inv, listed⟩, _, _⟩ ⟨sole, both, runs⟩ hs =>
      ⟨⟨inv_step inv hs, identsListedIn_step inv sole hs listed⟩, both, runs⟩
  refine ⟨?_, fun pre act post msg hacts hmsg => ?_⟩
  · induction h with
    | nil => exact ⟨[], by simp, rfl⟩
    | snoc act hr _ hs ih =>
      obtain ⟨evs, hevs, hchannel⟩ := ih
      obtain ⟨⟨inv, listed⟩, both, runs⟩ := during hr
      obtain ⟨evs', hevs', hnew, -⟩ := step_relays inv listed both runs hs
      refine ⟨evs ++ evs', by rw [hevs', hevs, List.append_assoc], ?_⟩
      rw [List.filterMap_append, List.filterMap_append, hchannel, hnew]
      cases hm : act.receives a ua ub <;> simp [hm]
  · obtain ⟨st, st', hpre, -, hs, hpost⟩ := h.split hacts
    obtain ⟨⟨inv, listed⟩, both, runs⟩ := during hpre
    obtain ⟨evs, hevs, -, hplaced⟩ := step_relays inv listed both runs hs
    exact ⟨st, st', hpre.any, hs, hpost.any, by rw [hevs, hplaced msg hmsg]⟩

end

/-! Two members of which one signals to the other, and the same after the other's writer task has failed. -/

def beforeOffer : Server := (Lts.exec (step openConfig) empty (joinActs 0 "alice" ++ joinActs 1 "bob")).getD empty

theorem reach_beforeOffer :
    Lts.Reach (step openConfig) (fun st act _ => supersedesIn openConfig st "r" act = false) empty beforeOffer :=
  Lts.Reach.of_execOk (fun _ _ _ => of_decide_eq_true)
    (show Lts.execOk (step openConfig) (fun st act _ => decide (supersedesIn openConfig st "r" act = false)) empty
      (joinActs 0 "alice" ++ joinActs 1 "bob") = some beforeOffer from rfl)

def sampleCandidate : Candidate := { text := "candidate:1", pc := sampleSdp.id.pc }

/-- An Offer and a candidate; the Offer is written, and the other member's push-to-talk comes, in between. -/
def signalActs : List SAct :=
  [.frame 0 (.text (.offer "bob" sampleSdp)), .write 1, .frame 1 (.text (.ptt true)),
    .frame 0 (.text (.ice "bob" sampleCandidate))]

def afterSignals : Server := (Lts.exec (step openConfig) beforeOffer signalActs).getD empty

theorem relay_faithful_signals :
    RelayFaithful openConfig 0 "alice" 1 "bob" beforeOffer signalActs afterSignals ∧
      signalActs.filterMap (SAct.receives 0 "alice" "bob") = [.offer "alice" sampleSdp, .ice "alice" sampleCandidate] := by
  have run : Lts.Run (step openConfig) (fun st act st' => supersedesIn openConfig st "r" act = false ∧
      BothJoined "r" 0 "alice" 1 "bob" st' ∧ WriterRuns 1 st') beforeOffer signalActs afterSignals :=
    Lts.Run.of_execOk (fun _ _ _ => of_decide_eq_true)
      (show Lts.execOk (step openConfig) (fun st act st' => decide (supersedesIn openConfig st "r" act = false ∧
        BothJoined "r" 0 "alice" 1 "bob" st' ∧ WriterRuns 1 st')) beforeOffer signalActs = some afterSignals from rfl)
  exact ⟨relay_faithful reach_beforeOffer (by decide) (by decide) run, by decide⟩

def failureActs : List SAct := [.writeFail 1, .frame 0 (.text (.offer "bob" sampleSdp))]

def afterFailure : Server := (Lts.exec (step openConfig) beforeOffer failureActs).getD empty

/-- The server takes the message, and drops it: the queue of the receiver, still joined, is closed. -/
theorem relay_lost_to_failed_writer :
    ¬ ∀ st₀ acts st₁, Lts.Reach (step openConfig) (fun st act _ => supersedesIn openConfig st "r" act = false) empty st₀ →
      BothJoined "r" 0 "alice" 1 "bob" st₀ →
      Lts.Run (step openConfig) (fun st act st' => supersedesIn openConfig st "r" act = false ∧
        BothJoined "r" 0 "alice" 1 "bob" st') st₀ acts st₁ →
      RelayFaithful openConfig 0 "alice" 1 "bob" st₀ acts st₁ := by
  intro all
  have run : Lts.Run (step openConfig) (fun st act st' => supersedesIn openConfig st "r" act = false ∧
      BothJoined "r" 0 "alice" 1 "bob" st') beforeOffer failureActs afterFailure :=
    Lts.Run.of_execOk (fun _ _ _ => of_decide_eq_true)
      (show Lts.execOk (step openConfig) (fun st act st' => decide (supersedesIn openConfig st "r" act = false ∧
        BothJoined "r" 0 "alice" 1 "bob" st')) beforeOffer failureActs = some afterFailure from rfl)
  obtain ⟨evs, hevs, hchannel⟩ := (all _ _ _ reach_beforeOffer (by decide) run).channel
  have nothing : evs = [] := List.append_cancel_left (hevs.symm.trans (List.append_nil _).symm)
  rw [nothing] at hchannel
  exact absurd hchannel (by decide)

end Server

end SquadLink
