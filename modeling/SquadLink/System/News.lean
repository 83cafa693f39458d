import SquadLink.Server.Relay
import SquadLink.System.Turns

/-! What the server sends to a member, as far as one peer goes: what the peer says and the server relays, the
    peer's Join, and key rotations. -/

namespace SquadLink

/-- What `q` says in the messages. -/
def heardOf (q : String) (msgs : List ServerMsg) : List Signal := msgs.filterMap fun msg => (msg.cue q).signal?

@[simp] theorem heardOf_nil (q : String) : heardOf q [] = [] := rfl

@[simp] theorem heardOf_append (q : String) (msgs msgs' : List ServerMsg) :
    heardOf q (msgs ++ msgs') = heardOf q msgs ++ heardOf q msgs' := List.filterMap_append

theorem heardOf_singleton (q : String) (msg : ServerMsg) : heardOf q [msg] = (msg.cue q).signal?.toList := by
  cases h : (msg.cue q).signal? <;> simp [heardOf, h]

theorem heardOf_eq_nil {q : String} {msgs : List ServerMsg} (h : ∀ msg ∈ msgs, (msg.cue q).signal? = none) :
    heardOf q msgs = [] :=
  List.filterMap_eq_nil_iff.mpr h

namespace Server

section
variable {cfg : ServerConfig} {st : Server} {s : SocketId} {c : Conn} {room userId q : String}
  {h : PeerHandle} {msg : ClientMsg}

/-- A Join that is not accepted is answered to its socket. -/
theorem refused_frame {room' joiner name : String} {token : Option String}
    (refused : ¬ Admits cfg st s room' joiner name token) (hc : st.conns s = some c) (hr : c.phase = .reading) :
    ∃ m, frameSends cfg st s c.me (.text (.join room' joiner name token)) = [(s, m)] ∧ (∀ q, m.cue q = .other) ∧
      ∀ peers, m ≠ .roster peers := by
  simp only [frameSends, joinReply]
  split
  · exact ⟨_, rfl, fun _ => rfl, by simp⟩
  · split
    · exact ⟨_, rfl, fun _ => rfl, by simp⟩
    · split
      · exact ⟨_, rfl, fun _ => rfl, by simp⟩
      · split
        · exact ⟨_, rfl, fun _ => rfl, by simp⟩
        · rename_i hme hb ha hf
          exact absurd ⟨⟨c, hc, hr, by simpa using hme⟩, by simpa using hb, by simpa using ha, by simpa using hf⟩ refused

/-- What a member's queue gets from a message that another one is told of: the message as it is relayed. -/
theorem heardOf_relaySends (inv : Inv cfg st) (listed : st.handle? room userId = some h) (me : Option (String × String))
    (dest : String) (size max : Nat) {build : String → ServerMsg} {sig : Signal}
    (stamped : ∀ x, (build x).cue q = if x = q then .signal sig else .other) (fits : sig.fits = decide (size ≤ max)) :
    heardOf q (Fifo.sentTo h.tx (if !lenOk dest maxId || decide (max < size) then [] else relaySends st me dest build)) =
      if me = some (room, q) then ((if dest = userId then some sig else none).toList).filter Signal.fits else [] := by
  have lenOk_user : lenOk userId maxId = true := lenOk_of_ident inv (inv.listed _ _ _ listed)
  cases hme : me with
  | none => split <;> simp [relaySends]
  | some p =>
    obtain ⟨room', sender⟩ := p
    by_cases hdrop : (!lenOk dest maxId || decide (max < size)) = true
    · rw [if_pos hdrop]
      split
      · by_cases hd : dest = userId
        · subst hd
          have hsize : ¬ size ≤ max := by simpa [lenOk_user] using hdrop
          simp [fits, hsize]
        · simp [hd]
      · rfl
    · rw [if_neg hdrop, sentTo_relaySends inv listed]
      have hsize : size ≤ max := by
        simp only [Bool.or_eq_true, decide_eq_true_eq, not_or, Nat.not_lt] at hdrop
        exact hdrop.2
      by_cases hroom : room' = room
      · subst hroom
        by_cases hd : dest = userId
        · by_cases hq : sender = q
          · subst hq
            simp [hd, heardOf_singleton, stamped, Cue.signal?, fits, hsize]
          · simp [hd, hq, heardOf_singleton, stamped, Cue.signal?]
        · simp [hd]
      · simp [hroom]

theorem heardOf_toRoomSends (inv : Inv cfg st) (listed : st.handle? room userId = some h) (room' : String)
    {g : String → Option ServerMsg} (hg : ∀ id m, g id = some m → (m.cue q).signal? = none) :
    heardOf q (Fifo.sentTo h.tx (toRoomSends st room' g)) = [] := by
  rw [sentTo_toRoomSends inv listed]
  split
  · refine heardOf_eq_nil fun m hm => hg userId m ?_
    simpa using hm
  · rfl

/-- What a member hears of `q` because of a message: what `q` says to it in the message. -/
theorem heardOf_frameSends (inv : Inv cfg st) (listed : st.handle? room userId = some h) (hc : st.conns s = some c)
    (hr : c.phase = .reading) (idle : ∀ room' joiner name token, msg = .join room' joiner name token →
      Admits cfg st s room' joiner name token → s ≠ h.tx) :
    heardOf q (Fifo.sentTo h.tx (frameSends cfg st s c.me (.text msg))) =
      if c.me = some (room, q) then (msg.signalFor userId).toList.filter Signal.fits else [] := by
  have silent : msg.signalFor userId = none → heardOf q (Fifo.sentTo h.tx (frameSends cfg st s c.me (.text msg))) = [] →
      heardOf q (Fifo.sentTo h.tx (frameSends cfg st s c.me (.text msg))) =
        if c.me = some (room, q) then (msg.signalFor userId).toList.filter Signal.fits else [] := by
    intro hsig hheard
    rw [hheard, hsig]
    split <;> rfl
  cases msg with
  | offer dest sdp => exact heardOf_relaySends inv listed c.me dest _ _ (fun _ => rfl) rfl
  | answer dest sdp => exact heardOf_relaySends inv listed c.me dest _ _ (fun _ => rfl) rfl
  | ice dest cand => exact heardOf_relaySends inv listed c.me dest _ _ (fun _ => rfl) rfl
  | join room' joiner name token =>
    refine silent rfl ?_
    by_cases admits : Admits cfg st s room' joiner name token
    · rw [(admits.frame hc).1, sentTo_joinSends inv listed (idle _ _ _ _ rfl admits)]
      refine heardOf_eq_nil fun m hm => ?_
      split at hm
      · split at hm
        · rw [List.mem_singleton.mp hm]; rfl
        · rcases List.mem_cons.mp hm with rfl | hm
          · simp only [ServerMsg.cue]
            split <;> rfl
          · unfold warning at hm
            split at hm
            · rw [List.mem_singleton.mp hm]; rfl
            · cases hm
      · cases hm
    · obtain ⟨m, hsends, cue, -⟩ := refused_frame admits hc hr
      refine heardOf_eq_nil fun m' hm => ?_
      have := Fifo.mem_sentTo.mp hm
      rw [hsends, List.mem_singleton] at this
      obtain ⟨-, rfl⟩ := Prod.mk.inj this
      rw [cue]
      rfl
  | ptt active =>
    refine silent rfl ?_
    simp only [frameSends]
    split
    · rfl
    · refine heardOf_toRoomSends inv listed _ fun id m hm => ?_
      simp only [ne_eq, ite_not, Option.ite_none_left_eq_some, Option.some.injEq] at hm
      rw [← hm.2]
      rfl
  | rekey =>
    refine silent rfl ?_
    simp only [frameSends]
    split
    · rfl
    · refine heardOf_toRoomSends inv listed _ fun id m hm => ?_
      cases hm
      rfl
  | leave =>
    refine silent rfl ?_
    cases hme : c.me with
    | none => rfl
    | some p =>
      obtain ⟨room', gone⟩ := p
      simp only [frameSends]
      rw [sentTo_cleanupSends inv listed]
      refine heardOf_eq_nil fun m hm => ?_
      split at hm
      · rw [List.mem_singleton.mp hm]
        simp only [ServerMsg.cue]
        split <;> rfl
      · cases hm

/-- A message brings a member the news of an accepted Join in its room, or none of who is there. -/
theorem frame_news (inv : Inv cfg st) (listed : st.handle? room userId = some h) (hc : st.conns s = some c)
    (hr : c.phase = .reading) (sole : supersedes cfg st (.frame s (.text msg)) = false)
    (stay : st.departs (.frame s (.text msg)) = false) :
    (∃ joiner name token n, msg = .join room joiner name token ∧ Admits cfg st s room joiner name token ∧ joiner ≠ userId ∧
      st.handle? room joiner = none ∧
      Fifo.sentTo h.tx (frameSends cfg st s c.me (.text msg)) = .peerJoined joiner name :: warning n) ∨
    ∀ m ∈ Fifo.sentTo h.tx (frameSends cfg st s c.me (.text msg)), m.membership = false := by
  have hi := ident_of_reading hc hr
  rcases frame_cases cfg msg hc hr with ⟨room', joiner, name, token, rfl, admits, hjoin, -⟩ | rfl | ⟨-, -, quiet⟩
  · obtain ⟨⟨c', hc', -, hnone⟩, hbounds, hauth, -⟩ := id admits
    cases hc.symm.trans hc'
    have hst : s ≠ h.tx := fun he => by
      rw [he, inv.listed _ _ _ listed] at hi
      rw [← hi] at hnone
      cases hnone
    have vacant : st.handle? room' joiner = none := by
      simpa [supersedes, hi, hnone, hbounds, hauth] using sole
    rw [hjoin, sentTo_joinSends inv listed hst]
    by_cases hroom : room' = room
    · subst hroom
      have hne : userId ≠ joiner := fun he => by
        rw [← he, listed] at vacant
        cases vacant
      rw [if_pos rfl, if_neg hne]
      exact .inl ⟨joiner, name, token, _, rfl, admits, Ne.symm hne, vacant, rfl⟩
    · rw [if_neg hroom]
      exact .inr (by simp)
  · have hnone : c.me = none := by simpa [departs, SAct.ends, hi] using stay
    rw [hnone]
    exact .inr (by simp [frameSends, cleanupSends])
  · exact .inr fun m hm => quiet _ (Fifo.mem_sentTo.mp hm)

/-- A message is answered to its socket without a word of any peer, or goes to a listed socket, and none is a Roster. -/
theorem mem_frameSends (hc : st.conns s = some c) (hr : c.phase = .reading) {t : SocketId} {m : ServerMsg}
    (hm : (t, m) ∈ frameSends cfg st s c.me (.text msg)) :
    (∀ peers, m ≠ .roster peers) ∧
      ((∃ room userId h, st.handle? room userId = some h ∧ h.tx = t) ∨ t = s ∧ ∀ q, m.cue q = .other) := by
  have relayed : ∀ dest (build : String → ServerMsg), (∀ x peers, build x ≠ .roster peers) →
      (t, m) ∈ relaySends st c.me dest build → (∀ peers, m ≠ .roster peers) ∧
        ((∃ room userId h, st.handle? room userId = some h ∧ h.tx = t) ∨ t = s ∧ ∀ q, m.cue q = .other) := by
    intro dest build hb hm
    unfold relaySends at hm
    split at hm
    · cases hm
    · obtain ⟨h, hh, he⟩ := Option.map_eq_some_iff.mp (Option.mem_toList.mp hm)
      obtain ⟨rfl, rfl⟩ := Prod.mk.inj he
      exact ⟨hb _, .inl ⟨_, _, h, hh, rfl⟩⟩
  have toRoom : ∀ room g, (∀ id x, g id = some x → ∀ peers, x ≠ .roster peers) → (t, m) ∈ toRoomSends st room g →
      (∀ peers, m ≠ .roster peers) ∧
        ((∃ room userId h, st.handle? room userId = some h ∧ h.tx = t) ∨ t = s ∧ ∀ q, m.cue q = .other) := by
    intro room g hg hm
    obtain ⟨id, h, hlook, htx, hx⟩ := Fifo.mem_broadcast.mp hm
    exact ⟨hg id _ hx, .inl ⟨room, id, h, (roomOf_lookup ..).symm.trans hlook, htx⟩⟩
  cases msg with
  | join room userId name token =>
    by_cases admits : Admits cfg st s room userId name token
    · rw [(admits.frame hc).1] at hm
      have entry : ∀ {id h}, (((st.roomOf room).erase userId).insert userId { name, tx := s }).lookup id =
          some h → h.tx = t → id = userId ∧ t = s ∨ id ≠ userId ∧ st.handle? room id = some h := by
        intro id h hlook htx
        by_cases hid : id = userId
        · subst hid
          rw [AList.lookup_insert, Option.some.injEq] at hlook
          exact .inl ⟨rfl, by rw [← htx, ← hlook]⟩
        · rw [AList.lookup_insert_ne hid, AList.lookup_erase_ne hid, roomOf_lookup] at hlook
          exact .inr ⟨hid, hlook⟩
      simp only [joinSends, List.mem_append] at hm
      rcases hm with (hm | hm) | hm
      · obtain ⟨old, hold, he⟩ := Option.map_eq_some_iff.mp (Option.mem_toList.mp hm)
        obtain ⟨rfl, rfl⟩ := Prod.mk.inj he
        exact ⟨by simp, .inl ⟨room, userId, old, (roomOf_lookup ..).symm.trans hold, rfl⟩⟩
      · obtain ⟨id, h, hlook, htx, hg⟩ := Fifo.mem_broadcast.mp hm
        simp only [ne_eq, ite_not, Option.ite_none_left_eq_some, Option.some.injEq] at hg
        obtain ⟨hne, rfl⟩ := hg
        refine ⟨by simp, .inl ?_⟩
        rcases entry hlook htx with ⟨hid, -⟩ | ⟨-, hh⟩
        · exact absurd hid hne
        · exact ⟨room, id, h, hh, htx⟩
      · split at hm
        · obtain ⟨id, h, hlook, htx, hg⟩ := Fifo.mem_broadcast.mp hm
          cases Option.some.inj hg
          refine ⟨by simp, ?_⟩
          rcases entry hlook htx with ⟨-, hs⟩ | ⟨-, hh⟩
          · exact .inr ⟨hs, fun _ => rfl⟩
          · exact .inl ⟨room, id, h, hh, htx⟩
        · cases hm
    · obtain ⟨m', hsends, cue, roster⟩ := refused_frame admits hc hr
      rw [hsends, List.mem_singleton] at hm
      obtain ⟨rfl, rfl⟩ := Prod.mk.inj hm
      exact ⟨roster, .inr ⟨rfl, cue⟩⟩
  | offer dest sdp | answer dest sdp | ice dest cand =>
    simp only [frameSends] at hm
    split at hm
    · cases hm
    · exact relayed dest _ (fun _ _ => by simp) hm
  | ptt active =>
    simp only [frameSends] at hm
    split at hm
    · cases hm
    · refine toRoom _ _ (fun id x hx => ?_) hm
      simp only [ne_eq, ite_not, Option.ite_none_left_eq_some, Option.some.injEq] at hx
      rw [← hx.2]
      simp
  | rekey =>
    simp only [frameSends] at hm
    split at hm
    · cases hm
    · refine toRoom _ _ (fun id x hx => ?_) hm
      cases hx
      simp
  | leave =>
    simp only [frameSends, cleanupSends] at hm
    split at hm
    · cases hm
    · obtain ⟨id, h, hlook, htx, hx⟩ := Fifo.mem_broadcast.mp hm
      cases hx
      have hne : id ≠ _ := fun he => by
        rw [he, AList.lookup_erase] at hlook
        cases hlook
      rw [AList.lookup_erase_ne hne, roomOf_lookup] at hlook
      exact ⟨by simp, .inl ⟨_, id, h, hlook, htx⟩⟩

end

end Server

theorem ServerMsg.cue_eq_rekey {q : String} {msg : ServerMsg} (h : msg.cue q = .rekey) : ∃ by', msg = .rekey by' := by
  cases msg with
  | rekey by' => exact ⟨by', rfl⟩
  | roster | peerJoined | peerLeft | offer | answer | ice =>
    simp only [ServerMsg.cue] at h
    split at h <;> cases h
  | _ => cases h

theorem ServerMsg.cue_of_not_membership {msg : ServerMsg} (h : msg.membership = false) (q : String) :
    msg.cue q ≠ .seen ∧ msg.cue q ≠ .left := by
  cases msg <;> first | (cases h; done) | skip
  all_goals
    simp only [ServerMsg.cue]
    try split
  all_goals simp

namespace Sys

section
variable {cfg : SysConfig} {σ σ' : Sys} {ev : SysEvent} {room userId q : String} {h : PeerHandle}

/-- The server reads a message, and sends something because of it; otherwise a socket without identity ends at
    most, and nothing is sent. -/
theorem news_cases (hs : next cfg σ ev = some σ') (forming : Forming cfg σ ev σ') :
    (∃ s msg rest c, ev = .act (.recv s) ∧ σ.wire s = msg :: rest ∧ σ.server.conns s = some c ∧ c.phase = .reading ∧
      σ'.server = σ.server.handleFrame cfg.server s c.me (.text msg) ∧
      σ.news cfg ev = Server.frameSends cfg.server σ.server s c.me (.text msg) ∧
      (∀ t, σ.takes t ev = if s = t then [msg] else []) ∧
      Server.supersedes cfg.server σ.server (.frame s (.text msg)) = false ∧
      σ.server.departs (.frame s (.text msg)) = false) ∨
    σ.news cfg ev = [] ∧ ∀ t, σ.takes t ev = [] := by
  cases ev with
  | race c w said => exact .inr ⟨rfl, fun _ => rfl⟩
  | act a =>
    cases a with
    | recv s =>
      obtain ⟨msg, rest, srv, hw, hstep, rfl⟩ := step_recv_inv hs
      obtain ⟨c, hc, hr, rfl⟩ := Server.step_frame_inv hstep
      have part : SAct.frame s (.text msg) ∈ σ.serverPart (.act (.recv s)) := by simp [serverPart, serverAct, hw]
      refine .inl ⟨s, msg, rest, c, rfl, hw, hc, hr, rfl, by simp [news, sends, hw, hc], fun t => ?_, forming.sole _ part,
        forming.stay _ part⟩
      simp only [takes, reads]
      split
      · rename_i ht
        rw [← ht, hw]
        rfl
      · rfl
    | server b =>
      cases b with
      | close s =>
        have hs' : step cfg σ (.server (.close s)) = some σ' := hs
        obtain ⟨-, srv, hstep, -⟩ := step_server_inv hs'
        obtain ⟨c, hc, hr, -⟩ := Server.step_close_inv hstep
        have stay := forming.stay (.close s) rfl
        have hnone : c.me = none := by
          simpa [Server.departs, SAct.ends, Server.ident_of_reading hc hr] using stay
        exact .inr ⟨by simp [news, sends, hc, hnone, Server.cleanupSends], fun _ => rfl⟩
      | _ => exact .inr ⟨rfl, fun _ => rfl⟩
    | _ => exact .inr ⟨rfl, fun _ => rfl⟩

/-- What the server sends a member of what `q` says is what it reads from the socket that lists `q`. -/
theorem news_heard (wf : WF cfg σ) (hs : next cfg σ ev = some σ') (forming : Forming cfg σ ev σ')
    (idents : σ.server.IdentsListed) (listed : σ.server.handle? room userId = some h) (q : String) :
    heardOf q (Fifo.sentTo h.tx (σ.news cfg ev)) =
      ((((σ.server.handle? room q).map fun hq => σ.takes hq.tx ev).getD []).filterMap
        (ClientMsg.signalFor userId)).filter Signal.fits := by
  rcases news_cases hs forming with ⟨s, msg, rest, c, rfl, hw, hc, hr, hsrv, hnews, htakes, sole, stay⟩ | ⟨hnews, htakes⟩
  · have hi := Server.ident_of_reading hc hr
    have idle : ∀ room' joiner name token, msg = .join room' joiner name token →
        Server.Admits cfg.server σ.server s room' joiner name token → s ≠ h.tx := by
      rintro _ _ _ _ - ⟨⟨c', hc', -, hnone⟩, -⟩ rfl
      cases hc.symm.trans hc'
      rw [wf.server.listed _ _ _ listed, hnone] at hi
      cases hi
    rw [hnews, Server.heardOf_frameSends wf.server listed hc hr idle]
    cases hq : σ.server.handle? room q with
    | none =>
      have hme : c.me ≠ some (room, q) := fun hme => by
        obtain ⟨h', hh', -⟩ := idents s room q (hi.trans hme)
        rw [hq] at hh'
        cases hh'
      rw [if_neg hme]
      rfl
    | some hq' =>
      by_cases hme : c.me = some (room, q)
      · obtain ⟨h', hh', htx⟩ := idents s room q (hi.trans hme)
        cases hq.symm.trans hh'
        rw [if_pos hme, Option.map_some, Option.getD_some, htakes, if_pos htx.symm]
        cases hsig : msg.signalFor userId <;> simp [hsig]
      · have hne : s ≠ hq'.tx := fun he => by
          rw [he, wf.server.listed _ _ _ hq] at hi
          exact hme hi.symm
        rw [if_neg hme, Option.map_some, Option.getD_some, htakes, if_neg hne]
        rfl
  · rw [hnews]
    cases σ.server.handle? room q <;> simp [htakes]

/-- A member is told of a newcomer, or of nobody's coming or going. -/
theorem news_members (wf : WF cfg σ) (hs : next cfg σ ev = some σ') (forming : Forming cfg σ ev σ')
    (listed : σ.server.handle? room userId = some h) :
    (∃ joiner name n, joiner ≠ userId ∧ σ.server.handle? room joiner = none ∧
      (∃ h', σ'.server.handle? room joiner = some h') ∧
      Fifo.sentTo h.tx (σ.news cfg ev) = .peerJoined joiner name :: Server.warning n) ∨
    ∀ msg ∈ Fifo.sentTo h.tx (σ.news cfg ev), msg.membership = false := by
  rcases news_cases hs forming with ⟨s, msg, rest, c, rfl, hw, hc, hr, hsrv, hnews, htakes, sole, stay⟩ | ⟨hnews, htakes⟩
  · rw [hnews]
    rcases Server.frame_news wf.server listed hc hr sole stay with ⟨joiner, name, token, n, rfl,
      admits, hne, vacant, hsent⟩ | quiet
    · refine .inl ⟨joiner, name, n, hne, vacant, ⟨{ name, tx := s }, ?_⟩, hsent⟩
      rw [hsrv, (admits.frame hc).2.2, Server.enroll_handle?, if_pos ⟨rfl, rfl⟩]
    · exact .inr quiet
  · rw [hnews]
    exact .inr (by simp)

end

end Sys

end SquadLink
