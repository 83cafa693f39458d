import SquadLink.Server.Reception
import SquadLink.Server.Relay

/-! Room events are broadcast in one order. Whatever happens in a room while two sockets are listed there, both are told the
    same of it and in the same order, but for what one of them caused itself. -/

namespace SquadLink

/-- What the server tells every member of a room. -/
def ServerMsg.isNews : ServerMsg → Bool
  | peerJoined _ _ | peerLeft _ | ptt _ _ | rekey _ | warn _ _ => true
  | _ => false

/-- News that is about neither of the users. -/
def ServerMsg.newsFor (ua ub : String) (msg : ServerMsg) : Bool :=
  msg.isNews && decide (msg.stamp ≠ some ua) && decide (msg.stamp ≠ some ub)

/-- The message that the event places in the queue of `t`. -/
def Event.placedAt (t : SocketId) : Event → Option ServerMsg
  | .placed _ dest msg => if dest = t then some msg else none
  | .accepted _ _ _ _ => none

namespace Server

/-- All that has been placed in the queue of a socket. -/
def heard (st : Server) (t : SocketId) : List ServerMsg := st.history.filterMap (Event.placedAt t)

/-- The room lists the socket under the user id, its writer task runs and its queue is not full. -/
structure Hears (room userId : String) (t : SocketId) (st : Server) : Prop where
  listed : (st.handle? room userId).map (·.tx) = some t
  runs : ∀ k ∈ st.conns t, k.rxOpen = true
  unfilled : ∀ k ∈ st.conns t, k.queue.length < peerChan

instance (room userId : String) (t : SocketId) (st : Server) : Decidable (Hears room userId t st) :=
  decidable_of_iff ((st.handle? room userId).map (·.tx) = some t ∧ (∀ k ∈ st.conns t, k.rxOpen = true) ∧
    ∀ k ∈ st.conns t, k.queue.length < peerChan) ⟨fun ⟨h₁, h₂, h₃⟩ => ⟨h₁, h₂, h₃⟩, fun ⟨h₁, h₂, h₃⟩ => ⟨h₁, h₂, h₃⟩⟩

section
variable {cfg : ServerConfig} {st st' : Server} {s t : SocketId} {k : Conn} {cause : SocketId} {room ua ub userId : String}

/-! ### What is placed in a queue -/

theorem heard_of_history (h : st'.history = st.history) (t : SocketId) : st'.heard t = st.heard t := by
  rw [heard, h, heard]

theorem heard_record (ev : Event) (t : SocketId) : (st.record ev).heard t = st.heard t ++ (ev.placedAt t).toList := by
  simp only [heard, record, List.filterMap_append]
  cases hev : ev.placedAt t <;> simp [hev]

theorem heard_trySend (dest t : SocketId) (msg : ServerMsg) :
    (st.trySend cause dest msg).heard t = st.heard t ++
      (if dest = t ∧ ((st.conns t).map Conn.accepts).getD false = true then [msg] else []) := by
  unfold trySend
  cases hc : st.conns dest with
  | none =>
    rw [if_neg, List.append_nil]
    rintro ⟨rfl, h⟩
    rw [hc] at h
    cases h
  | some c =>
    dsimp only
    by_cases hacc : c.accepts = true
    · rw [if_pos hacc]
      simp only [heard, List.filterMap_append, List.filterMap_cons, List.filterMap_nil, Event.placedAt]
      by_cases ht : dest = t
      · subst ht
        simp [hc, hacc]
      · simp [ht]
    · rw [if_neg hacc, if_neg, List.append_nil]
      rintro ⟨rfl, h⟩
      rw [hc] at h
      exact hacc h

/-- Where nothing gets lost, everything that is sent to a socket is placed in its queue, in order. -/
theorem heard_sendAll : ∀ {out : List (SocketId × ServerMsg)} {st : Server} {k : Conn}, st.conns t = some k →
    k.rxOpen = true → (k.pushAll (Fifo.sentTo t out)).queue.length < peerChan →
    (st.sendAll cause out).heard t = st.heard t ++ Fifo.sentTo t out
  | [], st, k, _, _, _ => by simp
  | (dest, msg) :: out, st, k, hk, rx, short => by
    rw [sendAll_cons, Fifo.sentTo_cons]
    have hk' : (st.trySend cause dest msg).conns t = some (if dest = t then k.pushAll [msg] else k) := by
      rw [trySend_conns, hk, Option.map_some]
    by_cases ht : dest = t
    · rw [Fifo.sentTo_cons, if_pos ht, ← List.singleton_append, Conn.pushAll_append] at short
      rw [if_pos ht] at hk' ⊢
      -- what is full stays full, so there was room for the first message
      have first : k.queue.length < peerChan := by
        by_contra full
        simp only [Conn.pushAll, rx, ↓reduceIte, Fifo.pushAll_of_full full] at short
        exact full short
      have accepts : dest = t ∧ ((st.conns t).map Conn.accepts).getD false = true := by
        refine ⟨ht, ?_⟩
        rw [hk, Option.map_some, Option.getD_some, Conn.accepts, rx, Bool.true_and]
        exact decide_eq_true first
      rw [heard_sendAll hk' (by simpa using rx) short, heard_trySend, if_pos accepts, List.append_assoc,
        List.singleton_append]
    · rw [Fifo.sentTo_cons, if_neg ht] at short
      rw [if_neg ht] at hk' ⊢
      rw [heard_sendAll hk' rx short, heard_trySend, if_neg fun h => ht h.1, List.append_nil]

/-! ### Frames -/

theorem heard_cleanup (hk : st.conns t = some k) (rx : k.rxOpen = true) (me : Option (String × String))
    (short : (k.pushAll (Fifo.sentTo t (cleanupSends st me))).queue.length < peerChan) :
    (st.cleanup s me).heard t = st.heard t ++ Fifo.sentTo t (cleanupSends st me) := by
  rcases me with _ | ⟨room, userId⟩
  · simp [cleanup, cleanupSends, heard, finish]
  · simp only [cleanup, cleanupSends] at short ⊢
    cases hr : st.rooms room with
    | none =>
      have hnil : ((st.roomOf room).erase userId).entries = [] := by
        rw [roomOf_none hr]
        rfl
      simp [heard, finish, Fifo.broadcast, hnil]
    | some r =>
      simp only [roomOf_some hr] at short ⊢
      exact heard_sendAll hk rx short

/-- What a socket hears of a frame is what is sent to it. -/
theorem heard_handleFrame (me : Option (String × String)) (f : Frame) (hk : st.conns t = some k) (rx : k.rxOpen = true)
    (short : (k.pushAll (Fifo.sentTo t (frameSends cfg st s me f))).queue.length < peerChan) :
    (st.handleFrame cfg s me f).heard t = st.heard t ++ Fifo.sentTo t (frameSends cfg st s me f) := by
  have silent : st.heard t = st.heard t ++ Fifo.sentTo t ([] : List (SocketId × ServerMsg)) := by simp
  cases f with
  | close => exact heard_cleanup hk rx me short
  | other => exact silent
  | badText err =>
    simp only [handleFrame, trySend_eq_sendAll]
    exact heard_sendAll hk rx short
  | text msg =>
    cases msg with
    | join room userId name token =>
      simp only [handleFrame, handleMsg, join, frameSends, joinReply] at short ⊢
      split
      · rename_i hme
        rw [if_pos hme] at short
        rw [trySend_eq_sendAll]
        exact heard_sendAll hk rx short
      · rename_i hme
        rw [if_neg hme] at short
        split
        · rename_i hb
          rw [if_pos hb] at short
          rw [trySend_eq_sendAll]
          exact heard_sendAll hk rx short
        · rename_i hb
          rw [if_neg hb] at short
          split
          · rename_i ha
            rw [if_pos ha] at short
            rw [trySend_eq_sendAll]
            exact heard_sendAll hk rx short
          · rename_i ha
            rw [if_neg ha] at short
            split
            · rename_i hf
              rw [if_pos hf] at short
              rw [trySend_eq_sendAll]
              exact heard_sendAll hk rx short
            · rename_i hf
              rw [if_neg hf] at short
              have joined :
                  ((st.setRoom room (some (((st.roomOf room).erase userId).insert userId { name, tx := s }))).record
                  (.accepted s room userId token)).conns t = some k := hk
              refine (heard_sendAll joined rx short).trans ?_
              rw [heard_record]
              simp [Event.placedAt, heard]
    | offer dest sdp | answer dest sdp | ice dest candidate =>
      simp only [handleFrame, handleMsg, frameSends] at short ⊢
      split
      · exact silent
      · rename_i hd
        rw [if_neg hd] at short
        rw [relayTo_eq]
        exact heard_sendAll hk rx short
    | ptt active =>
      simp only [handleFrame, handleMsg, frameSends, ptt] at short ⊢
      rcases me with _ | ⟨room, sender⟩
      · exact silent
      · simp only [toRoom_eq]
        exact heard_sendAll hk rx short
    | rekey =>
      simp only [handleFrame, handleMsg, frameSends, rekey] at short ⊢
      rcases me with _ | ⟨room, sender⟩
      · exact silent
      · simp only [toRoom_eq]
        exact heard_sendAll hk rx short
    | leave => exact heard_cleanup hk rx me short

/-! ### One step -/

theorem Hears.conn (h : Hears room userId t st) (inv : Inv cfg st) : ∃ hd k, st.handle? room userId = some hd ∧ hd.tx = t ∧
    st.ident t = some (room, userId) ∧ st.conns t = some k ∧ k.rxOpen = true := by
  obtain ⟨hd, hh, htx⟩ := Option.map_eq_some_iff.mp h.listed
  have hi := inv.listed room userId hd hh
  rw [htx] at hi
  obtain ⟨k, hk, -⟩ := Option.bind_eq_some_iff.mp hi
  exact ⟨hd, k, hh, htx, hi, hk, h.runs k hk⟩

theorem news_eq_nil {msgs : List ServerMsg} (h : ∀ m ∈ msgs, m.isNews = false) :
    msgs.filter (ServerMsg.newsFor ua ub) = [] :=
  List.filter_eq_nil_iff.mpr fun m hm => by simp [ServerMsg.newsFor, h m hm]

theorem news_sentTo_eq_nil {out : List (SocketId × ServerMsg)} (h : ∀ p ∈ out, p.2.isNews = false) (t : SocketId) :
    (Fifo.sentTo t out).filter (ServerMsg.newsFor ua ub) = [] :=
  news_eq_nil fun _ hm => h _ (Fifo.mem_sentTo.mp hm)

theorem news_stamped (msg : ServerMsg) (h : msg.stamp = some ua ∨ msg.stamp = some ub) :
    [msg].filter (ServerMsg.newsFor ua ub) = [] :=
  List.filter_eq_nil_iff.mpr fun m hm => by
    rw [List.mem_singleton.mp hm]
    rcases h with h | h <;> simp [ServerMsg.newsFor, h]

/-- Two members get the same news of a frame. -/
theorem news_frame {a b : SocketId} {c : Conn} {f : Frame} (inv : Inv cfg st) (ha : Hears room ua a st)
    (hb : Hears room ub b st)
    (hc : st.conns s = some c) (hr : c.phase = .reading) (ha' : Hears room ua a (st.handleFrame cfg s c.me f))
    (hb' : Hears room ub b (st.handleFrame cfg s c.me f)) :
    (Fifo.sentTo a (frameSends cfg st s c.me f)).filter (ServerMsg.newsFor ua ub) =
      (Fifo.sentTo b (frameSends cfg st s c.me f)).filter (ServerMsg.newsFor ua ub) := by
  obtain ⟨ea, ka, hea, rfl, hia, hka, -⟩ := ha.conn inv
  obtain ⟨eb, kb, heb, rfl, hib, hkb, -⟩ := hb.conn inv
  have cleanup (me : Option (String × String)) : (Fifo.sentTo ea.tx (cleanupSends st me)).filter (ServerMsg.newsFor ua ub) =
      (Fifo.sentTo eb.tx (cleanupSends st me)).filter (ServerMsg.newsFor ua ub) := by
    rcases me with _ | ⟨room', gone⟩
    · rfl
    · rw [sentTo_cleanupSends inv hea, sentTo_cleanupSends inv heb]
      by_cases hroom : room' = room
      · by_cases hga : ua = gone
        · rw [if_neg fun h => h.2 hga]
          split
          · exact (news_stamped (.peerLeft gone) (Or.inl (congrArg some hga.symm))).symm
          · rfl
        · rw [if_pos ⟨hroom, hga⟩]
          by_cases hgb : ub = gone
          · rw [if_neg fun h => h.2 hgb]
            exact news_stamped (.peerLeft gone) (Or.inr (congrArg some hgb.symm))
          · rw [if_pos ⟨hroom, hgb⟩]
      · rw [if_neg fun h => hroom h.1, if_neg fun h => hroom h.1]
  have relay (dest : String) (build : String → ServerMsg) (hbuild : ∀ x, (build x).isNews = false) (t : SocketId) :
      (Fifo.sentTo t (relaySends st c.me dest build)).filter (ServerMsg.newsFor ua ub) = [] := by
    refine news_sentTo_eq_nil (fun p hp => ?_) t
    unfold relaySends at hp
    split at hp
    · cases hp
    · obtain ⟨h, -, rfl⟩ := Option.map_eq_some_iff.mp (Option.mem_toList.mp hp)
      exact hbuild _
  cases f with
  | close => exact cleanup c.me
  | other => rfl
  | badText err =>
    have own : ∀ p ∈ frameSends cfg st s c.me (.badText err), p.2.isNews = false := fun p hp => by
      rw [List.mem_singleton.mp hp]
      rfl
    rw [news_sentTo_eq_nil own, news_sentTo_eq_nil own]
  | text msg =>
    cases msg with
    | join room' joiner name token =>
      have refused (msg : ServerMsg) (hm : msg.isNews = false) (t : SocketId) :
          (Fifo.sentTo t [(s, msg)]).filter (ServerMsg.newsFor ua ub) = [] :=
        news_sentTo_eq_nil (fun p hp => by rw [List.mem_singleton.mp hp]; exact hm) t
      by_cases admits : Admits cfg st s room' joiner name token
      · obtain ⟨sends, -, enrolls⟩ := admits.frame hc
        have hnone : st.ident s = none := by
          obtain ⟨⟨k, hk, hreading, hme⟩, -⟩ := admits
          rw [ident_of_reading hk hreading, hme]
        -- a member that is still listed is not the one that the Join supersedes
        have kept {u : String} {e : PeerHandle} (hi : st.ident e.tx = some (room, u))
            (h' : Hears room u e.tx (st.handleFrame cfg s c.me (.text (.join room' joiner name token)))) :
            s ≠ e.tx ∧ (room' = room → u ≠ joiner) := by
          have hne : s ≠ e.tx := fun heq => by
            rw [← heq, hnone] at hi
            cases hi
          refine ⟨hne, fun hroom hu => ?_⟩
          have listed := h'.listed
          rw [enrolls, enroll_handle?, if_pos ⟨hroom.symm, hu⟩] at listed
          exact hne (Option.some.inj listed)
        obtain ⟨hsa, hua⟩ := kept hia ha'
        obtain ⟨hsb, hub⟩ := kept hib hb'
        rw [sends, sentTo_joinSends inv hea hsa, sentTo_joinSends inv heb hsb]
        by_cases hroom : room' = room
        · rw [if_pos hroom, if_pos hroom, if_neg (hua hroom), if_neg (hub hroom)]
        · rw [if_neg hroom, if_neg hroom]
      · simp only [frameSends, joinReply]
        split
        · rw [refused _ rfl, refused _ rfl]
        · rename_i hme
          split
          · rw [refused _ rfl, refused _ rfl]
          · rename_i hbounds
            split
            · rw [refused _ rfl, refused _ rfl]
            · rename_i hauth
              split
              · rw [refused _ rfl, refused _ rfl]
              · rename_i hfull
                exact absurd ⟨⟨c, hc, hr, by simpa using hme⟩, by simpa using hbounds, by simpa using hauth,
                  by simpa using hfull⟩ admits
    | offer dest sdp | answer dest sdp | ice dest candidate =>
      simp only [frameSends]
      split
      · rfl
      · rw [relay _ _ fun _ => rfl, relay _ _ fun _ => rfl]
    | ptt active =>
      simp only [frameSends]
      rcases c.me with _ | ⟨room', sender⟩
      · rfl
      · dsimp only
        rw [sentTo_toRoomSends inv hea, sentTo_toRoomSends inv heb]
        by_cases hroom : room' = room
        · rw [if_pos hroom, if_pos hroom]
          by_cases hsa : ua = sender
          · subst hsa
            by_cases hsb : ub = ua
            · rw [hsb]
            · rw [if_neg (not_not.mpr rfl), if_pos hsb]
              exact (news_stamped _ (Or.inl rfl)).symm
          · rw [if_pos hsa]
            by_cases hsb : ub = sender
            · subst hsb
              rw [if_neg (not_not.mpr rfl)]
              exact news_stamped _ (Or.inr rfl)
            · rw [if_pos hsb]
        · rw [if_neg hroom, if_neg hroom]
    | rekey =>
      simp only [frameSends]
      rcases c.me with _ | ⟨room', sender⟩
      · rfl
      · dsimp only
        rw [sentTo_toRoomSends inv hea, sentTo_toRoomSends inv heb]
    | leave => exact cleanup c.me

/-- Between the two states, the two sockets are told `xs` and `ys`, which hold the same news. -/
def NewsAgree (ua ub : String) (a b : SocketId) (st st' : Server) : Prop :=
  ∃ xs ys, st'.heard a = st.heard a ++ xs ∧ st'.heard b = st.heard b ++ ys ∧
    xs.filter (ServerMsg.newsFor ua ub) = ys.filter (ServerMsg.newsFor ua ub)

section
variable {a b : SocketId} {act : SAct}

theorem NewsAgree.of_history (h : st'.history = st.history) : NewsAgree ua ub a b st st' :=
  ⟨[], [], by rw [heard_of_history h, List.append_nil], by rw [heard_of_history h, List.append_nil], rfl⟩

theorem NewsAgree.trans {st'' : Server} (h : NewsAgree ua ub a b st st') (h' : NewsAgree ua ub a b st' st'') :
    NewsAgree ua ub a b st st'' := by
  obtain ⟨xs, ys, hx, hy, heq⟩ := h
  obtain ⟨xs', ys', hx', hy', heq'⟩ := h'
  exact ⟨xs ++ xs', ys ++ ys', by rw [hx', hx, List.append_assoc], by rw [hy', hy, List.append_assoc],
    by rw [List.filter_append, List.filter_append, heq, heq']⟩

/-- What is sent to a socket that hears afterwards has found room in its queue. -/
theorem Hears.short {f : Conn → Conn} {out : List (SocketId × ServerMsg)} (h : Hears room userId t st')
    (hk : st.conns t = some k) (hf : ∀ c, (f c).queue = c.queue)
    (hk' : st'.conns t = (st.conns t).map fun c => f (c.pushAll (Fifo.sentTo t out))) :
    (k.pushAll (Fifo.sentTo t out)).queue.length < peerChan := by
  rw [hk, Option.map_some] at hk'
  have := h.unfilled _ hk'
  rwa [hf] at this

theorem step_news (inv : Inv cfg st) (ha : Hears room ua a st) (hb : Hears room ub b st) (ha' : Hears room ua a st')
    (hb' : Hears room ub b st') (hs : step cfg st act = some st') : NewsAgree ua ub a b st st' := by
  obtain ⟨-, ka, -, -, -, hka, rxa⟩ := ha.conn inv
  obtain ⟨-, kb, -, -, -, hkb, rxb⟩ := hb.conn inv
  cases act with
  | accept => cases Option.some.inj hs; exact .of_history rfl
  | restart => cases Option.some.inj hs; exact .of_history rfl
  | write s => obtain ⟨_, -, -, rfl⟩ := step_write_inv hs; exact .of_history rfl
  | writeFail s => obtain ⟨_, -, -, rfl⟩ := step_writeFail_inv hs; exact .of_history rfl
  | abort s => obtain ⟨_, -, -, rfl⟩ := step_abort_inv hs; exact .of_history rfl
  | rehash room r => obtain ⟨_, -, -, rfl⟩ := step_rehash_inv hs; exact .of_history rfl
  | frame s f =>
    obtain ⟨c, hc, hr, rfl⟩ := step_frame_inv hs
    have short {u : String} {t : SocketId} {k : Conn} (h : Hears room u t (st.handleFrame cfg s c.me f))
        (hk : st.conns t = some k) : (k.pushAll (Fifo.sentTo t (frameSends cfg st s c.me f))).queue.length < peerChan :=
      h.short (f := fun k => if t = s then { k with phase := framePhase cfg st c.me f } else k) hk
        (fun k => by split <;> rfl) (handleFrame_conns hc hr f t)
    exact ⟨_, _, heard_handleFrame c.me f hka rxa (short ha' hka), heard_handleFrame c.me f hkb rxb (short hb' hkb),
      news_frame inv ha hb hc hr ha' hb'⟩
  | close s =>
    obtain ⟨c, hc, hr, rfl⟩ := step_close_inv hs
    -- the end of the stream does what a Close frame does
    have short {u : String} {t : SocketId} {k : Conn} (h : Hears room u t (st.cleanup s c.me)) (hk : st.conns t = some k) :
        (k.pushAll (Fifo.sentTo t (cleanupSends st c.me))).queue.length < peerChan :=
      h.short (f := fun k => if t = s then { k with phase := .ended } else k) hk (fun k => by split <;> rfl)
        (cleanup_conns c.me t)
    exact ⟨_, _, heard_cleanup hka rxa c.me (short ha' hka), heard_cleanup hkb rxb c.me (short hb' hkb),
      news_frame (f := .close) inv ha hb hc hr ha' hb'⟩
  | finishJoin s now =>
    obtain ⟨c, room', userId, roster, hc, hj, rfl⟩ := step_finishJoin_inv hs
    have short {u : String} {t : SocketId} {k : Conn} (h : Hears room u t (st.finishJoin cfg s now room' userId roster))
        (hk : st.conns t = some k) :
        (k.pushAll (Fifo.sentTo t (finishSends cfg s now userId roster))).queue.length < peerChan :=
      h.short (f := fun k => if t = s then { k with phase := .reading, me := some (room', userId) } else k) hk
        (fun k => by split <;> rfl) (finishJoin_conns now room' userId roster t)
    have own : ∀ p ∈ finishSends cfg s now userId roster, p.2.isNews = false := fun p hp => by
      rcases List.mem_cons.mp hp with rfl | hp
      · rfl
      · obtain ⟨t, -, rfl⟩ := Option.map_eq_some_iff.mp (Option.mem_toList.mp hp)
        rfl
    exact ⟨_, _, heard_sendAll hka rxa (short ha' hka), heard_sendAll hkb rxb (short hb' hkb),
      (news_sentTo_eq_nil own a).trans (news_sentTo_eq_nil own b).symm⟩

/-- While two sockets are listed in a room, with running writer tasks and no full queue, both are told the same news in the
    same order: who comes, who leaves, who speaks, that keys rotate and that the room is crowded. -/
theorem news_in_one_order {st₀ st₁ : Server} {acts : List SAct} (h₀ : Lts.Reach (step cfg) Lts.anyStep empty st₀)
    (ha : Hears room ua a st₀) (hb : Hears room ub b st₀)
    (run : Lts.Run (step cfg) (fun _ _ st' => Hears room ua a st' ∧ Hears room ub b st') st₀ acts st₁) :
    NewsAgree ua ub a b st₀ st₁ := by
  have during := run.reach.invariant (P := fun st => (Inv cfg st ∧ Hears room ua a st ∧ Hears room ub b st) ∧
    NewsAgree ua ub a b st₀ st) ⟨⟨inv_reach h₀, ha, hb⟩, .of_history rfl⟩
    fun st act st' ⟨⟨inv, ha, hb⟩, agree⟩ ⟨ha', hb'⟩ hs =>
      ⟨⟨inv_step inv hs, ha', hb'⟩, agree.trans (step_news inv ha hb ha' hb' hs)⟩
  exact during.2

end

end

/-- Two members, a third one who joins, speaks, asks for new keys and leaves, and one of the two who speaks in between. -/
def gatheringActs : List SAct :=
  [.accept, .frame 2 (.text (.join "r" "carol" "Carol" none)), .frame 1 (.text (.ptt true)), .finishJoin 2 0,
    .frame 2 (.text (.ptt true)), .frame 2 (.text .rekey), .write 0, .frame 2 (.text .leave)]

def afterGathering : Server := (Lts.exec (step openConfig) beforeOffer gatheringActs).getD empty

theorem news_in_one_order_gathering : (afterGathering.heard 1).length = 5 ∧
    NewsAgree "alice" "bob" 0 1 beforeOffer afterGathering := by
  have run : Lts.Run (step openConfig) (fun _ _ st' => Hears "r" "alice" 0 st' ∧
      Hears "r" "bob" 1 st') beforeOffer gatheringActs
      afterGathering :=
    Lts.Run.of_execOk (fun _ _ _ => of_decide_eq_true)
      (show Lts.execOk (step openConfig) (fun _ _ st' =>
        decide (Hears "r" "alice" 0 st' ∧ Hears "r" "bob" 1 st')) beforeOffer
        gatheringActs = some afterGathering from rfl)
  exact ⟨by decide, news_in_one_order reach_beforeOffer.any (by decide) (by decide) run⟩

end Server

end SquadLink
