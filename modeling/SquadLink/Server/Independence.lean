import SquadLink.Lib.Unwinding
import SquadLink.Server.Isolation

/-! Rooms do not interfere. For any split of the rooms into two groups, what the sockets of one group get to see is what
    they would see if nobody else were on the server. -/

namespace SquadLink

/-- The action is of one of the sockets `inside`, or a change of the iteration order of a room `within`. The counting of
    sockets and a restart are everybody's. -/
def SAct.seenBy (inside : SocketId → Bool) (within : String → Bool) : SAct → Bool
  | .accept | .restart => true
  | .frame s _ | .finishJoin s _ | .close s | .write s | .writeFail s | .abort s => inside s
  | .rehash room _ => within room

/-- The event is the Join of one of the sockets, or a message placed in its queue. -/
def Event.seenBy (inside : SocketId → Bool) : Event → Bool
  | .accepted s _ _ _ => inside s
  | .placed _ dest _ => inside dest

namespace Server

/-- A socket that has not joined asks to join a room of its own group only. -/
def KeepsApart (inside : SocketId → Bool) (within : String → Bool) (st : Server) (a : SAct) (_ : Server) : Prop :=
  ∀ s c room userId name token, a = .frame s (.text (.join room userId name token)) → st.conns s = some c → c.me = none →
    inside s = within room

/-- The same sockets `inside`, with the same queues, the same rooms `within` and the same history of these sockets. -/
structure Alike (inside : SocketId → Bool) (within : String → Bool) (st st' : Server) : Prop where
  next : st.nextSocket = st'.nextSocket
  conns : ∀ s, inside s = true → st.conns s = st'.conns s
  rooms : ∀ room, within room = true → st.rooms room = st'.rooms room
  history : st.history.filter (Event.seenBy inside) = st'.history.filter (Event.seenBy inside)

/-- Who acts in a room `within` is one of the sockets `inside`, and nobody else is. -/
def Grouped (inside : SocketId → Bool) (within : String → Bool) (st : Server) : Prop :=
  ∀ s room userId, st.ident s = some (room, userId) → inside s = within room

section
variable {cfg : ServerConfig} {inside : SocketId → Bool} {within : String → Bool} {st st' tt tt' : Server} {s : SocketId}
  {a : SAct} {c : Conn} {f : Conn → Conn}

namespace Alike

theorem refl (st : Server) : Alike inside within st st := ⟨rfl, fun _ _ => rfl, fun _ _ => rfl, rfl⟩

theorem meet (h : Alike inside within st st') (h' : Alike inside within tt st') : Alike inside within st tt :=
  ⟨h.next.trans h'.next.symm, fun s hs => (h.conns s hs).trans (h'.conns s hs).symm,
    fun room hr => (h.rooms room hr).trans (h'.rooms room hr).symm, h.history.trans h'.history.symm⟩

/-! ### One operation on one side -/

theorem trySend_outside (h : Alike inside within st st') {cause dest : SocketId} (hd : inside dest = false)
    (msg : ServerMsg) :
    Alike inside within (st.trySend cause dest msg) st' where
  next := by rw [trySend_nextSocket, h.next]
  conns s hs := by
    have hne : dest ≠ s := by
      rintro rfl
      rw [hd] at hs
      cases hs
    simp only [trySend_conns, hne, ↓reduceIte, Option.map_id', h.conns s hs]
  rooms room hr := by rw [trySend_rooms, h.rooms room hr]
  history := by
    rcases st.trySend_history cause dest msg with hist | hist
    · rw [hist, h.history]
    · rw [hist, List.filter_append, List.filter_cons_of_neg (by simp [Event.seenBy, hd]), List.filter_nil, List.append_nil,
        h.history]

theorem sendAll_outside {cause : SocketId} : ∀ {out : List (SocketId × ServerMsg)} {st : Server},
    Alike inside within st st' → (∀ p ∈ out, inside p.1 = false) → Alike inside within (st.sendAll cause out) st'
  | [], _, h, _ => h
  | p :: out, _, h, away => by
    rw [sendAll_cons]
    exact sendAll_outside (h.trySend_outside (away p List.mem_cons_self) p.2) fun q hq => away q (List.mem_cons_of_mem p hq)

theorem modifyConn_outside (h : Alike inside within st st') (hs : inside s = false) :
    Alike inside within (st.modifyConn s f) st' where
  next := h.next
  conns t ht := by
    have hne : t ≠ s := by
      rintro rfl
      rw [hs] at ht
      cases ht
    rw [modifyConn_conns_ne _ _ _ hne, h.conns t ht]
  rooms := h.rooms
  history := h.history

theorem setRoom_outside (h : Alike inside within st st') {room : String} (hr : within room = false) (r : Option Room) :
    Alike inside within (st.setRoom room r) st' where
  next := h.next
  conns := h.conns
  rooms room' hr' := by
    have hne : room' ≠ room := by
      rintro rfl
      rw [hr] at hr'
      cases hr'
    simp only [setRoom, Function.update_of_ne hne, h.rooms room' hr']
  history := h.history

theorem record_outside (h : Alike inside within st st') {ev : Event} (hev : ev.seenBy inside = false) :
    Alike inside within (st.record ev) st' where
  next := h.next
  conns := h.conns
  rooms := h.rooms
  history := by
    simp only [record, List.filter_append, h.history, List.filter_cons_of_neg (Bool.eq_false_iff.mp hev), List.filter_nil,
      List.append_nil]

/-! ### The same operation on both sides -/

theorem trySend (h : Alike inside within st st') (cause dest : SocketId) (msg : ServerMsg) :
    Alike inside within (st.trySend cause dest msg) (st'.trySend cause dest msg) := by
  by_cases hd : inside dest = true
  · have same := h.conns dest hd
    refine ⟨by rw [trySend_nextSocket, trySend_nextSocket, h.next], fun s hs => ?_, fun room hr => ?_, ?_⟩
    · rw [trySend_conns, trySend_conns, h.conns s hs]
    · rw [trySend_rooms, trySend_rooms, h.rooms room hr]
    · simp only [Server.trySend, same]
      split
      · split
        · simp only [List.filter_append, h.history]
        · exact h.history
      · exact h.history
  · have hd := Bool.eq_false_iff.mpr hd
    have left : Alike inside within (st.trySend cause dest msg) st' := h.trySend_outside hd msg
    exact left.meet ((refl st').trySend_outside hd msg)

theorem sendAll (cause : SocketId) : ∀ {out : List (SocketId × ServerMsg)} {st st' : Server}, Alike inside within st st' →
    Alike inside within (st.sendAll cause out) (st'.sendAll cause out)
  | [], _, _, h => h
  | p :: out, _, _, h => by
    rw [sendAll_cons, sendAll_cons]
    exact sendAll cause (h.trySend cause p.1 p.2)

theorem modifyConn (h : Alike inside within st st') (s : SocketId) (f : Conn → Conn) :
    Alike inside within (st.modifyConn s f) (st'.modifyConn s f) where
  next := h.next
  conns t ht := by
    rw [modifyConn_conns, modifyConn_conns, h.conns t ht]
    by_cases hts : t = s
    · subst hts
      rw [if_pos rfl, if_pos rfl, h.conns t ht]
    · rw [if_neg hts, if_neg hts]
  rooms := h.rooms
  history := h.history

theorem setRoom (h : Alike inside within st st') (room : String) (r : Option Room) :
    Alike inside within (st.setRoom room r) (st'.setRoom room r) where
  next := h.next
  conns := h.conns
  rooms room' hr' := by simp only [Server.setRoom, Function.update_apply, h.rooms room' hr']
  history := h.history

theorem record (h : Alike inside within st st') (ev : Event) : Alike inside within (st.record ev) (st'.record ev) where
  next := h.next
  conns := h.conns
  rooms := h.rooms
  history := by simp only [Server.record, List.filter_append, h.history]

theorem roomOf (h : Alike inside within st st') {room : String} (hr : within room = true) :
    st.roomOf room = st'.roomOf room := by
  simp only [Server.roomOf, h.rooms room hr]

theorem handle? (h : Alike inside within st st') {room : String} (hr : within room = true) (userId : String) :
    st.handle? room userId = st'.handle? room userId := by
  simp only [Server.handle?, h.rooms room hr]

end Alike

/-! ### Frames -/

/-- Whom a Join's messages go to: the joiner, and members listed before. -/
theorem joinSends_dest {room userId name : String} {p : SocketId × ServerMsg}
    (hp : p ∈ joinSends (st.roomOf room) s userId name) : p.1 = s ∨ ∃ id h, st.handle? room id = some h ∧ h.tx = p.1 := by
  have listed : ∀ id h, (((st.roomOf room).erase userId).insert userId { name, tx := s }).lookup id = some h →
      h.tx = s ∨ ∃ id h', st.handle? room id = some h' ∧ h'.tx = h.tx := by
    intro id h hlook
    by_cases hid : id = userId
    · subst hid
      rw [AList.lookup_insert, Option.some.injEq] at hlook
      exact Or.inl (hlook ▸ rfl)
    · rw [AList.lookup_insert_ne hid, AList.lookup_erase_ne hid, roomOf_lookup] at hlook
      exact Or.inr ⟨id, h, hlook, rfl⟩
  obtain ⟨dest, msg⟩ := p
  simp only [joinSends, List.mem_append] at hp
  rcases hp with (hp | hp) | hp
  · simp only [Option.mem_toList, Option.map_eq_some_iff, Prod.mk.injEq] at hp
    obtain ⟨old, hold, rfl, -⟩ := hp
    rw [roomOf_lookup] at hold
    exact Or.inr ⟨userId, old, hold, rfl⟩
  · obtain ⟨id, h, hlook, rfl, -⟩ := Fifo.mem_broadcast.mp hp
    exact listed id h hlook
  · split at hp
    · obtain ⟨id, h, hlook, rfl, -⟩ := Fifo.mem_broadcast.mp hp
      exact listed id h hlook
    · cases hp

section
variable {room : String} (inv : Inv cfg st) (grouped : Grouped inside within st)
include inv grouped

/-- The members of a room outside are sockets outside. -/
theorem tx_outside (hr : within room = false) {id : String} {h : PeerHandle} (hh : st.handle? room id = some h) :
    inside h.tx = false := (grouped _ _ _ (inv.listed room id h hh)).trans hr

theorem broadcast_outside (hr : within room = false) (g : String → Option ServerMsg) {r : Room}
    (hsub : ∀ id h, r.lookup id = some h → st.handle? room id = some h) :
    ∀ p ∈ Fifo.broadcast PeerHandle.tx g r, inside p.1 = false := by
  rintro ⟨dest, msg⟩ hp
  obtain ⟨id, h, hlook, rfl, -⟩ := Fifo.mem_broadcast.mp hp
  exact tx_outside inv grouped hr (hsub id h hlook)

variable (hs : inside s = false) (alike : Alike inside within st tt)
include hs alike

theorem cleanup_outside {me : Option (String × String)} (hme : ∀ room u, me = some (room, u) → within room = false) :
    Alike inside within (st.cleanup s me) tt := by
  rcases me with _ | ⟨room, userId⟩
  · exact alike.modifyConn_outside hs
  · have hr := hme room userId rfl
    simp only [cleanup]
    cases hrooms : st.rooms room with
    | none => exact alike.modifyConn_outside hs
    | some r =>
      refine (Alike.setRoom_outside (alike.sendAll_outside ?_) hr _).modifyConn_outside hs
      refine broadcast_outside inv grouped hr _ fun id h hlook => ?_
      by_cases hid : id = userId
      · subst hid
        rw [AList.lookup_erase] at hlook
        cases hlook
      · rw [AList.lookup_erase_ne hid] at hlook
        rw [handle?, hrooms, Option.bind_some, hlook]

omit hs in
theorem relayTo_outside {me : Option (String × String)} (hme : ∀ room u, me = some (room, u) → within room = false)
    (dest : String) (build : String → ServerMsg) : Alike inside within (st.relayTo s me dest build) tt := by
  rcases me with _ | ⟨room, sender⟩
  · exact alike
  · simp only [relayTo]
    cases hh : st.handle? room dest with
    | none => exact alike
    | some h => exact alike.trySend_outside (tx_outside inv grouped (hme room sender rfl) hh) _

omit hs in
theorem toRoom_outside (hr : within room = false) (g : String → Option ServerMsg) :
    Alike inside within (st.toRoom s room g) tt := by
  simp only [toRoom]
  cases hrooms : st.rooms room with
  | none => exact alike
  | some r =>
    refine alike.sendAll_outside (broadcast_outside inv grouped hr g fun id h hlook => ?_)
    rw [handle?, hrooms, Option.bind_some, hlook]

theorem join_outside {me : Option (String × String)} {userId name : String} {token : Option String}
    (hr : me = none → within room = false) : Alike inside within (st.join cfg s me room userId name token) tt := by
  have own (msg : ServerMsg) : Alike inside within (st.trySend s s msg) tt := alike.trySend_outside hs msg
  simp only [join]
  split
  · exact own _
  · rename_i hme
    split
    · exact (own _).modifyConn_outside hs
    · split
      · exact (own _).modifyConn_outside hs
      · split
        · exact (own _).modifyConn_outside hs
        · have hr : within room = false := hr (by simpa using hme)
          have entered : Alike inside within
              ((st.setRoom room (some (((st.roomOf room).erase userId).insert userId { name, tx := s }))).record
                (.accepted s room userId token)) tt :=
            (alike.setRoom_outside hr _).record_outside hs
          refine (entered.sendAll_outside fun p hp => ?_).modifyConn_outside hs
          rcases joinSends_dest hp with heq | ⟨id, h, hh, htx⟩
          · rw [heq, hs]
          · rw [← htx]
            exact tx_outside inv grouped hr hh

/-- What a socket outside sends changes nothing inside. -/
theorem handleFrame_outside (hc : st.conns s = some c) (hread : c.phase = .reading) {f : Frame}
    (apart : KeepsApart inside within st (.frame s f) st') : Alike inside within (st.handleFrame cfg s c.me f) tt := by
  have hme : ∀ room u, c.me = some (room, u) → within room = false := fun room u hm =>
    (grouped s room u ((ident_of_reading hc hread).trans hm)).symm.trans hs
  cases f with
  | close => exact cleanup_outside inv grouped hs alike hme
  | other => exact alike
  | badText err => exact alike.trySend_outside hs _
  | text msg =>
    cases msg with
    | join room userId name token =>
      exact join_outside inv grouped hs alike fun hn => (apart s c room userId name token rfl hc hn).symm.trans hs
    | offer dest sdp | answer dest sdp | ice dest candidate =>
      simp only [handleFrame, handleMsg]
      split
      · exact alike
      · exact relayTo_outside inv grouped alike hme _ _
    | ptt active =>
      simp only [handleFrame, handleMsg, ptt]
      split
      · exact alike
      · exact toRoom_outside inv grouped alike (hme _ _ ‹_›) _
    | rekey =>
      simp only [handleFrame, handleMsg, rekey]
      split
      · exact alike
      · exact toRoom_outside inv grouped alike (hme _ _ ‹_›) _
    | leave => exact cleanup_outside inv grouped hs alike hme

end

/-! ### The same frame in states that look alike -/

section
variable {room : String} (alike : Alike inside within st tt)
include alike

theorem cleanup_alike {me : Option (String × String)} (hme : ∀ room u, me = some (room, u) → within room = true) :
    Alike inside within (st.cleanup s me) (tt.cleanup s me) := by
  rcases me with _ | ⟨room, userId⟩
  · exact alike.modifyConn s _
  · simp only [cleanup, alike.rooms room (hme room userId rfl)]
    split
    · exact alike.modifyConn s _
    · exact ((alike.sendAll s).setRoom room _).modifyConn s _

theorem relayTo_alike {me : Option (String × String)} (hme : ∀ room u, me = some (room, u) → within room = true)
    (dest : String) (build : String → ServerMsg) :
    Alike inside within (st.relayTo s me dest build) (tt.relayTo s me dest build) := by
  rcases me with _ | ⟨room, sender⟩
  · exact alike
  · simp only [relayTo, alike.handle? (hme room sender rfl) dest]
    split
    · exact alike
    · exact alike.trySend s _ _

theorem toRoom_alike (hr : within room = true) (g : String → Option ServerMsg) :
    Alike inside within (st.toRoom s room g) (tt.toRoom s room g) := by
  simp only [toRoom, alike.rooms room hr]
  split
  · exact alike
  · exact alike.sendAll s

theorem join_alike {me : Option (String × String)} {userId name : String} {token : Option String}
    (hr : me = none → within room = true) :
    Alike inside within (st.join cfg s me room userId name token) (tt.join cfg s me room userId name token) := by
  have refused (msg : ServerMsg) : Alike inside within ((st.trySend s s msg).finish s) ((tt.trySend s s msg).finish s) :=
    (alike.trySend s s msg).modifyConn s _
  simp only [join]
  split
  · exact alike.trySend s s _
  · rename_i hme
    have same := alike.roomOf (hr (by simpa using hme))
    have full : st.isFull room userId = tt.isFull room userId := by simp only [isFull, same]
    rw [full]
    split
    · exact refused _
    · split
      · exact refused _
      · by_cases hf : tt.isFull room userId = true
        · rw [if_pos hf, if_pos hf]
          exact refused _
        · rw [if_neg hf, if_neg hf]
          simp only [enroll, same]
          exact (((alike.setRoom room _).record _).sendAll s).modifyConn s _

theorem handleFrame_alike {me : Option (String × String)} (hme : ∀ room u, me = some (room, u) → within room = true)
    {f : Frame}
    (apart : ∀ room userId name token, f = .text (.join room userId name token) → me = none → within room = true) :
    Alike inside within (st.handleFrame cfg s me f) (tt.handleFrame cfg s me f) := by
  cases f with
  | close => exact cleanup_alike alike hme
  | other => exact alike
  | badText err => exact alike.trySend s s _
  | text msg =>
    cases msg with
    | join room userId name token => exact join_alike alike (apart room userId name token rfl)
    | offer dest sdp | answer dest sdp | ice dest candidate =>
      simp only [handleFrame, handleMsg]
      split
      · exact alike
      · exact relayTo_alike alike hme _ _
    | ptt active =>
      simp only [handleFrame, handleMsg, ptt]
      split
      · exact alike
      · exact toRoom_alike alike (hme _ _ rfl) _
    | rekey =>
      simp only [handleFrame, handleMsg, rekey]
      split
      · exact alike
      · rename_i room sender
        rw [alike.handle? (hme room sender rfl) sender]
        exact toRoom_alike alike (hme room sender rfl) _
    | leave => exact cleanup_alike alike hme

end

/-! ### Runs -/

theorem grouped_step (inv : Inv cfg st) (grouped : Grouped inside within st) (apart : KeepsApart inside within st a st')
    (hs : step cfg st a = some st') : Grouped inside within st' := by
  obtain ⟨evs, -, change⟩ := step_change (inv.fresh _ (Nat.le_refl _)) hs
  intro t room u hi
  cases change with
  | same handles idents placed => exact grouped t room u (idents t ▸ hi)
  | admitted s room' userId name token rest act admits events handles idents placed =>
    obtain ⟨⟨c, hc, hread, hme⟩, -⟩ := admits
    rw [idents] at hi
    split at hi
    · rename_i ht
      cases Option.some.inj hi
      exact ht ▸ apart s c room u name token act hc hme
    · exact grouped t room u hi
  | left s room' userId identity act handles idents ended placed =>
    rw [idents] at hi
    split at hi
    · cases hi
    · exact grouped t room u hi
  | restarted act handles ended events => exact absurd (isOpen_of_ident hi) (ended t)

/-- A step outside. -/
theorem step_outside (inv : Inv cfg st) (grouped : Grouped inside within st) (alike : Alike inside within st tt)
    (unseen : a.seenBy inside within = false) (apart : KeepsApart inside within st a st') (hs : step cfg st a = some st') :
    Alike inside within st' tt := by
  cases a with
  | accept | restart => cases unseen
  | frame s f =>
    obtain ⟨c, hc, hread, rfl⟩ := step_frame_inv hs
    exact handleFrame_outside inv grouped unseen alike hc hread apart
  | finishJoin s now =>
    obtain ⟨c, room, userId, roster, hc, hj, rfl⟩ := step_finishJoin_inv hs
    refine Alike.modifyConn_outside (alike.sendAll_outside fun p hp => ?_) unseen
    rcases List.mem_cons.mp hp with rfl | hp
    · exact unseen
    · obtain ⟨t, -, rfl⟩ := Option.map_eq_some_iff.mp (Option.mem_toList.mp hp)
      exact unseen
  | close s =>
    obtain ⟨c, hc, hread, rfl⟩ := step_close_inv hs
    exact cleanup_outside inv grouped unseen alike fun room u hm =>
      (grouped s room u ((ident_of_reading hc hread).trans hm)).symm.trans unseen
  | write s =>
    obtain ⟨c, hc, hq, rfl⟩ := step_write_inv hs
    exact alike.modifyConn_outside unseen
  | writeFail s =>
    obtain ⟨c, hc, hq, rfl⟩ := step_writeFail_inv hs
    exact alike.modifyConn_outside unseen
  | abort s =>
    obtain ⟨c, hc, hp, rfl⟩ := step_abort_inv hs
    exact alike.modifyConn_outside unseen
  | rehash room r =>
    obtain ⟨r₀, hr₀, perm, rfl⟩ := step_rehash_inv hs
    exact alike.setRoom_outside unseen _

/-- A step inside. -/
theorem step_alike (grouped : Grouped inside within st) (alike : Alike inside within st tt)
    (seen : a.seenBy inside within = true) (apart : KeepsApart inside within st a st') (hs : step cfg st a = some st') :
    ∃ tt', KeepsApart inside within tt a tt' ∧ step cfg tt a = some tt' ∧ Alike inside within st' tt' := by
  have apart' (tt' : Server) : KeepsApart inside within tt a tt' := by
    intro s c room userId name token ha hc hn
    by_cases hin : inside s = true
    · exact apart s c room userId name token ha ((alike.conns s hin).trans hc) hn
    · rw [ha] at seen
      exact absurd seen hin
  refine (Exists.imp fun tt' h => ⟨apart' tt', h⟩ : (∃ tt', step cfg tt a = some tt' ∧ Alike inside within st' tt') → _) ?_
  cases a with
  | accept =>
    cases Option.some.inj hs
    refine ⟨_, rfl, by simp only [alike.next], fun s hin => ?_, alike.rooms, alike.history⟩
    simp only [alike.next, Function.update_apply, alike.conns s hin]
  | restart =>
    cases Option.some.inj hs
    exact ⟨_, rfl, alike.next, fun s hin => by simp only [alike.conns s hin], fun _ _ => rfl, alike.history⟩
  | frame s f =>
    obtain ⟨c, hc, hread, rfl⟩ := step_frame_inv hs
    refine ⟨tt.handleFrame cfg s c.me f, by simp only [step, ← alike.conns s seen, hc, hread, ↓reduceIte], ?_⟩
    refine handleFrame_alike alike (fun room u hm => ?_) fun room userId name token hf hn => ?_
    · exact (grouped s room u ((ident_of_reading hc hread).trans hm)).symm.trans seen
    · exact (apart s c room userId name token (by rw [hf]) hc hn).symm.trans seen
  | finishJoin s now =>
    obtain ⟨c, room, userId, roster, hc, hj, rfl⟩ := step_finishJoin_inv hs
    refine ⟨tt.finishJoin cfg s now room userId roster, by simp only [step, ← alike.conns s seen, hc, hj], ?_⟩
    exact (alike.sendAll s).modifyConn s _
  | close s =>
    obtain ⟨c, hc, hread, rfl⟩ := step_close_inv hs
    refine ⟨tt.cleanup s c.me, by simp only [step, ← alike.conns s seen, hc, hread, ↓reduceIte], ?_⟩
    exact cleanup_alike alike fun room u hm => (grouped s room u ((ident_of_reading hc hread).trans hm)).symm.trans seen
  | write s =>
    obtain ⟨c, hc, hq, rfl⟩ := step_write_inv hs
    refine ⟨_, ?_, alike.modifyConn s _⟩
    simp only [step, ← alike.conns s seen, hc, ne_eq, hq, not_false_eq_true, ↓reduceIte]
  | writeFail s =>
    obtain ⟨c, hc, hq, rfl⟩ := step_writeFail_inv hs
    refine ⟨_, ?_, alike.modifyConn s _⟩
    simp only [step, ← alike.conns s seen, hc, ne_eq, hq, not_false_eq_true, ↓reduceIte]
  | abort s =>
    obtain ⟨c, hc, hp, rfl⟩ := step_abort_inv hs
    refine ⟨_, ?_, alike.modifyConn s _⟩
    simp only [step, ← alike.conns s seen, hc, hp, ↓reduceIte]
  | rehash room r =>
    obtain ⟨r₀, hr₀, perm, rfl⟩ := step_rehash_inv hs
    refine ⟨_, ?_, alike.setRoom room _⟩
    simp only [step, ← alike.rooms room seen, hr₀, perm, ↓reduceIte]

theorem unwinding (cfg : ServerConfig) (inside : SocketId → Bool) (within : String → Bool) :
    Unwinding.Conditions (step cfg) (KeepsApart inside within) (SAct.seenBy inside within)
      (fun st => Inv cfg st ∧ Grouped inside within st) (Alike inside within) where
  keeps known apart hs := ⟨inv_step known.1 hs, grouped_step known.1 known.2 apart hs⟩
  unseen known alike unseen apart hs := step_outside known.1 known.2 alike unseen apart hs
  seen known _ alike seen apart hs := step_alike known.2 alike seen apart hs

/-- Whatever happens on the server, the sockets and the rooms of a group are as if the others had done nothing; and in two
    runs in which the group does the same, they are the same. -/
theorem rooms_independent {as : List SAct} (run : Lts.Run (step cfg) (KeepsApart inside within) empty as st) :
    (∃ tt, Lts.Run (step cfg) (KeepsApart inside within) empty (as.filter (SAct.seenBy inside within)) tt ∧
      Alike inside within st tt) ∧
    ∀ bs tt, Lts.Run (step cfg) (KeepsApart inside within) empty bs tt →
      bs.filter (SAct.seenBy inside within) = as.filter (SAct.seenBy inside within) → Alike inside within st tt := by
  have start : Inv cfg empty ∧ Grouped inside within empty := ⟨inv_empty, fun _ _ _ h => by cases h⟩
  have conditions := unwinding cfg inside within
  constructor
  · obtain ⟨-, tt, purged, -, alike⟩ := conditions.purge start start (Alike.refl empty) run
    exact ⟨tt, purged, alike⟩
  · exact fun bs tt run' same => conditions.runs_agree start (Alike.refl empty) Alike.meet run run' same

end

/-- Two users in the room `r`, and between them one in the room `q` who offers to them and asks for new keys. -/
def guestActs : List SAct :=
  joinActs 0 "alice" ++
  [.accept, .frame 1 (.text (.join "q" "carol" "Carol" none)), .finishJoin 1 0, .frame 1 (.text (.offer "alice" sampleSdp)),
    .frame 1 (.text .rekey)] ++
  joinActs 2 "bob" ++ [.frame 2 (.text (.offer "alice" sampleSdp)), .close 1]

theorem rooms_independent_guest : ∃ st tt,
    Lts.exec (step openConfig) empty guestActs = some st ∧
      Lts.Run (step openConfig) (KeepsApart (· != 1) (· == "r")) empty
        (joinActs 0 "alice" ++ .accept :: joinActs 2 "bob" ++ [.frame 2 (.text (.offer "alice" sampleSdp))]) tt ∧
      Alike (· != 1) (· == "r") st tt := by
  have all : Lts.execOk (step openConfig)
      (fun st a _ => match a with
        | .frame s (.text (.join room _ _ _)) =>
            ((st.conns s).map fun c => c.me.isSome || (s != 1) == (room == "r")).getD true
        | _ => true) empty guestActs = Lts.exec (step openConfig) empty guestActs := rfl
  obtain ⟨st, run⟩ : ∃ st, Lts.exec (step openConfig) empty guestActs = some st := ⟨_, rfl⟩
  have apart : Lts.Run (step openConfig) (KeepsApart (· != 1) (· == "r")) empty guestActs st :=
    Lts.Run.of_execOk (fun st a _ htest => by
      rintro s c room userId name token rfl hc hme
      simpa [hc, hme] using htest) (all.trans run)
  obtain ⟨tt, purged, alike⟩ := (rooms_independent apart).1
  exact ⟨st, tt, run, purged, alike⟩

end Server

end SquadLink
