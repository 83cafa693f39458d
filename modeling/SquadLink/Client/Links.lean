import SquadLink.Client.Engine

/-! What the operations of the mesh do to the PeerConn of each peer. An operation for one peer leaves the
    others as they are; where no webrtc call fails its effect is given exactly. -/

namespace SquadLink

namespace Mesh

/-- `m'` is `m` after an operation for `peer` that sent `ms`. -/
structure Touches (m : Mesh) (peer : String) (ms : List ClientMsg) (m' : Mesh) : Prop where
  owner : m'.owner = m.owner
  myId : m'.myId = m.myId
  iceServers : m'.iceServers = m.iceServers
  conn : ∀ q, q ≠ peer → m'.conn? q = m.conn? q
  serial : ∀ q, q ≠ peer → m'.serial q = m.serial q
  out : m'.out = m.out ++ ms
  sent : m'.sent = m.sent ++ ms

section
variable {rtc : Webrtc} {w : Outcomes} {m m' m'' : Mesh} {peer : String} {ms ms' : List ClientMsg}

theorem Touches.refl (m : Mesh) (peer : String) : Touches m peer [] m :=
  ⟨rfl, rfl, rfl, fun _ _ => rfl, fun _ _ => rfl, by simp, by simp⟩

theorem Touches.trans (h : Touches m peer ms m') (h' : Touches m' peer ms' m'') : Touches m peer (ms ++ ms') m'' :=
  ⟨h'.owner.trans h.owner, h'.myId.trans h.myId, h'.iceServers.trans h.iceServers,
    fun q hq => (h'.conn q hq).trans (h.conn q hq), fun q hq => (h'.serial q hq).trans (h.serial q hq),
    by rw [h'.out, h.out, List.append_assoc], by rw [h'.sent, h.sent, List.append_assoc]⟩

variable (m) (peer)

@[simp] theorem put_conn?_self (p : PeerConn) : (m.put peer p).conn? peer = some p := by simp [put, conn?]

@[simp] theorem put_conn?_ne {q : String} (p : PeerConn) (h : q ≠ peer) : (m.put peer p).conn? q = m.conn? q := by
  simp [put, conn?, AList.lookup_insert_ne h]

@[simp] theorem put_myId (p : PeerConn) : (m.put peer p).myId = m.myId := rfl

@[simp] theorem put_serial (p : PeerConn) : (m.put peer p).serial = m.serial := rfl

@[simp] theorem send_conn? (msg : ClientMsg) : (m.send msg).conn? = m.conn? := rfl

@[simp] theorem send_serial (msg : ClientMsg) : (m.send msg).serial = m.serial := rfl

@[simp] theorem drop_conn?_self : (m.drop peer).conn? peer = none := by simp [drop, conn?]

@[simp] theorem drop_serial : (m.drop peer).serial = m.serial := rfl

@[simp] theorem opened_conn?_self : (m.opened peer).conn? peer = some (m.fresh peer) := m.put_conn?_self peer _

@[simp] theorem opened_myId : (m.opened peer).myId = m.myId := rfl

@[simp] theorem opened_serial_self : (m.opened peer).serial peer = m.serial peer + 1 := by simp [opened]

theorem Touches.put (p : PeerConn) : Touches m peer [] (m.put peer p) :=
  ⟨rfl, rfl, rfl, fun _ hq => m.put_conn?_ne peer p hq, fun _ _ => rfl, by simp [Mesh.put], by simp [Mesh.put]⟩

theorem Touches.send (msg : ClientMsg) : Touches m peer [msg] (m.send msg) :=
  ⟨rfl, rfl, rfl, fun _ _ => rfl, fun _ _ => rfl, rfl, rfl⟩

theorem Touches.drop : Touches m peer [] (m.drop peer) :=
  ⟨rfl, rfl, rfl, fun _ hq => by simp [Mesh.drop, conn?, AList.lookup_erase_ne hq], fun _ _ => rfl, by simp [Mesh.drop],
    by simp [Mesh.drop]⟩

theorem Touches.opened : Touches m peer [] (m.opened peer) :=
  ⟨rfl, rfl, rfl, fun _ hq => m.put_conn?_ne peer _ hq, fun _ hq => by simp [Mesh.opened, hq],
    by simp [Mesh.opened, Mesh.put], by simp [Mesh.opened, Mesh.put]⟩

/-! ### What an operation can do -/

variable (rtc) (w)

/-- `ensure` keeps a PeerConn that is there, and otherwise opens one or fails. -/
theorem ensure_cases :
    ((∃ p, m.conn? peer = some p) ∧ m.ensure w peer = (m, true)) ∨
    (m.conn? peer = none ∧ m.ensure w peer = (m, false)) ∨
    (m.conn? peer = none ∧ m.ensure w peer = (m.opened peer, true)) := by
  unfold ensure
  cases hp : m.conn? peer with
  | some p => exact Or.inl ⟨⟨p, rfl⟩, by simp⟩
  | none =>
    right
    simp only [Option.isSome_none, Bool.false_eq_true, ↓reduceIte, true_and]
    split
    · exact Or.inl rfl
    · split
      · exact Or.inl rfl
      · exact Or.inr rfl

/-- What an offer leaves of the PeerConn, and what it sends. -/
theorem offer_cases {p : PeerConn} (hp : m.conn? peer = some p) :
    ∃ p' ms, Touches m peer ms (m.offer rtc w peer).1 ∧ (m.offer rtc w peer).1.conn? peer = some p' ∧
      (m.offer rtc w peer).1.serial peer = m.serial peer ∧
      p'.pc = p.pc ∧ p'.remoteSet = p.remoteSet ∧ p'.remotes = p.remotes ∧
      (ms = [] ∨ ms = [.offer peer (p.nextSdp rtc none)] ∧ (m.offer rtc w peer).2 = true) := by
  simp only [offer, hp]
  split
  · exact ⟨p, [], .refl m peer, hp, rfl, rfl, rfl, rfl, Or.inl rfl⟩
  · split
    · exact ⟨_, [], .put m peer _, put_conn?_self .., rfl, rfl, rfl, rfl, Or.inl rfl⟩
    · split
      · exact ⟨_, [], .put m peer _, put_conn?_self .., rfl, rfl, rfl, rfl, Or.inl rfl⟩
      · exact ⟨_, _, (Touches.put m peer _).trans (.send _ peer _), put_conn?_self .., rfl, rfl,
          rfl, rfl, Or.inr ⟨rfl, rfl⟩⟩

/-- Seeing a peer: its PeerConn stays or a new one without remote description appears; only a smaller id
    offers, and only once. -/
theorem onPeer_cases :
    ∃ ms, Touches m peer ms (m.onPeer rtc w peer).1 ∧
      ((∃ p p', m.conn? peer = some p ∧ (m.onPeer rtc w peer).1.conn? peer = some p' ∧
          p'.pc = p.pc ∧ p'.remoteSet = p.remoteSet ∧ p'.remotes = p.remotes ∧
          (ms = [] ∨ m.myId < peer ∧ ms = [.offer peer (p.nextSdp rtc none)])) ∨
        (m.conn? peer = none ∧ (m.onPeer rtc w peer).1.conn? peer = none ∧ ms = []) ∨
        (∃ p', m.conn? peer = none ∧ (m.onPeer rtc w peer).1.conn? peer = some p' ∧
          p'.pc = (m.fresh peer).pc ∧ p'.remoteSet = false ∧ p'.remotes = [] ∧
          (ms = [] ∨ m.myId < peer ∧ ms = [.offer peer ((m.fresh peer).nextSdp rtc none)]))) := by
  unfold onPeer
  rcases m.ensure_cases w peer with ⟨⟨p, hp⟩, he⟩ | ⟨hp, he⟩ | ⟨hp, he⟩
  · simp only [he, Bool.not_true, Bool.false_eq_true, ↓reduceIte]
    split
    · rename_i hlt
      obtain ⟨p', ms, ht, hp', -, hpc, hset, hrem, hms⟩ := m.offer_cases rtc w peer hp
      refine ⟨ms, ht, Or.inl ⟨p, p', hp, hp', hpc, hset, hrem, hms.imp_right fun h => ⟨hlt, h.1⟩⟩⟩
    · exact ⟨[], .refl m peer, Or.inl ⟨p, p, hp, hp, rfl, rfl, rfl, Or.inl rfl⟩⟩
  · simp only [he, Bool.not_false, ↓reduceIte]
    exact ⟨[], .refl m peer, Or.inr (Or.inl ⟨hp, hp, rfl⟩)⟩
  · simp only [he, Bool.not_true, Bool.false_eq_true, ↓reduceIte, opened_myId]
    split
    · rename_i hlt
      obtain ⟨p', ms, ht, hp', -, hpc, hset, hrem, hms⟩ := (m.opened peer).offer_cases rtc w peer (m.opened_conn?_self peer)
      refine ⟨ms, (Touches.opened m peer).trans ht, Or.inr (Or.inr ⟨p', hp, hp', hpc, hset, hrem, ?_⟩)⟩
      exact hms.imp_right fun h => ⟨hlt, h.1⟩
    · exact ⟨[], .opened m peer, Or.inr (Or.inr ⟨_, hp, m.opened_conn?_self peer, rfl, rfl, rfl, Or.inl rfl⟩)⟩

theorem onOffer_touches (sdp : Sdp) : ∃ ms, Touches m peer ms (m.onOffer rtc w peer sdp).1 ∧
    ∀ msg ∈ ms, ∃ ans, msg = .answer peer ans := by
  have dropped : Touches m peer [] (m.dropEstablished peer) := by
    unfold dropEstablished
    split
    · split
      · exact .drop m peer
      · exact .refl m peer
    · exact .refl m peer
  have ensured : Touches m peer [] ((m.dropEstablished peer).ensure w peer).1 := by
    rcases (m.dropEstablished peer).ensure_cases w peer with ⟨-, he⟩ | ⟨-, he⟩ | ⟨-, he⟩
    · rw [he]; exact dropped
    · rw [he]; exact dropped
    · rw [he]; exact dropped.trans (.opened _ peer)
  simp only [onOffer]
  split
  · exact ⟨[], ensured, by simp⟩
  · split
    · exact ⟨[], ensured, by simp⟩
    · split
      · exact ⟨[], ensured, by simp⟩
      · split
        · exact ⟨[], ensured, by simp⟩
        · split
          · exact ⟨[], ensured.trans (.put _ peer _), by simp⟩
          · split
            · exact ⟨[], ensured.trans (.put _ peer _), by simp⟩
            · exact ⟨_, (ensured.trans (.put _ peer _)).trans (.send _ peer _), by simp⟩

/-- An offer for a PeerConn without remote description goes to that PeerConn. -/
theorem onOffer_of_unset {p : PeerConn} (hp : m.conn? peer = some p) (unset : p.remoteSet = false) (sdp : Sdp) :
    ∃ p', (m.onOffer rtc w peer sdp).1.conn? peer = some p' ∧ p'.pc = p.pc := by
  have kept : m.dropEstablished peer = m := by simp [dropEstablished, hp, unset]
  have ensured : m.ensure w peer = (m, true) := by simp [ensure, hp]
  simp only [onOffer, kept, ensured, Bool.not_true, Bool.false_eq_true, ↓reduceIte, hp]
  split
  · exact ⟨p, hp, rfl⟩
  · split
    · exact ⟨p, hp, rfl⟩
    · split
      · exact ⟨_, m.put_conn?_self peer _, by simp [PeerConn.setRemote]⟩
      · split
        · exact ⟨_, m.put_conn?_self peer _, by simp [PeerConn.created, PeerConn.setRemote]⟩
        · exact ⟨_, m.put_conn?_self peer _, by simp [PeerConn.created, PeerConn.setRemote]⟩

theorem onAnswer_cases (sdp : Sdp) :
    Touches m peer [] (m.onAnswer rtc w peer sdp).1 ∧
      ((m.onAnswer rtc w peer sdp).1 = m ∨ ∃ p, m.conn? peer = some p ∧
        (m.onAnswer rtc w peer sdp).1.conn? peer = some ((p.setRemote sdp).flushIce rtc) ∧
        (m.onAnswer rtc w peer sdp).1.serial peer = m.serial peer) := by
  unfold onAnswer
  cases hp : m.conn? peer with
  | none => exact ⟨.refl m peer, Or.inl rfl⟩
  | some p =>
    simp only
    split
    · exact ⟨.refl m peer, Or.inl rfl⟩
    · split
      · exact ⟨.refl m peer, Or.inl rfl⟩
      · exact ⟨.put m peer _, Or.inr ⟨p, rfl, m.put_conn?_self peer _, rfl⟩⟩

theorem onIce_cases (cand : Candidate) :
    Touches m peer [] (m.onIce rtc peer cand) ∧ (m.onIce rtc peer cand).serial peer = m.serial peer ∧
      (m.onIce rtc peer cand).conn? peer = (m.conn? peer).map (·.addOrQueueIce rtc cand) := by
  unfold onIce
  cases hp : m.conn? peer with
  | none => exact ⟨.refl m peer, rfl, by simp [hp]⟩
  | some p => exact ⟨.put m peer _, rfl, by simp⟩

/-! ### Where no call fails -/

variable {w} (ok : w.AllOk)
include ok

/-- The PeerConn that `ensure` leaves for the peer. -/
theorem ensure_ok : m.ensure w peer = (if (m.conn? peer).isSome then m else m.opened peer, true) := by
  unfold ensure
  split
  · rfl
  · simp [ok peer]

theorem offer_ok {p : PeerConn} (hp : m.conn? peer = some p) :
    m.offer rtc w peer =
      ((m.put peer { p with chat := true, descs := p.descs + 1, haveLocalOffer := true }).send
        (.offer peer (p.nextSdp rtc none)), true) := by
  simp only [offer, hp, ok peer, Bool.not_true, Bool.false_eq_true, ↓reduceIte]
  rfl

/-- Seeing a peer for which there is a PeerConn, and is none. -/
theorem onPeer_ok {p : PeerConn} (hp : (m.conn? peer).getD (m.fresh peer) = p) :
    ∃ m', m.onPeer rtc w peer = (m', true) ∧
      Touches m peer (if m.myId < peer then [.offer peer (p.nextSdp rtc none)] else []) m' ∧
      m'.conn? peer =
      some (if m.myId < peer then { p with chat := true, descs := p.descs + 1, haveLocalOffer := true } else p) ∧
      m'.serial peer = m.serial peer + if (m.conn? peer).isSome then 0 else 1 := by
  have ensured : ∃ m₁, m.ensure w peer = (m₁, true) ∧ Touches m peer [] m₁ ∧ m₁.conn? peer = some p ∧
      m₁.serial peer = m.serial peer + if (m.conn? peer).isSome then 0 else 1 := by
    rw [m.ensure_ok peer ok]
    cases hc : m.conn? peer with
    | some q =>
      rw [hc, Option.getD_some] at hp
      subst hp
      exact ⟨m, by simp, .refl m peer, hc, by simp⟩
    | none =>
      rw [hc, Option.getD_none] at hp
      subst hp
      exact ⟨m.opened peer, by simp, .opened m peer, m.opened_conn?_self peer, by simp⟩
  obtain ⟨m₁, he, ht, hc, hs⟩ := ensured
  simp only [onPeer, he, Bool.not_true, Bool.false_eq_true, ↓reduceIte, ht.myId]
  split
  · rw [m₁.offer_ok rtc peer ok hc]
    exact ⟨_, rfl, (ht.trans (.put _ peer _)).trans (.send _ peer _), by simp, by simpa using hs⟩
  · exact ⟨m₁, rfl, ht, hc, hs⟩

/-- An offer goes to the PeerConn that has no remote description yet, else to a new one. -/
theorem onOffer_ok {p : PeerConn} (sdp : Sdp)
    (hp : ((m.conn? peer).filter fun p => !p.remoteSet).getD (m.fresh peer) = p) :
    ∃ m', m.onOffer rtc w peer sdp = (m', true) ∧
      Touches m peer [.answer peer (((p.setRemote sdp).flushIce rtc).nextSdp rtc (some sdp.id))] m' ∧
      m'.conn? peer = some ((p.setRemote sdp).flushIce rtc).created ∧
      m'.serial peer = m.serial peer + if ((m.conn? peer).filter fun p => !p.remoteSet).isSome then 0 else 1 := by
  have ensured : ∃ m₁, (m.dropEstablished peer).ensure w peer = (m₁, true) ∧ Touches m peer [] m₁ ∧ m₁.conn? peer = some p ∧
      m₁.serial peer = m.serial peer + if ((m.conn? peer).filter fun p => !p.remoteSet).isSome then 0 else 1 := by
    rw [ensure_ok _ peer ok]
    unfold dropEstablished
    cases hc : m.conn? peer with
    | none =>
      simp only [hc, Option.filter_none, Option.getD_none] at hp
      subst hp
      exact ⟨m.opened peer, by simp [hc], .opened m peer, m.opened_conn?_self peer, by simp⟩
    | some q =>
      cases hq : q.remoteSet with
      | true =>
        simp only [hc, Option.filter_some, hq, Bool.not_true, Bool.false_eq_true, ↓reduceIte, Option.getD_none] at hp
        subst hp
        exact ⟨(m.drop peer).opened peer, by simp [hq], (Touches.drop m peer).trans (.opened _ peer),
          (m.drop peer).opened_conn?_self peer, by simp [hq]⟩
      | false =>
        simp only [hc, Option.filter_some, hq, Bool.not_false, ↓reduceIte, Option.getD_some] at hp
        subst hp
        exact ⟨m, by simp [hq, hc], .refl m peer, hc, by simp [hq]⟩
  obtain ⟨m₁, he, ht, hc, hs⟩ := ensured
  simp only [onOffer, he, Bool.not_true, Bool.false_eq_true, ↓reduceIte, hc, ok peer]
  exact ⟨_, rfl, (ht.trans (.put _ peer _)).trans (.send _ peer _), by simp, by simpa using hs⟩

theorem onAnswer_ok (sdp : Sdp) :
    Touches m peer [] (m.onAnswer rtc w peer sdp).1 ∧ (m.onAnswer rtc w peer sdp).1.serial peer = m.serial peer ∧
      (m.onAnswer rtc w peer sdp).1.conn? peer = (m.conn? peer).map fun p => (p.setRemote sdp).flushIce rtc := by
  unfold onAnswer
  cases hp : m.conn? peer with
  | none => exact ⟨.refl m peer, rfl, by simp [hp]⟩
  | some p =>
    simp only [ok peer, Bool.not_true, Bool.false_eq_true, ↓reduceIte]
    exact ⟨.put m peer _, rfl, by simp⟩

end

/-! ### Loops over the peers

The loops of the engine and of a key rotation run an operation for one peer after the other. What happens
to a given peer is what the operation for it does, between operations for others. -/

/-- `m'` is `m` after operations for peers other than `q` that sent `ms`. -/
structure Leaves (m : Mesh) (q : String) (ms : List ClientMsg) (m' : Mesh) : Prop where
  owner : m'.owner = m.owner
  myId : m'.myId = m.myId
  iceServers : m'.iceServers = m.iceServers
  conn : m'.conn? q = m.conn? q
  serial : m'.serial q = m.serial q
  out : m'.out = m.out ++ ms
  sent : m'.sent = m.sent ++ ms
  others : ∀ msg ∈ ms, msg.dest ≠ some q

section
variable {m m' m'' : Mesh} {q peer : String} {ms ms' : List ClientMsg} {op : Mesh → String → Mesh}

theorem Leaves.refl (m : Mesh) (q : String) : Leaves m q [] m := ⟨rfl, rfl, rfl, rfl, rfl, by simp, by simp, by simp⟩

theorem Leaves.trans (h : Leaves m q ms m') (h' : Leaves m' q ms' m'') : Leaves m q (ms ++ ms') m'' :=
  ⟨h'.owner.trans h.owner, h'.myId.trans h.myId, h'.iceServers.trans h.iceServers, h'.conn.trans h.conn,
    h'.serial.trans h.serial, by rw [h'.out, h.out, List.append_assoc], by rw [h'.sent, h.sent, List.append_assoc],
    fun msg hm => (List.mem_append.mp hm).elim (h.others msg) (h'.others msg)⟩

theorem Touches.leaves (h : Touches m peer ms m') (hms : ∀ msg ∈ ms, msg.dest = some peer) (hq : q ≠ peer) :
    Leaves m q ms m' :=
  ⟨h.owner, h.myId, h.iceServers, h.conn q hq, h.serial q hq, h.out, h.sent, fun msg hm he =>
    hq (Option.some.inj (he.symm.trans (hms msg hm)))⟩

/-- An operation that only touches the peer it is for. -/
def PerPeer (op : Mesh → String → Mesh) : Prop :=
  ∀ m peer, ∃ ms, Touches m peer ms (op m peer) ∧ ∀ msg ∈ ms, msg.dest = some peer

theorem PerPeer.foldl_other (hop : PerPeer op) :
    ∀ (ids : List String) (m : Mesh), q ∉ ids → ∃ ms, Leaves m q ms (ids.foldl op m)
  | [], m, _ => ⟨[], .refl m q⟩
  | id :: ids, m, h => by
    rw [List.mem_cons, not_or] at h
    obtain ⟨ms, ht, hms⟩ := hop m id
    obtain ⟨ms', hl⟩ := PerPeer.foldl_other hop ids (op m id) h.2
    exact ⟨_, (ht.leaves hms h.1).trans hl⟩

theorem PerPeer.foldl_at (hop : PerPeer op) :
    ∀ (ids : List String) (m : Mesh), ids.Nodup → q ∈ ids →
      ∃ m₀ ms₁ ms₂, Leaves m q ms₁ m₀ ∧ Leaves (op m₀ q) q ms₂ (ids.foldl op m)
  | [], _, _, h => absurd h List.not_mem_nil
  | id :: ids, m, hnd, h => by
    rw [List.nodup_cons] at hnd
    by_cases hq : q = id
    · subst hq
      obtain ⟨ms, hl⟩ := hop.foldl_other ids (op m q) hnd.1
      exact ⟨m, [], ms, .refl m q, hl⟩
    · have hmem : q ∈ ids := (List.mem_cons.mp h).resolve_left hq
      obtain ⟨ms, ht, hms⟩ := hop m id
      obtain ⟨m₀, ms₁, ms₂, h₁, h₂⟩ := PerPeer.foldl_at hop ids (op m id) hnd.2 hmem
      exact ⟨m₀, _, ms₂, (ht.leaves hms hq).trans h₁, h₂⟩

variable (rtc : Webrtc) (w : Outcomes)

theorem perPeer_onPeer : PerPeer fun m peer => (m.onPeer rtc w peer).1 := by
  intro m peer
  obtain ⟨ms, ht, h⟩ := m.onPeer_cases rtc w peer
  refine ⟨ms, ht, fun msg hm => ?_⟩
  have sent : ms = [] ∨ ∃ sdp, ms = [.offer peer sdp] := by
    rcases h with ⟨_, _, _, _, _, _, _, h | h⟩ | ⟨_, _, h⟩ | ⟨_, _, _, _, _, _, h | h⟩
    · exact Or.inl h
    · exact Or.inr ⟨_, h.2⟩
    · exact Or.inl h
    · exact Or.inl h
    · exact Or.inr ⟨_, h.2⟩
  rcases sent with rfl | ⟨sdp, rfl⟩
  · cases hm
  · rw [List.mem_singleton.mp hm]; rfl

/-- What a key rotation does for one peer. -/
def rekeyOne (m : Mesh) (id : String) : Mesh := if m.myId < id then ((m.drop id).onPeer rtc w id).1 else m

theorem perPeer_rekeyOne : PerPeer (rekeyOne rtc w) := by
  intro m peer
  unfold rekeyOne
  split
  · obtain ⟨ms, ht, hms⟩ := perPeer_onPeer rtc w (m.drop peer) peer
    exact ⟨ms, (Touches.drop m peer).trans ht, hms⟩
  · exact ⟨[], .refl m peer, by simp⟩

/-- A key rotation runs over some of the peers, and over all of them when no call fails. -/
theorem rekeyLoop_eq : ∀ (ids : List String) (m : Mesh),
    ∃ n, (rekeyLoop rtc w ids m).1 = (ids.take n).foldl (rekeyOne rtc w) m
  | [], _ => ⟨0, rfl⟩
  | id :: ids, m => by
    simp only [rekeyLoop]
    split
    · rename_i hlt
      have one : rekeyOne rtc w m id = ((m.drop id).onPeer rtc w id).1 := if_pos hlt
      split
      · exact ⟨1, one.symm⟩
      · obtain ⟨n, h⟩ := rekeyLoop_eq ids ((m.drop id).onPeer rtc w id).1
        exact ⟨n + 1, by rw [h, List.take_succ_cons, List.foldl_cons, one]⟩
    · rename_i hge
      obtain ⟨n, h⟩ := rekeyLoop_eq ids m
      exact ⟨n + 1, by rw [h, List.take_succ_cons, List.foldl_cons, rekeyOne, if_neg hge]⟩

theorem rekeyLoop_ok (ok : w.AllOk) :
    ∀ (ids : List String) (m : Mesh), rekeyLoop rtc w ids m = (ids.foldl (rekeyOne rtc w) m, true)
  | [], _ => rfl
  | id :: ids, m => by
    simp only [rekeyLoop, List.foldl_cons, rekeyOne]
    split
    · obtain ⟨m', hm', -⟩ := (m.drop id).onPeer_ok rtc id ok rfl
      simp only [hm', Bool.not_true, Bool.false_eq_true, ↓reduceIte]
      exact rekeyLoop_ok ok ids m'
    · exact rekeyLoop_ok ok ids m

theorem onPeers_eq (peers : List PeerInfo) (m : Mesh) :
    Engine.onPeers rtc w m peers = (peers.map (·.userId)).foldl (fun m peer => (m.onPeer rtc w peer).1) m := by
  rw [Engine.onPeers, List.foldl_map]

end

end Mesh

end SquadLink
