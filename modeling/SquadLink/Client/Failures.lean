import SquadLink.Client.Reactions

/-! What a failed webrtc call leaves behind. A key rotation stops at the first peer for which a call fails,
    and the engine reports the new keys all the same; an offer that fails may have replaced the PeerConn it
    was for. -/

namespace SquadLink

/-- The calls for a new PeerConn and its offer to the peer. -/
def Outcomes.offers (w : Outcomes) (peer : String) : Bool :=
  w peer .newPeerConnection && w peer .addTrack && w peer .createDataChannel && w peer .createOffer &&
    w peer .setLocalDescription

/-- The calls for the answer to an offer of the peer. -/
def Outcomes.answers (w : Outcomes) (peer : String) : Bool :=
  w peer .parseSdp && w peer .setRemoteDescription && w peer .createAnswer && w peer .setLocalDescription

namespace Mesh

/-! ### A key rotation -/

/-- From `m` to `m'` the peer has got a new PeerConn, and an offer for it was sent. -/
def Renewed (m m' : Mesh) (peer : String) : Prop :=
  ∃ p sdp ms, m'.conn? peer = some p ∧ p.pc = (m.fresh peer).pc ∧ m'.sent = m.sent ++ ms ∧
    .offer peer sdp ∈ ms ∧ sdp.id.pc = p.pc

/-- The peer has a PeerConn in `m'`, and none has been created for it since `m`. -/
def LeftOnOld (m m' : Mesh) (peer : String) : Prop := (m'.conn? peer).isSome = true ∧ m'.serial peer = m.serial peer

section
variable {rtc : Webrtc} {w : Outcomes} {m m' : Mesh} {id q : String} {ids : List String}

/-- What `on_peer` comes to for a larger id that has no PeerConn. -/
theorem onPeer_removed (h : m.conn? id = none) (hlt : m.myId < id) :
    (m.onPeer rtc w id).2 = w.offers id ∧
      ((m.onPeer rtc w id).1.conn? id = none ∨ (m.onPeer rtc w id).1.serial id = m.serial id + 1) ∧
      (w.offers id = true → Renewed m (m.onPeer rtc w id).1 id) := by
  have hopened : (m.opened id).myId < id := hlt
  unfold onPeer ensure Outcomes.offers
  cases hnew : w id .newPeerConnection with
  | false => exact ⟨by simp [h], Or.inl (by simp [h]), fun hw => by simp at hw⟩
  | true =>
    cases htrack : w id .addTrack with
    | false => exact ⟨by simp [h], Or.inl (by simp [h]), fun hw => by simp at hw⟩
    | true =>
      simp only [h, Option.isSome_none, Bool.false_eq_true, ↓reduceIte, Bool.not_true, opened_myId, hlt, Bool.true_and]
      unfold offer
      rw [opened_conn?_self]
      cases hchannel : w id .createDataChannel with
      | false => exact ⟨rfl, Or.inr (m.opened_serial_self id), fun hw => by simp at hw⟩
      | true =>
        cases hoffer : w id .createOffer with
        | false => exact ⟨rfl, Or.inr (m.opened_serial_self id), fun hw => by simp at hw⟩
        | true =>
          cases hlocal : w id .setLocalDescription with
          | false => exact ⟨rfl, Or.inr (m.opened_serial_self id), fun hw => by simp at hw⟩
          | true =>
            refine ⟨rfl, Or.inr (m.opened_serial_self id), fun _ => ?_⟩
            exact ⟨_, _, _, put_conn?_self .., rfl, rfl, List.mem_singleton_self _, rfl⟩

/-- What a rotation does for one larger id. -/
theorem rekeyOne_larger (hlt : m.myId < id) :
    ((rekeyOne rtc w m id).conn? id = none ∨ (rekeyOne rtc w m id).serial id = m.serial id + 1) ∧
      (w.offers id = true → Renewed m (rekeyOne rtc w m id) id) := by
  unfold rekeyOne
  rw [if_pos hlt]
  obtain ⟨-, hserial, hrenewed⟩ := @onPeer_removed rtc w (m.drop id) id (m.drop_conn?_self id) hlt
  exact ⟨hserial, hrenewed⟩

theorem rekeyOne_myId (m : Mesh) (id : String) : (rekeyOne rtc w m id).myId = m.myId := by
  obtain ⟨_, ht, -⟩ := perPeer_rekeyOne rtc w m id
  exact ht.myId

/-- The rotation takes the peers in their order up to the first larger id for which a call fails. -/
theorem rekeyLoop_prefix : ∀ (ids : List String) (m : Mesh),
    ((rekeyLoop rtc w ids m).1 = ids.foldl (rekeyOne rtc w) m ∧ ∀ id ∈ ids, m.myId < id → w.offers id = true) ∨
    ∃ before id after, ids = before ++ id :: after ∧ (rekeyLoop rtc w ids m).1 = (before ++ [id]).foldl (rekeyOne rtc w) m ∧
      m.myId < id ∧ w.offers id = false ∧ ∀ q ∈ before, m.myId < q → w.offers q = true
  | [], m => Or.inl ⟨rfl, nofun⟩
  | id :: ids, m => by
    by_cases hlt : m.myId < id
    · have one : rekeyOne rtc w m id = ((m.drop id).onPeer rtc w id).1 := if_pos hlt
      have ok : ((m.drop id).onPeer rtc w id).2 = w.offers id := (onPeer_removed (m.drop_conn?_self id) hlt).1
      cases hw : w.offers id with
      | false =>
        refine Or.inr ⟨[], id, ids, rfl, ?_, hlt, hw, nofun⟩
        simp only [rekeyLoop, if_pos hlt, ok, hw, Bool.not_false, ↓reduceIte]
        exact one.symm
      | true =>
        have rest : (rekeyLoop rtc w (id :: ids) m).1 = (rekeyLoop rtc w ids (rekeyOne rtc w m id)).1 := by
          simp only [rekeyLoop, if_pos hlt, ok, hw, Bool.not_true, Bool.false_eq_true, ↓reduceIte, one]
        rw [rest]
        have ih := rekeyLoop_prefix ids (rekeyOne rtc w m id)
        rw [rekeyOne_myId] at ih
        rcases ih with ⟨hfold, hall⟩ | ⟨before, x, after, rfl, hfold, hx, hfails, hall⟩
        · exact Or.inl ⟨hfold, List.forall_mem_cons.mpr ⟨fun _ => hw, hall⟩⟩
        · exact Or.inr ⟨id :: before, x, after, rfl, hfold, hx, hfails, List.forall_mem_cons.mpr ⟨fun _ => hw, hall⟩⟩
    · have one : rekeyOne rtc w m id = m := if_neg hlt
      have rest : (rekeyLoop rtc w (id :: ids) m).1 = (rekeyLoop rtc w ids m).1 := by
        simp only [rekeyLoop, if_neg hlt]
      rw [rest, List.foldl_cons, one]
      rcases rekeyLoop_prefix ids m with ⟨hfold, hall⟩ | ⟨before, x, after, rfl, hfold, hx, hfails, hall⟩
      · exact Or.inl ⟨hfold, List.forall_mem_cons.mpr ⟨fun hlt' => absurd hlt' hlt, hall⟩⟩
      · refine Or.inr
          ⟨id :: before, x, after, rfl, ?_, hx, hfails, List.forall_mem_cons.mpr ⟨fun hlt' => absurd hlt' hlt, hall⟩⟩
        rw [hfold, List.cons_append, List.foldl_cons, one]

/-- What a loop over some larger ids does for one of them. -/
theorem foldl_rekeyOne_larger (nodup : ids.Nodup) (hq : q ∈ ids) (hlt : m.myId < q) :
    ¬ LeftOnOld m (ids.foldl (rekeyOne rtc w) m) q ∧ (w.offers q = true → Renewed m (ids.foldl (rekeyOne rtc w) m) q) := by
  obtain ⟨m₀, ms₁, ms₂, h₁, h₂⟩ := (perPeer_rekeyOne rtc w).foldl_at ids m nodup hq
  obtain ⟨hserial, hrenewed⟩ := @rekeyOne_larger rtc w m₀ q (h₁.myId ▸ hlt)
  constructor
  · rintro ⟨held, same⟩
    rw [h₂.conn] at held
    rw [h₂.serial, ← h₁.serial] at same
    rcases hserial with hnone | hsucc
    · rw [hnone] at held
      cases held
    · omega
  · intro hw
    obtain ⟨p, sdp, ms, hp, hpc, hsent, hm, hid⟩ := hrenewed hw
    have fresh : (m₀.fresh q).pc = (m.fresh q).pc := by
      simp only [fresh, h₁.owner, h₁.serial]
    refine ⟨p, sdp, ms₁ ++ (ms ++ ms₂), h₂.conn.trans hp, hpc.trans fresh, ?_, ?_, hid⟩
    · rw [h₂.sent, hsent, h₁.sent, List.append_assoc, List.append_assoc]
    · exact List.mem_append_right _ (List.mem_append_left _ hm)

end

end Mesh

namespace Engine

/-- A Rekey renews every link that the engine is responsible for and for which no call fails, and the new
    keys are reported only if no such link keeps its old PeerConn. -/
structure RotatesWholly (rtc : Webrtc) (w : Outcomes) (e : Engine) (by' : String) : Prop where
  renewed : ∀ id ∈ e.mesh.peers, e.mesh.myId < id → w.offers id = true →
    e.mesh.Renewed (e.handle rtc w (.rekey by')).mesh id
  honest : (∃ n, (e.handle rtc w (.rekey by')).ui = e.ui ++ [.rekeyed n by']) →
    ∀ id ∈ e.mesh.peers, e.mesh.myId < id → ¬ e.mesh.LeftOnOld (e.handle rtc w (.rekey by')).mesh id

section
variable {rtc : Webrtc} {w : Outcomes} {e : Engine} {by' : String}

/-- What comes after an entry of a list comes after every entry that is not behind it. -/
theorem mem_after_of_split {α : Type} {before before' after after' : List α} {x y q : α}
    (h : before ++ y :: after = before' ++ x :: after') (hy : y ∉ before') (hq : q ∈ after) : q ∈ after' := by
  rcases List.append_eq_append_iff.mp h with ⟨mid, rfl, hmid⟩ | ⟨mid, rfl, hmid⟩
  · rcases List.cons_eq_append_iff.mp hmid with ⟨rfl, heq⟩ | ⟨mid', rfl, -⟩
    · cases heq
      exact hq
    · exact absurd (by simp) hy
  · rcases List.cons_eq_append_iff.mp hmid with ⟨rfl, heq⟩ | ⟨mid', -, rfl⟩
    · cases heq
      exact hq
    · exact List.mem_append_right _ (List.mem_cons_of_mem y hq)

/-- A Rekey is carried out for every link, and reported truly, exactly when in the order in which the map
    is gone through no larger id comes after one for which a call fails. -/
theorem rotates_wholly_iff : e.RotatesWholly rtc w by' ↔
    ∀ before id after, e.mesh.peers.keys = before ++ id :: after → e.mesh.myId < id → w.offers id = false →
      ∀ q ∈ after, ¬ e.mesh.myId < q := by
  have nodup : e.mesh.peers.keys.Nodup := AList.keys_nodup e.mesh.peers
  have hmesh : (e.handle rtc w (.rekey by')).mesh = (Mesh.rekeyLoop rtc w e.mesh.peers.keys e.mesh).1 := rfl
  have loop := @Mesh.rekeyLoop_prefix rtc w e.mesh.peers.keys e.mesh
  constructor
  · intro ⟨_, honest⟩ before id after hkeys hlt hfails q hq hq'
    have honest := honest ⟨_, rfl⟩
    rw [hmesh] at honest
    rcases loop with ⟨-, hall⟩ | ⟨before', x, after', hkeys', hfold, -, -, hall⟩
    · have := hall id (by rw [hkeys]; simp) hlt
      rw [hfails] at this
      cases this
    · have hid : id ∉ before' := fun hm => by
        have := hall id hm hlt
        rw [hfails] at this
        cases this
      have hafter : q ∈ after' := mem_after_of_split (hkeys.symm.trans hkeys') hid hq
      have hkey : q ∈ e.mesh.peers.keys := by
        rw [hkeys']
        exact List.mem_append_right _ (List.mem_cons_of_mem x hafter)
      -- the loop stopped before it came to `q`
      have untouched : q ∉ before' ++ [x] := fun hm => by
        rw [hkeys', List.append_cons] at nodup
        exact (List.nodup_append.mp nodup).2.2 q hm q hafter rfl
      obtain ⟨ms, leaves⟩ := (Mesh.perPeer_rekeyOne rtc w).foldl_other (before' ++ [x]) e.mesh untouched
      refine honest q hkey hq' ⟨?_, ?_⟩
      · rw [hfold, leaves.conn]
        exact AList.lookup_isSome.mpr hkey
      · rw [hfold, leaves.serial]
  · intro last
    have reached : ∀ id ∈ e.mesh.peers, e.mesh.myId < id →
        ¬ e.mesh.LeftOnOld (e.handle rtc w (.rekey by')).mesh id ∧
          (w.offers id = true → e.mesh.Renewed (e.handle rtc w (.rekey by')).mesh id) := by
      intro id hid hlt
      rw [hmesh]
      rcases loop with ⟨hfold, -⟩ | ⟨before, x, after, hkeys, hfold, hx, hfails, -⟩
      · rw [hfold]
        exact Mesh.foldl_rekeyOne_larger nodup hid hlt
      · rw [hfold]
        rw [hkeys, List.append_cons] at nodup
        refine Mesh.foldl_rekeyOne_larger (List.nodup_append.mp nodup).1 ?_ hlt
        have hmem : id ∈ (before ++ [x]) ++ after := by
          rw [← List.append_cons, ← hkeys]
          exact hid
        rcases List.mem_append.mp hmem with hmem | hmem
        · exact hmem
        · exact absurd hlt (last before x after hkeys hx hfails id hmem)
    exact ⟨fun id hid hlt => (reached id hid hlt).2, fun _ id hid hlt => (reached id hid hlt).1⟩

/-- An engine of `a` with links to `b` and `c`, where the first call for `b` fails. -/
def linkedEngine : Engine :=
  let conn (peer : String) : PeerConn :=
    { pc := { owner := 0, peer, serial := 0 }, config := [], remoteSet := true, descs := 1 }
  { cfg := { room := "r", userId := "a", name := "a", token := none, relayEnabled := false }
    mesh :=
      { owner := 0
        myId := "a"
        peers := (AList.insert "b" (conn "b") (AList.insert "c" (conn "c") ∅))
        serial := fun _ => 1 }
    cur := some 0 }

def failsForB : Outcomes := fun peer call => !(decide (peer = "b") && decide (call = .newPeerConnection))

theorem rotation_stops_at_b : ¬ ∀ rtc w e by', RotatesWholly rtc w e by' := by
  intro wholly
  let rtc : Webrtc := { sdpText := fun _ => "v=0", parsesIce := fun _ => true }
  have left : linkedEngine.mesh.LeftOnOld (linkedEngine.handle rtc failsForB (.rekey "a")).mesh "c" := ⟨rfl, rfl⟩
  exact (wholly rtc failsForB linkedEngine "a").honest ⟨2, rfl⟩ "c" (by decide) (by decide) left

end

end Engine

namespace Mesh

/-! ### A failed offer or answer -/

/-- The same PeerConns are held, and none has been closed. -/
def Unchanged (m m' : Mesh) : Prop := m'.peers = m.peers ∧ m'.closed = m.closed

/-- No call for the offer fails, or one does before anything has been changed: for a new PeerConn the calls
    that create it, for one without remote description those that give it the offer. -/
def OfferSafe (w : Outcomes) (m : Mesh) (sender : String) : Prop :=
  match m.conn? sender with
  | none => (w sender .newPeerConnection && w sender .addTrack) = false ∨ w.answers sender = true
  | some p =>
    if p.remoteSet then (w sender .newPeerConnection && w sender .addTrack && w.answers sender) = true
    else (w sender .parseSdp && w sender .setRemoteDescription) = false ∨ w.answers sender = true

/-- An offer or answer of the peer that fails changes nothing. -/
structure FailsSafely (rtc : Webrtc) (w : Outcomes) (m : Mesh) (sender : String) (sdp : Sdp) : Prop where
  offer : (m.onOffer rtc w sender sdp).2 = false → m.Unchanged (m.onOffer rtc w sender sdp).1
  answer : (m.onAnswer rtc w sender sdp).2 = false → m.Unchanged (m.onAnswer rtc w sender sdp).1

section
variable {rtc : Webrtc} {w : Outcomes} {m : Mesh} {sender : String} {p : PeerConn} {sdp : Sdp}

theorem Unchanged.conn? {m' : Mesh} (h : m.Unchanged m') (peer : String) : m'.conn? peer = m.conn? peer := by
  unfold Mesh.conn?
  rw [h.1]

/-- An answer is given to the PeerConn only when the library has taken it. -/
theorem onAnswer_failed (h : (m.onAnswer rtc w sender sdp).2 = false) : (m.onAnswer rtc w sender sdp).1 = m := by
  unfold onAnswer at h ⊢
  split
  · rfl
  · split
    · rfl
    · split
      · rfl
      · simp_all

/-- An offer on a PeerConn without remote description. -/
theorem onOffer_unset (hp : m.conn? sender = some p) (unset : p.remoteSet = false) :
    ((m.onOffer rtc w sender sdp).2 = w.answers sender) ∧
      ((m.onOffer rtc w sender sdp).2 = false → (m.Unchanged (m.onOffer rtc w sender sdp).1 ↔
        (w sender .parseSdp && w sender .setRemoteDescription) = false)) := by
  have kept : m.dropEstablished sender = m := by simp [dropEstablished, hp, unset]
  have ensured : m.ensure w sender = (m, true) := by simp [ensure, hp]
  have changed : ∀ p' : PeerConn, p'.remoteSet = true → ¬ m.Unchanged (m.put sender p') := fun p' hset h => by
    have := h.conn? sender
    rw [put_conn?_self, hp, Option.some.injEq] at this
    rw [this, unset] at hset
    cases hset
  simp only [onOffer, kept, ensured, Bool.not_true, Bool.false_eq_true, ↓reduceIte, hp, Outcomes.answers]
  cases hparse : w sender .parseSdp with
  | false => exact ⟨rfl, fun _ => iff_of_true ⟨rfl, rfl⟩ rfl⟩
  | true =>
    cases hremote : w sender .setRemoteDescription with
    | false => exact ⟨rfl, fun _ => iff_of_true ⟨rfl, rfl⟩ rfl⟩
    | true =>
      cases hcreate : w sender .createAnswer with
      | false => exact ⟨rfl, fun _ => iff_of_false (changed _ (PeerConn.flushIce_remoteSet ..)) (by simp)⟩
      | true =>
        cases hlocal : w sender .setLocalDescription with
        | false => exact ⟨rfl, fun _ => iff_of_false (changed _ (PeerConn.flushIce_remoteSet ..)) (by simp)⟩
        | true => exact ⟨rfl, fun h => by cases h⟩

/-- An offer of a peer without PeerConn. -/
theorem onOffer_absent (hp : m.conn? sender = none) :
    (m.onOffer rtc w sender sdp).2 = (w sender .newPeerConnection && w sender .addTrack && w.answers sender) ∧
      ((m.onOffer rtc w sender sdp).2 = false → (m.Unchanged (m.onOffer rtc w sender sdp).1 ↔
        (w sender .newPeerConnection && w sender .addTrack) = false)) := by
  have kept : m.dropEstablished sender = m := by simp [dropEstablished, hp]
  cases hopen : w sender .newPeerConnection && w sender .addTrack with
  | false =>
    have ensured : m.ensure w sender = (m, false) := by
      cases hnew : w sender .newPeerConnection with
      | false => simp [ensure, hp, hnew]
      | true =>
        rw [hnew, Bool.true_and] at hopen
        simp [ensure, hp, hnew, hopen]
    have failed : m.onOffer rtc w sender sdp = (m, false) := by simp [onOffer, kept, ensured]
    rw [failed, Bool.false_and]
    exact ⟨rfl, fun _ => iff_of_true ⟨rfl, rfl⟩ rfl⟩
  | true =>
    have ensured : m.ensure w sender = (m.opened sender, true) := by
      obtain ⟨hnew, htrack⟩ := Bool.and_eq_true_iff.mp hopen
      simp [ensure, hp, hnew, htrack]
    -- the new PeerConn is one without remote description
    have fresh := m.opened_conn?_self sender
    have same : m.onOffer rtc w sender sdp = (m.opened sender).onOffer rtc w sender sdp := by
      have kept' : (m.opened sender).dropEstablished sender = m.opened sender := by
        simp [dropEstablished, fresh, Mesh.fresh]
      have ensured' : (m.opened sender).ensure w sender = (m.opened sender, true) := by simp [ensure, fresh]
      simp only [onOffer, kept, ensured, kept', ensured']
    rw [same, Bool.true_and]
    refine ⟨(onOffer_unset fresh rfl).1, fun _ => iff_of_false (fun h => ?_) (by simp)⟩
    obtain ⟨p', hp', -⟩ := (m.opened sender).onOffer_of_unset rtc w sender fresh rfl sdp
    have := h.conn? sender
    rw [hp', hp] at this
    cases this

theorem onOffer_closed : (m.onOffer rtc w sender sdp).1.closed = (m.dropEstablished sender).closed := by
  have ensured : ((m.dropEstablished sender).ensure w sender).1.closed = (m.dropEstablished sender).closed := by
    rcases (m.dropEstablished sender).ensure_cases w sender with ⟨-, he⟩ | ⟨-, he⟩ | ⟨-, he⟩
    · rw [he]
    · rw [he]
    · rw [he]
      rfl
  unfold onOffer
  split
  rename_i m₁ ok hm₁
  rw [hm₁] at ensured
  repeat' split
  all_goals exact ensured

/-- An offer of an established peer: the old PeerConn is closed before any call is made. -/
theorem onOffer_established (hp : m.conn? sender = some p) (set : p.remoteSet = true) :
    (m.onOffer rtc w sender sdp).2 = (w sender .newPeerConnection && w sender .addTrack && w.answers sender) ∧
      ¬ m.Unchanged (m.onOffer rtc w sender sdp).1 := by
  have dropped : m.dropEstablished sender = m.drop sender := by simp [dropEstablished, hp, set]
  have same : m.onOffer rtc w sender sdp = (m.drop sender).onOffer rtc w sender sdp := by
    have kept : (m.drop sender).dropEstablished sender = m.drop sender := by simp [dropEstablished]
    simp only [onOffer, dropped, kept]
  constructor
  · rw [same]
    exact (onOffer_absent (m.drop_conn?_self sender)).1
  · intro h
    have hclosed := h.2
    rw [onOffer_closed, dropped] at hclosed
    simp [drop, hp] at hclosed

/-- A failed offer or answer leaves the mesh as it was exactly when no call of the offer fails that comes
    after the first change. -/
theorem fails_safely_iff : m.FailsSafely rtc w sender sdp ↔ m.OfferSafe w sender := by
  have answer : (m.onAnswer rtc w sender sdp).2 = false → m.Unchanged (m.onAnswer rtc w sender sdp).1 := fun h => by
    rw [onAnswer_failed h]
    exact ⟨rfl, rfl⟩
  have only : m.FailsSafely rtc w sender sdp ↔
      ((m.onOffer rtc w sender sdp).2 = false → m.Unchanged (m.onOffer rtc w sender sdp).1) :=
    ⟨fun h => h.offer, fun h => ⟨h, answer⟩⟩
  rw [only]
  unfold OfferSafe
  cases hp : m.conn? sender with
  | none =>
    obtain ⟨ok, unchanged⟩ := @onOffer_absent rtc w m sender sdp hp
    rw [ok] at unchanged ⊢
    simp only
    cases hopen : w sender .newPeerConnection && w sender .addTrack with
    | false =>
      rw [hopen, Bool.false_and] at unchanged
      exact iff_of_true (fun _ => (unchanged rfl).mpr rfl) (Or.inl rfl)
    | true =>
      rw [hopen, Bool.true_and] at unchanged
      rw [Bool.true_and]
      cases hw : w.answers sender with
      | false => exact iff_of_false (fun h => by simpa using (unchanged hw).mp (h rfl)) (by simp)
      | true => exact iff_of_true (fun h => by cases h) (Or.inr rfl)
  | some p =>
    simp only
    cases hset : p.remoteSet with
    | true =>
      obtain ⟨ok, changed⟩ := @onOffer_established rtc w m sender p sdp hp hset
      rw [ok, if_pos rfl]
      cases hw : w sender .newPeerConnection && w sender .addTrack && w.answers sender with
      | false => exact iff_of_false (fun h => changed (h rfl)) (by simp)
      | true => exact iff_of_true (fun h => by cases h) rfl
    | false =>
      obtain ⟨ok, unchanged⟩ := @onOffer_unset rtc w m sender p sdp hp hset
      rw [ok] at unchanged ⊢
      rw [if_neg (by simp)]
      cases hw : w.answers sender with
      | false =>
        rw [hw] at unchanged
        rw [or_iff_left (by simp)]
        exact ⟨fun h => (unchanged rfl).mp (h rfl), fun h _ => (unchanged rfl).mpr h⟩
      | true => exact iff_of_true (fun h => by cases h) (Or.inr rfl)

/-- A text that is no session description, sent as an offer by a peer with an established link. -/
theorem link_lost_to_bad_offer : ¬ ∀ rtc w m sender sdp, FailsSafely rtc w m sender sdp := by
  intro safe
  let rtc : Webrtc := { sdpText := fun _ => "v=0", parsesIce := fun _ => true }
  let w : Outcomes := fun _ call => decide (call ≠ .parseSdp)
  let sdp : Sdp := { text := "", id := { pc := { owner := 1, peer := "a", serial := 1 }, n := 0 }, replyTo := none }
  have kept := (safe rtc w Engine.linkedEngine.mesh "b" sdp).offer rfl
  have closed : (Engine.linkedEngine.mesh.onOffer rtc w "b" sdp).1.closed =
      [{ owner := 0, peer := "b", serial := 0 }] := rfl
  rw [kept.2] at closed
  cases closed

end

end Mesh

end SquadLink
