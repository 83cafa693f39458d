import Mathlib.Data.List.Perm.Basic
import SquadLink.Client.Engine

/-! The roster shown to the user (`companion-core/src/lib.rs`, `emit_roster`): built from the members map in
    its iteration order, and sorted by name. -/

namespace SquadLink

namespace Engine

/-- What a member is shown as. -/
def memberShown (m : Sigma fun _ : String => Member) : Participant :=
  { userId := m.1, name := m.2.name, you := false, badge := m.2.badge, speaking := m.2.speaking }

/-- The user first, then every member exactly once, ordered by name. -/
structure Lists (e : Engine) (ps : List Participant) : Prop where
  user : ps.head? = some { userId := e.cfg.userId, name := e.cfg.name, you := true, badge := none, speaking := e.transmit }
  members : ps.tail.Perm (e.members.entries.map memberShown)
  ordered : ps.tail.Pairwise fun p q => p.name ≤ q.name

/-- The members map as a hash map may iterate it at another time. -/
def Reordered (e : Engine) (members : HashMap Member) : Prop := members.entries.Perm e.members.entries

/-- One list that lists the user and the members is shown whatever the iteration order. -/
def RosterDetermined (e : Engine) : Prop :=
  ∃ ps, e.Lists ps ∧ ∀ members, e.Reordered members → { e with members }.emitRoster = { e with members }.emit (.roster ps)

section
variable {e : Engine}

theorem participants_eq (e : Engine) : e.participants =
    { userId := e.cfg.userId, name := e.cfg.name, you := true, badge := none, speaking := e.transmit } ::
      Sorting.sortOn (·.name) (e.members.entries.map memberShown) := rfl

theorem lists_participants (e : Engine) : e.Lists e.participants where
  user := rfl
  members := Sorting.sortOn_perm _ _
  ordered := Sorting.pairwise_sortOn _ _

theorem names_shown (e : Engine) :
    (e.members.entries.map memberShown).map (·.name) = e.members.entries.map (·.2.name) := by
  rw [List.map_map]
  rfl

/-- Members are shown with their ids, which differ. -/
theorem nodup_shown (e : Engine) : (e.members.entries.map memberShown).Nodup := by
  have ids : (e.members.entries.map memberShown).map (·.userId) = e.members.keys := by
    rw [List.map_map]
    rfl
  exact List.Nodup.of_map (·.userId) (ids ▸ e.members.keys_nodup)

/-- A reordering of what is shown comes from one of the map. -/
theorem reordered_of_shown {shown : List Participant} (h : shown.Perm (e.members.entries.map memberShown)) :
    ∃ members, e.Reordered members ∧ members.entries.map memberShown = shown := by
  obtain ⟨entries, rfl, perm⟩ := (congrFun₂ (List.eq_map_comp_perm memberShown) shown e.members.entries).mpr h
  exact ⟨{ entries, nodupKeys := (List.perm_nodupKeys perm).mpr e.members.nodupKeys }, perm, rfl⟩

/-- The roster is determined by the members if and only if their sorting by name does not depend on the order
    in which they come. -/
theorem rosterDetermined_iff_sortOn : e.RosterDetermined ↔ ∀ shown : List Participant,
    shown.Perm (e.members.entries.map memberShown) →
      Sorting.sortOn (·.name) shown = Sorting.sortOn (·.name) (e.members.entries.map memberShown) := by
  constructor
  · rintro ⟨ps, -, all⟩ shown h
    obtain ⟨members, hm, rfl⟩ := reordered_of_shown h
    have hps {m : HashMap Member} (hm : e.Reordered m) : ({ e with members := m } : Engine).participants = ps := by
      have hui := congrArg Engine.ui (all m hm)
      simpa [emitRoster, emit] using hui
    have heq := (hps hm).trans (hps (List.Perm.refl _)).symm
    rw [participants_eq, participants_eq] at heq
    exact (List.cons.inj heq).2
  · intro h
    refine ⟨e.participants, e.lists_participants, fun members hm => ?_⟩
    have same : ({ e with members } : Engine).participants = e.participants := by
      rw [participants_eq, participants_eq]
      exact congrArg _ (h _ (hm.map memberShown))
    rw [emitRoster, same]

end

/-- The roster shown depends on the members alone, and not on the iteration order of their map, if and only if
    no two members have the same name. -/
theorem rosterDetermined_iff (e : Engine) : e.RosterDetermined ↔ (e.members.entries.map (·.2.name)).Nodup := by
  rw [rosterDetermined_iff_sortOn, ← names_shown]
  constructor
  · exact Sorting.distinct_of_sortOn_congr e.nodup_shown
  · exact fun distinct shown h => Sorting.sortOn_congr distinct h

/-- Alice beside two members with the default name. -/
def besideCommanders : Engine :=
  { cfg := { room := "r", userId := "alice", name := "Alice", token := none, relayEnabled := false }
    mesh := { owner := 0, myId := "alice" }
    members := rosterMembers [{ userId := "bob", name := "Commander" }, { userId := "carol", name := "Commander" }]
    cur := some 0 }

theorem roster_undetermined : ¬ ∀ e : Engine, e.RosterDetermined := by
  intro all
  have distinct := Sorting.distinct_of_sortOn_congr besideCommanders.nodup_shown
    (rosterDetermined_iff_sortOn.mp (all besideCommanders))
  rw [names_shown] at distinct
  exact absurd distinct (by decide)

end Engine

end SquadLink
