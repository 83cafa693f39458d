import Mathlib.Data.List.Induction
import Mathlib.Data.Prod.Lex
import Mathlib.Order.Bounds.Basic
import SquadLink.Lib.Matching

/-! The update check of the desktop UI (`companion/src/App.tsx`, `isNewer` and the update check effect). `read` is
    the number that a run of digits is read as: the natural number it denotes, or what that is rounded to. The
    notes shown with an update are left out but for the body of the release. -/

namespace SquadLink

/-- A release as the REST API lists it. -/
structure Release where
  draft : Option Bool
  tagName : Option String
  body : Option String
deriving DecidableEq, Repr

namespace Updates

/-- `\d+\.\d+\.\d+`. -/
def versionPattern : Matching.Matcher Char :=
  let number := Matching.plus Char.isDigit
  Matching.seq number (Matching.seq (Matching.lit '.') (Matching.seq number (Matching.seq (Matching.lit '.') number)))

/-- The version in a tag. -/
def matchVersion (tag : String) : Option String := (Matching.search versionPattern tag.toList).map String.ofList

/-- The natural number that digits denote. -/
def value (digits : List Char) : ℕ := digits.foldl (fun n c => 10 * n + (c.toNat - 48)) 0

section
variable {ν : Type} [LinearOrder ν] [Zero ν] (read : ℕ → ν)

/-- `Number` of decimal digits. No other numeral comes up in a version. -/
def number (s : List Char) : Option ν := if s.all Char.isDigit then some (read (value s)) else none

/-- `a.split(".").map(Number)`. -/
def components (a : String) : List (Option ν) := (a.toList.splitOn '.').map (number read)

/-- `pa[i] || 0`. -/
def component (pa : List (Option ν)) (i : ℕ) : ν := (pa[i]?.join).getD 0

/-- The loop over the components: the first one that differs decides. -/
def firstGreater (pa pb : List (Option ν)) : List ℕ → Bool
  | [] => false
  | i :: is => if component pa i ≠ component pb i then component pb i < component pa i else firstGreater pa pb is

/-- Parse "0.1.10" → [0,1,10]; true if `a` is a newer version than `b`. -/
def isNewer (a b : String) : Bool := firstGreater (components read a) (components read b) [0, 1, 2]

/-- One release; the newest version so far comes with the body of its release. -/
def consider (lv : Option String × String) (x : Release) : Option String × String :=
  if x.draft = some true then lv else
  match x.tagName.bind matchVersion with
  | none => lv
  | some v => if lv.1.all fun newest => isNewer read v newest then (some v, x.body.getD "") else lv

def newest (rels : List Release) : Option String × String := rels.foldl (consider read) (none, "")

/-- The update that is offered to the running version `cur`, with the body of the release. -/
def checkUpdate (cur : String) (rels : List Release) : Option (String × String) :=
  match newest read rels with
  | (none, _) => none
  | (some lv, body) => if isNewer read lv cur then some (lv, body) else none

/-! ### Versions as triples of numbers -/

/-- A run of digits. -/
def IsDigits (s : List Char) : Prop := s ≠ [] ∧ ∀ c ∈ s, c.isDigit = true

/-- `v` is of the form a.b.c, and `t` are the numbers that a, b and c are read as, in lexicographic order. -/
def Reads (v : String) (t : ν ×ₗ ν ×ₗ ν) : Prop :=
  ∃ a b c, IsDigits a ∧ IsDigits b ∧ IsDigits c ∧ v.toList = a ++ '.' :: (b ++ '.' :: c) ∧
    t = toLex (read (value a), toLex (read (value b), read (value c)))

/-- The version that a release carries, drafts apart. -/
def version (x : Release) : Option String := if x.draft = some true then none else x.tagName.bind matchVersion

def versions (rels : List Release) : List String := rels.filterMap version

/-- The versions that the releases carry, as triples. -/
def Carried (rels : List Release) : Set (ν ×ₗ ν ×ₗ ν) := {t | ∃ v ∈ versions rels, Reads read v t}

/-- The first three components. -/
def triple (a : String) : ν ×ₗ ν ×ₗ ν :=
  let pa := components read a
  toLex (component pa 0, toLex (component pa 1, component pa 2))

variable {read} {v w : String} {t : ν ×ₗ ν ×ₗ ν} {x : Release} {rels : List Release}

/-- The loop over the components is the lexicographic order. -/
theorem isNewer_iff {a b : String} : isNewer read a b = true ↔ triple read b < triple read a := by
  simp only [isNewer, firstGreater, triple, Prod.Lex.toLex_lt_toLex]
  split
  · rename_i h0
    simp [h0.symm]
  · rename_i h0
    rw [not_not] at h0
    split
    · rename_i h1
      simp [h0, h1.symm]
    · rename_i h1
      rw [not_not] at h1
      split
      · simp [h0, h1]
      · rename_i h2
        rw [not_not] at h2
        simp [h0, h1, h2]

omit [LinearOrder ν] [Zero ν] in
theorem number_digits {s : List Char} (h : IsDigits s) : number read s = some (read (value s)) :=
  if_pos (List.all_eq_true.mpr h.2)

omit [LinearOrder ν] in
theorem triple_of_reads (h : Reads read v t) : triple read v = t := by
  obtain ⟨a, b, c, ha, hb, hc, hv, rfl⟩ := h
  have dot {s : List Char} (hs : IsDigits s) : '.' ∉ s := fun hm => absurd (hs.2 '.' hm) (by decide)
  have split : v.toList.splitOn '.' = [a, b, c] := by
    rw [hv, List.splitOn_append_cons_self_of_not_mem (dot ha), List.splitOn_append_cons_self_of_not_mem (dot hb),
      List.splitOn_eq_singleton (dot hc)]
  simp [triple, components, split, component, number_digits ha, number_digits hb, number_digits hc]

omit [LinearOrder ν] [Zero ν] in
/-- The pattern takes a text of the form a.b.c. -/
theorem mem_versionPattern {l r s : List Char} : (l, r) ∈ versionPattern s ↔
    ∃ a b c, IsDigits a ∧ IsDigits b ∧ IsDigits c ∧ l = a ++ '.' :: (b ++ '.' :: c) ∧ s = l ++ r := by
  constructor
  · intro hm
    obtain ⟨a, ra, l₁, ha, h₁, rfl⟩ := Matching.mem_seq.mp hm
    obtain ⟨d, rd, l₂, hd, h₂, rfl⟩ := Matching.mem_seq.mp h₁
    obtain ⟨b, rb, l₃, hb, h₃, rfl⟩ := Matching.mem_seq.mp h₂
    obtain ⟨d', rd', c, hd', hc, rfl⟩ := Matching.mem_seq.mp h₃
    obtain ⟨rfl, da⟩ := Matching.mem_plus.mp ha
    obtain ⟨rfl, rfl⟩ := Matching.mem_lit.mp hd
    obtain ⟨rfl, db⟩ := Matching.mem_plus.mp hb
    obtain ⟨rfl, rfl⟩ := Matching.mem_lit.mp hd'
    obtain ⟨rfl, dc⟩ := Matching.mem_plus.mp hc
    exact ⟨a, b, c, da, db, dc, rfl, by simp⟩
  · rintro ⟨a, b, c, da, db, dc, rfl, rfl⟩
    have digits {s r : List Char} (h : IsDigits s) : (s, r) ∈ Matching.plus Char.isDigit (s ++ r) :=
      Matching.mem_plus.mpr ⟨rfl, h⟩
    have dot (r : List Char) : (['.'], r) ∈ Matching.lit '.' ('.' :: r) := Matching.mem_lit.mpr ⟨rfl, rfl⟩
    have third := Matching.mem_seq.mpr ⟨_, _, _, dot _, digits (r := r) dc, rfl⟩
    have second := Matching.mem_seq.mpr ⟨_, _, _, digits db, third, rfl⟩
    have first := Matching.mem_seq.mpr ⟨_, _, _, dot _, second, rfl⟩
    have whole := Matching.mem_seq.mpr ⟨_, _, _, digits da, first, rfl⟩
    simpa [versionPattern] using whole

omit [LinearOrder ν] in
/-- What is matched in a tag has the form a.b.c. -/
theorem reads_of_matchVersion {tag : String} (h : matchVersion tag = some v) : Reads read v (triple read v) := by
  obtain ⟨l, hl, rfl⟩ := Option.map_eq_some_iff.mp h
  obtain ⟨-, suf, r, -, hm⟩ := Matching.mem_of_search hl
  obtain ⟨a, b, c, da, db, dc, hv, -⟩ := mem_versionPattern.mp hm
  have reads : Reads read (String.ofList l) _ := ⟨a, b, c, da, db, dc, String.toList_ofList.trans hv, rfl⟩
  rw [triple_of_reads reads]
  exact reads

omit [LinearOrder ν] [Zero ν] in
/-- A tag without a version has no part of the form a.b.c. -/
theorem matchVersion_eq_none {tag : String} : matchVersion tag = none ↔ ∀ pre a b c post,
    IsDigits a → IsDigits b → IsDigits c → tag.toList ≠ pre ++ (a ++ '.' :: (b ++ '.' :: c) ++ post) := by
  rw [matchVersion, Option.map_eq_none_iff, Matching.search_eq_none]
  constructor
  · intro h pre a b c post da db dc htag
    have hm := mem_versionPattern.mpr ⟨a, b, c, da, db, dc, rfl, Eq.refl (a ++ '.' :: (b ++ '.' :: c) ++ post)⟩
    rw [h pre _ htag] at hm
    cases hm
  · intro h pre suf htag
    refine List.eq_nil_iff_forall_not_mem.mpr fun m hm => ?_
    obtain ⟨a, b, c, da, db, dc, hl, rfl⟩ := mem_versionPattern.mp (show (m.1, m.2) ∈ versionPattern suf from hm)
    exact h pre a b c m.2 da db dc (by rw [htag, hl])

/-- The newest of some versions: none if there are none, else one that none exceeds. -/
structure Newest (read : ℕ → ν) (vs : List String) (lv : Option String) : Prop where
  empty : lv = none → vs = []
  mem : ∀ v ∈ lv, v ∈ vs
  greatest : ∀ v ∈ lv, ∀ w ∈ vs, triple read w ≤ triple read v

theorem newest_snoc (rels : List Release) (x : Release) :
    newest read (rels ++ [x]) = consider read (newest read rels) x :=
  List.foldl_concat ..

/-- A release changes nothing, or it is the first one with a version or a newer one. -/
theorem consider_cases (read : ℕ → ν) (lv : Option String × String) (x : Release) :
    (version x = none ∧ consider read lv x = lv) ∨
    (∃ v last, version x = some v ∧ lv.1 = some last ∧ triple read v ≤ triple read last ∧
      consider read lv x = lv) ∨
    (∃ v, version x = some v ∧ (∀ last ∈ lv.1, triple read last < triple read v) ∧
      (consider read lv x).1 = some v) := by
  unfold consider version
  split
  · exact Or.inl ⟨rfl, rfl⟩
  · cases hv : x.tagName.bind matchVersion with
    | none => exact Or.inl ⟨rfl, rfl⟩
    | some v =>
      refine Or.inr ?_
      cases hlv : lv.1 with
      | none => exact Or.inr ⟨v, rfl, fun last hl => absurd hl (Option.not_mem_none last), rfl⟩
      | some last =>
        by_cases newer : isNewer read v last = true
        · refine Or.inr ⟨v, rfl, fun last hl => ?_, ?_⟩
          · cases hl
            exact isNewer_iff.mp newer
          · simp [newer]
        · refine Or.inl ⟨v, last, rfl, rfl, not_lt.mp (isNewer_iff.not.mp newer), ?_⟩
          simp [newer]

theorem newest_newest (rels : List Release) : Newest read (versions rels) (newest read rels).1 := by
  induction rels using List.reverseRecOn with
  | nil =>
    have none_yet (v : String) : v ∉ (newest read []).1 := Option.not_mem_none v
    exact ⟨fun _ => rfl, fun v hv => absurd hv (none_yet v), fun v hv => absurd hv (none_yet v)⟩
  | append_singleton rels x ih =>
    rw [newest_snoc, versions, List.filterMap_append]
    rcases consider_cases read (newest read rels) x with ⟨hx, hlv⟩ | ⟨v, last, hx, hlast, hle, hlv⟩ | ⟨v, hx, hlt, hlv⟩
    · simpa [hx, hlv, versions] using ih
    · rw [hlv]
      refine ⟨fun h => absurd (hlast.symm.trans h) (Option.some_ne_none last),
        fun w hw => List.mem_append_left _ (ih.mem w hw), fun w hw u hu => ?_⟩
      rcases List.mem_append.mp hu with hu | hu
      · exact ih.greatest w hw u hu
      · obtain rfl : last = w := Option.some.inj (hlast.symm.trans hw)
        obtain rfl : u = v := by simpa [hx] using hu
        exact hle
    · rw [hlv]
      refine ⟨fun h => absurd h (Option.some_ne_none v), fun w hw => ?_, fun w hw u hu => ?_⟩
      · cases hw
        simp [hx]
      · cases hw
        rcases List.mem_append.mp hu with hu | hu
        · cases hl : (newest read rels).1 with
          | none => rw [← versions, ih.empty hl] at hu; cases hu
          | some last => exact (ih.greatest last hl u hu).trans (hlt last hl).le
        · obtain rfl : u = v := by simpa [hx] using hu
          exact le_rfl

omit [LinearOrder ν] in
theorem reads_of_mem (h : v ∈ versions rels) : Reads read v (triple read v) := by
  obtain ⟨x, -, hx⟩ := List.mem_filterMap.mp h
  unfold version at hx
  split at hx
  · cases hx
  · obtain ⟨tag, -, htag⟩ := Option.bind_eq_some_iff.mp hx
    exact reads_of_matchVersion htag

/-- The triple of the newest version is the maximum. -/
theorem Newest.isGreatest {lv : Option String} (h : Newest read (versions rels) lv) (hv : v ∈ lv) :
    IsGreatest (Carried read rels) (triple read v) := by
  refine ⟨⟨v, h.mem v hv, reads_of_mem (h.mem v hv)⟩, fun t ⟨w, hw, ht⟩ => ?_⟩
  rw [← triple_of_reads ht]
  exact h.greatest v hv w hw

/-- The newest version as a triple is the maximum of those carried, if any is. -/
theorem newest_triple : (newest read rels).1.map (triple read) = some t ↔ IsGreatest (Carried read rels) t := by
  have known : Newest read (versions rels) (newest read rels).1 := newest_newest rels
  cases hlv : (newest read rels).1 with
  | none =>
    refine iff_of_false (Option.some_ne_none t).symm ?_
    rintro ⟨⟨v, hv, -⟩, -⟩
    rw [known.empty hlv] at hv
    cases hv
  | some v =>
    have greatest := known.isGreatest (v := v) hlv
    rw [Option.map_some, Option.some_inj]
    exact ⟨fun h => h ▸ greatest, fun h => greatest.unique h⟩

/-- The loop ends with a version that reads as the maximum. -/
theorem newest_reads : (∃ lv ∈ (newest read rels).1, Reads read lv t) ↔ IsGreatest (Carried read rels) t := by
  rw [← newest_triple, Option.map_eq_some_iff]
  refine exists_congr fun lv => and_congr_right fun hlv => ⟨triple_of_reads, ?_⟩
  rintro rfl
  exact reads_of_mem ((newest_newest rels).mem lv hlv)

omit [LinearOrder ν] [Zero ν] in
theorem carried_perm {rels' : List Release} (h : rels'.Perm rels) : Carried read rels' = Carried read rels :=
  Set.ext fun _ => exists_congr fun _ => and_congr_left fun _ => (h.filterMap version).mem_iff

theorem checkUpdate_isSome {cur : String} :
    (checkUpdate read cur rels).isSome = true ↔
      ∃ t, (newest read rels).1.map (triple read) = some t ∧ triple read cur < t := by
  unfold checkUpdate
  split
  · rename_i hlv
    simp [hlv]
  · rename_i lv body hlv
    simp only [hlv, Option.map_some, Option.some_inj, exists_eq_left', ← isNewer_iff]
    split <;> simp_all

end

/-- The update check goes by the newest version that a release carries, in whatever order the releases come, and
    whatever numbers the digits are read as: its triple is the maximum, and an update is offered if and only if
    that is greater than the running version. -/
theorem newest_in_any_order {ν : Type} [LinearOrder ν] [Zero ν] (read : ℕ → ν) (rels : List Release) (cur : String)
    {running : ν ×ₗ ν ×ₗ ν} (hcur : Reads read cur running) :
    ((newest read rels).1 = none ↔ versions rels = []) ∧
    (∀ t, (∃ lv ∈ (newest read rels).1, Reads read lv t) ↔ IsGreatest (Carried read rels) t) ∧
    (∀ rels', rels'.Perm rels → ∀ t, (∃ lv ∈ (newest read rels').1, Reads read lv t) ↔
      ∃ lv ∈ (newest read rels).1, Reads read lv t) ∧
    ((checkUpdate read cur rels).isSome = true ↔ ∃ t, IsGreatest (Carried read rels) t ∧ running < t) := by
  have known : Newest read (versions rels) (newest read rels).1 := newest_newest rels
  refine ⟨⟨known.empty, fun h => ?_⟩, fun t => newest_reads, fun rels' perm t => ?_, ?_⟩
  · refine Option.eq_none_iff_forall_not_mem.mpr fun v hv => ?_
    have hm := known.mem v hv
    rw [h] at hm
    cases hm
  · rw [newest_reads, newest_reads, carried_perm perm]
  · rw [checkUpdate_isSome, triple_of_reads hcur]
    exact exists_congr fun t => and_congr_left fun _ => newest_triple

/-- A release that came out of order, a draft and a tag without a version. -/
def sampleReleases : List Release :=
  [{ draft := none, tagName := some "v0.1.9", body := none },
    { draft := some true, tagName := some "v0.2.0", body := none },
    { draft := some false, tagName := some "v0.1.10-beta", body := some "notes" },
    { draft := some false, tagName := some "nightly", body := none }]

theorem newest_in_any_order_sample : ∃ t, IsGreatest (Carried id sampleReleases) t ∧ toLex (0, toLex (1, 9)) < t :=
  have running : Reads id "0.1.9" (toLex (0, toLex (1, 9))) :=
    ⟨['0'], ['1'], ['9'], by simp [IsDigits], by simp [IsDigits], by simp [IsDigits], rfl, rfl⟩
  (newest_in_any_order id sampleReleases "0.1.9" running).2.2.2.mp (by decide)

end Updates

end SquadLink
