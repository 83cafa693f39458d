import Mathlib.Data.Bool.AllAny
import Mathlib.Data.List.DropRight
import Mathlib.Order.Nat

/-! The functions of a string and its characters that Rust's standard library has and Lean's does not, or
    has with another meaning, and the size in bytes of an ASCII string. -/

namespace Text

/-! ### Characters -/

/-- `char::is_whitespace`: the Unicode property White_Space. -/
def isWhitespace (c : Char) : Bool :=
  let n := c.toNat
  (9 ≤ n && n ≤ 13) || n == 32 || n == 133 || n == 160 || n == 5760 || (8192 ≤ n && n ≤ 8202) || n == 8232 ||
    n == 8233 || n == 8239 || n == 8287 || n == 12288

/-- `char::is_control`: the Unicode category Cc. -/
def isControl (c : Char) : Bool := c.toNat < 32 || (127 ≤ c.toNat && c.toNat < 160)

def isAsciiHexdigit (c : Char) : Bool :=
  let n := c.toNat
  (48 ≤ n && n ≤ 57) || (65 ≤ n && n ≤ 70) || (97 ≤ n && n ≤ 102)

def isAsciiAlphanumeric (c : Char) : Bool :=
  let n := c.toNat
  (48 ≤ n && n ≤ 57) || (65 ≤ n && n ≤ 90) || (97 ≤ n && n ≤ 122)

theorem isAsciiAlphanumeric_of_hexdigit {c : Char} (h : isAsciiHexdigit c = true) : isAsciiAlphanumeric c = true := by
  simp only [isAsciiHexdigit, isAsciiAlphanumeric, Bool.or_eq_true, Bool.and_eq_true, decide_eq_true_eq] at h ⊢
  omega

theorem not_isWhitespace_of_alphanumeric {c : Char} (h : isAsciiAlphanumeric c = true) : isWhitespace c = false := by
  simp only [isAsciiAlphanumeric, isWhitespace, Bool.or_eq_true, Bool.and_eq_true, decide_eq_true_eq,
    Bool.or_eq_false_iff, Bool.and_eq_false_iff, decide_eq_false_iff_not, beq_eq_false_iff_ne] at h ⊢
  omega

/-! ### ASCII strings -/

/-- All characters are ASCII. -/
def Ascii (s : String) : Prop := ∀ c ∈ s.toList, c.toNat < 128

theorem utf8Size_of_ascii {c : Char} (h : c.toNat < 128) : c.utf8Size = 1 :=
  Char.utf8Size_eq_one_iff.mpr (UInt32.le_iff_toNat_le.mpr (Nat.le_of_lt_succ h))

theorem lt_of_alphanumeric {c : Char} (h : isAsciiAlphanumeric c = true) : c.toNat < 128 := by
  simp only [isAsciiAlphanumeric, Bool.or_eq_true, Bool.and_eq_true, decide_eq_true_eq] at h
  omega

theorem utf8ByteSize_ofList : ∀ l : List Char, (∀ c ∈ l, c.toNat < 128) → (String.ofList l).utf8ByteSize = l.length
  | [], _ => rfl
  | c :: l, h => by
    obtain ⟨hc, hl⟩ := List.forall_mem_cons.mp h
    rw [String.ofList_cons, String.utf8ByteSize_append, String.utf8ByteSize_singleton, utf8ByteSize_ofList l hl,
      utf8Size_of_ascii hc, List.length_cons, Nat.add_comm]

/-- An ASCII string has one byte for each character. -/
theorem Ascii.utf8ByteSize {s : String} (h : Ascii s) : s.utf8ByteSize = s.length := by
  have := utf8ByteSize_ofList s.toList h
  rwa [String.ofList_toList, String.length_toList] at this

/-! ### Trimming -/

/-- `str::trim`. -/
def trim (s : String) : String := String.ofList ((s.toList.dropWhile isWhitespace).rdropWhile isWhitespace)

/-- A string without whitespace at its ends is left as it is. -/
theorem trim_eq_self {s : String} (first : ∀ c ∈ s.toList.head?, isWhitespace c = false)
    (last : ∀ c ∈ s.toList.getLast?, isWhitespace c = false) : trim s = s := by
  have front : s.toList.dropWhile isWhitespace = s.toList := by
    cases hl : s.toList with
    | nil => rfl
    | cons c l =>
      rw [hl] at first
      exact List.dropWhile_cons_of_neg (Bool.not_eq_true _ ▸ first c rfl)
  have back : s.toList.rdropWhile isWhitespace = s.toList :=
    List.rdropWhile_eq_self_iff.mpr fun hne =>
      Bool.not_eq_true _ ▸ last _ (List.getLast?_eq_some_getLast hne)
  rw [trim, front, back, String.ofList_toList]

theorem trim_of_alphanumeric {s : String} (h : ∀ c ∈ s.toList, isAsciiAlphanumeric c = true) : trim s = s :=
  trim_eq_self (fun c hc => not_isWhitespace_of_alphanumeric (h c (List.mem_of_mem_head? hc)))
    fun c hc => not_isWhitespace_of_alphanumeric (h c (List.mem_of_getLast? hc))

theorem toList_trim (s : String) : (trim s).toList = (s.toList.dropWhile isWhitespace).rdropWhile isWhitespace :=
  String.toList_ofList

theorem head_trim {s : String} : ∀ c ∈ (trim s).toList.head?, isWhitespace c = false := by
  intro c hc
  obtain ⟨rest, hrest⟩ := List.rdropWhile_prefix isWhitespace (l := s.toList.dropWhile isWhitespace)
  have hd : (s.toList.dropWhile isWhitespace).head? = some c := by
    rw [← hrest, List.head?_append, ← toList_trim, Option.mem_def.mp hc]
    rfl
  have := List.head?_dropWhile_not isWhitespace s.toList
  rw [hd] at this
  exact this

theorem getLast_trim {s : String} : ∀ c ∈ (trim s).toList.getLast?, isWhitespace c = false := by
  intro c hc
  rw [toList_trim] at hc
  obtain ⟨hne, rfl⟩ := List.mem_getLast?_eq_getLast hc
  exact Bool.not_eq_true _ ▸ List.rdropWhile_last_not isWhitespace _ hne

@[simp] theorem trim_trim (s : String) : trim (trim s) = trim s := trim_eq_self head_trim getLast_trim

/-- Trimming a string that starts with some text reaches what follows the text only. -/
theorem toList_trim_append {s : String} {l m : List Char} (hs : s.toList = l ++ m) (hne : l ≠ [])
    (first : l.head?.any isWhitespace = false) (last : l.getLast?.any isWhitespace = false) :
    (trim s).toList = l ++ m.rdropWhile isWhitespace := by
  have front : (l ++ m).dropWhile isWhitespace = l ++ m := by
    cases l with
    | nil => exact absurd rfl hne
    | cons c l => exact List.dropWhile_cons_of_neg (Bool.not_eq_true _ ▸ first)
  have back : l.reverse.dropWhile isWhitespace = l.reverse := by
    rw [← List.head?_reverse] at last
    cases hl : l.reverse with
    | nil => rfl
    | cons c r =>
      rw [hl] at last
      exact List.dropWhile_cons_of_neg (Bool.not_eq_true _ ▸ last)
  rw [toList_trim, hs, front, List.rdropWhile, List.rdropWhile, List.reverse_append, List.dropWhile_append, back]
  split
  · rename_i hempty
    rw [List.isEmpty_iff.mp hempty, List.reverse_reverse, List.reverse_nil, List.append_nil]
  · rw [List.reverse_append, List.reverse_reverse]

/-! ### Splitting -/

/-- `str::split_once`: what stands before and after the first occurrence of the separator. -/
def splitOnce (sep : List Char) : List Char → Option (List Char × List Char)
  | [] => if sep.isEmpty then some ([], []) else none
  | c :: l =>
    if sep.isPrefixOf (c :: l) then some ([], (c :: l).drop sep.length)
    else (splitOnce sep l).map fun (before, after) => (c :: before, after)

/-- The split is at a separator whose first character does not occur earlier. -/
theorem splitOnce_append {d : Char} {sep rest : List Char} : ∀ {l : List Char}, d ∉ l →
    splitOnce (d :: sep) (l ++ (d :: sep) ++ rest) = some (l, rest)
  | [], _ => by
    have found : (d :: sep).isPrefixOf (d :: (sep ++ rest)) = true :=
      List.isPrefixOf_iff_prefix.mpr (List.prefix_append (d :: sep) rest)
    rw [List.nil_append, List.cons_append, splitOnce, if_pos found]
    exact congrArg (fun r => some ([], r)) (@List.drop_left _ (d :: sep) _)
  | c :: l, h => by
    have other : (d :: sep).isPrefixOf (c :: (l ++ (d :: sep) ++ rest)) = false := by
      rw [List.isPrefixOf_cons_cons, beq_eq_false_iff_ne.mpr (List.ne_of_not_mem_cons h), Bool.false_and]
    rw [List.cons_append, List.cons_append, splitOnce, other, if_neg Bool.false_ne_true,
      splitOnce_append (List.not_mem_of_not_mem_cons h)]
    rfl

section
variable {p : Char → Bool} {l m : List Char}

/-- Text up to the first character that ends it. -/
theorem takeWhile_append_stop (inside : ∀ c ∈ l, p c = true) (stop : ∀ c ∈ m.head?, p c = false) :
    (l ++ m).takeWhile p = l ∧ (l ++ m).dropWhile p = m := by
  rw [List.takeWhile_append_of_pos inside, List.dropWhile_append_of_pos inside]
  cases m with
  | nil => exact ⟨List.append_nil l, rfl⟩
  | cons c m =>
    rw [List.takeWhile_cons_of_neg (Bool.not_eq_true _ ▸ stop c rfl),
      List.dropWhile_cons_of_neg (Bool.not_eq_true _ ▸ stop c rfl)]
    exact ⟨List.append_nil l, rfl⟩

/-- Text from behind the last character that ends it. -/
theorem rtakeWhile_append_stop (inside : ∀ c ∈ m, p c = true) (stop : ∀ c ∈ l.getLast?, p c = false) :
    (l ++ m).rtakeWhile p = m := by
  have first : ∀ c ∈ l.reverse.head?, p c = false := by
    rw [List.head?_reverse]
    exact stop
  rw [List.rtakeWhile, List.reverse_append,
    (takeWhile_append_stop (fun c hc => inside c (List.mem_reverse.mp hc)) first).1, List.reverse_reverse]

end

end Text
