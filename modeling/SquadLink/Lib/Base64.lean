import Mathlib.Order.Nat

/-! Base64 with the standard alphabet and canonical padding: a text is decoded exactly if it is the encoding of what
    comes out. -/

namespace Base64

def alphabet : List Char := "ABCDEFGHIJKLMNOPQRSTUVWXYZabcdefghijklmnopqrstuvwxyz0123456789+/".toList

def symbol (n : Nat) : Char := alphabet.getD n '='

/-- The place of a character in the alphabet. -/
def value (c : Char) : Option Nat := alphabet.findIdx? (· == c)

/-- Three bytes are four symbols; the last ones are padded. -/
def encode : List UInt8 → List Char
  | [] => []
  | [x] => [symbol (x.toNat / 4), symbol (x.toNat % 4 * 16), '=', '=']
  | [x, y] => [symbol (x.toNat / 4), symbol (x.toNat % 4 * 16 + y.toNat / 16), symbol (y.toNat % 16 * 4), '=']
  | x :: y :: z :: rest =>
    symbol (x.toNat / 4) :: symbol (x.toNat % 4 * 16 + y.toNat / 16) :: symbol (y.toNat % 16 * 4 + z.toNat / 64) ::
      symbol (z.toNat % 64) :: encode rest

/-- The bits that no byte takes have to be zero. -/
def decode : List Char → Option (List UInt8)
  | [] => some []
  | a :: b :: c :: d :: rest =>
    if rest = [] ∧ d = '=' then
      if c = '=' then do
        let i ← value a
        let j ← value b
        if j % 16 = 0 then some [.ofNat (i * 4 + j / 16)] else none
      else do
        let i ← value a
        let j ← value b
        let k ← value c
        if k % 4 = 0 then some [.ofNat (i * 4 + j / 16), .ofNat (j % 16 * 16 + k / 4)] else none
    else do
      let i ← value a
      let j ← value b
      let k ← value c
      let l ← value d
      return .ofNat (i * 4 + j / 16) :: .ofNat (j % 16 * 16 + k / 4) :: .ofNat (k % 4 * 64 + l) :: (← decode rest)
  | _ => none

theorem value_symbol {n : Nat} (h : n < 64) : value (symbol n) = some n := by
  revert n
  decide

theorem value_eq_some {c : Char} {n : Nat} (h : value c = some n) : n < 64 ∧ symbol n = c := by
  obtain ⟨hlt, hc, -⟩ := List.findIdx?_eq_some_iff_getElem.mp h
  refine ⟨hlt, ?_⟩
  rw [symbol, List.getD_eq_getElem?_getD, List.getElem?_eq_getElem hlt]
  exact beq_iff_eq.mp hc

theorem value_pad : value '=' = none := by decide

theorem value_iff {c : Char} {n : Nat} : value c = some n ↔ n < 64 ∧ symbol n = c :=
  ⟨value_eq_some, fun ⟨h, hc⟩ => hc ▸ value_symbol h⟩

theorem symbol_ne_pad {n : Nat} (h : n < 64) : symbol n ≠ '=' := fun heq => by
  have := value_symbol h
  rw [heq, value_pad] at this
  cases this

theorem symbol_mem (n : Nat) : symbol n = '=' ∨ symbol n ∈ alphabet := by
  by_cases h : n < alphabet.length
  · right
    rw [symbol, List.getD_eq_getElem?_getD, List.getElem?_eq_getElem h]
    exact List.getElem_mem h
  · left
    rw [symbol, List.getD_eq_getElem?_getD, List.getElem?_eq_none (Nat.le_of_not_lt h)]
    rfl

theorem mem_encode (bytes : List UInt8) : ∀ {c}, c ∈ encode bytes → c = '=' ∨ c ∈ alphabet := by
  fun_induction encode bytes with
  | case1 => intro c h; cases h
  | case2 x =>
    simp only [List.forall_mem_cons]
    exact ⟨symbol_mem _, symbol_mem _, .inl trivial, .inl trivial, List.forall_mem_nil _⟩
  | case3 x y =>
    simp only [List.forall_mem_cons]
    exact ⟨symbol_mem _, symbol_mem _, symbol_mem _, .inl trivial, List.forall_mem_nil _⟩
  | case4 x y z rest ih =>
    simp only [List.forall_mem_cons]
    exact ⟨symbol_mem _, symbol_mem _, symbol_mem _, symbol_mem _, fun _ => ih⟩

/-- A number that fits is the byte's. -/
theorem toNat_byte {n : Nat} (h : n < 256) : (UInt8.ofNat n).toNat = n := UInt8.toNat_ofNat_of_lt' h

theorem byte_toNat {x : UInt8} {n : Nat} (h : n = x.toNat) : UInt8.ofNat n = x := by
  rw [h, UInt8.ofNat_toNat]

/-- Decoding takes an encoding back. -/
theorem decode_encode (bytes : List UInt8) : decode (encode bytes) = some bytes := by
  fun_induction encode bytes with
  | case1 => rfl
  | case2 x =>
    have := x.toNat_lt
    rw [decode, if_pos ⟨rfl, rfl⟩, if_pos rfl, value_symbol (by omega), value_symbol (by omega)]
    simp only [Option.bind_eq_bind, Option.bind_some]
    rw [if_pos (by omega), byte_toNat (x := x) (by omega)]
  | case3 x y =>
    have := x.toNat_lt
    have := y.toNat_lt
    rw [decode, if_pos ⟨rfl, rfl⟩, if_neg (symbol_ne_pad (by omega)), value_symbol (by omega), value_symbol (by omega),
      value_symbol (by omega)]
    simp only [Option.bind_eq_bind, Option.bind_some]
    rw [if_pos (by omega), byte_toNat (x := x) (by omega), byte_toNat (x := y) (by omega)]
  | case4 x y z rest ih =>
    have := x.toNat_lt
    have := y.toNat_lt
    have := z.toNat_lt
    rw [decode, if_neg fun h => symbol_ne_pad (by omega) h.2, value_symbol (by omega), value_symbol (by omega),
      value_symbol (by omega), value_symbol (by omega), ih]
    simp only [Option.bind_eq_bind, Option.bind_some, Option.pure_def]
    rw [byte_toNat (x := x) (by omega), byte_toNat (x := y) (by omega), byte_toNat (x := z) (by omega)]

/-- Only an encoding is decoded. -/
theorem encode_of_decode (text : List Char) : ∀ {bytes}, decode text = some bytes → encode bytes = text := by
  fun_induction decode text with
  | case1 => rintro _ ⟨⟩; rfl
  | case2 a b d rest last =>
    intro bytes h
    simp only [Option.bind_eq_bind, Option.bind_eq_some_iff, value_iff, Option.ite_none_right_eq_some,
      Option.some.injEq] at h
    obtain ⟨i, ⟨hi, rfl⟩, j, ⟨hj, rfl⟩, zero, rfl⟩ := h
    have first : (i * 4 + j / 16) / 4 = i := by omega
    have second : (i * 4 + j / 16) % 4 * 16 = j := by omega
    rw [encode, toNat_byte (by omega), first, second, last.1, last.2]
  | case3 a b c d rest last three =>
    intro bytes h
    simp only [Option.bind_eq_bind, Option.bind_eq_some_iff, value_iff, Option.ite_none_right_eq_some,
      Option.some.injEq] at h
    obtain ⟨i, ⟨hi, rfl⟩, j, ⟨hj, rfl⟩, k, ⟨hk, rfl⟩, zero, rfl⟩ := h
    have first : (i * 4 + j / 16) / 4 = i := by omega
    have second : (i * 4 + j / 16) % 4 * 16 + (j % 16 * 16 + k / 4) / 16 = j := by omega
    have third : (j % 16 * 16 + k / 4) % 16 * 4 = k := by omega
    rw [encode, toNat_byte (by omega), toNat_byte (by omega), first, second, third, last.1, last.2]
  | case4 a b c d rest last ih =>
    intro bytes h
    simp only [Option.bind_eq_bind, Option.bind_eq_some_iff, value_iff, Option.pure_def, Option.some.injEq] at h
    obtain ⟨i, ⟨hi, rfl⟩, j, ⟨hj, rfl⟩, k, ⟨hk, rfl⟩, l, ⟨hl, rfl⟩, others, hothers, rfl⟩ := h
    have first : (i * 4 + j / 16) / 4 = i := by omega
    have second : (i * 4 + j / 16) % 4 * 16 + (j % 16 * 16 + k / 4) / 16 = j := by omega
    have third : (j % 16 * 16 + k / 4) % 16 * 4 + (k % 4 * 64 + l) / 64 = k := by omega
    have fourth : (k % 4 * 64 + l) % 64 = l := by omega
    rw [encode, toNat_byte (by omega), toNat_byte (by omega), toNat_byte (by omega), first,
      second, third, fourth, ih hothers]
  | case5 text nil four => rintro _ ⟨⟩

/-- The texts that are decoded are the encodings. -/
theorem decode_eq_some_iff {text : List Char} {bytes : List UInt8} : decode text = some bytes ↔ text = encode bytes :=
  ⟨fun h => (encode_of_decode text h).symm, fun h => h ▸ decode_encode bytes⟩

end Base64
