import HttpWire.Cursor
import Mathlib.Data.List.TakeWhile
import Mathlib.Data.Nat.Digits.Defs

-- A word gives up on some front part of the digits if and only if the number that all of them make
-- is too large.
namespace HttpWire

namespace Numeral

def Digit (radix : Nat) (b : UInt8) (d : Nat) : Prop :=
  d < radix ∧ (d < 10 ∧ b.toNat = 0x30 + d ∨
    10 ≤ d ∧ d < 36 ∧ (b.toNat = 0x57 + d ∨ b.toNat = 0x37 + d))

structure Run (radix : Nat) (bytes digits rest : Bytes) (values : List Nat) : Prop where
  whole : bytes = digits ++ rest
  values : List.Forall₂ (Digit radix) digits values
  ended : ∀ b ∈ rest.head?, ∀ d, ¬ Digit radix b d

section Digits

variable {radix : Nat} {b : UInt8} {d : Nat} {bytes digits rest : Bytes} {values : List Nat}

theorem digit?_iff : digit? radix b = some d ↔ Digit radix b d := by
  unfold digit? Digit
  simp only [Option.filter_eq_some_iff, decide_eq_true_eq, Bool.and_eq_true, UInt8.le_iff_toNat_le,
    UInt8.reduceToNat]
  split
  · simp only [Option.some.injEq]
    omega
  · split
    · simp only [Option.some.injEq]
      omega
    · split
      · simp only [Option.some.injEq]
        omega
      · simp only [reduceCtorEq, false_and, false_iff]
        omega

theorem isDigit_iff : isDigit radix b = true ↔ ∃ d, Digit radix b d := by
  simp only [isDigit, Option.isSome_iff_exists, digit?_iff]

-- Digits are worth what they stand for at their places, the last one least.
theorem foldl_values (each : List.Forall₂ (Digit radix) digits values) (n : Nat) :
    digits.foldl (fun n b => n * radix + (digit? radix b).getD 0) n
      = n * radix ^ values.length + Nat.ofDigits radix values.reverse := by
  induction each generalizing n with
  | nil => simp
  | cons first _ ih =>
    rw [List.foldl_cons, ih, digit?_iff.mpr first, Option.getD_some, Nat.ofDigits_reverse_cons,
      List.length_cons]
    ring

theorem all_digits (each : List.Forall₂ (Digit radix) digits values) :
    ∀ b ∈ digits, isDigit radix b = true := by
  induction each with
  | nil => exact nofun
  | cons first _ ih => exact List.forall_mem_cons.mpr ⟨isDigit_iff.mpr ⟨_, first⟩, ih⟩

theorem value_eq (each : List.Forall₂ (Digit radix) digits values) :
    value radix digits = Nat.ofDigits radix values.reverse := by
  simpa [value] using foldl_values each 0

theorem run_exists (radix : Nat) (bytes : Bytes) :
    ∃ digits rest values, Run radix bytes digits rest values := by
  have counted : ∀ digits : Bytes, (∀ b ∈ digits, isDigit radix b = true) →
      ∃ values, List.Forall₂ (Digit radix) digits values := by
    intro digits all
    induction digits with
    | nil => exact ⟨[], .nil⟩
    | cons b digits ih =>
      obtain ⟨d, first⟩ := isDigit_iff.mp (all b (List.mem_cons_self ..))
      obtain ⟨values, later⟩ := ih fun c member => all c (List.mem_cons_of_mem b member)
      exact ⟨d :: values, .cons first later⟩
  obtain ⟨values, each⟩ := counted (bytes.takeWhile (isDigit radix)) fun b member =>
    List.mem_takeWhile_imp member
  refine ⟨_, bytes.dropWhile (isDigit radix), values, List.takeWhile_append_dropWhile.symm, each, ?_⟩
  intro b first d digit
  have stops := List.head?_dropWhile_not (isDigit radix) bytes
  rw [Option.mem_def.mp first] at stops
  simp [isDigit_iff.mpr ⟨d, digit⟩] at stops

theorem Run.cut (run : Run radix bytes digits rest values) :
    bytes.takeWhile (isDigit radix) = digits ∧ bytes.dropWhile (isDigit radix) = rest := by
  rw [run.whole]
  apply takeWhile_parts
  · exact all_digits run.values
  · intro b first
    rw [Bool.eq_false_iff]
    intro digit
    obtain ⟨d, digit⟩ := isDigit_iff.mp digit
    exact run.ended b first d digit

theorem Run.readWord (run : Run radix bytes digits rest values) :
    readWord radix bytes
      = if digits ≠ [] ∧ Nat.ofDigits radix values.reverse < wordBound
        then some (Nat.ofDigits radix values.reverse, rest) else none := by
  obtain ⟨taken, dropped⟩ := run.cut
  simp only [Numeral.readWord, taken, dropped, value_eq run.values]

end Digits

section Register

def checkedMul (a b : UInt64) : Option UInt64 :=
  if a.toNat * b.toNat < wordBound then some (a * b) else none

def checkedAdd (a b : UInt64) : Option UInt64 :=
  if a.toNat + b.toNat < wordBound then some (a + b) else none

def pushDigit (radix : Nat) (n : UInt64) (b : UInt8) : Option UInt64 := do
  let d ← digit? radix b
  let shifted ← checkedMul n (UInt64.ofNat radix)
  checkedAdd shifted (UInt64.ofNat d)

variable {radix : Nat} {digits : Bytes} {values : List Nat}

theorem pushDigit_digit {b : UInt8} {d : Nat} (digit : Digit radix b d) (small : radix < wordBound)
    (n : Nat) (fits : n < wordBound) :
    pushDigit radix (UInt64.ofNat n) b
      = if n * radix + d < wordBound then some (UInt64.ofNat (n * radix + d)) else none := by
  have word : ∀ k, k < wordBound → (UInt64.ofNat k).toNat = k := fun k below =>
    UInt64.toNat_ofNat_of_lt below
  have below : d < wordBound := Nat.lt_trans digit.1 small
  unfold pushDigit checkedMul checkedAdd
  simp only [digit?_iff.mpr digit, Option.bind_eq_bind, Option.bind_some, word n fits, word radix small]
  by_cases product : n * radix < wordBound
  · rw [if_pos product, Option.bind_some, ← UInt64.ofNat_mul, word _ product, word d below,
      ← UInt64.ofNat_add]
  · have sum : ¬ n * radix + d < wordBound := by omega
    rw [if_neg product, if_neg sum, Option.bind_none]

-- A number that has left the word does not come back: each digit leaves it at least as large.
theorem foldlM_pushDigit (each : List.Forall₂ (Digit radix) digits values) (real : 0 < radix)
    (small : radix < wordBound) (n : Nat) (fits : n < wordBound) :
    digits.foldlM (pushDigit radix) (UInt64.ofNat n)
      = if n * radix ^ values.length + Nat.ofDigits radix values.reverse < wordBound
        then some (UInt64.ofNat (n * radix ^ values.length + Nat.ofDigits radix values.reverse))
        else none := by
  induction each generalizing n with
  | nil => simp [fits]
  | @cons b d digits values first _ ih =>
    have total : n * radix ^ (d :: values).length + Nat.ofDigits radix (d :: values).reverse
        = (n * radix + d) * radix ^ values.length + Nat.ofDigits radix values.reverse := by
      rw [Nat.ofDigits_reverse_cons, List.length_cons]
      ring
    rw [List.foldlM_cons, pushDigit_digit first small n fits, total]
    by_cases next : n * radix + d < wordBound
    · rw [if_pos next]
      exact ih _ next
    · have grown : n * radix + d ≤ (n * radix + d) * radix ^ values.length :=
        Nat.le_mul_of_pos_right _ (Nat.pow_pos real)
      rw [if_neg next, if_neg (by omega)]
      rfl

end Register

section Writing

def face (capital : Bool) (d : Nat) : UInt8 :=
  UInt8.ofNat (d + if d < 10 then 0x30 else if capital then 0x37 else 0x57)

def written (capital : Bool) (radix n : Nat) : Bytes :=
  match Nat.digits radix n with
  | [] => [face capital 0]
  | digits => digits.reverse.map (face capital)

variable {radix : Nat}

theorem face_digit (high : radix ≤ 36) (capital : Bool) {d : Nat} (below : d < radix) :
    Digit radix (face capital d) d := by
  refine ⟨below, ?_⟩
  unfold face
  rw [UInt8.toNat_ofNat']
  cases capital <;> split <;> simp <;> omega

theorem faces_digits (high : radix ≤ 36) (capital : Bool) (values : List Nat)
    (below : ∀ d ∈ values, d < radix) :
    List.Forall₂ (Digit radix) (values.map (face capital)) values := by
  induction values with
  | nil => exact .nil
  | cons d values ih =>
    obtain ⟨first, later⟩ := List.forall_mem_cons.mp below
    exact .cons (face_digit high capital first) (ih later)

theorem written_values (low : 2 ≤ radix) (high : radix ≤ 36) (capital : Bool) (n : Nat) :
    written capital radix n ≠ [] ∧ ∃ values,
      List.Forall₂ (Digit radix) (written capital radix n) values ∧
        Nat.ofDigits radix values.reverse = n := by
  have back := Nat.ofDigits_digits radix n
  have below : ∀ d ∈ Nat.digits radix n, d < radix := fun d member => Nat.digits_lt_base low member
  unfold written
  split
  · rename_i none
    rw [none, Nat.ofDigits_nil] at back
    refine ⟨List.cons_ne_nil _ _, [0], .cons (face_digit high capital (by omega)) .nil, ?_⟩
    simpa using back
  · rename_i some
    refine ⟨by simpa using some, (Nat.digits radix n).reverse, ?_, by rwa [List.reverse_reverse]⟩
    exact faces_digits high capital _ fun d member => below d (List.mem_reverse.mp member)

end Writing

end Numeral

namespace Cursor

open Numeral

def readUint (c : Cursor) (radix : Nat) : Option UInt64 × Cursor :=
  let count := (c.rest.takeWhile (isDigit radix)).length
  if count = 0 then (none, c)
  else
    match (c.rest.take count).foldlM (pushDigit radix) 0 with
    | none => (none, c)
    | some n => (some n, c.advance count)

section Reading

variable {c : Cursor} {radix : Nat} {digits rest : Bytes} {values : List Nat}

theorem advance_behind (whole : c.rest = digits ++ rest) :
    c.advance digits.length = ⟨c.passed ++ digits, rest⟩ := by
  simp [advance, whole]

theorem readWord?_run (run : Run radix c.rest digits rest values) :
    c.readWord? radix
      = if digits ≠ [] ∧ Nat.ofDigits radix values.reverse < wordBound
        then some (Nat.ofDigits radix values.reverse, ⟨c.passed ++ digits, rest⟩) else none := by
  have moved : c.rest.length - rest.length = digits.length := by simp [run.whole]
  rw [readWord?, run.readWord]
  split
  · rw [Option.map_some, moved, advance_behind run.whole]
  · rfl

theorem readUint_run (real : 0 < radix) (small : radix < wordBound)
    (run : Run radix c.rest digits rest values) :
    c.readUint radix
      = if digits ≠ [] ∧ Nat.ofDigits radix values.reverse < wordBound
        then (some (UInt64.ofNat (Nat.ofDigits radix values.reverse)), ⟨c.passed ++ digits, rest⟩)
        else (none, c) := by
  have taken : c.rest.take digits.length = digits := by simp [run.whole]
  have folded : digits.foldlM (pushDigit radix) 0 = _ :=
    foldlM_pushDigit run.values real small 0 (by decide)
  rw [Nat.zero_mul, Nat.zero_add] at folded
  unfold readUint
  simp only [run.cut.1, List.length_eq_zero_iff, taken, folded]
  by_cases none : digits = []
  · simp [none]
  · by_cases fits : Nat.ofDigits radix values.reverse < wordBound
    · simp [none, fits, advance_behind run.whole]
    · simp [none, fits]

end Reading

theorem word_read_exactly (radix : Nat) (low : 2 ≤ radix) (high : radix ≤ 36) :
    (∀ c : Cursor, ∃ digits rest values, Run radix c.rest digits rest values ∧
      c.readWord? radix
        = (if digits ≠ [] ∧ Nat.ofDigits radix values.reverse < 2 ^ 64
          then some (Nat.ofDigits radix values.reverse, c.advance digits.length) else none) ∧
      c.readUint radix
        = (if digits ≠ [] ∧ Nat.ofDigits radix values.reverse < 2 ^ 64
          then (some (UInt64.ofNat (Nat.ofDigits radix values.reverse)), c.advance digits.length)
          else (none, c))) ∧
    ∀ (capital : Bool) (n : Nat) (passed rest : Bytes), n < 2 ^ 64 →
      (∀ b ∈ rest.head?, ∀ d, ¬ Digit radix b d) →
      (Cursor.mk passed (written capital radix n ++ rest)).readWord? radix
          = some (n, ⟨passed ++ written capital radix n, rest⟩) ∧
        (Cursor.mk passed (written capital radix n ++ rest)).readUint radix
          = (some (UInt64.ofNat n), ⟨passed ++ written capital radix n, rest⟩) := by
  have real : 0 < radix := by omega
  have small : radix < wordBound := Nat.lt_of_le_of_lt high (by decide)
  constructor
  · intro c
    obtain ⟨digits, rest, values, run⟩ := run_exists radix c.rest
    refine ⟨digits, rest, values, run, ?_⟩
    rw [advance_behind run.whole]
    exact ⟨readWord?_run run, readUint_run real small run⟩
  · intro capital n passed rest fits ended
    obtain ⟨filled, values, each, same⟩ := written_values low high capital n
    have run : Run radix (written capital radix n ++ rest) (written capital radix n) rest values :=
      ⟨rfl, each, ended⟩
    have whole : written capital radix n ≠ [] ∧ Nat.ofDigits radix values.reverse < wordBound :=
      ⟨filled, same ▸ fits⟩
    constructor
    · rw [readWord?_run run, if_pos whole, same]
    · rw [readUint_run real small run, if_pos whole, same]

theorem largest_word_read : (2 ≤ 16 ∧ 16 ≤ 36) ∧
    (Cursor.mk (ascii "x") (ascii "FFFFFFFFFFFFFFFF;q")).readWord? 16
      = some (2 ^ 64 - 1, ⟨ascii "xFFFFFFFFFFFFFFFF", ascii ";q"⟩) := by
  have ended : ∀ b ∈ (ascii ";q").head?, ∀ d, ¬ Digit 16 b d := by
    intro b first d digit
    cases first
    exact absurd (isDigit_iff.mpr ⟨d, digit⟩) (by decide)
  have shown : written true 16 (2 ^ 64 - 1) = ascii "FFFFFFFFFFFFFFFF" := by decide
  have read := ((word_read_exactly 16 (by decide) (by decide)).2 true (2 ^ 64 - 1) (ascii "x")
    (ascii ";q") (by decide) ended).1
  rw [shown] at read
  exact ⟨by decide, read⟩

example : (ofBytes (ascii "10000000000000000;")).readUint 16 = (none, ofBytes (ascii "10000000000000000;")) := by
  decide +kernel

end Cursor

end HttpWire
