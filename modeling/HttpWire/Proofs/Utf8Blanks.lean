import HttpWire.Proofs.ListValues
import HttpWire.Proofs.Utf8

-- An ASCII byte separates: what stands before it and what stands behind it are read independently.
namespace HttpWire.Utf8

section Separation

theorem lead_lowest (b : UInt8) (p : Pending) (opened : lead b = .opened p) :
    0x80 ≤ p.lowest.toNat := by
  rcases lead_ranges b with ascii | stray | ⟨low, high⟩ | ⟨low, high⟩ | ⟨low, high⟩
  · rw [lead_whole b ascii] at opened
    cases opened
  · rw [lead_fault b stray] at opened
    cases opened
  · rw [lead_two b low high] at opened
    cases opened
    exact Nat.le_refl _
  · rw [lead_three b low high] at opened
    cases opened
    dsimp only
    split <;> decide
  · rw [lead_four b low high] at opened
    cases opened
    dsimp only
    split <;> decide

variable (b : UInt8) (small : b.toNat < 0x80) (behind : Bytes)

include small

theorem readFrom_ascii_first (start : Option Pending)
    (above : ∀ p, start = some p → 0x80 ≤ p.lowest.toNat) :
    readFrom start (b :: behind)
      = readFrom start [] ++ some (Char.ofNat b.toNat) :: readFrom none behind := by
  cases start with
  | none => simp only [readFrom, lead_whole b small, List.nil_append]
  | some p =>
    have refused : ¬ p.accepts b = true := by
      intro fits
      have low := ((accepts_iff p b).mp fits).1
      have high := above p rfl
      omega
    simp only [readFrom, refused, lead_whole b small]
    rfl

theorem readFrom_append_ascii (front : Bytes) (start : Option Pending)
    (above : ∀ p, start = some p → 0x80 ≤ p.lowest.toNat) :
    readFrom start (front ++ b :: behind)
      = readFrom start front ++ some (Char.ofNat b.toNat) :: readFrom none behind := by
  induction front generalizing start with
  | nil => exact readFrom_ascii_first b small behind start above
  | cons a front ih =>
    have fresh := ih none nofun
    have opened : ∀ p, lead a = .opened p → readFrom (some p) (front ++ b :: behind)
        = readFrom (some p) front ++ some (Char.ofNat b.toNat) :: readFrom none behind := by
      intro p led
      apply ih
      intro q same
      cases same
      exact lead_lowest a p led
    rw [List.cons_append]
    cases start with
    | none =>
      simp only [readFrom]
      cases led : lead a with
      | whole c => simp only [fresh, List.cons_append]
      | opened p => simp only [opened p led]
      | fault => simp only [fresh, List.cons_append]
    | some p =>
      simp only [readFrom]
      by_cases fits : p.accepts a = true
      · rw [if_pos fits, if_pos fits]
        cases p.following with
        | zero => simp only [fresh, List.cons_append]
        | succ n =>
          apply ih
          intro q same
          cases same
          exact Nat.le_refl _
      · rw [if_neg fits, if_neg fits]
        cases led : lead a with
        | whole c => simp only [fresh, List.cons_append]
        | opened q => simp only [opened q led, List.cons_append]
        | fault => simp only [fresh, List.cons_append]

theorem lossy_append_ascii (front : Bytes) :
    lossy (front ++ b :: behind) = lossy front ++ Char.ofNat b.toNat :: lossy behind := by
  unfold lossy read
  rw [readFrom_append_ascii b small behind front none nofun, List.map_append, List.map_cons]
  rfl

end Separation

-- Bytes that are not ASCII stand for no character that is a blank.
theorem lossy_no_blank (bytes : Bytes) (high : ∀ b ∈ bytes, 0x80 ≤ b.toNat) :
    ∀ c ∈ lossy bytes, Text.isBlank c = false := by
  intro c member
  cases blank : Text.isBlank c with
  | false => rfl
  | true =>
    have ascii : c.toNat < 0x80 := by
      rcases (Text.isBlank_iff c).mp blank with rfl | rfl
      · decide
      · decide
    have inside := high _ (lossy_ascii c ascii bytes member)
    rw [toNat_byte _ (by omega)] at inside
    omega

-- What has begun is at least a fault.
theorem readFrom_begun (p : Pending) (bytes : Bytes) : readFrom (some p) bytes ≠ [] := by
  induction bytes generalizing p with
  | nil => exact List.cons_ne_nil _ _
  | cons b bytes ih =>
    unfold readFrom
    split
    · split
      · exact List.cons_ne_nil _ _
      · exact ih _
    · exact List.cons_ne_nil _ _

theorem lossy_ne_nil (bytes : Bytes) (filled : bytes ≠ []) : lossy bytes ≠ [] := by
  intro empty
  have none : readFrom none bytes = [] := List.map_eq_nil_iff.mp empty
  cases bytes with
  | nil => exact filled rfl
  | cons b bytes =>
    simp only [readFrom] at none
    split at none
    · cases none
    · exact readFrom_begun _ _ none
    · cases none

section Blanks

variable (bytes : Bytes)

theorem blank_byte (b : UInt8) (blank : Text.isBlankByte b = true) :
    b.toNat < 0x80 ∧ Text.isBlank (Char.ofNat b.toNat) = true := by
  rcases (Text.isBlankByte_iff b).mp blank with rfl | rfl
  · decide
  · decide

theorem plain_byte (b : UInt8) (plain : Text.isBlankByte b = false) :
    Text.isBlank (Char.ofNat b.toNat) = false := by
  have value : (Char.ofNat b.toNat).toNat = b.toNat :=
    ofNat_small _ (Nat.lt_trans b.toNat_lt (by decide))
  have differs : ∀ c : Char, Char.ofNat b.toNat = c → b = UInt8.ofNat c.toNat := by
    intro c same
    rw [← same, value, UInt8.ofNat_toNat]
  cases blank : Text.isBlank (Char.ofNat b.toNat) with
  | false => rfl
  | true =>
    rcases (Text.isBlank_iff _).mp blank with space | tab
    · rw [differs ' ' space] at plain
      exact absurd plain (by decide)
    · rw [differs '\t' tab] at plain
      exact absurd plain (by decide)

theorem first_ascii : (∀ b ∈ bytes, 0x80 ≤ b.toNat) ∨
    ∃ front b behind, bytes = front ++ b :: behind ∧ b.toNat < 0x80 ∧
      ∀ b ∈ front, 0x80 ≤ b.toNat := by
  by_cases some : ∃ b ∈ bytes, b.toNat < 0x80
  · obtain ⟨b, member, small⟩ := some
    obtain ⟨a, front, behind, high, ascii, whole, _⟩ :=
      List.exists_of_eraseP (p := fun b : UInt8 => decide (b.toNat < 0x80)) member (by simpa using small)
    exact .inr ⟨front, a, behind, whole, by simpa using ascii, by simpa using high⟩
  · left
    intro b member
    by_contra small
    exact some ⟨b, member, by omega⟩

-- The first character is a blank only if the first byte is one.
theorem lossy_first (plain : ∀ b, bytes.head? = some b → Text.isBlankByte b = false)
    (c : Char) (first : (lossy bytes).head? = some c) : Text.isBlank c = false := by
  rcases first_ascii bytes with high | ⟨front, b, behind, rfl, small, high⟩
  · exact lossy_no_blank bytes high c (List.mem_of_head? first)
  · rw [lossy_append_ascii b small] at first
    cases front with
    | nil =>
      cases first
      exact plain_byte b (plain b rfl)
    | cons a front =>
      have real := lossy_ne_nil (a :: front) (List.cons_ne_nil _ _)
      rw [List.head?_append_of_ne_nil _ real] at first
      exact lossy_no_blank _ high c (List.mem_of_head? first)

theorem lossy_last (plain : ∀ b, bytes.getLast? = some b → Text.isBlankByte b = false)
    (c : Char) (last : (lossy bytes).getLast? = some c) : Text.isBlank c = false := by
  rcases first_ascii bytes.reverse with high | ⟨front, b, behind, whole, small, high⟩
  · exact lossy_no_blank bytes (by simpa using high) c (List.mem_of_getLast? last)
  · have split : bytes = behind.reverse ++ b :: front.reverse := by
      rw [← List.reverse_reverse bytes, whole]
      simp
    rw [split, lossy_append_ascii b small] at last
    cases front with
    | nil =>
      simp only [List.reverse_nil, lossy_nil, List.getLast?_concat, Option.some.injEq] at last
      subst last
      apply plain_byte b
      apply plain
      rw [split]
      simp
    | cons a front =>
      have real := lossy_ne_nil (a :: front).reverse (by simp)
      rw [List.getLast?_append, List.getLast?_cons_of_ne_nil real,
        List.getLast?_eq_some_getLast real, Option.some_or] at last
      apply lossy_no_blank (a :: front).reverse (fun b member => high b (List.mem_reverse.mp member)) c
      rw [← Option.some.inj last]
      exact List.getLast_mem real

theorem lossy_dropWhile :
    lossy (bytes.dropWhile Text.isBlankByte) = (lossy bytes).dropWhile Text.isBlank := by
  induction bytes with
  | nil => rfl
  | cons b bytes ih =>
    by_cases blank : Text.isBlankByte b = true
    · obtain ⟨small, same⟩ := blank_byte b blank
      have read : lossy (b :: bytes) = Char.ofNat b.toNat :: lossy bytes :=
        lossy_append_ascii b small bytes []
      rw [List.dropWhile_cons_of_pos blank, read, List.dropWhile_cons_of_pos same, ih]
    · have plain : ∀ a, (b :: bytes).head? = some a → Text.isBlankByte a = false := by
        intro a first
        cases first
        simpa using blank
      rw [List.dropWhile_cons_of_neg blank]
      cases read : lossy (b :: bytes) with
      | nil => rfl
      | cons c later =>
        have kept := lossy_first _ plain c (by rw [read]; rfl)
        rw [List.dropWhile_cons_of_neg (by rw [kept]; exact Bool.false_ne_true)]

theorem lossy_rdropWhile :
    lossy (bytes.rdropWhile Text.isBlankByte) = (lossy bytes).rdropWhile Text.isBlank := by
  induction bytes using List.reverseRecOn with
  | nil => rfl
  | append_singleton bytes b ih =>
    by_cases blank : Text.isBlankByte b = true
    · obtain ⟨small, same⟩ := blank_byte b blank
      rw [List.rdropWhile_concat_pos _ _ _ blank, ih, lossy_append_ascii b small [] bytes, lossy_nil,
        List.rdropWhile_concat_pos _ _ _ same]
    · rw [List.rdropWhile_concat_neg _ _ _ blank]
      symm
      rw [List.rdropWhile_eq_self_iff]
      intro filled
      rw [lossy_last (bytes ++ [b]) ?_ _ (List.getLast?_eq_some_getLast filled)]
      · exact Bool.false_ne_true
      · intro a last
        rw [List.getLast?_concat] at last
        cases last
        simpa using blank

theorem lossy_trim : lossy (trimBoth Text.isBlankByte bytes) = Text.trim (lossy bytes) := by
  rw [trimBoth_eq, lossy_rdropWhile, lossy_dropWhile]
  rfl

end Blanks

end HttpWire.Utf8
