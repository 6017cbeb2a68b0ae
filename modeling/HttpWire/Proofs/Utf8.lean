import HttpWire.Text.Charset

-- An ASCII character stands for its own byte and for no other piece of the input.
namespace HttpWire.Utf8

section Lead

variable (b : UInt8)

theorem lead_eq : lead b =
    if b.toNat < 0x80 then .whole (Char.ofNat b.toNat)
    else if b.toNat < 0xC2 then .fault
    else if b.toNat < 0xE0 then .opened ⟨0x80, 0xBF, 0, b.toNat % 32⟩
    else if b.toNat = 0xE0 then .opened ⟨0xA0, 0xBF, 1, 0⟩
    else if b.toNat = 0xED then .opened ⟨0x80, 0x9F, 1, 13⟩
    else if b.toNat < 0xF0 then .opened ⟨0x80, 0xBF, 1, b.toNat % 16⟩
    else if b.toNat = 0xF0 then .opened ⟨0x90, 0xBF, 2, 0⟩
    else if b.toNat < 0xF4 then .opened ⟨0x80, 0xBF, 2, b.toNat % 8⟩
    else if b.toNat = 0xF4 then .opened ⟨0x80, 0x8F, 2, 4⟩
    else .fault := by
  unfold lead
  simp only [UInt8.lt_iff_toNat_lt, ← UInt8.toNat_inj, UInt8.reduceToNat]

theorem lead_whole (below : b.toNat < 0x80) : lead b = .whole (Char.ofNat b.toNat) := by
  rw [lead_eq, if_pos below]

theorem lead_two (low : 0xC2 ≤ b.toNat) (high : b.toNat < 0xE0) :
    lead b = .opened ⟨0x80, 0xBF, 0, b.toNat % 32⟩ := by
  rw [lead_eq, if_neg (by omega), if_neg (by omega), if_pos high]

theorem lead_three (low : 0xE0 ≤ b.toNat) (high : b.toNat < 0xF0) :
    lead b = .opened ⟨if b.toNat = 0xE0 then 0xA0 else 0x80, if b.toNat = 0xED then 0x9F else 0xBF,
      1, b.toNat % 16⟩ := by
  rw [lead_eq, if_neg (by omega), if_neg (by omega), if_neg (by omega)]
  by_cases first : b.toNat = 0xE0
  · simp [first]
  · by_cases last : b.toNat = 0xED
    · simp [last]
    · simp [first, last, high]

theorem lead_four (low : 0xF0 ≤ b.toNat) (high : b.toNat < 0xF5) :
    lead b = .opened ⟨if b.toNat = 0xF0 then 0x90 else 0x80, if b.toNat = 0xF4 then 0x8F else 0xBF,
      2, b.toNat % 8⟩ := by
  rw [lead_eq, if_neg (by omega), if_neg (by omega), if_neg (by omega), if_neg (by omega),
    if_neg (by omega), if_neg (by omega)]
  by_cases first : b.toNat = 0xF0
  · simp [first]
  · by_cases last : b.toNat = 0xF4
    · simp [last]
    · rw [if_neg first, if_pos (by omega), if_neg first, if_neg last]

theorem lead_fault (stray : (0x80 ≤ b.toNat ∧ b.toNat < 0xC2) ∨ 0xF5 ≤ b.toNat) : lead b = .fault := by
  rw [lead_eq, if_neg (by omega)]
  rcases stray with low | high
  · rw [if_pos low.2]
  · rw [if_neg (by omega), if_neg (by omega), if_neg (by omega), if_neg (by omega),
      if_neg (by omega), if_neg (by omega), if_neg (by omega), if_neg (by omega)]

theorem lead_ranges : b.toNat < 0x80 ∨ ((0x80 ≤ b.toNat ∧ b.toNat < 0xC2) ∨ 0xF5 ≤ b.toNat) ∨
    (0xC2 ≤ b.toNat ∧ b.toNat < 0xE0) ∨ (0xE0 ≤ b.toNat ∧ b.toNat < 0xF0) ∨
    (0xF0 ≤ b.toNat ∧ b.toNat < 0xF5) := by
  omega

end Lead

section RoundTrip

theorem toNat_byte (n : Nat) (below : n < 256) : (UInt8.ofNat n).toNat = n :=
  UInt8.toNat_ofNat_of_lt' below

def continuing (n : Nat) : UInt8 := UInt8.ofNat (n % 64 + 0x80)

theorem continuing_toNat (n : Nat) : (continuing n).toNat = n % 64 + 0x80 :=
  toNat_byte _ (by omega)

theorem readFrom_start (b : UInt8) (bytes : Bytes) : readFrom none (b :: bytes) =
    match lead b with
    | .whole c => some c :: readFrom none bytes
    | .opened p => readFrom (some p) bytes
    | .fault => none :: readFrom none bytes := rfl

theorem readFrom_accepted (p : Pending) (b : UInt8) (bytes : Bytes) (fits : p.accepts b = true) :
    readFrom (some p) (b :: bytes) =
      match p.following with
      | 0 => some (Char.ofNat (p.extended b)) :: readFrom none bytes
      | n + 1 => readFrom (some ⟨0x80, 0xBF, n, p.extended b⟩) bytes := if_pos fits

theorem readFrom_last (low high : UInt8) (bits n : Nat) (bytes : Bytes)
    (above : low.toNat ≤ n % 64 + 0x80) (below : n % 64 + 0x80 ≤ high.toNat) :
    readFrom (some ⟨low, high, 0, bits⟩) (continuing n :: bytes)
      = some (Char.ofNat (bits * 64 + n % 64)) :: readFrom none bytes := by
  have fits : Pending.accepts ⟨low, high, 0, bits⟩ (continuing n) = true := by
    simp [Pending.accepts, UInt8.le_iff_toNat_le, continuing_toNat, above, below]
  have carried : Pending.extended ⟨low, high, 0, bits⟩ (continuing n) = bits * 64 + n % 64 := by
    rw [Pending.extended, continuing_toNat]
    dsimp only
    omega
  rw [readFrom_accepted _ _ _ fits, carried]

theorem readFrom_next (low high : UInt8) (following bits n : Nat) (bytes : Bytes)
    (above : low.toNat ≤ n % 64 + 0x80) (below : n % 64 + 0x80 ≤ high.toNat) :
    readFrom (some ⟨low, high, following + 1, bits⟩) (continuing n :: bytes)
      = readFrom (some ⟨0x80, 0xBF, following, bits * 64 + n % 64⟩) bytes := by
  have fits : Pending.accepts ⟨low, high, following + 1, bits⟩ (continuing n) = true := by
    simp [Pending.accepts, UInt8.le_iff_toNat_le, continuing_toNat, above, below]
  have carried : Pending.extended ⟨low, high, following + 1, bits⟩ (continuing n)
      = bits * 64 + n % 64 := by
    rw [Pending.extended, continuing_toNat]
    dsimp only
    omega
  rw [readFrom_accepted _ _ _ fits, carried]

theorem scalar (c : Char) : c.toNat < 0xD800 ∨ (0xDFFF < c.toNat ∧ c.toNat < 0x110000) := c.valid

theorem encodeChar_eq (c : Char) :
    String.utf8EncodeChar c =
      if c.toNat ≤ 0x7F then [UInt8.ofNat c.toNat]
      else if c.toNat ≤ 0x7FF then [UInt8.ofNat (c.toNat / 64 % 32 + 0xC0), continuing c.toNat]
      else if c.toNat ≤ 0xFFFF then
        [UInt8.ofNat (c.toNat / 4096 % 16 + 0xE0), continuing (c.toNat / 64), continuing c.toNat]
      else
        [UInt8.ofNat (c.toNat / 262144 % 8 + 0xF0), continuing (c.toNat / 4096),
          continuing (c.toNat / 64), continuing c.toNat] := rfl

theorem ofNat_itself (c : Char) (n : Nat) (same : n = c.toNat) : Char.ofNat n = c := by
  subst same
  exact Char.ofNat_toNat c

section Lengths

variable (c : Char) (bytes : Bytes)

theorem readFrom_one (fits : c.toNat ≤ 0x7F) :
    readFrom none (UInt8.ofNat c.toNat :: bytes) = some c :: readFrom none bytes := by
  have lone := toNat_byte c.toNat (by omega)
  rw [readFrom_start, lead_whole _ (by omega), lone, ofNat_itself c _ rfl]

theorem readFrom_two (above : 0x7F < c.toNat) (fits : c.toNat ≤ 0x7FF) :
    readFrom none (UInt8.ofNat (c.toNat / 64 % 32 + 0xC0) :: continuing c.toNat :: bytes)
      = some c :: readFrom none bytes := by
  have first := toNat_byte (c.toNat / 64 % 32 + 0xC0) (by omega)
  rw [readFrom_start, lead_two _ (by omega) (by omega)]
  dsimp only
  rw [readFrom_last _ _ _ _ _ (by simp) (by simp; omega), first, ofNat_itself c _ (by omega)]

theorem readFrom_three (above : 0x7FF < c.toNat) (fits : c.toNat ≤ 0xFFFF) :
    readFrom none (UInt8.ofNat (c.toNat / 4096 % 16 + 0xE0) :: continuing (c.toNat / 64)
      :: continuing c.toNat :: bytes) = some c :: readFrom none bytes := by
  have valid := scalar c
  have first := toNat_byte (c.toNat / 4096 % 16 + 0xE0) (by omega)
  rw [readFrom_start, lead_three _ (by omega) (by omega), first]
  dsimp only
  rw [readFrom_next, readFrom_last _ _ _ _ _ (by simp) (by simp; omega),
    ofNat_itself c _ (by omega)]
  · split
    · simp only [UInt8.reduceToNat]
      omega
    · simp
  · split
    · simp only [UInt8.reduceToNat]
      omega
    · simp only [UInt8.reduceToNat]
      omega

theorem readFrom_four (above : 0xFFFF < c.toNat) :
    readFrom none (UInt8.ofNat (c.toNat / 262144 % 8 + 0xF0) :: continuing (c.toNat / 4096)
      :: continuing (c.toNat / 64) :: continuing c.toNat :: bytes)
      = some c :: readFrom none bytes := by
  have valid := scalar c
  have first := toNat_byte (c.toNat / 262144 % 8 + 0xF0) (by omega)
  rw [readFrom_start, lead_four _ (by omega) (by omega), first]
  dsimp only
  rw [readFrom_next, readFrom_next _ _ _ _ _ _ (by simp) (by simp; omega),
    readFrom_last _ _ _ _ _ (by simp) (by simp; omega), ofNat_itself c _ (by omega)]
  · split
    · simp only [UInt8.reduceToNat]
      omega
    · simp
  · split
    · simp only [UInt8.reduceToNat]
      omega
    · simp only [UInt8.reduceToNat]
      omega

theorem readFrom_char :
    readFrom none (String.utf8EncodeChar c ++ bytes) = some c :: readFrom none bytes := by
  rw [encodeChar_eq]
  split
  · rename_i fits
    exact readFrom_one c bytes fits
  · rename_i above
    split
    · rename_i fits
      exact readFrom_two c bytes (by omega) fits
    · rename_i above
      split
      · rename_i fits
        exact readFrom_three c bytes (by omega) fits
      · rename_i above
        exact readFrom_four c bytes (by omega)

end Lengths

theorem readFrom_encode (t : Text) : readFrom none (encode t) = t.map some := by
  induction t with
  | nil => rfl
  | cons c t ih =>
    have whole : encode (c :: t) = String.utf8EncodeChar c ++ encode t := rfl
    rw [whole, readFrom_char, ih, List.map_cons]

theorem lossy_encode (t : Text) : lossy (encode t) = t := by
  unfold lossy read
  rw [readFrom_encode, List.map_map]
  exact List.map_id t

end RoundTrip

section Ascii

theorem accepts_iff (p : Pending) (b : UInt8) :
    p.accepts b = true ↔ p.lowest.toNat ≤ b.toNat ∧ b.toNat ≤ p.highest.toNat := by
  simp [Pending.accepts, UInt8.le_iff_toNat_le]

-- In how many ways a sequence can go on for some bytes more.
def room : Nat → Nat
  | 0 => 1
  | following + 1 => 64 * room following

-- A character is complete with these bits, whatever the rest is, and it is no ASCII character.
def Scalar (bits following : Nat) : Prop :=
  128 ≤ bits * room following ∧ ((bits + 1) * room following ≤ 0xD800 ∨
    0xE000 ≤ bits * room following ∧ (bits + 1) * room following ≤ 0x110000)

def Pending.Sound (p : Pending) : Prop :=
  ∀ b, p.accepts b = true → Scalar (p.extended b) p.following

theorem lead_sound (b : UInt8) (p : Pending) (opened : lead b = .opened p) : p.Sound := by
  intro next fits
  unfold Pending.extended Scalar
  rcases lead_ranges b with ascii | stray | ⟨low, high⟩ | ⟨low, high⟩ | ⟨low, high⟩
  · rw [lead_whole b ascii] at opened
    cases opened
  · rw [lead_fault b stray] at opened
    cases opened
  · rw [lead_two b low high] at opened
    cases opened
    simp only [room]
    omega
  · rw [lead_three b low high] at opened
    cases opened
    have bound := (accepts_iff _ next).mp fits
    simp only [room]
    by_cases first : b.toNat = 0xE0
    · simp only [if_pos first, UInt8.reduceToNat] at bound
      have top : next.toNat ≤ 0xBF := by simpa [first] using bound.2
      omega
    · by_cases last : b.toNat = 0xED
      · simp only [if_pos last, UInt8.reduceToNat] at bound
        have bottom : 0x80 ≤ next.toNat := by simpa [last] using bound.1
        omega
      · omega
  · rw [lead_four b low high] at opened
    cases opened
    have bound := (accepts_iff _ next).mp fits
    simp only [room]
    by_cases first : b.toNat = 0xF0
    · simp only [if_pos first, UInt8.reduceToNat] at bound
      have top : next.toNat ≤ 0xBF := by simpa [first] using bound.2
      omega
    · by_cases last : b.toNat = 0xF4
      · simp only [if_pos last, UInt8.reduceToNat] at bound
        have bottom : 0x80 ≤ next.toNat := by simpa [last] using bound.1
        omega
      · omega

theorem Scalar.next {bits n : Nat} (scalar : Scalar bits (n + 1)) (low : Nat) (six : low < 64) :
    Scalar (bits * 64 + low) n := by
  have above : bits * room (n + 1) ≤ (bits * 64 + low) * room n := by
    rw [room, ← Nat.mul_assoc]
    exact Nat.mul_le_mul_right _ (Nat.le_add_right _ _)
  have below : (bits * 64 + low + 1) * room n ≤ (bits + 1) * room (n + 1) := by
    rw [room, ← Nat.mul_assoc]
    exact Nat.mul_le_mul_right _ (by omega)
  unfold Scalar at scalar ⊢
  omega

theorem Pending.Sound.next {p : Pending} (sound : p.Sound) (b : UInt8) (n : Nat)
    (following : p.following = n + 1) (fits : p.accepts b = true) :
    Pending.Sound ⟨0x80, 0xBF, n, p.extended b⟩ := by
  intro next _
  have scalar := sound b fits
  rw [following] at scalar
  exact scalar.next _ (Nat.mod_lt _ (by decide))

theorem Scalar.char {n : Nat} (scalar : Scalar n 0) : 128 ≤ (Char.ofNat n).toNat := by
  unfold Scalar at scalar
  simp only [room, Nat.mul_one] at scalar
  have valid : n.isValidChar := by
    unfold Nat.isValidChar
    omega
  have same : Char.ofNat n = Char.ofNatAux n valid := dif_pos valid
  rw [same]
  exact scalar.1

theorem lead_ascii (b : UInt8) (c : Char) (whole : lead b = .whole c) :
    b.toNat < 0x80 ∧ c = Char.ofNat b.toNat := by
  rcases lead_ranges b with ascii | stray | ⟨low, high⟩ | ⟨low, high⟩ | ⟨low, high⟩
  · rw [lead_whole b ascii] at whole
    cases whole
    exact ⟨ascii, rfl⟩
  · rw [lead_fault b stray] at whole
    cases whole
  · rw [lead_two b low high] at whole
    cases whole
  · rw [lead_three b low high] at whole
    cases whole
  · rw [lead_four b low high] at whole
    cases whole

theorem ofNat_small (n : Nat) (small : n < 0xD800) : (Char.ofNat n).toNat = n := by
  have valid : n.isValidChar := .inl small
  unfold Char.ofNat
  rw [dif_pos valid]
  rfl

theorem lead_member (c : Char) (b : UInt8) (bytes : Bytes)
    (later : some c ∈ readFrom none bytes → UInt8.ofNat c.toNat ∈ bytes)
    (opened : ∀ p, p.Sound → some c ∈ readFrom (some p) bytes → UInt8.ofNat c.toNat ∈ bytes)
    (member : some c ∈ match lead b with
      | .whole c => some c :: readFrom none bytes
      | .opened p => readFrom (some p) bytes
      | .fault => none :: readFrom none bytes) :
    UInt8.ofNat c.toNat ∈ b :: bytes := by
  cases led : lead b with
  | whole d =>
    rw [led] at member
    rcases List.mem_cons.mp member with same | after
    · cases same
      obtain ⟨small, same⟩ := lead_ascii b c led
      rw [same, ofNat_small _ (by omega), UInt8.ofNat_toNat]
      exact List.mem_cons_self ..
    · exact List.mem_cons_of_mem b (later after)
  | opened p =>
    rw [led] at member
    exact List.mem_cons_of_mem b (opened p (lead_sound b p led) member)
  | fault =>
    rw [led] at member
    rcases List.mem_cons.mp member with same | after
    · cases same
    · exact List.mem_cons_of_mem b (later after)

theorem readFrom_ascii (c : Char) (small : c.toNat < 0x80) (start : Option Pending) (bytes : Bytes)
    (sound : ∀ p, start = some p → p.Sound) (member : some c ∈ readFrom start bytes) :
    UInt8.ofNat c.toNat ∈ bytes := by
  -- A character may be pending, so the induction is for every start.
  induction bytes generalizing start with
  | nil =>
    cases start with
    | none => cases member
    | some p =>
      rcases List.mem_cons.mp member with same | after
      · cases same
      · cases after
  | cons b bytes ih =>
    have later : some c ∈ readFrom none bytes → UInt8.ofNat c.toNat ∈ bytes := ih none nofun
    have opened : ∀ p, p.Sound → some c ∈ readFrom (some p) bytes → UInt8.ofNat c.toNat ∈ bytes := by
      intro p sure
      apply ih (some p)
      intro q same
      cases same
      exact sure
    cases start with
    | none => exact lead_member c b bytes later opened member
    | some p =>
      have sure := sound p rfl
      unfold readFrom at member
      split at member
      · rename_i fits
        split at member
        · rename_i last
          rcases List.mem_cons.mp member with same | after
          · -- A pending character is one of several bytes, so it is not below 80.
            have scalar := sure b fits
            rw [last] at scalar
            have bound := scalar.char
            rw [← Option.some.inj same] at bound
            omega
          · exact List.mem_cons_of_mem b (later after)
        · rename_i n following
          exact List.mem_cons_of_mem b (opened _ (sure.next b n following fits) member)
      · rcases List.mem_cons.mp member with same | after
        · cases same
        · exact lead_member c b bytes later opened after

-- An ASCII character of a text that was read stood in the bytes.
theorem lossy_ascii (c : Char) (small : c.toNat < 0x80) (bytes : Bytes) (member : c ∈ lossy bytes) :
    UInt8.ofNat c.toNat ∈ bytes := by
  obtain ⟨found, inside, same⟩ := List.mem_map.mp member
  cases found with
  | none =>
    subst same
    exact absurd small (by decide)
  | some d =>
    cases same
    exact readFrom_ascii _ small none bytes nofun inside

-- An ASCII byte of a text that was written stands for its own character.
theorem encode_ascii (b : UInt8) (small : b.toNat < 0x80) (t : Text) (member : b ∈ encode t) :
    Char.ofNat b.toNat ∈ t := by
  obtain ⟨c, inside, byte⟩ := List.mem_flatMap.mp member
  have high : ∀ n, b ≠ continuing n := by
    intro n same
    subst same
    rw [continuing_toNat] at small
    omega
  have lead : ∀ n, n < 256 → 0x80 ≤ n → b ≠ UInt8.ofNat n := by
    intro n below above same
    subst same
    rw [toNat_byte n below] at small
    omega
  rw [encodeChar_eq] at byte
  split at byte
  · rename_i one
    rw [List.mem_singleton.mp byte, toNat_byte _ (by omega), Char.ofNat_toNat]
    exact inside
  · split at byte
    · simp only [List.mem_cons, List.not_mem_nil, high, or_false] at byte
      exact absurd byte (lead _ (by omega) (by omega))
    · split at byte
      · simp only [List.mem_cons, List.not_mem_nil, high, or_false] at byte
        exact absurd byte (lead _ (by omega) (by omega))
      · simp only [List.mem_cons, List.not_mem_nil, high, or_false] at byte
        exact absurd byte (lead _ (by omega) (by omega))

end Ascii

-- No byte makes more than one character; what has begun may be one more fault.
theorem readFrom_length (start : Option Pending) (bytes : Bytes) :
    (readFrom start bytes).length ≤ bytes.length + start.toList.length := by
  induction bytes generalizing start with
  | nil => cases start <;> simp [readFrom]
  | cons b bytes ih =>
    have fresh : (readFrom none bytes).length ≤ bytes.length := by simpa using ih none
    have begun : ∀ p, (readFrom (some p) bytes).length ≤ bytes.length + 1 := by
      intro p
      simpa using ih (some p)
    have led : (readFrom none (b :: bytes)).length ≤ bytes.length + 1 := by
      unfold readFrom
      split
      · simpa using fresh
      · exact begun _
      · simpa using fresh
    cases start with
    | none => simpa using led
    | some p =>
      by_cases fits : p.accepts b = true
      · simp only [readFrom, fits, if_true]
        split
        · simp
          omega
        · simpa using Nat.le_succ_of_le (begun _)
      · simp only [readFrom, fits] at led ⊢
        simpa using led

theorem lossy_length (bytes : Bytes) : (lossy bytes).length ≤ bytes.length := by
  simpa [lossy, read] using readFrom_length none bytes

end HttpWire.Utf8
