import HttpWire.Proofs.ListValues
import HttpWire.Proofs.Utf8

namespace HttpWire

def Trimmed (bytes : Bytes) : Prop :=
  (∀ b, bytes.head? = some b → Text.isSpaceByte b = false) ∧
    ∀ b, bytes.getLast? = some b → Text.isSpaceByte b = false

inductive ValueForm where
  | bare (t : Text)
  | quoted (t : Text)

namespace ValueForm

def text : ValueForm → Text
  | bare t => t
  | quoted t => t

def bytes : ValueForm → Bytes
  | bare t => Utf8.encode t
  | quoted t => Extension.quote :: (Utf8.encode t ++ [Extension.quote])

-- In quotes a value may be empty, and may hold what separates extensions.
def WellFormed : ValueForm → Prop
  | bare t => t ≠ [] ∧ Trimmed (Utf8.encode t) ∧ ∀ c ∈ t, c ∉ ['"', ';', '\r', '\n']
  | quoted t => ∀ c ∈ t, c ∉ ['"', '\r', '\n']

end ValueForm

structure ExtensionForm where
  name : Text
  value : Option ValueForm

namespace ExtensionForm

def bytes (e : ExtensionForm) : Bytes :=
  Utf8.encode e.name ++
    match e.value with
    | none => []
    | some value => 0x3D :: value.bytes

def extension (e : ExtensionForm) : Extension := ⟨e.name, e.value.map ValueForm.text⟩

structure WellFormed (e : ExtensionForm) : Prop where
  nonempty : e.name ≠ []
  trimmed : Trimmed (Utf8.encode e.name)
  plain : ∀ c ∈ e.name, c ∉ ['"', ';', '=', '\r', '\n']
  value : ∀ value, e.value = some value → value.WellFormed

end ExtensionForm

structure SizeLine where
  digits : Bytes
  blanks : Bytes
  extensions : List ExtensionForm

namespace SizeLine

def bytes (l : SizeLine) : Bytes :=
  l.digits ++ (l.blanks ++ l.extensions.flatMap fun e => 0x3B :: e.bytes)

structure WellFormed (size : Nat) (l : SizeLine) : Prop where
  nonempty : l.digits ≠ []
  digits : ∀ b ∈ l.digits, Numeral.isDigit 16 b = true
  value : Numeral.value 16 l.digits = size
  word : size < Numeral.wordBound
  blanks : ∀ b ∈ l.blanks, b = 0x20 ∨ b = 0x09
  extensions : ∀ e ∈ l.extensions, e.WellFormed
  room : l.bytes.length ≤ 1024

end SizeLine

section Trimming

theorem trimBoth_trimmed (bytes : Bytes) (trimmed : Trimmed bytes) :
    trimBoth Text.isSpaceByte bytes = bytes :=
  trimBoth_stable _ _ trimmed.1 trimmed.2

theorem trimmed_append (first last : Bytes) (begun : first ≠ []) (ended : last ≠ [])
    (head : ∀ b, first.head? = some b → Text.isSpaceByte b = false)
    (tail : ∀ b, last.getLast? = some b → Text.isSpaceByte b = false) : Trimmed (first ++ last) := by
  refine ⟨?_, ?_⟩
  · intro b here
    cases first with
    | nil => exact absurd rfl begun
    | cons c first => exact head b here
  · intro b here
    rw [List.getLast?_append, List.getLast?_eq_some_getLast ended] at here
    exact tail b ((List.getLast?_eq_some_getLast ended).trans here)

end Trimming

section Cuts

variable {α : Type} [DecidableEq α]

theorem cutAt_none (d : α) (xs : List α) (free : d ∉ xs) : cutAt d xs = none := by
  induction xs with
  | nil => rfl
  | cons x xs ih =>
    have other : x ≠ d := fun same => free (by simp [same])
    rw [cutAt, if_neg other, ih fun inside => free (List.mem_cons_of_mem x inside)]
    rfl

theorem cutAt_free (d : α) (xs l r : List α) (found : cutAt d xs = some (l, r)) : d ∉ l := by
  induction xs generalizing l with
  | nil => cases found
  | cons x xs ih =>
    unfold cutAt at found
    split at found
    · cases found
      exact List.not_mem_nil
    · rename_i other
      obtain ⟨sides, inner, same⟩ := Option.map_eq_some_iff.mp found
      cases same
      intro member
      rcases List.mem_cons.mp member with rfl | later
      · exact other rfl
      · exact ih sides.1 inner later

theorem cutAt_before (d : α) (front xs : List α) (free : d ∉ front) :
    cutAt d (front ++ xs) = (cutAt d xs).map fun sides => (front ++ sides.1, sides.2) := by
  induction front with
  | nil => simp
  | cons x front ih =>
    have other : x ≠ d := fun same => free (by simp [same])
    rw [List.cons_append, cutAt, if_neg other, ih fun inside => free (List.mem_cons_of_mem x inside),
      Option.map_map]
    rfl

theorem cutAt_behind (d : α) (xs back : List α) (free : d ∉ back) :
    cutAt d (xs ++ back) = (cutAt d xs).map fun sides => (sides.1, sides.2 ++ back) := by
  induction xs with
  | nil => exact cutAt_none d back free
  | cons x xs ih =>
    rw [List.cons_append, cutAt, cutAt]
    split
    · rfl
    · rw [ih, Option.map_map, Option.map_map]
      rfl

theorem cutAt_first (d : α) (l r : List α) (free : d ∉ l) : cutAt d (l ++ d :: r) = some (l, r) := by
  rw [cutAt_before d l _ free, cutAt, if_pos rfl]
  simp

end Cuts

section Bytes

theorem encode_free (b : UInt8) (small : b.toNat < 0x80) (t : Text) (free : Char.ofNat b.toNat ∉ t) :
    b ∉ Utf8.encode t :=
  fun inside => free (Utf8.encode_ascii b small t inside)

theorem encode_none (b : UInt8) (small : b.toNat < 0x80) (t : Text) (others : List Char)
    (member : Char.ofNat b.toNat ∈ others) (plain : ∀ c ∈ t, c ∉ others) : b ∉ Utf8.encode t :=
  encode_free b small t fun inside => plain _ inside member

theorem encode_ne_nil (t : Text) (real : t ≠ []) : Utf8.encode t ≠ [] := by
  cases t with
  | nil => exact absurd rfl real
  | cons c t =>
    intro empty
    exact String.utf8EncodeChar_ne_nil (List.append_eq_nil_iff.mp empty).1

end Bytes

namespace Extension

def ahead (front : Bytes) (found : List Bytes) : List Bytes := front.foldr growFirst found

theorem ahead_cons (front : Bytes) (first : Bytes) (later : List Bytes) :
    ahead front (first :: later) = (front ++ first) :: later := by
  induction front with
  | nil => rfl
  | cons b front ih =>
    unfold ahead at ih ⊢
    rw [List.foldr_cons, ih]
    rfl

theorem ahead_append (front more : Bytes) (found : List Bytes) :
    ahead (front ++ more) found = ahead front (ahead more found) :=
  List.foldr_append

theorem pieces_bare (front rest : Bytes) (free : 0x3B ∉ front) (plain : quote ∉ front) :
    pieces false (front ++ rest) = ahead front (pieces false rest) := by
  induction front with
  | nil => rfl
  | cons b front ih =>
    have other : b ≠ 0x3B := fun same => free (by simp [same])
    have bare : (b == quote) = false := beq_false_of_ne fun same => plain (by simp [same])
    have later := ih (fun inside => free (List.mem_cons_of_mem b inside))
      fun inside => plain (List.mem_cons_of_mem b inside)
    rw [List.cons_append, pieces, if_neg (fun both => other both.1), bare, Bool.bne_false, later]
    rfl

theorem pieces_quoted (front rest : Bytes) (plain : quote ∉ front) :
    pieces true (front ++ rest) = ahead front (pieces true rest) := by
  induction front with
  | nil => rfl
  | cons b front ih =>
    have bare : (b == quote) = false := beq_false_of_ne fun same => plain (by simp [same])
    have later := ih fun inside => plain (List.mem_cons_of_mem b inside)
    rw [List.cons_append, pieces, if_neg (fun both => Bool.noConfusion both.2), bare, Bool.bne_false,
      later]
    rfl

-- A quote opens and closes, and changes nothing else.
theorem pieces_quote (quoted : Bool) (rest : Bytes) :
    pieces quoted (quote :: rest) = growFirst quote (pieces (!quoted) rest) := by
  rw [pieces, if_neg (by decide +revert)]
  cases quoted <;> rfl

theorem value_pieces (value : ValueForm) (formed : value.WellFormed) (rest : Bytes) :
    pieces false (value.bytes ++ rest) = ahead value.bytes (pieces false rest) := by
  cases value with
  | bare t =>
    obtain ⟨_, _, plain⟩ := formed
    exact pieces_bare _ rest (encode_none 0x3B (by decide) t _ (by decide) plain)
      (encode_none quote (by decide) t _ (by decide) plain)
  | quoted t =>
    have plain : quote ∉ Utf8.encode t := encode_none quote (by decide) t _ (by decide) formed
    simp only [ValueForm.bytes, List.cons_append, List.append_assoc, List.nil_append]
    rw [pieces_quote, Bool.not_false, pieces_quoted _ _ plain, pieces_quote, Bool.not_true]
    simp only [ahead, List.foldr_cons, List.foldr_append, List.foldr_nil]

theorem value_trimmed (value : ValueForm) (formed : value.WellFormed) :
    value.bytes ≠ [] ∧ Trimmed value.bytes := by
  cases value with
  | bare t => exact ⟨encode_ne_nil t formed.1, formed.2.1⟩
  | quoted t =>
    refine ⟨List.cons_ne_nil _ _, ?_, ?_⟩
    · intro b first
      cases first
      decide
    · intro b last
      change ((quote :: Utf8.encode t) ++ [quote]).getLast? = some b at last
      rw [List.getLast?_concat] at last
      cases last
      decide

theorem value?_bytes (value : ValueForm) (formed : value.WellFormed) :
    value? value.bytes = some (Utf8.encode value.text) := by
  cases value with
  | bare t =>
    obtain ⟨real, _, plain⟩ := formed
    have quotes : quote ∉ Utf8.encode t := encode_none quote (by decide) t _ (by decide) plain
    dsimp only [ValueForm.bytes, ValueForm.text]
    cases bytes : Utf8.encode t with
    | nil => exact absurd bytes (encode_ne_nil t real)
    | cons b rest =>
      have other : b ≠ quote := by
        intro same
        subst same
        apply quotes
        rw [bytes]
        exact List.mem_cons_self ..
      rw [value?, if_neg other]
  | quoted t =>
    dsimp only [ValueForm.bytes, ValueForm.text]
    rw [value?, if_pos rfl, if_pos List.getLast?_concat, List.dropLast_concat]

theorem value_plain (value : ValueForm) (formed : value.WellFormed) : 0x0D ∉ value.bytes := by
  cases value with
  | bare t => exact encode_none 0x0D (by decide) t _ (by decide) formed.2.2
  | quoted t =>
    have plain : 0x0D ∉ Utf8.encode t := encode_none 0x0D (by decide) t _ (by decide) formed
    intro inside
    rcases List.mem_cons.mp inside with same | inner
    · cases same
    · rcases List.mem_append.mp inner with text | last
      · exact plain text
      · cases List.mem_singleton.mp last

variable {e : ExtensionForm} (formed : e.WellFormed)

include formed

theorem name_free (b : UInt8) (small : b.toNat < 0x80)
    (member : Char.ofNat b.toNat ∈ ['"', ';', '=', '\r', '\n']) : b ∉ Utf8.encode e.name :=
  encode_none b small e.name _ member formed.plain

theorem extension_pieces (rest : Bytes) :
    pieces false (e.bytes ++ rest) = ahead e.bytes (pieces false rest) := by
  have semicolon := name_free formed 0x3B (by decide) (by decide)
  have quotes := name_free formed quote (by decide) (by decide)
  unfold ExtensionForm.bytes
  cases value : e.value with
  | none =>
    rw [List.append_nil]
    exact pieces_bare _ rest semicolon quotes
  | some v =>
    have equals : pieces false (0x3D :: (v.bytes ++ rest))
        = growFirst 0x3D (pieces false (v.bytes ++ rest)) :=
      pieces_bare [0x3D] _ (by decide) (by decide)
    dsimp only
    rw [List.append_assoc, pieces_bare _ _ semicolon quotes, List.cons_append, equals,
      value_pieces v (formed.value v value), ahead_append]
    rfl

theorem bytes_trimmed : Trimmed e.bytes := by
  have name := encode_ne_nil e.name formed.nonempty
  unfold ExtensionForm.bytes
  cases value : e.value with
  | none =>
    rw [List.append_nil]
    exact formed.trimmed
  | some v =>
    obtain ⟨real, trimmed⟩ := value_trimmed v (formed.value v value)
    refine trimmed_append _ _ name (List.cons_ne_nil _ _) formed.trimmed.1 ?_
    intro b last
    apply trimmed.2
    rw [← last]
    exact (List.getLast?_cons_of_ne_nil real).symm

theorem named?_name (value : Option Text) :
    named? (Utf8.encode e.name) value = some ⟨e.name, value⟩ := by
  unfold named?
  rw [trimBoth_trimmed _ formed.trimmed]
  cases bytes : Utf8.encode e.name with
  | nil => exact absurd bytes (encode_ne_nil e.name formed.nonempty)
  | cons b rest =>
    dsimp only
    rw [← bytes, Utf8.lossy_encode]

theorem ofPiece?_bytes : ofPiece? e.bytes = some e.extension := by
  have equals := name_free formed 0x3D (by decide) (by decide)
  unfold ofPiece?
  rw [trimBoth_trimmed _ (bytes_trimmed formed)]
  unfold ExtensionForm.bytes ExtensionForm.extension
  cases value : e.value with
  | none =>
    rw [List.append_nil, cutAt_none 0x3D _ equals]
    exact named?_name formed none
  | some v =>
    have shape := formed.value v value
    dsimp only
    rw [cutAt_first 0x3D _ _ equals]
    dsimp only
    rw [trimBoth_trimmed _ (value_trimmed v shape).2, value?_bytes v shape]
    dsimp only [Option.bind_some]
    rw [Utf8.lossy_encode]
    exact named?_name formed _

omit formed

theorem ofPieces_bytes (forms : List ExtensionForm) (formed : ∀ e ∈ forms, e.WellFormed) :
    ofPieces (forms.map (·.bytes)) = (forms.map (·.extension), true) := by
  induction forms with
  | nil => rfl
  | cons e forms ih =>
    have here := ofPiece?_bytes (formed e (List.mem_cons_self ..))
    have later := ih fun f member => formed f (List.mem_cons_of_mem e member)
    rw [List.map_cons, List.map_cons, ofPieces, here, later]

theorem pieces_list (e : ExtensionForm) (forms : List ExtensionForm) (here : e.WellFormed)
    (formed : ∀ e ∈ forms, e.WellFormed) :
    pieces false (e.bytes ++ forms.flatMap fun e => 0x3B :: e.bytes) = (e :: forms).map (·.bytes) := by
  induction forms generalizing e with
  | nil =>
    rw [List.flatMap_nil, extension_pieces here, pieces, ahead_cons, List.append_nil]
    rfl
  | cons f forms ih =>
    have later := ih f (formed f (List.mem_cons_self ..)) fun g member =>
      formed g (List.mem_cons_of_mem f member)
    have split : pieces false (0x3B :: (f.bytes ++ forms.flatMap fun e => 0x3B :: e.bytes))
        = [] :: pieces false (f.bytes ++ forms.flatMap fun e => 0x3B :: e.bytes) := by
      rw [pieces, if_pos ⟨rfl, rfl⟩]
    rw [List.flatMap_cons, List.cons_append, extension_pieces here, split, ahead_cons, List.append_nil,
      later]
    rfl

end Extension

namespace SizeLine

theorem readWord_digits (radix : Nat) (digits rest : Bytes) (nonempty : digits ≠ [])
    (real : ∀ b ∈ digits, Numeral.isDigit radix b = true)
    (ended : ∀ b, rest.head? = some b → Numeral.isDigit radix b = false)
    (word : Numeral.value radix digits < Numeral.wordBound) :
    Numeral.readWord radix (digits ++ rest) = some (Numeral.value radix digits, rest) := by
  obtain ⟨taken, dropped⟩ := takeWhile_parts real ended
  unfold Numeral.readWord
  rw [taken, dropped]
  exact if_pos ⟨nonempty, word⟩

variable {size : Nat} {l : SizeLine} (formed : l.WellFormed size)

include formed

theorem isBlank (b : UInt8) (member : b ∈ l.blanks) : Text.isBlankByte b = true := by
  rcases formed.blanks b member with rfl | rfl
  · decide
  · decide

theorem digits_end (b : UInt8)
    (here : (l.blanks ++ l.extensions.flatMap fun e => 0x3B :: e.bytes).head? = some b) :
    Numeral.isDigit 16 b = false := by
  cases blanks : l.blanks with
  | cons c blanks =>
    rw [blanks] at here
    cases here
    rcases formed.blanks b (by rw [blanks]; exact List.mem_cons_self ..) with rfl | rfl
    · decide
    · decide
  | nil =>
    rw [blanks, List.nil_append] at here
    cases extensions : l.extensions with
    | nil =>
      rw [extensions] at here
      cases here
    | cons e forms =>
      rw [extensions] at here
      cases here
      decide

theorem ofLine_bytes :
    ChunkLine.ofLine l.bytes = .ok { size, extensions := l.extensions.map (·.extension) } := by
  have word : Numeral.value 16 l.digits < Numeral.wordBound := by
    rw [formed.value]
    exact formed.word
  have read := readWord_digits 16 l.digits _ formed.nonempty formed.digits (digits_end formed) word
  unfold ChunkLine.ofLine SizeLine.bytes
  rw [read, formed.value]
  dsimp only
  rw [List.dropWhile_append_of_pos (isBlank formed)]
  cases extensions : l.extensions with
  | nil => rfl
  | cons e forms =>
    have all := formed.extensions
    rw [extensions] at all
    have later := fun f member => all f (List.mem_cons_of_mem e member)
    have pieces := Extension.pieces_list e forms (all e (List.mem_cons_self ..)) later
    rw [List.flatMap_cons, List.cons_append, List.dropWhile_cons_of_neg (by decide)]
    dsimp only
    rw [if_pos rfl, pieces, Extension.ofPieces_bytes _ all]
    rfl

theorem bytes_plain : 0x0D ∉ l.bytes := by
  intro inside
  rcases List.mem_append.mp inside with digit | after
  · exact absurd (formed.digits _ digit) (by decide)
  · rcases List.mem_append.mp after with blank | extension
    · rcases formed.blanks _ blank with same | same
      · cases same
      · cases same
    · obtain ⟨e, member, byte⟩ := List.mem_flatMap.mp extension
      have shape := formed.extensions e member
      have name := Extension.name_free shape 0x0D (by decide) (by decide)
      rcases List.mem_cons.mp byte with same | inner
      · cases same
      · rcases List.mem_append.mp inner with early | late
        · exact name early
        · cases value : e.value with
          | none =>
            rw [value] at late
            cases late
          | some v =>
            rw [value] at late
            rcases List.mem_cons.mp late with same | text
            · cases same
            · exact Extension.value_plain v (shape.value v value) text

end SizeLine

end HttpWire
