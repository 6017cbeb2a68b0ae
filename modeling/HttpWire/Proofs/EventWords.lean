import HttpWire.Reader.Basic
import Mathlib.Computability.Language

-- Nothing here reads: a word is the whole of what a complete message tells.
namespace HttpWire.Event
open scoped Computability

def one (e : Event) : Language Event := {w | w = [e]}

def dataAt (place : Place) : Language Event :=
  {w | ∃ bytes, bytes ≠ [] ∧ w = [.data place bytes]}

def fieldAt (s : Section) : Language Event :=
  {w | ∃ f elements, elements ≠ [] ∧ w = .field s f :: elements.map (.element s)}

def extensionAt (index : Nat) : Language Event := {w | ∃ e, w = [.extension index e]}

def chunkWord (index : Nat) : Language Event :=
  (extensionAt index)∗ * (one (.extensionsDone index) *
    (dataAt (.chunk index) * ((dataAt (.chunk index))∗ * one (.dataDone (.chunk index)))))

def trailerWord : Language Event := (fieldAt .trailer)∗ * one .trailerDone

def lastChunkWord (index : Nat) : Language Event :=
  (extensionAt index)∗ * (one (.extensionsDone index) * (one .chunksDone * trailerWord))

-- Chunks are numbered without a gap, the last one included.
def chunksWord (first : Nat) : Language Event :=
  {w | ∃ n, w ∈ ((List.range' first n).map chunkWord).prod * lastChunkWord (first + n)}

def partDataWord (index : Nat) : Language Event :=
  (dataAt (.part index))∗ * one (.dataDone (.part index))

def partWord (index : Nat) : Language Event :=
  (fieldAt (.part index))∗ * (one (.partHeaderDone index) * partDataWord index)

def epilogueWord : Language Event := (dataAt .epilogue)∗ * one (.dataDone .epilogue)

def partsWord (first : Nat) : Language Event :=
  {w | ∃ n, w ∈ ((List.range' first (n + 1)).map partWord).prod * (one .partsDone * epilogueWord)}

def bodyWord (first : Nat) : BodyFormat → Language Event
  | .empty => 1
  | .raw => (dataAt .body)∗ * one (.dataDone .body)
  | .chunked => chunksWord first
  | .multipart => (dataAt .preamble)∗ * (one (.dataDone .preamble) * partsWord first)

def headerWord (first : Nat) : Language Event :=
  {w | ∃ format, w ∈ (fieldAt .header)∗ * (one (.headerDone format) * bodyWord first format)}

def startWord : Language Event := {w | ∃ line, w = [.start line]}

def messageWord (skipsStart : Bool) (first : Nat) : Language Event :=
  if skipsStart then headerWord first else startWord * headerWord first

section Building

variable {l m : Language Event} {w : List Event}

theorem star_none (rest : w ∈ m) : w ∈ l∗ * m :=
  Language.mem_mul.mpr ⟨[], Language.nil_mem_kstar l, w, rest, rfl⟩

theorem star_more {first : List Event} (here : first ∈ l) (rest : w ∈ l∗ * m) :
    first ++ w ∈ l∗ * m := by
  obtain ⟨front, star, back, later, rfl⟩ := Language.mem_mul.mp rest
  have step : l * l∗ ≤ l∗ := mul_kstar_le_kstar
  have grown : first ++ front ∈ l∗ :=
    Set.mem_of_mem_of_subset (Language.append_mem_mul here star) step
  exact Language.mem_mul.mpr ⟨first ++ front, grown, back, later, by rw [List.append_assoc]⟩

theorem one_then (e : Event) (rest : w ∈ m) : e :: w ∈ one e * m :=
  Language.mem_mul.mpr ⟨[e], rfl, w, rest, rfl⟩

theorem one_last (e : Event) : [e] ∈ one e := rfl

theorem ofData_mem (place : Place) (bytes : Bytes) (real : bytes ≠ []) :
    ofData place bytes ∈ dataAt place := by
  unfold ofData
  rw [if_neg real]
  exact ⟨bytes, real, rfl⟩

theorem ofData_star (place : Place) (bytes : Bytes) (rest : w ∈ (dataAt place)∗ * m) :
    ofData place bytes ++ w ∈ (dataAt place)∗ * m := by
  by_cases real : bytes = []
  · subst real
    exact rest
  · exact star_more (ofData_mem place bytes real) rest

theorem elements_ne_nil (f : Field) : f.elements ≠ [] := by
  unfold Field.elements
  split
  · exact List.cons_ne_nil _ _
  · exact Field.listElements_ne_nil _

theorem ofField_mem (s : Section) (f : Field) : ofField s f ∈ fieldAt s := by
  refine ⟨f, f.elements.map fun value => ⟨f.name, value⟩, ?_, ?_⟩
  · intro empty
    exact elements_ne_nil f (List.map_eq_nil_iff.mp empty)
  · rw [List.map_map]
    rfl

theorem extensions_star (index : Nat) (extensions : List Extension)
    (rest : w ∈ (extensionAt index)∗ * m) :
    extensions.map (.extension index) ++ w ∈ (extensionAt index)∗ * m := by
  induction extensions with
  | nil => exact rest
  | cons e extensions ih =>
    have one : [.extension index e] ∈ extensionAt index := ⟨e, rfl⟩
    have more := star_more one ih
    exact more

end Building

section Numbered

variable {w : List Event}

theorem chunks_last {index : Nat} (last : w ∈ lastChunkWord index) : w ∈ chunksWord index := by
  refine ⟨0, ?_⟩
  rw [List.range'_zero, List.map_nil, List.prod_nil, one_mul, Nat.add_zero]
  exact last

theorem chunks_next {index : Nat} (rest : w ∈ chunkWord index * chunksWord (index + 1)) :
    w ∈ chunksWord index := by
  obtain ⟨chunk, here, later, ⟨n, more⟩, rfl⟩ := Language.mem_mul.mp rest
  refine ⟨n + 1, ?_⟩
  have last : index + (n + 1) = index + 1 + n := by omega
  rw [List.range'_succ, List.map_cons, List.prod_cons, mul_assoc, last]
  exact Language.append_mem_mul here more

-- As long as data is missing there will be an event with data, whatever came before.
def chunkDataWord (index : Nat) : Nat → Language Event
  | 0 => one (.dataDone (.chunk index)) * chunksWord (index + 1)
  | _ + 1 => dataAt (.chunk index) * ((dataAt (.chunk index))∗ *
      (one (.dataDone (.chunk index)) * chunksWord (index + 1)))

theorem chunks_begun {index size : Nat} (real : size ≠ 0) (extensions : List Extension)
    (rest : w ∈ chunkDataWord index size) :
    extensions.map (.extension index) ++ .extensionsDone index :: w ∈ chunksWord index := by
  obtain ⟨n, rfl⟩ := Nat.exists_eq_succ_of_ne_zero real
  apply chunks_next
  simp only [chunkWord, mul_assoc]
  exact extensions_star _ _ (star_none (one_then _ rest))

theorem chunkDataWord_star {index missing : Nat} (rest : w ∈ chunkDataWord index missing) :
    w ∈ (dataAt (.chunk index))∗ * (one (.dataDone (.chunk index)) * chunksWord (index + 1)) := by
  cases missing with
  | zero => exact star_none rest
  | succ n =>
    obtain ⟨data, here, back, later, rfl⟩ := Language.mem_mul.mp rest
    exact star_more here later

theorem chunkDataWord_data {index missing : Nat} (data : Bytes) (fits : data.length ≤ missing)
    (rest : w ∈ chunkDataWord index (missing - data.length)) :
    ofData (.chunk index) data ++ w ∈ chunkDataWord index missing := by
  by_cases real : data = []
  · subst real
    exact rest
  · have long := List.length_pos_iff.mpr real
    obtain ⟨n, rfl⟩ := Nat.exists_eq_succ_of_ne_zero (Nat.ne_of_gt (Nat.lt_of_lt_of_le long fits))
    exact Language.append_mem_mul (ofData_mem _ data real) (chunkDataWord_star rest)

def behindPart (index : Nat) : Language Event :=
  one .partsDone * epilogueWord + partsWord index

theorem parts_next {index : Nat} (rest : w ∈ partWord index * behindPart (index + 1)) :
    w ∈ partsWord index := by
  obtain ⟨part, here, later, either, rfl⟩ := Language.mem_mul.mp rest
  rcases either with closing | ⟨n, more⟩
  · refine ⟨0, ?_⟩
    rw [List.range'_one, List.map_singleton, List.prod_singleton]
    exact Language.append_mem_mul here closing
  · refine ⟨n + 1, ?_⟩
    rw [List.range'_succ, List.map_cons, List.prod_cons, mul_assoc]
    exact Language.append_mem_mul here more

end Numbered

section Ends

def IsLast (e : Event) : Prop :=
  e = .headerDone .empty ∨ e = .dataDone .body ∨ e = .trailerDone ∨ e = .dataDone .epilogue

def Open (events : List Event) : Prop := ∀ e ∈ events, ¬ e.IsLast

theorem open_nil : Open [] := fun _ member => absurd member List.not_mem_nil

theorem Open.append {first later : List Event} (front : Open first) (back : Open later) :
    Open (first ++ later) := by
  intro e member
  rcases List.mem_append.mp member with now | after
  · exact front e now
  · exact back e after

theorem open_one {e : Event} (early : ¬ e.IsLast) : Open [e] := by
  intro other member
  rw [List.mem_singleton.mp member]
  exact early

theorem open_data (place : Place) (bytes : Bytes) : Open (ofData place bytes) := by
  unfold ofData
  split
  · exact open_nil
  · exact open_one (by simp [IsLast])

theorem open_field (s : Section) (f : Field) : Open (ofField s f) := by
  intro e member
  rcases List.mem_cons.mp member with rfl | element
  · simp [IsLast]
  · obtain ⟨value, _, rfl⟩ := List.mem_map.mp element
    simp [IsLast]

theorem open_extensions (index : Nat) (extensions : List Extension) :
    Open (extensions.map (.extension index)) := by
  intro e member
  obtain ⟨extension, _, rfl⟩ := List.mem_map.mp member
  simp [IsLast]

variable {l m : Language Event}

def Ends (l : Language Event) : Prop := ∀ w ∈ l, ∃ e ∈ w, e.IsLast

theorem ends_one {e : Event} (last : e.IsLast) : Ends (one e) := by
  intro w same
  cases same
  exact ⟨e, List.mem_singleton_self e, last⟩

theorem Ends.behind (ends : Ends m) : Ends (l * m) := by
  intro w member
  obtain ⟨front, _, back, rest, rfl⟩ := Language.mem_mul.mp member
  obtain ⟨e, inside, last⟩ := ends back rest
  exact ⟨e, List.mem_append_right front inside, last⟩

theorem Ends.before (ends : Ends l) : Ends (l * m) := by
  intro w member
  obtain ⟨front, here, back, _, rfl⟩ := Language.mem_mul.mp member
  obtain ⟨e, inside, last⟩ := ends front here
  exact ⟨e, List.mem_append_left back inside, last⟩

theorem trailerWord_ends : Ends trailerWord := (ends_one (.inr (.inr (.inl rfl)))).behind

theorem epilogueWord_ends : Ends epilogueWord := (ends_one (.inr (.inr (.inr rfl)))).behind

theorem headerDone_ends (first : Nat) (format : BodyFormat) :
    Ends (one (.headerDone format) * bodyWord first format) := by
  cases format with
  | empty => exact (ends_one (.inl rfl)).before
  | raw => exact (ends_one (.inr (.inl rfl))).behind.behind
  | chunked =>
    apply Ends.behind
    rintro w ⟨n, member⟩
    exact trailerWord_ends.behind.behind.behind.behind w member
  | multipart =>
    apply Ends.behind
    apply Ends.behind
    apply Ends.behind
    rintro w ⟨n, member⟩
    exact epilogueWord_ends.behind.behind w member

-- No message is complete before one of these events has come.
theorem message_ends (skipsStart : Bool) (first : Nat) : Ends (messageWord skipsStart first) := by
  have header : Ends (headerWord first) := by
    rintro w ⟨format, member⟩
    exact (headerDone_ends first format).behind w member
  unfold messageWord
  split
  · exact header
  · exact header.behind

end Ends

end HttpWire.Event
