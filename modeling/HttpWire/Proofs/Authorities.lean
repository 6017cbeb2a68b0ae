import HttpWire.Proofs.ChunkLineForm
import HttpWire.Proofs.GeneratedText
import HttpWire.Proofs.Marks
import HttpWire.Message.Basic
import Mathlib.Data.List.DropRight

-- All of an authority is kept as a host and a port, but for a text that follows a host in brackets
-- without a colon.
namespace HttpWire

section Cuts

variable {α : Type} [DecidableEq α] (d : α)

theorem cutAt_takeWhile (xs : List α) :
    (cutAt d xs).elim xs Prod.fst = xs.takeWhile (· ≠ d) := by
  induction xs with
  | nil => rfl
  | cons x xs ih =>
    by_cases here : x = d
    · simp [cutAt, here]
    · rw [cutAt, if_neg here, List.takeWhile_cons_of_pos (by simpa using here), ← ih]
      cases cutAt d xs <;> rfl

theorem cutAtLast_rtakeWhile (xs : List α) :
    (cutAtLast d xs).elim xs Prod.snd = xs.rtakeWhile (· ≠ d) := by
  unfold cutAtLast List.rtakeWhile
  rw [← cutAt_takeWhile]
  cases cutAt d xs.reverse <;> simp

end Cuts

namespace Target

-- What begins with a bracket goes on to the one that closes it.
inductive Host : Text → Prop
  | plain (host : Text) (real : host ≠ []) (free : ':' ∉ host)
    (unclosed : host.head? = some '[' → ']' ∉ host) : Host host
  | bracketed (inside : Text) (free : ']' ∉ inside) : Host ('[' :: (inside ++ [']']))

inductive Placed : Text → Text → Option Nat → Prop
  | alone (host : Text) (proper : Host host) : Placed host host none
  | ported (host digits : Text) (port : Nat) (proper : Host host) (read : port? digits = some port) :
    Placed (host ++ ':' :: digits) host (some port)

inductive Trailed : Text → Text → Prop
  | bracketed (inside rest : Text) (free : ']' ∉ inside) (filled : rest ≠ [])
    (other : rest.head? ≠ some ':') : Trailed ('[' :: (inside ++ ']' :: rest)) ('[' :: (inside ++ [']']))

section Hosts

variable {t host : Text} {port : Option Nat}

theorem port?_closed {digits : Text} {port : Nat} (read : port? digits = some port) : ']' ∉ digits := by
  obtain ⟨number, rfl | rfl, decimal⟩ := (Framing.signedBelow?_iff _ _ _).mp read
  · intro inside
    cases decimal.digits _ inside
  · intro inside
    rcases List.mem_cons.mp inside with same | inside
    · cases same
    · cases decimal.digits _ inside

theorem cutHost_bracketed (inside rest : Text) (free : ']' ∉ inside) :
    cutHost ('[' :: (inside ++ ']' :: rest))
      = ('[' :: (inside ++ [']']), if rest.head? = some ':' then some rest.tail else none) := by
  have whole : ']' ∉ '[' :: inside := by simp [free]
  have cut : cutAt ']' ('[' :: (inside ++ ']' :: rest)) = some ('[' :: inside, rest) :=
    cutAt_first ']' ('[' :: inside) rest whole
  simp [cutHost, cut]

theorem cutHost_plain (unclosed : t.head? = some '[' → ']' ∉ t) :
    cutHost t = (cutAt ':' t).elim (t, none) fun sides => (sides.1, some sides.2) := by
  have none : (if t.head? = some '[' then cutAt ']' t else none) = none := by
    split
    · rename_i opened
      exact cutAt_none _ _ (unclosed opened)
    · rfl
  unfold cutHost
  rw [none]
  cases cutAt ':' t <;> rfl

theorem bracketed_or_not (t : Text) :
    (∃ inside rest, t = '[' :: (inside ++ ']' :: rest) ∧ ']' ∉ inside) ∨
      (t.head? = some '[' → ']' ∉ t) := by
  by_cases closed : ∃ c ∈ t.head?, c = '[' ∧ ']' ∈ t
  · obtain ⟨_, first, rfl, member⟩ := closed
    obtain ⟨front, rest, rfl, free⟩ := List.eq_append_cons_of_mem member
    cases front with
    | nil => cases first
    | cons c inside =>
      obtain rfl : c = '[' := by simpa using first
      exact .inl ⟨inside, rest, rfl, fun here => free (List.mem_cons_of_mem _ here)⟩
  · exact .inr fun first member => closed ⟨'[', first, rfl, member⟩

def place (t : Text) : Text := t.rtakeWhile (· ≠ '@')

def readPlace (t : Text) : Option (Text × Option Nat) :=
  match cutHost t with
  | ([], _) => none
  | (host, none) => some (host, none)
  | (host, some port) => (port? port).map fun n => (host, some n)

theorem authority?_eq (t : Text) : authority? t = readPlace (place t) := by
  unfold authority? place
  rw [← cutAtLast_rtakeWhile]
  cases cutAtLast '@' t <;> rfl

theorem readPlace_bracketed {inside rest : Text} (free : ']' ∉ inside)
    (read : readPlace ('[' :: (inside ++ ']' :: rest)) = some (host, port)) :
    Placed ('[' :: (inside ++ ']' :: rest)) host port ∨
      (port = none ∧ Trailed ('[' :: (inside ++ ']' :: rest)) host) := by
  have proper : Host ('[' :: (inside ++ [']'])) := .bracketed inside free
  unfold readPlace at read
  rw [cutHost_bracketed inside rest free] at read
  cases rest with
  | nil =>
    cases read
    exact .inl (.alone _ proper)
  | cons c rest =>
    by_cases colon : c = ':'
    · subst colon
      obtain ⟨n, found, same⟩ := Option.map_eq_some_iff.mp read
      cases same
      have placed := Placed.ported _ rest n proper found
      exact .inl (by simpa using placed)
    · have other : (c :: rest).head? ≠ some ':' := by simpa using colon
      rw [if_neg other] at read
      cases read
      exact .inr ⟨rfl, .bracketed inside _ free (List.cons_ne_nil _ _) other⟩

theorem readPlace_plain (unclosed : t.head? = some '[' → ']' ∉ t)
    (read : readPlace t = some (host, port)) : Placed t host port := by
  unfold readPlace at read
  rw [cutHost_plain unclosed] at read
  by_cases colon : ':' ∈ t
  · obtain ⟨front, digits, rfl, free⟩ := List.eq_append_cons_of_mem colon
    rw [cutAt_first _ _ _ free] at read
    cases front with
    | nil => cases read
    | cons c front =>
      obtain ⟨n, found, same⟩ := Option.map_eq_some_iff.mp read
      cases same
      refine .ported _ digits n (.plain _ (List.cons_ne_nil _ _) free ?_) found
      exact fun first inside => unclosed first (List.mem_append_left _ inside)
  · rw [cutAt_none _ _ colon] at read
    cases t with
    | nil => cases read
    | cons c t =>
      cases read
      exact .alone _ (.plain _ (List.cons_ne_nil _ _) colon unclosed)

theorem Placed.read (placed : Placed t host port) : readPlace t = some (host, port) := by
  unfold readPlace
  cases placed with
  | alone host proper =>
    cases proper with
    | plain host real free unclosed =>
      obtain ⟨c, rest, rfl⟩ := List.exists_cons_of_ne_nil real
      rw [cutHost_plain unclosed, cutAt_none _ _ free]
      rfl
    | bracketed inside free =>
      rw [cutHost_bracketed inside [] free]
      rfl
  | ported host digits port proper read =>
    cases proper with
    | plain host real free unclosed =>
      obtain ⟨c, rest, rfl⟩ := List.exists_cons_of_ne_nil real
      have still : ((c :: rest) ++ ':' :: digits).head? = some '[' → ']' ∉ (c :: rest) ++ ':' :: digits := by
        intro first inside
        rcases List.mem_append.mp inside with before | behind
        · exact unclosed first before
        · simp [port?_closed read] at behind
      rw [cutHost_plain still, cutAt_first _ _ _ free]
      simp [read]
    | bracketed inside free =>
      have whole := cutHost_bracketed inside (':' :: digits) free
      simp only [List.cons_append, List.append_assoc, List.nil_append, whole]
      simp [read]

theorem Trailed.read (trailed : Trailed t host) : readPlace t = some (host, none) := by
  obtain ⟨inside, rest, free, filled, other⟩ := trailed
  unfold readPlace
  rw [cutHost_bracketed inside rest free, if_neg other]

theorem authority?_iff : authority? t = some (host, port) ↔
    Placed (place t) host port ∨ (port = none ∧ Trailed (place t) host) := by
  rw [authority?_eq]
  constructor
  · intro read
    rcases bracketed_or_not (place t) with ⟨inside, rest, whole, free⟩ | unclosed
    · rw [whole] at read ⊢
      exact readPlace_bracketed free read
    · exact .inl (readPlace_plain unclosed read)
  · rintro (placed | ⟨rfl, trailed⟩)
    · exact placed.read
    · exact trailed.read

end Hosts

section Forms

variable {uri host : Text} {target : Target}

def bare (uri : Text) : Text := uri.takeWhile (· ≠ '#')

def area (t : Text) : Text :=
  match cutMark "://".toList t with
  | some (_, rest) => rest.takeWhile fun c => !endsAuthority c
  | none => t

def authorityOf (uri : Text) : Text := place (area (bare uri))

def Unhosted (t : Text) : Prop := t = ['*'] ∨ t.head? = some '/'

instance (t : Text) : Decidable (Unhosted t) :=
  inferInstanceAs (Decidable (t = ['*'] ∨ t.head? = some '/'))

inductive Form : Text → Target → Prop
  | asterisk : Form ['*'] { path := some ['*'] }
  | rooted (t : Text) (root : t.head? = some '/') : Form t (ofPath t)
  | absolute (t scheme rest : Text) (target : Target) (hosted : ¬ Unhosted t)
    (cut : cutMark "://".toList t = some (scheme, rest)) (named : scheme ≠ [])
    (read : ofAbsolute? rest = some target) : Form t target
  | alone (t host : Text) (port : Option Nat) (hosted : ¬ Unhosted t)
    (free : cutMark "://".toList t = none) (read : authority? t = some (host, port)) :
    Form t { host := some host, port }

def Graphic (t : Text) : Prop := ∀ c ∈ t, Text.isGraphic c = true

theorem parse?_bare (real : uri ≠ []) (graphic : Graphic uri) :
    parse? uri =
      if bare uri = ['*'] then some { path := some (bare uri) }
      else if (bare uri).head? = some '/' then some (ofPath (bare uri))
      else
        match cutMark "://".toList (bare uri) with
        | some ([], _) => none
        | some (_, rest) => ofAbsolute? rest
        | none => (authority? (bare uri)).map fun place => { host := some place.1, port := place.2 } := by
  have shown : ¬ (uri = [] ∨ uri.all Text.isGraphic = false) := by
    rintro (empty | hidden)
    · exact real empty
    · obtain ⟨c, member, other⟩ := List.all_eq_false.mp hidden
      exact other (graphic c member)
  unfold parse? bare
  rw [if_neg shown, ← cutAt_takeWhile]
  cases cutAt '#' uri <;> rfl

theorem parse?_iff : parse? uri = some target ↔ uri ≠ [] ∧ Graphic uri ∧ Form (bare uri) target := by
  constructor
  · intro parsed
    have real : uri ≠ [] := by
      rintro rfl
      cases parsed
    have graphic : Graphic uri := by
      intro c member
      by_contra hidden
      have all : uri.all Text.isGraphic = false := List.all_eq_false.mpr ⟨c, member, hidden⟩
      rw [parse?, if_pos (.inr all)] at parsed
      cases parsed
    refine ⟨real, graphic, ?_⟩
    rw [parse?_bare real graphic] at parsed
    split at parsed
    · rename_i star
      cases parsed
      rw [star]
      exact .asterisk
    · rename_i star
      split at parsed
      · rename_i root
        cases parsed
        exact .rooted _ root
      · rename_i root
        have hosted : ¬ Unhosted (bare uri) := by simp [Unhosted, star, root]
        split at parsed
        · cases parsed
        · rename_i scheme rest named cut
          exact .absolute _ scheme rest target hosted cut (fun empty => named empty) parsed
        · rename_i free
          obtain ⟨⟨host, port⟩, read, rfl⟩ := Option.map_eq_some_iff.mp parsed
          exact .alone _ host port hosted free read
  · rintro ⟨real, graphic, form⟩
    rw [parse?_bare real graphic]
    -- The form tells which branch the parser takes.
    generalize bare uri = t at form
    cases form with
    | asterisk => rfl
    | rooted t root =>
      have star : t ≠ ['*'] := by
        rintro rfl
        cases root
      rw [if_neg star, if_pos root]
    | absolute t scheme rest target hosted cut named read =>
      rw [if_neg fun star => hosted (.inl star), if_neg fun root => hosted (.inr root), cut]
      cases scheme with
      | nil => exact absurd rfl named
      | cons c scheme => exact read
    | alone t host port hosted free read =>
      rw [if_neg fun star => hosted (.inl star), if_neg fun root => hosted (.inr root), free, read]
      rfl

-- A target has a host exactly if it has an authority, and then nothing else decides it.
theorem Form.hosted {t : Text} (form : Form t target) :
    (Unhosted t ∧ target.host = none) ∨
      (¬ Unhosted t ∧ ∃ host, target.host = some host ∧ authority? (area t) = some (host, target.port)) := by
  cases form with
  | asterisk => exact .inl ⟨.inl rfl, rfl⟩
  | rooted t root =>
    refine .inl ⟨.inr root, ?_⟩
    unfold ofPath
    split <;> rfl
  | absolute t scheme rest target hosted cut named read =>
    obtain ⟨⟨host, port⟩, found, rfl⟩ := Option.map_eq_some_iff.mp read
    refine .inr ⟨hosted, host, rfl, ?_⟩
    unfold area
    rw [cut]
    exact found
  | alone t host port hosted free read =>
    refine .inr ⟨hosted, host, rfl, ?_⟩
    unfold area
    rw [free]
    exact read

end Forms

structure Kept (uri : Text) : Prop where
  whole (target : Target) (host : Text) (accepted : parse? uri = some target)
    (hosted : target.host = some host) (closed : ¬ Trailed (authorityOf uri) host) :
    Placed (authorityOf uri) host target.port
  trailed (target : Target) (host : Text) (accepted : parse? uri = some target)
    (hosted : target.host = some host) (trailed : Trailed (authorityOf uri) host) : target.port = none
  refused (method : Method) (hosted : ¬ Unhosted (bare uri))
    (apart : ∀ host port, ¬ Placed (authorityOf uri) host port)
    (closed : ∀ host, ¬ Trailed (authorityOf uri) host) :
    Message.request method uri = .error .uriInvalid

section Keeping

variable {uri host : Text} {target : Target}

theorem parse?_hosted (accepted : parse? uri = some target) (hosted : target.host = some host) :
    Placed (authorityOf uri) host target.port ∨
      (target.port = none ∧ Trailed (authorityOf uri) host) := by
  obtain ⟨_, _, form⟩ := parse?_iff.mp accepted
  rcases form.hosted with ⟨_, none⟩ | ⟨_, found, same, read⟩
  · rw [none] at hosted
    cases hosted
  · obtain rfl : found = host := Option.some.inj (same.symm.trans hosted)
    exact authority?_iff.mp read

-- Nothing can be read in both ways, since a port is told from what trails.
theorem Trailed.port {t : Text} {port : Option Nat} (trailed : Trailed t host)
    (placed : Placed t host port) : port = none := by
  have read := placed.read
  rw [trailed.read] at read
  cases read
  rfl

theorem request_refused (method : Method) (refused : parse? uri = none) :
    Message.request method uri = .error .uriInvalid := by
  unfold Message.request Message.withUri?
  rw [refused]
  rfl

end Keeping

theorem authority_kept (uri : Text) : Kept uri where
  whole target host accepted hosted closed := by
    rcases parse?_hosted accepted hosted with placed | ⟨_, trailed⟩
    · exact placed
    · exact absurd trailed closed
  trailed target host accepted hosted trailed := by
    rcases parse?_hosted accepted hosted with placed | ⟨portless, _⟩
    · exact trailed.port placed
    · exact portless
  refused method hosted apart closed := by
    apply request_refused
    cases parsed : parse? uri with
    | none => rfl
    | some target =>
      obtain ⟨_, _, form⟩ := parse?_iff.mp parsed
      rcases form.hosted with ⟨unhosted, _⟩ | ⟨_, host, named, _⟩
      · exact absurd unhosted hosted
      · rcases parse?_hosted parsed named with placed | ⟨_, trailed⟩
        · exact absurd placed (apart _ _)
        · exact absurd trailed (closed _)

theorem authority_kept_bracketed :
    Placed "[::1]:080".toList "[::1]".toList (some 80) ∧
      Message.request .get "http://a@host:port/".toList = .error .uriInvalid := by
  constructor
  · have read : readPlace "[::1]:080".toList = some ("[::1]".toList, some 80) := by decide
    apply (authority_kept "ws://a:b@c@[::1]:080?d#e@f".toList).whole
      { host := some "[::1]".toList, port := some 80, path := some ['/'], query := some ['d'] }
    · decide
    · rfl
    · intro trailed
      cases trailed.read.symm.trans read
  · have unread : readPlace "host:port".toList = none := by decide
    apply (authority_kept "http://a@host:port/".toList).refused
    · decide
    · intro host port placed
      cases placed.read.symm.trans unread
    · intro host trailed
      cases trailed.read.symm.trans unread

theorem bracketed_port_lost :
    parse? "http://[::1]8080/".toList
        = some { host := some "[::1]".toList, path := some ['/'] } ∧
      authorityOf "http://[::1]8080/".toList = "[::1]8080".toList := by
  decide

end Target
end HttpWire
