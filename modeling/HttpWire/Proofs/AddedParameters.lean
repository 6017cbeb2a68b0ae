import HttpWire.Proofs.QueryStrings
import HttpWire.Proofs.TargetParts

-- What is put behind a target begins its query or continues it, unless a fragment keeps it away or
-- a question mark has been counted that begins no query.
namespace HttpWire

namespace Target

section Stopping

variable {p : Char → Bool} {front rest : Text}

theorem takeWhile_stopped
    (stops : (∃ c ∈ front, p c = false) ∨ ∀ c ∈ rest.head?, p c = false) :
    (front ++ rest).takeWhile p = front.takeWhile p ∧
      (front ++ rest).dropWhile p = front.dropWhile p ++ rest := by
  have first : ∀ c ∈ (front.dropWhile p ++ rest).head?, p c = false := by
    intro c head
    cases left : front.dropWhile p with
    | nil =>
      rcases stops with ⟨d, member, other⟩ | stops
      · have all := List.dropWhile_eq_nil_iff.mp left d member
        rw [other] at all
        cases all
      · rw [left] at head
        exact stops c head
    | cons d later =>
      have other := List.head?_dropWhile_not p front
      rw [left] at head other
      cases head
      exact other
  have run : ∀ c ∈ front.takeWhile p, p c = true := fun c member => List.mem_takeWhile_imp member
  have parts := takeWhile_parts run first
  rwa [← List.append_assoc, List.takeWhile_append_dropWhile] at parts

end Stopping

def asked (t : Target) (q : Text) : Target :=
  { t with query := some (t.query.elim q (· ++ '&' :: q)) }

def lead (t : Target) : Char := if t.query = none then '?' else '&'

section Asking

variable {t rest : Text} {target : Target}

theorem ofPath_unmarked (free : '?' ∉ t) : ofPath t = { path := some t } := by
  unfold ofPath
  rw [cutAt_none _ _ free]

theorem ofPath_query : (ofPath t).query = none ↔ '?' ∉ t := by
  by_cases marked : '?' ∈ t
  · obtain ⟨path, query, rfl, free⟩ := List.eq_append_cons_of_mem marked
    have given : ofPath (path ++ '?' :: query) = _ := ofPath_led free (some query)
    simp [given]
  · simp [ofPath_unmarked marked, marked]

theorem ofPath_asked (t q : Text) : ofPath (t ++ (ofPath t).lead :: q) = (ofPath t).asked q := by
  by_cases marked : '?' ∈ t
  · obtain ⟨path, query, rfl, free⟩ := List.eq_append_cons_of_mem marked
    have given : ofPath (path ++ '?' :: query) = _ := ofPath_led free (some query)
    have more : ofPath (path ++ '?' :: (query ++ '&' :: q)) = _ := ofPath_led free (some _)
    rw [given, List.append_assoc]
    exact more
  · rw [ofPath_unmarked marked]
    exact ofPath_led marked (some q)

theorem ofAbsolute?_asked (read : ofAbsolute? rest = some target) (q : Text) :
    ofAbsolute? (rest ++ target.lead :: q) = some (target.asked q) := by
  obtain ⟨place, found, rfl⟩ := Option.map_eq_some_iff.mp read
  generalize behind : rest.dropWhile (fun c => !endsAuthority c) = tail at found ⊢
  have stops : (∃ c ∈ rest, (!endsAuthority c) = false) ∨
      ∀ c ∈ ((ofPath tail).lead :: q).head?, (!endsAuthority c) = false := by
    by_cases silent : (ofPath tail).query = none
    · right
      intro c head
      rw [lead, if_pos silent] at head
      cases head
      rfl
    · left
      have marked : '?' ∈ tail := by simpa [ofPath_query] using silent
      rw [← behind] at marked
      exact ⟨'?', (List.dropWhile_suffix _).subset marked, rfl⟩
  obtain ⟨front, after⟩ := takeWhile_stopped stops
  have same : ofAbsolute? (rest ++ (ofPath tail).lead :: q)
      = (authority? (rest.takeWhile fun c => !endsAuthority c)).map fun place =>
          { (ofPath tail).asked q with
            host := some place.1
            port := place.2
            path := if (ofPath tail).path = some [] then some ['/'] else (ofPath tail).path } := by
    unfold ofAbsolute?
    rw [front, after, behind, ofPath_asked]
    rfl
  exact same.trans (by rw [found]; rfl)

end Asking

def Pathed (uri : Text) : Prop := (bare uri).head? = some '/' ∨ "://".toList <:+: bare uri

-- No fragment ends the target, and no question mark in it begins anything but its query.
structure Extensible (uri : Text) (target : Target) : Prop where
  unended : '#' ∉ uri
  marked : '?' ∈ uri → target.query ≠ none

section Extending

variable {t uri : Text} {target : Target}

theorem Form.unasked (form : Form t target) (free : '?' ∉ t) : target.query = none := by
  cases form with
  | asterisk => rfl
  | rooted t root => exact ofPath_query.mpr free
  | absolute t scheme rest target hosted cut named read =>
    obtain ⟨place, _, rfl⟩ := Option.map_eq_some_iff.mp read
    apply ofPath_query.mpr
    intro inside
    apply free
    rw [cutMark_eq _ _ _ _ cut]
    exact List.mem_append_right _ (List.mem_append_right _ ((List.dropWhile_suffix _).subset inside))
  | alone t host port hosted free read => rfl

theorem Form.asked (form : Form t target) (pathed : t.head? = some '/' ∨ "://".toList <:+: t)
    (q : Text) : Form (t ++ target.lead :: q) (target.asked q) := by
  cases form with
  | asterisk => exact absurd pathed (by decide)
  | rooted t root =>
    have real : t ≠ [] := by
      rintro rfl
      cases root
    rw [← ofPath_asked]
    exact .rooted _ ((List.head?_append_of_ne_nil _ real).trans root)
  | absolute t scheme rest target hosted cut named read =>
    have still := cutMark_append _ _ _ _ (target.lead :: q) cut
    have real : t ≠ [] := by
      rintro rfl
      cases cut
    refine .absolute _ scheme _ _ ?_ still named (ofAbsolute?_asked read q)
    rintro (star | root)
    · rcases List.append_eq_singleton_iff.mp star with ⟨empty, _⟩ | ⟨same, _⟩
      · exact real empty
      · exact hosted (.inl same)
    · rw [List.head?_append_of_ne_nil _ real] at root
      exact hosted (.inr root)
  | alone t host port hosted free read =>
    rcases pathed with root | mark
    · exact absurd (.inr root) hosted
    · exact absurd mark ((cutMark_none _ _ (by decide)).mp free)

theorem bare_unended (graphic : Graphic uri) (free : '#' ∉ uri) : bare uri = uri := by
  apply bare_clear
  intro c member
  refine ⟨graphic c member, fun mark => ?_⟩
  rw [List.mem_singleton.mp mark] at member
  exact free member

theorem Extensible.lead (extensible : Extensible uri target) (accepted : parse? uri = some target) :
    (if uri.contains '?' then '&' else '?') = target.lead := by
  obtain ⟨_, graphic, form⟩ := parse?_iff.mp accepted
  rw [bare_unended graphic extensible.unended] at form
  unfold Target.lead
  by_cases marked : '?' ∈ uri
  · rw [if_pos (List.contains_iff_mem.mpr marked), if_neg (extensible.marked marked)]
  · rw [if_neg (by simpa using marked), if_pos (form.unasked marked)]

theorem parse?_asked (extensible : Extensible uri target) (pathed : Pathed uri)
    (accepted : parse? uri = some target) {q : Text} (clear : Clear ['#'] q) :
    parse? (uri ++ target.lead :: q) = some (target.asked q) := by
  obtain ⟨real, graphic, form⟩ := parse?_iff.mp accepted
  have whole := bare_unended graphic extensible.unended
  have mark : Clear ['#'] [target.lead] := by
    unfold Target.lead
    split <;> decide
  have added : Clear ['#'] (target.lead :: q) := mark.append clear
  have shown : Graphic (uri ++ target.lead :: q) := by
    intro c member
    rcases List.mem_append.mp member with before | behind
    · exact graphic c before
    · exact added.graphic c behind
  have free : '#' ∉ uri ++ target.lead :: q := by
    rw [List.mem_append, not_or]
    exact ⟨extensible.unended, added.free (List.mem_singleton_self _)⟩
  unfold Pathed at pathed
  rw [whole] at form pathed
  refine parse?_iff.mpr ⟨List.append_ne_nil_of_left_ne_nil real _, shown, ?_⟩
  rw [bare_unended shown free]
  exact form.asked pathed q

end Extending

end Target

-- All parameters that have a value are inserted in their order, and nothing else changes.
theorem parameters_reach_query (uri : Text) (target : Target) (params : FieldMap) (spaceAsPlus : Bool)
    (accepted : Target.parse? uri = some target) (pathed : Target.Pathed uri)
    (named : ∀ entry ∈ params.entries, entry.1 ≠ [])
    (reached : (∀ f ∈ params.fields, f.value = []) ∨ Target.Extensible uri target) :
    ∃ extended, Target.parse? (Query.addTo uri params spaceAsPlus) = some extended ∧
      extended.host = target.host ∧ extended.port = target.port ∧ extended.path = target.path ∧
      Query.parse (extended.query.getD [])
        = (params.fields.filter (·.value ≠ [])).foldl (fun m f => m.insert f.name f.value)
            (Query.parse (target.query.getD [])) := by
  rw [← FieldMap.valued_fields]
  by_cases silent : params.valued.fields = []
  · rw [Query.addTo_silent silent, silent]
    exact ⟨target, accepted, rfl, rfl, rfl, rfl⟩
  · have extensible : Target.Extensible uri target := by
      rcases reached with empty | extensible
      · refine absurd ?_ silent
        rw [FieldMap.valued_fields, List.filter_eq_nil_iff]
        intro f member
        simpa using empty f member
      · exact extensible
    rw [Query.addTo_filled silent, extensible.lead accepted]
    refine ⟨_, Target.parse?_asked extensible pathed accepted (Query.joined_clear _), rfl, rfl, rfl, ?_⟩
    have names := Query.valued_named named
    unfold Target.asked
    cases target.query with
    | none => exact Query.parse_joined names silent
    | some given => exact Query.parse_behind given names silent

theorem parameters_reach_queries :
    (∃ extended, Target.parse? (Query.addTo "ws://[::1]:80?a=1&&b".toList
        (.ofFields [⟨"A".toList, "x&y".toList⟩, ⟨"none".toList, []⟩, ⟨"ü".toList, "#?".toList⟩]) true)
          = some extended ∧
      extended.host = some "[::1]".toList ∧ extended.port = some 80 ∧ extended.path = some ['/'] ∧
      Query.parse (extended.query.getD [])
        = ⟨[("a".toList, ["1".toList, "x&y".toList]), ("b".toList, [[]]), ("ü".toList, ["#?".toList])]⟩) ∧
    (∃ extended, Target.parse? (Query.addTo "/p#?".toList (.ofFields [⟨"a".toList, []⟩]) false)
          = some extended ∧
      extended.host = none ∧ extended.port = none ∧ extended.path = some "/p".toList ∧
      Query.parse (extended.query.getD []) = .empty) := by
  constructor
  · obtain ⟨extended, read, host, port, path, query⟩ := parameters_reach_query "ws://[::1]:80?a=1&&b".toList
      { host := some "[::1]".toList, port := some 80, path := some ['/'], query := some "a=1&&b".toList }
      (.ofFields [⟨"A".toList, "x&y".toList⟩, ⟨"none".toList, []⟩, ⟨"ü".toList, "#?".toList⟩]) true
      (by decide) (.inr ⟨"ws".toList, "[::1]:80?a=1&&b".toList, rfl⟩) (by decide)
      (.inr ⟨by decide, nofun⟩)
    exact ⟨extended, read, host, port, path, query.trans (by decide)⟩
  · obtain ⟨extended, read, host, port, path, query⟩ := parameters_reach_query "/p#?".toList
      { path := some "/p".toList } (.ofFields [⟨"a".toList, []⟩]) false
      (by decide) (.inl rfl) (by decide) (.inl (by decide))
    exact ⟨extended, read, host, port, path, query⟩

theorem parameters_lost :
    (Target.parse? "/p#f".toList = some { path := some "/p".toList } ∧
      Query.addTo "/p#f".toList (.ofFields [⟨['a'], ['1']⟩]) false = "/p#f?a=1".toList ∧
      Target.parse? "/p#f?a=1".toList = some { path := some "/p".toList }) ∧
    (Target.parse? "a?b://c".toList = some { host := some ['c'], path := some ['/'] } ∧
      Query.addTo "a?b://c".toList (.ofFields [⟨['a'], ['1']⟩]) false = "a?b://c&a=1".toList ∧
      Target.parse? "a?b://c&a=1".toList = some { host := some "c&a=1".toList, path := some ['/'] }) := by
  decide

end HttpWire
