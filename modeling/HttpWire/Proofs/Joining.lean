import HttpWire.Reader.Basic

-- Joined events tell what has been announced, whatever the number of events it took.
namespace HttpWire.Event

def joinOnto : Event → List Event → List Event
  | .data p a, .data q b :: later =>
    if p = q then .data p (a ++ b) :: later else .data p a :: .data q b :: later
  | e, later => e :: later

def joined (events : List Event) : List Event := events.foldr joinOnto []

@[simp] theorem joined_nil : joined [] = [] := rfl

theorem joined_cons (e : Event) (events : List Event) :
    joined (e :: events) = joinOnto e (joined events) := rfl

theorem joinOnto_data (p : Place) (a b : Bytes) (later : List Event) :
    joinOnto (.data p a) (joinOnto (.data p b) later) = joinOnto (.data p (a ++ b)) later := by
  cases later with
  | nil => simp [joinOnto]
  | cons e later =>
    cases e with
    | data q c =>
      by_cases same : p = q
      · subst same
        simp [joinOnto]
      · simp [joinOnto, same]
    | _ => simp [joinOnto]

theorem joinOnto_foldr (e : Event) (events later : List Event) :
    (joinOnto e events).foldr joinOnto later = joinOnto e (events.foldr joinOnto later) := by
  cases events with
  | nil => cases e <;> rfl
  | cons f events =>
    cases e with
    | data p a =>
      cases f with
      | data q b =>
        by_cases same : p = q
        · subst same
          simp only [joinOnto, if_pos, List.foldr_cons]
          exact (joinOnto_data p a b _).symm
        · simp only [joinOnto, if_neg same, List.foldr_cons]
      | _ => rfl
    | _ => rfl

theorem joined_append (events later : List Event) :
    joined (events ++ later) = (joined events).foldr joinOnto (joined later) := by
  induction events with
  | nil => rfl
  | cons e events ih => rw [List.cons_append, joined_cons, ih, joined_cons, joinOnto_foldr]

theorem joined_append_congr {events events' later later' : List Event}
    (first : joined events = joined events') (second : joined later = joined later') :
    joined (events ++ later) = joined (events' ++ later') := by
  rw [joined_append, joined_append, first, second]

@[simp] theorem ofData_nil (p : Place) : ofData p [] = [] := rfl

theorem joined_ofData_append (p : Place) (a b : Bytes) :
    joined (ofData p a ++ ofData p b) = joined (ofData p (a ++ b)) := by
  cases a with
  | nil => simp
  | cons x a =>
    cases b with
    | nil => simp
    | cons y b => simp [ofData, joined, joinOnto]

-- Events that are no data stand between data and keep it apart.
def IsOther (e : Event) : Prop := ∀ place bytes, e ≠ .data place bytes

theorem dataDone_isOther (p : Place) : (dataDone p).IsOther := fun _ _ => nofun

theorem joinOnto_other (e : Event) (later : List Event) (other : e.IsOther) :
    joinOnto e later = e :: later := by
  cases e with
  | data place bytes => exact absurd rfl (other place bytes)
  | _ => rfl

theorem joined_others (events later : List Event) (others : ∀ e ∈ events, e.IsOther) :
    joined (events ++ later) = events ++ joined later := by
  induction events with
  | nil => rfl
  | cons e events ih =>
    have rest := ih fun f member => others f (List.mem_cons_of_mem e member)
    rw [List.cons_append, joined_cons, rest, joinOnto_other e _ (others e (List.mem_cons_self ..))]
    rfl

theorem joined_data (p : Place) (bytes : Bytes) (e : Event) (later : List Event) (other : e.IsOther) :
    joined (ofData p bytes ++ e :: later) = ofData p bytes ++ e :: joined later := by
  unfold ofData
  split
  · rw [List.nil_append, joined_cons, joinOnto_other e _ other]
    rfl
  · rw [List.singleton_append, joined_cons, joined_cons, joinOnto_other e _ other]
    cases e with
    | data place bytes => exact absurd rfl (other place bytes)
    | _ => rfl

theorem ofField_others (s : Section) (f : Field) : ∀ e ∈ ofField s f, e.IsOther := by
  intro e member place bytes
  rcases List.mem_cons.mp member with rfl | element
  · nofun
  · obtain ⟨value, _, rfl⟩ := List.mem_map.mp element
    nofun

end HttpWire.Event
