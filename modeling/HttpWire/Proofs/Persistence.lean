import HttpWire.Proofs.Drafting
import HttpWire.Proofs.Multimap

-- Whether the connection of a message stays open, as it is set and as it is read back. Setting it
-- writes the token that keeps a connection or takes it away; no token that closes one is written.
namespace HttpWire.Message

section Connections

variable {m next : Message} {persist : Bool}

theorem connectionHas_values (values : List Text)
    (known : next.headers.values "connection".toList = values) (token : String) :
    next.connectionHas token
      = (values.flatMap (splitAll ',')).any fun piece => (Text.trim piece).named token := by
  unfold connectionHas
  rw [known]

structure Persisting (persist : Bool) (m next : Message) : Prop where
  written : persist = true → next.headers.values "connection".toList = ["keep-alive".toList]
  removed : persist = false → next.connectionHas "keep-alive" = false
  unclosed : next.connectionHas "close" = true → m.connectionHas "close" = true
  others : next.headers.entries.filter (fun e => !FieldMap.isFor "connection".toList e)
    = m.headers.entries.filter (fun e => !FieldMap.isFor "connection".toList e)
  elsewhere : FieldMap.SameBut "connection".toList next.headers m.headers
  untouched : { next with headers := m.headers } = m
  reads : persist = true ∨ m.version = some .v10 → next.isPersistent = persist
  stays : m.version ≠ some .v10 → m.connectionHas "close" = false → next.isPersistent = true

theorem Persisting.of_connection
    (connection : next.headers.values "connection".toList
      = if persist then ["keep-alive".toList] else [])
    (others : next.headers.entries.filter (fun e => !FieldMap.isFor "connection".toList e)
      = m.headers.entries.filter (fun e => !FieldMap.isFor "connection".toList e))
    (untouched : { next with headers := m.headers } = m) : Persisting persist m next := by
  have version : next.version = m.version := by rw [← untouched]
  have keeps : next.connectionHas "keep-alive" = persist := by
    rw [connectionHas_values _ connection]
    cases persist <;> decide
  have closes : next.connectionHas "close" = false := by
    rw [connectionHas_values _ connection]
    cases persist <;> decide
  -- Only version 1.0 asks for the token that keeps a connection.
  have reading : next.isPersistent = (m.version != some .v10 || persist) := by
    unfold isPersistent
    rw [version, keeps, closes]
    rcases m.version with _ | _ | _ <;> rfl
  refine ⟨?_, ?_, ?_, others, FieldMap.others_alone others, untouched, ?_, ?_⟩
  · rintro rfl
    exact connection
  · rintro rfl
    exact keeps
  · intro asked
    simp [closes] at asked
  · rintro (rfl | old)
    · simp [reading]
    · simp [reading, old]
  · intro later _
    simp [reading, later]

theorem setPersistent_kept (made : m.Made) (free : m.upgrade = none) (persist : Bool) :
    Persisting persist m (m.setPersistent persist) := by
  have formed := made.sound.headers.built.wellFormed
  have bare := FieldMap.change_changed formed "connection".toList .erase
  have none : (m.headers.erase "connection".toList).values "connection".toList = [] := bare.values
  have written : m.setPersistent persist = { m with headers := (if persist
      then (m.headers.erase "connection".toList).insert "Connection".toList "keep-alive".toList
      else m.headers.erase "connection".toList) } := by
    unfold setPersistent
    rw [free]
    rfl
  rw [written]
  cases persist with
  | false => exact .of_connection none bare.others rfl
  | true =>
    have added := FieldMap.change_changed formed.erase "Connection".toList
      (.insert "keep-alive".toList) (m := m.headers.erase "connection".toList)
    have same : Text.sameName "Connection".toList "connection".toList = true := by decide
    refine .of_connection ?_ ?_ rfl
    · rw [if_pos rfl, if_pos rfl, FieldMap.values_insert, none, if_pos same]
      rfl
    · have others := added.others
      rw [FieldMap.isFor_congr same] at others
      exact others.trans bare.others

theorem connection_given_up :
    let m := ((Message.response 200 "OK".toList).edit (.setVersion .v10)).edit
      (.addHeader "connection".toList "te, Keep-Alive".toList)
    m.Made ∧ m.upgrade = none ∧ m.isPersistent = true ∧ (m.setPersistent false).isPersistent = false ∧
      Persisting false m (m.setPersistent false) := by
  intro m
  have made : m.Made := ((Made.response 200 "OK".toList).edit _).edit _
  exact ⟨made, rfl, by decide, by decide, setPersistent_kept made rfl false⟩

-- From version 1.1 on, a connection without any token is one that stays open.
theorem connection_not_closed :
    let m := Message.response 200 "OK".toList
    m.Made ∧ m.upgrade = none ∧ (m.setPersistent false).isPersistent ≠ false :=
  ⟨.response 200 "OK".toList, rfl, by decide⟩

end Connections

end HttpWire.Message
