import HttpWire.Proofs.FieldMaps
import Mathlib.Data.List.Basic

-- Under every name the values of the first map come before what is new in the second.
namespace HttpWire

section Newcomers

def knows (known : List Text) (value : Text) : Bool := known.any (Text.sameName value)

def newcomers (known : List Text) : List Text → List Text
  | [] => []
  | value :: values =>
    if knows known value then newcomers (known ++ [value]) values
    else value :: newcomers (known ++ [value]) values

variable {known less : List Text} {value : Text}

theorem knows_append (known more : List Text) (value : Text) :
    knows (known ++ more) value = (knows known value || knows more value) :=
  List.any_append

theorem knows_congr {other : Text} (same : Text.sameName value other = true) :
    knows known value = knows known other := by
  unfold knows
  rw [funext fun v => Text.sameName_congr same v]

theorem knows_one (value other : Text) : knows [value] other = Text.sameName other value := by
  simp [knows]

theorem knows_mem {values : List Text} (member : value ∈ values) : knows values value = true :=
  List.any_eq_true.mpr ⟨value, member, Text.sameName_refl value⟩

theorem knows_again (already : knows known value = true) :
    knows (known ++ [value]) = knows known := by
  funext other
  rw [knows_append, knows_one]
  cases same : Text.sameName other value with
  | false => rw [Bool.or_false]
  | true => rw [knows_congr same, already, Bool.true_or]

theorem newcomers_congr (same : knows known = knows less) (values : List Text) :
    newcomers known values = newcomers less values := by
  induction values generalizing known less with
  | nil => rfl
  | cons value values ih =>
    have next : knows (known ++ [value]) = knows (less ++ [value]) := by
      funext other
      rw [knows_append, knows_append, same]
    unfold newcomers
    rw [same, ih next]

theorem newcomers_old (already : knows known value = true) (values : List Text) :
    newcomers known (value :: values) = newcomers known values := by
  rw [newcomers, if_pos already]
  exact newcomers_congr (knows_again already) values

theorem newcomers_new (new : knows known value = false) (values : List Text) :
    newcomers known (value :: values) = value :: newcomers (known ++ [value]) values := by
  rw [newcomers, new, if_neg Bool.false_ne_true]

theorem newcomers_append (known front back : List Text) :
    newcomers known (front ++ back) = newcomers known front ++ newcomers (known ++ front) back := by
  induction front generalizing known with
  | nil => rw [List.nil_append, List.append_nil, newcomers, List.nil_append]
  | cons value front ih =>
    rw [List.cons_append, newcomers, newcomers, ih, List.append_assoc, List.singleton_append]
    split <;> rfl

theorem newcomers_known (values : List Text) (all : ∀ value ∈ values, knows known value = true) :
    newcomers known values = [] := by
  induction values with
  | nil => rfl
  | cons value values ih =>
    rw [newcomers_old (all value (List.mem_cons_self ..))]
    exact ih fun other member => all other (List.mem_cons_of_mem value member)

theorem newcomers_repeated (known : List Text) (value : Text) (times : Nat) (values : List Text) :
    newcomers known (List.replicate (times + 1) value ++ values) = newcomers known (value :: values) := by
  induction times with
  | zero => rfl
  | succ times ih =>
    have twice : knows (known ++ [value]) value = true := by
      rw [knows_append, knows_mem (List.mem_singleton_self value), Bool.or_true]
    rw [← ih, List.replicate_succ, List.replicate_succ, List.cons_append, List.cons_append, newcomers,
      newcomers_old twice]
    rfl

theorem knows_newcomers (known values : List Text) :
    knows (known ++ newcomers known values) = knows (known ++ values) := by
  induction values generalizing known with
  | nil => rfl
  | cons value values ih =>
    rw [List.append_cons known value values]
    cases already : knows known value with
    | true =>
      funext other
      rw [newcomers_old already, ih, knows_append, knows_append (known ++ [value]), knows_again already]
    | false =>
      rw [newcomers_new already, List.append_cons]
      exact ih _

-- To sort out first what is known to fewer changes nothing.
theorem newcomers_newcomers (values : List Text)
    (within : ∀ value, knows less value = true → knows known value = true) :
    newcomers known (newcomers less values) = newcomers known values := by
  induction values generalizing known less with
  | nil => rfl
  | cons value values ih =>
    cases already : knows less value with
    | true =>
      rw [newcomers_old already, newcomers_old (within value already)]
      exact ih within
    | false =>
      have next : ∀ other,
          knows (less ++ [value]) other = true → knows (known ++ [value]) other = true := by
        intro other
        rw [knows_append, knows_append, Bool.or_eq_true, Bool.or_eq_true]
        exact Or.imp_left (within other)
      rw [newcomers_new already, newcomers, newcomers, ih next]

def gather (known : List Text) (value : Text) : List Text :=
  if knows known value then known else known ++ [value]

theorem gather_all (known values : List Text) :
    values.foldl gather known = known ++ newcomers known values := by
  induction values generalizing known with
  | nil => exact (List.append_nil known).symm
  | cons value values ih =>
    rw [List.foldl_cons, ih, gather]
    cases already : knows known value with
    | true => rw [if_pos rfl, newcomers_old already]
    | false => rw [if_neg Bool.false_ne_true, newcomers_new already, List.append_assoc,
        List.singleton_append]

end Newcomers

namespace FieldMap

section Views

variable {m other : FieldMap} {name : Text}

def names (m : FieldMap) : List Text := m.entries.map Prod.fst

theorem contains_any (m : FieldMap) (k : Text) : m.contains k = m.names.any (Text.sameName · k) :=
  contains_names k m

theorem WellFormed.entries_eq (formed : m.WellFormed) :
    m.entries = m.names.map fun name => (name, m.values name) := by
  unfold names
  rw [List.map_map]
  symm
  have same : ∀ entry ∈ m.entries, (entry.1, m.values entry.1) = entry := by
    intro entry member
    rw [m.values_found entry.1 (formed.found entry.1 entry member (Text.sameName_refl entry.1))]
  exact (List.map_congr_left same).trans (List.map_id _)

theorem WellFormed.ext (formed : m.WellFormed) (also : other.WellFormed) (names : m.names = other.names)
    (values : ∀ k, m.values k = other.values k) : m = other := by
  have entries : m.entries = other.entries := by
    rw [formed.entries_eq, also.entries_eq, names]
    simp only [values]
  exact congrArg FieldMap.mk entries

theorem foldl_values (op : FieldMap → Text → Text → FieldMap) (step : List Text → Text → List Text)
    (law : ∀ m name value k, (op m name value).values k
      = if Text.sameName name k then step (m.values k) value else m.values k)
    (m : FieldMap) (fields : List Field) (k : Text) :
    (fields.foldl (fun m f => op m f.name f.value) m).values k
      = ((fields.filter fun f => Text.sameName f.name k).map Field.value).foldl step (m.values k) := by
  induction fields generalizing m with
  | nil => rfl
  | cons f fields ih =>
    rw [List.foldl_cons, ih, law]
    cases same : Text.sameName f.name k <;> simp [same]

theorem insert_step (m : FieldMap) (name value k : Text) : (m.insert name value).values k
    = if Text.sameName name k then m.values k ++ [value] else m.values k := by
  rw [values_insert]
  cases Text.sameName name k <;> simp

theorem ofFields_values (fields : List Field) (k : Text) : (ofFields fields).values k
    = (fields.filter fun f => Text.sameName f.name k).map Field.value := by
  have added (values : List Text) : values.foldl (fun known value => known ++ [value]) [] = values := by
    induction values using List.reverseRecOn with
    | nil => rfl
    | append_singleton values value ih => rw [List.foldl_append, ih]; rfl
  exact (foldl_values insert (fun known value => known ++ [value]) insert_step .empty fields k).trans
    (added _)

theorem insert_names (m : FieldMap) (name value : Text) :
    (m.insert name value).names = gather m.names name := by
  have known : knows m.names name = m.contains name := by
    rw [contains_any]
    exact List.any_congr rfl fun other => Text.sameName_symm name other
  unfold insert upsert gather
  rw [known]
  split
  · exact changeIn_names _ m.entries
  · exact List.map_append

theorem foldl_names (m : FieldMap) (fields : List Field) :
    (fields.foldl (fun m f => m.insert f.name f.value) m).names
      = (fields.map Field.name).foldl gather m.names := by
  induction fields generalizing m with
  | nil => rfl
  | cons f fields ih => rw [List.foldl_cons, ih, insert_names, List.map_cons, List.foldl_cons]

theorem ofFields_names (fields : List Field) :
    (ofFields fields).names = newcomers [] (fields.map Field.name) :=
  (foldl_names .empty fields).trans (gather_all [] _)

def spread {α : Type} (name : α → Text) (values : α → List Text) (row : α) : List Field :=
  (values row).map (Field.mk (name row))

section Rows

variable {α : Type} (name : α → Text) (values : α → List Text) (rows : List α)

theorem spread_values (k : Text) : (ofFields (rows.flatMap (spread name values))).values k
    = rows.flatMap fun row => if Text.sameName (name row) k then values row else [] := by
  rw [ofFields_values, List.filter_flatMap, List.map_flatMap]
  refine List.flatMap_congr fun row _ => ?_
  by_cases same : Text.sameName (name row) k = true <;>
    simp [spread, List.filter_map, Function.comp_def, same]

theorem spread_newcomers (known : List Text) :
    newcomers known ((rows.flatMap (spread name values)).map Field.name)
      = newcomers known ((rows.filter fun row => values row ≠ []).map name) := by
  rw [List.map_flatMap]
  induction rows generalizing known with
  | nil => rfl
  | cons row rows ih =>
    have same : (spread name values row).map Field.name
        = List.replicate (values row).length (name row) := by
      rw [spread, List.map_map]
      exact List.map_const' ..
    rw [List.flatMap_cons, same]
    cases found : values row with
    | nil =>
      rw [List.filter_cons_of_neg (by simp [found])]
      exact ih known
    | cons value others =>
      rw [List.filter_cons_of_pos (by simp [found]), List.map_cons, List.length_cons, newcomers_repeated,
        newcomers, newcomers, ih]

theorem spread_names : (ofFields (rows.flatMap (spread name values))).names
    = newcomers [] ((rows.filter fun row => values row ≠ []).map name) :=
  (ofFields_names _).trans (spread_newcomers name values rows [])

end Rows

theorem WellFormed.fields_values (formed : m.WellFormed) (k : Text) :
    (m.fields.filter fun f => Text.sameName f.name k).map Field.value = m.values k := by
  rw [← ofFields_values, formed.ofFields]

end Views

section Unions

variable {a b c : FieldMap}

theorem insertNew_step (m : FieldMap) (name value k : Text) :
    (m.insertNew name value).values k
      = if Text.sameName name k then gather (m.values k) value else m.values k := by
  unfold insertNew gather knows
  cases same : Text.sameName name k with
  | false =>
    rw [if_neg Bool.false_ne_true]
    split
    · rfl
    · rw [values_insert, same, if_neg Bool.false_ne_true, List.append_nil]
  | true =>
    rw [m.values_congr same, if_pos rfl]
    split
    · rfl
    · rw [values_insert, same, if_pos rfl]

theorem insertNew_names (m : FieldMap) (name value : Text) :
    (m.insertNew name value).names = if m.contains name then m.names else m.names ++ [name] := by
  unfold insertNew insert upsert
  cases present : m.contains name with
  | true =>
    rw [if_pos rfl, if_pos rfl]
    split
    · rfl
    · exact changeIn_names _ m.entries
  | false =>
    rw [m.values_absent name present]
    exact List.map_append

theorem union_values (a : FieldMap) (formed : b.WellFormed) (k : Text) :
    (a.union b).values k = a.values k ++ newcomers (a.values k) (b.values k) := by
  unfold union
  rw [foldl_values insertNew gather insertNew_step, formed.fields_values, gather_all]

theorem insertNew_known (name : Text) (values : List Text) (present : a.contains name = true) :
    (values.foldl (fun m value => m.insertNew name value) a).names = a.names := by
  refine List.foldlRecOn (motive := fun m : FieldMap => m.names = a.names) values _ rfl
    fun m same value _ => ?_
  rw [contains_any, ← same, ← contains_any] at present
  rw [insertNew_names, present, if_pos rfl, same]

theorem insertNew_all_names (a : FieldMap) (name : Text) (values : List Text) (filled : values ≠ []) :
    (values.foldl (fun m value => m.insertNew name value) a).names
      = if a.contains name then a.names else a.names ++ [name] := by
  cases values with
  | nil => exact absurd rfl filled
  | cons value values =>
    have first := insertNew_names a name value
    have present : (a.insertNew name value).contains name = true := by
      rw [contains_any, first]
      split
      · rename_i present
        rwa [← contains_any]
      · simp [Text.sameName_refl]
    rw [List.foldl_cons, insertNew_known name values present, first]

theorem union_names (a : FieldMap) (formed : b.WellFormed) :
    (a.union b).names = a.names ++ b.names.filter fun name => !a.contains name := by
  obtain ⟨entries⟩ := b
  induction entries generalizing a with
  | nil => exact (List.append_nil _).symm
  | cons entry entries ih =>
    have distinct := formed.distinct
    rw [List.map_cons, List.pairwise_cons] at distinct
    have rest : WellFormed ⟨entries⟩ :=
      ⟨distinct.2, fun other member => formed.filled other (List.mem_cons_of_mem entry member)⟩
    have first := insertNew_all_names a entry.1 entry.2 (formed.filled entry (List.mem_cons_self ..))
    have split : a.union ⟨entry :: entries⟩
        = (entry.2.foldl (fun m value => m.insertNew entry.1 value) a).union ⟨entries⟩ := by
      unfold union fields
      rw [List.flatMap_cons, List.foldl_append, List.foldl_map]
    -- The names that come later are not the one of this entry.
    have kept : ∀ name ∈ names ⟨entries⟩,
        (entry.2.foldl (fun m value => m.insertNew entry.1 value) a).contains name = a.contains name := by
      intro name member
      rw [contains_any _ name, first, a.contains_any name]
      split
      · rfl
      · rw [List.any_append, List.any_cons, distinct.1 name member, List.any_nil, Bool.or_false,
          Bool.or_false]
    rw [split, ih _ rest, first, List.filter_congr fun name member => by rw [kept name member]]
    change _ = a.names ++ (entry.1 :: names ⟨entries⟩).filter fun name => !a.contains name
    cases present : a.contains entry.1 <;> simp [present]

theorem union_contains (a : FieldMap) (formed : b.WellFormed) (k : Text) :
    (a.union b).contains k = (a.contains k || b.contains k) := by
  rw [contains_any, union_names a formed, List.any_append, List.any_filter, ← contains_any]
  cases present : a.contains k with
  | true => rw [Bool.true_or, Bool.true_or]
  | false =>
    rw [Bool.false_or, Bool.false_or, b.contains_any k]
    congr 1
    funext name
    cases same : Text.sameName name k with
    | false => rw [Bool.and_false]
    | true => rw [a.contains_congr same, present, Bool.not_false, Bool.true_and]

theorem contains_name (b : FieldMap) (name : Text) (member : name ∈ b.names) :
    b.contains name = true := by
  rw [contains_any]
  exact List.any_eq_true.mpr ⟨name, member, Text.sameName_refl name⟩

theorem union_entries (formed : a.WellFormed) (also : b.WellFormed) :
    (a.union b).entries
      = a.entries.map (fun e => (e.1, e.2 ++ newcomers e.2 (b.values e.1)))
        ++ (b.entries.filter fun e => !a.contains e.1).map fun e => (e.1, newcomers [] e.2) := by
  rw [(formed.union b).entries_eq, union_names a also, List.map_append]
  congr 1
  · conv_rhs => rw [formed.entries_eq]
    simp only [List.map_map, Function.comp_def, union_values a also]
  · conv_rhs => rw [also.entries_eq]
    rw [List.filter_map, List.map_map]
    refine List.map_congr_left fun name member => ?_
    have new : a.contains name = false := by simpa using (List.mem_filter.mp member).2
    rw [union_values a also, a.values_absent name new]
    rfl

theorem union_known (formed : a.WellFormed) (also : b.WellFormed)
    (names : ∀ name ∈ b.names, a.contains name = true)
    (values : ∀ k, ∀ value ∈ b.values k, knows (a.values k) value = true) : a.union b = a := by
  refine WellFormed.ext (formed.union b) formed ?_ fun k => ?_
  · rw [union_names a also, List.filter_eq_nil_iff.mpr, List.append_nil]
    intro name member
    simp [names name member]
  · rw [union_values a also, newcomers_known _ (values k), List.append_nil]

theorem union_self (formed : a.WellFormed) : a.union a = a :=
  union_known formed formed a.contains_name fun _ _ => knows_mem

theorem union_again (formed : a.WellFormed) (also : b.WellFormed) :
    (a.union b).union b = a.union b := by
  refine union_known (formed.union b) also (fun name member => ?_) fun k value member => ?_
  · rw [union_contains a also, b.contains_name name member, Bool.or_true]
  · rw [union_values a also, knows_newcomers, knows_append, knows_mem member, Bool.or_true]

theorem union_assoc (formed : a.WellFormed) (second : b.WellFormed) (third : c.WellFormed) :
    (a.union b).union c = a.union (b.union c) := by
  have behind := second.union c
  refine WellFormed.ext ((formed.union b).union c) (formed.union _) ?_ fun k => ?_
  · rw [union_names _ third, union_names a second, union_names a behind, union_names b third,
      List.filter_append, List.filter_filter, List.append_assoc]
    congr 2
    exact List.filter_congr fun name _ => by rw [union_contains a second, Bool.not_or]
  · rw [union_values _ third, union_values a second, union_values a behind, union_values b third,
      newcomers_append, List.append_assoc, newcomers_congr (knows_newcomers _ _)]
    rw [newcomers_newcomers _ fun value already => by rw [knows_append, already, Bool.or_true]]

end Unions

section Laws

theorem union_laws {a b c : FieldMap} (first : a.Built) (second : b.Built) (third : c.Built) :
    (∀ k, (a.union b).values k = a.values k ++ newcomers (a.values k) (b.values k)) ∧
    (a.union b).entries
      = a.entries.map (fun e => (e.1, e.2 ++ newcomers e.2 (b.values e.1)))
        ++ (b.entries.filter fun e => !a.contains e.1).map (fun e => (e.1, newcomers [] e.2)) ∧
    (a.union b).union b = a.union b ∧ a.union a = a ∧
    (a.union b).union c = a.union (b.union c) := by
  have formed := first.wellFormed
  have also := second.wellFormed
  exact ⟨union_values a also, union_entries formed also, union_again formed also, union_self formed,
    union_assoc formed also third.wellFormed⟩

-- The spelling of a name and of a value is the one that comes first.
theorem union_laws_accept :
    let a : FieldMap := .ofFields
      [ ⟨"Accept".toList, "text/html".toList⟩, ⟨"X-A".toList, "1".toList⟩,
        ⟨"x-a".toList, "1".toList⟩ ]
    let b : FieldMap := .ofFields
      [ ⟨"X-B".toList, "b".toList⟩, ⟨"x-b".toList, "B".toList⟩,
        ⟨"accept".toList, "TEXT/HTML".toList⟩, ⟨"accept".toList, "text/plain".toList⟩ ]
    let c : FieldMap := .ofFields [ ⟨"x-b".toList, "B".toList⟩, ⟨"X-C".toList, [] ⟩ ]
    a.Built ∧ b.Built ∧ c.Built ∧
      (a.union b).union c =
        ⟨[ ("Accept".toList, ["text/html".toList, "text/plain".toList]),
           ("X-A".toList, ["1".toList, "1".toList]), ("X-B".toList, ["b".toList]),
           ("X-C".toList, [[]]) ]⟩ ∧
      (a.union b).union b = a.union b ∧ a.union a = a ∧
      (a.union b).union c = a.union (b.union c) := by
  intro a b c
  have first : a.Built := .ofFields _
  have second : b.Built := .ofFields _
  have third : c.Built := .ofFields _
  obtain ⟨_, _, again, self, associative⟩ := union_laws first second third
  exact ⟨first, second, third, by decide, again, self, associative⟩

end Laws

end FieldMap

end HttpWire
