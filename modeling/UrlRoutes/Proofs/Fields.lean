import Mathlib.Data.List.Nodup
import UrlRoutes.Route.Write
/-!
# Records of fields

The captures of a route make a record field by field, and a route writes a
record field by field. A list of fields with different keys, the record made
of it and the look-ups in that record carry the same information.

Results:
* `merge_ofFields`: merging joins lists of fields.
* `holds_ofFields`: every field is found under its key.
* `restrict_eq_ofFields`: a value cut down to the keys of its fields is the
  record of these fields.
-/
namespace UrlRoutes

namespace Dict
variable {α : Type}

/-- The entries of some keys. -/
def restrict (keys : List String) (d : Dict α) : Dict α :=
  ofList (keys.filterMap fun key => (d.get? key).map (key, ·))

theorem lookup_of_mem {entries : List (String × α)} (hn : (entries.map Prod.fst).Nodup)
    {e : String × α} (h : e ∈ entries) : lookup e.1 entries = some e.2 := by
  induction entries with
  | nil => cases h
  | cons f entries ih =>
    obtain ⟨k, v⟩ := f
    rw [List.map_cons, List.nodup_cons] at hn
    rw [lookup]
    rcases List.mem_cons.mp h with rfl | h
    · exact if_pos rfl
    · have hne : e.1 ≠ k := by
        intro he
        exact hn.1 (List.mem_map.mpr ⟨e, h, he⟩)
      rw [if_neg hne, ih hn.2 h]

theorem get?_ofList_of_mem {entries : List (String × α)} (hn : (entries.map Prod.fst).Nodup)
    {e : String × α} (h : e ∈ entries) : (ofList entries).get? e.1 = some e.2 := by
  rw [get?_ofList]
  refine lookup_of_mem ?_ (List.mem_reverse.mpr h)
  rw [List.map_reverse, List.nodup_reverse]
  exact hn

theorem mem_of_lookup {entries : List (String × α)} {key : String} {value : α}
    (h : lookup key entries = some value) : (key, value) ∈ entries := by
  induction entries with
  | nil => cases h
  | cons f entries ih =>
    obtain ⟨k, v⟩ := f
    rw [lookup] at h
    split at h
    · next he =>
      cases h
      rw [he]
      exact List.mem_cons_self
    · exact List.mem_cons_of_mem _ (ih h)

theorem mem_keys_ofList_iff {entries : List (String × α)} {key : String} :
    key ∈ (ofList entries).keys ↔ key ∈ entries.map Prod.fst := by
  rw [← not_iff_not, ← get?_eq_none_iff, get?_ofList, lookup_eq_none_iff, List.map_reverse,
    List.mem_reverse]

/-- Every entry of a restriction comes from the dictionary. -/
theorem get?_restrict (keys : List String) (d : Dict α) (q : String) :
    (d.restrict keys).get? q = if q ∈ keys then d.get? q else none := by
  have hmem : ∀ value, (q, value) ∈ keys.filterMap (fun key => (d.get? key).map (key, ·)) ↔
      q ∈ keys ∧ d.get? q = some value := by
    intro value
    simp only [List.mem_filterMap, Option.map_eq_some_iff, Prod.mk.injEq]
    constructor
    · intro h
      obtain ⟨key, hk, v, hv, rfl, rfl⟩ := h
      exact ⟨hk, hv⟩
    · intro h
      obtain ⟨hk, hv⟩ := h
      exact ⟨q, hk, value, hv, rfl, rfl⟩
  rw [restrict, get?_ofList]
  cases hl : lookup q (keys.filterMap fun key => (d.get? key).map (key, ·)).reverse with
  | some value =>
    obtain ⟨hk, hv⟩ := (hmem value).mp (List.mem_reverse.mp (mem_of_lookup hl))
    rw [if_pos hk, hv]
  | none =>
    rw [lookup_eq_none_iff, List.map_reverse, List.mem_reverse] at hl
    split
    · next hk =>
      cases hv : d.get? q with
      | none => rfl
      | some value => exact absurd (List.mem_map.mpr ⟨_, (hmem value).mpr ⟨hk, hv⟩, rfl⟩) hl
    · rfl

theorem restrict_congr {as bs : List String} (h : ∀ key, key ∈ as ↔ key ∈ bs) (d : Dict α) :
    d.restrict as = d.restrict bs := by
  refine ext_sorted (sorted_ofList _) (sorted_ofList _) fun q => ?_
  rw [get?_restrict, get?_restrict]
  simp only [h]

/-- A restriction to known entries. -/
theorem restrict_eq_ofList {d : Dict α} {entries : List (String × α)}
    (h : ∀ e ∈ entries, d.get? e.1 = some e.2) : d.restrict (entries.map Prod.fst) = ofList entries := by
  rw [restrict, List.filterMap_map]
  congr 1
  induction entries with
  | nil => rfl
  | cons e entries ih =>
    rw [List.filterMap_cons, ih fun e he => h e (List.mem_cons_of_mem _ he)]
    simp [h e List.mem_cons_self]

theorem union_ofList (as bs : List (String × α)) : (ofList as).union (ofList bs) = ofList (as ++ bs) := by
  have ha : ofList (ofList as).entries = ofList as := insertAll_ofList sorted_empty as
  rw [union, ofList_append, ha, insertAll_ofList (sorted_ofList as), ← ofList_append]

end Dict

namespace Value

/-- The value of a sequence of captures: unit when there are none. -/
def ofFields (fields : List (String × Value)) : Value :=
  if fields = [] then .unit else .record (.ofList fields)

/-- The fields of some keys; unit for no keys. -/
def restrict (keys : List String) (v : Value) : Value :=
  if keys = [] then .unit else .record ((v.record?.getD .empty).restrict keys)

def fieldAt (v : Value) (key : String) : Value := (v.get? key).getD .unit

/-- Every field is found under its key. -/
def Holds (v : Value) (fields : List (String × Value)) : Prop :=
  ∀ e ∈ fields, Route.fieldOf v e.1 = .ok e.2

theorem ofFields_nil : ofFields [] = .unit := rfl

theorem merge_ofFields (as bs : List (String × Value)) :
    (ofFields as).merge (ofFields bs) = ofFields (as ++ bs) := by
  by_cases ha : as = []
  · rw [ha, ofFields_nil, merge_unit_left, List.nil_append]
  by_cases hb : bs = []
  · rw [hb, ofFields_nil, merge_unit_right, List.append_nil]
  have hab : as ++ bs ≠ [] := List.append_ne_nil_of_left_ne_nil ha bs
  rw [ofFields, ofFields, ofFields, if_neg ha, if_neg hb, if_neg hab, merge, Dict.union_ofList]

theorem ofFields_cons (key : String) (a : Value) (fields : List (String × Value)) :
    ofFields ((key, a) :: fields) = (field key a).merge (ofFields fields) :=
  (merge_ofFields [(key, a)] fields).symm

/-! ## Looking fields up -/

theorem fieldOf_eq_ok_iff {v a : Value} {key : String} :
    Route.fieldOf v key = .ok a ↔ ∃ fields, v = .record fields ∧ fields.get? key = some a := by
  unfold Route.fieldOf
  split
  · next fields =>
    cases h : fields.get? key with
    | none => simp [h]
    | some b => simp [h]
  · next hno =>
    constructor
    · intro h
      cases h
    · intro hx
      obtain ⟨fields, rfl, -⟩ := hx
      exact absurd rfl (hno fields)

theorem fieldAt_of_fieldOf {v a : Value} {key : String} (h : Route.fieldOf v key = .ok a) :
    v.fieldAt key = a := by
  obtain ⟨fields, rfl, hget⟩ := fieldOf_eq_ok_iff.mp h
  show (fields.get? key).getD .unit = a
  rw [hget]
  rfl

theorem holds_cons {v a : Value} {key : String} {fields : List (String × Value)} :
    v.Holds ((key, a) :: fields) ↔ Route.fieldOf v key = .ok a ∧ v.Holds fields :=
  List.forall_mem_cons

theorem holds_append {v : Value} {as bs : List (String × Value)} :
    v.Holds (as ++ bs) ↔ v.Holds as ∧ v.Holds bs :=
  List.forall_mem_append

theorem holds_ofFields {fields : List (String × Value)} (hn : (fields.map Prod.fst).Nodup) :
    (ofFields fields).Holds fields := by
  intro e he
  rw [ofFields, if_neg (List.ne_nil_of_mem he)]
  exact fieldOf_eq_ok_iff.mpr ⟨_, rfl, Dict.get?_ofList_of_mem hn he⟩

/-- A field that a value holds is found in it. -/
theorem Holds.get? {v : Value} {fields : List (String × Value)} (h : v.Holds fields) {e : String × Value}
    (he : e ∈ fields) : v.get? e.1 = some e.2 := by
  obtain ⟨record, rfl, hget⟩ := fieldOf_eq_ok_iff.mp (h e he)
  exact hget

/-- A value holds only one field for each key. -/
theorem Holds.unique {v : Value} {as bs : List (String × Value)} (ha : v.Holds as) (hb : v.Holds bs)
    (hk : as.map Prod.fst = bs.map Prod.fst) : as = bs := by
  induction as generalizing bs with
  | nil => exact (List.map_eq_nil_iff.mp hk.symm).symm
  | cons a as ih =>
    cases bs with
    | nil => cases hk
    | cons b bs =>
      obtain ⟨k, x⟩ := a
      obtain ⟨k', y⟩ := b
      rw [List.map_cons, List.map_cons, List.cons.injEq] at hk
      obtain ⟨rfl, hk⟩ := hk
      rw [holds_cons] at ha hb
      have hxy : x = y := Except.ok.inj (ha.1.symm.trans hb.1)
      rw [hxy, ih ha.2 hb.2 hk]

theorem restrict_congr {as bs : List String} (h : ∀ key, key ∈ as ↔ key ∈ bs) (v : Value) :
    v.restrict as = v.restrict bs := by
  have hnil : as = [] ↔ bs = [] := by
    rw [List.eq_nil_iff_forall_not_mem, List.eq_nil_iff_forall_not_mem]
    simp only [h]
  unfold restrict
  simp only [hnil, Dict.restrict_congr h]

theorem restrict_eq_ofFields {v : Value} {fields : List (String × Value)} (h : v.Holds fields) :
    v.restrict (fields.map Prod.fst) = ofFields fields := by
  unfold restrict ofFields
  cases fields with
  | nil => rfl
  | cons e fields =>
    obtain ⟨record, rfl, -⟩ := fieldOf_eq_ok_iff.mp (h e List.mem_cons_self)
    rw [if_neg (by simp), if_neg (List.cons_ne_nil e fields)]
    refine congrArg Value.record (Dict.restrict_eq_ofList fun f hf => ?_)
    obtain ⟨record', he, hget⟩ := fieldOf_eq_ok_iff.mp (h f hf)
    cases he
    exact hget

end Value
end UrlRoutes
