/-!
# Dictionaries

A dictionary from text to `α`, kept as a list of entries sorted by key, so
that equal contents are equal dictionaries. Keys are ordered by code point.
Every operation goes through `insert`, which keeps the order and lets the new
entry replace an old one of its key.

Results:
* `get?_insert`: a look-up sees the last entry written for its key.
* `get?_ofList_eq_getLast?`: in a dictionary made from a list the last entry wins.
* `sorted_ofList`: a dictionary made from a list is sorted.
* `ext_sorted`: sorted dictionaries with the same look-ups are equal.
* `get?_union`, `union_assoc`: the right side of a union wins, and unions regroup freely.
-/
namespace UrlRoutes

/-- Entries sorted by key, one for each key. -/
structure Dict (α : Type) where
  entries : List (String × α)
  deriving DecidableEq, Repr

namespace Dict
variable {α β : Type}

/-- Puts an entry in its place and drops an old one of the same key. -/
def insertEntry (key : String) (value : α) : List (String × α) → List (String × α)
  | [] => [(key, value)]
  | (k, v) :: rest =>
    if key < k then (key, value) :: (k, v) :: rest
    else if key = k then (key, value) :: rest
    else (k, v) :: insertEntry key value rest

def lookup (key : String) : List (String × α) → Option α
  | [] => none
  | (k, v) :: rest => if key = k then some v else lookup key rest

def empty : Dict α := ⟨[]⟩

def insert (d : Dict α) (key : String) (value : α) : Dict α := ⟨insertEntry key value d.entries⟩

def single (key : String) (value : α) : Dict α := ⟨[(key, value)]⟩

def get? (d : Dict α) (key : String) : Option α := lookup key d.entries

def size (d : Dict α) : Nat := d.entries.length

def isEmpty (d : Dict α) : Bool := d.entries.isEmpty

/-- In code point order. -/
def keys (d : Dict α) : List String := d.entries.map Prod.fst

def insertAll (d : Dict α) (entries : List (String × α)) : Dict α :=
  entries.foldl (fun d e => d.insert e.1 e.2) d

/-- The last entry of a repeated key wins. -/
def ofList (entries : List (String × α)) : Dict α := empty.insertAll entries

/-- All entries of both; those of the right side win. -/
def union (l r : Dict α) : Dict α := ofList (l.entries ++ r.entries)

/-- Every operation of this module yields a sorted dictionary. -/
def Sorted (d : Dict α) : Prop := d.keys.Pairwise (· < ·)

/-! ## Look-ups -/

@[simp] theorem get?_empty (key : String) : (empty : Dict α).get? key = none := rfl

theorem lookup_insertEntry (key : String) (value : α) (entries : List (String × α)) (q : String) :
    lookup q (insertEntry key value entries) = if q = key then some value else lookup q entries := by
  induction entries with
  | nil => rfl
  | cons e rest ih =>
    obtain ⟨k, v⟩ := e
    unfold insertEntry
    split
    · rfl
    · split
      · next h => subst h; simp only [lookup]; split <;> rfl
      · next h =>
        simp only [lookup, ih]
        by_cases hq : q = k
        · subst hq; rw [if_pos rfl, if_neg (Ne.symm h), if_pos rfl]
        · rw [if_neg hq, if_neg hq]

theorem get?_insert (d : Dict α) (key : String) (value : α) (q : String) :
    (d.insert key value).get? q = if q = key then some value else d.get? q :=
  lookup_insertEntry key value d.entries q

theorem lookup_eq_none_iff {key : String} {entries : List (String × α)} :
    lookup key entries = none ↔ key ∉ entries.map Prod.fst := by
  induction entries with
  | nil => simp [lookup]
  | cons e rest ih =>
    obtain ⟨k, v⟩ := e
    simp only [lookup, List.map_cons, List.mem_cons, not_or]
    split
    · next h => simp [h]
    · next h => simp [h, ih]

theorem get?_eq_none_iff {d : Dict α} {key : String} : d.get? key = none ↔ key ∉ d.keys :=
  lookup_eq_none_iff

theorem get?_insertAll (d : Dict α) (entries : List (String × α)) (q : String) :
    (d.insertAll entries).get? q = (lookup q entries.reverse).or (d.get? q) := by
  induction entries generalizing d with
  | nil => rfl
  | cons e rest ih =>
    have hl : ∀ (as bs : List (String × α)),
        lookup q (as ++ bs) = (lookup q as).or (lookup q bs) := by
      intro as bs
      induction as with
      | nil => rfl
      | cons a as ih => simp only [List.cons_append, lookup]; split <;> simp_all
    unfold insertAll at ih ⊢
    rw [List.foldl_cons, ih, get?_insert, List.reverse_cons, hl, Option.or_assoc]
    congr 1
    simp only [lookup]
    split <;> rfl

theorem get?_ofList (entries : List (String × α)) (q : String) :
    (ofList entries).get? q = lookup q entries.reverse := by
  rw [ofList, get?_insertAll, get?_empty, Option.or_none]

theorem lookup_eq_find? (key : String) (entries : List (String × α)) :
    lookup key entries = (entries.find? fun e => e.1 = key).map Prod.snd := by
  induction entries with
  | nil => rfl
  | cons e rest ih =>
    obtain ⟨k, v⟩ := e
    rw [lookup, List.find?_cons, ih]
    by_cases h : key = k
    · simp [h]
    · simp [h, Ne.symm h]

/-- The last entry of a key is the one that counts. -/
theorem get?_ofList_eq_getLast? (entries : List (String × α)) (key : String) :
    (ofList entries).get? key = (entries.filter fun e => e.1 = key).getLast?.map Prod.snd := by
  rw [get?_ofList, lookup_eq_find?, List.getLast?_filter]

/-! ## Order -/

theorem mem_keys_insertEntry {key : String} {value : α} {entries : List (String × α)} {k : String} :
    k ∈ (insertEntry key value entries).map Prod.fst ↔ k = key ∨ k ∈ entries.map Prod.fst := by
  have h := lookup_insertEntry key value entries k
  have h1 : lookup k (insertEntry key value entries) = none ↔ _ := lookup_eq_none_iff
  have h2 : lookup k entries = none ↔ _ := lookup_eq_none_iff
  by_cases hk : k = key
  · rw [if_pos hk] at h
    simp only [h, reduceCtorEq, false_iff, Classical.not_not] at h1
    exact ⟨fun _ => .inl hk, fun _ => h1⟩
  · rw [if_neg hk] at h
    rw [h, h2] at h1
    have := not_congr h1
    simp only [Classical.not_not] at this
    simp only [hk, false_or, this]

theorem sorted_empty : (empty : Dict α).Sorted := List.Pairwise.nil

theorem sorted_insert {d : Dict α} (h : d.Sorted) (key : String) (value : α) :
    (d.insert key value).Sorted := by
  obtain ⟨entries⟩ := d
  simp only [Sorted, keys, insert] at h ⊢
  induction entries with
  | nil => simp [insertEntry]
  | cons e rest ih =>
    obtain ⟨k, v⟩ := e
    rw [List.map_cons, List.pairwise_cons] at h
    unfold insertEntry
    split
    · next hlt =>
      rw [List.map_cons, List.map_cons, List.pairwise_cons]
      refine ⟨?_, List.pairwise_cons.mpr h⟩
      intro x hx
      rcases List.mem_cons.mp hx with rfl | hx
      · exact hlt
      · exact String.lt_trans hlt (h.1 x hx)
    · next hnlt =>
      split
      · next he => subst he; exact List.pairwise_cons.mpr h
      · next hne =>
        rw [List.map_cons, List.pairwise_cons]
        refine ⟨?_, ih h.2⟩
        intro x hx
        rcases mem_keys_insertEntry.mp hx with rfl | hx
        · rcases String.le_total k x with hle | hle
          · exact Classical.byContradiction fun hk => hne (String.le_antisymm hk hle)
          · exact absurd (String.le_antisymm hle (String.not_lt.mp hnlt)) hne
        · exact h.1 x hx

theorem sorted_insertAll {d : Dict α} (h : d.Sorted) (entries : List (String × α)) :
    (d.insertAll entries).Sorted := by
  induction entries generalizing d with
  | nil => exact h
  | cons e rest ih => exact ih (sorted_insert h e.1 e.2)

theorem sorted_ofList (entries : List (String × α)) : (ofList entries).Sorted :=
  sorted_insertAll sorted_empty entries

/-- Below the head's key a sorted list has no entry. -/
theorem lookup_below {k q : String} {v : α} {rest : List (String × α)}
    (h : (((k, v) :: rest).map Prod.fst).Pairwise (· < ·)) (hq : q < k) :
    lookup q ((k, v) :: rest) = none := by
  rw [lookup_eq_none_iff, List.map_cons, List.mem_cons, not_or]
  rw [List.map_cons, List.pairwise_cons] at h
  refine ⟨fun e => ?_, fun hm => ?_⟩
  · have e' : q = k := e
    exact String.lt_irrefl k (e' ▸ hq)
  · exact String.lt_irrefl k (String.lt_trans (h.1 q hm) hq)

theorem ext_sorted {l r : Dict α} (hl : l.Sorted) (hr : r.Sorted)
    (h : ∀ k, l.get? k = r.get? k) : l = r := by
  obtain ⟨as⟩ := l
  obtain ⟨bs⟩ := r
  simp only [Sorted, keys, get?] at hl hr h
  congr 1
  induction as generalizing bs with
  | nil =>
    cases bs with
    | nil => rfl
    | cons b bs => have := h b.1; simp [lookup] at this
  | cons a as ih =>
    cases bs with
    | nil => have := h a.1; simp [lookup] at this
    | cons b bs =>
      obtain ⟨k, v⟩ := a
      obtain ⟨k', v'⟩ := b
      have hk : k = k' := by
        rcases Classical.em (k < k') with hlt | hlt
        · have := h k; rw [lookup_below hr hlt] at this; simp [lookup] at this
        · rcases Classical.em (k' < k) with hlt' | hlt'
          · have := h k'; rw [lookup_below hl hlt'] at this; simp [lookup] at this
          · exact String.le_antisymm hlt' hlt
      subst hk
      have hv := h k
      simp only [lookup, if_true, Option.some.injEq] at hv
      subst hv
      rw [List.map_cons, List.pairwise_cons] at hl hr
      rw [ih hl.2 bs hr.2 fun q => ?_]
      by_cases hq : q = k
      · subst hq
        have n1 : lookup q as = none :=
          lookup_eq_none_iff.mpr fun hm => String.lt_irrefl q (hl.1 q hm)
        have n2 : lookup q bs = none :=
          lookup_eq_none_iff.mpr fun hm => String.lt_irrefl q (hr.1 q hm)
        rw [n1, n2]
      · have := h q; simpa only [lookup, if_neg hq] using this

/-! ## Union -/

/-- In a sorted list each key has one entry, so the last one is the first one. -/
theorem lookup_reverse {entries : List (String × α)}
    (h : (entries.map Prod.fst).Pairwise (· < ·)) (q : String) :
    lookup q entries.reverse = lookup q entries := by
  have hs : (ofList entries).get? q = lookup q entries.reverse := get?_ofList entries q
  rw [← hs]
  suffices hd : ∀ (d : Dict α), (∀ k ∈ d.keys, k ∉ entries.map Prod.fst) →
      (d.insertAll entries).get? q = (lookup q entries).or (d.get? q) by
    rw [ofList, hd empty (by simp [empty, keys]), get?_empty, Option.or_none]
  intro d
  induction entries generalizing d with
  | nil => intro _; rfl
  | cons e rest ih =>
    obtain ⟨k, v⟩ := e
    intro hk
    rw [List.map_cons, List.pairwise_cons] at h
    rw [insertAll, List.foldl_cons, ← insertAll, ih h.2 (get?_ofList rest q)]
    · rw [get?_insert]
      simp only [lookup]
      by_cases hq : q = k
      · subst hq
        have n : lookup q rest = none :=
          lookup_eq_none_iff.mpr fun hm => String.lt_irrefl q (h.1 q hm)
        simp [n]
      · simp [hq]
    · intro x hx hm
      rcases mem_keys_insertEntry.mp hx with rfl | hx
      · exact String.lt_irrefl _ (h.1 _ hm)
      · exact hk x hx (by rw [List.map_cons]; exact List.mem_cons_of_mem _ hm)

theorem get?_union (l r : Dict α) (hl : l.Sorted) (hr : r.Sorted) (q : String) :
    (l.union r).get? q = (r.get? q).or (l.get? q) := by
  rw [union, ofList, insertAll, List.foldl_append, ← insertAll, ← insertAll, get?_insertAll,
    lookup_reverse hr, get?_insertAll, lookup_reverse hl, get?_empty, Option.or_none]
  rfl

theorem ofList_entries {d : Dict α} (h : d.Sorted) : ofList d.entries = d :=
  ext_sorted (sorted_ofList _) h fun q => (get?_ofList _ q).trans (lookup_reverse h q)

/-- Inserting the normal form of a list is inserting the list. -/
theorem insertAll_ofList {d : Dict α} (h : d.Sorted) (entries : List (String × α)) :
    d.insertAll (ofList entries).entries = d.insertAll entries := by
  refine ext_sorted (sorted_insertAll h _) (sorted_insertAll h _) fun q => ?_
  rw [get?_insertAll, get?_insertAll, lookup_reverse (sorted_ofList entries)]
  have := get?_ofList entries q
  rw [get?] at this
  rw [this]

theorem ofList_append (as bs : List (String × α)) : ofList (as ++ bs) = (ofList as).insertAll bs := by
  simp only [ofList, insertAll, List.foldl_append]

theorem union_assoc (a b c : Dict α) : (a.union b).union c = a.union (b.union c) := by
  have hl : (a.union b).union c = (ofList (a.entries ++ b.entries)).insertAll c.entries := by
    rw [union, ofList_append, union, ofList, insertAll_ofList sorted_empty]; rfl
  have hr : a.union (b.union c) = (ofList a.entries).insertAll (b.entries ++ c.entries) := by
    rw [union, ofList_append, union, insertAll_ofList (sorted_ofList _)]
  rw [hl, hr, ofList_append]
  simp only [insertAll, List.foldl_append]

end Dict
end UrlRoutes
