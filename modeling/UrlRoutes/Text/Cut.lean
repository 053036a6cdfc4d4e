/-!
# Cutting text

Text is scanned as a list of characters while places in it are counted in
UTF-8 bytes. `dropBytes?` and `takeBytes?` cut at a byte offset and refuse
one that is not a character boundary. `cutWhere` cuts at the first place
where a test holds of what is left; every search of the library is one of
its instances, `cutAt` for a literal.

Results:
* `byteLength_append`, `dropBytes?_eq_some_iff`: an offset is a boundary
  exactly when it is the length of some leading part.
* `cutWhere_first`: nothing is lost, and the test holds at the cut and not
  before.
-/
namespace UrlRoutes.Text

/-- Length in UTF-8 bytes. -/
def byteLength : List Char → Nat
  | [] => 0
  | c :: cs => c.utf8Size + byteLength cs

/-- What follows the first `n` bytes; `none` past the end or inside a character. -/
def dropBytes? : Nat → List Char → Option (List Char)
  | 0, cs => some cs
  | _ + 1, [] => none
  | n + 1, c :: cs => if c.utf8Size ≤ n + 1 then dropBytes? (n + 1 - c.utf8Size) cs else none

/-- The first `n` bytes; `none` past the end or inside a character. -/
def takeBytes? : Nat → List Char → Option (List Char)
  | 0, _ => some []
  | _ + 1, [] => none
  | n + 1, c :: cs =>
    if c.utf8Size ≤ n + 1 then (takeBytes? (n + 1 - c.utf8Size) cs).map (c :: ·) else none

/-- The bytes from `start` up to `stop`; `none` when either is no boundary. -/
def slice? (start stop : Nat) (cs : List Char) : Option (List Char) :=
  (dropBytes? start cs).bind (takeBytes? (stop - start))

/-- The characters that start at or after byte `n`. -/
def charsFrom : Nat → List Char → List Char
  | 0, cs => cs
  | _ + 1, [] => []
  | n + 1, c :: cs => charsFrom (n + 1 - c.utf8Size) cs

/-- Cuts at the first place where `stop` holds of what is left. -/
def cutWhere (stop : List Char → Bool) : List Char → Option (List Char × List Char)
  | [] => if stop [] then some ([], []) else none
  | c :: cs =>
    if stop (c :: cs) then some ([], c :: cs)
    else (cutWhere stop cs).map fun (before, after) => (c :: before, after)

/-- Cuts in front of the first occurrence of `literal`. -/
def cutAt (literal : List Char) : List Char → Option (List Char × List Char) :=
  cutWhere literal.isPrefixOf

def hasLiteral (literal cs : List Char) : Bool := (cutAt literal cs).isSome

/-! ## Lengths and boundaries -/

@[simp] theorem byteLength_nil : byteLength [] = 0 := rfl

@[simp] theorem byteLength_cons (c : Char) (cs : List Char) :
    byteLength (c :: cs) = c.utf8Size + byteLength cs := rfl

@[simp] theorem byteLength_append (as bs : List Char) :
    byteLength (as ++ bs) = byteLength as + byteLength bs := by
  induction as with
  | nil => simp
  | cons c cs ih => simp [ih, Nat.add_assoc]

theorem byteLength_eq_zero_iff {cs : List Char} : byteLength cs = 0 ↔ cs = [] := by
  cases cs with
  | nil => simp
  | cons c cs => have := c.utf8Size_pos; simp; omega

theorem length_le_byteLength (cs : List Char) : cs.length ≤ byteLength cs := by
  induction cs with
  | nil => simp
  | cons c cs ih => have := c.utf8Size_pos; simp; omega

theorem dropBytes?_byteLength_append (as bs : List Char) :
    dropBytes? (byteLength as) (as ++ bs) = some bs := by
  induction as with
  | nil => simp [dropBytes?]
  | cons c cs ih =>
    obtain ⟨n, hn⟩ : ∃ n, byteLength (c :: cs) = n + 1 :=
      ⟨_, (Nat.succ_pred (by have := c.utf8Size_pos; simp; omega)).symm⟩
    have hl : n + 1 = c.utf8Size + byteLength cs := by rw [← hn, byteLength_cons]
    rw [hn, List.cons_append, dropBytes?, if_pos (by omega), show n + 1 - c.utf8Size = byteLength cs by omega]
    exact ih

theorem dropBytes?_eq_some_iff {n : Nat} {cs after : List Char} :
    dropBytes? n cs = some after ↔ ∃ before, cs = before ++ after ∧ byteLength before = n := by
  constructor
  · intro h
    fun_induction dropBytes? n cs with
    | case1 cs => exact ⟨[], by simpa using h, rfl⟩
    | case2 => cases h
    | case3 n c cs hle ih =>
      obtain ⟨before, rfl, hb⟩ := ih h
      exact ⟨c :: before, rfl, by simp; omega⟩
    | case4 => cases h
  · rintro ⟨before, rfl, rfl⟩
    exact dropBytes?_byteLength_append before after

/-! ## Cuts -/

/-- A cut loses nothing, the test holds of what is behind it, and of nothing longer. -/
theorem cutWhere_first {stop : List Char → Bool} {cs before after : List Char}
    (h : cutWhere stop cs = some (before, after)) :
    cs = before ++ after ∧ stop after = true ∧
      ∀ x y, before = x ++ y → y ≠ [] → stop (y ++ after) = false := by
  induction cs generalizing before with
  | nil =>
    rw [cutWhere] at h
    split at h
    · next hstop =>
      cases h
      exact ⟨rfl, hstop, by simp⟩
    · cases h
  | cons c cs ih =>
    rw [cutWhere] at h
    split at h
    · next hstop =>
      cases h
      exact ⟨rfl, hstop, by simp⟩
    · next hstop =>
      simp only [Option.map_eq_some_iff, Prod.exists, Prod.mk.injEq] at h
      obtain ⟨before, after, hcut, rfl, rfl⟩ := h
      obtain ⟨rfl, hafter, hfirst⟩ := ih hcut
      refine ⟨rfl, hafter, fun x y hxy hy => ?_⟩
      cases x with
      | nil =>
        rw [List.nil_append] at hxy
        rw [← hxy]
        simpa using hstop
      | cons d x => exact hfirst x y (List.cons.inj hxy).2 hy

theorem cutWhere_append {stop : List Char → Bool} {cs before after : List Char}
    (h : cutWhere stop cs = some (before, after)) : cs = before ++ after :=
  (cutWhere_first h).1

theorem cutWhere_stops {stop : List Char → Bool} {cs before after : List Char}
    (h : cutWhere stop cs = some (before, after)) : stop after = true :=
  (cutWhere_first h).2.1

theorem cutWhere_here {stop : List Char → Bool} {cs : List Char} (h : stop cs = true) :
    cutWhere stop cs = some ([], cs) := by
  cases cs <;> rw [cutWhere, if_pos h]

end UrlRoutes.Text
