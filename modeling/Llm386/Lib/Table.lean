import Mathlib

/-! # Tables with unique keys

A table of a relational database: rows of which no two agree on a unique key. What an insert, an insert that gives way to
a conflict, a delete and a look-up by a key do to the rows. -/

/-- Rows of which no two agree on one of `keys`. -/
structure Table (ρ κ : Type) (keys : List (ρ → κ)) where
  rows : List ρ
  unique : ∀ key ∈ keys, (rows.map key).Nodup

namespace Table
variable {ρ κ : Type} {keys : List (ρ → κ)}

def empty : Table ρ κ keys := ⟨[], by simp⟩

variable (t : Table ρ κ keys)

/-- A row stands in the way of `r`. -/
def Conflicts (r : ρ) : Prop := ∃ key ∈ keys, ∃ x ∈ t.rows, key x = key r

/-- A row more. -/
def add (r : ρ) (free : ¬t.Conflicts r) : Table ρ κ keys where
  rows := t.rows ++ [r]
  unique key hkey := by
    rw [List.map_append, List.map_singleton, List.nodup_append]
    refine ⟨t.unique key hkey, List.nodup_singleton _, fun a ha b hb heq => free ?_⟩
    obtain ⟨x, hx, rfl⟩ := List.mem_map.mp ha
    exact ⟨key, hkey, x, hx, heq.trans (List.mem_singleton.mp hb)⟩

/-- `DELETE … WHERE`, with the number of rows that go. -/
def deleteWhere (p : ρ → Bool) : Nat × Table ρ κ keys :=
  (t.rows.countP p, ⟨t.rows.filter (!p ·), fun key hkey => (t.unique key hkey).sublist (List.filter_sublist.map key)⟩)

variable {t} {r x : ρ} {key : ρ → κ} {k : κ} {p : ρ → Bool}

/-- A unique key tells rows apart. -/
theorem row_ext (hkey : key ∈ keys) (hr : r ∈ t.rows) (hx : x ∈ t.rows) (heq : key r = key x) : r = x :=
  List.inj_on_of_nodup_map (t.unique key hkey) hr hx heq

theorem rows_nodup (hkey : key ∈ keys) : t.rows.Nodup := .of_map key (t.unique key hkey)

@[simp] theorem mem_add (free : ¬t.Conflicts r) : x ∈ (t.add r free).rows ↔ x ∈ t.rows ∨ x = r := by
  simp [add]

@[simp] theorem mem_deleteWhere : x ∈ (t.deleteWhere p).2.rows ↔ x ∈ t.rows ∧ p x = false := by
  simp [deleteWhere]

theorem deleteWhere_pos : 0 < (t.deleteWhere p).1 ↔ ∃ x ∈ t.rows, p x = true := List.countP_pos_iff

/-! ### Statements that look a key up -/

variable [DecidableEq κ] (t)

instance (r : ρ) : Decidable (t.Conflicts r) := inferInstanceAs (Decidable (∃ key ∈ keys, ∃ x ∈ t.rows, key x = key r))

/-- The row with a key. -/
def find? (key : ρ → κ) (k : κ) : Option ρ := t.rows.find? (key · = k)

/-- `INSERT`, which fails on a conflict. -/
def insert? (r : ρ) : Option (Table ρ κ keys) := if free : ¬t.Conflicts r then some (t.add r free) else none

/-- `INSERT … ON CONFLICT DO NOTHING`. -/
def insertNew (r : ρ) : Table ρ κ keys := if free : ¬t.Conflicts r then t.add r free else t

variable {t}

theorem find?_eq_some_iff (hkey : key ∈ keys) : t.find? key k = some r ↔ r ∈ t.rows ∧ key r = k := by
  constructor
  · exact fun h => ⟨List.mem_of_find?_eq_some h, by simpa using List.find?_some h⟩
  · rintro ⟨hr, rfl⟩
    obtain ⟨x, hx⟩ : ∃ x, t.find? key (key r) = some x :=
      Option.isSome_iff_exists.mp (List.find?_isSome.mpr ⟨r, hr, by simp⟩)
    rw [hx, row_ext hkey (List.mem_of_find?_eq_some hx) hr (by simpa using List.find?_some hx)]

theorem find?_eq_none_iff : t.find? key k = none ↔ ∀ r ∈ t.rows, key r ≠ k := by
  simp [find?]

theorem insert?_eq_some (free : ¬t.Conflicts r) : t.insert? r = some (t.add r free) := dif_pos free

theorem insert?_eq_none (h : t.Conflicts r) : t.insert? r = none := dif_neg (not_not.mpr h)

/-- Where a key is the whole row, an insert that gives way leaves the row in the table. -/
theorem mem_insertNew (hkeys : keys = [key]) (hinj : Function.Injective key) : x ∈ (t.insertNew r).rows ↔ x ∈ t.rows ∨ x = r := by
  subst hkeys
  rw [insertNew]
  split
  · exact mem_add _
  · rename_i hconflict
    obtain ⟨key', hkey', y, hy, heq⟩ := not_not.mp hconflict
    rw [List.mem_singleton.mp hkey'] at heq
    exact ⟨Or.inl, fun h => h.elim id fun h => h ▸ hinj heq ▸ hy⟩

end Table
