import Llm386.Lib.Sorting

/-! # JSON values and what a column of them gives back

JSON values as a reader sees them, and the values that a database column gives back for one: the same, but for the order
of the fields of objects. Such a column holds no string with a NUL. -/

inductive Json
  | null
  | bool (b : Bool)
  | number (n : UInt64)
  | negative (n : Int)
  | float (x : Float)
  | string (s : String)
  | array (items : List Json)
  | object (fields : List (String × Json))

namespace Json

/-- The field of an object. -/
def get (v : Json) (key : String) : Option Json :=
  match v with
  | .object fields => fields.lookup key
  | _ => none

def asStr : Json → Option String
  | .string s => some s
  | _ => none

def asArray : Json → Option (List Json)
  | .array items => some items
  | _ => none

def asObject : Json → Option (List (String × Json))
  | .object fields => some fields
  | _ => none

def asU64 : Json → Option UInt64
  | .number n => some n
  | _ => none

/-- A string that the column holds. -/
def Plain (s : String) : Prop := '\x00' ∉ s.toList

/-- The column gives back the second value for the first. -/
inductive ReadBack : Json → Json → Prop
  | null : ReadBack .null .null
  | bool (b : Bool) : ReadBack (.bool b) (.bool b)
  | number (n : UInt64) : ReadBack (.number n) (.number n)
  | negative (n : Int) : ReadBack (.negative n) (.negative n)
  | string {s : String} (h : Plain s) : ReadBack (.string s) (.string s)
  | array {items items' : List Json} (h : List.Forall₂ ReadBack items items') : ReadBack (.array items) (.array items')
  | object {fields mid fields' : List (String × Json)} (hkeys : (fields.map (·.1)).Nodup)
      (hplain : ∀ f ∈ fields, Plain f.1) (hnames : mid.map (·.1) = fields.map (·.1))
      (hvalues : List.Forall₂ ReadBack (fields.map (·.2)) (mid.map (·.2))) (hperm : mid.Perm fields') :
      ReadBack (.object fields) (.object fields')

variable {v v' : Json} {fields : List (String × Json)} {items : List Json} {s : String}

/-- A value that is given back as it is. -/
def Fixed (v : Json) : Prop := ∀ v', ReadBack v v' → v' = v

theorem fixed_null : Fixed .null := by
  rintro v' ⟨⟩
  rfl

theorem fixed_number (n : UInt64) : Fixed (.number n) := by
  rintro v' ⟨⟩
  rfl

theorem fixed_string (s : String) : Fixed (.string s) := by
  rintro v' ⟨⟩
  rfl

theorem forall₂_fixed {items' : List Json} (hfixed : ∀ v ∈ items, Fixed v) (h : List.Forall₂ ReadBack items items') :
    items' = items := by
  induction h with
  | nil => rfl
  | cons hv hrest ih =>
    rw [hfixed _ List.mem_cons_self _ hv, ih fun v hv => hfixed v (List.mem_cons_of_mem _ hv)]

theorem fixed_array (hfixed : ∀ v ∈ items, Fixed v) : Fixed (.array items) := by
  intro v' hv
  cases hv with
  | array h => rw [forall₂_fixed hfixed h]

/-- Of an object of such values the order of the fields may change. -/
theorem readBack_object (hfixed : ∀ f ∈ fields, Fixed f.2) (h : ReadBack (.object fields) v) :
    (fields.map (·.1)).Nodup ∧ ∃ fields', v = .object fields' ∧ fields.Perm fields' := by
  cases h with
  | object hkeys hplain hnames hvalues hperm =>
    have hvals := forall₂_fixed (by simpa using fun v key hf => hfixed (key, v) hf) hvalues
    have hsame : ∀ {l l' : List (String × Json)}, l.map (·.1) = l'.map (·.1) → l.map (·.2) = l'.map (·.2) → l = l' := by
      intro l l' h1 h2
      rw [← List.zip_unzip l, ← List.zip_unzip l', List.unzip_eq_map, List.unzip_eq_map]
      exact congrArg₂ List.zip h1 h2
    rw [hsame hnames hvals] at hperm
    exact ⟨hkeys, _, rfl, hperm⟩

theorem get_of_readBack (hfixed : ∀ f ∈ fields, Fixed f.2) (h : ReadBack (.object fields) v) (key : String) :
    v.get key = (Json.object fields).get key := by
  obtain ⟨hkeys, fields', rfl, hperm⟩ := readBack_object hfixed h
  refine (Sorting.lookup_eq_of_perm hperm fun f hf f' hf' hkey => ?_) key |>.symm
  rw [List.inj_on_of_nodup_map hkeys hf hf' hkey]

end Json
