import Mathlib

/-! # Caches that evict the least recently used

`Lru` is what a user of such a cache may rely on: it holds nothing but what was written, and a read returns what it
holds. The list cache is one: a bounded list of entries, the most recent first, under keys of which each has one entry.
Reading moves an entry to the front; writing a new one drops the last where there is no room. -/

/-- An implementation of bounded caches, with the laws of its entries. -/
structure Lru (κ ν : Type) where
  Cache : Type
  new : (cap : Nat) → 0 < cap → Cache
  clear : Cache → Cache
  get : Cache → κ → Option ν × Cache
  put : Cache → κ → ν → Cache
  /-- The cache holds the entry. -/
  Holds : Cache → κ × ν → Prop
  holds_new : ∀ {cap h e}, ¬Holds (new cap h) e
  holds_clear : ∀ {c e}, ¬Holds (clear c) e
  holds_of_get : ∀ {c k v}, (get c k).1 = some v → Holds c (k, v)
  holds_get : ∀ {c k e}, Holds (get c k).2 e ↔ Holds c e
  holds_put : ∀ {c k v e}, Holds (put c k v) e → e = (k, v) ∨ Holds c e

/-! ### The list cache -/

structure LruCache (κ ν : Type) where
  cap : Nat
  entries : List (κ × ν)
  cap_pos : 0 < cap
  bounded : entries.length ≤ cap
  nodup : (entries.map (·.1)).Nodup

namespace LruCache
variable {κ ν : Type} [DecidableEq κ]

def new (cap : Nat) (cap_pos : 0 < cap) : LruCache κ ν := ⟨cap, [], cap_pos, Nat.zero_le _, List.nodup_nil⟩

def clear (c : LruCache κ ν) : LruCache κ ν := ⟨c.cap, [], c.cap_pos, Nat.zero_le _, List.nodup_nil⟩

theorem promote_perm (c : LruCache κ ν) (k : κ) :
    (c.entries.filter (·.1 = k) ++ c.entries.filter (¬·.1 = k)).Perm c.entries := by
  have hperm := List.filter_append_perm (fun e : κ × ν => decide (e.1 = k)) c.entries
  simpa using hperm

/-- The entry of `k`, if there is one, in front of the others. -/
def promote (c : LruCache κ ν) (k : κ) : LruCache κ ν where
  cap := c.cap
  entries := c.entries.filter (·.1 = k) ++ c.entries.filter (¬·.1 = k)
  cap_pos := c.cap_pos
  bounded := (c.promote_perm k).length_eq.trans_le c.bounded
  nodup := ((c.promote_perm k).map _).nodup_iff.mpr c.nodup

/-- The value of `k`, which is then the most recent. -/
def get (c : LruCache κ ν) (k : κ) : Option ν × LruCache κ ν :=
  ((c.entries.find? (·.1 = k)).map (·.2), c.promote k)

/-- Writes `v` under `k` at the front. The last entry is dropped where `k` is new and the cache is full. -/
def put (c : LruCache κ ν) (k : κ) (v : ν) : LruCache κ ν where
  cap := c.cap
  entries := (k, v) :: (c.entries.filter (¬·.1 = k)).take (c.cap - 1)
  cap_pos := c.cap_pos
  bounded := by
    have hcap := c.cap_pos
    rw [List.length_cons, List.length_take]
    omega
  nodup := by
    rw [List.map_cons, List.nodup_cons]
    constructor
    · intro hk
      obtain ⟨e, he, rfl⟩ := List.mem_map.mp hk
      simpa using (List.mem_filter.mp (List.mem_of_mem_take he)).2
    · exact c.nodup.sublist (((List.take_sublist _ _).trans List.filter_sublist).map _)

variable {c : LruCache κ ν} {k : κ} {v : ν} {e : κ × ν}

theorem mem_of_get (h : (c.get k).1 = some v) : (k, v) ∈ c.entries := by
  obtain ⟨e, hfind, rfl⟩ := Option.map_eq_some_iff.mp h
  obtain rfl : e.1 = k := by simpa using List.find?_some hfind
  exact List.mem_of_find?_eq_some hfind

theorem mem_get : e ∈ (c.get k).2.entries ↔ e ∈ c.entries := (c.promote_perm k).mem_iff

theorem mem_put (h : e ∈ (c.put k v).entries) : e = (k, v) ∨ e ∈ c.entries := by
  rcases List.mem_cons.mp h with rfl | h
  · exact .inl rfl
  · exact .inr (List.mem_of_mem_filter (List.mem_of_mem_take h))

end LruCache

/-- The list cache, as an implementation. -/
def Lru.list {κ ν : Type} [DecidableEq κ] : Lru κ ν where
  Cache := LruCache κ ν
  new := LruCache.new
  clear := LruCache.clear
  get := LruCache.get
  put := LruCache.put
  Holds c e := e ∈ c.entries
  holds_new := List.not_mem_nil
  holds_clear := List.not_mem_nil
  holds_of_get := LruCache.mem_of_get
  holds_get := LruCache.mem_get
  holds_put := LruCache.mem_put
