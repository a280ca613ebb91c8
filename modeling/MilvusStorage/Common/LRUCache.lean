import MilvusStorage.Foundations.Keyed

/-!
# A cache that evicts the least recently used entry

`LRUCache` keeps a list of keys in the order of their last use and a map from the keys to the
values. Here the two are one list of entries, the most recently used one first.

* `mem_of_get`: what is found has been put in.
-/

namespace MilvusStorage

open List

/-- No key has two entries, and there are no more entries than the capacity. -/
structure LRUCache (κ ν : Type*) where
  entries : List (κ × ν)
  capacity : ℕ
  nodup : (entries.map Prod.fst).Nodup
  length_le : entries.length ≤ capacity

namespace LRUCache

variable {κ ν : Type*} [DecidableEq κ]

/-- `LRUCache(capacity)`. -/
def ofCapacity (capacity : ℕ) : LRUCache κ ν where
  entries := []
  capacity
  nodup := nodup_nil
  length_le := Nat.zero_le _

variable (c : LRUCache κ ν)

/-- Put an entry in front, in the place of the one with its key. -/
def toFront (entries : List (κ × ν)) (e : κ × ν) : List (κ × ν) :=
  e :: Keyed.erase Prod.fst e.1 entries

variable {entries : List (κ × ν)}

theorem nodup_toFront (h : (entries.map Prod.fst).Nodup) (e : κ × ν) :
    ((toFront entries e).map Prod.fst).Nodup := by
  rw [toFront, map_cons, nodup_cons]
  refine ⟨?_, h.sublist ((Keyed.erase_sublist Prod.fst e.1 entries).map _)⟩
  simp

variable {e : κ × ν} {key : κ}

theorem length_toFront (he : e.1 ∈ entries.map Prod.fst) :
    (toFront entries e).length ≤ entries.length := by
  obtain ⟨e', he', heq⟩ := mem_map.mp he
  refine length_filter_lt_length_iff_exists.mpr ⟨e', he', ?_⟩
  simp [heq]

/-- The entries after `get` and `put` of a key that is there. -/
def touch (e : κ × ν) (he : e.1 ∈ c.entries.map Prod.fst) : LRUCache κ ν where
  entries := toFront c.entries e
  capacity := c.capacity
  nodup := nodup_toFront c.nodup e
  length_le := Nat.le_trans (length_toFront he) c.length_le

/-- Evict the last entries until no more than the capacity are left. -/
def evict (entries : List (κ × ν)) (h : (entries.map Prod.fst).Nodup) (capacity : ℕ) :
    LRUCache κ ν where
  entries := entries.take capacity
  capacity
  nodup := h.sublist ((take_sublist _ _).map _)
  length_le := length_take_le _ _

/-- `get`: a key that is found moves to the front. -/
def get (key : κ) : Option ν × LRUCache κ ν :=
  match h : c.entries.find? (·.1 = key) with
  | some e => (some e.2, c.touch e (mem_map_of_mem (mem_of_find?_eq_some h)))
  | none => (none, c)

def put (key : κ) (value : ν) : LRUCache κ ν :=
  if h : key ∈ c.entries.map Prod.fst then c.touch (key, value) h
  else evict ((key, value) :: c.entries) (by simpa using ⟨by simpa using h, c.nodup⟩) c.capacity

variable {c}

theorem mem_of_get {value : ν} {c' : LRUCache κ ν} (h : c.get key = (some value, c')) :
    (key, value) ∈ c.entries := by
  rw [get] at h
  split at h
  case _ e he =>
    obtain rfl := Option.some.inj (Prod.mk.inj h).1
    have hkey : e.1 = key := by simpa using find?_some he
    rw [← hkey]
    exact mem_of_find?_eq_some he
  case _ => simp at h

theorem mem_touch {e' : κ × ν} {he : e.1 ∈ c.entries.map Prod.fst}
    (h : e' ∈ (c.touch e he).entries) : e' = e ∨ e' ∈ c.entries :=
  (mem_cons.mp h).imp_right fun h => ((Keyed.mem_erase _).mp h).1

theorem mem_get (h : e ∈ (c.get key).2.entries) : e ∈ c.entries := by
  rw [get] at h
  split at h
  case _ e' he' =>
    rcases mem_cons.mp h with rfl | h
    · exact mem_of_find?_eq_some he'
    · exact ((Keyed.mem_erase _).mp h).1
  case _ => exact h

theorem mem_put {value : ν} (h : e ∈ (c.put key value).entries) :
    e = (key, value) ∨ e ∈ c.entries := by
  rw [put] at h
  split_ifs at h
  · exact mem_touch h
  · exact mem_cons.mp (mem_of_mem_take h)

/-- What has just been put in is found. -/
theorem get_put (hcap : 0 < c.capacity) (key : κ) (value : ν) :
    ((c.put key value).get key).1 = some value := by
  obtain ⟨es, hes⟩ : ∃ es, (c.put key value).entries = (key, value) :: es := by
    rw [put]
    split_ifs
    · exact ⟨_, rfl⟩
    · obtain ⟨n, hn⟩ := Nat.exists_eq_add_of_lt hcap
      exact ⟨c.entries.take n, by rw [evict]; simp [hn]⟩
  have hfind : (c.put key value).entries.find? (·.1 = key) = some (key, value) := by
    simp [hes]
  rw [get]
  split
  case _ e he =>
    cases he.symm.trans hfind
    rfl
  case _ hnone => simp [hfind] at hnone

end LRUCache

end MilvusStorage
