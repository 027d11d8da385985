import Mathlib.Logic.Basic

/-! A cache over a map that changes.

A cache holds some values of a map: it is filled from the map, and may lose an entry at
any time. A change of the map at one key leaves one stale entry at most, the old value at
that key, until the key is dropped (`Within`); a lookup through the cache gives the map's
value at every other key (`Within.lookup_of_ne`). -/
namespace ArcMonark.Library

abbrev Cache (κ α : Type) := κ → Option α

namespace Cache
variable {κ α : Type} [DecidableEq κ]

def fill (c : Cache κ α) (k : κ) (a : Option α) : Cache κ α := fun j => if j = k then a else c j

def drop (c : Cache κ α) (k : κ) : Cache κ α := c.fill k none

/-- The cached value, and otherwise the map's. -/
def lookup (c m : Cache κ α) (k : κ) : Option α := (c k).or (m k)

omit [DecidableEq κ] in
theorem lookup_congr (c : Cache κ α) {m m' : Cache κ α} {k : κ} (h : m k = m' k) :
    c.lookup m k = c.lookup m' k := by
  rw [lookup, lookup, h]

theorem lookup_fill (c m : Cache κ α) (k : κ) (a : Option α) : (c.fill k a).lookup m k = a.or (m k) := by
  rw [lookup, fill, if_pos rfl]

/-- Every entry is the map's, but for the stale one: a key and its old value. -/
def Within (c m : Cache κ α) (stale : Option (κ × Option α)) : Prop :=
  ∀ k a, c k = some a → m k = some a ∨ stale = some (k, some a)

namespace Within
variable {c m m' : Cache κ α} {stale : Option (κ × Option α)} {k : κ}

omit [DecidableEq κ] in
theorem empty (m : Cache κ α) (stale : Option (κ × Option α)) : Within (fun _ => none) m stale :=
  fun _ _ h => nomatch h

theorem fill (h : Within c m stale) {a : Option α} (ha : a = m k) : Within (c.fill k a) m stale := by
  intro j b hb
  rw [Cache.fill] at hb
  split at hb
  case isTrue heq =>
    subst heq
    exact .inl (ha ▸ hb)
  case isFalse => exact h j b hb

theorem drop (h : Within c m stale) (k : κ) : Within (c.drop k) m stale := by
  intro j b hb
  rw [Cache.drop, Cache.fill] at hb
  split at hb
  · cases hb
  · exact h j b hb

/-- The map changes at one key. -/
theorem set (h : Within c m none) (hm : ∀ j, j ≠ k → m' j = m j) : Within c m' (some (k, m k)) := by
  intro j b hb
  have hold : m j = some b := (h j b hb).resolve_right nofun
  by_cases heq : j = k
  · subst heq
    exact .inr (by rw [hold])
  · exact .inl (by rw [hm j heq, hold])

/-- The changed key is dropped. -/
theorem flush {old : Option α} (h : Within c m (some (k, old))) : Within (c.drop k) m none := by
  intro j b hb
  rw [Cache.drop, Cache.fill] at hb
  split at hb
  case isTrue => cases hb
  case isFalse hne =>
    rcases h j b hb with hm | hstale
    · exact .inl hm
    · exact absurd (congrArg Prod.fst (Option.some.inj hstale)).symm hne

omit [DecidableEq κ] in
theorem lookup_of_ne (h : Within c m stale) (hk : ∀ old, stale ≠ some (k, old)) : lookup c m k = m k := by
  rw [lookup]
  cases hc : c k with
  | none => rfl
  | some a => exact ((h k a hc).resolve_right (hk _)).symm

omit [DecidableEq κ] in
/-- At the stale key the old value may still be seen, and nothing else. -/
theorem lookup_stale {old : Option α} (h : Within c m (some (k, old))) :
    lookup c m k = m k ∨ lookup c m k = old := by
  rw [lookup]
  cases hc : c k with
  | none => exact .inl rfl
  | some a =>
    rcases h k a hc with hm | hstale
    · exact .inl hm.symm
    · exact .inr (congrArg Prod.snd (Option.some.inj hstale)).symm

end Within

end Cache

end ArcMonark.Library
