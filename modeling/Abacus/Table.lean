/-!
# Tables

Finite maps as lists of entries, the newest first. An insertion hides what was stored under its key
before, so the last writer wins: `get?_insert_self` and `get?_insert_of_ne` are all that the rest of
the library needs to know about tables.
-/
namespace Abacus

/-- A finite map from keys to values, in place of a hash map: its entries, the newest first. An
older entry of the same key is there but is never found. -/
structure Table (κ : Type) (α : Type) where
  entries : List (κ × α)

namespace Table

variable {κ α : Type} [DecidableEq κ]

def empty : Table κ α :=
  { entries := [] }

instance : EmptyCollection (Table κ α) :=
  ⟨empty⟩

instance : Inhabited (Table κ α) :=
  ⟨empty⟩

/-- What is stored under a key: the value of its newest entry, if it has any. -/
def get? (t : Table κ α) (key : κ) : Option α :=
  (t.entries.find? fun entry => entry.1 = key).map Prod.snd

/-- The table with one more entry, which takes the place of what was stored under the key. -/
def insert (t : Table κ α) (key : κ) (value : α) : Table κ α :=
  { entries := (key, value) :: t.entries }

/-- The table of these entries, stored in their order, so that of two with one key the later one
counts. This is how a map is collected from pairs. -/
def ofList (entries : List (κ × α)) : Table κ α :=
  entries.foldl (fun t entry => t.insert entry.1 entry.2) empty

@[simp] theorem get?_empty (key : κ) : (empty : Table κ α).get? key = none :=
  rfl

@[simp] theorem get?_insert_self (t : Table κ α) (key : κ) (value : α) :
    (t.insert key value).get? key = some value := by
  simp [get?, insert]

theorem get?_insert_of_ne (t : Table κ α) {key other : κ} (value : α) (h : key ≠ other) :
    (t.insert key value).get? other = t.get? other := by
  simp [get?, insert, h]

theorem get?_insert (t : Table κ α) (key other : κ) (value : α) :
    (t.insert key value).get? other = if key = other then some value else t.get? other := by
  by_cases h : key = other
  · subst h; simp
  · simp [get?_insert_of_ne, h]

/-- What is so of every value in a table is so after an insertion, if it is so of the new value. -/
theorem of_get?_insert {P : κ → α → Prop} {t : Table κ α}
    (h : ∀ key value, t.get? key = some value → P key value) {key : κ} {value : α}
    (hnew : P key value) (other : κ) (found : α)
    (hfound : (t.insert key value).get? other = some found) : P other found := by
  by_cases hkey : key = other
  · subst hkey
    rw [get?_insert_self] at hfound
    exact Option.some.inj hfound ▸ hnew
  · rw [get?_insert_of_ne t value hkey] at hfound
    exact h other found hfound

/-- What relates two tables at every key still does after an insertion in both, if it relates the
new values. -/
theorem rel_insert {β : Type} {R : Option α → Option β → Prop} {t : Table κ α} {u : Table κ β}
    (h : ∀ key, R (t.get? key) (u.get? key)) (key : κ) {a : α} {b : β} (hab : R (some a) (some b))
    (other : κ) : R ((t.insert key a).get? other) ((u.insert key b).get? other) := by
  by_cases hkey : key = other
  · subst hkey
    rw [get?_insert_self, get?_insert_self]
    exact hab
  · rw [get?_insert_of_ne t a hkey, get?_insert_of_ne u b hkey]
    exact h other

end Table
end Abacus
